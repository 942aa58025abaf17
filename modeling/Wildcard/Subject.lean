import Wildcard.Bytes

/-!
# Subjects

A subject is a text that is searched. It is an array, so that any position is read at once.
-/

namespace Wildcard

abbrev Subject := Array UInt8

namespace Subject

def slice (subject : Subject) (start length : Nat) : Bytes :=
  (subject.extract start (start + length)).toList

theorem slice_eq (subject : Subject) (start length : Nat) :
    slice subject start length = (subject.toList.drop start).take length := by
  simp [slice, List.extract_eq_take_drop]

@[simp] theorem slice_all (subject : Subject) : slice subject 0 subject.size = subject.toList := by
  simp [slice]

end Subject
end Wildcard
