import Wildcard.Needle
import Wildcard.SearchRun
import Wildcard.Section

/-!
# Targets

A target is a section made ready to be placed in a subject: with the run of its literal that is
searched for and the needle of that run. Placing a target means finding the leftmost position in a
window where all of it fits.
-/

namespace Wildcard

/-- Whether all bytes but the unknown tokens stand in the subject from a position on. -/
def agreesAt (unknown : UInt8) (subject : Subject) : Nat → Bytes → Bool
  | _, [] => true
  | pos, b :: rest =>
    (b == unknown || subject[pos]? == some b) && agreesAt unknown subject (pos + 1) rest

structure Target extends Section where
  run : Run
  needle : Needle
  needle_bytes : needle.bytes = run.bytes

namespace Target

def withRun (s : Section) (run : Run) : Target :=
  { s with run := run, needle := .ofBytes run.bytes, needle_bytes := rfl }

def ofSection (unknown : UInt8) (s : Section) : Target :=
  withRun s (SearchRun.choose unknown s.literal)

@[simp] theorem toSection_withRun (s : Section) (run : Run) : (withRun s run).toSection = s := rfl

@[simp] theorem toSection_ofSection (unknown : UInt8) (s : Section) :
    (ofSection unknown s).toSection = s := rfl

def before (t : Target) : Bytes := t.literal.take t.run.start

def after (t : Target) : Bytes := t.literal.drop t.run.stop

/-- Whether the literal agrees with a subject when the target starts at `pos`. -/
def fitsAt (t : Target) (unknown : UInt8) (subject : Subject) (pos : Nat) : Bool :=
  agreesAt unknown subject (pos + t.leading) t.literal

/-- The first position where the run can stand when the target starts at or after `cursor`. -/
def searchStart (t : Target) (cursor : Nat) : Nat := cursor + t.leading + t.run.start

/-- Where the run must have ended for the target to end at or before `limit`. -/
def searchStop (t : Target) (limit : Nat) : Int := limit - t.trailing - t.after.length

/-- Go through the occurrences of the run from `pos` on until the bytes around one agree as well.
After an occurrence that fails, the search resumes one past it. -/
def search (t : Target) (unknown : UInt8) (subject : Subject) (before after : Bytes)
    (stop pos : Nat) : Option Nat :=
  match _h : t.needle.findIn subject stop pos with
  | none => none
  | some p =>
    if agreesAt unknown subject (p - t.run.start) before &&
        agreesAt unknown subject (p + t.run.length) after then
      some (p - t.run.start - t.leading)
    else search t unknown subject before after stop (p + 1)
termination_by stop + 1 - pos
decreasing_by
  have := Needle.findIn_bounds _h
  omega

/-- The leftmost start of a target that is no gap, all of it between `cursor` and `limit`. -/
def locate (t : Target) (unknown : UInt8) (subject : Subject) (cursor limit : Nat) : Option Nat :=
  if t.searchStop limit - t.searchStart cursor < t.run.length then none
  else t.search unknown subject t.before t.after (t.searchStop limit).toNat (t.searchStart cursor)

/-- The leftmost start of a target between `cursor` and `limit`: a gap fits wherever there is room. -/
def place (t : Target) (unknown : UInt8) (subject : Subject) (cursor limit : Nat) : Option Nat :=
  if t.isGap then if cursor + t.width ≤ limit then some cursor else none
  else t.locate unknown subject cursor limit

theorem search_ge {t : Target} {unknown : UInt8} {subject : Subject} {before after : Bytes}
    {stop pos at_ : Nat} (h : t.search unknown subject before after stop pos = some at_) :
    pos ≤ at_ + t.run.start + t.leading := by
  fun_induction search t unknown subject before after stop pos with
  | case1 => cases h
  | case2 pos p hp _ => have := Needle.findIn_bounds hp; cases h; omega
  | case3 pos p hp _ ih => have := Needle.findIn_bounds hp; have := ih h; omega

theorem place_ge {t : Target} {unknown : UInt8} {subject : Subject} {cursor limit at_ : Nat}
    (h : t.place unknown subject cursor limit = some at_) : cursor ≤ at_ := by
  unfold place locate at h
  split at h
  · split at h <;> cases h
    omega
  · split at h
    · cases h
    · have := search_ge h
      simp only [searchStart] at this
      omega

end Target
end Wildcard
