import Wildcard.Bytes

/-!
# Maximal runs

The pieces of a text between the occurrences of one byte, empty pieces left out, each with the
position where it starts. Sections of a format are the runs between anything tokens; search runs
of a literal are the runs between unknown tokens.
-/

namespace Wildcard

structure Run where
  start : Nat
  bytes : Bytes
  deriving DecidableEq, Repr

namespace Run

abbrev length (r : Run) : Nat := r.bytes.length

abbrev stop (r : Run) : Nat := r.start + r.length

/-- Put the byte at `pos` in front of the runs of the text from `pos + 1` on. -/
def extend (pos : Nat) (b : UInt8) : List Run → List Run
  | [] => [⟨pos, [b]⟩]
  | r :: rest => if r.start = pos + 1 then ⟨pos, b :: r.bytes⟩ :: rest else ⟨pos, [b]⟩ :: r :: rest

/-- The maximal runs without `gap` in a text whose first byte has position `pos`. -/
def between (gap : UInt8) : Nat → Bytes → List Run
  | _, [] => []
  | pos, b :: rest =>
    if b == gap then between gap (pos + 1) rest else extend pos b (between gap (pos + 1) rest)

end Run
end Wildcard
