/-!
# Byte strings

Formats, subjects, settings and messages are all strings of bytes: no encoding is read, so one
unknown token stands for one byte and every count is a count of bytes.
-/

namespace Wildcard

abbrev Bytes := List UInt8

namespace Bytes

/-- The bytes of a text whose characters are all below U+0100, one byte each. -/
def ascii (text : String) : Bytes :=
  text.toList.map fun c => UInt8.ofNat c.toNat

def decimal (n : Nat) : Bytes :=
  (Nat.toDigits 10 n).map fun c => UInt8.ofNat c.toNat

def decimalInt : Int → Bytes
  | .ofNat n => decimal n
  | .negSucc n => 45 :: decimal (n + 1)

/-- Only the letters `A` to `Z` have a lower-case form. -/
def lowerByte (b : UInt8) : UInt8 :=
  if 65 ≤ b ∧ b ≤ 90 then b + 32 else b

def lower (s : Bytes) : Bytes := s.map lowerByte

/-- Blanks are the space and the five bytes from tab to carriage return. -/
def isBlank (b : UInt8) : Bool := b == 32 || (9 ≤ b && b ≤ 13)

def dropTrailing (p : UInt8 → Bool) (s : Bytes) : Bytes := (s.reverse.dropWhile p).reverse

theorem length_dropTrailing_le (p : UInt8 → Bool) (s : Bytes) :
    (dropTrailing p s).length ≤ s.length := by
  have h := (List.dropWhile_sublist p : List.Sublist (s.reverse.dropWhile p) s.reverse).length_le
  simpa [dropTrailing] using h

def trim (s : Bytes) : Bytes := dropTrailing isBlank (s.dropWhile isBlank)

/-- The part of a text that a reader sees who stops at the first NUL. -/
def beforeNul (s : Bytes) : Bytes := s.takeWhile (· != 0)

def splitFirst? (b : UInt8) (s : Bytes) : Option (Bytes × Bytes) :=
  match s.dropWhile (· != b) with
  | [] => none
  | _ :: after => some (s.takeWhile (· != b), after)

end Bytes
end Wildcard
