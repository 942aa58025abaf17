import Wildcard.Bytes

/-!
# The language of a format

A format is a string of bytes in which two bytes are tokens: the unknown token stands for exactly
one byte and the anything token for any byte string, the empty one included. Every other byte
stands for itself. Everything that compiling and finding do is measured against this reading.
-/

namespace Wildcard

structure Tokens where
  unknown : UInt8 := 63
  anything : UInt8 := 42
  deriving DecidableEq, Repr

namespace Tokens

/-- The text belongs to the language of the format. -/
inductive Accepts (tokens : Tokens) : Bytes → Bytes → Prop
  | nil : Accepts tokens [] []
  | unknown (b : UInt8) {format text : Bytes} :
      Accepts tokens format text → Accepts tokens (tokens.unknown :: format) (b :: text)
  | anything (skipped : Bytes) {format text : Bytes} :
      Accepts tokens format text → Accepts tokens (tokens.anything :: format) (skipped ++ text)
  | literal {b : UInt8} {format text : Bytes} : b ≠ tokens.unknown → b ≠ tokens.anything →
      Accepts tokens format text → Accepts tokens (b :: format) (b :: text)

/-- The format without the anything tokens at its ends. -/
def core (tokens : Tokens) (format : Bytes) : Bytes :=
  Bytes.dropTrailing (· == tokens.anything) (format.dropWhile (· == tokens.anything))

end Tokens
end Wildcard
