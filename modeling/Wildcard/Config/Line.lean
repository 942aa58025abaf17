import Wildcard.Bytes

/-!
# Lines of a configuration document

A document is flat: headings in brackets, `key = value` assignments, comments after `#`. Every
line is read by itself.
-/

namespace Wildcard
namespace Config

inductive Line
  | blank
  | heading (name : Bytes)
  | assignment (key value : Bytes)
  | bad
  deriving DecidableEq, Repr

namespace Line

def comment : UInt8 := 35
def equals : UInt8 := 61
def opening : UInt8 := 91
def closing : UInt8 := 93

def isQuote (b : UInt8) : Bool := b == 34 || b == 39

/-- A bare value ends where a comment begins. -/
def uncomment (value : Bytes) : Bytes :=
  match Bytes.splitFirst? comment value with
  | some (kept, _) => Bytes.trim kept
  | none => value

/-- The value that a trimmed text stands for: all that is between an opening quote and the next
quote of its kind, else the text up to a comment. -/
def valueOf : Bytes → Bytes
  | [] => []
  | q :: rest =>
    if isQuote q then
      match Bytes.splitFirst? q rest with
      | some (inside, _) => inside
      | none => uncomment (q :: rest)
    else uncomment (q :: rest)

def ofTrimmed (text : Bytes) : Line :=
  if text.isEmpty || text.head? == some comment then .blank
  else if text.head? == some opening && text.getLast? == some closing then
    .heading (Bytes.trim (text.drop 1).dropLast)
  else
    match Bytes.splitFirst? equals text with
    | some (b :: key, value) => .assignment (Bytes.trim (b :: key)) (valueOf (Bytes.trim value))
    | _ => .bad

def ofText (text : Bytes) : Line := ofTrimmed (Bytes.trim text)

end Line
end Config
end Wildcard
