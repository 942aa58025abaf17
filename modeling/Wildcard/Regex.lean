import Wildcard.Pattern

/-!
# Regular expressions

A compiled pattern written as a regular expression with search semantics, plain or as a
single-quoted literal of SQL.
-/

namespace Wildcard

inductive Dialect
  | plain | sqlQuoted
  deriving DecidableEq, Repr

namespace Regex

def quote : UInt8 := 39
def backslash : UInt8 := 92

/-- The bytes that mean something else than themselves outside a bracket expression. -/
def metacharacters : Bytes := Bytes.ascii ".^$|?*+()[]\x7b\x7d\\"

def anyByte : Bytes := Bytes.ascii "."
def anyText : Bytes := Bytes.ascii ".*"

/-- One byte of a literal. A quoted literal writes a quote twice. -/
def ofByte (dialect : Dialect) (unknown b : UInt8) : Bytes :=
  if b == unknown then anyByte
  else if dialect = .sqlQuoted ∧ b = quote then [quote, quote]
  else if metacharacters.contains b then [backslash, b]
  else [b]

def ofSection (dialect : Dialect) (unknown : UInt8) (s : Section) : Bytes :=
  (List.replicate s.leading anyByte).flatten ++ s.literal.flatMap (ofByte dialect unknown) ++
    (List.replicate s.trailing anyByte).flatten

def shownIf (condition : Bool) (shown : Bytes) : Bytes := if condition then shown else []

/-- Outer anything tokens stay visible in either mode; anchors stand outside them. -/
def body (dialect : Dialect) (p : Pattern) : Bytes :=
  if p.targets.isEmpty then anyText
  else
    shownIf (p.format.head? == some p.tokens.anything) anyText ++
      anyText.intercalate (p.sections.map (ofSection dialect p.tokens.unknown)) ++
      shownIf (p.format.getLast? == some p.tokens.anything) anyText ++
      shownIf p.anchors.atEnd (Bytes.ascii "$")

def ofPattern (dialect : Dialect) (p : Pattern) : Bytes :=
  let text := shownIf p.anchors.atStart (Bytes.ascii "^") ++ body dialect p
  match dialect with
  | .plain => text
  | .sqlQuoted => [quote] ++ text ++ [quote]

end Regex
end Wildcard
