import Wildcard.Target

/-!
# Compiled patterns

Compiling checks the format and its tokens, reads off the anchors and turns the sections of the
format into targets.
-/

namespace Wildcard

inductive Mode
  | whole | anywhere
  deriving DecidableEq, Repr

inductive PatternError
  | emptyFormat
  | sameTokens (token : UInt8)
  | formatTooLong
  deriving DecidableEq, Repr

/-- A message ends at its first NUL, which only the token can be. -/
def PatternError.message : PatternError → Bytes
  | .emptyFormat => Bytes.ascii "wildcard pattern is empty"
  | .sameTokens token =>
    Bytes.beforeNul (Bytes.ascii "unknown and anything tokens are both '" ++ [token, 39])
  | .formatTooLong => Bytes.ascii "wildcard pattern too long"

structure Anchors where
  atStart : Bool
  atEnd : Bool
  deriving DecidableEq, Repr

/-- A format that has to cover the range is anchored where it does not begin or end with an
anything token. -/
def Anchors.of (mode : Mode) (anything : UInt8) (format : Bytes) : Anchors :=
  match mode with
  | .whole => ⟨format.head? != some anything, format.getLast? != some anything⟩
  | .anywhere => ⟨false, false⟩

structure Pattern where
  format : Bytes
  mode : Mode
  tokens : Tokens
  anchors : Anchors
  targets : List Target
  /-- No shorter range has a match. -/
  minWidth : Nat

namespace Pattern

def sections (p : Pattern) : List Section := p.targets.map Target.toSection

def compile (format : Bytes) (mode : Mode) (tokens : Tokens) : Except PatternError Pattern :=
  if format.isEmpty then .error .emptyFormat
  else if tokens.unknown = tokens.anything then .error (.sameTokens tokens.unknown)
  else if 2147483647 < format.length then .error .formatTooLong
  else
    let anchors := Anchors.of mode tokens.anything format
    let sections := tokens.sections anchors.atEnd format
    .ok
      { format := format
        mode := mode
        tokens := tokens
        anchors := anchors
        targets := sections.map (Target.ofSection tokens.unknown)
        minWidth := Section.totalWidth sections }

/-- A format that can be compiled: it is not empty, its tokens differ, and cutting it, which counts
one past its last byte, counts words only. -/
structure Compilable (format : Bytes) (tokens : Tokens) : Prop where
  nonempty : format ≠ []
  distinct : tokens.unknown ≠ tokens.anything
  countable : format.length < 2147483647

theorem compilable_iff {format : Bytes} {tokens : Tokens} :
    Compilable format tokens ↔
      format ≠ [] ∧ tokens.unknown ≠ tokens.anything ∧ format.length < 2147483647 :=
  ⟨fun h => ⟨h.nonempty, h.distinct, h.countable⟩, fun h => ⟨h.1, h.2.1, h.2.2⟩⟩

instance (format : Bytes) (tokens : Tokens) : Decidable (Compilable format tokens) :=
  decidable_of_iff _ compilable_iff.symm

theorem compile_isOk_iff (format : Bytes) (mode : Mode) (tokens : Tokens) :
    (compile format mode tokens).isOk = true ↔
      format ≠ [] ∧ tokens.unknown ≠ tokens.anything ∧ format.length < 2147483648 := by
  unfold compile
  split
  · simp_all [Except.isOk, Except.toBool]
  · split
    · simp_all [Except.isOk, Except.toBool]
    · split
      · simp_all [Except.isOk, Except.toBool]
        omega
      · simp_all [Except.isOk, Except.toBool]
        omega

end Pattern
end Wildcard
