import Wildcard.Bytes.Runs
import Wildcard.Language

/-!
# Sections of a format

A section is a maximal run of format bytes between anything tokens. Its unknown tokens at either
end are only counted, so that its literal starts and ends with a byte that must be found. Four
passes bring the sections of a format into the form that finding relies on: cut, trim, merge the
gaps, and move leading unknowns back.
-/

namespace Wildcard

structure Section where
  /-- Where the literal starts in the format. -/
  start : Nat
  literal : Bytes
  leading : Nat := 0
  trailing : Nat := 0
  deriving DecidableEq, Repr

namespace Section

def width (s : Section) : Nat := s.leading + s.literal.length + s.trailing

def isGap (s : Section) : Bool := s.literal.isEmpty

def widen (s : Section) (n : Nat) : Section := { s with trailing := s.trailing + n }

@[simp] theorem width_widen (s : Section) (n : Nat) : (s.widen n).width = s.width + n := by
  simp [width, widen]; omega

def ofRun (r : Run) : Section := { start := r.start, literal := r.bytes }

/-- The pieces between anything tokens, empty pieces left out. -/
def cut (anything : UInt8) (format : Bytes) : List Section :=
  (Run.between anything 0 format).map ofRun

/-- Count the unknowns at the ends of the literal instead of keeping them, the last ones first: of
a gap all unknowns end up trailing, and its literal starts where the gap does. -/
def trim (unknown : UInt8) (s : Section) : Section :=
  let kept := Bytes.dropTrailing (· == unknown) s.literal
  let literal := kept.dropWhile (· == unknown)
  { start := s.start + (kept.length - literal.length)
    literal := literal
    leading := s.leading + (kept.length - literal.length)
    trailing := s.trailing + (s.literal.length - kept.length) }

@[simp] theorem width_trim (unknown : UInt8) (s : Section) : (s.trim unknown).width = s.width := by
  have hk := Bytes.length_dropTrailing_le (· == unknown) s.literal
  have hl : ((Bytes.dropTrailing (· == unknown) s.literal).dropWhile (· == unknown)).length ≤
      (Bytes.dropTrailing (· == unknown) s.literal).length :=
    (List.dropWhile_sublist _).length_le
  simp only [width, trim]
  omega

/-- Widen `s` by the gaps that follow it. With `keepLast`, a gap at the very end stays. -/
def absorbGaps (keepLast : Bool) (s : Section) : List Section → List Section
  | [] => [s]
  | t :: rest =>
    if t.isGap && !(keepLast && rest.isEmpty) then
      absorbGaps keepLast (s.widen (t.leading + t.trailing)) rest
    else s :: absorbGaps keepLast t rest

/-- Fold every gap into the section before it: `abc*??*456` asks for what `abc??*456` asks for.
The first section has none before it, and a gap in front of an end anchor stays, since `abc*??`
asks for less than `abc??`. -/
def mergeGaps (anchoredEnd : Bool) : List Section → List Section
  | [] => []
  | s :: rest => absorbGaps anchoredEnd s rest

def moveLeading (s : Section) : List Section → List Section
  | [] => [s]
  | t :: rest => s.widen t.leading :: moveLeading { t with leading := 0 } rest

/-- Move the leading unknowns of a section to the end of the one before it: `abc?*??456` asks for
what `abc???*456` asks for. -/
def shiftLeading : List Section → List Section
  | [] => []
  | s :: rest => moveLeading s rest

def totalWidth : List Section → Nat
  | [] => 0
  | s :: rest => s.width + totalWidth rest

@[simp] theorem totalWidth_cons (s : Section) (rest : List Section) :
    totalWidth (s :: rest) = s.width + totalWidth rest := rfl

end Section

namespace Tokens

def trimmedSections (tokens : Tokens) (format : Bytes) : List Section :=
  (Section.cut tokens.anything format).map (Section.trim tokens.unknown)

def mergedSections (tokens : Tokens) (anchoredEnd : Bool) (format : Bytes) : List Section :=
  Section.mergeGaps anchoredEnd (tokens.trimmedSections format)

/-- The sections of a format in the form that finding relies on. -/
def sections (tokens : Tokens) (anchoredEnd : Bool) (format : Bytes) : List Section :=
  Section.shiftLeading (tokens.mergedSections anchoredEnd format)

end Tokens
end Wildcard
