import Wildcard.Bytes.Lines
import Wildcard.Printing
import Wildcard.Sequence

/-!
# Line filter

A pattern is matched against every line of an input. The lines that match, or those that do not,
are selected, and of each selected line the whole or only the matches are shown. A line that is too
long to be searched stops the filter.
-/

namespace Wildcard
namespace LineFilter

structure Spec where
  onlyMatching : Bool := false
  countOnly : Bool := false
  invert : Bool := false
  lineNumbers : Bool := false
  deriving DecidableEq, Repr

structure Report where
  selected : Nat
  output : Bytes
  deriving DecidableEq, Repr

def colon : UInt8 := 58
def carriageReturn : UInt8 := 13

/-- The text of a line without the carriage return that may end it. -/
def chop (line : Bytes) : Bytes :=
  if line.getLast? == some carriageReturn then line.dropLast else line

/-- The texts of the matches in a line. An empty match shows nothing. -/
def pieces (p : Pattern) (line : Bytes) : Except RangeError (List Bytes) :=
  let subject := line.toArray
  (p.allMatches subject .all).map fun ms =>
    ms.filterMap fun m =>
      match m.length? with
      | some (n + 1) => some (Subject.slice subject m.start (n + 1))
      | _ => none

/-- What a selected line shows. Of a line without a match there is only the whole to show. -/
def shown (p : Pattern) (spec : Spec) (line : Bytes) : Except RangeError (List Bytes) :=
  if spec.onlyMatching && !spec.invert then pieces p line else .ok [line]

def labelText (label : Bytes) : Bytes := if label.isEmpty then [] else label ++ [colon]

def numberText (spec : Spec) (number : Nat) : Bytes :=
  if spec.lineNumbers then Bytes.decimal number ++ [colon] else []

/-- What a line shows if it is selected: nothing where the lines are only counted. -/
def answer (p : Pattern) (spec : Spec) (line : Bytes) : Except RangeError (Option (List Bytes)) := do
  if (← p.isMatch line.toArray .all) = spec.invert then return none
  else if spec.countOnly then return some []
  else return some (← shown p spec line)

def printLine (p : Pattern) (spec : Spec) (label : Bytes) (number : Nat) (line : Bytes) :
    Printing Nat := do
  match ← Printing.ofExcept (answer p spec (chop line)) with
  | none => return 0
  | some texts =>
    Printing.print (Bytes.unlines (texts.map (labelText label ++ numberText spec number ++ ·)))
    return 1

def printLines (p : Pattern) (spec : Spec) (label : Bytes) : Nat → List Bytes → Printing Nat
  | _, [] => pure 0
  | number, line :: rest => do
    let selected ← printLine p spec label number line
    (selected + ·) <$> printLines p spec label (number + 1) rest

def print (p : Pattern) (spec : Spec) (label input : Bytes) : Printing Nat := do
  let selected ← printLines p spec label 1 (Bytes.lines input)
  if spec.countOnly then
    Printing.print (labelText label ++ Bytes.decimal selected ++ [Bytes.newline])
  return selected

/-- What a filter reports that has gone through its whole input. -/
def run (p : Pattern) (spec : Spec) (label input : Bytes) : Except RangeError Report :=
  let printed := print p spec label input
  printed.result.map fun selected => ⟨selected, printed.out⟩

end LineFilter
end Wildcard
