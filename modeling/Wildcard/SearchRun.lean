import Wildcard.Bytes.Runs

/-!
# The run that drives a search

A literal with unknowns inside cannot be searched as a whole. Of its runs between unknowns the one
that is least likely to occur by chance is searched, and the bytes around it are compared where it
occurs. The choice decides only how fast the search is.
-/

namespace Wildcard
namespace SearchRun

def distinct : Bytes → Nat
  | [] => 0
  | b :: rest => distinct rest + if rest.contains b then 0 else 1

def repeats : Bytes → Nat
  | b :: c :: rest => repeats (c :: rest) + if b = c then 1 else 0
  | _ => 0

/-- Many different bytes and few repeats promise few false positives. -/
def score (bytes : Bytes) : Int := distinct bytes - repeats bytes

/-- Keep the run held so far unless the next one has a higher score, or the same and more bytes. -/
def prefer (held : Int × Run) (next : Run) : Int × Run :=
  let points := score next.bytes
  if held.1 < points ∨ points = held.1 ∧ held.2.length < next.length then (points, next) else held

/-- The run of a literal to search for; a literal with no byte but unknowns has the empty run. -/
def choose (unknown : UInt8) (literal : Bytes) : Run :=
  match Run.between unknown 0 literal with
  | [] => ⟨0, []⟩
  | r :: rest => (rest.foldl prefer (score r.bytes, r)).2

end SearchRun
end Wildcard
