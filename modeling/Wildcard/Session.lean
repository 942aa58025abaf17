import Wildcard.Sequence

/-!
# Sessions

A session holds patterns and subjects and collects the sequences and cursors made from them, each
list numbered from 0. A step that fails adds nothing.
-/

namespace Wildcard

structure Session where
  patterns : List Pattern
  subjects : List Subject
  sequences : List Sequence := []
  cursors : List Cursor := []

inductive Step
  | sequence (pattern subject : Nat) (range : Range)
  /-- A sequence whose range is looked at only when a cursor begins. -/
  | unchecked (pattern subject : Nat) (start length : Int)
  | collect (sequence : Nat)
  | begin (sequence : Nat)
  | finish (sequence : Nat)
  | copy (cursor : Nat)
  | current (cursor : Nat)
  | advance (cursor : Nat)
  /-- Advance a cursor and keep a copy of how it stood before. -/
  | advanceKeeping (cursor : Nat)
  | isDone (cursor : Nat)
  | same (a b : Nat)
  deriving DecidableEq, Repr

inductive Answer
  | index (n : Nat)
  | found (ms : List Match)
  | one (m : Match)
  | truth (b : Bool)
  | outside (e : RangeError)
  /-- The step names something that the session does not hold. -/
  | unknown
  deriving DecidableEq, Repr

namespace Session

def held {α : Type} (xs : List α) (i : Nat) : Option (Held α) := xs[i]?.map (⟨i, ·⟩)

def addSequence (s : Session) (added : Sequence) : Answer × Session :=
  (.index s.sequences.length, { s with sequences := s.sequences ++ [added] })

def addCursor (s : Session) (added : Cursor) : Answer × Session :=
  (.index s.cursors.length, { s with cursors := s.cursors ++ [added] })

def orOutside {α : Type} (s : Session) (outcome : Except RangeError α)
    (next : α → Answer × Session) : Answer × Session :=
  match outcome with
  | .error e => (.outside e, s)
  | .ok a => next a

def orUnknown {α : Type} (s : Session) (named : Option α) (next : α → Answer × Session) :
    Answer × Session :=
  match named with
  | none => (.unknown, s)
  | some a => next a

def step (s : Session) : Step → Answer × Session
  | .sequence pattern subject range =>
    s.orUnknown (held s.patterns pattern) fun p =>
      s.orUnknown (held s.subjects subject) fun t =>
        s.orOutside (Sequence.ofRange p t range) s.addSequence
  | .unchecked pattern subject start length =>
    s.orUnknown (held s.patterns pattern) fun p =>
      s.orUnknown (held s.subjects subject) fun t => s.addSequence ⟨p, t, start, length⟩
  | .collect i =>
    s.orUnknown s.sequences[i]? fun q => s.orOutside q.collect fun ms => (.found ms, s)
  | .begin i => s.orUnknown s.sequences[i]? fun q => s.orOutside q.begin s.addCursor
  | .finish i => s.orUnknown s.sequences[i]? fun q => s.addCursor q.finish
  | .copy i => s.orUnknown s.cursors[i]? s.addCursor
  | .current i => s.orUnknown s.cursors[i]? fun c => (.one c.current, s)
  | .advance i =>
    s.orUnknown s.cursors[i]? fun c =>
      s.orOutside c.advance fun d => (.one d.current, { s with cursors := s.cursors.set i d })
  | .advanceKeeping i =>
    s.orUnknown s.cursors[i]? fun c =>
      s.orOutside c.advance fun d =>
        (.one c.current, { s with cursors := s.cursors.set i d ++ [c] })
  | .isDone i => s.orUnknown s.cursors[i]? fun c => (.truth (decide (c.phase = .done)), s)
  | .same i j =>
    s.orUnknown s.cursors[i]? fun c => s.orUnknown s.cursors[j]? fun d => (.truth (c.same d), s)

/-- The answers to a list of steps, and the session after them. -/
def run (s : Session) : List Step → List Answer × Session
  | [] => ([], s)
  | t :: rest =>
    let (answer, next) := s.step t
    let (answers, final) := next.run rest
    (answer :: answers, final)

end Session
end Wildcard
