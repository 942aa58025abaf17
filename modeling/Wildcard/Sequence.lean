import Wildcard.Find

/-!
# Sequences of matches

A sequence is a pattern, a subject and a range; a cursor goes through its successive matches, one
at a time and without overlaps. Every cursor of a sequence starts over at the start of the range.
-/

namespace Wildcard

/-- A value with the number that tells its holder from every other holder of an equal value. -/
structure Held (α : Type) where
  id : Nat
  value : α

inductive Phase
  /-- There may be a match after the current one. -/
  | ready
  /-- The current match is known to be the final one. -/
  | last
  /-- The cursor has run off the end and keeps the match it had. -/
  | done
  deriving DecidableEq, Repr

structure Cursor where
  pattern : Held Pattern
  subject : Held Subject
  /-- Where the next match is looked for. -/
  position : Int
  stop : Int
  current : Match := .missing 0
  phase : Phase := .ready

namespace Cursor

/-- Take over the outcome of a find. An empty match would be found again forever, and a format
that covers the range has no second match in it. -/
def take (c : Cursor) (m : Match) : Cursor :=
  if !m.found then { c with phase := .done }
  else if m.length = 0 ∨ c.pattern.value.mode = .whole then
    { c with current := m, phase := .last }
  else
    { c with
      current := m
      position := m.stop
      phase := if c.stop ≤ m.stop then .last else .ready }

def advance (c : Cursor) : Except RangeError Cursor :=
  match c.phase with
  | .done => .ok c
  | .last => .ok { c with phase := .done }
  | .ready =>
    (c.pattern.value.find c.subject.value (.span c.position (word (c.stop - c.position)))).map c.take

/-- More than the number of advances before the cursor is done. -/
def weight (c : Cursor) : Nat :=
  match c.phase with
  | .done => 0
  | .last => 1
  | .ready => (c.stop - c.position).toNat + 2

theorem weight_take_lt (c : Cursor) (m : Match) (hc : c.phase = .ready)
    (hm : c.position ≤ m.start) : (c.take m).weight < c.weight := by
  have hw : c.weight = (c.stop - c.position).toNat + 2 := by simp [weight, hc]
  unfold take
  split
  · simp [weight, hc]
  · split
    · simp [weight, hc]
    · rename_i hfound hmore
      obtain ⟨start, length?⟩ := m
      cases length? with
      | none => simp [Match.found] at hfound
      | some n =>
        have hn : n ≠ 0 := by
          intro hn
          exact hmore (Or.inl (by simp [Match.length, hn]))
        rw [hw]
        simp only [Match.stop, Match.length] at hm ⊢
        unfold weight
        by_cases hs : c.stop ≤ (start : Int) + (n : Int)
        · simp [hs]
        · simp only [hs, if_false]
          omega

theorem weight_advance_lt {c d : Cursor} (hc : c.phase ≠ .done) (h : c.advance = .ok d) :
    d.weight < c.weight := by
  unfold advance at h
  split at h
  · contradiction
  · rename_i hl
    cases h
    simp [weight, hl]
  · rename_i hr
    cases hf : c.pattern.value.find c.subject.value
        (.span c.position (word (c.stop - c.position))) with
    | error e => simp [hf, Except.map] at h
    | ok m =>
      simp only [hf, Except.map, Except.ok.injEq] at h
      subst h
      exact weight_take_lt c m hr (Pattern.find_span_start_ge hf)

def rest (c : Cursor) : Except RangeError (List Match) :=
  if _hc : c.phase = .done then .ok []
  else
    match _h : c.advance with
    | .error e => .error e
    | .ok d => d.rest.map (c.current :: ·)
termination_by c.weight
decreasing_by exact weight_advance_lt _hc _h

/-- Two cursors that are not done are the same if they stand at the same match of the same
pattern in the same subject; their ranges do not count. -/
def same (c d : Cursor) : Bool :=
  if c.phase = .done ∨ d.phase = .done then decide (c.phase = .done ↔ d.phase = .done)
  else c.pattern.id == d.pattern.id && c.subject.id == d.subject.id && c.current == d.current

end Cursor

structure Sequence where
  pattern : Held Pattern
  subject : Held Subject
  start : Int
  length : Int

namespace Sequence

def ofRange (pattern : Held Pattern) (subject : Held Subject) (range : Range) :
    Except RangeError Sequence :=
  (range.resolve subject.value.size).map fun w => ⟨pattern, subject, w.start, w.length⟩

def cursor (s : Sequence) : Cursor :=
  { pattern := s.pattern
    subject := s.subject
    position := s.start
    stop := word (s.start + s.length) }

def begin (s : Sequence) : Except RangeError Cursor := s.cursor.advance

def finish (s : Sequence) : Cursor := { s.cursor with phase := .done }

def collect (s : Sequence) : Except RangeError (List Match) := s.begin.bind Cursor.rest

end Sequence

namespace Pattern

def allMatches (p : Pattern) (subject : Subject) (range : Range) : Except RangeError (List Match) :=
  (Sequence.ofRange ⟨0, p⟩ ⟨0, subject⟩ range).bind Sequence.collect

end Pattern
end Wildcard
