import Wildcard.Pattern
import Wildcard.Range

/-!
# Finding a match

The anchored targets are checked at the bounds of the range and every other target is placed
leftmost after the one before it. A placed target is never moved again: with only anything tokens
between two targets, the leftmost place leaves the most room for the rest.
-/

namespace Wildcard

/-- A match covers `length?` bytes from `start` on; without a length nothing was found from
`start` on. -/
structure Match where
  start : Nat
  length? : Option Nat
  deriving DecidableEq, Repr

namespace Match

def missing (start : Nat) : Match := ⟨start, none⟩

def covering (start length : Nat) : Match := ⟨start, some length⟩

def found (m : Match) : Bool := m.length?.isSome

/-- The length, −1 if nothing was found. -/
def length (m : Match) : Int :=
  match m.length? with
  | some n => n
  | none => -1

def stop (m : Match) : Int := m.start + m.length

@[simp] theorem found_missing (start : Nat) : (missing start).found = false := rfl
@[simp] theorem found_covering (start length : Nat) : (covering start length).found = true := rfl
@[simp] theorem length_covering (start length : Nat) : (covering start length).length = length := rfl
@[simp] theorem start_covering (start length : Nat) : (covering start length).start = start := rfl

end Match

namespace Pattern

/-- Place the targets one after the other and give the end of the last one. -/
def placeAll (unknown : UInt8) (subject : Subject) (limit : Nat) : Nat → List Target → Option Nat
  | cursor, [] => some cursor
  | cursor, t :: rest =>
    match t.place unknown subject cursor limit with
    | none => none
    | some pos => placeAll unknown subject limit (pos + t.width) rest

/-- Check the target that is anchored at the start, and give the end of it with the targets that
remain. -/
def stepStart (p : Pattern) (subject : Subject) (start : Nat) : Option (Nat × List Target) :=
  match p.anchors.atStart, p.targets with
  | true, t :: rest =>
    if t.fitsAt p.tokens.unknown subject start then some (start + t.width, rest) else none
  | _, targets => some (start, targets)

/-- Check the target that is anchored at the end, behind `cursor`, and give the start of it with
the targets that remain. If the anchor at the start took the only target, that must end here. -/
def stepEnd (p : Pattern) (subject : Subject) (cursor stop : Nat) (targets : List Target) :
    Option (Nat × List Target) :=
  if p.anchors.atEnd then
    match targets.getLast? with
    | none => if cursor = stop then some (stop, []) else none
    | some t =>
      if cursor + t.width ≤ stop && t.fitsAt p.tokens.unknown subject (stop - t.width) then
        some (stop - t.width, targets.dropLast)
      else none
  else some (stop, targets)

def covers (p : Pattern) (subject : Subject) (start stop : Nat) : Bool :=
  match p.stepStart subject start with
  | none => false
  | some (cursor, rest) =>
    match p.stepEnd subject cursor stop rest with
    | none => false
    | some (limit, interior) =>
      (placeAll p.tokens.unknown subject limit cursor interior).isSome

def spanOf (unknown : UInt8) (subject : Subject) (start stop : Nat) :
    List Target → Option (Nat × Nat)
  | [] => none
  | t :: rest =>
    match t.place unknown subject start stop with
    | none => none
    | some first =>
      (placeAll unknown subject stop (first + t.width) rest).map fun last => (first, last)

/-- The match in a window. A format made of anything tokens only matches the empty text. -/
def findIn (p : Pattern) (subject : Subject) (start length : Nat) : Match :=
  if length < p.minWidth then .missing start
  else if p.targets.isEmpty then .covering start 0
  else
    match p.mode with
    | .whole =>
      if p.covers subject start (start + length) then .covering start length else .missing start
    | .anywhere =>
      match spanOf p.tokens.unknown subject start (start + length) p.targets with
      | some (first, last) => .covering first (last - first)
      | none => .missing start

def find (p : Pattern) (subject : Subject) (range : Range) : Except RangeError Match :=
  (range.resolve subject.size).map fun w => p.findIn subject w.start w.length

def isMatch (p : Pattern) (subject : Subject) (range : Range) : Except RangeError Bool :=
  (p.find subject range).map Match.found

theorem find_all (p : Pattern) {subject : Subject} (h : subject.size < 2147483648) :
    p.find subject .all = .ok (p.findIn subject 0 subject.size) := by
  rw [find, Range.resolve_all h]
  rfl

theorem isMatch_all (p : Pattern) {subject : Subject} (h : subject.size < 2147483648) :
    p.isMatch subject .all = .ok (p.findIn subject 0 subject.size).found := by
  rw [isMatch, p.find_all h]
  rfl

theorem isMatch_of_long (p : Pattern) {subject : Subject} (range : Range)
    (h : 2147483648 ≤ subject.size) : p.isMatch subject range = .error .subjectTooLong := by
  rw [isMatch, find, Range.resolve_of_long range h]
  rfl

theorem size_lt_of_isMatch (p : Pattern) {subject : Subject} {range : Range} {found : Bool}
    (h : p.isMatch subject range = .ok found) : subject.size < 2147483648 := by
  refine Nat.lt_of_not_le fun hlong => ?_
  rw [p.isMatch_of_long range hlong] at h
  cases h

theorem findIn_start_ge (p : Pattern) (subject : Subject) (start length : Nat) :
    start ≤ (p.findIn subject start length).start := by
  unfold findIn
  repeat' split
  all_goals try exact Nat.le_refl _
  rename_i first last h
  cases ht : p.targets with
  | nil => simp [ht, spanOf] at h
  | cons t rest =>
    simp only [ht, spanOf] at h
    split at h
    · cases h
    · rename_i pos hpos
      obtain ⟨e, -, he⟩ := Option.map_eq_some_iff.1 h
      cases he
      exact Target.place_ge hpos

theorem find_span_start_ge {p : Pattern} {subject : Subject} {start length : Int} {m : Match}
    (h : p.find subject (.span start length) = .ok m) : start ≤ m.start := by
  rw [find] at h
  cases hrange : (Range.span start length).resolve subject.size with
  | error e =>
    rw [hrange] at h
    cases h
  | ok w =>
    rw [hrange] at h
    cases h
    have hstart := (Range.eq_of_resolve_span hrange).1
    have hge := p.findIn_start_ge subject w.start w.length
    dsimp only
    omega

end Pattern
end Wildcard
