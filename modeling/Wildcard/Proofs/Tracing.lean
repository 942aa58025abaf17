import Mathlib.Data.List.Basic
import Wildcard.Find
import Wildcard.Proofs.Occurrence

/-!
# Finding with a trace

Finding once more, step by step and over integers, so that a position that would leave its text can
be seen: together with its value each step gives what it read, where it cut the subject, the bounds
it kept and the numbers it computed. A byte is known only by reading it, so no read is left out.
-/

namespace Wildcard

inductive Event
  /-- The byte of the subject at an index is read. -/
  | subject (index : Int)
  /-- The byte of the format at an index is read. -/
  | format (index : Int)
  /-- The subject is cut off at a position. -/
  | window (stop : Int)
  /-- The targets that are left belong between two positions from now on. -/
  | bounds (cursor limit : Int)
  /-- A target that is not anchored is about to be placed between two positions. -/
  | placing (cursor limit : Int)
  /-- The place where a run is first looked for is computed. -/
  | searchStart (position : Int)
  /-- Any other number is computed. -/
  | number (n : Int)
  deriving DecidableEq, Repr

/-- A value with what was done to get it. -/
structure Traced (α : Type) where
  value : α
  events : List Event

namespace Traced

variable {α β : Type} {P : Event → Prop}

def note (events : List Event) : Traced Unit := ⟨(), events⟩

/-- Go on with a value, knowing where it comes from. -/
def andThen (x : Traced α) (f : (a : α) → x.value = a → Traced β) : Traced β :=
  let y := f x.value rfl
  ⟨y.value, x.events ++ y.events⟩

instance : Monad Traced where
  pure a := ⟨a, []⟩
  bind x f := x.andThen fun a _ => f a

def Yields (P : Event → Prop) (x : Traced α) (a : α) : Prop :=
  x.value = a ∧ ∀ e ∈ x.events, P e

theorem yields_pure (a : α) : Yields P (pure a) a := ⟨rfl, by simp [pure]⟩

theorem yields_note {events : List Event} (h : events.Forall P) : Yields P (note events) () :=
  ⟨rfl, List.forall_iff_forall_mem.mp h⟩

theorem Yields.andThen {x : Traced α} {f : (a : α) → x.value = a → Traced β} {a : α} {b : β}
    (hx : Yields P x a) (hf : Yields P (f a hx.1) b) : Yields P (x.andThen f) b := by
  obtain ⟨rfl, hevents⟩ := hx
  refine ⟨hf.1, fun e he => ?_⟩
  rcases List.mem_append.mp he with he | he
  · exact hevents e he
  · exact hf.2 e he

theorem Yields.bind {x : Traced α} {f : α → Traced β} {a : α} {b : β} (hx : Yields P x a)
    (hf : Yields P (f a) b) : Yields P (x >>= f) b :=
  hx.andThen hf

theorem yields_guard {p : Prop} [Decidable p] {x : Traced Bool} {b c : Bool} (hp : b = true ↔ p)
    (hx : Yields P x c) : Yields P (if p then x else pure false) (b && c) := by
  cases b with
  | false =>
    rw [if_neg (mt hp.mpr Bool.false_ne_true), Bool.false_and]
    exact yields_pure false
  | true =>
    rw [if_pos (hp.mp rfl), Bool.true_and]
    exact hx

end Traced

def Subject.read (subject : Subject) (index : Int) : Traced (Option UInt8) :=
  ⟨if 0 ≤ index then subject[index.toNat]? else none, [.subject index]⟩

theorem Subject.read_yields {P : Event → Prop} {subject : Subject} {index : Nat}
    (h : P (.subject index)) : (subject.read index).Yields P subject[index]? :=
  ⟨by simp [Subject.read], by simpa [Subject.read] using h⟩

def Bytes.read (format : Bytes) (index : Int) : Traced (Option UInt8) :=
  ⟨if 0 ≤ index then format[index.toNat]? else none, [.format index]⟩

theorem Bytes.read_yields {P : Event → Prop} {format : Bytes} {index : Nat}
    (h : P (.format index)) : (Bytes.read format index).Yields P format[index]? :=
  ⟨by simp [Bytes.read], by simpa [Bytes.read] using h⟩

/-- Compare bytes of the format with bytes of the subject, up to the first difference. Where the
format has an unknown, the subject is not read. -/
def tracedAgrees (unknown : UInt8) (format : Bytes) (subject : Subject) :
    Nat → Int → Int → Traced Bool
  | 0, _, _ => pure true
  | count + 1, pos, place => do
    let b ← format.read place
    if b = some unknown then tracedAgrees unknown format subject count (pos + 1) (place + 1)
    else
      let c ← subject.read pos
      if c = b then tracedAgrees unknown format subject count (pos + 1) (place + 1)
      else pure false

namespace Needle

def tracedCompare (text : Subject) (step : Int) : Int → Bytes → Traced Bool
  | _, [] => pure true
  | pos, b :: rest => do
    let c ← text.read pos
    if c = some b then tracedCompare text step (pos + step) rest else pure false

def shift (needle : Needle) : Option UInt8 → Nat
  | some b => max 1 (needle.shifts.get b.toFin)
  | none => 1

theorem shiftAt_eq_shift (needle : Needle) (text : Subject) (last : Nat) :
    needle.shiftAt text last = needle.shift text[last]? := by
  unfold shiftAt
  cases text[last]? <;> rfl

theorem shift_pos (needle : Needle) (byte : Option UInt8) : 0 < needle.shift byte := by
  cases byte with
  | none => exact Nat.one_pos
  | some b => exact Nat.le_max_left 1 _

def tracedWalk (bytes : Bytes) (text : Subject) (stop pos : Nat) : Traced (Option Nat) :=
  if pos + bytes.length ≤ stop then do
    let occurs ← tracedCompare text 1 pos bytes
    if occurs then pure (some pos)
    else
      Traced.note [.number (pos + 1 : Nat)]
      tracedWalk bytes text stop (pos + 1)
  else pure none
termination_by stop + 1 - pos

/-- The byte under the last position is read once more for the shift. -/
def tracedSkip (needle : Needle) (backward : Bytes) (text : Subject) (stop pos : Nat) :
    Traced (Option Nat) :=
  if pos + needle.bytes.length ≤ stop then do
    let last : Int := pos + needle.bytes.length - 1
    let occurs ← tracedCompare text (-1) last backward
    if occurs then pure (some pos)
    else
      let byte ← text.read last
      Traced.note [.number (pos + needle.shift byte : Nat)]
      tracedSkip needle backward text stop (pos + needle.shift byte)
  else pure none
termination_by stop + 1 - pos
decreasing_by
  have := needle.shift_pos byte
  omega

def tracedFindIn (needle : Needle) (text : Subject) (stop pos : Nat) : Traced (Option Nat) := do
  Traced.note [.number (stop - pos : Nat), .number (stop - needle.bytes.length : Nat)]
  if needle.bytes.length < shortLength then tracedWalk needle.bytes text stop pos
  else tracedSkip needle needle.bytes.reverse text stop pos

section

variable {P : Event → Prop} {text : Subject} {start stop pos : Nat}
  (hsubject : ∀ i : Nat, start ≤ i → i < stop → P (.subject i))

include hsubject

theorem tracedCompare_forward {bytes : Bytes} (hpos : start ≤ pos)
    (hstop : pos + bytes.length ≤ stop) :
    (tracedCompare text 1 pos bytes).Yields P (occursAt text pos bytes) := by
  induction bytes generalizing pos with
  | nil => exact Traced.yields_pure true
  | cons b rest ih =>
    rw [List.length_cons] at hstop
    rw [occursAt]
    refine (Subject.read_yields (hsubject pos hpos (by omega))).bind ?_
    exact Traced.yields_guard beq_iff_eq (@ih (pos + 1) (by omega) (by omega))

theorem tracedCompare_backward {backward : Bytes} (hpos : start + backward.length ≤ pos)
    (hstop : pos ≤ stop) :
    (tracedCompare text (-1) (pos - 1) backward).Yields P (occursBefore text pos backward) := by
  induction backward generalizing pos with
  | nil =>
    rw [occursBefore]
    exact Traced.yields_pure true
  | cons b rest ih =>
    rw [List.length_cons] at hpos
    obtain ⟨last, rfl⟩ : ∃ last, pos = last + 1 := ⟨pos - 1, by omega⟩
    have hlast : ((last + 1 : Nat) : Int) - 1 = last := by omega
    rw [occursBefore, hlast]
    refine (Subject.read_yields (hsubject last (by omega) (by omega))).bind ?_
    exact Traced.yields_guard beq_iff_eq (ih (by omega) (by omega))

variable (hnumber : ∀ n : Nat, n ≤ stop → P (.number n))

include hnumber

theorem tracedWalk_yields (bytes : Bytes) (hpos : start ≤ pos) :
    (tracedWalk bytes text stop pos).Yields P (walk bytes text stop pos) := by
  fun_induction walk bytes text stop pos with
  | case1 pos hroom hoccurs =>
    rw [tracedWalk, if_pos hroom]
    refine (tracedCompare_forward hsubject hpos hroom).bind ?_
    rw [if_pos hoccurs]
    exact Traced.yields_pure (some pos)
  | case2 pos hroom hno ih =>
    have hlength := length_pos_of_not_occursAt (eq_false_of_ne_true hno)
    rw [tracedWalk, if_pos hroom]
    refine (tracedCompare_forward hsubject hpos hroom).bind ?_
    rw [if_neg hno]
    refine (Traced.yields_note ?_).bind (ih (by omega))
    exact hnumber _ (by omega)
  | case3 pos hno =>
    rw [tracedWalk, if_neg hno]
    exact Traced.yields_pure none

theorem tracedSkip_yields (needle : Needle) (hpos : start ≤ pos) :
    (tracedSkip needle needle.bytes.reverse text stop pos).Yields P
      (skip needle needle.bytes.reverse text stop pos) := by
  have hcompare : ∀ {pos}, start ≤ pos → pos + needle.bytes.length ≤ stop →
      (tracedCompare text (-1) (pos + needle.bytes.length - 1) needle.bytes.reverse).Yields P
        (occursBefore text (pos + needle.bytes.length) needle.bytes.reverse) := by
    intro pos hpos hroom
    rw [← Int.natCast_add]
    exact tracedCompare_backward hsubject (by rw [List.length_reverse]; omega) hroom
  fun_induction skip needle needle.bytes.reverse text stop pos with
  | case1 pos hroom hoccurs =>
    rw [tracedSkip, if_pos hroom]
    refine (hcompare hpos hroom).bind ?_
    rw [if_pos hoccurs]
    exact Traced.yields_pure (some pos)
  | case2 pos hroom hno ih =>
    have hrefused := eq_false_of_ne_true hno
    rw [occursBefore_reverse] at hrefused
    have hlength := length_pos_of_not_occursAt hrefused
    have hshift := shiftAt_le_length text (pos + needle.bytes.length - 1) hlength
    rw [tracedSkip, if_pos hroom]
    refine (hcompare hpos hroom).bind ?_
    rw [if_neg hno]
    have hlast : (pos : Int) + needle.bytes.length - 1 = (pos + needle.bytes.length - 1 : Nat) := by
      omega
    rw [hlast]
    refine (Subject.read_yields (hsubject _ (by omega) (by omega))).bind ?_
    rw [← shiftAt_eq_shift]
    refine (Traced.yields_note ?_).bind (ih (by omega))
    exact hnumber _ (by omega)
  | case3 pos hno =>
    rw [tracedSkip, if_neg hno]
    exact Traced.yields_pure none

/-- A needle search reads only between its start and the end of its window, and a needle that has
moved on still lies in the window. -/
theorem tracedFindIn_yields (needle : Needle) (hpos : start ≤ pos) :
    (needle.tracedFindIn text stop pos).Yields P (needle.findIn text stop pos) := by
  refine (Traced.yields_note ?_).bind ?_
  · exact ⟨hnumber _ (Nat.sub_le stop pos), hnumber _ (Nat.sub_le stop _)⟩
  · unfold findIn
    split
    · exact tracedWalk_yields hsubject hnumber needle.bytes hpos
    · exact tracedSkip_yields hsubject hnumber needle hpos

end

theorem tracedFindIn_value (needle : Needle) (text : Subject) (stop pos : Nat) :
    (needle.tracedFindIn text stop pos).value = needle.findIn text stop pos :=
  (@tracedFindIn_yields (fun _ => True) text pos stop pos (fun _ _ _ => trivial)
    (fun _ _ => trivial) needle (Nat.le_refl pos)).1

end Needle

namespace Target

def tracedFitsAt (t : Target) (unknown : UInt8) (format : Bytes) (subject : Subject) (pos : Int) :
    Traced Bool := do
  Traced.note [.number (pos + t.leading)]
  tracedAgrees unknown format subject t.literal.length (pos + t.leading) t.start

def tracedSurroundedAt (t : Target) (unknown : UInt8) (format : Bytes) (subject : Subject)
    (pos : Int) : Traced Bool := do
  Traced.note [.number (pos - t.run.start), .number (pos + t.run.length),
    .number (t.start + t.run.stop)]
  let agrees ← tracedAgrees unknown format subject t.run.start (pos - t.run.start) t.start
  if agrees then
    tracedAgrees unknown format subject (t.literal.length - t.run.stop) (pos + t.run.length)
      (t.start + t.run.stop)
  else pure false

def tracedSearch (t : Target) (unknown : UInt8) (format : Bytes) (subject : Subject)
    (stop pos : Nat) : Traced (Option Int) :=
  (t.needle.tracedFindIn subject stop pos).andThen fun found hfound =>
    match found with
    | none => pure none
    | some p => do
      let agrees ← t.tracedSurroundedAt unknown format subject p
      if agrees then
        Traced.note [.number (p - t.run.start - t.leading)]
        pure (some (p - t.run.start - t.leading))
      else
        Traced.note [.number (p + 1)]
        t.tracedSearch unknown format subject stop (p + 1)
termination_by stop + 1 - pos
decreasing_by
  rw [Needle.tracedFindIn_value] at hfound
  have := Needle.findIn_bounds hfound
  omega

def suffixLength (t : Target) : Int := t.literal.length - t.run.start - t.run.length

def tracedLocate (t : Target) (unknown : UInt8) (format : Bytes) (subject : Subject)
    (cursor limit : Int) : Traced (Option Int) := do
  let start := cursor + t.leading + t.run.start
  let stop := limit - t.trailing - t.suffixLength
  Traced.note [.number t.suffixLength, .searchStart (cursor + t.leading), .searchStart start,
    .number (limit - t.trailing), .number stop, .number (stop - start)]
  if stop - start < t.run.length then pure none
  else
    Traced.note [.window stop]
    t.tracedSearch unknown format subject stop.toNat start.toNat

def tracedPlace (t : Target) (unknown : UInt8) (format : Bytes) (subject : Subject)
    (cursor limit : Int) : Traced (Option Int) := do
  Traced.note [.placing cursor limit]
  if t.isGap then
    Traced.note [.number (limit - cursor), .number t.width]
    if limit - cursor < t.width then pure none else pure (some cursor)
  else t.tracedLocate unknown format subject cursor limit

/-- Place a target and move the cursor behind it, which gives both positions. -/
def tracedAdvance (t : Target) (unknown : UInt8) (format : Bytes) (subject : Subject)
    (cursor limit : Int) : Traced (Option (Int × Int)) := do
  let found ← t.tracedPlace unknown format subject cursor limit
  match found with
  | none => pure none
  | some pos =>
    Traced.note [.number t.width, .number (pos + t.width), .bounds (pos + t.width) limit]
    pure (some (pos, pos + t.width))

end Target

namespace Pattern

def tracedPlaceAll (unknown : UInt8) (format : Bytes) (subject : Subject) (limit : Int) :
    Int → List Target → Traced (Option Int)
  | cursor, [] => pure (some cursor)
  | cursor, t :: rest => do
    let found ← t.tracedAdvance unknown format subject cursor limit
    match found with
    | none => pure none
    | some (_, next) => tracedPlaceAll unknown format subject limit next rest

def tracedStepStart (p : Pattern) (subject : Subject) (start stop : Int) :
    Traced (Option (Int × List Target)) :=
  match p.anchors.atStart, p.targets with
  | true, t :: rest => do
    let fits ← t.tracedFitsAt p.tokens.unknown p.format subject start
    if fits then
      Traced.note [.number t.width, .number (start + t.width), .bounds (start + t.width) stop]
      pure (some (start + t.width, rest))
    else pure none
  | _, targets => pure (some (start, targets))

def tracedStepEnd (p : Pattern) (subject : Subject) (cursor stop : Int) (targets : List Target) :
    Traced (Option (Int × List Target)) :=
  if p.anchors.atEnd then
    match targets.getLast? with
    | none => if cursor = stop then pure (some (stop, [])) else pure none
    | some t => do
      Traced.note [.number t.width, .number (stop - t.width)]
      if stop - t.width < cursor then pure none
      else
        let fits ← t.tracedFitsAt p.tokens.unknown p.format subject (stop - t.width)
        if fits then
          Traced.note [.bounds cursor (stop - t.width)]
          pure (some (stop - t.width, targets.dropLast))
        else pure none
  else pure (some (stop, targets))

def tracedCovers (p : Pattern) (subject : Subject) (start stop : Int) : Traced Bool := do
  let first ← p.tracedStepStart subject start stop
  match first with
  | none => pure false
  | some (cursor, rest) =>
    let last ← p.tracedStepEnd subject cursor stop rest
    match last with
    | none => pure false
    | some (limit, interior) =>
      let placed ← tracedPlaceAll p.tokens.unknown p.format subject limit cursor interior
      pure placed.isSome

def tracedSpanOf (unknown : UInt8) (format : Bytes) (subject : Subject) (start stop : Int) :
    List Target → Traced (Option (Int × Int))
  | [] => pure none
  | t :: rest => do
    let found ← t.tracedAdvance unknown format subject start stop
    match found with
    | none => pure none
    | some (first, next) =>
      let last ← tracedPlaceAll unknown format subject stop next rest
      pure (last.map fun last => (first, last))

/-- Find a match between two positions, which gives its start and its length, −1 for no match. -/
def tracedFindIn (p : Pattern) (subject : Subject) (start length : Int) : Traced (Int × Int) :=
  if length < p.minWidth then pure (start, -1)
  else if p.targets.isEmpty then pure (start, 0)
  else do
    let stop := start + length
    Traced.note [.number stop, .bounds start stop]
    match p.mode with
    | .whole =>
      let covered ← p.tracedCovers subject start stop
      if covered then pure (start, length) else pure (start, -1)
    | .anywhere =>
      let found ← tracedSpanOf p.tokens.unknown p.format subject start stop p.targets
      match found with
      | none => pure (start, -1)
      | some (first, last) =>
        Traced.note [.number (last - first)]
        pure (first, last - first)

end Pattern
end Wildcard
