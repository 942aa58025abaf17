import Wildcard.Bytes
import Wildcard.Word

/-!
# Ranges

Callers name a part of a subject by integers; a window is a part that really lies in it. No part of a
subject is accepted whose length is no word.
-/

namespace Wildcard

inductive Range
  | all
  | since (start : Int)
  | span (start length : Int)
  deriving DecidableEq, Repr

inductive RangeError
  | subjectTooLong
  | startOutside (start : Int) (size : Nat)
  | spanOutside (start length : Int) (size : Nat)
  deriving DecidableEq, Repr

def RangeError.message : RangeError → Bytes
  | .subjectTooLong => Bytes.ascii "subject longer than INT_MAX"
  | .startOutside start size =>
    Bytes.ascii "start " ++ Bytes.decimalInt start ++
      Bytes.ascii " outside subject of size " ++ Bytes.decimal size
  | .spanOutside start length size =>
    Bytes.ascii "range [" ++ Bytes.decimalInt start ++ Bytes.ascii ", +" ++
      Bytes.decimalInt length ++ Bytes.ascii ") outside subject of size " ++ Bytes.decimal size

structure Window (size : Nat) where
  start : Nat
  length : Nat
  inside : start + length ≤ size

namespace Window

abbrev stop {size : Nat} (w : Window size) : Nat := w.start + w.length

def whole (size : Nat) : Window size := ⟨0, size, by omega⟩

end Window

namespace Range

def resolve (size : Nat) (range : Range) : Except RangeError (Window size) :=
  if 2147483647 < size then .error .subjectTooLong
  else
    match range with
    | .all => .ok (Window.whole size)
    | .since start =>
      if h : start < 0 ∨ (size : Int) < start then .error (.startOutside start size)
      else .ok ⟨start.toNat, size - start.toNat, by omega⟩
    | .span start length =>
      if h : start < 0 ∨ length < 0 ∨ (size : Int) - length < start then
        .error (.spanOutside start length size)
      else .ok ⟨start.toNat, length.toNat, by omega⟩

/-- By exact numbers, the range does not lie in a subject of the given size. -/
def Outside (size : Nat) : Range → Prop
  | .all => False
  | .since start => start < 0 ∨ size < start
  | .span start length => start < 0 ∨ length < 0 ∨ size < start + length

instance (size : Nat) (range : Range) : Decidable (range.Outside size) :=
  match range with
  | .all => inferInstanceAs (Decidable False)
  | .since start => inferInstanceAs (Decidable (start < 0 ∨ size < start))
  | .span start length =>
    inferInstanceAs (Decidable (start < 0 ∨ length < 0 ∨ size < start + length))

/-- The length of the subject is a word, and the range lies in it. -/
structure Accepted (size : Nat) (range : Range) : Prop where
  size_lt : size < 2147483648
  not_outside : ¬ range.Outside size

theorem accepted_iff {size : Nat} {range : Range} :
    range.Accepted size ↔ size < 2147483648 ∧ ¬ range.Outside size :=
  ⟨fun h => ⟨h.size_lt, h.not_outside⟩, fun h => ⟨h.1, h.2⟩⟩

instance (size : Nat) (range : Range) : Decidable (range.Accepted size) :=
  decidable_of_iff _ accepted_iff.symm

variable {size : Nat} {start length : Int}

theorem Accepted.bounds (h : (span start length).Accepted size) :
    0 ≤ start ∧ 0 ≤ length ∧ start + length ≤ size := by
  have hinside := h.not_outside
  simp only [Outside] at hinside
  omega

theorem resolve_of_long (range : Range) (h : 2147483648 ≤ size) :
    range.resolve size = .error .subjectTooLong := if_pos h

theorem resolve_all (h : size < 2147483648) : all.resolve size = .ok (Window.whole size) :=
  if_neg (Nat.not_lt.mpr (Nat.le_of_lt_succ h))

theorem resolve_span {start length : Nat} (hsize : size < 2147483648) (h : start + length ≤ size) :
    (span start length).resolve size = .ok ⟨start, length, h⟩ := by
  have hinside : ¬ ((start : Int) < 0 ∨ (length : Int) < 0 ∨ (size : Int) - length < start) := by
    omega
  simp [resolve, hinside, Nat.le_of_lt_succ hsize]

theorem resolve_fails_iff (range : Range) :
    (∃ e, range.resolve size = .error e) ↔ ¬ range.Accepted size := by
  by_cases hsize : size < 2147483648
  · have haccepted : ¬ range.Accepted size ↔ range.Outside size := by
      rw [accepted_iff, and_iff_right hsize, Decidable.not_not]
    have hshort : ¬ 2147483647 < size := by omega
    unfold resolve
    rw [haccepted, if_neg hshort]
    cases range with
    | all => simp [Outside]
    | since start =>
      by_cases h : start < 0 ∨ (size : Int) < start <;> simp [Outside, h]
    | span start length =>
      have hexact : (start < 0 ∨ length < 0 ∨ (size : Int) - length < start) ↔
          (start < 0 ∨ length < 0 ∨ (size : Int) < start + length) := by omega
      by_cases h : start < 0 ∨ length < 0 ∨ (size : Int) - length < start
      · simpa [Outside, h] using hexact.mp h
      · simpa [Outside, h] using mt hexact.mpr h
  · rw [resolve_of_long range (Nat.not_lt.mp hsize)]
    exact iff_of_true ⟨_, rfl⟩ fun h => hsize h.size_lt

theorem accepted_of_resolve {range : Range} {w : Window size} (h : range.resolve size = .ok w) :
    range.Accepted size := by
  refine Decidable.of_not_not fun hrefused => ?_
  obtain ⟨e, he⟩ := (resolve_fails_iff range).mpr hrefused
  rw [h] at he
  cases he

theorem eq_of_resolve_span {w : Window size} (h : (span start length).resolve size = .ok w) :
    (w.start : Int) = start ∧ (w.length : Int) = length := by
  have haccepted := accepted_of_resolve h
  obtain ⟨hstart, hlength, hinside⟩ := haccepted.bounds
  obtain ⟨start, rfl⟩ := Int.eq_ofNat_of_zero_le hstart
  obtain ⟨length, rfl⟩ := Int.eq_ofNat_of_zero_le hlength
  rw [resolve_span haccepted.size_lt (by omega)] at h
  cases h
  exact ⟨rfl, rfl⟩

theorem resolve_since (h : ¬ (since start).Outside size) :
    (since start).resolve size = (span start (size - start)).resolve size := by
  have hsince : ¬ (start < 0 ∨ (size : Int) < start) := h
  have hspan : ¬ (start < 0 ∨ (size : Int) - start < 0 ∨ (size : Int) - (size - start) < start) := by
    omega
  have hlength : size - start.toNat = ((size : Int) - start).toNat := by omega
  simp only [resolve, hsince, hspan, dite_false, hlength]

end Range
end Wildcard
