import Mathlib.Data.Finset.Card
import Mathlib.Order.Bounds.Basic
import Mathlib.Order.Interval.Finset.Nat
import Wildcard.Proofs.Finding

/-!
# Successive earliest spans

Spans taken one after the other, each the earliest behind the end of the one before it, are pairwise
disjoint, and no family of disjoint spans has more members: each of them ends no later than any
other span that could stand in its place. A longer range only adds spans behind those of a shorter
one: its earliest span ends no later than that of the shorter range, and so lies in it.
-/

namespace Wildcard

variable {P : Nat → Nat → Prop} {start stop stop' : Nat} {ms ms' : List Match}

theorem IsEarliest.eq_of_longer {first last first' last' : Nat}
    (h : IsEarliest P start stop first last) (h' : IsEarliest P start stop' first' last')
    (hle : stop ≤ stop') : first' = first ∧ last' = last := by
  obtain ⟨hfirst', hlast'⟩ := h'.least first last h.start_le (Nat.le_trans h.le_stop hle) h.holds
  obtain ⟨hfirst, hlast⟩ :=
    h.least first' last' h'.start_le (Nat.le_trans hlast' h.le_stop) h'.holds
  exact ⟨Nat.le_antisymm hfirst' hfirst, Nat.le_antisymm hlast' hlast⟩

/-- Matches that are the earliest spans of their kind, each from the end of the one before it on,
until none is left. -/
inductive Successive (P : Nat → Nat → Prop) (stop : Nat) : Nat → List Match → Prop
  | done {start : Nat} : (∀ s e, start ≤ s → e ≤ stop → ¬ P s e) → Successive P stop start []
  | next {start first last : Nat} {ms : List Match} : IsEarliest P start stop first last →
      Successive P stop last ms → Successive P stop start (.covering first (last - first) :: ms)

structure IsPacking (P : Nat → Nat → Prop) (start stop : Nat) (family : Finset (Nat × Nat)) :
    Prop where
  disjoint : (family : Set (Nat × Nat)).PairwiseDisjoint fun span => Finset.Ico span.1 span.2
  inside : ∀ span ∈ family, start ≤ span.1 ∧ span.2 ≤ stop
  holds : ∀ span ∈ family, P span.1 span.2

namespace IsPacking

variable {family : Finset (Nat × Nat)}

/-- Spans that start in front of the earliest end all reach it, so there is only one of them. -/
theorem card_front_le_one {first last : Nat} (hfamily : IsPacking P start stop family)
    (hearliest : IsEarliest P start stop first last) :
    (family.filter fun span => span.1 < last).card ≤ 1 := by
  have hreach : ∀ span ∈ family, span.1 < last → last - 1 ∈ Finset.Ico span.1 span.2 := by
    intro span hspan hlt
    obtain ⟨hge, hle⟩ := hfamily.inside span hspan
    have hleast := (hearliest.least _ _ hge hle (hfamily.holds span hspan)).2
    rw [Finset.mem_Ico]
    omega
  rw [Finset.card_le_one]
  intro a ha b hb
  rw [Finset.mem_filter] at ha hb
  by_contra hne
  have hdisjoint := hfamily.disjoint ha.1 hb.1 hne
  exact Finset.disjoint_left.mp hdisjoint (hreach a ha.1 ha.2) (hreach b hb.1 hb.2)

theorem back (hfamily : IsPacking P start stop family) (position : Nat) :
    IsPacking P position stop (family.filter fun span => ¬ span.1 < position) := by
  refine ⟨hfamily.disjoint.subset (Finset.filter_subset _ family), ?_, ?_⟩
  · intro span hspan
    rw [Finset.mem_filter, Nat.not_lt] at hspan
    exact ⟨hspan.2, (hfamily.inside span hspan.1).2⟩
  · intro span hspan
    exact hfamily.holds span (Finset.mem_of_mem_filter span hspan)

end IsPacking

namespace Successive

section Width

variable {width : Nat} (hwidth : ∀ s e, P s e → s + width ≤ e)

include hwidth

theorem inside_of_mem (h : Successive P stop start ms) :
    ∀ m ∈ ms, start ≤ m.start ∧ m.stop ≤ stop ∧ width ≤ m.length := by
  induction h with
  | done => simp
  | @next start first last ms hearliest _ ih =>
    have hspan := hwidth first last hearliest.holds
    have hstart := hearliest.start_le
    have hstop := hearliest.le_stop
    intro m hm
    rcases List.mem_cons.mp hm with rfl | hm
    · simp only [Match.stop, Match.start_covering, Match.length_covering]
      omega
    · obtain ⟨hge, hrest⟩ := ih m hm
      exact ⟨by omega, hrest⟩

theorem length_mul_le (h : Successive P stop start ms) : ms.length * width ≤ stop - start := by
  induction h with
  | done => simp
  | @next start first last ms hearliest _ ih =>
    have hspan := hwidth first last hearliest.holds
    have hstart := hearliest.start_le
    have hstop := hearliest.le_stop
    rw [List.length_cons, Nat.succ_mul]
    omega

end Width

section Positive

variable (hpos : ∀ s e, P s e → s < e)

include hpos

theorem pairwise (h : Successive P stop start ms) :
    ms.Pairwise fun a b => a.start < b.start ∧ a.stop ≤ b.start := by
  induction h with
  | done => exact List.Pairwise.nil
  | @next start first last ms hearliest hrest ih =>
    have hlt := hpos first last hearliest.holds
    refine List.pairwise_cons.mpr ⟨?_, ih⟩
    intro m hm
    have hstep : ∀ s e, P s e → s + 1 ≤ e := hpos
    have hge := (hrest.inside_of_mem hstep m hm).1
    simp only [Match.stop, Match.start_covering, Match.length_covering]
    omega

theorem exists_packing (h : Successive P stop start ms) :
    ∃ family, IsPacking P start stop family ∧ family.card = ms.length := by
  induction h with
  | done => exact ⟨∅, ⟨by simp, by simp, by simp⟩, rfl⟩
  | @next start first last ms hearliest _ ih =>
    obtain ⟨family, hfamily, hcard⟩ := ih
    have hlt := hpos first last hearliest.holds
    have hnew : (first, last) ∉ family := by
      intro hmem
      have hge := (hfamily.inside _ hmem).1
      omega
    refine ⟨insert (first, last) family, ⟨?_, ?_, ?_⟩, ?_⟩
    · rw [Finset.coe_insert]
      refine hfamily.disjoint.insert fun span hspan _ => ?_
      have hge := (hfamily.inside span hspan).1
      rw [Finset.disjoint_left]
      intro i hi hi'
      rw [Finset.mem_Ico] at hi hi'
      omega
    · rw [Finset.forall_mem_insert]
      refine ⟨⟨hearliest.start_le, hearliest.le_stop⟩, fun span hspan => ?_⟩
      have hstart := hearliest.start_le
      obtain ⟨hge, hle⟩ := hfamily.inside span hspan
      exact ⟨by omega, hle⟩
    · rw [Finset.forall_mem_insert]
      exact ⟨hearliest.holds, hfamily.holds⟩
    · rw [Finset.card_insert_of_notMem hnew, hcard, List.length_cons]

end Positive

/-- No family of disjoint spans has more members. -/
theorem card_le (h : Successive P stop start ms) {family : Finset (Nat × Nat)}
    (hfamily : IsPacking P start stop family) : family.card ≤ ms.length := by
  induction h generalizing family with
  | done hnone =>
    have hempty : family = ∅ := by
      rw [Finset.eq_empty_iff_forall_notMem]
      intro span hspan
      obtain ⟨hge, hle⟩ := hfamily.inside span hspan
      exact hnone _ _ hge hle (hfamily.holds span hspan)
    simp [hempty]
  | @next start first last ms hearliest _ ih =>
    have hfront := hfamily.card_front_le_one hearliest
    have hback := ih (hfamily.back last)
    have hsplit := family.card_filter_add_card_filter_not fun span => span.1 < last
    rw [List.length_cons]
    omega

theorem isGreatest_card (hpos : ∀ s e, P s e → s < e) (h : Successive P stop start ms) :
    IsGreatest {n | ∃ family, IsPacking P start stop family ∧ family.card = n} ms.length := by
  refine ⟨h.exists_packing hpos, ?_⟩
  rintro n ⟨family, hfamily, rfl⟩
  exact h.card_le hfamily

theorem isPrefix (hle : stop ≤ stop') (h : Successive P stop start ms)
    (h' : Successive P stop' start ms') : ms <+: ms' := by
  induction h generalizing ms' with
  | done => exact List.nil_prefix
  | @next start first last ms hearliest _ ih =>
    cases h' with
    | done hnone =>
      have hlast := Nat.le_trans hearliest.le_stop hle
      exact absurd hearliest.holds (hnone _ _ hearliest.start_le hlast)
    | next hearliest' hrest' =>
      obtain ⟨rfl, rfl⟩ := hearliest.eq_of_longer hearliest' hle
      exact List.cons_prefix_cons.mpr ⟨rfl, ih hrest'⟩

end Successive
end Wildcard
