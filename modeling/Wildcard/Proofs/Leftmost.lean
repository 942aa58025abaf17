/-!
# Leftmost positions

A search gives the leftmost position with a property. A loop that goes from candidate to candidate
finds it if it passes over no position that has the property.
-/

namespace Wildcard

/-- The leftmost position from `start` on with a property, none if no position has it. -/
def Leftmost (P : Nat → Prop) (start : Nat) : Option Nat → Prop
  | some p => start ≤ p ∧ P p ∧ ∀ q, start ≤ q → q < p → ¬ P q
  | none => ∀ q, start ≤ q → ¬ P q

namespace Leftmost

variable {P Q : Nat → Prop} {start next : Nat} {found : Option Nat}

theorem here (h : P start) : Leftmost P start (some start) :=
  ⟨Nat.le_refl start, h, fun _ hge hlt => absurd hlt (Nat.not_lt.mpr hge)⟩

theorem skip (hle : start ≤ next) (hnone : ∀ q, start ≤ q → q < next → ¬ P q)
    (h : Leftmost P next found) : Leftmost P start found := by
  cases found with
  | none =>
    intro q hq
    by_cases hlt : q < next
    · exact hnone q hq hlt
    · exact h q (Nat.not_lt.mp hlt)
  | some p =>
    refine ⟨Nat.le_trans hle h.1, h.2.1, ?_⟩
    intro q hq hqp
    by_cases hlt : q < next
    · exact hnone q hq hlt
    · exact h.2.2 q (Nat.not_lt.mp hlt) hqp

theorem exists_le (h : Leftmost P start found) {q : Nat} (hq : start ≤ q) (hP : P q) :
    ∃ p, found = some p ∧ p ≤ q := by
  cases found with
  | none => exact absurd hP (h q hq)
  | some p => exact ⟨p, rfl, Nat.not_lt.mp fun hlt => h.2.2 q hq hlt hP⟩

theorem unique {found' : Option Nat} (h : Leftmost P start found)
    (h' : Leftmost P start found') : found = found' := by
  cases found with
  | none =>
    cases found' with
    | none => rfl
    | some p => exact absurd h'.2.1 (h p h'.1)
  | some p =>
    obtain ⟨p', rfl, hle⟩ := h'.exists_le h.1 h.2.1
    obtain ⟨p'', hp, hle'⟩ := h.exists_le h'.1 h'.2.1
    obtain rfl := Option.some.inj hp
    rw [Nat.le_antisymm hle hle']

theorem map_sub {k : Nat} (h : Leftmost P (start + k) found)
    (hPQ : ∀ q, start ≤ q → (Q q ↔ P (q + k))) : Leftmost Q start (found.map (· - k)) := by
  cases found with
  | none => exact fun q hq hQ => h (q + k) (by omega) ((hPQ q hq).mp hQ)
  | some p =>
    obtain ⟨hge, hp, hleast⟩ := h
    have hback : p - k + k = p := by omega
    change Leftmost Q start (some (p - k))
    refine ⟨by omega, (hPQ (p - k) (by omega)).mpr (hback.symm ▸ hp), ?_⟩
    intro q hq hlt hQ
    exact hleast (q + k) (by omega) (by omega) ((hPQ q hq).mp hQ)

end Leftmost

/-- A loop that goes from candidate to candidate: it ends with the first that is accepted, or when
there is none, and else resumes where `next` says. -/
inductive Trials (candidate : Nat → Option Nat) (accepts : Nat → Bool) (next : Nat → Nat) :
    Nat → List Nat → Option Nat → Prop
  | exhausted {pos : Nat} : candidate pos = none → Trials candidate accepts next pos [] none
  | accepted {pos p : Nat} : candidate pos = some p → accepts p = true →
      Trials candidate accepts next pos [p] (some p)
  | resumed {pos p : Nat} {tried : List Nat} {found : Option Nat} : candidate pos = some p →
      accepts p = false → Trials candidate accepts next (next p) tried found →
      Trials candidate accepts next pos (p :: tried) found

namespace Trials

variable {candidate : Nat → Option Nat} {accepts : Nat → Bool} {next : Nat → Nat} {pos : Nat}
  {tried : List Nat} {found : Option Nat}

theorem unique {tried' : List Nat} {found' : Option Nat}
    (h : Trials candidate accepts next pos tried found)
    (h' : Trials candidate accepts next pos tried' found') : tried' = tried ∧ found' = found := by
  induction h generalizing tried' with
  | exhausted hnone => cases h' <;> simp_all
  | accepted hp haccepted => cases h' <;> simp_all
  | resumed hp hrefused htrials ih =>
    cases h' with
    | exhausted hnone => simp_all
    | accepted hp' haccepted => simp_all
    | resumed hp' hrefused' htrials' =>
      obtain rfl := Option.some.inj (hp.symm.trans hp')
      obtain ⟨rfl, rfl⟩ := ih htrials'
      exact ⟨rfl, rfl⟩

theorem increasing (h : Trials candidate accepts next pos tried found)
    (hcandidate : ∀ pos p, candidate pos = some p → pos ≤ p) (hnext : ∀ p, p < next p) :
    tried.Pairwise (· < ·) ∧ ∀ p ∈ tried, pos ≤ p := by
  induction h with
  | exhausted => simp
  | accepted hp => simpa using hcandidate _ _ hp
  | @resumed pos p tried found hp hrefused htrials ih =>
    obtain ⟨hincreasing, hge⟩ := ih
    have hpos := hcandidate pos p hp
    have hp := hnext p
    refine ⟨List.pairwise_cons.mpr ⟨fun q hq => ?_, hincreasing⟩, ?_⟩
    · exact Nat.lt_of_lt_of_le hp (hge q hq)
    · rw [List.forall_mem_cons]
      refine ⟨hpos, fun q hq => ?_⟩
      have := hge q hq
      omega

theorem forall_tried {P : Nat → Prop} (h : Trials candidate accepts next pos tried found)
    (hcandidate : ∀ pos p, candidate pos = some p → P p) : ∀ p ∈ tried, P p := by
  induction h with
  | exhausted => simp
  | accepted hp => simpa using hcandidate _ _ hp
  | resumed hp hrefused htrials ih => exact List.forall_mem_cons.mpr ⟨hcandidate _ _ hp, ih⟩

/-- A loop that goes through all candidates in order, but for some that would be refused, ends with
the leftmost that is accepted. -/
theorem leftmost {C P : Nat → Prop} (h : Trials candidate accepts next pos tried found)
    (hcandidate : ∀ pos, Leftmost C pos (candidate pos))
    (hP : ∀ p, P p ↔ C p ∧ accepts p = true)
    (hnext : ∀ p, p < next p ∧ ∀ q, p < q → q < next p → ¬ P q) : Leftmost P pos found := by
  induction h with
  | @exhausted pos hnone =>
    have hfirst := hcandidate pos
    rw [hnone] at hfirst
    exact fun q hq hPq => hfirst q hq ((hP q).mp hPq).1
  | @accepted pos p hp haccepted =>
    have hfirst := hcandidate pos
    rw [hp] at hfirst
    exact ⟨hfirst.1, (hP p).mpr ⟨hfirst.2.1, haccepted⟩,
      fun q hq hlt hPq => hfirst.2.2 q hq hlt ((hP q).mp hPq).1⟩
  | @resumed pos p tried found hp hrefused htrials ih =>
    have hfirst := hcandidate pos
    rw [hp] at hfirst
    obtain ⟨hlt, hbetween⟩ := hnext p
    refine ih.skip (Nat.le_trans hfirst.1 (Nat.le_of_lt hlt)) fun q hq hqnext hPq => ?_
    obtain ⟨hCq, hacceptedq⟩ := (hP q).mp hPq
    rcases Nat.lt_trichotomy q p with hqp | rfl | hpq
    · exact hfirst.2.2 q hq hqp hCq
    · rw [hrefused] at hacceptedq
      cases hacceptedq
    · exact hbetween q hpq hqnext hPq

end Trials

end Wildcard
