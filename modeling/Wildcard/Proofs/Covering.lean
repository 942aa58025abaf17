import Wildcard.Proofs.Greedy

/-!
# Covering a range

A pattern that has to cover a range is decided in three steps: the target anchored at the start is
checked there, the target anchored at the end is checked there, and the others are placed between.
Each step keeps what is still to be spanned, so together they decide whether the sections span the
range.
-/

namespace Wildcard

open Texts Section

namespace Pattern

variable {p : Pattern} {subject : Subject} {start cursor stop limit : Nat}
  {rest targets interior : List Target}

theorem sections_eq_sectionsOf (p : Pattern) : p.sections = sectionsOf p.targets := rfl

theorem stepStart_iff (nonempty : p.targets ≠ []) (ends : Texts) :
    subject.Span (beyond p.anchors.atStart * chain p.tokens.unknown p.sections * ends) start stop ↔
      ∃ cursor rest, p.stepStart subject start = some (cursor, rest) ∧
        subject.Span (following p.tokens.unknown (sectionsOf rest) * ends) cursor stop := by
  obtain ⟨t, others, htargets⟩ := List.exists_cons_of_ne_nil nonempty
  rw [sections_eq_sectionsOf, stepStart, htargets]
  cases hanchor : p.anchors.atStart with
  | false =>
    have hopen := following_eq_anyText_mul_chain p.tokens.unknown
      (List.cons_ne_nil t.toSection (sectionsOf others))
    rw [beyond_false, sectionsOf_cons, ← hopen]
    simp
  | true =>
    rw [beyond_true, one_mul, sectionsOf_cons, chain_cons, mul_assoc, Subject.span_mul]
    simp only [Target.span_texts_iff]
    constructor
    · rintro ⟨middle, ⟨rfl, -, hfits⟩, hspan⟩
      exact ⟨start + t.width, others, by simp [hfits], hspan⟩
    · rintro ⟨cursor, rest, hstep, hspan⟩
      split at hstep
      · rename_i hfits
        obtain ⟨rfl, rfl⟩ := Prod.mk.inj (Option.some.inj hstep)
        exact ⟨start + t.width, ⟨rfl, Nat.le_trans hspan.1 hspan.2.1, hfits⟩, hspan⟩
      · cases hstep

theorem stepStart_bounds (h : p.stepStart subject start = some (cursor, rest)) :
    cursor + totalWidth (sectionsOf rest) = start + totalWidth p.sections ∧
      ∀ t ∈ rest, t ∈ p.targets := by
  rw [sections_eq_sectionsOf]
  unfold stepStart at h
  split at h
  · rename_i t others hanchor htargets
    split at h
    · obtain ⟨rfl, rfl⟩ := Prod.mk.inj (Option.some.inj h)
      rw [htargets, sectionsOf_cons, totalWidth_cons]
      exact ⟨by omega, fun t ht => List.mem_cons_of_mem _ ht⟩
    · cases h
  · obtain ⟨rfl, rfl⟩ := Prod.mk.inj (Option.some.inj h)
    exact ⟨rfl, fun t ht => ht⟩

theorem stepStart_ge (h : p.stepStart subject start = some (cursor, rest)) : start ≤ cursor := by
  unfold stepStart at h
  split at h
  · split at h
    · obtain ⟨rfl, -⟩ := Prod.mk.inj (Option.some.inj h)
      exact Nat.le_add_right _ _
    · cases h
  · obtain ⟨rfl, -⟩ := Prod.mk.inj (Option.some.inj h)
    exact Nat.le_refl _

theorem stepEnd_iff (hcursor : cursor ≤ stop) (hstop : stop ≤ subject.size) :
    subject.Span (following p.tokens.unknown (sectionsOf targets) * beyond p.anchors.atEnd)
        cursor stop ↔
      ∃ limit interior, p.stepEnd subject cursor stop targets = some (limit, interior) ∧
        subject.Span (following p.tokens.unknown (sectionsOf interior) * anyText) cursor limit := by
  cases hanchor : p.anchors.atEnd with
  | false => simp [stepEnd, hanchor]
  | true =>
    rw [beyond_true, mul_one]
    rcases List.eq_nil_or_concat targets with rfl | ⟨init, t, rfl⟩
    · simp only [stepEnd, hanchor, if_true, List.getLast?_nil, sectionsOf_nil, following_nil,
        Subject.span_one]
      by_cases hcover : cursor = stop
      · simp [hcover, hstop]
      · simp [hcover, Ne.symm hcover]
    · rw [List.concat_eq_append, sectionsOf_append, following_append, sectionsOf_cons, sectionsOf_nil,
        following_cons, following_nil, mul_one, ← mul_assoc, Subject.span_mul]
      simp only [Target.span_texts_iff, stepEnd, hanchor, if_true, List.getLast?_concat,
        List.dropLast_concat, Bool.and_eq_true, decide_eq_true_eq]
      constructor
      · rintro ⟨middle, hspan, rfl, -, hfits⟩
        have hroom := hspan.1
        rw [Nat.add_sub_cancel]
        exact ⟨middle, init, by simp [hfits, hroom], hspan⟩
      · rintro ⟨limit, interior, hstep, hspan⟩
        split at hstep
        · rename_i h
          obtain ⟨rfl, rfl⟩ := Prod.mk.inj (Option.some.inj hstep)
          exact ⟨stop - t.width, hspan, by omega, hstop, h.2⟩
        · cases hstep

theorem stepEnd_bounds (hcursor : cursor ≤ stop)
    (h : p.stepEnd subject cursor stop targets = some (limit, interior)) :
    cursor ≤ limit ∧ limit ≤ stop ∧ ∀ t ∈ interior, t ∈ targets := by
  unfold stepEnd at h
  split at h
  · split at h
    · split at h
      · obtain ⟨rfl, rfl⟩ := Prod.mk.inj (Option.some.inj h)
        exact ⟨hcursor, Nat.le_refl stop, by simp⟩
      · cases h
    · split at h
      · rename_i t hlast hfits
        obtain ⟨rfl, rfl⟩ := Prod.mk.inj (Option.some.inj h)
        rw [Bool.and_eq_true, decide_eq_true_eq] at hfits
        exact ⟨by omega, by omega, fun t ht => List.mem_of_mem_dropLast ht⟩
      · cases h
  · obtain ⟨rfl, rfl⟩ := Prod.mk.inj (Option.some.inj h)
    exact ⟨hcursor, Nat.le_refl stop, fun t ht => ht⟩

/-- Checking the anchors and placing the rest between them decides whether the sections span the
range. -/
theorem covers_iff (ready : ∀ t ∈ p.targets, t.Ready p.tokens.unknown) (nonempty : p.targets ≠ [])
    (hstop : stop ≤ subject.size) (hwidth : start + totalWidth p.sections ≤ stop) :
    p.covers subject start stop = true ↔
      subject.Span (meaning p.tokens.unknown p.anchors p.sections) start stop := by
  have hsections : p.sections ≠ [] := by simpa [sections] using nonempty
  rw [meaning_of_ne_nil p.anchors hsections, stepStart_iff nonempty]
  constructor
  · intro h
    unfold covers at h
    split at h
    · cases h
    · rename_i cursor rest hfirst
      split at h
      · cases h
      · rename_i limit interior hlast
        obtain ⟨hroom, hrest⟩ := stepStart_bounds hfirst
        have hcursor : cursor ≤ stop := by omega
        obtain ⟨hle, hlimit, hinterior⟩ := stepEnd_bounds hcursor hlast
        have hready := fun t ht => ready t (hrest t (hinterior t ht))
        have hspan := (placeAll_isSome_iff hready (Nat.le_trans hlimit hstop) hle).mp h
        exact ⟨cursor, rest, hfirst,
          (stepEnd_iff hcursor hstop).mpr ⟨limit, interior, hlast, hspan⟩⟩
  · rintro ⟨cursor, rest, hfirst, hspan⟩
    obtain ⟨limit, interior, hlast, hinner⟩ := (stepEnd_iff hspan.1 hstop).mp hspan
    obtain ⟨-, hrest⟩ := stepStart_bounds hfirst
    obtain ⟨hle, hlimit, hinterior⟩ := stepEnd_bounds hspan.1 hlast
    have hready := fun t ht => ready t (hrest t (hinterior t ht))
    have hplaced := (placeAll_isSome_iff hready (Nat.le_trans hlimit hstop) hle).mpr hinner
    simpa only [covers, hfirst, hlast] using hplaced

end Pattern
end Wildcard
