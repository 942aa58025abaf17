import Wildcard.Find
import Wildcard.Proofs.Placement

/-!
# Placing targets greedily

Targets are placed leftmost, one after the other. The greedy placement starts and ends no later
than any other placement in the window: moving a target back to its leftmost place only leaves more
room for the targets behind it. So no placement that is never revised loses a match.
-/

namespace Wildcard

open Texts Section

namespace Pattern

def sectionsOf (targets : List Target) : List Section := targets.map Target.toSection

@[simp] theorem sectionsOf_nil : sectionsOf [] = [] := rfl

@[simp] theorem sectionsOf_cons (t : Target) (rest : List Target) :
    sectionsOf (t :: rest) = t.toSection :: sectionsOf rest := rfl

@[simp] theorem sectionsOf_append (front back : List Target) :
    sectionsOf (front ++ back) = sectionsOf front ++ sectionsOf back := List.map_append

variable {unknown : UInt8} {subject : Subject} {targets : List Target}

theorem span_following_cons {t : Target} {rest : List Target} {cursor stop : Nat} :
    subject.Span (following unknown (sectionsOf (t :: rest))) cursor stop ↔
      ∃ pos, cursor ≤ pos ∧ t.fitsAt unknown subject pos = true ∧
        pos + t.width ≤ subject.size ∧
        subject.Span (following unknown (sectionsOf rest)) (pos + t.width) stop := by
  rw [sectionsOf_cons, following_cons]
  simp only [Subject.span_mul, Subject.span_anyText, Target.span_texts_iff]
  constructor
  · rintro ⟨middle, ⟨pos, ⟨hcursor, -⟩, rfl, hsize, hfits⟩, hrest⟩
    exact ⟨pos, hcursor, hfits, hsize, hrest⟩
  · rintro ⟨pos, hcursor, hfits, hsize, hrest⟩
    exact ⟨pos + t.width, ⟨pos, ⟨hcursor, by omega⟩, rfl, hsize, hfits⟩, hrest⟩

/-- The targets stand where they are placed, all of them in front of the limit. -/
theorem placeAll_span (ready : ∀ t ∈ targets, t.Ready unknown) {limit cursor last : Nat}
    (hlimit : limit ≤ subject.size) (hcursor : cursor ≤ limit)
    (h : placeAll unknown subject limit cursor targets = some last) :
    subject.Span (following unknown (sectionsOf targets)) cursor last ∧ last ≤ limit := by
  induction targets generalizing cursor with
  | nil =>
    obtain rfl : cursor = last := by simpa [placeAll] using h
    exact ⟨by simpa using Nat.le_trans hcursor hlimit, hcursor⟩
  | cons t rest ih =>
    rw [List.forall_mem_cons] at ready
    rw [placeAll] at h
    split at h
    · cases h
    · rename_i pos hpos
      obtain ⟨hge, hroom, hfits⟩ := Target.place_fits ready.1 hpos
      obtain ⟨hspan, hlast⟩ := ih ready.2 hroom h
      exact ⟨span_following_cons.mpr ⟨pos, hge, hfits, Nat.le_trans hroom hlimit, hspan⟩, hlast⟩

/-- Any other placement, from the cursor or from behind it, ends no earlier. -/
theorem placeAll_le (ready : ∀ t ∈ targets, t.Ready unknown) {limit cursor start stop : Nat}
    (hstart : cursor ≤ start) (hstop : stop ≤ limit)
    (h : subject.Span (following unknown (sectionsOf targets)) start stop) :
    ∃ last, placeAll unknown subject limit cursor targets = some last ∧ last ≤ stop := by
  induction targets generalizing cursor start with
  | nil =>
    have hempty : stop = start := by simpa using (Subject.span_one.mp h).1
    exact ⟨cursor, rfl, by omega⟩
  | cons t rest ih =>
    rw [List.forall_mem_cons] at ready
    obtain ⟨other, hother, hfits, hsize, hrest⟩ := span_following_cons.mp h
    have hroom : other + t.width ≤ limit := Nat.le_trans hrest.1 hstop
    obtain ⟨pos, hpos, hle⟩ :=
      Target.exists_place_le ready.1 (Nat.le_trans hstart hother) ⟨hroom, hfits⟩
    obtain ⟨last, hlast, hleast⟩ := ih ready.2 (Nat.add_le_add_right hle t.width) hrest
    exact ⟨last, by rw [placeAll, hpos]; exact hlast, hleast⟩

theorem placeAll_isSome_iff (ready : ∀ t ∈ targets, t.Ready unknown) {limit cursor : Nat}
    (hlimit : limit ≤ subject.size) (hcursor : cursor ≤ limit) :
    (placeAll unknown subject limit cursor targets).isSome = true ↔
      subject.Span (following unknown (sectionsOf targets) * anyText) cursor limit := by
  rw [Option.isSome_iff_exists, Subject.span_mul]
  constructor
  · rintro ⟨last, hlast⟩
    obtain ⟨hspan, hle⟩ := placeAll_span ready hlimit hcursor hlast
    exact ⟨last, hspan, Subject.span_anyText.mpr ⟨hle, hlimit⟩⟩
  · rintro ⟨stop, hspan, hrest⟩
    obtain ⟨last, hlast, -⟩ := placeAll_le ready (Nat.le_refl cursor) hrest.1 hspan
    exact ⟨last, hlast⟩

theorem spanOf_span (ready : ∀ t ∈ targets, t.Ready unknown) {start stop first last : Nat}
    (hstop : stop ≤ subject.size)
    (h : spanOf unknown subject start stop targets = some (first, last)) :
    subject.Span (chain unknown (sectionsOf targets)) first last ∧ start ≤ first ∧ last ≤ stop := by
  cases targets with
  | nil => cases h
  | cons t rest =>
    rw [List.forall_mem_cons] at ready
    rw [spanOf] at h
    split at h
    · cases h
    · rename_i pos hpos
      obtain ⟨last', hlast, heq⟩ := Option.map_eq_some_iff.mp h
      obtain ⟨rfl, rfl⟩ := Prod.mk.inj heq
      obtain ⟨hge, hroom, hfits⟩ := Target.place_fits ready.1 hpos
      obtain ⟨hspan, hle⟩ := placeAll_span ready.2 hstop hroom hlast
      refine ⟨?_, hge, hle⟩
      rw [sectionsOf_cons, chain_cons]
      refine Subject.span_mul.mpr ⟨pos + t.width, ?_, hspan⟩
      exact Target.span_texts_iff.mpr ⟨rfl, Nat.le_trans hroom hstop, hfits⟩

/-- The greedy placement has the least start and the least end of all placements in the window. -/
theorem spanOf_le (ready : ∀ t ∈ targets, t.Ready unknown) (nonempty : targets ≠ [])
    {start stop s e : Nat} (hs : start ≤ s) (he : e ≤ stop)
    (h : subject.Span (chain unknown (sectionsOf targets)) s e) :
    ∃ first last, spanOf unknown subject start stop targets = some (first, last) ∧
      first ≤ s ∧ last ≤ e := by
  obtain ⟨t, rest, rfl⟩ := List.exists_cons_of_ne_nil nonempty
  rw [List.forall_mem_cons] at ready
  rw [sectionsOf_cons, chain_cons, Subject.span_mul] at h
  obtain ⟨middle, hfirst, hrest⟩ := h
  obtain ⟨rfl, -, hfits⟩ := Target.span_texts_iff.mp hfirst
  obtain ⟨pos, hpos, hle⟩ :=
    Target.exists_place_le ready.1 hs ⟨Nat.le_trans hrest.1 he, hfits⟩
  obtain ⟨last, hlast, hleast⟩ := placeAll_le ready.2 (Nat.add_le_add_right hle t.width) he hrest
  exact ⟨pos, last, by simp [spanOf, hpos, hlast], hle, hleast⟩

end Pattern
end Wildcard
