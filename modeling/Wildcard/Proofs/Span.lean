import Wildcard.Subject
import Wildcard.Target
import Wildcard.Proofs.Meaning

/-!
# Spans of a subject

A subject has a span between two positions if the text between them belongs to a set of texts.
Spans of a product meet at a position, so the parts of a chain of sections are found by positions.
-/

namespace Wildcard

open Texts

namespace Subject

theorem length_slice (subject : Subject) (start length : Nat) :
    (subject.slice start length).length = min length (subject.size - start) := by
  simp [slice_eq]

theorem slice_append_slice (subject : Subject) {start middle stop : Nat} (hstart : start ≤ middle)
    (hstop : middle ≤ stop) :
    subject.slice start (middle - start) ++ subject.slice middle (stop - middle) =
      subject.slice start (stop - start) := by
  have hlength : stop - start = (middle - start) + (stop - middle) := by omega
  have hmiddle : start + (middle - start) = middle := by omega
  rw [slice_eq, slice_eq, slice_eq, hlength, List.take_add, List.drop_drop, hmiddle]

/-- The text between the two positions is one of the given texts. -/
def Span (subject : Subject) (texts : Texts) (start stop : Nat) : Prop :=
  start ≤ stop ∧ stop ≤ subject.size ∧ subject.slice start (stop - start) ∈ texts

variable {subject : Subject} {start stop : Nat} {unknown : UInt8}

theorem Span.mono {A B : Texts} (h : subject.Span A start stop) (hle : A ≤ B) :
    subject.Span B start stop := ⟨h.1, h.2.1, hle h.2.2⟩

theorem span_add_iff {texts : Texts} {length : Nat} (hstop : start + length ≤ subject.size) :
    subject.Span texts start (start + length) ↔ subject.slice start length ∈ texts := by
  rw [Span, Nat.add_sub_cancel_left]
  exact ⟨fun h => h.2.2, fun h => ⟨Nat.le_add_right start length, hstop, h⟩⟩

theorem length_slice_of_le (hstart : start ≤ stop) (hstop : stop ≤ subject.size) :
    (subject.slice start (stop - start)).length = stop - start := by
  rw [length_slice]
  omega

theorem span_mul {A B : Texts} :
    subject.Span (A * B) start stop ↔
      ∃ middle, subject.Span A start middle ∧ subject.Span B middle stop := by
  constructor
  · rintro ⟨hstart, hstop, hmem⟩
    obtain ⟨a, ha, b, hb, hab⟩ := Language.mem_mul.mp hmem
    have hlength := congrArg List.length hab
    rw [List.length_append, length_slice_of_le hstart hstop] at hlength
    have hmiddle : start ≤ start + a.length ∧ start + a.length ≤ stop := by omega
    have hslices := slice_append_slice subject hmiddle.1 hmiddle.2
    rw [← hab] at hslices
    have hfirst : (subject.slice start (start + a.length - start)).length = a.length := by
      rw [length_slice_of_le hmiddle.1 (Nat.le_trans hmiddle.2 hstop)]
      omega
    obtain ⟨hsa, hsb⟩ := List.append_inj hslices hfirst
    refine ⟨start + a.length, ⟨hmiddle.1, Nat.le_trans hmiddle.2 hstop, ?_⟩, hmiddle.2, hstop, ?_⟩
    · rw [hsa]
      exact ha
    · rw [hsb]
      exact hb
  · rintro ⟨middle, ⟨hstart, -, ha⟩, hstop, hsize, hb⟩
    refine ⟨Nat.le_trans hstart hstop, hsize, ?_⟩
    rw [← slice_append_slice subject hstart hstop]
    exact Language.append_mem_mul ha hb

@[simp] theorem span_anyText :
    subject.Span anyText start stop ↔ start ≤ stop ∧ stop ≤ subject.size := by
  simp [Span]

theorem span_anyByte_pow {n : Nat} :
    subject.Span (anyByte ^ n) start stop ↔ stop = start + n ∧ stop ≤ subject.size := by
  rw [Span, mem_anyByte_pow, length_slice]
  omega

@[simp] theorem span_one : subject.Span 1 start stop ↔ stop = start ∧ stop ≤ subject.size := by
  rw [← pow_zero anyByte, span_anyByte_pow, Nat.add_zero]

theorem span_byte {b : UInt8} :
    subject.Span (byte b) start stop ↔ stop = start + 1 ∧ subject[start]? = some b := by
  constructor
  · rintro ⟨hstart, hstop, hmem⟩
    rw [mem_byte] at hmem
    have hlength := congrArg List.length hmem
    rw [length_slice_of_le hstart hstop, List.length_singleton] at hlength
    obtain rfl : stop = start + 1 := by omega
    refine ⟨rfl, ?_⟩
    have hfirst := congrArg List.head? hmem
    simpa [slice_eq, List.head?_take] using hfirst
  · rintro ⟨rfl, hb⟩
    obtain ⟨hsize, hb⟩ := Array.getElem?_eq_some_iff.mp hb
    refine ⟨by omega, by omega, ?_⟩
    rw [mem_byte, slice_eq, Nat.add_sub_cancel_left, List.take_one, List.head?_drop]
    simp [hsize, hb]

theorem span_byteTexts {b : UInt8} :
    subject.Span (Section.byteTexts unknown b) start stop ↔
      stop = start + 1 ∧ stop ≤ subject.size ∧
        (b == unknown || subject[start]? == some b) = true := by
  unfold Section.byteTexts
  by_cases h : b = unknown
  · rw [if_pos h, ← pow_one anyByte, span_anyByte_pow]
    simp [h]
  · rw [if_neg h, span_byte]
    simp only [beq_eq_false_iff_ne.mpr h, Bool.false_or, beq_iff_eq]
    constructor
    · rintro ⟨rfl, hb⟩
      have hsize := (Array.getElem?_eq_some_iff.mp hb).1
      exact ⟨rfl, hsize, hb⟩
    · rintro ⟨rfl, -, hb⟩
      exact ⟨rfl, hb⟩

theorem span_literalTexts {literal : Bytes} :
    subject.Span (Section.literalTexts unknown literal) start stop ↔
      stop = start + literal.length ∧ stop ≤ subject.size ∧
        agreesAt unknown subject start literal = true := by
  induction literal generalizing start with
  | nil => simp [agreesAt]
  | cons b rest ih =>
    simp only [Section.literalTexts_cons, span_mul, span_byteTexts, ih, agreesAt, Bool.and_eq_true,
      List.length_cons]
    constructor
    · rintro ⟨middle, ⟨rfl, -, hb⟩, rfl, hstop, hrest⟩
      exact ⟨by omega, hstop, hb, hrest⟩
    · rintro ⟨rfl, hstop, hb, hrest⟩
      exact ⟨start + 1, ⟨rfl, by omega, hb⟩, by omega, hstop, hrest⟩

theorem span_texts {s : Section} :
    subject.Span (s.texts unknown) start stop ↔
      stop = start + s.width ∧ stop ≤ subject.size ∧
        agreesAt unknown subject (start + s.leading) s.literal = true := by
  simp only [Section.texts, span_mul, span_anyByte_pow, span_literalTexts, Section.width]
  constructor
  · rintro ⟨back, ⟨front, ⟨rfl, -⟩, rfl, -, hliteral⟩, rfl, hstop⟩
    exact ⟨by omega, hstop, hliteral⟩
  · rintro ⟨rfl, hstop, hliteral⟩
    refine ⟨start + s.leading + s.literal.length, ⟨start + s.leading, ⟨rfl, ?_⟩, rfl, ?_, hliteral⟩,
      ?_, hstop⟩ <;> omega

theorem Span.following_width {sections : List Section}
    (h : subject.Span (Section.following unknown sections) start stop) :
    start + Section.totalWidth sections ≤ stop := by
  induction sections generalizing start with
  | nil => exact h.1
  | cons s rest ih =>
    simp only [Section.following_cons, span_mul, span_anyText, span_texts] at h
    obtain ⟨back, ⟨front, ⟨hstart, -⟩, rfl, -, -⟩, hrest⟩ := h
    have hwidth := ih hrest
    rw [Section.totalWidth_cons]
    omega

theorem Span.chain_width {sections : List Section}
    (h : subject.Span (Section.chain unknown sections) start stop) :
    start + Section.totalWidth sections ≤ stop := by
  cases sections with
  | nil => exact h.1
  | cons s rest =>
    rw [Section.chain_cons, span_mul] at h
    obtain ⟨middle, hfirst, hrest⟩ := h
    obtain ⟨rfl, -, -⟩ := span_texts.mp hfirst
    have hwidth := hrest.following_width
    rw [Section.totalWidth_cons]
    omega

theorem Span.meaning_width {anchors : Anchors} {sections : List Section}
    (h : subject.Span (Section.meaning unknown anchors sections) start stop) :
    start + Section.totalWidth sections ≤ stop := by
  cases sections with
  | nil => exact h.1
  | cons s rest =>
    rw [Section.meaning, span_mul] at h
    obtain ⟨last, hfront, hback⟩ := h
    obtain ⟨first, hbefore, hchain⟩ := span_mul.mp hfront
    have hwidth := hchain.chain_width
    have := hbefore.1
    have := hback.1
    omega

end Subject
end Wildcard
