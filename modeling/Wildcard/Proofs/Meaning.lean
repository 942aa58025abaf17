import Mathlib.Algebra.BigOperators.Group.List.Basic
import Wildcard.Pattern
import Wildcard.Proofs.Runs
import Wildcard.Proofs.Texts

/-!
# What sections denote

A list of sections denotes the texts in which they stand one after the other, with any text between
two of them and with anything beyond a bound that is not anchored. The passes that bring the
sections of a format into their final form change the list but not what it denotes, and that is
what the format asks for in its mode.
-/

namespace Wildcard

open Texts

namespace Section

def byteTexts (unknown b : UInt8) : Texts := if b = unknown then anyByte else byte b

def literalTexts (unknown : UInt8) (literal : Bytes) : Texts :=
  (literal.map (byteTexts unknown)).prod

def texts (unknown : UInt8) (s : Section) : Texts :=
  anyByte ^ s.leading * literalTexts unknown s.literal * anyByte ^ s.trailing

/-- Sections one after the other, with any text between two of them. -/
def chain (unknown : UInt8) (sections : List Section) : Texts :=
  ((sections.map (texts unknown)).intersperse anyText).prod

/-- The empty list asks for nothing. -/
def meaning (unknown : UInt8) (anchors : Anchors) : List Section → Texts
  | [] => anyText
  | s :: rest => beyond anchors.atStart * chain unknown (s :: rest) * beyond anchors.atEnd

/-- Sections that follow others: any text stands before each of them. -/
def following (unknown : UInt8) (sections : List Section) : Texts :=
  (sections.map fun s => anyText * s.texts unknown).prod

variable {unknown : UInt8}

@[simp] theorem literalTexts_nil : literalTexts unknown [] = 1 := rfl

@[simp] theorem literalTexts_cons (b : UInt8) (literal : Bytes) :
    literalTexts unknown (b :: literal) = byteTexts unknown b * literalTexts unknown literal := by
  simp [literalTexts]

@[simp] theorem literalTexts_append (front back : Bytes) :
    literalTexts unknown (front ++ back) =
      literalTexts unknown front * literalTexts unknown back := by
  simp [literalTexts]

@[simp] theorem literalTexts_replicate (n : Nat) :
    literalTexts unknown (List.replicate n unknown) = anyByte ^ n := by
  simp [literalTexts, byteTexts, List.prod_replicate]

@[simp] theorem following_nil : following unknown [] = 1 := rfl

@[simp] theorem following_cons (s : Section) (rest : List Section) :
    following unknown (s :: rest) = anyText * s.texts unknown * following unknown rest := by
  simp [following]

@[simp] theorem following_append (front back : List Section) :
    following unknown (front ++ back) = following unknown front * following unknown back := by
  simp [following]

theorem chain_cons (s : Section) (rest : List Section) :
    chain unknown (s :: rest) = s.texts unknown * following unknown rest := by
  induction rest generalizing s with
  | nil => simp [chain]
  | cons t rest ih =>
    have ht := ih t
    simp only [chain, List.map_cons] at ht
    simp only [chain, List.map_cons, List.intersperse_cons_cons, List.prod_cons, ht, following_cons]
    simp only [mul_assoc]

theorem following_eq_anyText_mul_chain (unknown : UInt8) {sections : List Section}
    (h : sections ≠ []) : following unknown sections = anyText * chain unknown sections := by
  obtain ⟨s, rest, rfl⟩ := List.exists_cons_of_ne_nil h
  rw [following_cons, chain_cons, mul_assoc]

theorem chain_cons_of_ne_nil (s : Section) {rest : List Section} (h : rest ≠ []) :
    chain unknown (s :: rest) = s.texts unknown * (anyText * chain unknown rest) := by
  rw [chain_cons, following_eq_anyText_mul_chain unknown h]

theorem meaning_of_ne_nil (anchors : Anchors) {sections : List Section} (h : sections ≠ []) :
    meaning unknown anchors sections =
      beyond anchors.atStart * chain unknown sections * beyond anchors.atEnd := by
  obtain ⟨s, rest, rfl⟩ := List.exists_cons_of_ne_nil h
  rfl

theorem texts_widen (s : Section) (n : Nat) :
    (s.widen n).texts unknown = s.texts unknown * anyByte ^ n := by
  simp only [texts, widen, pow_add, mul_assoc]

theorem texts_of_isGap {s : Section} (h : s.isGap = true) :
    s.texts unknown = anyByte ^ (s.leading + s.trailing) := by
  have hliteral : s.literal = [] := List.isEmpty_iff.mp h
  rw [texts, hliteral, literalTexts_nil, mul_one, pow_add]

theorem texts_eq_leading_mul (s : Section) :
    s.texts unknown = anyByte ^ s.leading * ({ s with leading := 0 } : Section).texts unknown := by
  simp only [texts, pow_zero, one_mul, mul_assoc]

theorem texts_trim (s : Section) : (s.trim unknown).texts unknown = s.texts unknown := by
  have hkept := congrArg (literalTexts unknown)
    (Bytes.dropTrailing_append_replicate unknown s.literal)
  have hliteral := congrArg (literalTexts unknown) (Bytes.replicate_append_dropWhile unknown
    (Bytes.dropTrailing (· == unknown) s.literal))
  rw [literalTexts_append, literalTexts_replicate] at hkept hliteral
  rw [texts, texts, ← hkept, ← hliteral]
  simp only [trim]
  rw [pow_add, Nat.add_comm s.trailing, pow_add]
  simp only [mul_assoc]

theorem chain_map_trim (sections : List Section) :
    chain unknown (sections.map (trim unknown)) = chain unknown sections := by
  simp only [chain, List.map_map]
  congr 3
  funext s
  exact texts_trim s

/-- Sections that something follows, or that end before an open bound, leave room for any text in
front of them. -/
theorem anyText_mul_following {rest : List Section} {anchoredEnd : Bool}
    (h : rest = [] → anchoredEnd = false) :
    anyText * (following unknown rest * beyond anchoredEnd) =
      following unknown rest * beyond anchoredEnd := by
  cases rest with
  | nil => simp [h rfl]
  | cons t rest => simp only [following_cons, ← mul_assoc, anyText_mul_anyText]

theorem absorbGaps_ne_nil (keepLast : Bool) (s : Section) (rest : List Section) :
    absorbGaps keepLast s rest ≠ [] := by
  induction rest generalizing s with
  | nil => simp [absorbGaps]
  | cons t rest ih =>
    rw [absorbGaps]
    split
    · exact ih _
    · simp

theorem chain_absorbGaps (keepLast : Bool) (s : Section) (rest : List Section) :
    chain unknown (absorbGaps keepLast s rest) * beyond keepLast =
      chain unknown (s :: rest) * beyond keepLast := by
  induction rest generalizing s with
  | nil => rfl
  | cons t rest ih =>
    rw [absorbGaps]
    split
    · rename_i h
      rw [Bool.and_eq_true] at h
      obtain ⟨hgap, hopen⟩ := h
      have hroom : anyText * (following unknown rest * beyond keepLast) =
          following unknown rest * beyond keepLast := by
        apply anyText_mul_following
        rintro rfl
        simpa using hopen
      rw [ih, chain_cons, chain_cons, following_cons, texts_widen, texts_of_isGap hgap]
      calc s.texts unknown * anyByte ^ (t.leading + t.trailing) * following unknown rest *
            beyond keepLast
          = s.texts unknown * (anyByte ^ (t.leading + t.trailing) * anyText) *
              (following unknown rest * beyond keepLast) := by
            simp only [mul_assoc, hroom]
        _ = s.texts unknown * (anyText * anyByte ^ (t.leading + t.trailing) *
              following unknown rest) * beyond keepLast := by
            rw [anyByte_pow_mul_anyText]
            simp only [mul_assoc]
    · rw [chain_cons_of_ne_nil s (absorbGaps_ne_nil keepLast t rest),
        chain_cons_of_ne_nil s (List.cons_ne_nil t rest)]
      simp only [mul_assoc, ih]

/-- A gap that is folded into the section before it no longer stands apart from it, so merging can
only leave texts out. -/
theorem chain_absorbGaps_le (keepLast : Bool) (s : Section) (rest : List Section) :
    chain unknown (absorbGaps keepLast s rest) ≤ chain unknown (s :: rest) := by
  induction rest generalizing s with
  | nil => exact le_rfl
  | cons t rest ih =>
    rw [absorbGaps]
    split
    · rename_i h
      rw [Bool.and_eq_true] at h
      refine (ih _).trans ?_
      rw [chain_cons, chain_cons, following_cons, texts_widen, texts_of_isGap h.1]
      calc s.texts unknown * anyByte ^ (t.leading + t.trailing) * following unknown rest
          = s.texts unknown *
              (1 * anyByte ^ (t.leading + t.trailing) * following unknown rest) := by
            simp only [one_mul, mul_assoc]
        _ ≤ s.texts unknown *
              (anyText * anyByte ^ (t.leading + t.trailing) * following unknown rest) := by
            gcongr
            exact one_le_anyText
    · rw [chain_cons_of_ne_nil s (absorbGaps_ne_nil keepLast t rest),
        chain_cons_of_ne_nil s (List.cons_ne_nil t rest)]
      gcongr
      exact ih t

theorem mergeGaps_eq_nil_iff {anchoredEnd : Bool} {sections : List Section} :
    mergeGaps anchoredEnd sections = [] ↔ sections = [] := by
  cases sections with
  | nil => simp [mergeGaps]
  | cons s rest => simp [mergeGaps, absorbGaps_ne_nil]

theorem chain_mergeGaps (unknown : UInt8) (anchoredEnd : Bool) (sections : List Section) :
    chain unknown (mergeGaps anchoredEnd sections) * beyond anchoredEnd =
      chain unknown sections * beyond anchoredEnd := by
  cases sections with
  | nil => rfl
  | cons s rest => exact chain_absorbGaps anchoredEnd s rest

theorem chain_mergeGaps_le (anchoredEnd : Bool) (sections : List Section) :
    chain unknown (mergeGaps anchoredEnd sections) ≤ chain unknown sections := by
  cases sections with
  | nil => exact le_rfl
  | cons s rest => exact chain_absorbGaps_le anchoredEnd s rest

theorem moveLeading_ne_nil (s : Section) (rest : List Section) : moveLeading s rest ≠ [] := by
  cases rest <;> simp [moveLeading]

theorem chain_moveLeading (s : Section) (rest : List Section) :
    chain unknown (moveLeading s rest) = chain unknown (s :: rest) := by
  induction rest generalizing s with
  | nil => rfl
  | cons t rest ih =>
    rw [moveLeading, chain_cons_of_ne_nil _ (moveLeading_ne_nil _ rest), ih, chain_cons,
      chain_cons, following_cons, texts_widen, texts_eq_leading_mul t]
    simp only [← mul_assoc]
    rw [mul_assoc (s.texts unknown), anyByte_pow_mul_anyText]
    simp only [mul_assoc]

theorem shiftLeading_eq_nil_iff {sections : List Section} :
    shiftLeading sections = [] ↔ sections = [] := by
  cases sections with
  | nil => simp [shiftLeading]
  | cons s rest => simp [shiftLeading, moveLeading_ne_nil]

theorem chain_shiftLeading (sections : List Section) :
    chain unknown (shiftLeading sections) = chain unknown sections := by
  cases sections with
  | nil => rfl
  | cons s rest => exact chain_moveLeading s rest

theorem meaning_mergeGaps (anchors : Anchors) (sections : List Section) :
    meaning unknown anchors (mergeGaps anchors.atEnd sections) =
      meaning unknown anchors sections := by
  by_cases h : sections = []
  · subst h
    rfl
  · have hmerged : mergeGaps anchors.atEnd sections ≠ [] := mt mergeGaps_eq_nil_iff.mp h
    rw [meaning_of_ne_nil anchors hmerged, meaning_of_ne_nil anchors h, mul_assoc,
      chain_mergeGaps, mul_assoc]

theorem meaning_shiftLeading (anchors : Anchors) (sections : List Section) :
    meaning unknown anchors (shiftLeading sections) = meaning unknown anchors sections := by
  by_cases h : sections = []
  · subst h
    rfl
  · have hshifted : shiftLeading sections ≠ [] := mt shiftLeading_eq_nil_iff.mp h
    rw [meaning_of_ne_nil anchors hshifted, meaning_of_ne_nil anchors h, chain_shiftLeading]

theorem meaning_map_trim (anchors : Anchors) (sections : List Section) :
    meaning unknown anchors (sections.map (trim unknown)) =
      meaning unknown anchors sections := by
  by_cases h : sections = []
  · subst h
    rfl
  · have htrimmed : sections.map (trim unknown) ≠ [] := by simpa using h
    rw [meaning_of_ne_nil anchors htrimmed, meaning_of_ne_nil anchors h, chain_map_trim]

end Section
end Wildcard
