import Wildcard.Proofs.Compilation
import Wildcard.Proofs.Span

/-!
# The core of a format

The core is a format without the anything tokens at its ends. Its sections are those of the format.
A pattern that may stand anywhere has sections that accept only texts of the core, and every text
of the core begins with a text of the sections: merging a gap at the end leaves out longer texts,
never the shortest.
-/

namespace Wildcard

open Texts

namespace Tokens

variable {tokens : Tokens} {format : Bytes}

theorem core_split (tokens : Tokens) (format : Bytes) :
    ∃ before after, format = List.replicate before tokens.anything ++
      (tokens.core format ++ List.replicate after tokens.anything) := by
  have hfront := Bytes.replicate_append_dropWhile tokens.anything format
  have hback := Bytes.dropTrailing_append_replicate tokens.anything
    (format.dropWhile (· == tokens.anything))
  rw [← hback] at hfront
  exact ⟨_, _, hfront.symm⟩

theorem head?_core_ne (tokens : Tokens) (format : Bytes) :
    (tokens.core format).head? ≠ some tokens.anything := by
  intro h
  have hback := Bytes.dropTrailing_append_replicate tokens.anything
    (format.dropWhile (· == tokens.anything))
  apply Bytes.head?_dropWhile_ne tokens.anything format
  have hfirst : (Bytes.dropTrailing (· == tokens.anything)
      (format.dropWhile (· == tokens.anything))).head? = some tokens.anything := h
  rw [← hback, List.head?_append, hfirst, Option.some_or]

theorem getLast?_core_ne (tokens : Tokens) (format : Bytes) :
    (tokens.core format).getLast? ≠ some tokens.anything :=
  Bytes.getLast?_dropTrailing_ne tokens.anything _

theorem core_eq_nil_iff : tokens.core format = [] ↔ ∀ b ∈ format, b = tokens.anything := by
  obtain ⟨before, after, hformat⟩ := core_split tokens format
  constructor
  · intro h b hb
    rw [h, List.nil_append] at hformat
    rw [hformat, List.mem_append, List.mem_replicate, List.mem_replicate] at hb
    rcases hb with hb | hb
    · exact hb.2
    · exact hb.2
  · intro h
    by_contra hcore
    obtain ⟨b, rest, hcons⟩ := List.exists_cons_of_ne_nil hcore
    have hb : b = tokens.anything := h b (by rw [hformat, hcons]; simp)
    exact head?_core_ne tokens format (by rw [hcons, hb]; rfl)

theorem trimmedSections_eq_nil_iff :
    tokens.trimmedSections format = [] ↔ tokens.core format = [] := by
  rw [trimmedSections, List.map_eq_nil_iff, Section.cut, List.map_eq_nil_iff,
    Run.between_eq_nil_iff, core_eq_nil_iff]

theorem sections_eq_nil_iff {anchoredEnd : Bool} :
    tokens.sections anchoredEnd format = [] ↔ tokens.core format = [] := by
  rw [sections, Section.shiftLeading_eq_nil_iff, mergedSections, Section.mergeGaps_eq_nil_iff,
    trimmedSections_eq_nil_iff]

/-- The sections of a format, before any is merged, accept what its core accepts. -/
theorem language_core (distinct : tokens.unknown ≠ tokens.anything) (h : tokens.core format ≠ []) :
    tokens.language (tokens.core format) =
      Section.chain tokens.unknown (tokens.trimmedSections format) := by
  obtain ⟨before, after, hformat⟩ := core_split tokens format
  have hruns : Run.between tokens.anything 0 format =
      Run.between tokens.anything (0 + before) (tokens.core format) := by
    conv_lhs => rw [hformat]
    rw [Run.between_replicate_append, Run.between_append_replicate]
  have hsome : Run.between tokens.anything 0 format ≠ [] := by
    rw [ne_eq, Run.between_eq_nil_iff, ← core_eq_nil_iff]
    exact h
  have hhead : ((tokens.core format).head? != some tokens.anything) = true := by
    simpa using head?_core_ne tokens format
  have hlast : ((tokens.core format).getLast? != some tokens.anything) = true := by
    simpa using getLast?_core_ne tokens format
  rw [hruns] at hsome
  rw [language_eq_chain distinct hsome, hhead, hlast, beyond_true, one_mul, mul_one, ← hruns,
    trimmedSections, Section.chain_map_trim, Section.cut]

theorem chain_sections_le_core (distinct : tokens.unknown ≠ tokens.anything)
    (h : tokens.core format ≠ []) (anchoredEnd : Bool) :
    Section.chain tokens.unknown (tokens.sections anchoredEnd format) ≤
      tokens.language (tokens.core format) := by
  rw [language_core distinct h, sections, Section.chain_shiftLeading]
  exact Section.chain_mergeGaps_le anchoredEnd _

theorem core_le_chain_sections_mul (distinct : tokens.unknown ≠ tokens.anything)
    (h : tokens.core format ≠ []) :
    tokens.language (tokens.core format) ≤
      Section.chain tokens.unknown (tokens.sections false format) * anyText := by
  rw [language_core distinct h, sections, Section.chain_shiftLeading, mergedSections]
  have hmerge := Section.chain_mergeGaps tokens.unknown false
    (tokens.trimmedSections format)
  rw [beyond_false] at hmerge
  rw [hmerge]
  exact le_mul_anyText _

theorem ne_nil_of_mem_language_core (distinct : tokens.unknown ≠ tokens.anything)
    (h : tokens.core format ≠ []) {text : Bytes}
    (htext : text ∈ tokens.language (tokens.core format)) : text ≠ [] := by
  rintro rfl
  obtain ⟨b, rest, hcons⟩ := List.exists_cons_of_ne_nil h
  have hb : b ≠ tokens.anything := by
    rintro rfl
    exact head?_core_ne tokens format (by rw [hcons]; rfl)
  rw [hcons, language_cons distinct, ofByte_of_ne hb, Language.mem_mul] at htext
  obtain ⟨front, hfront, back, -, hempty⟩ := htext
  obtain ⟨rfl, -⟩ := List.append_eq_nil_iff.mp hempty
  unfold Section.byteTexts at hfront
  split at hfront
  · simp at hfront
  · simp at hfront

/-- The text between two positions of a subject is one of the core. -/
def CoreSpan (tokens : Tokens) (format : Bytes) (subject : Subject) (start stop : Nat) : Prop :=
  subject.Span (tokens.language (tokens.core format)) start stop

theorem CoreSpan.lt {subject : Subject} {start stop : Nat}
    (distinct : tokens.unknown ≠ tokens.anything) (h : tokens.core format ≠ [])
    (hspan : tokens.CoreSpan format subject start stop) : start < stop := by
  have hne := ne_nil_of_mem_language_core distinct h hspan.2.2
  have hlength := Subject.length_slice_of_le hspan.1 hspan.2.1
  have hpos := List.length_pos_iff.mpr hne
  omega

theorem CoreSpan.exists_chain {subject : Subject} {start stop : Nat}
    (distinct : tokens.unknown ≠ tokens.anything) (h : tokens.core format ≠ [])
    (hspan : tokens.CoreSpan format subject start stop) :
    ∃ last ≤ stop, subject.Span
      (Section.chain tokens.unknown (tokens.sections false format)) start last := by
  obtain ⟨last, hchain, hrest⟩ :=
    Subject.span_mul.mp (hspan.mono (core_le_chain_sections_mul distinct h))
  exact ⟨last, hrest.1, hchain⟩

end Tokens
end Wildcard
