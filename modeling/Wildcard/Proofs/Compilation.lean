import Wildcard.Proofs.Meaning

/-!
# What a format compiles to

The sections cut from a format, put one after the other between the bounds that its outer bytes
leave, accept what the format accepts. With the passes keeping what sections denote, every stage of
compiling a format denotes the texts in which the format has a match in its mode.
-/

namespace Wildcard

open Texts

namespace Tokens

variable {tokens : Tokens}

theorem ofByte_anything (distinct : tokens.unknown ≠ tokens.anything) :
    tokens.ofByte tokens.anything = anyText := by
  rw [ofByte, if_neg distinct.symm, if_pos rfl]

theorem ofByte_of_ne {b : UInt8} (hb : b ≠ tokens.anything) :
    tokens.ofByte b = Section.byteTexts tokens.unknown b := by
  rw [ofByte, if_neg hb, Section.byteTexts]

theorem texts_ofRun (r : Run) :
    (Section.ofRun r).texts tokens.unknown = Section.literalTexts tokens.unknown r.bytes := by
  simp [Section.texts, Section.ofRun]

/-- A format of anything tokens only accepts every text, unless it is empty. -/
theorem language_of_forall_anything (distinct : tokens.unknown ≠ tokens.anything) {format : Bytes}
    (h : ∀ b ∈ format, b = tokens.anything) : tokens.language format = beyond format.isEmpty := by
  induction format with
  | nil => simp
  | cons b format ih =>
    rw [List.forall_mem_cons] at h
    rw [language_cons distinct, h.1, ofByte_anything distinct, ih h.2, anyText_mul_beyond]
    rfl

theorem getLast?_cons_of_forall_anything {b : UInt8} (hb : b ≠ tokens.anything) {format : Bytes}
    (h : ∀ c ∈ format, c = tokens.anything) :
    ((b :: format).getLast? != some tokens.anything) = format.isEmpty := by
  cases format with
  | nil => simpa using hb
  | cons c rest =>
    have hlast : (c :: rest).getLast (List.cons_ne_nil c rest) = tokens.anything :=
      h _ (List.getLast_mem _)
    rw [List.getLast?_cons_cons, List.getLast?_eq_some_getLast (List.cons_ne_nil c rest), hlast]
    simp

theorem chain_extend (pos : Nat) (b : UInt8) (r : Run) (rest : List Run) :
    Section.chain tokens.unknown ((Run.extend pos b (r :: rest)).map Section.ofRun) =
      Section.byteTexts tokens.unknown b *
        (beyond (decide (r.start = pos + 1)) *
          Section.chain tokens.unknown ((r :: rest).map Section.ofRun)) := by
  rw [Run.extend]
  by_cases h : r.start = pos + 1
  · simp only [h, if_true, decide_true, beyond_true, one_mul, List.map_cons, Section.chain_cons,
      texts_ofRun, Section.literalTexts_cons, mul_assoc]
  · have hrest : (r :: rest).map Section.ofRun ≠ [] := by simp
    simp only [h, if_false, decide_false, beyond_false]
    rw [List.map_cons, Section.chain_cons_of_ne_nil _ hrest, texts_ofRun]
    simp

/-- The runs between anything tokens accept what the format accepts. -/
theorem language_eq_chain (distinct : tokens.unknown ≠ tokens.anything) {pos : Nat} {format : Bytes}
    (h : Run.between tokens.anything pos format ≠ []) :
    tokens.language format =
      beyond (format.head? != some tokens.anything) *
        Section.chain tokens.unknown
          ((Run.between tokens.anything pos format).map Section.ofRun) *
        beyond (format.getLast? != some tokens.anything) := by
  induction format generalizing pos with
  | nil => simp [Run.between] at h
  | cons b format ih =>
    rw [language_cons distinct]
    by_cases hb : b = tokens.anything
    · subst hb
      rw [Run.between_cons_gap] at h ⊢
      obtain ⟨c, rest, rfl⟩ := List.exists_cons_of_ne_nil (Run.ne_nil_of_between_ne_nil h)
      rw [ofByte_anything distinct, ih h, List.getLast?_cons_cons]
      simp only [← mul_assoc, anyText_mul_beyond, List.head?_cons, bne_self_eq_false, beyond_false]
    · have hhead : ((b :: format).head? != some tokens.anything) = true := by simpa using hb
      rw [ofByte_of_ne hb, Run.between_cons_ne hb, hhead, beyond_true, one_mul]
      cases hruns : Run.between tokens.anything (pos + 1) format with
      | nil =>
        have hrest := Run.between_eq_nil_iff.mp hruns
        rw [language_of_forall_anything distinct hrest, getLast?_cons_of_forall_anything hb hrest]
        simp [Run.extend, Section.chain, texts_ofRun]
      | cons r rest =>
        have hne : Run.between tokens.anything (pos + 1) format ≠ [] := by simp [hruns]
        have hlast : (b :: format).getLast? = format.getLast? := by
          obtain ⟨c, others, rfl⟩ := List.exists_cons_of_ne_nil (Run.ne_nil_of_between_ne_nil hne)
          rw [List.getLast?_cons_cons]
        have hfirst : decide (r.start = pos + 1) = (format.head? != some tokens.anything) := by
          rw [Bool.eq_iff_iff]
          simpa using Run.start_eq_iff_of_between hruns
        rw [ih hne, hruns, chain_extend, hfirst, hlast]
        simp only [mul_assoc]

/-- The texts in which a format has a match: those that it accepts as a whole, or those with a
part that it accepts. -/
def modeLanguage (tokens : Tokens) (format : Bytes) : Mode → Texts
  | .whole => tokens.language format
  | .anywhere =>
    {text | ∃ before inside after, text = before ++ inside ++ after ∧ tokens.Accepts format inside}

theorem modeLanguage_anywhere (tokens : Tokens) (format : Bytes) :
    tokens.modeLanguage format .anywhere = anyText * tokens.language format * anyText := by
  ext text
  simp only [Language.mem_mul]
  constructor
  · rintro ⟨before, inside, after, rfl, hinside⟩
    exact ⟨before ++ inside, ⟨before, trivial, inside, hinside, rfl⟩, after, trivial, rfl⟩
  · rintro ⟨front, ⟨before, -, inside, hinside, rfl⟩, after, -, rfl⟩
    exact ⟨before, inside, after, rfl, hinside⟩

theorem meaning_cut (distinct : tokens.unknown ≠ tokens.anything) {format : Bytes}
    (nonempty : format ≠ []) (mode : Mode) :
    Section.meaning tokens.unknown (Anchors.of mode tokens.anything format)
      (Section.cut tokens.anything format) = tokens.modeLanguage format mode := by
  by_cases h : Run.between tokens.anything 0 format = []
  · have hformat := language_of_forall_anything distinct (Run.between_eq_nil_iff.mp h)
    have hopen : format.isEmpty = false := by simpa using nonempty
    rw [hopen, beyond_false] at hformat
    rw [Section.cut, h]
    cases mode with
    | whole => exact hformat.symm
    | anywhere =>
      rw [modeLanguage_anywhere, hformat, anyText_mul_anyText, anyText_mul_anyText]
      rfl
  · have hsections : Section.cut tokens.anything format ≠ [] := by simpa [Section.cut] using h
    have hformat := language_eq_chain distinct h
    rw [Section.meaning_of_ne_nil _ hsections]
    cases mode with
    | whole => exact hformat.symm
    | anywhere =>
      rw [modeLanguage_anywhere, hformat]
      simp only [← mul_assoc, anyText_mul_beyond]
      simp only [mul_assoc, beyond_mul_anyText]
      rfl

theorem meaning_trimmedSections (distinct : tokens.unknown ≠ tokens.anything) {format : Bytes}
    (nonempty : format ≠ []) (mode : Mode) :
    Section.meaning tokens.unknown (Anchors.of mode tokens.anything format)
      (tokens.trimmedSections format) = tokens.modeLanguage format mode := by
  rw [trimmedSections, Section.meaning_map_trim, meaning_cut distinct nonempty]

theorem meaning_mergedSections (distinct : tokens.unknown ≠ tokens.anything) {format : Bytes}
    (nonempty : format ≠ []) (mode : Mode) :
    Section.meaning tokens.unknown (Anchors.of mode tokens.anything format)
      (tokens.mergedSections (Anchors.of mode tokens.anything format).atEnd format) =
        tokens.modeLanguage format mode := by
  rw [mergedSections, Section.meaning_mergeGaps, meaning_trimmedSections distinct nonempty]

theorem meaning_sections (distinct : tokens.unknown ≠ tokens.anything) {format : Bytes}
    (nonempty : format ≠ []) (mode : Mode) :
    Section.meaning tokens.unknown (Anchors.of mode tokens.anything format)
      (tokens.sections (Anchors.of mode tokens.anything format).atEnd format) =
        tokens.modeLanguage format mode := by
  rw [sections, Section.meaning_shiftLeading, meaning_mergedSections distinct nonempty]

end Tokens

namespace Pattern

/-- A pattern as compiling leaves it, measured by its own format, mode and tokens. -/
structure Compiled (p : Pattern) : Prop where
  nonempty : p.format ≠ []
  distinct : p.tokens.unknown ≠ p.tokens.anything
  length_lt : p.format.length < 2147483648
  anchors_eq : p.anchors = Anchors.of p.mode p.tokens.anything p.format
  targets_eq : p.targets =
    (p.tokens.sections p.anchors.atEnd p.format).map (Target.ofSection p.tokens.unknown)
  minWidth_eq : p.minWidth = Section.totalWidth (p.tokens.sections p.anchors.atEnd p.format)

theorem compile_eq_ok_iff {format : Bytes} {mode : Mode} {tokens : Tokens} {p : Pattern} :
    compile format mode tokens = .ok p ↔
      p.Compiled ∧ p.format = format ∧ p.mode = mode ∧ p.tokens = tokens := by
  unfold compile
  constructor
  · intro h
    split at h
    · cases h
    · rename_i hformat
      split at h
      · cases h
      · rename_i htokens
        split at h
        · cases h
        · rename_i hlength
          cases h
          exact ⟨⟨by simpa using hformat, htokens, Nat.lt_succ_of_le (Nat.not_lt.mp hlength), rfl,
            rfl, rfl⟩, rfl, rfl, rfl⟩
  · rintro ⟨hp, rfl, rfl, rfl⟩
    have hformat : ¬ p.format.isEmpty = true := by simpa using hp.nonempty
    have hlength : ¬ 2147483647 < p.format.length := by
      have := hp.length_lt
      omega
    rw [if_neg hformat, if_neg hp.distinct, if_neg hlength, ← hp.anchors_eq]
    dsimp only
    rw [← hp.targets_eq, ← hp.minWidth_eq]

theorem exists_compiled {format : Bytes} {tokens : Tokens} (nonempty : format ≠ [])
    (distinct : tokens.unknown ≠ tokens.anything) (hlength : format.length < 2147483648)
    (mode : Mode) : ∃ p, compile format mode tokens = .ok p := by
  have hok := (compile_isOk_iff format mode tokens).mpr ⟨nonempty, distinct, hlength⟩
  cases h : compile format mode tokens with
  | error e => simp [h, Except.isOk, Except.toBool] at hok
  | ok p => exact ⟨p, rfl⟩

theorem Compilable.exists_compiled {format : Bytes} {tokens : Tokens}
    (h : Compilable format tokens) (mode : Mode) : ∃ p, compile format mode tokens = .ok p :=
  Pattern.exists_compiled h.nonempty h.distinct (Nat.lt_succ_of_lt h.countable) mode

theorem Compiled.sections_eq {p : Pattern} (hp : p.Compiled) :
    p.sections = p.tokens.sections p.anchors.atEnd p.format := by
  rw [sections, hp.targets_eq, List.map_map]
  exact List.map_id _

theorem Compiled.meaning_eq {p : Pattern} (hp : p.Compiled) :
    Section.meaning p.tokens.unknown p.anchors p.sections =
      p.tokens.modeLanguage p.format p.mode := by
  have hsections := Tokens.meaning_sections hp.distinct hp.nonempty p.mode
  rwa [← hp.anchors_eq, ← hp.sections_eq] at hsections

/-- Trimming, merging and shifting keep what the sections of a format denote, which is what the
format asks for in its mode. -/
theorem meaning_of_every_stage (mode : Mode) {format : Bytes} {tokens : Tokens}
    (h : Compilable format tokens) :
    ∃ p, compile format mode tokens = .ok p ∧
      p.anchors = Anchors.of mode tokens.anything format ∧
      Section.meaning tokens.unknown p.anchors (tokens.trimmedSections format) =
        tokens.modeLanguage format mode ∧
      Section.meaning tokens.unknown p.anchors
        (tokens.mergedSections p.anchors.atEnd format) = tokens.modeLanguage format mode ∧
      Section.meaning tokens.unknown p.anchors (tokens.sections p.anchors.atEnd format) =
        tokens.modeLanguage format mode ∧
      p.sections = tokens.sections p.anchors.atEnd format := by
  obtain ⟨p, hp⟩ := h.exists_compiled mode
  obtain ⟨hcompiled, rfl, rfl, rfl⟩ := compile_eq_ok_iff.mp hp
  have htrimmed := Tokens.meaning_trimmedSections h.distinct h.nonempty p.mode
  have hmerged := Tokens.meaning_mergedSections h.distinct h.nonempty p.mode
  have hshifted := Tokens.meaning_sections h.distinct h.nonempty p.mode
  rw [← hcompiled.anchors_eq] at htrimmed hmerged hshifted
  exact ⟨p, hp, hcompiled.anchors_eq, htrimmed, hmerged, hshifted, hcompiled.sections_eq⟩

/-- A gap in front of an anchored end stays: it holds the end at least two bytes off. -/
theorem meaning_of_gap_before_end :
    Section.meaning 63 ⟨true, true⟩ [⟨0, [97, 98, 99], 0, 0⟩, ⟨4, [], 0, 2⟩] =
      ({} : Tokens).language [97, 98, 99, 42, 63, 63] := by
  obtain ⟨p, hp, hanchors, -, -, hsections, -⟩ :=
    @meaning_of_every_stage .whole [97, 98, 99, 42, 63, 63] {} (by decide)
  rw [hanchors] at hsections
  exact hsections

end Pattern
end Wildcard
