import Wildcard.Proofs.Finding
import Wildcard.Proofs.RegexReading

/-!
# Searching for a pattern's regular expression

An expression finds a match in a subject if its pieces match a part of it, between the bounds where
it is anchored. Read back from a pattern, it finds one just where the pattern does.
-/

namespace Wildcard
namespace Regex

open Texts Section

def Piece.texts : Piece → Texts
  | .anyByte => Texts.anyByte
  | .anyText => Texts.anyText
  | .escaped b => Texts.byte b
  | .plain b => Texts.byte b

def textsOf (pieces : List Piece) : Texts := (pieces.map Piece.texts).prod

/-- A search for the expression finds a match: its pieces match some part of the subject, which
begins or ends with the subject where the expression is anchored. -/
def Expression.FindsIn (e : Expression) (subject : Bytes) : Prop :=
  ∃ before inside after, subject = before ++ inside ++ after ∧ inside ∈ textsOf e.pieces ∧
    (e.atStart = true → before = []) ∧ (e.atEnd = true → after = [])

theorem textsOf_append (front back : List Piece) :
    textsOf (front ++ back) = textsOf front * textsOf back := by
  simp [textsOf]

theorem textsOf_replicate_anyByte (n : Nat) :
    textsOf (List.replicate n .anyByte) = Texts.anyByte ^ n := by
  simp [textsOf, Piece.texts, List.prod_replicate]

theorem textsOf_anyTextIf (condition : Bool) :
    textsOf (anyTextIf condition) = beyond (!condition) := by
  cases condition <;> simp [textsOf, anyTextIf, Piece.texts]

theorem textsOf_piecesOfSection (unknown : UInt8) (s : Section) :
    textsOf (piecesOfSection unknown s) = s.texts unknown := by
  have hbyte : ∀ b, (pieceOfByte unknown b).texts = byteTexts unknown b := by
    intro b
    unfold pieceOfByte byteTexts
    by_cases hu : b = unknown
    · simp [hu, Piece.texts]
    · by_cases hb : b ∈ metacharacters <;> simp [hu, hb, Piece.texts]
  have hliteral :
      textsOf (s.literal.map (pieceOfByte unknown)) = literalTexts unknown s.literal := by
    rw [textsOf, literalTexts, List.map_map]
    congr 2
    funext b
    exact hbyte b
  rw [piecesOfSection, textsOf_append, textsOf_append, textsOf_replicate_anyByte,
    textsOf_replicate_anyByte, hliteral, Section.texts]

theorem textsOf_intercalate (parts : List (List Piece)) :
    textsOf ([Piece.anyText].intercalate parts) =
      ((parts.map textsOf).intersperse Texts.anyText).prod := by
  induction parts with
  | nil => simp [textsOf]
  | cons part parts ih =>
    cases parts with
    | nil => simp
    | cons next parts =>
      have hseparator : textsOf [Piece.anyText] = Texts.anyText := by simp [textsOf, Piece.texts]
      simp only [List.map_cons] at ih
      rw [List.intercalate_cons_cons, textsOf_append, textsOf_append, ih, hseparator]
      simp only [List.map_cons, List.intersperse_cons_cons, List.prod_cons, mul_assoc]

theorem textsOf_sections (unknown : UInt8) (sections : List Section) :
    textsOf ([Piece.anyText].intercalate (sections.map (piecesOfSection unknown))) =
      chain unknown sections := by
  rw [textsOf_intercalate, chain, List.map_map]
  congr 3
  funext s
  exact textsOf_piecesOfSection unknown s

theorem findsIn_iff {e : Expression} {subject : Bytes} :
    e.FindsIn subject ↔ subject ∈ beyond e.atStart * textsOf e.pieces * beyond e.atEnd := by
  have hbeyond : ∀ (anchored : Bool) (text : Bytes),
      text ∈ beyond anchored ↔ (anchored = true → text = []) := by
    intro anchored text
    cases anchored <;> simp
  simp only [Language.mem_mul, hbeyond]
  constructor
  · rintro ⟨before, inside, after, rfl, hinside, hbefore, hafter⟩
    exact ⟨before ++ inside, ⟨before, hbefore, inside, hinside, rfl⟩, after, hafter, rfl⟩
  · rintro ⟨front, ⟨before, hbefore, inside, hinside, rfl⟩, after, hafter, rfl⟩
    exact ⟨before, inside, after, rfl, hinside, hbefore, hafter⟩

variable {p : Pattern}

/-- A pattern is anchored only where its format has no anything token. -/
theorem not_outer_of_anchored (hp : p.Compiled) :
    (p.anchors.atStart = true → (!(p.format.head? == some p.tokens.anything)) = true) ∧
      (p.anchors.atEnd = true → (!(p.format.getLast? == some p.tokens.anything)) = true) := by
  rw [hp.anchors_eq]
  cases p.mode with
  | whole => exact ⟨id, id⟩
  | anywhere => exact ⟨nofun, nofun⟩

theorem textsOf_piecesOfPattern (h : p.targets ≠ []) :
    textsOf (piecesOfPattern p) =
      beyond (!(p.format.head? == some p.tokens.anything)) * chain p.tokens.unknown p.sections *
        beyond (!(p.format.getLast? == some p.tokens.anything)) := by
  have hsome : p.targets.isEmpty = false := by simpa using h
  rw [piecesOfPattern, hsome, if_neg Bool.false_ne_true, textsOf_append, textsOf_append,
    textsOf_anyTextIf, textsOf_anyTextIf, textsOf_sections]

/-- What is written for the outer anything tokens adds nothing: it stands only where the pattern is
not anchored. -/
theorem beyond_mul_textsOf_expressionOf (hp : p.Compiled) :
    beyond (expressionOf p).atStart * textsOf (expressionOf p).pieces *
        beyond (expressionOf p).atEnd =
      meaning p.tokens.unknown p.anchors p.sections := by
  by_cases htargets : p.targets = []
  · have hsections : p.sections = [] := by
      rw [Pattern.sections, htargets]
      rfl
    have hpieces : textsOf (piecesOfPattern p) = Texts.anyText := by
      simp [piecesOfPattern, htargets, textsOf, Piece.texts]
    have hmeaning : meaning p.tokens.unknown p.anchors p.sections = Texts.anyText := by
      rw [hsections]
      rfl
    rw [expressionOf]
    dsimp only
    rw [hpieces, beyond_mul_anyText, anyText_mul_beyond, hmeaning]
  · have hsections : p.sections ≠ [] := by simpa [Pattern.sections] using htargets
    have hsome : p.targets.isEmpty = false := by simpa using htargets
    obtain ⟨hstart, hstop⟩ := not_outer_of_anchored hp
    calc
      _ = beyond p.anchors.atStart * textsOf (piecesOfPattern p) * beyond p.anchors.atEnd := by
          rw [expressionOf, hsome]
          rfl
      _ = (beyond p.anchors.atStart * beyond (!(p.format.head? == some p.tokens.anything))) *
            chain p.tokens.unknown p.sections *
            (beyond (!(p.format.getLast? == some p.tokens.anything)) *
              beyond p.anchors.atEnd) := by
          rw [textsOf_piecesOfPattern htargets]
          simp only [mul_assoc]
      _ = meaning p.tokens.unknown p.anchors p.sections := by
          rw [beyond_mul_of_imp hstart, mul_beyond_of_imp hstop, meaning_of_ne_nil _ hsections]

/-- The text that a pattern is written as reads back as an expression in which no metacharacter
stands for itself. A search for it finds a match just in the subjects that the pattern matches, of
those whose length is a word; in a longer subject the pattern refuses to look for one. -/
theorem findsIn_ofPattern_iff_isMatch (mode : Mode) {format : Bytes} {tokens : Tokens}
    (hcompilable : Pattern.Compilable format tokens) :
    ∃ p e, Pattern.compile format mode tokens = .ok p ∧ read? (ofPattern .plain p) = some e ∧
      Legible e.pieces ∧
      (∀ subject : Subject, subject.size < 2147483648 →
        ∃ found, p.isMatch subject .all = .ok found ∧
          (found = true ↔ e.FindsIn subject.toList)) ∧
      ∀ subject : Subject, 2147483648 ≤ subject.size →
        p.isMatch subject .all = .error .subjectTooLong := by
  obtain ⟨p, hcompile⟩ := hcompilable.exists_compiled mode
  have hp := (Pattern.compile_eq_ok_iff.mp hcompile).1
  have hlegible := legible_piecesOfPattern p
  refine ⟨p, expressionOf p, hcompile, ?_, hlegible, ?_, ?_⟩
  · rw [← text_expressionOf]
    exact read?_text hlegible
  · intro subject hsize
    refine ⟨(p.findIn subject 0 subject.size).found, p.isMatch_all hsize, ?_⟩
    have hall : 0 + subject.size ≤ subject.size := (Nat.zero_add subject.size).le
    rw [hp.findIn_found_iff hall, Subject.span_add_iff hall, Subject.slice_all, ← hp.meaning_eq,
      findsIn_iff, beyond_mul_textsOf_expressionOf hp]
  · exact fun subject => p.isMatch_of_long .all

/-- A literal star behind a dot stays apart from it. -/
theorem findsIn_ofPattern_star_behind_unknown :
    ∃ p, Pattern.compile [97, 46, 42, 43, 92] .whole ⟨46, 43⟩ = .ok p ∧
      read? (ofPattern .plain p) =
        some ⟨true, [.plain 97, .anyByte, .escaped 42, .anyText, .escaped 92], true⟩ ∧
      (p.isMatch #[97, 98, 42, 92] .all = .ok true ↔ Expression.FindsIn
        ⟨true, [.plain 97, .anyByte, .escaped 42, .anyText, .escaped 92], true⟩
          [97, 98, 42, 92]) := by
  obtain ⟨p, e, hp, he, -, h⟩ :=
    @findsIn_ofPattern_iff_isMatch .whole [97, 46, 42, 43, 92] ⟨46, 43⟩ (by decide)
  obtain ⟨found, hfound, hiff⟩ := h.1 #[97, 98, 42, 92] (by decide)
  have hexpression : e =
      ⟨true, [.plain 97, .anyByte, .escaped 42, .anyText, .escaped 92], true⟩ := by
    cases hp
    apply Option.some.inj
    rw [← he]
    decide
  subst hexpression
  refine ⟨p, hp, he, ?_⟩
  rw [hfound, ← hiff]
  simp

/-- An expression for any text finds a match in a subject of 2 to the 31st bytes, where its pattern
refuses to look for one. -/
theorem findsIn_of_long_subject :
    let subject : Subject := Array.replicate 2147483648 97
    ∃ p e, Pattern.compile [42] .anywhere {} = .ok p ∧ read? (ofPattern .plain p) = some e ∧
      e.FindsIn subject.toList ∧ p.isMatch subject .all = .error .subjectTooLong ∧
      ¬ (p.isMatch subject .all = .ok true ↔ e.FindsIn subject.toList) := by
  intro subject
  have hsize : 2147483648 ≤ subject.size := by rw [Array.size_replicate]
  obtain ⟨p, hcompile⟩ := @Pattern.Compilable.exists_compiled [42] {} (by decide) .anywhere
  have hread : read? (ofPattern .plain p) = some ⟨false, [.anyText], false⟩ := by
    cases hcompile
    decide
  have hfinds : Expression.FindsIn ⟨false, [.anyText], false⟩ subject.toList :=
    ⟨[], subject.toList, [], by simp, by simp [textsOf, Piece.texts], nofun, nofun⟩
  have hrefused := p.isMatch_of_long .all hsize
  refine ⟨p, _, hcompile, hread, hfinds, hrefused, ?_⟩
  rw [hrefused]
  simpa using hfinds

end Regex
end Wildcard
