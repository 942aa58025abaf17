import Wildcard.Proofs.Compilation
import Wildcard.Regex

/-!
# Reading a quoted literal back

A pattern written as a quoted literal of SQL is the plain text between two quotes, with each quote in
it written twice. A reader that takes two quotes for one and stops at the first that stands alone
gets the plain text back and has read all of the literal, whatever the tokens and literals of the
pattern are.
-/

namespace Wildcard
namespace Regex

def doubled (text : Bytes) : Bytes := text.flatMap fun b => if b = quote then [quote, quote] else [b]

@[simp] theorem doubled_nil : doubled [] = [] := rfl

theorem doubled_append (front back : Bytes) :
    doubled (front ++ back) = doubled front ++ doubled back := List.flatMap_append

theorem doubled_quote (text : Bytes) : doubled (quote :: text) = quote :: quote :: doubled text := rfl

theorem doubled_cons_of_ne {b : UInt8} (h : b ≠ quote) (text : Bytes) :
    doubled (b :: text) = b :: doubled text := by
  rw [doubled, List.flatMap_cons, if_neg h]
  rfl

theorem doubled_of_notMem {text : Bytes} (h : quote ∉ text) : doubled text = text := by
  induction text with
  | nil => rfl
  | cons b text ih =>
    rw [List.mem_cons, not_or] at h
    rw [doubled_cons_of_ne (Ne.symm h.1), ih h.2]

theorem doubled_flatten (parts : List Bytes) :
    doubled parts.flatten = (parts.map doubled).flatten := by
  induction parts with
  | nil => rfl
  | cons part parts ih => rw [List.flatten_cons, doubled_append, ih, List.map_cons, List.flatten_cons]

theorem doubled_intercalate (separator : Bytes) (parts : List Bytes) :
    doubled (separator.intercalate parts) = (doubled separator).intercalate (parts.map doubled) := by
  induction parts with
  | nil => rfl
  | cons part parts ih =>
    cases parts with
    | nil => simp
    | cons next parts =>
      simp only [List.map_cons] at ih
      simp only [List.map_cons, List.intercalate_cons_cons, doubled_append, ih]

/-- Read the inside of a literal, and give what it stands for with the text behind the literal. Two
quotes stand for one, and the first quote without another behind it ends the literal. -/
def readInside? : Bytes → Option (Bytes × Bytes)
  | [] => none
  | [b] => if b = quote then some ([], []) else none
  | b :: c :: rest =>
    if b ≠ quote then (readInside? (c :: rest)).map fun r => (b :: r.1, r.2)
    else if c = quote then (readInside? rest).map fun r => (quote :: r.1, r.2)
    else some ([], c :: rest)

def readLiteral? : Bytes → Option (Bytes × Bytes)
  | [] => none
  | b :: rest => if b = quote then readInside? rest else none

theorem readInside?_cons_of_ne {b : UInt8} (h : b ≠ quote) (rest : Bytes) :
    readInside? (b :: rest) = (readInside? rest).map fun r => (b :: r.1, r.2) := by
  cases rest with
  | nil => simp [readInside?, h]
  | cons c rest => rw [readInside?, if_pos h]

theorem readInside?_quote_quote (rest : Bytes) :
    readInside? (quote :: quote :: rest) =
      (readInside? rest).map fun r => (quote :: r.1, r.2) := by
  simp [readInside?]

theorem readInside?_quote {after : Bytes} (h : after.head? ≠ some quote) :
    readInside? (quote :: after) = some ([], after) := by
  cases after with
  | nil => simp [readInside?]
  | cons c after =>
    have hc : c ≠ quote := by simpa using h
    simp [readInside?, hc]

theorem readInside?_doubled (text : Bytes) {after : Bytes} (h : after.head? ≠ some quote) :
    readInside? (doubled text ++ quote :: after) = some (text, after) := by
  induction text with
  | nil => exact readInside?_quote h
  | cons b text ih =>
    by_cases hb : b = quote
    · subst hb
      rw [doubled_quote, List.cons_append, List.cons_append, readInside?_quote_quote, ih]
      rfl
    · rw [doubled_cons_of_ne hb, List.cons_append, readInside?_cons_of_ne hb, ih]
      rfl

/-- Nothing but a text with its quotes doubled and a quote behind it is read as the inside of a
literal. -/
theorem eq_doubled_of_readInside? {input text after : Bytes}
    (h : readInside? input = some (text, after)) :
    input = doubled text ++ quote :: after ∧ after.head? ≠ some quote := by
  fun_induction readInside? input generalizing text with
  | case1 => cases h
  | case2 =>
    cases h
    exact ⟨rfl, by simp⟩
  | case3 => cases h
  | case4 b c rest hb ih =>
    obtain ⟨⟨text', after'⟩, hread, heq⟩ := Option.map_eq_some_iff.mp h
    obtain ⟨rfl, rfl⟩ := Prod.mk.inj heq
    obtain ⟨hrest, hhead⟩ := ih hread
    exact ⟨by rw [hrest, doubled_cons_of_ne hb, List.cons_append], hhead⟩
  | case5 b rest hb ih =>
    obtain ⟨⟨text', after'⟩, hread, heq⟩ := Option.map_eq_some_iff.mp h
    obtain ⟨rfl, rfl⟩ := Prod.mk.inj heq
    obtain ⟨hrest, hhead⟩ := ih hread
    have hquote : b = quote := not_not.mp hb
    exact ⟨by rw [hquote, hrest, doubled_quote, List.cons_append, List.cons_append], hhead⟩
  | case6 b c rest hb hc =>
    cases h
    have hquote : b = quote := not_not.mp hb
    exact ⟨by rw [hquote]; rfl, by simpa using hc⟩

theorem readLiteral?_eq_some_iff {input text after : Bytes} :
    readLiteral? input = some (text, after) ↔
      input = quote :: (doubled text ++ quote :: after) ∧ after.head? ≠ some quote := by
  constructor
  · intro h
    cases input with
    | nil => cases h
    | cons b rest =>
      obtain ⟨rfl, h⟩ := Option.ite_none_right_eq_some.mp h
      obtain ⟨hrest, hhead⟩ := eq_doubled_of_readInside? h
      exact ⟨by rw [hrest], hhead⟩
  · rintro ⟨rfl, h⟩
    rw [readLiteral?, if_pos rfl, readInside?_doubled text h]

/-- A quote is no metacharacter, so quoting doubles it where the plain text has it once. -/
theorem ofByte_sqlQuoted (unknown b : UInt8) :
    ofByte .sqlQuoted unknown b = doubled (ofByte .plain unknown b) := by
  have hplain : quote ∉ metacharacters := by decide
  have hdot : doubled anyByte = anyByte := doubled_of_notMem (by decide)
  by_cases hunknown : b = unknown
  · simp [ofByte, hunknown, hdot]
  · by_cases hquote : b = quote
    · subst hquote
      simp [ofByte, hunknown, hplain, doubled_quote]
    · by_cases hmeta : b ∈ metacharacters
      · have hbackslash : backslash ≠ quote := by decide
        simp [ofByte, hunknown, hquote, hmeta, doubled_cons_of_ne hbackslash,
          doubled_cons_of_ne hquote]
      · simp [ofByte, hunknown, hquote, hmeta, doubled_cons_of_ne hquote]

theorem doubled_replicate_anyByte (n : Nat) :
    doubled (List.replicate n anyByte).flatten = (List.replicate n anyByte).flatten := by
  apply doubled_of_notMem
  simp only [List.mem_flatten, List.mem_replicate, not_exists, not_and]
  rintro part ⟨-, rfl⟩
  decide

theorem ofSection_sqlQuoted (unknown : UInt8) (s : Section) :
    ofSection .sqlQuoted unknown s = doubled (ofSection .plain unknown s) := by
  have hliteral : ∀ literal : Bytes, literal.flatMap (ofByte .sqlQuoted unknown) =
      doubled (literal.flatMap (ofByte .plain unknown)) := by
    intro literal
    rw [List.flatMap_def, List.flatMap_def, doubled_flatten, List.map_map]
    congr 2
    funext b
    exact ofByte_sqlQuoted unknown b
  rw [ofSection, ofSection, doubled_append, doubled_append, doubled_replicate_anyByte,
    doubled_replicate_anyByte, hliteral]

theorem doubled_shownIf {shown : Bytes} (h : quote ∉ shown) (condition : Bool) :
    doubled (shownIf condition shown) = shownIf condition shown := by
  cases condition with
  | false => rfl
  | true => exact doubled_of_notMem h

theorem body_sqlQuoted (p : Pattern) : body .sqlQuoted p = doubled (body .plain p) := by
  have hanyText : quote ∉ anyText := by decide
  have hdollar : quote ∉ Bytes.ascii "$" := by decide
  have hsections : p.sections.map (ofSection .sqlQuoted p.tokens.unknown) =
      (p.sections.map (ofSection .plain p.tokens.unknown)).map doubled := by
    rw [List.map_map]
    congr 1
    funext s
    exact ofSection_sqlQuoted p.tokens.unknown s
  unfold body
  split
  · rw [doubled_of_notMem hanyText]
  · rw [doubled_append, doubled_append, doubled_append, doubled_shownIf hanyText,
      doubled_shownIf hanyText, doubled_shownIf hdollar, doubled_intercalate,
      doubled_of_notMem hanyText, hsections]

theorem ofPattern_sqlQuoted (p : Pattern) :
    ofPattern .sqlQuoted p = quote :: (doubled (ofPattern .plain p) ++ [quote]) := by
  have hcaret : quote ∉ Bytes.ascii "^" := by decide
  simp only [ofPattern, doubled_append, doubled_shownIf hcaret, body_sqlQuoted]
  simp

/-- A quoted pattern stands between quotes and is read back as the plain one, to its very end: no
token or literal ends it early, and what stands behind it is left as it is. -/
theorem readLiteral?_ofPattern (mode : Mode) {format : Bytes} {tokens : Tokens}
    (hcompilable : Pattern.Compilable format tokens) :
    ∃ p, Pattern.compile format mode tokens = .ok p ∧
      (ofPattern .sqlQuoted p).head? = some quote ∧
      (ofPattern .sqlQuoted p).getLast? = some quote ∧
      readLiteral? (ofPattern .sqlQuoted p) = some (ofPattern .plain p, []) ∧
      ∀ after : Bytes, after.head? ≠ some quote →
        readLiteral? (ofPattern .sqlQuoted p ++ after) = some (ofPattern .plain p, after) := by
  obtain ⟨p, hcompile⟩ := hcompilable.exists_compiled mode
  have hquoted := ofPattern_sqlQuoted p
  refine ⟨p, hcompile, ?_, ?_, ?_, ?_⟩
  · rw [hquoted, List.head?_cons]
  · rw [hquoted, ← List.cons_append, List.getLast?_concat]
  · exact readLiteral?_eq_some_iff.mpr ⟨hquoted, by simp⟩
  · intro after hafter
    refine readLiteral?_eq_some_iff.mpr ⟨?_, hafter⟩
    rw [hquoted, List.cons_append, List.append_assoc, List.singleton_append]

/-- Quotes and backslashes side by side, the last quote right in front of the closing one. -/
theorem readLiteral?_ofPattern_of_quotes :
    ∃ p, Pattern.compile [39, 92, 39, 42, 39] .whole ⟨92, 42⟩ = .ok p ∧
      ofPattern .sqlQuoted p = Bytes.ascii "'^''.''.*''$'" ∧
      readLiteral? (Bytes.ascii "'^''.''.*''$'") = some (Bytes.ascii "^'.'.*'$", []) := by
  obtain ⟨p, hcompile, -, -, hread, -⟩ :=
    @readLiteral?_ofPattern .whole [39, 92, 39, 42, 39] ⟨92, 42⟩ (by decide)
  have hplain : ofPattern .plain p = Bytes.ascii "^'.'.*'$" := by
    cases hcompile
    decide
  have hquoted : ofPattern .sqlQuoted p = Bytes.ascii "'^''.''.*''$'" := by
    cases hcompile
    decide
  rw [hplain, hquoted] at hread
  exact ⟨p, hcompile, hquoted, hread⟩

end Regex
end Wildcard
