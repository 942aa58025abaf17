import Mathlib.Data.List.DropRight
import Mathlib.Data.List.Forall2
import Wildcard.Bytes.Lines
import Wildcard.Config.Line

/-!
# What a line of a document means

The rules by which a trimmed line is skipped, heads a section, assigns a value or is bad, and those
by which a text stands for a value, each said by how the text is made up. Every text has exactly one
meaning under them, and it is the one that is read.
-/

namespace Wildcard

namespace Bytes

variable {b : UInt8} {s before after : Bytes}

theorem takeWhile_bne_of_notMem (h : b ∉ s) : s.takeWhile (· != b) = s := by
  rw [List.takeWhile_eq_self_iff]
  intro c hc
  simpa using ne_of_mem_of_not_mem hc h

theorem takeWhile_bne_append (h : b ∉ before) :
    (before ++ b :: after).takeWhile (· != b) = before := by
  rw [List.takeWhile_append, takeWhile_bne_of_notMem h]
  simp

theorem splitFirst?_eq_none_iff : splitFirst? b s = none ↔ b ∉ s := by
  rw [splitFirst?]
  split
  · rename_i hdrop
    rw [List.dropWhile_eq_nil_iff] at hdrop
    refine ⟨fun _ hb => ?_, fun _ => rfl⟩
    simpa using hdrop b hb
  · rename_i hdrop
    refine iff_of_false (Option.some_ne_none _) (not_not_intro ?_)
    have hsplit := List.takeWhile_append_dropWhile (p := (· != b)) (l := s)
    by_contra hb
    rw [takeWhile_bne_of_notMem hb, hdrop] at hsplit
    simp at hsplit

theorem splitFirst?_eq_some_iff :
    splitFirst? b s = some (before, after) ↔ s = before ++ b :: after ∧ b ∉ before := by
  have hsplit := List.takeWhile_append_dropWhile (p := (· != b)) (l := s)
  rw [splitFirst?]
  constructor
  · intro h
    split at h
    · cases h
    · rename_i c rest hdrop
      have hfirst := List.head?_dropWhile_not (· != b) s
      rw [hdrop] at hsplit hfirst
      obtain rfl : c = b := by simpa using hfirst
      cases h
      refine ⟨hsplit.symm, fun hb => ?_⟩
      simpa using List.mem_takeWhile_imp hb
  · rintro ⟨hs, hb⟩
    have hbefore : s.takeWhile (· != b) = before := by rw [hs, takeWhile_bne_append hb]
    rw [hbefore] at hsplit
    have hdrop : s.dropWhile (· != b) = b :: after := List.append_cancel_left (hsplit.trans hs)
    rw [hdrop, hbefore]

theorem trim_trim (s : Bytes) : trim (trim s) = trim s := by
  have hdrop : dropTrailing isBlank = List.rdropWhile isBlank := rfl
  have hfront : (trim s).dropWhile isBlank = trim s := by
    rw [List.dropWhile_eq_self_iff]
    intro hlength hblank
    have hkept : trim s <+: s.dropWhile isBlank := List.rdropWhile_prefix _ _
    have hpos := Nat.lt_of_lt_of_le hlength hkept.length_le
    rw [hkept.getElem hlength] at hblank
    exact List.dropWhile_get_zero_not isBlank s hpos hblank
  rw [trim, hfront, trim, hdrop, List.rdropWhile_idempotent]

/-- A text cut at every newline gives its lines, or one empty piece more: what is behind a newline at
the end is no line. -/
theorem splitOn_newline (text : Bytes) :
    text.splitOn newline = lines text ∨ text.splitOn newline = lines text ++ [[]] := by
  induction text with
  | nil => exact .inr rfl
  | cons b text ih =>
    rw [List.splitOn_cons_eq_if_modifyHead, lines_cons]
    by_cases hb : b = newline
    · subst hb
      have hline : consLine newline (lines text) = [] :: lines text := by
        cases lines text <;> rfl
      rw [hline, if_pos (by simp)]
      exact ih.imp (congrArg ([] :: ·)) (congrArg ([] :: ·))
    · have hne : (b == newline) = false := by simpa using hb
      rw [if_neg (by simp [hb])]
      cases hlines : lines text with
      | nil =>
        rw [hlines] at ih
        rcases ih with ih | ih
        · exact absurd ih (List.splitOn_ne_nil newline text)
        · rw [ih]
          simp [consLine, hne]
      | cons line rest =>
        rw [hlines] at ih
        rcases ih with ih | ih
        · rw [ih]
          simp [consLine, hne]
        · rw [ih]
          simp [consLine, hne]

end Bytes

namespace Config
namespace Line

/-- The value that a text stands for: what is between an opening quote and the next quote of its
kind, else what is in front of the first comment. -/
inductive Denotes : Bytes → Bytes → Prop
  | quoted {q : UInt8} {inside rest : Bytes} : isQuote q = true → q ∉ inside →
      Denotes (q :: (inside ++ q :: rest)) inside
  | bare {text : Bytes} : (∀ q rest, text = q :: rest → isQuote q = true → q ∉ rest) →
      Denotes text (Bytes.trim (text.takeWhile (· != comment)))

def Skipped (text : Bytes) : Prop := text = [] ∨ text.head? = some comment

def Bracketed (text : Bytes) : Prop := text.head? = some opening ∧ text.getLast? = some closing

/-- What a trimmed line says. The equals sign of an assignment is the first one. -/
inductive Means (text : Bytes) : Line → Prop
  | blank : Skipped text → Means text .blank
  | heading {name : Bytes} : text = opening :: (name ++ [closing]) →
      Means text (.heading (Bytes.trim name))
  | assignment {key right value : Bytes} : ¬ Skipped text → ¬ Bracketed text →
      text = key ++ equals :: right → equals ∉ key → key ≠ [] →
      Denotes (Bytes.trim right) value → Means text (.assignment (Bytes.trim key) value)
  | bad : ¬ Skipped text → ¬ Bracketed text →
      equals ∉ text ∨ text.head? = some equals → Means text .bad

variable {text value : Bytes} {l : Line}

theorem uncomment_eq (htrimmed : Bytes.trim text = text) :
    uncomment text = Bytes.trim (text.takeWhile (· != comment)) := by
  cases hsplit : Bytes.splitFirst? comment text with
  | none =>
    rw [uncomment, hsplit, Bytes.takeWhile_bne_of_notMem (Bytes.splitFirst?_eq_none_iff.mp hsplit),
      htrimmed]
  | some parts =>
    obtain ⟨rfl, hkept⟩ := Bytes.splitFirst?_eq_some_iff.mp hsplit
    rw [uncomment, hsplit, Bytes.takeWhile_bne_append hkept]

theorem Denotes.valueOf_eq (h : Denotes text value) (htrimmed : Bytes.trim text = text) :
    valueOf text = value := by
  cases h with
  | @quoted q _ rest hq hinside =>
    have hsplit : Bytes.splitFirst? q (value ++ q :: rest) = some (value, rest) :=
      Bytes.splitFirst?_eq_some_iff.mpr ⟨rfl, hinside⟩
    rw [valueOf, if_pos hq, hsplit]
  | bare hopen =>
    cases text with
    | nil => rfl
    | cons q rest =>
      rw [← uncomment_eq htrimmed, valueOf]
      by_cases hq : isQuote q
      · rw [if_pos hq, Bytes.splitFirst?_eq_none_iff.mpr (hopen q rest rfl hq)]
      · rw [if_neg hq]

theorem exists_denotes (text : Bytes) : ∃ value, Denotes text value := by
  by_cases hclosed : ∃ q rest, text = q :: rest ∧ isQuote q = true ∧ q ∈ rest
  · obtain ⟨q, rest, rfl, hq, hmem⟩ := hclosed
    cases hsplit : Bytes.splitFirst? q rest with
    | none => exact absurd hmem (Bytes.splitFirst?_eq_none_iff.mp hsplit)
    | some parts =>
      obtain ⟨rfl, hinside⟩ := Bytes.splitFirst?_eq_some_iff.mp hsplit
      exact ⟨parts.1, .quoted hq hinside⟩
  · push Not at hclosed
    exact ⟨_, .bare hclosed⟩

theorem ofTrimmed_of_skipped (h : Skipped text) : ofTrimmed text = .blank := by
  rw [ofTrimmed, if_pos (by simpa [Skipped] using h)]

theorem not_skipped_heading (name : Bytes) : ¬ Skipped (opening :: (name ++ [closing])) := by
  simp [Skipped, opening, comment]

theorem ofTrimmed_heading (name : Bytes) :
    ofTrimmed (opening :: (name ++ [closing])) = .heading (Bytes.trim name) := by
  have hlast : (opening :: (name ++ [closing])).getLast? = some closing := by
    rw [← List.cons_append, List.getLast?_concat]
  rw [ofTrimmed, if_neg (by simpa [Skipped] using not_skipped_heading name),
    if_pos (by simp [hlast]), List.drop_succ_cons, List.drop_zero, List.dropLast_concat]

theorem Bracketed.exists_name (h : Bracketed text) : ∃ name, text = opening :: (name ++ [closing]) := by
  obtain ⟨hfront, hback⟩ := h
  obtain ⟨rest, rfl⟩ := List.head?_eq_some_iff.mp hfront
  obtain ⟨front, hrest⟩ := List.getLast?_eq_some_iff.mp hback
  cases front with
  | nil => simp [opening, closing] at hrest
  | cons b name =>
    rw [List.cons_append, List.cons.injEq] at hrest
    exact ⟨name, by rw [hrest.2]⟩

theorem Means.ofTrimmed_eq (h : Means text l) : ofTrimmed text = l := by
  cases h with
  | blank hskip => exact ofTrimmed_of_skipped hskip
  | heading htext => rw [htext, ofTrimmed_heading]
  | @assignment key right value hskip hbracket htext hkey hne hvalue =>
    obtain ⟨b, key, rfl⟩ := List.exists_cons_of_ne_nil hne
    rw [ofTrimmed, if_neg (by simpa [Skipped] using hskip),
      if_neg (by simpa [Bracketed] using hbracket),
      Bytes.splitFirst?_eq_some_iff.mpr ⟨htext, hkey⟩]
    simp only [hvalue.valueOf_eq (Bytes.trim_trim right)]
  | bad hskip hbracket hequals =>
    rw [ofTrimmed, if_neg (by simpa [Skipped] using hskip),
      if_neg (by simpa [Bracketed] using hbracket)]
    rcases hequals with hnone | hfront
    · rw [Bytes.splitFirst?_eq_none_iff.mpr hnone]
    · obtain ⟨rest, rfl⟩ := List.head?_eq_some_iff.mp hfront
      have hsplit : Bytes.splitFirst? equals (equals :: rest) = some ([], rest) :=
        Bytes.splitFirst?_eq_some_iff.mpr ⟨rfl, List.not_mem_nil⟩
      rw [hsplit]

theorem exists_means (text : Bytes) : ∃ l, Means text l := by
  by_cases hskip : Skipped text
  · exact ⟨_, .blank hskip⟩
  by_cases hbracket : Bracketed text
  · obtain ⟨name, htext⟩ := hbracket.exists_name
    exact ⟨_, .heading htext⟩
  cases hsplit : Bytes.splitFirst? equals text with
  | none => exact ⟨_, .bad hskip hbracket (.inl (Bytes.splitFirst?_eq_none_iff.mp hsplit))⟩
  | some parts =>
    obtain ⟨key, right⟩ := parts
    obtain ⟨htext, hkey⟩ := Bytes.splitFirst?_eq_some_iff.mp hsplit
    cases key with
    | nil => exact ⟨_, .bad hskip hbracket (.inr (by rw [htext]; rfl))⟩
    | cons b key =>
      obtain ⟨value, hvalue⟩ := exists_denotes (Bytes.trim right)
      exact ⟨_, .assignment hskip hbracket htext hkey (List.cons_ne_nil b key) hvalue⟩

theorem means_iff : Means text l ↔ ofTrimmed text = l := by
  constructor
  · exact Means.ofTrimmed_eq
  · rintro rfl
    obtain ⟨l, hl⟩ := exists_means text
    rwa [hl.ofTrimmed_eq]

theorem forall₂_means_iff {texts : List Bytes} {ls : List Line} :
    List.Forall₂ Means texts ls ↔ ls = texts.map ofTrimmed := by
  have hmeans : Means = fun text l => ofTrimmed text = l := by
    funext text l
    exact propext means_iff
  rw [hmeans, ← List.forall₂_map_left_iff, List.forall₂_eq_eq_eq, eq_comm]

end Line
end Config
end Wildcard
