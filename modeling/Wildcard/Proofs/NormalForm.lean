import Wildcard.Proofs.Layout
import Wildcard.Proofs.Places

/-!
# The normal form of a format

The sections of a compiled pattern, written as a format with the outer anything tokens of the
original, compile to the same pattern again: only the literals stand at other places in the format.
Places do not count for what is found, for the matches, or for the regular expression.
-/

namespace Wildcard

namespace Tokens

open Section

variable {tokens : Tokens} {sections : List Section}

theorem intercalate_ends {parts : List Bytes} (hparts : parts ≠ [])
    (h : ∀ part ∈ parts, part ≠ [] ∧ tokens.anything ∉ part) :
    [tokens.anything].intercalate parts ≠ [] ∧
      ([tokens.anything].intercalate parts).head? ≠ some tokens.anything ∧
      ([tokens.anything].intercalate parts).getLast? ≠ some tokens.anything := by
  induction parts with
  | nil => exact absurd rfl hparts
  | cons part parts ih =>
    rw [List.forall_mem_cons] at h
    obtain ⟨⟨hne, hfree⟩, hrest⟩ := h
    have hhead : part.head? ≠ some tokens.anything := fun h => hfree (List.mem_of_head? h)
    cases parts with
    | nil =>
      rw [List.intercalate_singleton]
      exact ⟨hne, hhead, fun h => hfree (List.mem_of_getLast? h)⟩
    | cons next parts =>
      obtain ⟨hne', -, hlast⟩ := ih (List.cons_ne_nil next parts) hrest
      rw [List.intercalate_cons_cons, List.append_assoc]
      refine ⟨by simp [hne], ?_, ?_⟩
      · rwa [List.head?_append_of_ne_nil part hne]
      · rwa [← List.append_assoc, List.getLast?_append_of_ne_nil _ hne']

theorem length_intercalate (b : UInt8) {parts : List Bytes} (h : parts ≠ []) :
    ([b].intercalate parts).length + 1 = parts.flatten.length + parts.length := by
  induction parts with
  | nil => exact absurd rfl h
  | cons part parts ih =>
    cases parts with
    | nil => simp
    | cons next parts =>
      have hrest := ih (List.cons_ne_nil next parts)
      rw [List.length_cons] at hrest
      simp only [List.intercalate_cons_cons, List.flatten_cons (l := part), List.length_append,
        List.length_cons, List.length_nil]
      omega

theorem length_sections_le (tokens : Tokens) (anchoredEnd : Bool) (format : Bytes) :
    (tokens.sections anchoredEnd format).length ≤
      (Run.between tokens.anything 0 format).length := by
  have hlength := (tokens.map_place_sections anchoredEnd format).length_le
  simpa only [trimmedSections, cut, List.length_map] using hlength

theorem writtenFormat_ends (distinct : tokens.unknown ≠ tokens.anything)
    (h : ∀ s ∈ sections, s.Trimmed tokens) {before after : Nat}
    (hempty : sections = [] → before ≠ 0 ∧ after ≠ 0) :
    tokens.writtenFormat before after sections ≠ [] ∧
      ((tokens.writtenFormat before after sections).head? = some tokens.anything ↔ before ≠ 0) ∧
      ((tokens.writtenFormat before after sections).getLast? = some tokens.anything ↔
        after ≠ 0) := by
  have hparts := written_parts distinct h
  rw [writtenFormat]
  cases hsections : sections with
  | nil =>
    obtain ⟨hbefore, hafter⟩ := hempty hsections
    simp [hbefore, hafter, List.head?_replicate, List.getLast?_replicate]
  | cons s rest =>
    rw [hsections] at hparts
    obtain ⟨hne, hhead, hlast⟩ := intercalate_ends (by simp) hparts
    generalize [tokens.anything].intercalate ((s :: rest).map (written tokens.unknown)) = middle
      at hne hhead hlast
    refine ⟨by simp [hne], ?_, ?_⟩
    · cases before with
      | zero => simp [hne, hhead]
      | succ n => simp [List.replicate_succ]
    · cases after with
      | zero => simp [hne, hlast]
      | succ n => simp [List.replicate_succ']

end Tokens

theorem Anchors.of_eq_of_ends {anything : UInt8} {front back : Bytes} (mode : Mode)
    (hhead : (front.head? == some anything) = (back.head? == some anything))
    (hlast : (front.getLast? == some anything) = (back.getLast? == some anything)) :
    Anchors.of mode anything front = Anchors.of mode anything back := by
  cases mode with
  | whole => rw [of, of, bne, bne, bne, bne, hhead, hlast]
  | anywhere => rfl

namespace Section

theorem totalWidth_map_unplaced (sections : List Section) :
    totalWidth (sections.map unplaced) = totalWidth sections := by
  induction sections with
  | nil => rfl
  | cons s rest ih =>
    rw [List.map_cons, totalWidth_cons, totalWidth_cons, ih]
    rfl

end Section

namespace Pattern

open Section

variable {p q : Pattern}

/-- The sections of a pattern written as a format, with one anything token between two of them and
one at each end where the format of the pattern has any. -/
def normalFormat (p : Pattern) : Bytes :=
  p.tokens.writtenFormat (p.format.head? == some p.tokens.anything).toNat
    (p.format.getLast? == some p.tokens.anything).toNat p.sections

theorem Alike.normalFormat_eq (h : Alike p q) : p.normalFormat = q.normalFormat := by
  have hparts : p.sections.map (written p.tokens.unknown) =
      q.sections.map (written q.tokens.unknown) := by
    rw [h.tokens_eq]
    exact map_eq_of_map_unplaced_eq (fun _ => rfl) h.map_sections_eq
  rw [normalFormat, Tokens.writtenFormat, hparts, h.head_eq, h.last_eq, h.tokens_eq]
  rfl

namespace Compiled

theorem map_unplaced_targets (hp : p.Compiled) :
    p.targets.map Target.unplaced =
      (p.sections.map Section.unplaced).map (Target.ofSection p.tokens.unknown) := by
  rw [hp.sections_eq, hp.targets_eq, List.map_map, List.map_map]
  rfl

theorem ends_of_sections_eq_nil (hp : p.Compiled) (h : p.sections = []) :
    (p.format.head? == some p.tokens.anything) = true ∧
      (p.format.getLast? == some p.tokens.anything) = true := by
  rw [hp.sections_eq, Tokens.sections_eq_nil_iff, Tokens.core_eq_nil_iff] at h
  rw [List.head?_eq_some_head hp.nonempty, List.getLast?_eq_some_getLast hp.nonempty,
    h _ (List.head_mem hp.nonempty), h _ (List.getLast_mem hp.nonempty)]
  simp

theorem normalFormat_ends (hp : p.Compiled) :
    p.normalFormat ≠ [] ∧
      (p.normalFormat.head? == some p.tokens.anything) =
        (p.format.head? == some p.tokens.anything) ∧
      (p.normalFormat.getLast? == some p.tokens.anything) =
        (p.format.getLast? == some p.tokens.anything) := by
  have hempty : p.sections = [] → (p.format.head? == some p.tokens.anything).toNat ≠ 0 ∧
      (p.format.getLast? == some p.tokens.anything).toNat ≠ 0 := by
    intro h
    obtain ⟨hhead, hlast⟩ := hp.ends_of_sections_eq_nil h
    rw [hhead, hlast]
    decide
  obtain ⟨hne, hhead, hlast⟩ :=
    Tokens.writtenFormat_ends hp.distinct hp.settled.trimmed hempty
  refine ⟨hne, ?_, ?_⟩
  · rw [Bool.eq_iff_iff, beq_iff_eq, normalFormat, hhead]
    simp
  · rw [Bool.eq_iff_iff, beq_iff_eq, normalFormat, hlast]
    simp

/-- The normal form has no more anything tokens than the format, unless it is made of the two outer
ones only. -/
theorem length_normalFormat_le (hp : p.Compiled) :
    p.normalFormat.length ≤ max 2 p.format.length := by
  have hwritten := congrArg List.length hp.flatMap_written
  have hfree : (p.format.filter (· != p.tokens.anything)).length +
      p.format.count p.tokens.anything = p.format.length := by
    rw [← List.countP_eq_length_filter, Nat.add_comm, List.count,
      List.length_eq_countP_add_countP (· == p.tokens.anything)]
    exact congrArg _ (List.countP_congr fun b _ => by simp)
  simp only [normalFormat, Tokens.writtenFormat, List.length_append, List.length_replicate]
  by_cases hsections : p.sections = []
  · have hhead := Bool.toNat_le (p.format.head? == some p.tokens.anything)
    have hlast := Bool.toNat_le (p.format.getLast? == some p.tokens.anything)
    simp only [hsections, List.map_nil, List.intercalate_nil, List.length_nil]
    omega
  · have hparts : p.sections.map (written p.tokens.unknown) ≠ [] := by simpa using hsections
    have hruns := Tokens.length_sections_le p.tokens p.anchors.atEnd p.format
    rw [← hp.sections_eq] at hruns
    have hne : Run.between p.tokens.anything 0 p.format ≠ [] :=
      List.ne_nil_of_length_pos ((List.length_pos_iff.mpr hsections).trans_le hruns)
    have hends := Run.length_between_le hne
    have hjoined := Tokens.length_intercalate p.tokens.anything hparts
    rw [List.length_map, ← List.flatMap_def] at hjoined
    omega

theorem alike_of_normalFormat (hp : p.Compiled) (hq : q.Compiled)
    (hformat : q.format = p.normalFormat) (hmode : q.mode = p.mode) (htokens : q.tokens = p.tokens) :
    Alike q p := by
  obtain ⟨-, hhead, hlast⟩ := hp.normalFormat_ends
  have hanchors : q.anchors = p.anchors := by
    rw [hq.anchors_eq, hp.anchors_eq, hformat, hmode, htokens]
    exact Anchors.of_eq_of_ends p.mode hhead hlast
  have hsections : q.sections.map Section.unplaced = p.sections.map Section.unplaced := by
    rw [hq.sections_eq, hformat, hanchors, htokens]
    exact Tokens.map_unplaced_sections_writtenFormat hp.distinct hp.settled _ _
  refine ⟨hmode, htokens, hanchors, ?_, ?_, ?_, ?_⟩
  · rw [hq.minWidth_eq_totalWidth, hp.minWidth_eq_totalWidth, ← totalWidth_map_unplaced, hsections,
      totalWidth_map_unplaced]
  · rw [hq.map_unplaced_targets, hp.map_unplaced_targets, hsections, htokens]
  · rw [hformat, htokens, hhead]
  · rw [hformat, htokens, hlast]

end Compiled

/-- The normal form of a format compiles to the same pattern but for the places of the literals:
every range has the same match, the same matches are enumerated, it is written as the same regular
expression, and it is its own normal form. -/
theorem compile_normalFormat (mode : Mode) {format : Bytes} {tokens : Tokens}
    (hcompilable : Compilable format tokens) :
    ∃ p q, compile format mode tokens = .ok p ∧ compile p.normalFormat mode tokens = .ok q ∧
      q.anchors = p.anchors ∧ q.minWidth = p.minWidth ∧
      q.targets.map Target.unplaced = p.targets.map Target.unplaced ∧
      (∀ (subject : Subject) (range : Range), q.find subject range = p.find subject range ∧
        q.allMatches subject range = p.allMatches subject range) ∧
      (∀ dialect, Regex.ofPattern dialect q = Regex.ofPattern dialect p) ∧
      q.normalFormat = p.normalFormat := by
  obtain ⟨p, hcompile⟩ := hcompilable.exists_compiled mode
  obtain ⟨hp, rfl, rfl, rfl⟩ := compile_eq_ok_iff.mp hcompile
  have hlength := hp.length_normalFormat_le
  have hcountable := hcompilable.countable
  obtain ⟨q, hnormal⟩ := exists_compiled hp.normalFormat_ends.1 hp.distinct (by omega) p.mode
  obtain ⟨hq, hformat, hmode, htokens⟩ := compile_eq_ok_iff.mp hnormal
  have halike := hp.alike_of_normalFormat hq hformat hmode htokens
  exact ⟨p, q, hcompile, hnormal, halike.anchors_eq, halike.minWidth_eq, halike.targets_eq,
    fun subject range => ⟨halike.find_eq subject range, halike.allMatches_eq subject range⟩,
    halike.ofPattern_eq, halike.normalFormat_eq⟩

/-- Gaps at the start come together in one, and a gap before the anchored end stays. -/
theorem compile_normalFormat_of_gaps :
    ∃ p q, compile [63, 42, 63, 63, 42, 97, 63, 98, 42, 63, 63] .whole {} = .ok p ∧
      p.normalFormat = [63, 63, 63, 42, 97, 63, 98, 42, 63, 63] ∧
      compile [63, 63, 63, 42, 97, 63, 98, 42, 63, 63] .whole {} = .ok q ∧
      q.targets.map Target.unplaced = p.targets.map Target.unplaced ∧
      q.find #[1, 2, 3, 97, 4, 98, 5, 6] .all = p.find #[1, 2, 3, 97, 4, 98, 5, 6] .all ∧
      q.normalFormat = [63, 63, 63, 42, 97, 63, 98, 42, 63, 63] := by
  obtain ⟨p, q, hp, hq, -, -, htargets, hfind, -, hnormal⟩ :=
    @compile_normalFormat .whole [63, 42, 63, 63, 42, 97, 63, 98, 42, 63, 63] {}
      (by decide)
  have hformat : p.normalFormat = [63, 63, 63, 42, 97, 63, 98, 42, 63, 63] := by
    cases hp
    decide
  exact ⟨p, q, hp, hformat, hformat ▸ hq, htargets, (hfind _ .all).1, hnormal.trans hformat⟩

end Pattern
end Wildcard
