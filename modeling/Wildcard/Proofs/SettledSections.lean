import Mathlib.Data.List.Basic
import Wildcard.Proofs.Compilation

/-!
# Sections in their final form

After all passes every section is trimmed, gaps stand only in front or before an anchored end, and only
the first section has leading unknowns. Nothing is left for the passes to do: the sections written
out as a format again, one anything token between two of them, are cut and trimmed to what they are,
and merging and shifting leave them so.
-/

namespace Wildcard

namespace Run

variable {gap : UInt8}

theorem bytes_ne_nil_of_mem_extend {pos : Nat} {b : UInt8} {runs : List Run} {r : Run}
    (hruns : ∀ r ∈ runs, r.bytes ≠ []) (h : r ∈ extend pos b runs) : r.bytes ≠ [] := by
  cases runs with
  | nil =>
    rw [extend, List.mem_singleton] at h
    simp [h]
  | cons first rest =>
    rw [extend] at h
    split at h
    · rcases List.mem_cons.mp h with rfl | h
      · exact List.cons_ne_nil _ _
      · exact hruns r (List.mem_cons_of_mem first h)
    · rcases List.mem_cons.mp h with rfl | h
      · exact List.cons_ne_nil _ _
      · exact hruns r h

theorem bytes_ne_nil_of_mem_between {pos : Nat} {text : Bytes} {r : Run}
    (h : r ∈ between gap pos text) : r.bytes ≠ [] := by
  induction text generalizing pos r with
  | nil => simp [between] at h
  | cons b text ih =>
    by_cases hb : b = gap
    · subst hb
      rw [between_cons_gap] at h
      exact ih h
    · rw [between_cons_ne hb] at h
      exact bytes_ne_nil_of_mem_extend (fun r hr => ih hr) h

theorem between_of_notMem {pos : Nat} {text : Bytes} (hne : text ≠ []) (h : gap ∉ text) :
    between gap pos text = [⟨pos, text⟩] := by
  induction text generalizing pos with
  | nil => exact absurd rfl hne
  | cons b text ih =>
    rw [List.mem_cons, not_or] at h
    rw [between_cons_ne (Ne.symm h.1)]
    cases text with
    | nil => rfl
    | cons c rest =>
      rw [ih (List.cons_ne_nil c rest) h.2, extend, if_pos rfl]

theorem between_append_gap {pos : Nat} {text : Bytes} (hne : text ≠ []) (h : gap ∉ text)
    (rest : Bytes) :
    between gap pos (text ++ gap :: rest) =
      ⟨pos, text⟩ :: between gap (pos + text.length + 1) rest := by
  induction text generalizing pos with
  | nil => exact absurd rfl hne
  | cons b text ih =>
    rw [List.mem_cons, not_or] at h
    rw [List.cons_append, between_cons_ne (Ne.symm h.1)]
    cases text with
    | nil =>
      rw [List.nil_append, between_cons_gap]
      cases hruns : between gap (pos + 1 + 1) rest with
      | nil => rw [extend]
      | cons first others =>
        have hstart : pos + 1 + 1 ≤ first.start :=
          (within_of_mem_between (hruns ▸ List.mem_cons_self)).start_ge
        rw [extend, if_neg (by omega)]
    | cons c text =>
      have hpos : pos + 1 + (c :: text).length + 1 = pos + (b :: c :: text).length + 1 := by
        simp only [List.length_cons]
        omega
      rw [ih (List.cons_ne_nil c text) h.2, extend, if_pos rfl, hpos]

/-- Texts put together with one byte between two of them are the runs between that byte. -/
theorem map_bytes_between_intercalate {texts : List Bytes}
    (h : ∀ text ∈ texts, text ≠ [] ∧ gap ∉ text) (pos : Nat) :
    (between gap pos ([gap].intercalate texts)).map Run.bytes = texts := by
  induction texts generalizing pos with
  | nil => rfl
  | cons text texts ih =>
    rw [List.forall_mem_cons] at h
    obtain ⟨⟨hne, hfree⟩, hrest⟩ := h
    cases texts with
    | nil => rw [List.intercalate_singleton, between_of_notMem hne hfree, List.map_singleton]
    | cons next texts =>
      rw [List.intercalate_cons_cons, List.append_assoc, List.singleton_append,
        between_append_gap hne hfree, List.map_cons, ih hrest]

end Run

namespace Bytes

variable {b : UInt8} {text : Bytes}

theorem eq_nil_of_dropWhile_eq_nil (h : text.dropWhile (· == b) = [])
    (hlast : text.getLast? ≠ some b) : text = [] := by
  by_contra hne
  rw [List.dropWhile_eq_nil_iff] at h
  have hb := h _ (List.getLast_mem hne)
  rw [List.getLast?_eq_some_getLast hne] at hlast
  exact hlast (congrArg some (by simpa using hb))

theorem dropWhile_replicate_append (n : Nat) (h : text.head? ≠ some b) :
    (List.replicate n b ++ text).dropWhile (· == b) = text := by
  have hreplicate : ∀ c ∈ List.replicate n b, (c == b) = true := fun c hc => by
    simpa using (List.mem_replicate.mp hc).2
  rw [List.dropWhile_append_of_pos hreplicate]
  cases text with
  | nil => rfl
  | cons c text => exact List.dropWhile_cons_of_neg (by simpa using h)

theorem dropTrailing_append_replicate_of_last (n : Nat) (h : text.getLast? ≠ some b) :
    dropTrailing (· == b) (text ++ List.replicate n b) = text := by
  rw [← List.head?_reverse] at h
  rw [dropTrailing, List.reverse_append, List.reverse_replicate, dropWhile_replicate_append n h,
    List.reverse_reverse]

end Bytes

namespace Section

def unplaced (s : Section) : Section := { s with start := 0 }

/-- The part of a format that a section stands for. -/
def written (unknown : UInt8) (s : Section) : Bytes :=
  List.replicate s.leading unknown ++ s.literal ++ List.replicate s.trailing unknown

@[simp] theorem length_written (unknown : UInt8) (s : Section) :
    (s.written unknown).length = s.width := by
  simp [written, width, Nat.add_assoc]

/-- A section as trimming leaves it: its unknowns at either end are counted, all of them behind if
there is nothing else. -/
structure Trimmed (tokens : Tokens) (s : Section) : Prop where
  free : tokens.anything ∉ s.literal
  head_ne : s.literal.head? ≠ some tokens.unknown
  last_ne : s.literal.getLast? ≠ some tokens.unknown
  leading_of_gap : s.isGap = true → s.leading = 0
  width_pos : 0 < s.width

variable {tokens : Tokens} {unknown : UInt8} {s t : Section} {sections rest : List Section}

theorem trimmed_trim (hfree : tokens.anything ∉ s.literal) (hwidth : 0 < s.width)
    (hleading : s.leading = 0) : (s.trim tokens.unknown).Trimmed tokens := by
  have hwhole := Bytes.dropTrailing_append_replicate tokens.unknown s.literal
  have hlast := Bytes.getLast?_dropTrailing_ne tokens.unknown s.literal
  have hpos : 0 < (s.trim tokens.unknown).width := by rwa [width_trim]
  simp only [trim] at hpos ⊢
  generalize Bytes.dropTrailing (· == tokens.unknown) s.literal = kept at hwhole hlast hpos ⊢
  have hhead := Bytes.head?_dropWhile_ne tokens.unknown kept
  have hkept := Bytes.replicate_append_dropWhile tokens.unknown kept
  have hgap : kept.dropWhile (· == tokens.unknown) = [] → kept = [] :=
    fun h => Bytes.eq_nil_of_dropWhile_eq_nil h hlast
  generalize kept.dropWhile (· == tokens.unknown) = literal at hhead hkept hgap hpos ⊢
  refine ⟨?_, hhead, ?_, ?_, hpos⟩
  · intro hmem
    apply hfree
    rw [← hwhole, ← hkept]
    exact List.mem_append_left _ (List.mem_append_right _ hmem)
  · intro hunknown
    apply hlast
    rw [← hkept, List.getLast?_append, hunknown, Option.some_or]
  · intro hempty
    have hnil : literal = [] := List.isEmpty_iff.mp hempty
    rw [hgap hnil, hnil, hleading]
    rfl

theorem trim_written (hs : s.Trimmed tokens) (start : Nat) :
    (trim tokens.unknown { start := start, literal := s.written tokens.unknown }).unplaced =
      s.unplaced := by
  have hfront : (List.replicate s.leading tokens.unknown ++ s.literal).getLast? ≠
      some tokens.unknown := by
    cases hgap : s.isGap with
    | true =>
      have hnil : s.literal = [] := List.isEmpty_iff.mp hgap
      rw [hs.leading_of_gap hgap, hnil]
      simp
    | false =>
      have hne : s.literal ≠ [] := by simpa [isGap] using hgap
      rw [List.getLast?_append_of_ne_nil _ hne]
      exact hs.last_ne
  rw [written, trim, unplaced, unplaced]
  simp only [Bytes.dropTrailing_append_replicate_of_last _ hfront,
    Bytes.dropWhile_replicate_append _ hs.head_ne, List.length_append, List.length_replicate,
    Nat.add_sub_cancel, Nat.add_sub_cancel_left, Nat.zero_add]

theorem Trimmed.widen (hs : s.Trimmed tokens) (n : Nat) : (s.widen n).Trimmed tokens :=
  ⟨hs.free, hs.head_ne, hs.last_ne, hs.leading_of_gap,
    Nat.lt_of_lt_of_le hs.width_pos (by rw [width_widen]; omega)⟩

theorem Trimmed.withoutLeading (hs : s.Trimmed tokens) :
    ({ s with leading := 0 } : Section).Trimmed tokens := by
  refine ⟨hs.free, hs.head_ne, hs.last_ne, fun _ => rfl, ?_⟩
  cases hgap : s.isGap with
  | true =>
    have hwidth := hs.width_pos
    rwa [width, hs.leading_of_gap hgap] at hwidth
  | false =>
    have hne : s.literal ≠ [] := by simpa [isGap] using hgap
    have hpos := List.length_pos_iff.mpr hne
    simp only [width]
    omega

/-- Sections behind the first, of which none but the very last may be a gap, and that only if it is
kept. -/
def Spread (keepLast : Bool) : List Section → Prop
  | [] => True
  | t :: rest => (t.isGap = true → keepLast = true ∧ rest = []) ∧ Spread keepLast rest

theorem absorbGaps_of_spread {keepLast : Bool} (h : Spread keepLast rest) (s : Section) :
    absorbGaps keepLast s rest = s :: rest := by
  induction rest generalizing s with
  | nil => rfl
  | cons t rest ih =>
    obtain ⟨hgap, hrest⟩ := h
    have hkept : ¬ (t.isGap && !(keepLast && rest.isEmpty)) = true := by
      rw [Bool.and_eq_true]
      rintro ⟨ht, hopen⟩
      obtain ⟨rfl, rfl⟩ := hgap ht
      simp at hopen
    rw [absorbGaps, if_neg hkept, ih hrest]

theorem moveLeading_of_leading (h : ∀ t ∈ rest, t.leading = 0) (s : Section) :
    moveLeading s rest = s :: rest := by
  induction rest generalizing s with
  | nil => rfl
  | cons t rest ih =>
    rw [List.forall_mem_cons] at h
    have hs : s.widen t.leading = s := by rw [h.1]; rfl
    have ht : ({ t with leading := 0 } : Section) = t := by rw [← h.1]
    rw [moveLeading, hs, ht, ih h.2]

theorem absorbGaps_spread (keepLast : Bool) (s : Section) (rest : List Section)
    (hs : s.Trimmed tokens) (hrest : ∀ t ∈ rest, t.Trimmed tokens) :
    ∃ first others, absorbGaps keepLast s rest = first :: others ∧ first.isGap = s.isGap ∧
      Spread keepLast others ∧ ∀ t ∈ first :: others, t.Trimmed tokens := by
  induction rest generalizing s with
  | nil => exact ⟨s, [], rfl, rfl, trivial, by simpa using hs⟩
  | cons t rest ih =>
    rw [List.forall_mem_cons] at hrest
    rw [absorbGaps]
    split
    · exact ih _ (hs.widen _) hrest.2
    · rename_i hkept
      obtain ⟨first, others, hothers, hgap, hspread, htrimmed⟩ := ih t hrest.1 hrest.2
      refine ⟨s, first :: others, by rw [hothers], rfl, ⟨?_, hspread⟩, ?_⟩
      · rw [hgap]
        intro ht
        rw [ht, Bool.true_and, Bool.not_eq_true', Bool.not_eq_false, Bool.and_eq_true] at hkept
        obtain ⟨hkeep, hempty⟩ := hkept
        rw [List.isEmpty_iff.mp hempty, absorbGaps] at hothers
        exact ⟨hkeep, (List.cons.inj hothers).2.symm⟩
      · rw [List.forall_mem_cons]
        exact ⟨hs, htrimmed⟩

theorem moveLeading_settled {keepLast : Bool} (s : Section) (rest : List Section)
    (hs : s.Trimmed tokens) (hrest : ∀ t ∈ rest, t.Trimmed tokens) (hspread : Spread keepLast rest) :
    ∃ first others, moveLeading s rest = first :: others ∧ first.isGap = s.isGap ∧
      first.leading = s.leading ∧ Spread keepLast others ∧ (∀ t ∈ others, t.leading = 0) ∧
      ∀ t ∈ first :: others, t.Trimmed tokens := by
  induction rest generalizing s with
  | nil => exact ⟨s, [], rfl, rfl, rfl, trivial, by simp, by simpa using hs⟩
  | cons t rest ih =>
    rw [List.forall_mem_cons] at hrest
    obtain ⟨first, others, hothers, hgap, hleading, hspread', hzero, htrimmed⟩ :=
      ih { t with leading := 0 } hrest.1.withoutLeading hrest.2 hspread.2
    refine ⟨s.widen t.leading, first :: others, by rw [moveLeading, hothers], rfl, rfl,
      ⟨?_, hspread'⟩, ?_, ?_⟩
    · rw [hgap]
      intro ht
      obtain ⟨hkeep, rfl⟩ := hspread.1 ht
      rw [moveLeading] at hothers
      exact ⟨hkeep, (List.cons.inj hothers).2.symm⟩
    · rw [List.forall_mem_cons]
      exact ⟨hleading, hzero⟩
    · rw [List.forall_mem_cons]
      exact ⟨hs.widen _, htrimmed⟩

theorem map_unplaced_absorbGaps (keepLast : Bool) (s : Section) (rest : List Section) :
    (absorbGaps keepLast s rest).map unplaced =
      absorbGaps keepLast s.unplaced (rest.map unplaced) := by
  induction rest generalizing s with
  | nil => rfl
  | cons t rest ih =>
    have hempty : (rest.map unplaced).isEmpty = rest.isEmpty := List.isEmpty_map
    have hgap : t.unplaced.isGap = t.isGap := rfl
    rw [List.map_cons, absorbGaps, absorbGaps, hempty, hgap]
    split
    · exact ih _
    · rw [List.map_cons, ih]

theorem map_unplaced_mergeGaps (keepLast : Bool) (sections : List Section) :
    (mergeGaps keepLast sections).map unplaced = mergeGaps keepLast (sections.map unplaced) := by
  cases sections with
  | nil => rfl
  | cons s rest => exact map_unplaced_absorbGaps keepLast s rest

theorem map_unplaced_moveLeading (s : Section) (rest : List Section) :
    (moveLeading s rest).map unplaced = moveLeading s.unplaced (rest.map unplaced) := by
  induction rest generalizing s with
  | nil => rfl
  | cons t rest ih =>
    rw [moveLeading, List.map_cons, List.map_cons, moveLeading, ih]
    rfl

theorem map_unplaced_shiftLeading (sections : List Section) :
    (shiftLeading sections).map unplaced = shiftLeading (sections.map unplaced) := by
  cases sections with
  | nil => rfl
  | cons s rest => exact map_unplaced_moveLeading s rest

theorem Trimmed.written_ne_nil (hs : s.Trimmed tokens) (unknown : UInt8) :
    s.written unknown ≠ [] := by
  rw [← List.length_pos_iff, length_written]
  exact hs.width_pos

theorem Trimmed.anything_notMem_written (hs : s.Trimmed tokens)
    (distinct : tokens.unknown ≠ tokens.anything) :
    tokens.anything ∉ s.written tokens.unknown := by
  simp [written, hs.free, List.mem_replicate, distinct.symm]

theorem written_parts (distinct : tokens.unknown ≠ tokens.anything)
    (h : ∀ s ∈ sections, s.Trimmed tokens) :
    ∀ part ∈ sections.map (written tokens.unknown), part ≠ [] ∧ tokens.anything ∉ part := by
  intro part hpart
  obtain ⟨s, hs, rfl⟩ := List.mem_map.mp hpart
  exact ⟨(h s hs).written_ne_nil tokens.unknown, (h s hs).anything_notMem_written distinct⟩

/-- Sections for which no pass has anything left to do. -/
structure Settled (tokens : Tokens) (keepLast : Bool) (sections : List Section) : Prop where
  trimmed : ∀ s ∈ sections, s.Trimmed tokens
  spread : Spread keepLast sections.tail
  leading : ∀ s ∈ sections.tail, s.leading = 0

theorem Settled.mergeGaps_eq {keepLast : Bool} (h : Settled tokens keepLast sections) :
    mergeGaps keepLast sections = sections := by
  cases sections with
  | nil => rfl
  | cons s rest => exact absorbGaps_of_spread h.spread s

theorem Settled.shiftLeading_eq {keepLast : Bool} (h : Settled tokens keepLast sections) :
    shiftLeading sections = sections := by
  cases sections with
  | nil => rfl
  | cons s rest => exact moveLeading_of_leading h.leading s

theorem settled_shiftLeading_mergeGaps (keepLast : Bool) (h : ∀ s ∈ sections, s.Trimmed tokens) :
    Settled tokens keepLast (shiftLeading (mergeGaps keepLast sections)) := by
  cases sections with
  | nil => exact ⟨by simp [mergeGaps, shiftLeading], trivial, by simp [mergeGaps, shiftLeading]⟩
  | cons s rest =>
    rw [List.forall_mem_cons] at h
    obtain ⟨first, others, hmerged, -, hspread, htrimmed⟩ :=
      absorbGaps_spread keepLast s rest h.1 h.2
    rw [List.forall_mem_cons] at htrimmed
    obtain ⟨first', others', hshifted, -, -, hspread', hzero, htrimmed'⟩ :=
      moveLeading_settled first others htrimmed.1 htrimmed.2 hspread
    rw [mergeGaps, hmerged, shiftLeading, hshifted]
    exact ⟨htrimmed', hspread', hzero⟩

end Section

namespace Tokens

open Section

variable {tokens : Tokens} {format : Bytes}

theorem trimmed_of_mem_trimmedSections {s : Section} (h : s ∈ tokens.trimmedSections format) :
    s.Trimmed tokens := by
  obtain ⟨t, ht, rfl⟩ := List.mem_map.mp h
  obtain ⟨r, hr, rfl⟩ := List.mem_map.mp ht
  have hlength := List.length_pos_iff.mpr (Run.bytes_ne_nil_of_mem_between hr)
  refine trimmed_trim (Run.within_of_mem_between hr).free ?_ rfl
  simp only [width, ofRun]
  omega

theorem settled_sections (tokens : Tokens) (anchoredEnd : Bool) (format : Bytes) :
    Settled tokens anchoredEnd (tokens.sections anchoredEnd format) :=
  settled_shiftLeading_mergeGaps anchoredEnd fun _ => trimmed_of_mem_trimmedSections

/-- Sections written as a format, with one anything token between two of them, and any number of
anything tokens around them. -/
def writtenFormat (tokens : Tokens) (before after : Nat) (sections : List Section) : Bytes :=
  List.replicate before tokens.anything ++
    ([tokens.anything].intercalate (sections.map (written tokens.unknown)) ++
      List.replicate after tokens.anything)

/-- Sections in their final form, written as a format, are its sections again. -/
theorem map_unplaced_sections_writtenFormat (distinct : tokens.unknown ≠ tokens.anything)
    {anchoredEnd : Bool} {sections : List Section} (h : Settled tokens anchoredEnd sections)
    (before after : Nat) :
    (tokens.sections anchoredEnd (tokens.writtenFormat before after sections)).map unplaced =
      sections.map unplaced := by
  have hruns := Run.map_bytes_between_intercalate (written_parts distinct h.trimmed) (0 + before)
  have htrim : ∀ r : Run, (trim tokens.unknown (ofRun r)).unplaced =
      (trim tokens.unknown { start := 0, literal := r.bytes }).unplaced := fun _ => rfl
  have htrimmed : (tokens.trimmedSections (tokens.writtenFormat before after sections)).map
      unplaced = sections.map unplaced := by
    rw [trimmedSections, cut, writtenFormat, Run.between_replicate_append,
      Run.between_append_replicate]
    calc _ = (((Run.between tokens.anything (0 + before) ([tokens.anything].intercalate
              (sections.map (written tokens.unknown)))).map Run.bytes).map fun bytes =>
            (trim tokens.unknown { start := 0, literal := bytes }).unplaced) := by
          simp only [List.map_map, Function.comp_def, htrim]
      _ = sections.map fun s =>
            (trim tokens.unknown { start := 0, literal := s.written tokens.unknown }).unplaced := by
          rw [hruns, List.map_map]
          rfl
      _ = sections.map unplaced :=
          List.map_congr_left fun s hs => trim_written (h.trimmed s hs) 0
  rw [Tokens.sections, mergedSections, map_unplaced_shiftLeading, map_unplaced_mergeGaps, htrimmed,
    ← map_unplaced_mergeGaps, h.mergeGaps_eq, ← map_unplaced_shiftLeading, h.shiftLeading_eq]

end Tokens

namespace Pattern

theorem Compiled.settled {p : Pattern} (hp : p.Compiled) :
    Section.Settled p.tokens p.anchors.atEnd p.sections := by
  rw [hp.sections_eq]
  exact p.tokens.settled_sections p.anchors.atEnd p.format

end Pattern
end Wildcard
