import Mathlib.Algebra.BigOperators.Group.List.Basic
import Mathlib.Algebra.GroupWithZero.Nat
import Mathlib.Data.List.Forall2
import Wildcard.Proofs.Placement
import Wildcard.Proofs.SettledSections

/-!
# How a compiled pattern lies in its format

The literals of the sections stand in the format one behind the other. Written one after the other,
the sections are the format without its anything tokens: cutting, trimming, merging and shifting
neither lose a byte nor count one twice.
-/

namespace Wildcard

namespace Run

variable {gap : UInt8}

theorem pairwise_extend {pos : Nat} {b : UInt8} {runs : List Run}
    (hstart : ∀ r ∈ runs, pos + 1 ≤ r.start) (h : runs.Pairwise fun r t => r.stop < t.start) :
    (extend pos b runs).Pairwise fun r t => r.stop < t.start := by
  cases runs with
  | nil => simp [extend]
  | cons first rest =>
    obtain ⟨hfirst, hrest⟩ := List.pairwise_cons.mp h
    have hpos := hstart first List.mem_cons_self
    rw [extend]
    split
    · rename_i hnext
      refine List.pairwise_cons.mpr ⟨fun r hr => ?_, hrest⟩
      have hbehind := hfirst r hr
      simp only [stop, length, List.length_cons] at hbehind ⊢
      omega
    · refine List.pairwise_cons.mpr ⟨fun r hr => ?_, h⟩
      simp only [stop, length, List.length_singleton]
      rcases List.mem_cons.mp hr with rfl | hr
      · omega
      · have hbehind := hfirst r hr
        simp only [stop] at hbehind
        omega

theorem pairwise_between (gap : UInt8) (pos : Nat) (text : Bytes) :
    (between gap pos text).Pairwise fun r t => r.stop < t.start := by
  induction text generalizing pos with
  | nil => exact .nil
  | cons b text ih =>
    by_cases hb : b = gap
    · subst hb
      rw [between_cons_gap]
      exact ih (pos + 1)
    · rw [between_cons_ne hb]
      exact pairwise_extend (fun r hr => (within_of_mem_between hr).start_ge) (ih (pos + 1))

theorem flatMap_bytes_extend (pos : Nat) (b : UInt8) (runs : List Run) :
    (extend pos b runs).flatMap bytes = b :: runs.flatMap bytes := by
  cases runs with
  | nil => rfl
  | cons r rest =>
    rw [extend]
    split <;> rfl

theorem flatMap_bytes_between (gap : UInt8) (pos : Nat) (text : Bytes) :
    (between gap pos text).flatMap bytes = text.filter (· != gap) := by
  induction text generalizing pos with
  | nil => rfl
  | cons b text ih =>
    by_cases hb : b = gap
    · subst hb
      rw [between_cons_gap, ih, List.filter_cons_of_neg (by simp)]
    · rw [between_cons_ne hb, flatMap_bytes_extend, ih, List.filter_cons_of_pos (by simpa using hb)]

end Run

namespace SearchRun

theorem choose_bytes_ne_nil {unknown b : UInt8} {literal : Bytes} (hmem : b ∈ literal)
    (hne : b ≠ unknown) : (choose unknown literal).bytes ≠ [] := by
  unfold choose
  split
  · rename_i hruns
    exact absurd (Run.between_eq_nil_iff.mp hruns b hmem) hne
  · rename_i r rest hruns
    have hchosen := mem_of_foldl_prefer (score r.bytes, r) rest
    exact Run.bytes_ne_nil_of_mem_between (hruns ▸ hchosen)

end SearchRun

namespace Section

variable {unknown : UInt8} {s t : Section}

theorem count_written (unknown : UInt8) (s : Section) :
    (s.written unknown).count unknown = s.leading + s.literal.count unknown + s.trailing := by
  simp [written, Nat.add_assoc]

theorem filter_written (unknown : UInt8) (s : Section) :
    (s.written unknown).filter (· != unknown) = s.literal.filter (· != unknown) := by
  simp [written]

theorem written_widen (s : Section) (n : Nat) :
    (s.widen n).written unknown = s.written unknown ++ List.replicate n unknown := by
  simp only [written, widen, List.append_assoc, List.replicate_append_replicate]

theorem written_of_isGap (h : s.isGap = true) :
    s.written unknown = List.replicate (s.leading + s.trailing) unknown := by
  have hliteral : s.literal = [] := List.isEmpty_iff.mp h
  rw [written, hliteral, List.append_nil, List.replicate_append_replicate]

theorem written_eq_leading_append (s : Section) :
    s.written unknown =
      List.replicate s.leading unknown ++ ({ s with leading := 0 } : Section).written unknown := by
  simp [written]

theorem written_trim (s : Section) : (s.trim unknown).written unknown = s.written unknown := by
  have hwhole := Bytes.dropTrailing_append_replicate unknown s.literal
  simp only [written, trim]
  generalize Bytes.dropTrailing (· == unknown) s.literal = kept at hwhole ⊢
  have hkept := Bytes.replicate_append_dropWhile unknown kept
  generalize kept.dropWhile (· == unknown) = literal at hkept ⊢
  calc List.replicate (s.leading + (kept.length - literal.length)) unknown ++ literal ++
        List.replicate (s.trailing + (s.literal.length - kept.length)) unknown
      = List.replicate s.leading unknown ++
          ((List.replicate (kept.length - literal.length) unknown ++ literal) ++
            List.replicate (s.literal.length - kept.length) unknown) ++
          List.replicate s.trailing unknown := by
        rw [Nat.add_comm s.trailing, ← List.replicate_append_replicate,
          ← List.replicate_append_replicate]
        simp only [List.append_assoc]
    _ = List.replicate s.leading unknown ++ s.literal ++ List.replicate s.trailing unknown := by
        rw [hkept, hwhole]

theorem length_flatMap_written (unknown : UInt8) (sections : List Section) :
    (sections.flatMap (written unknown)).length = totalWidth sections := by
  induction sections with
  | nil => rfl
  | cons s rest ih => rw [List.flatMap_cons, List.length_append, length_written, ih, totalWidth_cons]

theorem flatMap_written_absorbGaps (keepLast : Bool) (s : Section) (rest : List Section) :
    (absorbGaps keepLast s rest).flatMap (written unknown) =
      (s :: rest).flatMap (written unknown) := by
  induction rest generalizing s with
  | nil => rfl
  | cons t rest ih =>
    rw [absorbGaps]
    split
    · rename_i h
      rw [Bool.and_eq_true] at h
      rw [ih, List.flatMap_cons, List.flatMap_cons, List.flatMap_cons, written_widen,
        written_of_isGap h.1, List.append_assoc]
    · rw [List.flatMap_cons, ih]
      rfl

theorem flatMap_written_mergeGaps (keepLast : Bool) (sections : List Section) :
    (mergeGaps keepLast sections).flatMap (written unknown) =
      sections.flatMap (written unknown) := by
  cases sections with
  | nil => rfl
  | cons s rest => exact flatMap_written_absorbGaps keepLast s rest

theorem flatMap_written_moveLeading (s : Section) (rest : List Section) :
    (moveLeading s rest).flatMap (written unknown) = (s :: rest).flatMap (written unknown) := by
  induction rest generalizing s with
  | nil => rfl
  | cons t rest ih =>
    rw [moveLeading, List.flatMap_cons, ih, List.flatMap_cons, List.flatMap_cons, List.flatMap_cons,
      written_widen, written_eq_leading_append t, List.append_assoc, List.append_assoc]

theorem flatMap_written_shiftLeading (sections : List Section) :
    (shiftLeading sections).flatMap (written unknown) = sections.flatMap (written unknown) := by
  cases sections with
  | nil => rfl
  | cons s rest => exact flatMap_written_moveLeading s rest

/-- A section with its place, which merging and shifting leave as it is. -/
def place (s : Section) : Nat × Bytes := (s.start, s.literal)

theorem map_place_absorbGaps (keepLast : Bool) (s : Section) (rest : List Section) :
    ((absorbGaps keepLast s rest).map place).Sublist ((s :: rest).map place) := by
  induction rest generalizing s with
  | nil => exact .refl _
  | cons t rest ih =>
    rw [absorbGaps]
    split
    · exact (ih (s.widen (t.leading + t.trailing))).trans ((List.sublist_cons_self _ _).cons_cons _)
    · exact (ih t).cons_cons _

theorem map_place_mergeGaps (keepLast : Bool) (sections : List Section) :
    ((mergeGaps keepLast sections).map place).Sublist (sections.map place) := by
  cases sections with
  | nil => exact .refl _
  | cons s rest => exact map_place_absorbGaps keepLast s rest

theorem map_place_moveLeading (s : Section) (rest : List Section) :
    (moveLeading s rest).map place = (s :: rest).map place := by
  induction rest generalizing s with
  | nil => rfl
  | cons t rest ih =>
    rw [moveLeading, List.map_cons, ih]
    rfl

theorem map_place_shiftLeading (sections : List Section) :
    (shiftLeading sections).map place = sections.map place := by
  cases sections with
  | nil => rfl
  | cons s rest => exact map_place_moveLeading s rest

theorem Spread.last_of_isGap {keepLast : Bool} {sections : List Section}
    (h : Spread keepLast sections) {i : Nat} (hi : sections[i]? = some s) (hgap : s.isGap = true) :
    keepLast = true ∧ i + 1 = sections.length := by
  induction sections generalizing i with
  | nil => simp at hi
  | cons t rest ih =>
    obtain ⟨hfirst, hrest⟩ := h
    cases i with
    | zero =>
      obtain rfl : t = s := by simpa using hi
      obtain ⟨hkeep, rfl⟩ := hfirst hgap
      exact ⟨hkeep, rfl⟩
    | succ i =>
      obtain ⟨hkeep, hlast⟩ := ih hrest (by simpa using hi)
      exact ⟨hkeep, congrArg (· + 1) hlast⟩

theorem trim_ofRun (unknown : UInt8) (r : Run) :
    ((ofRun r).trim unknown).written unknown = r.bytes ∧
      ((ofRun r).trim unknown).start = r.start + ((ofRun r).trim unknown).leading := by
  constructor
  · rw [written_trim]
    simp [written, ofRun]
  · simp [trim, ofRun]

/-- The literal of the section is in the format where it says. -/
def LiesIn (format : Bytes) (s : Section) : Prop :=
  s.start + s.literal.length ≤ format.length ∧
    (format.drop s.start).take s.literal.length = s.literal

def Precedes (s t : Section) : Prop :=
  s.start < t.start ∧ s.start + s.literal.length ≤ t.start

theorem liesIn_trim_ofRun {gap : UInt8} {format : Bytes} {r : Run} (h : r.Within gap 0 format)
    (unknown : UInt8) : ((ofRun r).trim unknown).LiesIn format := by
  obtain ⟨before, after, hformat, hstart⟩ := h.stands
  obtain ⟨hwritten, hplace⟩ := trim_ofRun unknown r
  generalize (ofRun r).trim unknown = s at hwritten hplace ⊢
  have hfront : s.start = (before ++ List.replicate s.leading unknown).length := by
    rw [hplace, hstart, List.length_append, List.length_replicate, Nat.zero_add]
  have hsplit : format = (before ++ List.replicate s.leading unknown) ++
      (s.literal ++ (List.replicate s.trailing unknown ++ after)) := by
    rw [hformat, ← hwritten, written]
    simp only [List.append_assoc]
  constructor
  · rw [hsplit, hfront]
    simp only [List.length_append]
    omega
  · rw [hsplit, hfront, List.drop_left, List.take_left]

theorem precedes_trim_ofRun {r u : Run} (h : r.stop < u.start) (unknown : UInt8) :
    ((ofRun r).trim unknown).Precedes ((ofRun u).trim unknown) := by
  obtain ⟨hwritten, hplace⟩ := trim_ofRun unknown r
  obtain ⟨-, hplace'⟩ := trim_ofRun unknown u
  have hwidth := congrArg List.length hwritten
  simp only [length_written, width] at hwidth
  simp only [Run.stop, Run.length] at h
  simp only [Precedes]
  omega

end Section

namespace Tokens

open Section

variable {tokens : Tokens} {format : Bytes} {anchoredEnd : Bool}

theorem flatMap_written_trimmedSections (tokens : Tokens) (format : Bytes) :
    (tokens.trimmedSections format).flatMap (written tokens.unknown) =
      format.filter (· != tokens.anything) := by
  have hwritten : ∀ r : Run, ((ofRun r).trim tokens.unknown).written tokens.unknown = r.bytes :=
    fun r => (trim_ofRun tokens.unknown r).1
  rw [trimmedSections, cut, List.map_map, List.flatMap_map,
    ← Run.flatMap_bytes_between tokens.anything 0 format]
  exact congrArg (List.flatMap · _) (funext hwritten)

/-- The sections written one after the other are the format without its anything tokens. -/
theorem flatMap_written_sections (tokens : Tokens) (anchoredEnd : Bool) (format : Bytes) :
    (tokens.sections anchoredEnd format).flatMap (written tokens.unknown) =
      format.filter (· != tokens.anything) := by
  rw [sections, mergedSections, flatMap_written_shiftLeading, flatMap_written_mergeGaps,
    flatMap_written_trimmedSections]

theorem map_place_sections (tokens : Tokens) (anchoredEnd : Bool) (format : Bytes) :
    ((tokens.sections anchoredEnd format).map place).Sublist
      ((tokens.trimmedSections format).map place) := by
  rw [sections, mergedSections, map_place_shiftLeading]
  exact map_place_mergeGaps anchoredEnd (tokens.trimmedSections format)

theorem liesIn_of_mem_sections {s : Section} (h : s ∈ tokens.sections anchoredEnd format) :
    s.LiesIn format := by
  have hplace := (tokens.map_place_sections anchoredEnd format).subset (List.mem_map_of_mem h)
  obtain ⟨t, ht, hsame⟩ := List.mem_map.mp hplace
  obtain ⟨hstart, hliteral⟩ := Prod.mk.inj hsame
  obtain ⟨u, hu, rfl⟩ := List.mem_map.mp ht
  obtain ⟨r, hr, rfl⟩ := List.mem_map.mp hu
  have hlies := liesIn_trim_ofRun (Run.within_of_mem_between hr) tokens.unknown
  rwa [LiesIn, hstart, hliteral] at hlies

theorem pairwise_sections (tokens : Tokens) (anchoredEnd : Bool) (format : Bytes) :
    (tokens.sections anchoredEnd format).Pairwise Precedes := by
  have htrimmed : (tokens.trimmedSections format).Pairwise Precedes := by
    rw [trimmedSections, cut, List.map_map, List.pairwise_map]
    exact (Run.pairwise_between tokens.anything 0 format).imp fun h =>
      precedes_trim_ofRun h tokens.unknown
  have hplaces : ((tokens.trimmedSections format).map place).Pairwise fun a b =>
      a.1 < b.1 ∧ a.1 + a.2.length ≤ b.1 := List.pairwise_map.mpr htrimmed
  have hsections := hplaces.sublist (tokens.map_place_sections anchoredEnd format)
  rw [List.pairwise_map] at hsections
  exact hsections

end Tokens

namespace Target

/-- The run of a target is a part of its literal without unknown tokens, empty only for a gap, and
the needle is made of it. -/
structure Searched (unknown : UInt8) (t : Target) : Prop where
  inside : t.run.start + t.run.length ≤ t.literal.length
  free : unknown ∉ (t.literal.drop t.run.start).take t.run.length
  nonempty : t.isGap = false → 0 < t.run.length
  needle_eq : t.needle = .ofBytes ((t.literal.drop t.run.start).take t.run.length)

theorem searched_ofSection {tokens : Tokens} {s : Section} (h : s.Trimmed tokens) :
    (ofSection tokens.unknown s).Searched tokens.unknown := by
  have hready := ready_ofSection tokens.unknown s
  have hneedle : (ofSection tokens.unknown s).needle =
    .ofBytes (ofSection tokens.unknown s).run.bytes := rfl
  have hnonempty : (ofSection tokens.unknown s).isGap = false →
      (ofSection tokens.unknown s).run.bytes ≠ [] := by
    intro hgap
    have hliteral : s.literal ≠ [] := by simpa [Section.isGap] using hgap
    obtain ⟨b, rest, hb⟩ := List.exists_cons_of_ne_nil hliteral
    refine SearchRun.choose_bytes_ne_nil (b := b) (hb ▸ List.mem_cons_self) fun hunknown => ?_
    exact h.head_ne (by rw [hb, hunknown, List.head?_cons])
  generalize ofSection tokens.unknown s = t at hready hneedle hnonempty ⊢
  obtain ⟨hliteral, hstart⟩ := literal_eq hready
  have hpart : (t.literal.drop t.run.start).take t.run.length = t.run.bytes := by
    rw [hliteral, hstart, List.append_assoc, List.drop_left, List.take_left]
  refine ⟨?_, hpart ▸ hready.free, fun hgap => List.length_pos_iff.mpr (hnonempty hgap), ?_⟩
  · rw [hliteral, List.length_append, List.length_append, ← hstart]
    exact Nat.le_add_right _ _
  · rw [hpart, hneedle]

end Target

namespace Pattern

/-- How the sections of a pattern lie in its format, and what of the format they hold. -/
structure LaidOut (p : Pattern) : Prop where
  inside : ∀ s ∈ p.sections, s.LiesIn p.format
  ordered : p.sections.Pairwise Section.Precedes
  free : ∀ s ∈ p.sections, p.tokens.anything ∉ s.literal
  trimmed : ∀ s ∈ p.sections, s.literal.head? ≠ some p.tokens.unknown ∧
    s.literal.getLast? ≠ some p.tokens.unknown
  width_pos : ∀ s ∈ p.sections, 0 < s.width
  leading : ∀ s ∈ p.sections.tail, s.leading = 0
  /-- A gap comes first, or last in front of an anchored end. -/
  gaps : ∀ (i : Nat) (s : Section), p.sections[i]? = some s → s.isGap = true →
    i = 0 ∨ (p.anchors.atEnd = true ∧ i + 1 = p.sections.length)
  searched : List.Forall₂ (fun s t => t.toSection = s ∧ t.Searched p.tokens.unknown)
    p.sections p.targets
  minWidth_eq : p.minWidth = (p.format.filter (· != p.tokens.anything)).length
  /-- No unknown token is lost, whether it is counted or kept in a literal. -/
  unknowns_eq : (p.sections.map fun s =>
    s.leading + s.literal.count p.tokens.unknown + s.trailing).sum = p.format.count p.tokens.unknown
  /-- No other byte is lost. -/
  literals_eq : p.sections.flatMap (fun s => s.literal.filter (· != p.tokens.unknown)) =
    p.format.filter fun b => b != p.tokens.unknown && b != p.tokens.anything

variable {p : Pattern}

theorem Compiled.flatMap_written (hp : p.Compiled) :
    p.sections.flatMap (Section.written p.tokens.unknown) =
      p.format.filter (· != p.tokens.anything) := by
  rw [hp.sections_eq]
  exact Tokens.flatMap_written_sections p.tokens p.anchors.atEnd p.format

theorem Compiled.laidOut (hp : p.Compiled) : p.LaidOut where
  inside s hs := Tokens.liesIn_of_mem_sections (hp.sections_eq ▸ hs)
  ordered := by
    rw [hp.sections_eq]
    exact Tokens.pairwise_sections p.tokens p.anchors.atEnd p.format
  free s hs := (hp.settled.trimmed s hs).free
  trimmed s hs := ⟨(hp.settled.trimmed s hs).head_ne, (hp.settled.trimmed s hs).last_ne⟩
  width_pos s hs := (hp.settled.trimmed s hs).width_pos
  leading := hp.settled.leading
  gaps i s hi hgap := by
    cases i with
    | zero => exact .inl rfl
    | succ i =>
      have hlt := (List.getElem?_eq_some_iff.mp hi).1
      rw [← List.getElem?_tail] at hi
      obtain ⟨hend, hlast⟩ := hp.settled.spread.last_of_isGap hi hgap
      rw [List.length_tail] at hlast
      exact .inr ⟨hend, by omega⟩
  searched := by
    rw [sections, List.forall₂_map_left_iff, List.forall₂_same]
    intro t ht
    rw [hp.targets_eq] at ht
    obtain ⟨s, hs, rfl⟩ := List.mem_map.mp ht
    rw [← hp.sections_eq] at hs
    exact ⟨rfl, Target.searched_ofSection (hp.settled.trimmed s hs)⟩
  minWidth_eq := by
    rw [hp.minWidth_eq, ← hp.sections_eq, ← hp.flatMap_written, Section.length_flatMap_written]
  unknowns_eq := by
    have hcounts : (fun s => s.leading + s.literal.count p.tokens.unknown + s.trailing) =
        List.count p.tokens.unknown ∘ Section.written p.tokens.unknown :=
      funext fun s => (Section.count_written p.tokens.unknown s).symm
    rw [hcounts, ← List.count_flatMap, hp.flatMap_written]
    exact List.count_filter (by simpa using hp.distinct)
  literals_eq := by
    rw [← List.filter_filter, ← hp.flatMap_written, List.filter_flatMap]
    simp only [Section.filter_written]

/-- The literals of a compiled pattern stand in its format one behind the other, each with a needle
out of it, and with the unknowns they count they are all of the format but its anything tokens. -/
theorem compile_laidOut (mode : Mode) {format : Bytes} {tokens : Tokens}
    (hcompilable : Compilable format tokens) :
    ∃ p, compile format mode tokens = .ok p ∧ p.format = format ∧ p.mode = mode ∧
      p.tokens = tokens ∧ p.anchors = Anchors.of mode tokens.anything format ∧ p.LaidOut := by
  obtain ⟨p, hcompile⟩ := hcompilable.exists_compiled mode
  obtain ⟨hp, rfl, rfl, rfl⟩ := compile_eq_ok_iff.mp hcompile
  exact ⟨p, hcompile, rfl, rfl, rfl, hp.anchors_eq, hp.laidOut⟩

/-- The unknowns of `?ab?cd*??*x??` in front, inside and behind: eleven bytes, six of them unknown. -/
theorem compile_laidOut_of_gap_between :
    ∃ p, compile [63, 97, 98, 63, 99, 100, 42, 63, 63, 42, 120, 63, 63] .whole {} = .ok p ∧
      p.minWidth = 11 ∧
      (p.sections.map fun s => s.leading + s.literal.count 63 + s.trailing).sum = 6 ∧
      p.sections.flatMap (fun s => s.literal.filter (· != 63)) = [97, 98, 99, 100, 120] := by
  obtain ⟨p, hcompile, hformat, -, htokens, -, h⟩ := @compile_laidOut .whole
    [63, 97, 98, 63, 99, 100, 42, 63, 63, 42, 120, 63, 63] {} (by decide)
  have hwidth := h.minWidth_eq
  have hunknowns := h.unknowns_eq
  have hliterals := h.literals_eq
  rw [hformat, htokens] at hwidth hunknowns hliterals
  exact ⟨p, hcompile, hwidth, hunknowns, hliterals⟩

end Pattern
end Wildcard
