import Wildcard.Proofs.Compilation
import Wildcard.Proofs.Conduct
import Wildcard.Proofs.Placement

/-!
# Any run will do

Which part of its literal a section is searched by decides only how fast it is found. Searched by any
part without unknowns, it is located at the leftmost position in the window where all of it stands,
and so every range has the same match whatever runs are chosen.
-/

namespace Wildcard

theorem agreesAt_iff {unknown : UInt8} {subject : Subject} {pos : Nat} {bytes : Bytes} :
    agreesAt unknown subject pos bytes = true ↔
      ∀ i b, bytes[i]? = some b → b ≠ unknown → subject[pos + i]? = some b := by
  induction bytes generalizing pos with
  | nil => simp [agreesAt]
  | cons c rest ih =>
    rw [agreesAt, Bool.and_eq_true, ih, Bool.or_eq_true, beq_iff_eq, beq_iff_eq]
    constructor
    · rintro ⟨hc, hrest⟩ i b hb hne
      cases i with
      | zero =>
        obtain rfl : c = b := by simpa using hb
        exact hc.resolve_left hne
      | succ i =>
        have hnext : pos + (i + 1) = pos + 1 + i := by omega
        rw [hnext]
        exact hrest i b (by simpa using hb) hne
    · intro h
      refine ⟨?_, fun i b hb hne => ?_⟩
      · by_cases hc : c = unknown
        · exact .inl hc
        · exact .inr (h 0 c rfl hc)
      · have hnext : pos + 1 + i = pos + (i + 1) := by omega
        rw [hnext]
        exact h (i + 1) b (by simpa using hb) hne

namespace Section

def part (s : Section) (offset length : Nat) : Run := ⟨offset, (s.literal.drop offset).take length⟩

/-- A part of the literal that can be searched for: it is not empty and has no unknown token. -/
structure Searchable (unknown : UInt8) (s : Section) (offset length : Nat) : Prop where
  pos : 0 < length
  inside : offset + length ≤ s.literal.length
  free : ∀ i, offset ≤ i → i < offset + length → s.literal[i]? ≠ some unknown

/-- The section stands at a position, all of it in front of `limit`: behind its leading unknowns
every byte of its literal but the unknown tokens is in the subject. -/
def StandsAt (s : Section) (unknown : UInt8) (subject : Subject) (limit pos : Nat) : Prop :=
  pos + s.width ≤ limit ∧
    ∀ i b, s.literal[i]? = some b → b ≠ unknown → subject[pos + s.leading + i]? = some b

variable {unknown : UInt8} {s : Section} {offset length : Nat}

theorem Searchable.part_within (h : s.Searchable unknown offset length) :
    (s.part offset length).Within unknown 0 s.literal := by
  refine ⟨fun hmem => ?_, s.literal.take offset, s.literal.drop (offset + length), ?_, ?_⟩
  · obtain ⟨i, hi⟩ := List.mem_iff_getElem?.mp hmem
    rw [part, List.getElem?_take, List.getElem?_drop] at hi
    split at hi
    · rename_i hlt
      exact h.free (offset + i) (by omega) (by omega) hi
    · cases hi
  · rw [part, ← List.drop_drop, List.append_assoc, List.take_append_drop, List.take_append_drop]
  · have := h.inside
    simp only [part, List.length_take]
    omega

theorem Searchable.part_bytes_ne_nil (h : s.Searchable unknown offset length) :
    (s.part offset length).bytes ≠ [] := by
  have := h.pos
  have := h.inside
  rw [← List.length_pos_iff, part, List.length_take, List.length_drop]
  omega

end Section

namespace Target

variable {unknown : UInt8} {subject : Subject} {t : Target}

theorem ready_withRun {s : Section} {offset length : Nat}
    (h : s.Searchable unknown offset length) :
    (withRun s (s.part offset length)).Ready unknown := h.part_within

theorem fits_eq_standsAt (t : Target) (unknown : UInt8) (subject : Subject) (limit : Nat) :
    t.Fits unknown subject limit = t.StandsAt unknown subject limit := by
  funext pos
  rw [Fits, fitsAt, agreesAt_iff, Section.StandsAt]

/-- A target that has no room in the window is not searched for, and the search would not find it. -/
theorem locate_eq_search (hrun : t.run.bytes ≠ []) (cursor limit : Nat) :
    t.locate unknown subject cursor limit =
      t.search unknown subject t.before t.after (t.searchStop limit).toNat
        (t.searchStart cursor) := by
  rw [locate]
  split
  · rename_i hroom
    have hlength := List.length_pos_iff.mpr hrun
    have hnone : t.needle.findIn subject (t.searchStop limit).toNat (t.searchStart cursor) =
        none := by
      cases hfind : t.needle.findIn subject (t.searchStop limit).toNat (t.searchStart cursor) with
      | none => rfl
      | some p =>
        have hbounds := Needle.findIn_bounds hfind
        rw [t.needle_bytes] at hbounds
        simp only [Run.length] at hroom
        omega
    rw [search]
    split
    · rfl
    · rename_i p hp
      rw [hnone] at hp
      cases hp
  · rfl

theorem locate_trials (hrun : t.run.bytes ≠ []) (unknown : UInt8) (subject : Subject)
    (cursor limit : Nat) :
    ∃ tried found,
      Trials (t.needle.findIn subject (t.searchStop limit).toNat) (t.surroundedAt unknown subject)
        (· + 1) (t.searchStart cursor) tried found ∧
      tried.Pairwise (· < ·) ∧
      t.locate unknown subject cursor limit =
        found.map fun p => p - t.run.start - t.leading := by
  obtain ⟨tried, found, htrials, hfound⟩ :=
    t.search_trials unknown subject (t.searchStop limit).toNat (t.searchStart cursor)
  have hincreasing := htrials.increasing (fun pos p hp => (Needle.findIn_bounds hp).1)
    Nat.lt_succ_self
  exact ⟨tried, found, htrials, hincreasing.1, (locate_eq_search hrun cursor limit).trans hfound⟩

theorem locate_standsAt (h : t.Ready unknown) (subject : Subject) (cursor limit : Nat) :
    Leftmost (t.StandsAt unknown subject limit) cursor (t.locate unknown subject cursor limit) := by
  rw [← fits_eq_standsAt]
  exact locate_leftmost h cursor limit

theorem conduct_ofSection (h : t.isGap = false → t.Ready unknown) :
    (ofSection unknown t.toSection).conduct unknown = t.conduct unknown := by
  have hplace : (ofSection unknown t.toSection).place unknown = t.place unknown := by
    funext subject cursor limit
    cases hgap : t.isGap with
    | true =>
      have hgap' : (ofSection unknown t.toSection).isGap = true := hgap
      rw [place, place, if_pos hgap', if_pos hgap]
      rfl
    | false =>
      have hready := place_leftmost (ready_ofSection unknown t.toSection) subject cursor limit
      exact hready.unique (place_leftmost (h hgap) subject cursor limit)
  rw [conduct, hplace]
  rfl

end Target

namespace Pattern

/-- The pattern `q` has the sections of `p` and all else, but searches them by other runs. -/
structure SearchesAs (q p : Pattern) : Prop where
  format_eq : q.format = p.format
  mode_eq : q.mode = p.mode
  tokens_eq : q.tokens = p.tokens
  anchors_eq : q.anchors = p.anchors
  minWidth_eq : q.minWidth = p.minWidth
  sections_eq : q.sections = p.sections
  searchable : ∀ t ∈ q.targets, t.isGap = false →
    ∃ offset length, t.Searchable p.tokens.unknown offset length ∧ t.run = t.part offset length

variable {p q : Pattern}

theorem SearchesAs.conduct_eq (h : q.SearchesAs p) (hp : p.Compiled) :
    q.targets.map (Target.conduct q.tokens.unknown) =
      p.targets.map (Target.conduct q.tokens.unknown) := by
  have hchosen : ∀ sections : List Section,
      sections.map (fun s => (Target.ofSection p.tokens.unknown s).conduct p.tokens.unknown) =
        (sections.map (Target.ofSection p.tokens.unknown)).map
          (Target.conduct p.tokens.unknown) := by simp
  rw [h.tokens_eq]
  calc q.targets.map (Target.conduct p.tokens.unknown)
      = q.targets.map fun t =>
          (Target.ofSection p.tokens.unknown t.toSection).conduct p.tokens.unknown := by
        refine List.map_congr_left fun t ht => (Target.conduct_ofSection fun hgap => ?_).symm
        obtain ⟨offset, length, hsearchable, hrun⟩ := h.searchable t ht hgap
        rw [Target.Ready, hrun]
        exact hsearchable.part_within
    _ = q.sections.map fun s =>
          (Target.ofSection p.tokens.unknown s).conduct p.tokens.unknown := by
        rw [sections, List.map_map]
        rfl
    _ = p.targets.map (Target.conduct p.tokens.unknown) := by
        rw [h.sections_eq, hp.sections_eq, hchosen, ← hp.targets_eq]

theorem SearchesAs.find_eq (h : q.SearchesAs p) (hp : p.Compiled) : q.find = p.find := by
  have hfindIn := findIn_eq_of_conduct h.mode_eq h.tokens_eq h.anchors_eq h.minWidth_eq
    (h.conduct_eq hp)
  funext subject range
  rw [find, find, hfindIn]

/-- Searched by any part of its literal without unknowns, a section is located at the leftmost
position where it stands, after finitely many trials; so the choice of runs has no influence on what
is found. -/
theorem find_of_any_runs (mode : Mode) {format : Bytes} {tokens : Tokens}
    (hcompilable : Compilable format tokens) :
    ∃ p, compile format mode tokens = .ok p ∧
      (∀ s ∈ p.sections, ∀ offset length, s.Searchable tokens.unknown offset length →
        ∀ (subject : Subject) (cursor limit : Nat),
          let t := Target.withRun s (s.part offset length)
          Leftmost (s.StandsAt tokens.unknown subject limit) cursor
            (t.locate tokens.unknown subject cursor limit) ∧
          ∃ tried found,
            Trials (t.needle.findIn subject (t.searchStop limit).toNat)
              (t.surroundedAt tokens.unknown subject) (· + 1) (t.searchStart cursor) tried found ∧
            tried.Pairwise (· < ·) ∧
            t.locate tokens.unknown subject cursor limit =
              found.map fun first => first - offset - s.leading) ∧
      ∀ q : Pattern, q.SearchesAs p → ∀ (subject : Subject) (range : Range),
        q.find subject range = p.find subject range := by
  obtain ⟨p, hcompile⟩ := hcompilable.exists_compiled mode
  obtain ⟨hp, -, -, -⟩ := compile_eq_ok_iff.mp hcompile
  refine ⟨p, hcompile, ?_, ?_⟩
  · intro s _ offset length h subject cursor limit
    exact ⟨Target.locate_standsAt (Target.ready_withRun h) subject cursor limit,
      Target.locate_trials h.part_bytes_ne_nil tokens.unknown subject cursor limit⟩
  · intro q hq subject range
    rw [hq.find_eq hp]

/-- The last byte of `a?b?a` stands in the subject three times, and its second place is the right
one. -/
theorem find_of_last_byte :
    ∃ p, compile [97, 63, 98, 63, 97] .anywhere {} = .ok p ∧
      (∃ first, (Target.withRun ⟨0, [97, 63, 98, 63, 97], 0, 0⟩ ⟨4, [97]⟩).locate 63
          #[97, 97, 120, 98, 120, 97] 0 6 = some first ∧ first ≤ 1) ∧
      Pattern.find
          { p with targets := [Target.withRun ⟨0, [97, 63, 98, 63, 97], 0, 0⟩ ⟨4, [97]⟩] }
          #[97, 97, 120, 98, 120, 97] .all =
        p.find #[97, 97, 120, 98, 120, 97] .all := by
  obtain ⟨p, hcompile, hlocate, hfind⟩ :=
    @find_of_any_runs .anywhere [97, 63, 98, 63, 97] {} (by decide)
  have hsections : p.sections = [⟨0, [97, 63, 98, 63, 97], 0, 0⟩] := by
    cases hcompile
    decide
  have hsearchable : Section.Searchable 63 ⟨0, [97, 63, 98, 63, 97], 0, 0⟩ 4 1 := by
    refine ⟨by decide, by decide, fun i hge hlt => ?_⟩
    obtain rfl : i = 4 := by omega
    decide
  have hstands : Section.StandsAt ⟨0, [97, 63, 98, 63, 97], 0, 0⟩ 63
      #[97, 97, 120, 98, 120, 97] 6 1 := ⟨by decide, agreesAt_iff.mp (by decide)⟩
  have htokens : p.tokens = {} := by
    cases hcompile
    rfl
  have hother : SearchesAs
      { p with targets := [Target.withRun ⟨0, [97, 63, 98, 63, 97], 0, 0⟩ ⟨4, [97]⟩] } p := by
    refine ⟨rfl, rfl, rfl, rfl, rfl, hsections.symm, fun t ht _ => ?_⟩
    obtain rfl := List.mem_singleton.mp ht
    rw [htokens]
    exact ⟨4, 1, hsearchable, rfl⟩
  have hmem : ⟨0, [97, 63, 98, 63, 97], 0, 0⟩ ∈ p.sections := by
    rw [hsections]
    exact List.mem_singleton_self _
  obtain ⟨hfirst, -⟩ := hlocate _ hmem 4 1 hsearchable #[97, 97, 120, 98, 120, 97] 0 6
  exact ⟨p, hcompile, hfirst.exists_le (Nat.zero_le 1) hstands, hfind _ hother _ _⟩

end Pattern
end Wildcard
