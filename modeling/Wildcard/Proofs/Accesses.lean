import Wildcard.Proofs.Finding
import Wildcard.Proofs.Layout
import Wildcard.Proofs.Tracing

/-!
# Where finding reads

Nothing that finding reads or cuts is checked at the place. What keeps it inside is that a target is
only looked at where all of it has room: the least width leaves room for the anchored targets, a
target is placed only between a cursor and a limit that it fits between, and the bounds of the window
for its run are what is left when the rest of the target is taken off.
-/

namespace Wildcard

/-- What finding does stays between two positions of the subject, and inside the format. Only the
place where a run is first looked for may lie beyond, by no more than the positions are apart. -/
def Event.Inside (format : Bytes) (start stop : Int) : Event → Prop
  | .subject index => start ≤ index ∧ index < stop
  | .format index => 0 ≤ index ∧ index < format.length
  | .window cut => 0 ≤ cut ∧ cut ≤ stop
  | .bounds cursor limit => (start ≤ cursor ∧ cursor ≤ stop) ∧ start ≤ limit ∧ limit ≤ stop
  | .placing cursor limit => cursor ≤ limit
  | .searchStart position => start ≤ position ∧ position ≤ stop + (stop - start)
  | .number n => -stop ≤ n ∧ (n ≤ stop ∨ n ≤ format.length)

/-- What finding does stays inside, targets are placed inside, and a run is first looked for less
than `reach` behind the end. -/
def Event.Confined (format : Bytes) (start stop reach : Int) (e : Event) : Prop :=
  e.Inside format start stop ∧
    match e with
    | .placing cursor limit => start ≤ cursor ∧ limit ≤ stop
    | .searchStart position => position < stop + reach
    | _ => True

open Traced

variable {unknown : UInt8} {format : Bytes} {subject : Subject} {start stop reach : Nat}

theorem tracedAgrees_yields {count pos place : Nat} (hplace : place + count ≤ format.length)
    (hpos : start ≤ pos) (hstop : pos + count ≤ stop) :
    (tracedAgrees unknown format subject count pos place).Yields
      (Event.Confined format start stop reach)
      (agreesAt unknown subject pos ((format.drop place).take count)) := by
  induction count generalizing pos place with
  | zero =>
    rw [List.take_zero]
    exact yields_pure true
  | succ count ih =>
    have hlt : place < format.length := by omega
    have hrest : (tracedAgrees unknown format subject count (pos + 1) (place + 1)).Yields
        (Event.Confined format start stop reach)
        (agreesAt unknown subject (pos + 1) ((format.drop (place + 1)).take count)) :=
      @ih (pos + 1) (place + 1) (by omega) (by omega) (by omega)
    rw [List.drop_eq_getElem_cons hlt, List.take_succ_cons, agreesAt]
    refine (Bytes.read_yields ?_).bind ?_
    · exact ⟨⟨Int.natCast_nonneg place, Int.ofNat_lt.mpr hlt⟩, trivial⟩
    · rw [List.getElem?_eq_getElem hlt]
      split
      · rename_i hunknown
        rw [beq_iff_eq.mpr (Option.some.inj hunknown), Bool.true_or, Bool.true_and]
        exact hrest
      · rename_i hknown
        rw [beq_eq_false_iff_ne.mpr fun h => hknown (congrArg some h), Bool.false_or]
        refine (Subject.read_yields ?_).bind ?_
        · exact ⟨⟨by omega, by omega⟩, trivial⟩
        · exact yields_guard beq_iff_eq hrest

namespace Section

theorem width_le_totalWidth {s : Section} {sections : List Section} (h : s ∈ sections) :
    s.width ≤ totalWidth sections := by
  induction sections with
  | nil => cases h
  | cons t rest ih =>
    rw [totalWidth_cons]
    rcases List.mem_cons.mp h with rfl | h
    · exact Nat.le_add_right _ _
    · exact Nat.le_trans (ih h) (Nat.le_add_left _ _)

end Section

namespace Target

/-- What placing a target in a range relies on. -/
structure Suits (unknown : UInt8) (format : Bytes) (start stop reach : Nat) (t : Target) :
    Prop where
  ready : t.Ready unknown
  lies : t.LiesIn format
  run_pos : t.isGap = false → 0 < t.run.length
  width_le : start + t.width ≤ stop
  narrow : t.width ≤ reach

variable {t : Target}

theorem suffixLength_eq (h : t.Ready unknown) : t.suffixLength = t.after.length := by
  have hwidth := width_eq h
  simp only [Section.width, suffixLength] at hwidth ⊢
  omega

theorem surroundings_eq (hlies : t.LiesIn format) (hready : t.Ready unknown) :
    (format.drop t.start).take t.run.start = t.before ∧
      (format.drop (t.start + t.run.stop)).take (t.literal.length - t.run.stop) = t.after := by
  have hinside : t.run.start ≤ t.literal.length := by
    have hwidth := width_eq hready
    simp only [Section.width] at hwidth
    omega
  constructor
  · rw [before, ← hlies.2, List.take_take, Nat.min_eq_left hinside]
  · rw [after]
    conv_rhs => rw [← hlies.2]
    rw [List.drop_take, List.drop_drop]

theorem tracedFitsAt_yields {pos : Nat} (h : t.LiesIn format) (hpos : start ≤ pos)
    (hstop : pos + t.width ≤ stop) :
    (t.tracedFitsAt unknown format subject pos).Yields (Event.Confined format start stop reach)
      (t.fitsAt unknown subject pos) := by
  simp only [Section.width] at hstop
  refine (yields_note ?_).bind ?_
  · simp only [List.Forall, Event.Confined, Event.Inside, and_true]
    omega
  · rw [fitsAt]
    conv in agreesAt _ _ _ _ => rw [← h.2]
    exact tracedAgrees_yields h.1 (Nat.le_trans hpos (Nat.le_add_right pos t.leading)) (by omega)

theorem tracedSurroundedAt_yields {pos : Nat} (h : t.Suits unknown format start stop reach)
    (hpos : start + t.run.start ≤ pos) (hstop : pos + t.run.length + t.after.length ≤ stop) :
    (t.tracedSurroundedAt unknown format subject pos).Yields
      (Event.Confined format start stop reach)
      (t.surroundedAt unknown subject pos) := by
  obtain ⟨hbefore, hafter⟩ := surroundings_eq h.lies h.ready
  have hlies := h.lies.1
  have hsuffix := suffixLength_eq h.ready
  simp only [suffixLength] at hsuffix
  have hback : t.run.stop = t.run.start + t.run.length := rfl
  have hfront : ((pos - t.run.start : Nat) : Int) = pos - t.run.start := by omega
  refine (yields_note ?_).bind ?_
  · simp only [List.Forall, Event.Confined, Event.Inside, and_true]
    omega
  · rw [← hfront]
    refine (tracedAgrees_yields (by omega) (by omega) (by omega)).bind ?_
    rw [hbefore, surroundedAt, ← hafter]
    exact yields_guard Iff.rfl (tracedAgrees_yields (by omega) (by omega) (by omega))

/-- The search goes from occurrence to occurrence; what is read for one lies around it, and it ends
early enough for the rest of the literal. -/
theorem tracedSearch_yields {cut pos : Nat} (h : t.Suits unknown format start stop reach)
    (hrun : 0 < t.run.length) (hpos : start + t.leading + t.run.start ≤ pos)
    (hcut : cut + t.after.length ≤ stop) :
    (t.tracedSearch unknown format subject cut pos).Yields (Event.Confined format start stop reach)
      ((t.search unknown subject t.before t.after cut pos).map Nat.cast) := by
  have hneedle : ∀ pos found, start ≤ pos → t.needle.findIn subject cut pos = found →
      (t.needle.tracedFindIn subject cut pos).Yields
        (Event.Confined format start stop reach) found := by
    rintro pos found hpos rfl
    refine Needle.tracedFindIn_yields (fun i hi hlt => ?_) (fun n hn => ?_) t.needle hpos
    · simp only [Event.Confined, Event.Inside, and_true]
      omega
    · simp only [Event.Confined, Event.Inside, and_true]
      omega
  have hbounds : ∀ {pos p}, t.needle.findIn subject cut pos = some p →
      pos ≤ p ∧ p + t.run.length ≤ cut := by
    intro pos p hp
    have hfound := Needle.findIn_bounds hp
    rwa [t.needle_bytes] at hfound
  have hsurrounded : ∀ p, start + t.run.start ≤ p → p + t.run.length ≤ cut →
      (t.tracedSurroundedAt unknown format subject p).Yields
        (Event.Confined format start stop reach)
        (t.surroundedAt unknown subject p) := fun p hp hroom =>
    tracedSurroundedAt_yields h hp (by omega)
  fun_induction search t unknown subject t.before t.after cut pos with
  | case1 pos hnone =>
    rw [tracedSearch]
    exact (hneedle pos none (by omega) hnone).andThen (yields_pure none)
  | case2 pos p hp hagrees =>
    obtain ⟨hge, hroom⟩ := hbounds hp
    have hplace : (p : Int) - t.run.start - t.leading = (p - t.run.start - t.leading : Nat) := by
      omega
    rw [tracedSearch]
    refine (hneedle pos (some p) (by omega) hp).andThen ((hsurrounded p (by omega) hroom).bind ?_)
    rw [surroundedAt, if_pos hagrees, hplace]
    refine (yields_note ?_).bind (yields_pure _)
    simp only [List.Forall, Event.Confined, Event.Inside, and_true]
    omega
  | case3 pos p hp hdiffers ih =>
    obtain ⟨hge, hroom⟩ := hbounds hp
    rw [tracedSearch]
    refine (hneedle pos (some p) (by omega) hp).andThen ((hsurrounded p (by omega) hroom).bind ?_)
    rw [surroundedAt, if_neg hdiffers]
    refine (yields_note ?_).bind (ih (by omega))
    simp only [List.Forall, Event.Confined, Event.Inside, and_true]
    omega

theorem tracedLocate_yields {cursor limit : Nat} (h : t.Suits unknown format start stop reach)
    (hrun : 0 < t.run.length) (hcursor : start ≤ cursor) (hle : cursor ≤ limit)
    (hlimit : limit ≤ stop) :
    (t.tracedLocate unknown format subject cursor limit).Yields
      (Event.Confined format start stop reach)
      ((t.locate unknown subject cursor limit).map Nat.cast) := by
  have hwidth := width_eq h.ready
  have hroom := h.width_le
  have hreach := h.narrow
  have hsuffix := suffixLength_eq h.ready
  have hstart : (cursor : Int) + t.leading + t.run.start = t.searchStart cursor := rfl
  have hstop : (limit : Int) - t.trailing - t.suffixLength = t.searchStop limit := by
    rw [hsuffix, searchStop]
  have hstop' : t.searchStop limit = limit - t.trailing - t.after.length := rfl
  unfold tracedLocate locate
  dsimp only
  rw [hstart, hstop]
  refine (yields_note ?_).bind ?_
  · simp only [List.Forall, Event.Confined, Event.Inside, and_true]
    omega
  · split
    · exact yields_pure none
    · -- The run fits between its bounds, so the upper one is not below the start of the range.
      rename_i hfits
      refine (yields_note ?_).bind ?_
      · simp only [List.Forall, Event.Confined, Event.Inside, and_true]
        omega
      · rw [Int.toNat_natCast]
        refine tracedSearch_yields h hrun ?_ ?_
        · omega
        · omega

theorem tracedPlace_yields {cursor limit : Nat} (h : t.Suits unknown format start stop reach)
    (hcursor : start ≤ cursor) (hle : cursor ≤ limit) (hlimit : limit ≤ stop) :
    (t.tracedPlace unknown format subject cursor limit).Yields
      (Event.Confined format start stop reach)
      ((t.place unknown subject cursor limit).map Nat.cast) := by
  have hroom := h.width_le
  unfold tracedPlace place
  refine (yields_note ?_).bind ?_
  · simp only [List.Forall, Event.Confined, Event.Inside]
    omega
  · split
    · refine (yields_note ?_).bind ?_
      · simp only [List.Forall, Event.Confined, Event.Inside, and_true]
        omega
      · by_cases hfits : cursor + t.width ≤ limit
        · rw [if_pos hfits, if_neg (by omega)]
          exact yields_pure _
        · rw [if_neg hfits, if_pos (by omega)]
          exact yields_pure none
    · rename_i hgap
      exact tracedLocate_yields h (h.run_pos (eq_false_of_ne_true hgap)) hcursor hle hlimit

theorem tracedAdvance_yields {cursor limit : Nat} (h : t.Suits unknown format start stop reach)
    (hcursor : start ≤ cursor) (hle : cursor ≤ limit) (hlimit : limit ≤ stop) :
    (t.tracedAdvance unknown format subject cursor limit).Yields
      (Event.Confined format start stop reach)
      ((t.place unknown subject cursor limit).map fun pos => ((pos : Int), pos + t.width)) := by
  have hroom := h.width_le
  refine (tracedPlace_yields h hcursor hle hlimit).bind ?_
  cases hplace : t.place unknown subject cursor limit with
  | none => exact yields_pure none
  | some pos =>
    obtain ⟨hge, hfits, -⟩ := place_fits h.ready hplace
    refine (yields_note ?_).bind (yields_pure _)
    simp only [List.Forall, Event.Confined, Event.Inside, and_true]
    omega

end Target

namespace Pattern

variable {p : Pattern}

theorem tracedPlaceAll_yields {cursor limit : Nat} {targets : List Target}
    (h : ∀ t ∈ targets, t.Suits unknown format start stop reach) (hcursor : start ≤ cursor)
    (hle : cursor ≤ limit) (hlimit : limit ≤ stop) :
    (tracedPlaceAll unknown format subject limit cursor targets).Yields
      (Event.Confined format start stop reach)
      ((placeAll unknown subject limit cursor targets).map Nat.cast) := by
  induction targets generalizing cursor with
  | nil => exact yields_pure _
  | cons t rest ih =>
    obtain ⟨hfirst, hrest⟩ := List.forall_mem_cons.mp h
    rw [placeAll]
    refine (Target.tracedAdvance_yields hfirst hcursor hle hlimit).bind ?_
    cases hplace : t.place unknown subject cursor limit with
    | none => exact yields_pure none
    | some pos =>
      obtain ⟨hge, hfits, -⟩ := Target.place_fits hfirst.ready hplace
      exact ih hrest (by omega) hfits

def castBound (found : Nat × List Target) : Int × List Target := (found.1, found.2)

theorem tracedStepStart_yields
    (h : ∀ t ∈ p.targets, t.Suits p.tokens.unknown p.format start stop reach) :
    (p.tracedStepStart subject start stop).Yields (Event.Confined p.format start stop reach)
      ((p.stepStart subject start).map castBound) := by
  unfold tracedStepStart stepStart
  cases p.anchors.atStart with
  | false => exact yields_pure _
  | true =>
    cases htargets : p.targets with
    | nil => exact yields_pure _
    | cons t rest =>
      have hfirst := h t (htargets ▸ List.mem_cons_self)
      have hroom := hfirst.width_le
      refine (Target.tracedFitsAt_yields hfirst.lies (Nat.le_refl start) hroom).bind ?_
      dsimp only
      split
      · refine (yields_note ?_).bind (yields_pure _)
        simp only [List.Forall, Event.Confined, Event.Inside, and_true]
        omega
      · exact yields_pure none

theorem tracedStepEnd_yields {cursor : Nat} {targets : List Target}
    (h : ∀ t ∈ targets, t.Suits p.tokens.unknown p.format start stop reach)
    (hcursor : start ≤ cursor)
    (hle : cursor ≤ stop) :
    (p.tracedStepEnd subject cursor stop targets).Yields (Event.Confined p.format start stop reach)
      ((p.stepEnd subject cursor stop targets).map castBound) := by
  unfold tracedStepEnd stepEnd
  cases p.anchors.atEnd with
  | false => exact yields_pure _
  | true =>
    cases hlast : targets.getLast? with
    | none =>
      by_cases hcover : cursor = stop
      · rw [if_pos rfl, if_pos rfl, if_pos hcover, if_pos (congrArg Nat.cast hcover)]
        exact yields_pure _
      · rw [if_pos rfl, if_pos rfl, if_neg hcover, if_neg (Int.natCast_inj.not.mpr hcover)]
        exact yields_pure none
    | some t =>
      have ht := h t (List.mem_of_getLast? hlast)
      have hroom := ht.width_le
      have htail : (stop : Int) - t.width = (stop - t.width : Nat) := by omega
      rw [if_pos rfl, if_pos rfl]
      dsimp only
      rw [htail]
      refine (yields_note ?_).bind ?_
      · simp only [List.Forall, Event.Confined, Event.Inside, and_true]
        omega
      · by_cases hbehind : cursor + t.width ≤ stop
        · rw [if_neg (by omega), decide_eq_true hbehind, Bool.true_and]
          refine (Target.tracedFitsAt_yields ht.lies (by omega) (by omega)).bind ?_
          split
          · refine (yields_note ?_).bind (yields_pure _)
            simp only [List.Forall, Event.Confined, Event.Inside, and_true]
            omega
          · exact yields_pure none
        · rw [if_pos (by omega), decide_eq_false hbehind, Bool.false_and]
          exact yields_pure none

theorem tracedCovers_yields
    (h : ∀ t ∈ p.targets, t.Suits p.tokens.unknown p.format start stop reach)
    (hwidth : start + Section.totalWidth p.sections ≤ stop) :
    (p.tracedCovers subject start stop).Yields (Event.Confined p.format start stop reach)
      (p.covers subject start stop) := by
  unfold tracedCovers covers
  refine (tracedStepStart_yields h).bind ?_
  cases hfirst : p.stepStart subject start with
  | none => exact yields_pure false
  | some found =>
    obtain ⟨cursor, rest⟩ := found
    obtain ⟨hroom, hrest⟩ := stepStart_bounds hfirst
    have hcursor := stepStart_ge hfirst
    have hsuits := fun t ht => h t (hrest t ht)
    refine (tracedStepEnd_yields hsuits hcursor (by omega)).bind ?_
    dsimp only
    cases hlast : p.stepEnd subject cursor stop rest with
    | none => exact yields_pure false
    | some found =>
      obtain ⟨limit, interior⟩ := found
      obtain ⟨hle, hlimit, hinterior⟩ := stepEnd_bounds (by omega) hlast
      have hinner := fun t ht => hsuits t (hinterior t ht)
      refine (tracedPlaceAll_yields hinner hcursor hle hlimit).bind ?_
      rw [Option.isSome_map]
      exact yields_pure _

theorem tracedSpanOf_yields {targets : List Target}
    (h : ∀ t ∈ targets, t.Suits unknown format start stop reach) (hle : start ≤ stop) :
    (tracedSpanOf unknown format subject start stop targets).Yields
      (Event.Confined format start stop reach)
      ((spanOf unknown subject start stop targets).map fun found => (↑found.1, ↑found.2)) := by
  cases targets with
  | nil => exact yields_pure none
  | cons t rest =>
    obtain ⟨hfirst, hrest⟩ := List.forall_mem_cons.mp h
    rw [spanOf]
    refine (Target.tracedAdvance_yields hfirst (Nat.le_refl start) hle (Nat.le_refl stop)).bind ?_
    cases hplace : t.place unknown subject start stop with
    | none => exact yields_pure none
    | some first =>
      obtain ⟨hge, hfits, -⟩ := Target.place_fits hfirst.ready hplace
      refine (tracedPlaceAll_yields hrest (by omega) hfits (Nat.le_refl stop)).bind ?_
      dsimp only
      rw [Option.map_map, Option.map_map]
      exact yields_pure _

theorem Compiled.suits (hp : p.Compiled) (hwidth : start + p.minWidth ≤ stop) :
    ∀ t ∈ p.targets, t.Suits p.tokens.unknown p.format start stop p.minWidth := by
  intro t ht
  have hsection : t.toSection ∈ p.sections := List.mem_map_of_mem ht
  have hsearched := hp.laidOut.searched
  rw [sections, List.forall₂_map_left_iff, List.forall₂_same] at hsearched
  have hle := Section.width_le_totalWidth hsection
  rw [← hp.minWidth_eq_totalWidth] at hle
  exact {
    ready := hp.ready t ht
    lies := hp.laidOut.inside t.toSection hsection
    run_pos := (hsearched t ht).2.nonempty
    width_le := Nat.le_trans (Nat.add_le_add_left hle start) hwidth
    narrow := hle }

/-- Finding with a trace finds the same match, and all that it does is confined to the range. -/
theorem Compiled.tracedFindIn_confined {length : Nat} (hp : p.Compiled)
    (hinside : start + length ≤ subject.size) :
    (p.tracedFindIn subject start length).Yields
      (Event.Confined p.format start (start + length : Nat) p.minWidth)
      ((p.findIn subject start length).start, (p.findIn subject start length).length) := by
  unfold tracedFindIn findIn
  by_cases hwidth : length < p.minWidth
  · rw [if_pos hwidth, if_pos (Int.ofNat_lt.mpr hwidth)]
    exact yields_pure _
  · rw [if_neg hwidth, if_neg (mt Int.ofNat_lt.mp hwidth)]
    have hroom : start + p.minWidth ≤ start + length :=
      Nat.add_le_add_left (Nat.not_lt.mp hwidth) start
    have hsuits := hp.suits hroom
    split
    · exact yields_pure _
    · rw [← Int.natCast_add]
      dsimp only
      refine (yields_note ?_).bind ?_
      · simp only [List.Forall, Event.Confined, Event.Inside, and_true]
        omega
      · cases p.mode with
        | whole =>
          dsimp only
          rw [hp.minWidth_eq_totalWidth] at hroom
          refine (tracedCovers_yields hsuits hroom).bind ?_
          split
          · exact yields_pure _
          · exact yields_pure _
        | anywhere =>
          dsimp only
          refine (tracedSpanOf_yields hsuits (Nat.le_add_right start length)).bind ?_
          cases hfound : spanOf p.tokens.unknown subject start (start + length) p.targets with
          | none => exact yields_pure _
          | some found =>
            obtain ⟨first, last⟩ := found
            obtain ⟨hspan, hfirst, hlast⟩ := spanOf_span hp.ready hinside hfound
            have hle := hspan.1
            have hlength : (last : Int) - first = (last - first : Nat) := by omega
            dsimp only [Option.map_some]
            rw [hlength]
            refine (yields_note ?_).bind (yields_pure _)
            simp only [List.Forall, Event.Confined, Event.Inside, and_true]
            omega

theorem Compiled.tracedFindIn_yields {length : Nat} (hp : p.Compiled)
    (hinside : start + length ≤ subject.size) :
    (p.tracedFindIn subject start length).Yields (Event.Inside p.format start (start + length : Nat))
      ((p.findIn subject start length).start, (p.findIn subject start length).length) := by
  obtain ⟨hvalue, hevents⟩ := hp.tracedFindIn_confined hinside
  exact ⟨hvalue, fun e he => (hevents e he).1⟩

/-- Every range of a subject is searched without leaving it: bytes of the subject are read only in
the range and bytes of the format only in the format, the window for a run is cut inside the subject,
the cursor and the limit stay in the range, and they are in order whenever a target is placed. -/
theorem find_stays_inside (mode : Mode) {format : Bytes} {tokens : Tokens}
    (hcompilable : Compilable format tokens) :
    ∃ p, compile format mode tokens = .ok p ∧
      ∀ (subject : Subject) (start length : Int),
        (Range.span start length).Accepted subject.size →
        ∃ m, p.find subject (.span start length) = .ok m ∧
          (p.tracedFindIn subject start length).value = ((m.start : Int), m.length) ∧
          ∀ e ∈ (p.tracedFindIn subject start length).events,
            e.Inside format start (start + length) := by
  obtain ⟨p, hcompile⟩ := hcompilable.exists_compiled mode
  obtain ⟨hp, rfl, rfl, rfl⟩ := compile_eq_ok_iff.mp hcompile
  refine ⟨p, hcompile, ?_⟩
  intro subject start length haccepted
  obtain ⟨hstart, hlength, hinside⟩ := haccepted.bounds
  lift start to Nat using hstart
  lift length to Nat using hlength
  have hstop : start + length ≤ subject.size := by omega
  obtain ⟨hvalue, hevents⟩ := hp.tracedFindIn_yields hstop
  exact ⟨p.findIn subject start length, find_span p haccepted.size_lt hstop, hvalue, hevents⟩

theorem find_stays_inside_of_resumed_search :
    ∃ p, compile [97, 42, 98, 63, 99, 100, 101, 102, 42, 103] .whole {} = .ok p ∧
      ∀ e ∈ (p.tracedFindIn #[122, 97, 120, 120, 99, 100, 101, 102, 98, 49, 99, 100, 101, 102, 103,
        122] 1 14).events,
        e.Inside [97, 42, 98, 63, 99, 100, 101, 102, 42, 103] 1 15 := by
  obtain ⟨p, hp, h⟩ := @find_stays_inside .whole [97, 42, 98, 63, 99, 100, 101, 102, 42, 103] {}
    (by decide)
  obtain ⟨m, -, -, hevents⟩ := h #[122, 97, 120, 120, 99, 100, 101, 102, 98, 49, 99, 100, 101, 102,
    103, 122] 1 14 (by decide)
  exact ⟨p, hp, hevents⟩

end Pattern
end Wildcard
