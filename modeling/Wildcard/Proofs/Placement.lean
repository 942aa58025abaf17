import Wildcard.Proofs.Occurrence
import Wildcard.Proofs.Span

/-!
# Where a target is placed

A target is searched by a run of its literal that is free of unknowns, and placed where the bytes
around an occurrence agree as well. Whatever run is searched for, the place is the leftmost position
in the window where the whole target fits.
-/

namespace Wildcard

theorem agreesAt_append (unknown : UInt8) (subject : Subject) (pos : Nat) (front back : Bytes) :
    agreesAt unknown subject pos (front ++ back) =
      (agreesAt unknown subject pos front &&
        agreesAt unknown subject (pos + front.length) back) := by
  induction front generalizing pos with
  | nil => simp [agreesAt]
  | cons b front ih =>
    have hnext : pos + (b :: front).length = pos + 1 + front.length := by
      simp only [List.length_cons]
      omega
    rw [List.cons_append, agreesAt, agreesAt, ih, hnext, Bool.and_assoc]

theorem agreesAt_of_not_mem {unknown : UInt8} (subject : Subject) {bytes : Bytes} (pos : Nat)
    (h : unknown ∉ bytes) :
    agreesAt unknown subject pos bytes = Needle.occursAt subject pos bytes := by
  induction bytes generalizing pos with
  | nil => rfl
  | cons b rest ih =>
    rw [List.mem_cons, not_or] at h
    have hb : (b == unknown) = false := by simpa using Ne.symm h.1
    rw [agreesAt, Needle.occursAt, hb, Bool.false_or, ih (pos + 1) h.2]

namespace SearchRun

theorem mem_of_foldl_prefer (held : Int × Run) (runs : List Run) :
    (runs.foldl prefer held).2 ∈ held.2 :: runs := by
  induction runs generalizing held with
  | nil => simp
  | cons next runs ih =>
    have hstep : (prefer held next).2 = held.2 ∨ (prefer held next).2 = next := by
      unfold prefer
      dsimp only
      split
      · exact Or.inr rfl
      · exact Or.inl rfl
    have hmem := ih (prefer held next)
    rw [List.foldl_cons]
    rcases List.mem_cons.mp hmem with hheld | hlater
    · rw [hheld]
      rcases hstep with h | h <;> simp [h]
    · simp [hlater]

/-- The chosen run stands in the literal and is free of unknowns. -/
theorem choose_within (unknown : UInt8) (literal : Bytes) :
    (choose unknown literal).Within unknown 0 literal := by
  unfold choose
  split
  · exact ⟨by simp, [], literal, by simp, rfl⟩
  · rename_i r rest hruns
    apply Run.within_of_mem_between
    rw [hruns]
    exact mem_of_foldl_prefer (score r.bytes, r) rest

end SearchRun

namespace Target

def Ready (unknown : UInt8) (t : Target) : Prop := t.run.Within unknown 0 t.literal

theorem ready_ofSection (unknown : UInt8) (s : Section) : (ofSection unknown s).Ready unknown :=
  SearchRun.choose_within unknown s.literal

def Fits (t : Target) (unknown : UInt8) (subject : Subject) (limit pos : Nat) : Prop :=
  pos + t.width ≤ limit ∧ t.fitsAt unknown subject pos = true

variable {unknown : UInt8} {subject : Subject} {t : Target}

theorem span_texts_iff {start stop : Nat} :
    subject.Span (t.texts unknown) start stop ↔
      stop = start + t.width ∧ stop ≤ subject.size ∧ t.fitsAt unknown subject start = true :=
  Subject.span_texts

theorem literal_eq (h : t.Ready unknown) :
    t.literal = t.before ++ t.run.bytes ++ t.after ∧ t.run.start = t.before.length := by
  obtain ⟨before, after, hliteral, hstart⟩ := h.stands
  rw [Nat.zero_add] at hstart
  have hbefore : t.before = before := by
    rw [Target.before, hliteral, hstart, List.append_assoc, List.take_left]
  have hafter : t.after = after := by
    have hstop : t.run.stop = (before ++ t.run.bytes).length := by
      rw [List.length_append, ← hstart]
    rw [Target.after, hstop, hliteral, List.drop_left]
  rw [hbefore, hafter]
  exact ⟨hliteral, hstart⟩

theorem width_eq (h : t.Ready unknown) :
    t.width = t.leading + t.run.start + t.run.length + t.after.length + t.trailing := by
  obtain ⟨hliteral, hstart⟩ := literal_eq h
  have hlength := congrArg List.length hliteral
  rw [List.length_append, List.length_append, ← hstart] at hlength
  simp only [Section.width, Run.length, hlength]
  omega

def surroundedAt (t : Target) (unknown : UInt8) (subject : Subject) (pos : Nat) : Bool :=
  agreesAt unknown subject (pos - t.run.start) t.before &&
    agreesAt unknown subject (pos + t.run.length) t.after

/-- A target fits where its run occurs with the right bytes around it. -/
theorem fitsAt_iff (h : t.Ready unknown) (pos : Nat) :
    t.fitsAt unknown subject pos = true ↔
      Needle.occursAt subject (pos + (t.leading + t.run.start)) t.run.bytes = true ∧
        t.surroundedAt unknown subject (pos + (t.leading + t.run.start)) = true := by
  obtain ⟨hliteral, hstart⟩ := literal_eq h
  have hfront : pos + (t.leading + t.run.start) - t.run.start = pos + t.leading := by omega
  have hrun : pos + t.leading + t.before.length = pos + (t.leading + t.run.start) := by omega
  have hback : pos + t.leading + (t.before ++ t.run.bytes).length =
      pos + (t.leading + t.run.start) + t.run.length := by
    rw [List.length_append, ← hstart, Run.length]
    omega
  rw [fitsAt, hliteral, agreesAt_append, agreesAt_append, agreesAt_of_not_mem _ _ h.free, hrun,
    hback, surroundedAt, hfront, Bool.and_eq_true, Bool.and_eq_true, Bool.and_eq_true]
  exact ⟨fun ⟨⟨hb, ho⟩, ha⟩ => ⟨ho, hb, ha⟩, fun ⟨ho, hb, ha⟩ => ⟨⟨hb, ho⟩, ha⟩⟩

theorem search_trials (t : Target) (unknown : UInt8) (subject : Subject) (stop pos : Nat) :
    ∃ tried found, Trials (t.needle.findIn subject stop) (t.surroundedAt unknown subject) (· + 1)
        pos tried found ∧
      t.search unknown subject t.before t.after stop pos =
        found.map fun p => p - t.run.start - t.leading := by
  fun_induction search t unknown subject t.before t.after stop pos with
  | case1 pos hnone => exact ⟨[], none, .exhausted hnone, rfl⟩
  | case2 pos p hp hagree => exact ⟨[p], some p, .accepted hp hagree, rfl⟩
  | case3 pos p hp hdisagree ih =>
    obtain ⟨tried, found, htrials, hfound⟩ := ih
    exact ⟨p :: tried, found, .resumed hp (eq_false_of_ne_true hdisagree) htrials, hfound⟩

/-- The search resumes one past a failed occurrence, so it passes over no place. -/
theorem search_leftmost (stop pos : Nat) :
    ∃ found, t.search unknown subject t.before t.after stop pos =
        found.map (fun p => p - t.run.start - t.leading) ∧
      Leftmost (fun p => Needle.Occurs t.run.bytes subject stop p ∧
        t.surroundedAt unknown subject p = true) pos found := by
  obtain ⟨tried, found, htrials, hfound⟩ := t.search_trials unknown subject stop pos
  have hneedle : ∀ pos, Leftmost (Needle.Occurs t.run.bytes subject stop) pos
      (t.needle.findIn subject stop pos) := by
    intro pos
    rw [← t.needle_bytes]
    exact t.needle.findIn_leftmost subject stop pos
  refine ⟨found, hfound, htrials.leftmost hneedle (fun p => Iff.rfl) fun p => ?_⟩
  exact ⟨Nat.lt_succ_self p, fun q hpq hq => by omega⟩

theorem fits_iff (h : t.Ready unknown) {limit stop pos : Nat}
    (hstop : (stop : Int) = t.searchStop limit) :
    t.Fits unknown subject limit pos ↔
      Needle.Occurs t.run.bytes subject stop (pos + (t.leading + t.run.start)) ∧
        t.surroundedAt unknown subject (pos + (t.leading + t.run.start)) = true := by
  have hroom : pos + t.width ≤ limit ↔
      pos + (t.leading + t.run.start) + t.run.bytes.length ≤ stop := by
    rw [width_eq h]
    unfold searchStop at hstop
    simp only [Run.length]
    omega
  rw [Fits, Needle.Occurs, fitsAt_iff h, hroom, and_assoc]

/-- Whatever run a target is searched by, locating it gives the leftmost place in the window. -/
theorem locate_leftmost (h : t.Ready unknown) (cursor limit : Nat) :
    Leftmost (t.Fits unknown subject limit) cursor (t.locate unknown subject cursor limit) := by
  unfold locate
  split
  · rename_i hroom
    intro pos hpos hfits
    have hwidth := hfits.1
    rw [width_eq h] at hwidth
    simp only [searchStop, searchStart] at hroom
    omega
  · rename_i hroom
    have hstop : ((t.searchStop limit).toNat : Int) = t.searchStop limit := by
      simp only [searchStart] at hroom
      omega
    obtain ⟨found, hfound, hleft⟩ :=
      search_leftmost (t.searchStop limit).toNat (t.searchStart cursor)
    have hstart : t.searchStart cursor = cursor + (t.leading + t.run.start) := by
      rw [searchStart, Nat.add_assoc]
    have hplace : found.map (fun p => p - t.run.start - t.leading) =
        found.map (· - (t.leading + t.run.start)) := by
      congr 1
      funext p
      omega
    rw [hfound, hplace]
    rw [hstart] at hleft
    exact hleft.map_sub fun pos _ => fits_iff h hstop

theorem place_leftmost (h : t.Ready unknown) (subject : Subject) (cursor limit : Nat) :
    Leftmost (t.Fits unknown subject limit) cursor (t.place unknown subject cursor limit) := by
  unfold place
  split
  · rename_i hgap
    have hfits : ∀ pos, t.fitsAt unknown subject pos = true := by
      intro pos
      rw [fitsAt, List.isEmpty_iff.mp hgap]
      rfl
    split
    · rename_i hroom
      exact .here ⟨hroom, hfits cursor⟩
    · intro pos hpos hfits
      have := hfits.1
      omega
  · exact locate_leftmost h cursor limit

theorem place_fits (h : t.Ready unknown) {cursor limit pos : Nat}
    (hpos : t.place unknown subject cursor limit = some pos) :
    cursor ≤ pos ∧ t.Fits unknown subject limit pos := by
  have hplace := place_leftmost h subject cursor limit
  rw [hpos] at hplace
  exact ⟨hplace.1, hplace.2.1⟩

theorem exists_place_le (h : t.Ready unknown) {cursor limit pos : Nat} (hpos : cursor ≤ pos)
    (hfits : t.Fits unknown subject limit pos) :
    ∃ first, t.place unknown subject cursor limit = some first ∧ first ≤ pos :=
  (place_leftmost h subject cursor limit).exists_le hpos hfits

end Target
end Wildcard
