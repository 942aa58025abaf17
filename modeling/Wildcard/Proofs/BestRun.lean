import Mathlib.Data.Finset.Card
import Mathlib.Data.Nat.Count
import Wildcard.Proofs.Layout

/-!
# The best run

The run that a literal is searched by ranks before every other run of the literal: it has more
points, or as many points and more bytes, or as many of both and comes first. One pass over the
literal, which holds the best run so far and closes a run at each unknown and one past the end,
comes to the same run.
-/

namespace Wildcard

namespace Run

variable {gap : UInt8} {pos : Nat} {text : Bytes} {r : Run}

/-- The run stands in a text whose first byte has position `pos`, has no `gap` in it, and cannot be
made longer: on either side of it is `gap` or the end of the text. -/
structure MaximalIn (gap : UInt8) (pos : Nat) (text : Bytes) (r : Run) : Prop where
  nonempty : r.bytes ≠ []
  free : gap ∉ r.bytes
  stands : ∃ before after, text = before ++ r.bytes ++ after ∧ r.start = pos + before.length ∧
    (∀ b ∈ before.getLast?, b = gap) ∧ ∀ b ∈ after.head?, b = gap

/-- A text has no `gap`, or its first `gap` stands behind a part without one. -/
theorem gap_induction (gap : UInt8) {motive : Nat → Bytes → Prop}
    (free : ∀ pos text, gap ∉ text → motive pos text)
    (split : ∀ pos front rest, gap ∉ front → motive (pos + front.length + 1) rest →
      motive pos (front ++ gap :: rest))
    (pos : Nat) (text : Bytes) : motive pos text := by
  induction hlength : text.length using Nat.strong_induction_on generalizing pos text with
  | _ n ih =>
    by_cases hmem : gap ∈ text
    · obtain ⟨front, rest, rfl, hfront⟩ := List.eq_append_cons_of_mem hmem
      refine split pos front rest hfront (ih rest.length ?_ _ rest rfl)
      rw [← hlength, List.length_append, List.length_cons]
      omega
    · exact free pos text hmem

theorem between_append_cons_gap (pos : Nat) (front rest : Bytes) :
    between gap pos (front ++ gap :: rest) =
      between gap pos front ++ between gap (pos + front.length + 1) rest := by
  have hfree : ∀ pos front rest, gap ∉ front → between gap pos (front ++ gap :: rest) =
      between gap pos front ++ between gap (pos + front.length + 1) rest := by
    intro pos front rest h
    by_cases hnil : front = []
    · subst hnil
      rw [List.nil_append, between_cons_gap]
      rfl
    · rw [between_append_gap hnil h, between_of_notMem hnil h, List.singleton_append]
  induction pos, front using gap_induction gap with
  | free pos front h => exact hfree pos front rest h
  | split pos part front h ih =>
    have hpos : pos + (part ++ gap :: front).length + 1 =
        pos + part.length + 1 + front.length + 1 := by
      rw [List.length_append, List.length_cons]
      omega
    rw [List.append_assoc, List.cons_append, hfree pos part _ h, ih, hfree pos part _ h, hpos,
      List.append_assoc]

theorem eq_of_mem_between_of_notMem (hfree : gap ∉ text) (h : r ∈ between gap pos text) :
    text ≠ [] ∧ r = ⟨pos, text⟩ := by
  have hne : text ≠ [] := ne_nil_of_between_ne_nil (List.ne_nil_of_mem h)
  rw [between_of_notMem hne hfree, List.mem_singleton] at h
  exact ⟨hne, h⟩

theorem maximalIn_of_mem_between (h : r ∈ between gap pos text) : r.MaximalIn gap pos text := by
  induction pos, text using gap_induction gap with
  | free pos text hfree =>
    obtain ⟨hne, rfl⟩ := eq_of_mem_between_of_notMem hfree h
    exact ⟨hne, hfree, [], [], by simp, rfl, by simp, by simp⟩
  | split pos front rest hfree ih =>
    rw [between_append_cons_gap, List.mem_append] at h
    rcases h with h | h
    · obtain ⟨hne, rfl⟩ := eq_of_mem_between_of_notMem hfree h
      exact ⟨hne, hfree, [], gap :: rest, by simp, rfl, by simp, by simp⟩
    · obtain ⟨hne, hfree', before, after, rfl, hstart, hbefore, hafter⟩ := ih h
      refine ⟨hne, hfree', front ++ gap :: before, after, by simp, ?_, ?_, hafter⟩
      · rw [hstart, List.length_append, List.length_cons]
        omega
      · intro b hb
        rw [List.getLast?_append_of_ne_nil _ (List.cons_ne_nil gap before)] at hb
        cases before with
        | nil => simpa [eq_comm] using hb
        | cons c before => exact hbefore b (by rwa [List.getLast?_cons_cons] at hb)

theorem MaximalIn.mem_between (h : r.MaximalIn gap pos text) : r ∈ between gap pos text := by
  obtain ⟨hne, hfree, before, after, rfl, hstart, hbefore, hafter⟩ := h
  have hfirst : r ∈ between gap (pos + before.length) (r.bytes ++ after) := by
    cases after with
    | nil =>
      rw [List.append_nil, between_of_notMem hne hfree, ← hstart]
      exact List.mem_singleton_self r
    | cons c after =>
      obtain rfl : c = gap := hafter c rfl
      rw [between_append_gap hne hfree, ← hstart]
      exact List.mem_cons_self
  rw [List.append_assoc]
  rcases List.eq_nil_or_concat' before with rfl | ⟨front, b, rfl⟩
  · exact hfirst
  · obtain rfl : b = gap := hbefore b (by simp)
    rw [List.length_append, List.length_singleton, ← Nat.add_assoc] at hfirst
    rw [List.append_assoc, List.singleton_append, between_append_cons_gap]
    exact List.mem_append_right _ hfirst

theorem between_append_of_notMem {closed current : Bytes} (hclosed : ∀ b ∈ closed.getLast?, b = gap)
    (hne : current ≠ []) (hfree : gap ∉ current) :
    between gap pos (closed ++ current) =
      between gap pos closed ++ [⟨pos + closed.length, current⟩] := by
  rcases List.eq_nil_or_concat' closed with rfl | ⟨front, b, rfl⟩
  · exact between_of_notMem hne hfree
  · obtain rfl : b = gap := hclosed b (by simp)
    have hpos : pos + front.length + 1 = pos + (front ++ [b]).length := by
      rw [List.length_append, List.length_singleton, Nat.add_assoc]
    rw [List.append_assoc, List.singleton_append, between_append_cons_gap,
      between_append_cons_gap pos front [], between_of_notMem hne hfree, hpos]
    simp [between]

end Run

namespace SearchRun

theorem distinct_eq_card (bytes : Bytes) : distinct bytes = bytes.toFinset.card := by
  induction bytes with
  | nil => rfl
  | cons b rest ih =>
    rw [distinct, ih, List.toFinset_cons]
    by_cases hmem : b ∈ rest
    · rw [if_pos (List.contains_iff_mem.mpr hmem), Nat.add_zero,
        Finset.insert_eq_of_mem (List.mem_toFinset.mpr hmem)]
    · rw [if_neg (mt List.contains_iff_mem.mp hmem),
        Finset.card_insert_of_notMem (mt List.mem_toFinset.mp hmem)]

theorem repeats_eq_count (bytes : Bytes) :
    repeats bytes = Nat.count (fun i => bytes[i + 1]? = bytes[i]?) (bytes.length - 1) := by
  induction bytes with
  | nil => rfl
  | cons b rest ih =>
    cases rest with
    | nil => rfl
    | cons c rest =>
      simp only [List.length_cons, Nat.add_sub_cancel] at ih ⊢
      rw [repeats, ih, Nat.count_succ']
      simp [eq_comm]

/-- The number of different bytes less the number of positions with the byte of the one before. -/
def points (bytes : Bytes) : Int :=
  bytes.toFinset.card - Nat.count (fun i => bytes[i + 1]? = bytes[i]?) (bytes.length - 1)

theorem score_eq_points (bytes : Bytes) : score bytes = points bytes := by
  rw [score, points, distinct_eq_card, repeats_eq_count]

/-- A run ranks before another if it has more points, or as many and more bytes, or as many of both
and comes first. -/
def RanksBefore (r u : Run) : Prop :=
  points u.bytes < points r.bytes ∨ points r.bytes = points u.bytes ∧
    (u.length < r.length ∨ r.length = u.length ∧ r.start < u.start)

theorem RanksBefore.trans {r u v : Run} (h : RanksBefore r u) (h' : RanksBefore u v) :
    RanksBefore r v := by
  unfold RanksBefore at *
  omega

theorem prefer_cases {r u : Run} (h : r.start < u.start) :
    prefer (score r.bytes, r) u = (score r.bytes, r) ∧ RanksBefore r u ∨
      prefer (score r.bytes, r) u = (score u.bytes, u) ∧ RanksBefore u r := by
  unfold prefer RanksBefore
  simp only [score_eq_points]
  split
  · right
    refine ⟨rfl, ?_⟩
    omega
  · left
    refine ⟨rfl, ?_⟩
    omega

/-- The run that is kept of a list of runs ranks before all the others. -/
theorem foldl_prefer_ranksBefore {r : Run} {runs : List Run}
    (h : (r :: runs).Pairwise fun r u => r.start < u.start) :
    ∀ u ∈ r :: runs, u ≠ (runs.foldl prefer (score r.bytes, r)).2 →
      RanksBefore (runs.foldl prefer (score r.bytes, r)).2 u := by
  induction runs generalizing r with
  | nil =>
    intro u hu hne
    exact absurd (List.mem_singleton.mp hu) hne
  | cons next rest ih =>
    have hkept : ∀ kept other : Run,
        prefer (score r.bytes, r) next = (score kept.bytes, kept) → RanksBefore kept other →
        (kept :: rest).Pairwise (fun r u => r.start < u.start) →
        ∀ u ∈ other :: kept :: rest,
          u ≠ ((next :: rest).foldl prefer (score r.bytes, r)).2 →
            RanksBefore ((next :: rest).foldl prefer (score r.bytes, r)).2 u := by
      intro kept other hprefer hranks hpairwise u hu hne
      rw [List.foldl_cons, hprefer] at hne ⊢
      rcases List.mem_cons.mp hu with rfl | hu
      · by_cases hfinal : kept = (rest.foldl prefer (score kept.bytes, kept)).2
        · rwa [← hfinal]
        · exact (ih hpairwise kept List.mem_cons_self hfinal).trans hranks
      · exact ih hpairwise u hu hne
    have hfirst : r.start < next.start := List.rel_of_pairwise_cons h List.mem_cons_self
    intro u hu
    rcases prefer_cases hfirst with ⟨hprefer, hranks⟩ | ⟨hprefer, hranks⟩
    · refine hkept r next hprefer hranks (h.sublist ?_) u ?_
      · exact (List.sublist_cons_self next rest).cons_cons r
      · simpa [or_left_comm] using hu
    · exact hkept next r hprefer hranks h.of_cons u hu

theorem choose_of_between {unknown : UInt8} {literal : Bytes} {r : Run} {runs : List Run}
    (h : Run.between unknown 0 literal = r :: runs) :
    choose unknown literal = (runs.foldl prefer (score r.bytes, r)).2 := by
  rw [choose, h]

theorem choose_of_notMem {unknown : UInt8} {literal : Bytes} (h : unknown ∉ literal) :
    choose unknown literal = ⟨0, literal⟩ := by
  by_cases hnil : literal = []
  · subst hnil
    rfl
  · exact choose_of_between (Run.between_of_notMem hnil h)

theorem choose_mem_between {unknown : UInt8} {literal : Bytes}
    (h : Run.between unknown 0 literal ≠ []) :
    choose unknown literal ∈ Run.between unknown 0 literal := by
  obtain ⟨r, runs, hruns⟩ := List.exists_cons_of_ne_nil h
  rw [choose_of_between hruns, hruns]
  exact mem_of_foldl_prefer (score r.bytes, r) runs

theorem choose_ranksBefore {unknown : UInt8} {literal : Bytes} {u : Run}
    (hu : u ∈ Run.between unknown 0 literal) (hne : u ≠ choose unknown literal) :
    RanksBefore (choose unknown literal) u := by
  obtain ⟨r, runs, hruns⟩ := List.exists_cons_of_ne_nil (List.ne_nil_of_mem hu)
  have hstarts : (r :: runs).Pairwise fun r u => r.start < u.start := by
    rw [← hruns]
    exact (Run.pairwise_between unknown 0 literal).imp fun h =>
      Nat.lt_of_le_of_lt (Nat.le_add_right _ _) h
  rw [choose_of_between hruns] at hne ⊢
  exact foldl_prefer_ranksBefore hstarts u (hruns ▸ hu) hne

/-- The best of some runs with its score. The first score is below that of any run. -/
def best (runs : List Run) : Int × Run := runs.foldl prefer (-2147483648, ⟨0, []⟩)

theorem best_concat (runs : List Run) (r : Run) : best (runs ++ [r]) = prefer (best runs) r := by
  rw [best, best, List.foldl_append]
  rfl

theorem neg_length_le_score (bytes : Bytes) : -(bytes.length : Int) ≤ score bytes := by
  have hcount := Nat.count_le (fun i => bytes[i + 1]? = bytes[i]?) (n := bytes.length - 1)
  rw [score, repeats_eq_count]
  omega

theorem best_between {unknown : UInt8} {literal : Bytes} (hlength : literal.length < 2147483648) :
    (best (Run.between unknown 0 literal)).2 = choose unknown literal := by
  cases hruns : Run.between unknown 0 literal with
  | nil => rw [choose, hruns, best, List.foldl_nil]
  | cons r runs =>
    have hmem : r ∈ Run.between unknown 0 literal := hruns ▸ List.mem_cons_self
    obtain ⟨before, after, hliteral, -⟩ := (Run.within_of_mem_between hmem).stands
    have hscore := neg_length_le_score r.bytes
    have hlower : r.bytes.length ≤ literal.length := by
      rw [hliteral, List.length_append, List.length_append]
      omega
    have hfirst : prefer (-2147483648, ⟨0, []⟩) r = (score r.bytes, r) :=
      if_pos (.inl (by show (-2147483648 : Int) < score r.bytes; omega))
    rw [choose_of_between hruns, best, List.foldl_cons, hfirst]

/-- What a pass over a literal holds: score, offset and length of the best run so far, and where the
run starts that is being read. -/
structure Scan where
  score : Int := -2147483648
  offset : Nat := 0
  length : Nat := 0
  runStart : Nat := 0

namespace Scan

def close (literal : Bytes) (s : Scan) (pos : Nat) : Scan :=
  let length := pos - s.runStart
  let score := SearchRun.score ((literal.drop s.runStart).take length)
  if 0 < length ∧ (s.score < score ∨ score = s.score ∧ s.length < length) then
    ⟨score, s.runStart, length, pos + 1⟩
  else { s with runStart := pos + 1 }

def step (unknown : UInt8) (literal : Bytes) (s : Scan) (pos : Nat) : Scan :=
  if pos < literal.length ∧ literal[pos]? ≠ some unknown then s else s.close literal pos

/-- One pass over the literal, which goes one position past its end. -/
def pass (unknown : UInt8) (literal : Bytes) : Scan :=
  (List.range (literal.length + 1)).foldl (step unknown literal) {}

def Holds (s : Scan) (held : Int × Run) : Prop :=
  s.score = held.1 ∧ s.offset = held.2.start ∧ s.length = held.2.length

/-- Of the bytes read so far the last ones belong to a run that goes on, and the best of the runs in
front of it is held. -/
def Follows (unknown : UInt8) (s : Scan) (read : Bytes) : Prop :=
  ∃ closed current, read = closed ++ current ∧ s.runStart = closed.length ∧ unknown ∉ current ∧
    (∀ b ∈ closed.getLast?, b = unknown) ∧ s.Holds (best (Run.between unknown 0 closed))

variable {unknown : UInt8} {s : Scan} {read : Bytes}

theorem Follows.close (h : s.Follows unknown read) (rest : Bytes) :
    (s.close (read ++ rest) read.length).runStart = read.length + 1 ∧
      (s.close (read ++ rest) read.length).Holds (best (Run.between unknown 0 read)) := by
  obtain ⟨closed, current, rfl, hstart, hfree, hclosed, hscore, hoffset, hlength⟩ := h
  have hcurrent : (closed ++ current).length - s.runStart = current.length := by
    rw [hstart, List.length_append, Nat.add_sub_cancel_left]
  have hbytes : ((closed ++ current ++ rest).drop s.runStart).take current.length = current := by
    rw [hstart, List.append_assoc, List.drop_left, List.take_left]
  unfold Scan.close
  rw [hcurrent]
  dsimp only
  rw [hbytes]
  by_cases hnil : current = []
  · subst hnil
    rw [if_neg (fun h => Nat.lt_irrefl 0 h.1), List.append_nil]
    exact ⟨rfl, hscore, hoffset, hlength⟩
  · rw [Run.between_append_of_notMem hclosed hnil hfree, best_concat, prefer, Nat.zero_add,
      ← hscore, ← hlength]
    by_cases hbetter : s.score < SearchRun.score current ∨
        SearchRun.score current = s.score ∧ s.length < current.length
    · rw [if_pos ⟨List.length_pos_iff.mpr hnil, hbetter⟩, if_pos hbetter]
      exact ⟨rfl, rfl, hstart, rfl⟩
    · rw [if_neg (mt And.right hbetter), if_neg hbetter]
      exact ⟨rfl, hscore, hoffset, hlength⟩

theorem Follows.step (h : s.Follows unknown read) (b : UInt8) (rest : Bytes) :
    (s.step unknown (read ++ b :: rest) read.length).Follows unknown (read ++ [b]) := by
  have hlt : read.length < (read ++ b :: rest).length := by
    rw [List.length_append, List.length_cons]
    omega
  have hbyte : (read ++ b :: rest)[read.length]? = some b := by simp
  unfold Scan.step
  by_cases hb : b = unknown
  · subst hb
    obtain ⟨hstart, hholds⟩ := h.close (b :: rest)
    have hruns : Run.between b 0 (read ++ [b]) = Run.between b 0 read := by
      rw [Run.between_append_cons_gap, Run.between, List.append_nil]
    rw [if_neg fun hopen => hopen.2 hbyte]
    refine ⟨read ++ [b], [], by simp, ?_, by simp, by simp, hruns ▸ hholds⟩
    rw [hstart, List.length_append, List.length_singleton]
  · obtain ⟨closed, current, rfl, hstart, hfree, hclosed, hholds⟩ := h
    rw [if_pos ⟨hlt, by simpa [hbyte] using hb⟩]
    refine ⟨closed, current ++ [b], by simp, hstart, ?_, hclosed, hholds⟩
    simpa [hfree] using Ne.symm hb

theorem follows_foldl (unknown : UInt8) (read rest : Bytes) :
    ((List.range read.length).foldl (Scan.step unknown (read ++ rest)) {}).Follows unknown
      read := by
  induction read using List.reverseRecOn generalizing rest with
  | nil => exact ⟨[], [], rfl, rfl, by simp, by simp, rfl, rfl, rfl⟩
  | append_singleton read b ih =>
    rw [List.length_append, List.length_singleton, List.range_succ, List.foldl_append,
      List.append_assoc, List.singleton_append]
    exact (ih (b :: rest)).step b rest

theorem holds_pass (unknown : UInt8) (literal : Bytes) :
    (pass unknown literal).Holds (best (Run.between unknown 0 literal)) := by
  have hread := ((follows_foldl unknown literal []).close []).2
  rw [List.append_nil] at hread
  rw [pass, List.range_succ, List.foldl_append, List.foldl_cons, List.foldl_nil, Scan.step,
    if_neg fun h => Nat.lt_irrefl _ h.1]
  exact hread

end Scan

/-- Offset and length of the part to search for: the literal if it has no unknown, and else what one
pass over it finds. -/
def scan (unknown : UInt8) (literal : Bytes) : Nat × Nat :=
  if unknown ∈ literal then ((Scan.pass unknown literal).offset, (Scan.pass unknown literal).length)
  else (0, literal.length)

theorem scan_eq_choose (unknown : UInt8) {literal : Bytes} (hlength : literal.length < 2147483648) :
    scan unknown literal = ((choose unknown literal).start, (choose unknown literal).length) := by
  unfold scan
  split
  · obtain ⟨-, hoffset, hlen⟩ := Scan.holds_pass unknown literal
    rw [hoffset, hlen, best_between hlength]
  · rename_i hmem
    rw [choose_of_notMem hmem]

/-- A literal with a byte that is not unknown is searched by one of its runs, and that run ranks
before every other; without unknowns it is the whole literal. One pass over the literal comes to the
same run. -/
theorem choose_ranks_first (unknown : UInt8) (literal : Bytes) :
    ((∃ b ∈ literal, b ≠ unknown) →
        (choose unknown literal).MaximalIn unknown 0 literal) ∧
      (∀ r : Run, r.MaximalIn unknown 0 literal → r ≠ choose unknown literal →
        RanksBefore (choose unknown literal) r) ∧
      (unknown ∉ literal → choose unknown literal = ⟨0, literal⟩) ∧
      (literal.length < 2147483648 →
        scan unknown literal =
          ((choose unknown literal).start, (choose unknown literal).length)) := by
  refine ⟨?_, ?_, choose_of_notMem, scan_eq_choose unknown⟩
  · rintro ⟨b, hmem, hne⟩
    have hruns : Run.between unknown 0 literal ≠ [] := fun h =>
      hne (Run.between_eq_nil_iff.mp h b hmem)
    exact Run.maximalIn_of_mem_between (choose_mem_between hruns)
  · intro r hr hne
    exact choose_ranksBefore hr.mem_between hne

/-- The three runs of `ab?abab??ba` have the same score; the one with four bytes comes second. -/
theorem choose_ranks_first_of_longer_run :
    let literal : Bytes := [97, 98, 63, 97, 98, 97, 98, 63, 63, 98, 97]
    (choose 63 literal).MaximalIn 63 0 literal ∧ RanksBefore (choose 63 literal) ⟨0, [97, 98]⟩ ∧
      scan 63 literal = (3, 4) ∧ choose 63 [97, 98] = ⟨0, [97, 98]⟩ := by
  intro literal
  obtain ⟨hmaximal, hfirst, -, hscan⟩ := choose_ranks_first 63 literal
  obtain ⟨-, -, hwhole, -⟩ := choose_ranks_first 63 [97, 98]
  have hother : (⟨0, [97, 98]⟩ : Run).MaximalIn 63 0 literal :=
    ⟨by decide, by decide, [], [63, 97, 98, 97, 98, 63, 63, 98, 97], rfl, rfl, by simp, by simp⟩
  exact ⟨hmaximal ⟨97, by decide, by decide⟩, hfirst _ hother (by decide), hscan (by decide),
    hwhole (by decide)⟩

end SearchRun
end Wildcard
