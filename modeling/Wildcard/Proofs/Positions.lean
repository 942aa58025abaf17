import Wildcard.Proofs.Matches

/-!
# Positions of a cursor

A cursor that was begun and then advanced a number of times stands at the match with that number, and
behind the last match it is done and goes on to show the last one. No match is repeated, so two
cursors of a sequence are the same just if they stand at the same match or are both done.
-/

namespace Wildcard

namespace Cursor

variable {c d : Cursor} {m : Match} {ms later : List Match} {j k : Nat}

theorem advance_of_done (h : c.phase = .done) : c.advance = .ok c := by rw [advance, h]

theorem take_pattern (c : Cursor) (m : Match) : (c.take m).pattern = c.pattern := by
  unfold take
  repeat' split
  all_goals rfl

theorem take_subject (c : Cursor) (m : Match) : (c.take m).subject = c.subject := by
  unfold take
  repeat' split
  all_goals rfl

theorem current_take_of_done (h : (c.take m).phase = .done) : (c.take m).current = c.current := by
  cases hm : m.found with
  | false => simp [take, hm]
  | true =>
    by_cases hfinal : c.Final m
    · rw [(take_of_final hm hfinal).2] at h
      cases h
    · rw [take_of_not_final hm hfinal] at h
      cases h

theorem advance_cases (h : c.advance = .ok d) :
    d = c ∨ d = { c with phase := .done } ∨ ∃ m, d = c.take m := by
  rw [advance] at h
  split at h
  · exact .inl (Except.ok.inj h).symm
  · exact .inr (.inl (Except.ok.inj h).symm)
  · cases hfind : c.pattern.value.find c.subject.value
        (.span c.position (word (c.stop - c.position))) with
    | error e =>
      rw [hfind] at h
      cases h
    | ok m =>
      rw [hfind] at h
      exact .inr (.inr ⟨m, (Except.ok.inj h).symm⟩)

theorem advance_pattern (h : c.advance = .ok d) : d.pattern = c.pattern := by
  rcases advance_cases h with rfl | rfl | ⟨m, rfl⟩
  · rfl
  · rfl
  · exact take_pattern c m

theorem advance_subject (h : c.advance = .ok d) : d.subject = c.subject := by
  rcases advance_cases h with rfl | rfl | ⟨m, rfl⟩
  · rfl
  · rfl
  · exact take_subject c m

theorem advance_current_of_done (h : c.advance = .ok d) (hd : d.phase = .done) :
    d.current = c.current := by
  rcases advance_cases h with rfl | rfl | ⟨m, rfl⟩
  · rfl
  · rfl
  · exact current_take_of_done hd

theorem phase_of_rest_nil (h : c.rest = .ok []) : c.phase = .done := by
  rcases rest_cases h with ⟨hdone, -⟩ | ⟨d, later, -, -, heq⟩
  · exact hdone
  · cases heq

theorem advance_of_rest_cons (h : c.rest = .ok (m :: later)) :
    c.current = m ∧ c.phase ≠ .done ∧ ∃ d, c.advance = .ok d ∧ d.rest = .ok later := by
  rcases rest_cases h with ⟨-, heq⟩ | ⟨d, later', hadvance, hrest, heq⟩
  · cases heq
  · obtain ⟨rfl, rfl⟩ := List.cons.inj heq
    refine ⟨rfl, ?_, d, hadvance, hrest⟩
    intro hdone
    rw [rest_of_done hdone] at h
    cases h

/-- The match that is shown at position `k`: behind the last one it is the last one still. -/
def shownAt (ms : List Match) (k : Nat) : Match := (ms.take (k + 1)).getLast?.getD (.missing 0)

theorem shownAt_of_lt (h : k < ms.length) : shownAt ms k = ms[k] := by
  rw [shownAt, List.take_succ_eq_append_getElem h, List.getLast?_concat, Option.getD_some]

theorem shownAt_of_le (h : ms.length ≤ k + 1) : shownAt ms k = ms.getLast?.getD (.missing 0) := by
  rw [shownAt, List.take_of_length_le h]

/-- The cursor has gone `k` matches on from the first of the given ones. -/
structure StandsAt (c : Cursor) (ms : List Match) (k : Nat) : Prop where
  rest_eq : c.rest = .ok (ms.drop k)
  current_eq : c.current = shownAt ms k

namespace StandsAt

theorem done_iff (h : c.StandsAt ms k) : c.phase = .done ↔ ms.length ≤ k := by
  have hrest := h.rest_eq
  rw [← List.drop_eq_nil_iff]
  constructor
  · intro hdone
    rw [rest_of_done hdone] at hrest
    exact (Except.ok.inj hrest).symm
  · intro hnil
    rw [hnil] at hrest
    exact phase_of_rest_nil hrest

/-- The delayed end is no position of its own: the last match is shown once before the cursor is
done. -/
theorem advance (h : c.StandsAt ms k) : ∃ d, c.advance = .ok d ∧ d.StandsAt ms (k + 1) := by
  have hrest := h.rest_eq
  by_cases hk : k < ms.length
  · rw [List.drop_eq_getElem_cons hk] at hrest
    obtain ⟨-, -, d, hadvance, hlater⟩ := advance_of_rest_cons hrest
    refine ⟨d, hadvance, hlater, ?_⟩
    by_cases hnext : k + 1 < ms.length
    · rw [List.drop_eq_getElem_cons hnext] at hlater
      rw [(advance_of_rest_cons hlater).1, shownAt_of_lt hnext]
    · rw [Nat.not_lt] at hnext
      rw [List.drop_eq_nil_of_le hnext] at hlater
      rw [advance_current_of_done hadvance (phase_of_rest_nil hlater), h.current_eq,
        shownAt_of_le hnext, shownAt_of_le (by omega)]
  · rw [Nat.not_lt] at hk
    refine ⟨c, advance_of_done (h.done_iff.mpr hk), ?_, ?_⟩
    · rw [hrest, List.drop_eq_nil_of_le hk, List.drop_eq_nil_of_le (by omega)]
    · rw [h.current_eq, shownAt_of_le (by omega), shownAt_of_le (by omega)]

/-- Two cursors of one sequence are the same just if no advance tells them apart. -/
theorem same_iff (hc : c.StandsAt ms j) (hd : d.StandsAt ms k) (hnodup : ms.Nodup)
    (hpattern : c.pattern = d.pattern) (hsubject : c.subject = d.subject) :
    c.same d = true ↔ min j ms.length = min k ms.length := by
  have hcdone := hc.done_iff
  have hddone := hd.done_iff
  by_cases hj : ms.length ≤ j
  · have hdone : c.phase = .done := hcdone.mpr hj
    have hsame : c.same d = true ↔ d.phase = .done := by simp [same, hdone]
    rw [hsame, hddone]
    omega
  · by_cases hk : ms.length ≤ k
    · have hdone : d.phase = .done := hddone.mpr hk
      have hsame : c.same d = true ↔ c.phase = .done := by simp [same, hdone]
      rw [hsame, hcdone]
      omega
    · have hopen : ¬ (c.phase = .done ∨ d.phase = .done) := by
        rw [hcdone, hddone]
        omega
      have hsame : c.same d = true ↔ c.current = d.current := by
        simp [same, hopen, hpattern, hsubject]
      rw [Nat.not_le] at hj hk
      rw [hsame, hc.current_eq, hd.current_eq, shownAt_of_lt hj, shownAt_of_lt hk,
        hnodup.getElem_inj_iff]
      omega

end StandsAt

theorem equivalence_same : Equivalence fun c d : Cursor => c.same d = true := by
  refine ⟨fun c => ?_, fun {c d} h => ?_, fun {c d e} h h' => ?_⟩
  · by_cases hc : c.phase = .done <;> simp [same, hc]
  · by_cases hc : c.phase = .done <;> by_cases hd : d.phase = .done <;>
      simp_all [same]
  · by_cases hc : c.phase = .done <;> by_cases hd : d.phase = .done <;>
      by_cases he : e.phase = .done <;> simp_all [same]

end Cursor

namespace Pattern

variable {p : Pattern} {subject : Subject} {start stop : Nat} {ms : List Match}

theorem Compiled.nodup_upcoming (hp : p.Compiled) {c : Cursor}
    (hc : c.Scans p subject start stop) (hms : c.upcoming = .ok ms) : ms.Nodup := by
  by_cases hcore : p.tokens.core p.format = []
  · rw [hp.upcoming_of_core_eq_nil hcore hc] at hms
    cases hms
    exact List.nodup_singleton _
  · cases hmode : p.mode with
    | whole =>
      obtain ⟨hholds, hfails⟩ := hp.upcoming_whole hmode hcore hc
      by_cases hspan : subject.Span (p.tokens.language p.format) start stop
      · rw [hholds hspan] at hms
        cases hms
        exact List.nodup_singleton _
      · rw [hfails hspan] at hms
        cases hms
        exact List.nodup_nil
    | anywhere =>
      obtain ⟨ms', hms', hsuccessive⟩ := hp.upcoming_anywhere hmode hcore hc
      obtain rfl : ms = ms' := Except.ok.inj (hms.symm.trans hms')
      refine (hsuccessive.pairwise fun s e h => h.lt hp.distinct hcore).imp ?_
      rintro a b ⟨hlt, -⟩ rfl
      exact Nat.lt_irrefl _ hlt

end Pattern

namespace Sequence

variable {q : Sequence} {ms : List Match}

theorem exists_begin_standsAt (h : q.collect = .ok ms) :
    ∃ c, q.begin = .ok c ∧ c.pattern = q.pattern ∧ c.subject = q.subject ∧ c.StandsAt ms 0 := by
  rw [collect] at h
  cases hbegin : q.begin with
  | error e =>
    rw [hbegin] at h
    cases h
  | ok c =>
    rw [hbegin] at h
    have hrest : c.rest = .ok ms := h
    have hadvance : q.cursor.advance = .ok c := hbegin
    refine ⟨c, rfl, Cursor.advance_pattern hadvance, Cursor.advance_subject hadvance, hrest, ?_⟩
    cases ms with
    | nil => exact Cursor.advance_current_of_done hadvance (Cursor.phase_of_rest_nil hrest)
    | cons m ms => exact (Cursor.advance_of_rest_cons hrest).1

def Listed (q : Sequence) : Prop := ∃ ms, q.collect = .ok ms ∧ ms.Nodup

theorem listed_ofWindow {pattern : Held Pattern} {subject : Held Subject}
    (hpattern : pattern.value.Compiled) (hsize : subject.value.size < 2147483648)
    (w : Window subject.value.size) : (ofWindow pattern subject w).Listed := by
  have hscans := scans_ofWindow pattern.id subject.id pattern.value subject.value w hsize
  obtain ⟨ms, hms⟩ := hpattern.exists_upcoming hscans
  exact ⟨ms, hms, hpattern.nodup_upcoming hscans hms⟩

end Sequence
end Wildcard
