import Wildcard.Proofs.Succession
import Wildcard.Sequence

/-!
# What a sequence enumerates

A cursor that goes through a window finds, for a pattern that may stand anywhere, successive earliest
core spans: each search starts where the last match ended, and core spans are never empty, so the
window left over shrinks. For a pattern that has to cover the window there is at most one match, and
a format of anything tokens only has the one empty match at the start.
-/

namespace Wildcard

namespace Cursor

variable {c : Cursor} {m : Match} {ms : List Match}

def advances : Nat → Cursor → Except RangeError Cursor
  | 0, c => .ok c
  | n + 1, c => c.advance.bind (advances n)

/-- The matches behind the current one. -/
def upcoming (c : Cursor) : Except RangeError (List Match) := c.advance.bind rest

theorem rest_of_done (h : c.phase = .done) : c.rest = .ok [] := by rw [rest, dif_pos h]

theorem rest_of_not_done (h : c.phase ≠ .done) : c.rest = c.upcoming.map (c.current :: ·) := by
  rw [rest, dif_neg h, upcoming]
  split
  · rename_i e hadvance
    rw [hadvance]
    rfl
  · rename_i d hadvance
    rw [hadvance]
    rfl

theorem upcoming_of_last (h : c.phase = .last) : c.upcoming = .ok [] := by
  have hadvance : c.advance = .ok { c with phase := .done } := by rw [advance, h]
  rw [upcoming, hadvance]
  exact rest_of_done rfl

theorem rest_cases (h : c.rest = .ok ms) :
    (c.phase = .done ∧ ms = []) ∨
      ∃ d later, c.advance = .ok d ∧ d.rest = .ok later ∧ ms = c.current :: later := by
  rw [rest] at h
  split at h
  · rename_i hdone
    cases h
    exact .inl ⟨hdone, rfl⟩
  · split at h
    · cases h
    · rename_i d hadvance
      cases hrest : d.rest with
      | error e =>
        rw [hrest] at h
        cases h
      | ok later =>
        rw [hrest] at h
        cases h
        exact .inr ⟨d, later, hadvance, hrest, rfl⟩

/-- A cursor is done after one advance for each match from the current one on. -/
theorem exists_advances_done (h : c.rest = .ok ms) :
    ∃ d, c.advances ms.length = .ok d ∧ d.phase = .done := by
  induction ms generalizing c with
  | nil =>
    rcases rest_cases h with ⟨hdone, -⟩ | ⟨d, later, -, -, heq⟩
    · exact ⟨c, rfl, hdone⟩
    · cases heq
  | cons m ms ih =>
    rcases rest_cases h with ⟨-, heq⟩ | ⟨d, later, hadvance, hrest, heq⟩
    · cases heq
    · obtain ⟨-, rfl⟩ := List.cons.inj heq
      obtain ⟨e, hadvances, he⟩ := ih hrest
      refine ⟨e, ?_, he⟩
      rw [List.length_cons, advances, hadvance]
      exact hadvances

theorem rest_take_of_missing (hm : m.found = false) : (c.take m).rest = .ok [] := by
  apply rest_of_done
  simp [take, hm]

/-- The cursor stands at a match that is empty, covers the window or ends where the window ends. -/
def Final (c : Cursor) (m : Match) : Prop :=
  m.length = 0 ∨ c.pattern.value.mode = .whole ∨ c.stop ≤ m.stop

theorem take_of_final (hm : m.found = true) (hfinal : c.Final m) :
    (c.take m).current = m ∧ (c.take m).phase = .last := by
  simp only [take, hm, Bool.not_true, Bool.false_eq_true, if_false]
  split
  · exact ⟨rfl, rfl⟩
  · rename_i hmore
    have hstop : c.stop ≤ m.stop := by
      rcases hfinal with h | h | h
      · exact absurd (.inl h) hmore
      · exact absurd (.inr h) hmore
      · exact h
    exact ⟨rfl, if_pos hstop⟩

theorem take_of_not_final (hm : m.found = true) (hmore : ¬ c.Final m) :
    c.take m = { c with current := m, position := m.stop, phase := .ready } := by
  simp only [Final, not_or] at hmore
  simp [take, hm, hmore]

theorem rest_take_of_final (hm : m.found = true) (hfinal : c.Final m) :
    (c.take m).rest = .ok [m] := by
  obtain ⟨hcurrent, hphase⟩ := take_of_final hm hfinal
  rw [rest_of_not_done (by rw [hphase]; decide), hcurrent, upcoming_of_last hphase]
  rfl

theorem rest_take_of_not_final (hm : m.found = true) (hmore : ¬ c.Final m) :
    (c.take m).rest = (c.take m).upcoming.map (m :: ·) := by
  rw [take_of_not_final hm hmore]
  exact rest_of_not_done Phase.noConfusion

/-- The cursor has its next match to look for between two positions. -/
structure Scans (c : Cursor) (p : Pattern) (subject : Subject) (start stop : Nat) : Prop where
  pattern_eq : c.pattern.value = p
  subject_eq : c.subject.value = subject
  ready : c.phase = .ready
  position_eq : c.position = start
  stop_eq : c.stop = stop
  start_le : start ≤ stop
  stop_le : stop ≤ subject.size
  size_lt : subject.size < 2147483648

namespace Scans

variable {p : Pattern} {subject : Subject} {start stop : Nat}

theorem advance_eq (h : c.Scans p subject start stop) :
    c.advance = .ok (c.take (p.findIn subject start (stop - start))) := by
  obtain ⟨rfl, rfl, hready, hposition, hstop, hle, hsize, hlt⟩ := h
  have hlength : (stop : Int) - start = (stop - start : Nat) := by omega
  have hword : word ((stop - start : Nat) : Int) = (stop - start : Nat) :=
    word_eq_self (by omega) (by omega)
  have hinside : start + (stop - start) ≤ c.subject.value.size := by omega
  rw [advance, hready]
  simp only [hposition, hstop, hlength, hword]
  rw [Pattern.find_span _ hlt hinside]
  rfl

theorem upcoming_eq (h : c.Scans p subject start stop) :
    c.upcoming = (c.take (p.findIn subject start (stop - start))).rest := by
  rw [upcoming, h.advance_eq]
  rfl

theorem take {last : Nat} (h : c.Scans p subject start stop) (hlast : last ≤ stop)
    (hm : (m.stop : Int) = last) (hfound : m.found = true) (hmore : ¬ c.Final m) :
    (c.take m).Scans p subject last stop := by
  rw [take_of_not_final hfound hmore]
  exact ⟨h.pattern_eq, h.subject_eq, rfl, hm, h.stop_eq, hlast, h.stop_le, h.size_lt⟩

/-- A match that is found at once is the first of those to come. -/
theorem exists_later_of_found {found : List Match} (h : c.Scans p subject start stop)
    (hfound : c.upcoming = .ok found)
    (hfirst : (p.findIn subject start (stop - start)).found = true) :
    ∃ later, found = p.findIn subject start (stop - start) :: later := by
  rw [h.upcoming_eq] at hfound
  by_cases hfinal : c.Final (p.findIn subject start (stop - start))
  · rw [rest_take_of_final hfirst hfinal] at hfound
    exact ⟨[], (Except.ok.inj hfound).symm⟩
  · rw [rest_take_of_not_final hfirst hfinal] at hfound
    cases hlater : (c.take (p.findIn subject start (stop - start))).upcoming with
    | error e =>
      rw [hlater] at hfound
      cases hfound
    | ok later =>
      rw [hlater] at hfound
      exact ⟨later, (Except.ok.inj hfound).symm⟩

end Scans

end Cursor

namespace Pattern

open Tokens

variable {p : Pattern} {subject : Subject} {start stop length : Nat}

namespace Compiled

variable (hp : p.Compiled)

include hp

/-- A cursor goes through the successive earliest core spans. -/
theorem upcoming_anywhere (hmode : p.mode = .anywhere) (hcore : p.tokens.core p.format ≠ [])
    {c : Cursor} (hc : c.Scans p subject start stop) :
    ∃ ms, c.upcoming = .ok ms ∧
      Successive (p.tokens.CoreSpan p.format subject) stop start ms := by
  induction hleft : stop - start using Nat.strong_induction_on generalizing c start with
  | _ left ih =>
  have hstop : start + (stop - start) = stop := Nat.add_sub_cancel' hc.start_le
  have hfound := hp.findIn_anywhere hmode hcore (hstop.trans_le hc.stop_le)
  rw [hstop] at hfound
  rw [hc.upcoming_eq]
  rcases hfound with ⟨first, last, hfind, hearliest⟩ | ⟨hfind, hnone⟩
  · have hlt := hearliest.holds.lt hp.distinct hcore
    have hstart := hearliest.start_le
    have hlast := hearliest.le_stop
    have hend : (Match.covering first (last - first)).stop = last := by
      simp only [Match.stop, Match.start_covering, Match.length_covering]
      omega
    rw [hfind]
    by_cases hfinal : c.Final (.covering first (last - first))
    · have hreached : stop ≤ last := by
        rcases hfinal with h | h | h
        · rw [Match.length_covering] at h
          omega
        · rw [hc.pattern_eq, hmode] at h
          cases h
        · rw [hc.stop_eq, hend] at h
          omega
      refine ⟨_, Cursor.rest_take_of_final rfl hfinal, .next hearliest (.done ?_)⟩
      intro s e hs he hspan
      have := hspan.lt hp.distinct hcore
      omega
    · obtain ⟨ms, hms, hsuccessive⟩ :=
        ih (stop - last) (by omega) (hc.take hlast hend rfl hfinal) rfl
      rw [Cursor.rest_take_of_not_final rfl hfinal, hms]
      exact ⟨_, rfl, .next hearliest hsuccessive⟩
  · rw [hfind]
    exact ⟨[], Cursor.rest_take_of_missing rfl, .done hnone⟩

theorem upcoming_whole (hmode : p.mode = .whole) (hcore : p.tokens.core p.format ≠ [])
    {c : Cursor} (hc : c.Scans p subject start stop) :
    (subject.Span (p.tokens.language p.format) start stop →
        c.upcoming = .ok [.covering start (stop - start)]) ∧
      (¬ subject.Span (p.tokens.language p.format) start stop → c.upcoming = .ok []) := by
  have hsome : ∃ b ∈ p.format, b ≠ p.tokens.anything := by
    rw [ne_eq, Tokens.core_eq_nil_iff] at hcore
    push Not at hcore
    exact hcore
  have hstop : start + (stop - start) = stop := Nat.add_sub_cancel' hc.start_le
  have hfound := hp.findIn_whole hmode hsome (hstop.trans_le hc.stop_le)
  rw [hstop] at hfound
  have hwhole : c.pattern.value.mode = .whole := by rw [hc.pattern_eq, hmode]
  rw [hc.upcoming_eq]
  rcases hfound with ⟨hholds, hfind⟩ | ⟨hfails, hfind⟩
  · rw [hfind]
    exact ⟨fun _ => Cursor.rest_take_of_final rfl (.inr (.inl hwhole)), fun h => absurd hholds h⟩
  · rw [hfind]
    exact ⟨fun h => absurd h hfails, fun _ => Cursor.rest_take_of_missing rfl⟩

theorem upcoming_of_core_eq_nil (hcore : p.tokens.core p.format = []) {c : Cursor}
    (hc : c.Scans p subject start stop) : c.upcoming = .ok [.covering start 0] := by
  rw [hc.upcoming_eq, hp.findIn_of_forall_anything (Tokens.core_eq_nil_iff.mp hcore)]
  exact Cursor.rest_take_of_final rfl (.inl rfl)

theorem exists_upcoming {c : Cursor} (hc : c.Scans p subject start stop) :
    ∃ ms, c.upcoming = .ok ms := by
  by_cases hcore : p.tokens.core p.format = []
  · exact ⟨_, hp.upcoming_of_core_eq_nil hcore hc⟩
  · cases hmode : p.mode with
    | whole =>
      obtain ⟨hholds, hfails⟩ := hp.upcoming_whole hmode hcore hc
      by_cases hspan : subject.Span (p.tokens.language p.format) start stop
      · exact ⟨_, hholds hspan⟩
      · exact ⟨_, hfails hspan⟩
    | anywhere =>
      obtain ⟨ms, hms, -⟩ := hp.upcoming_anywhere hmode hcore hc
      exact ⟨ms, hms⟩

theorem upcoming_isPrefix (hmode : p.mode = .anywhere) {c c' : Cursor} {stop' : Nat}
    (hc : c.Scans p subject start stop) (hc' : c'.Scans p subject start stop')
    (hle : stop ≤ stop') :
    ∃ ms ms', c.upcoming = .ok ms ∧ c'.upcoming = .ok ms' ∧ ms <+: ms' := by
  by_cases hcore : p.tokens.core p.format = []
  · exact ⟨_, _, hp.upcoming_of_core_eq_nil hcore hc, hp.upcoming_of_core_eq_nil hcore hc',
      List.prefix_refl _⟩
  · obtain ⟨ms, hms, hsuccessive⟩ := hp.upcoming_anywhere hmode hcore hc
    obtain ⟨ms', hms', hsuccessive'⟩ := hp.upcoming_anywhere hmode hcore hc'
    exact ⟨ms, ms', hms, hms', hsuccessive.isPrefix hle hsuccessive'⟩

end Compiled
end Pattern
end Wildcard
