import Wildcard.Proofs.Enumeration

/-!
# The matches in a range

The matches of a pattern that may stand anywhere are as many as disjoint core spans can be, and those
of a longer range begin with those of a shorter one. Every range that lies in the subject has its
matches collected: going through them ends, and never fails.
-/

namespace Wildcard

namespace Sequence

def ofWindow (pattern : Held Pattern) (subject : Held Subject) (w : Window subject.value.size) :
    Sequence := ⟨pattern, subject, w.start, w.length⟩

theorem ofRange_eq_ok {pattern : Held Pattern} {subject : Held Subject} {range : Range}
    {w : Window subject.value.size} (h : range.resolve subject.value.size = .ok w) :
    ofRange pattern subject range = .ok (ofWindow pattern subject w) := by
  rw [ofRange, h]
  rfl

theorem collect_eq_upcoming (q : Sequence) : q.collect = q.cursor.upcoming := rfl

theorem scans_ofWindow (patternId subjectId : Nat) (p : Pattern) (subject : Subject)
    (w : Window subject.size) (hsize : subject.size < 2147483648) :
    (ofWindow ⟨patternId, p⟩ ⟨subjectId, subject⟩ w).cursor.Scans p subject w.start w.stop := by
  have hinside := w.inside
  have hword : word ((w.start : Int) + w.length) = w.stop := word_eq_self (by omega) (by omega)
  refine ⟨rfl, rfl, rfl, rfl, ?_, Nat.le_add_right _ _, hinside, hsize⟩
  simpa only [ofWindow, cursor] using hword

theorem exists_begin_done {q : Sequence} {ms : List Match} (h : q.collect = .ok ms) :
    ∃ c d, q.begin = .ok c ∧ c.advances ms.length = .ok d ∧ d.phase = .done := by
  rw [collect] at h
  cases hbegin : q.begin with
  | error e =>
    rw [hbegin] at h
    cases h
  | ok c =>
    rw [hbegin] at h
    obtain ⟨d, hadvances, hdone⟩ := Cursor.exists_advances_done h
    exact ⟨c, d, rfl, hadvances, hdone⟩

end Sequence

namespace Pattern

open Tokens

variable {p : Pattern}

theorem Compiled.findIn_of_longer (hp : p.Compiled) (hmode : p.mode = .anywhere) {subject : Subject}
    {start length length' : Nat} (hle : length ≤ length')
    (hstop : start + length' ≤ subject.size)
    (hfound : (p.findIn subject start length).found = true) :
    p.findIn subject start length' = p.findIn subject start length := by
  by_cases hcore : p.tokens.core p.format = []
  · have hall := Tokens.core_eq_nil_iff.mp hcore
    rw [hp.findIn_of_forall_anything hall, hp.findIn_of_forall_anything hall]
  · have hshort : start + length ≤ start + length' := Nat.add_le_add_left hle start
    rcases hp.findIn_anywhere hmode hcore (hshort.trans hstop) with
      ⟨first, last, hfind, hearliest⟩ | ⟨hfind, -⟩
    · rcases hp.findIn_anywhere hmode hcore hstop with
        ⟨first', last', hfind', hearliest'⟩ | ⟨-, hnone⟩
      · obtain ⟨rfl, rfl⟩ := hearliest.eq_of_longer hearliest' hshort
        rw [hfind, hfind']
      · exact absurd hearliest.holds
          (hnone first last hearliest.start_le (hearliest.le_stop.trans hshort))
    · rw [hfind] at hfound
      cases hfound

theorem allMatches_eq (p : Pattern) {subject : Subject} {range : Range} {w : Window subject.size}
    (h : range.resolve subject.size = .ok w) :
    p.allMatches subject range = (Sequence.ofWindow ⟨0, p⟩ ⟨0, subject⟩ w).cursor.upcoming := by
  have hrange : Sequence.ofRange ⟨0, p⟩ ⟨0, subject⟩ range =
      .ok (Sequence.ofWindow ⟨0, p⟩ ⟨0, subject⟩ w) := Sequence.ofRange_eq_ok h
  simp only [allMatches, hrange, Except.bind, Sequence.collect_eq_upcoming]

theorem exists_scans_all (p : Pattern) {subject : Subject}
    (hsize : subject.size < 2147483648) :
    ∃ c : Cursor, c.Scans p subject 0 subject.size ∧ p.allMatches subject .all = c.upcoming := by
  have hscans := Sequence.scans_ofWindow 0 0 p subject (Window.whole subject.size) hsize
  rw [Window.stop, Window.whole, Nat.zero_add] at hscans
  exact ⟨_, hscans, p.allMatches_eq (Range.resolve_all hsize)⟩

/-- Collecting the matches in a range ends with all of them: of a format that may stand anywhere the
successive earliest texts of its core, of a format that has to cover the range the whole range if it
does, and of a format of anything tokens only the empty match at the start. -/
theorem collect_enumerates {format : Bytes} {tokens : Tokens} (mode : Mode)
    (hcompilable : Compilable format tokens) :
    ∃ p, compile format mode tokens = .ok p ∧
      ∀ (patternId subjectId : Nat) (subject : Subject) (range : Range) (w : Window subject.size),
        range.resolve subject.size = .ok w →
        ∃ q c d ms, Sequence.ofRange ⟨patternId, p⟩ ⟨subjectId, subject⟩ range = .ok q ∧
          q.begin = .ok c ∧ c.advances ms.length = .ok d ∧ d.phase = .done ∧
          q.collect = .ok ms ∧
          (tokens.core format ≠ [] → mode = .anywhere →
            Successive (tokens.CoreSpan format subject) w.stop w.start ms ∧
            ms.Pairwise (fun a b => a.start < b.start ∧ a.stop ≤ b.start) ∧
            (∀ m ∈ ms, w.start ≤ m.start ∧ m.stop ≤ w.stop ∧ p.minWidth ≤ m.length) ∧
            ms.length * p.minWidth ≤ w.length) ∧
          (tokens.core format ≠ [] → mode = .whole →
            (tokens.Accepts format (subject.slice w.start w.length) →
              ms = [.covering w.start w.length]) ∧
            (¬ tokens.Accepts format (subject.slice w.start w.length) → ms = [])) ∧
          (tokens.core format = [] → ms = [.covering w.start 0]) := by
  obtain ⟨p, hcompile⟩ := hcompilable.exists_compiled mode
  obtain ⟨hp, rfl, rfl, rfl⟩ := compile_eq_ok_iff.mp hcompile
  refine ⟨p, hcompile, ?_⟩
  intro patternId subjectId subject range w hrange
  have hsize := (Range.accepted_of_resolve hrange).size_lt
  have hscans := Sequence.scans_ofWindow patternId subjectId p subject w hsize
  obtain ⟨ms, hms⟩ := hp.exists_upcoming hscans
  obtain ⟨c, d, hbegin, hadvances, hdone⟩ := Sequence.exists_begin_done hms
  refine ⟨_, c, d, ms, Sequence.ofRange_eq_ok hrange, hbegin, hadvances, hdone, hms, ?_, ?_, ?_⟩
  · intro hcore hmode
    obtain ⟨ms', hms', hsuccessive⟩ := hp.upcoming_anywhere hmode hcore hscans
    obtain rfl : ms = ms' := Except.ok.inj (hms.symm.trans hms')
    have hpos : ∀ s e, p.tokens.CoreSpan p.format subject s e → s < e :=
      fun s e h => h.lt hp.distinct hcore
    have hwidth : ∀ s e, p.tokens.CoreSpan p.format subject s e → s + p.minWidth ≤ e :=
      hp.minWidth_le_of_coreSpan hmode hcore
    have hlength := hsuccessive.length_mul_le hwidth
    rw [Nat.add_sub_cancel_left] at hlength
    exact ⟨hsuccessive, hsuccessive.pairwise hpos, hsuccessive.inside_of_mem hwidth, hlength⟩
  · intro hcore hmode
    obtain ⟨hholds, hfails⟩ := hp.upcoming_whole hmode hcore hscans
    simp only [Subject.span_add_iff w.inside, Nat.add_sub_cancel_left, hms,
      Except.ok.injEq] at hholds hfails
    exact ⟨hholds, hfails⟩
  · intro hcore
    exact Except.ok.inj (hms.symm.trans (hp.upcoming_of_core_eq_nil hcore hscans))

theorem collect_up_to_end :
    ∃ p, compile [42, 97] .anywhere {} = .ok p ∧
      ∃ q ms, Sequence.ofRange ⟨0, p⟩ ⟨0, #[120, 97, 98, 97]⟩ (.since 1) = .ok q ∧
        q.collect = .ok ms ∧ ∃ rest, ms = .covering 1 1 :: rest ∧ rest ≠ [] := by
  obtain ⟨p, hp, h⟩ := @collect_enumerates [42, 97] {} .anywhere (by decide)
  have hresolve : (Range.since 1).resolve 4 = .ok ⟨1, 3, by decide⟩ := rfl
  obtain ⟨q, -, -, ms, hq, -, -, -, hms, hholds, -⟩ :=
    h 0 0 #[120, 97, 98, 97] (.since 1) _ hresolve
  obtain ⟨hsuccessive, -⟩ := hholds (by decide) rfl
  refine ⟨p, hp, q, ms, hq, hms, ?_⟩
  have htext : ({} : Tokens).Accepts [97] [97] := .literal (by decide) (by decide) .nil
  have hone : ({} : Tokens).CoreSpan [42, 97] #[120, 97, 98, 97] 1 2 :=
    ⟨by decide, by decide, htext⟩
  have htwo : ({} : Tokens).CoreSpan [42, 97] #[120, 97, 98, 97] 3 4 :=
    ⟨by decide, by decide, htext⟩
  cases hsuccessive with
  | done hnone => exact absurd hone (hnone 1 2 (by decide) (by decide))
  | @next _ first last rest hearliest hrest =>
    have hstart : 1 ≤ first := hearliest.start_le
    have hleast := hearliest.least 1 2 (by decide) (by decide) hone
    have hlt := hearliest.holds.lt (by decide) (by decide)
    obtain ⟨rfl, rfl⟩ : first = 1 ∧ last = 2 := by omega
    refine ⟨rest, rfl, ?_⟩
    rintro rfl
    cases hrest with
    | done hnone => exact hnone 3 4 (by decide) (by decide) htwo

/-- No family of disjoint core spans in the range has more members than there are matches, which are
such a family. -/
theorem isGreatest_length_allMatches {format : Bytes} {tokens : Tokens}
    (hcompilable : Compilable format tokens) (hcore : tokens.core format ≠ []) :
    ∃ p, compile format .anywhere tokens = .ok p ∧
      ∀ (subject : Subject) (range : Range) (w : Window subject.size),
        range.resolve subject.size = .ok w →
        ∃ ms, p.allMatches subject range = .ok ms ∧
          IsGreatest {n | ∃ family : Finset (Nat × Nat),
            IsPacking (tokens.CoreSpan format subject) w.start w.stop family ∧
              family.card = n} ms.length := by
  obtain ⟨p, hcompile⟩ := hcompilable.exists_compiled .anywhere
  obtain ⟨hp, rfl, hmode, rfl⟩ := compile_eq_ok_iff.mp hcompile
  refine ⟨p, hcompile, ?_⟩
  intro subject range w hrange
  have hsize := (Range.accepted_of_resolve hrange).size_lt
  obtain ⟨ms, hms, hsuccessive⟩ :=
    hp.upcoming_anywhere hmode hcore (Sequence.scans_ofWindow 0 0 p subject w hsize)
  refine ⟨ms, ?_, hsuccessive.isGreatest_card fun s e h => h.lt hp.distinct hcore⟩
  rw [p.allMatches_eq hrange, hms]

theorem length_allMatches_of_overlapping :
    ∃ p, compile [97, 63, 97] .anywhere {} = .ok p ∧
      ∃ ms, p.allMatches #[97, 97, 97, 97, 97, 97, 97] (.span 0 7) = .ok ms ∧
        2 ≤ ms.length := by
  obtain ⟨p, hp, h⟩ := @isGreatest_length_allMatches [97, 63, 97] {} (by decide) (by decide)
  have hresolve : (Range.span 0 7).resolve 7 = .ok ⟨0, 7, by decide⟩ := rfl
  obtain ⟨ms, hms, -, hgreatest⟩ :=
    h #[97, 97, 97, 97, 97, 97, 97] (.span 0 7) _ hresolve
  have htext : ({} : Tokens).Accepts [97, 63, 97] [97, 97, 97] :=
    .literal (by decide) (by decide) (.unknown 97 (.literal (by decide) (by decide) .nil))
  refine ⟨p, hp, ms, hms, hgreatest ⟨{(1, 4), (4, 7)}, ⟨?_, ?_, ?_⟩, rfl⟩⟩
  · intro a ha b hb hne
    simp only [Finset.coe_insert, Finset.coe_singleton, Set.mem_insert_iff,
      Set.mem_singleton_iff] at ha hb
    rcases ha with rfl | rfl <;> rcases hb with rfl | rfl
    · exact absurd rfl hne
    · decide
    · decide
    · exact absurd rfl hne
  · decide
  · intro span hspan
    simp only [Finset.mem_insert, Finset.mem_singleton] at hspan
    rcases hspan with rfl | rfl
    · exact ⟨by decide, by decide, htext⟩
    · exact ⟨by decide, by decide, htext⟩

/-- A match stays the match when the range grows to the right, and all matches stay the first ones. -/
theorem stable_of_longer {format : Bytes} {tokens : Tokens} (hcompilable : Compilable format tokens) :
    ∃ p, compile format .anywhere tokens = .ok p ∧
      ∀ (subject : Subject) (start length length' : Int),
        (Range.span start length).Accepted subject.size →
        (Range.span start length').Accepted subject.size → length ≤ length' →
        ∃ m m' ms ms', p.find subject (.span start length) = .ok m ∧
          p.find subject (.span start length') = .ok m' ∧ (m.found = true → m' = m) ∧
          p.allMatches subject (.span start length) = .ok ms ∧
          p.allMatches subject (.span start length') = .ok ms' ∧ ms <+: ms' := by
  obtain ⟨p, hcompile⟩ := hcompilable.exists_compiled .anywhere
  obtain ⟨hp, rfl, hmode, rfl⟩ := compile_eq_ok_iff.mp hcompile
  refine ⟨p, hcompile, ?_⟩
  intro subject start length length' haccepted haccepted' hle
  have hsize := haccepted.size_lt
  obtain ⟨hstart, hlength, -⟩ := haccepted.bounds
  obtain ⟨-, hlength', hinside⟩ := haccepted'.bounds
  lift start to Nat using hstart
  lift length to Nat using hlength
  lift length' to Nat using hlength'
  have hstop' : start + length' ≤ subject.size := by omega
  have hstop : start + length ≤ subject.size := by omega
  have hlonger : start + length ≤ start + length' := by omega
  obtain ⟨ms, ms', hms, hms', hprefix⟩ := hp.upcoming_isPrefix hmode
    (Sequence.scans_ofWindow 0 0 p subject ⟨start, length, hstop⟩ hsize)
    (Sequence.scans_ofWindow 0 0 p subject ⟨start, length', hstop'⟩ hsize) hlonger
  rw [← p.allMatches_eq (Range.resolve_span hsize hstop)] at hms
  rw [← p.allMatches_eq (Range.resolve_span hsize hstop')] at hms'
  exact ⟨_, _, ms, ms', find_span p hsize hstop, find_span p hsize hstop',
    hp.findIn_of_longer hmode (by omega) hstop', hms, hms', hprefix⟩

theorem stable_before_second_end :
    ∃ p, compile [97, 42, 98] .anywhere {} = .ok p ∧
      ∃ m ms ms', m.found = true ∧ p.find #[120, 97, 120, 98, 98] (.span 0 4) = .ok m ∧
        p.find #[120, 97, 120, 98, 98] (.span 0 5) = .ok m ∧
        p.allMatches #[120, 97, 120, 98, 98] (.span 0 4) = .ok ms ∧
        p.allMatches #[120, 97, 120, 98, 98] (.span 0 5) = .ok ms' ∧ ms <+: ms' := by
  obtain ⟨p, hp, h⟩ := @stable_of_longer [97, 42, 98] {} (by decide)
  obtain ⟨m, m', ms, ms', hm, hm', hsame, hms, hms', hprefix⟩ :=
    h #[120, 97, 120, 98, 98] 0 4 5 (by decide) (by decide) (by decide)
  obtain ⟨hcompiled, hformat, hmode, htokens⟩ := compile_eq_ok_iff.mp hp
  have hinside : 0 + 4 ≤ #[120, 97, 120, 98, 98].size := by decide
  obtain rfl : p.findIn #[120, 97, 120, 98, 98] 0 4 = m :=
    Except.ok.inj ((p.find_span (by decide) hinside).symm.trans hm)
  have htext : ({} : Tokens).Accepts [97, 42, 98] [97, 120, 98] :=
    .literal (by decide) (by decide) (.anything [120] (.literal (by decide) (by decide) .nil))
  have hfound : (p.findIn #[120, 97, 120, 98, 98] 0 4).found = true := by
    rw [hcompiled.findIn_found_iff hinside, hformat, hmode, htokens]
    exact ⟨by decide, by decide, [120], [97, 120, 98], [], by decide, htext⟩
  exact ⟨p, hp, _, ms, ms', hfound, hm, (hsame hfound) ▸ hm', hms, hms', hprefix⟩

end Pattern
end Wildcard
