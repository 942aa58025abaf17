import Wildcard.Proofs.Sessions

/-!
# When a range is refused

A query fails just if its range lies outside the subject by exact numbers, though positions and
lengths are words of 32 bits: the check takes a difference that is always a word, and not a sum that
may wrap around. A sequence that is taken without a check fails in the same cases when a cursor
begins on it. A cursor that has begun stays inside the subject, so neither it nor any copy of it
fails later.
-/

namespace Wildcard

namespace Range

variable {size : Nat} {start length : Int}

theorem not_accepted_iff (hsize : size < 2147483648) (range : Range) :
    ¬ range.Accepted size ↔ range.Outside size := by
  rw [accepted_iff, and_iff_right hsize, Decidable.not_not]

/-- Computed in words the check of a span is exact, since the length is known to be no less than 0
before it is taken off the size. -/
theorem outside_span_iff_of_words (hsize : size < 2147483648) (hlength : IsWord length) :
    (Range.span start length).Outside size ↔
      start < 0 ∨ length < 0 ∨ word (size - length) < start := by
  obtain ⟨-, hlt⟩ := hlength
  by_cases hneg : length < 0
  · exact iff_of_true (.inr (.inl hneg)) (.inr (.inl hneg))
  · rw [word_eq_self (by omega) (by omega), Outside]
    omega

end Range

theorem map_fails_iff {ε α β : Type} {outcome : Except ε α} {f : α → β} :
    (∃ e, outcome.map f = .error e) ↔ ∃ e, outcome = .error e := by
  cases outcome <;> simp [Except.map]

namespace Cursor

variable {c d : Cursor}

/-- A cursor that is ready to look for a match looks in a part of its subject. -/
structure InBounds (c : Cursor) : Prop where
  size_lt : c.subject.value.size < 2147483648
  window : c.phase = .ready →
    0 ≤ c.position ∧ c.position ≤ c.stop ∧ c.stop ≤ c.subject.value.size

theorem position_take_of_ready (c : Cursor) (m : Match) (hready : (c.take m).phase = .ready) :
    (c.take m).stop = c.stop ∧ 0 ≤ (c.take m).position ∧ (c.take m).position < c.stop := by
  cases hm : m.found with
  | false => simp [take, hm] at hready
  | true =>
    by_cases hfinal : c.Final m
    · rw [(take_of_final hm hfinal).2] at hready
      cases hready
    · rw [take_of_not_final hm hfinal]
      simp only [Final, not_or, Int.not_le] at hfinal
      obtain ⟨start, length?⟩ := m
      cases length? with
      | none => cases hm
      | some n =>
        refine ⟨rfl, ?_, hfinal.2.2⟩
        simp only [Match.stop, Match.length]
        omega

/-- Advancing a cursor in bounds never fails and leaves it in bounds. -/
theorem InBounds.advance (h : c.InBounds) : ∃ d, c.advance = .ok d ∧ d.InBounds := by
  have hsize := h.size_lt
  cases hphase : c.phase with
  | done => exact ⟨c, advance_of_done hphase, h⟩
  | last =>
    exact ⟨{ c with phase := .done }, by rw [Cursor.advance, hphase], hsize, Phase.noConfusion⟩
  | ready =>
    obtain ⟨hposition, hle, hstop⟩ := h.window hphase
    have hword : word (c.stop - c.position) = c.stop - c.position :=
      word_eq_self (by omega) (by omega)
    have hinside :
        ¬ (Range.span c.position (c.stop - c.position)).Outside c.subject.value.size := by
      rw [Range.Outside]
      omega
    cases hrange : (Range.span c.position (c.stop - c.position)).resolve
        c.subject.value.size with
    | error e => exact absurd ⟨hsize, hinside⟩ ((Range.resolve_fails_iff _).mp ⟨e, hrange⟩)
    | ok w =>
      refine ⟨c.take (c.pattern.value.findIn c.subject.value w.start w.length), ?_, ?_, ?_⟩
      · simp only [Cursor.advance, hphase, hword, Pattern.find, hrange]
        rfl
      · rwa [take_subject]
      · intro hready
        obtain ⟨hsame, hge, hlt⟩ := position_take_of_ready c _ hready
        rw [take_subject, hsame]
        exact ⟨hge, Int.le_of_lt hlt, hstop⟩

theorem InBounds.advances (h : c.InBounds) (n : Nat) : ∃ d, c.advances n = .ok d ∧ d.InBounds := by
  induction n generalizing c with
  | zero => exact ⟨c, rfl, h⟩
  | succ n ih =>
    obtain ⟨d, hadvance, hd⟩ := h.advance
    obtain ⟨e, hadvances, he⟩ := ih hd
    exact ⟨e, by rw [Cursor.advances, hadvance]; exact hadvances, he⟩

theorem InBounds.exists_rest (h : c.InBounds) : ∃ ms, c.rest = .ok ms := by
  induction hweight : c.weight using Nat.strong_induction_on generalizing c with
  | _ weight ih =>
    by_cases hdone : c.phase = .done
    · exact ⟨[], rest_of_done hdone⟩
    · obtain ⟨d, hadvance, hd⟩ := h.advance
      obtain ⟨ms, hms⟩ := ih d.weight (hweight ▸ weight_advance_lt hdone hadvance) hd rfl
      refine ⟨c.current :: ms, ?_⟩
      rw [rest_of_not_done hdone, upcoming, hadvance]
      exact congrArg (Except.map (c.current :: ·)) hms

end Cursor

namespace Sequence

variable {q : Sequence}

/-- The sum of start and length may wrap around, but what is left of it behind the start is the
length. -/
theorem begin_eq (q : Sequence) (hlength : IsWord q.length) :
    q.begin = (q.pattern.value.find q.subject.value (.span q.start q.length)).map q.cursor.take := by
  have hleft := word_add_sub q.start hlength.1 hlength.2
  simp only [begin, Cursor.advance, cursor, hleft]

theorem begin_fails_iff (hlength : IsWord q.length) :
    (∃ e, q.begin = .error e) ↔
      ¬ (Range.span q.start q.length).Accepted q.subject.value.size := by
  rw [begin_eq q hlength, map_fails_iff, Pattern.find, map_fails_iff, Range.resolve_fails_iff]

theorem inBounds_cursor (h : (Range.span q.start q.length).Accepted q.subject.value.size) :
    q.cursor.InBounds := by
  have hsize := h.size_lt
  obtain ⟨hstart, hlength, hinside⟩ := h.bounds
  have hstop : word (q.start + q.length) = q.start + q.length :=
    word_eq_self (by omega) (by omega)
  refine ⟨hsize, fun _ => ?_⟩
  simp only [cursor, hstop]
  omega

theorem inBounds_of_begin (hlength : IsWord q.length) {c : Cursor} (h : q.begin = .ok c) :
    c.InBounds := by
  have haccepted : (Range.span q.start q.length).Accepted q.subject.value.size := by
    by_contra hrefused
    obtain ⟨e, he⟩ := (begin_fails_iff hlength).mpr hrefused
    rw [h] at he
    cases he
  obtain ⟨d, hd, hbounds⟩ := (inBounds_cursor haccepted).advance
  obtain rfl : c = d := Except.ok.inj (h.symm.trans hd)
  exact hbounds

theorem ofRange_fails_iff (pattern : Held Pattern) (subject : Held Subject) (range : Range) :
    (∃ e, ofRange pattern subject range = .error e) ↔ ¬ range.Accepted subject.value.size := by
  rw [ofRange, map_fails_iff, Range.resolve_fails_iff]

end Sequence

namespace Session

variable {s : Session}

/-- The cursors of a session are in bounds, and its sequences are over numbers that are words. -/
structure InBounds (s : Session) : Prop where
  subjects : ∀ t ∈ s.subjects, t.size < 2147483648
  sequences : ∀ q ∈ s.sequences, q.subject.value.size < 2147483648 ∧ IsWord q.length
  cursors : ∀ c ∈ s.cursors, c.InBounds

def TakesWords : Step → Prop
  | .unchecked _ _ start length => IsWord start ∧ IsWord length
  | _ => True

namespace InBounds

variable (h : s.InBounds)

include h

theorem held_size_lt {i : Nat} {t : Held Subject} (ht : held s.subjects i = some t) :
    t.value.size < 2147483648 := by
  obtain ⟨text, htext, rfl⟩ := Option.map_eq_some_iff.mp ht
  exact h.subjects text (List.mem_of_getElem? htext)

theorem addSequence {q : Sequence} (hsize : q.subject.value.size < 2147483648)
    (hlength : IsWord q.length) : (s.addSequence q).2.InBounds := by
  refine ⟨h.subjects, fun r hr => ?_, h.cursors⟩
  rcases List.mem_append.mp hr with hr | hr
  · exact h.sequences r hr
  · obtain rfl := List.mem_singleton.mp hr
    exact ⟨hsize, hlength⟩

theorem addCursor {c : Cursor} (hc : c.InBounds) : (s.addCursor c).2.InBounds := by
  refine ⟨h.subjects, h.sequences, fun d hd => ?_⟩
  rcases List.mem_append.mp hd with hd | hd
  · exact h.cursors d hd
  · exact List.mem_singleton.mp hd ▸ hc

theorem set {i : Nat} {c : Cursor} (hc : c.InBounds) :
    InBounds { s with cursors := s.cursors.set i c } := by
  refine ⟨h.subjects, h.sequences, fun d hd => ?_⟩
  rcases List.mem_or_eq_of_mem_set hd with hd | rfl
  · exact h.cursors d hd
  · exact hc

theorem advance {i : Nat} {c : Cursor} (hc : s.cursors[i]? = some c) :
    ∃ d, c.advance = .ok d ∧ d.InBounds :=
  (h.cursors c (List.mem_of_getElem? hc)).advance

theorem step {t : Step} (ht : TakesWords t) : (s.step t).2.InBounds := by
  let P (s' : Session) : Prop := s'.InBounds
  cases t with
  | sequence pattern subject range =>
    refine orUnknown_snd (P := P) h fun p _ => orUnknown_snd (P := P) h fun text htext => ?_
    refine orOutside_snd (P := P) h fun q hq => ?_
    have hsize := h.held_size_lt htext
    cases hrange : range.resolve text.value.size with
    | error e =>
      rw [Sequence.ofRange, hrange] at hq
      cases hq
    | ok w =>
      rw [Sequence.ofRange_eq_ok hrange] at hq
      cases hq
      have hinside := w.inside
      refine h.addSequence hsize ?_
      simp only [Sequence.ofWindow, IsWord]
      omega
  | unchecked pattern subject start length =>
    refine orUnknown_snd (P := P) h fun p _ => orUnknown_snd (P := P) h fun text htext => ?_
    exact h.addSequence (h.held_size_lt htext) ht.2
  | begin i =>
    refine orUnknown_snd (P := P) h fun q hq => orOutside_snd (P := P) h fun c hc => ?_
    obtain ⟨-, hlength⟩ := h.sequences q (List.mem_of_getElem? hq)
    exact h.addCursor (Sequence.inBounds_of_begin hlength hc)
  | finish i =>
    refine orUnknown_snd (P := P) h fun q hq => h.addCursor ?_
    exact ⟨(h.sequences q (List.mem_of_getElem? hq)).1, Phase.noConfusion⟩
  | copy i =>
    exact orUnknown_snd (P := P) h fun c hc => h.addCursor (h.cursors c (List.mem_of_getElem? hc))
  | advance i =>
    refine orUnknown_snd (P := P) h fun c hc => orOutside_snd (P := P) h fun d hd => ?_
    obtain ⟨d', hadvance, hbounds⟩ := h.advance hc
    obtain rfl : d = d' := Except.ok.inj (hd.symm.trans hadvance)
    exact h.set hbounds
  | advanceKeeping i =>
    refine orUnknown_snd (P := P) h fun c hc => orOutside_snd (P := P) h fun d hd => ?_
    obtain ⟨d', hadvance, hbounds⟩ := h.advance hc
    obtain rfl : d = d' := Except.ok.inj (hd.symm.trans hadvance)
    exact (h.set hbounds).addCursor (h.cursors c (List.mem_of_getElem? hc))
  | collect i => exact orUnknown_snd (P := P) h fun q _ => orOutside_snd (P := P) h fun ms _ => h
  | current i => exact orUnknown_snd (P := P) h fun c _ => h
  | isDone i => exact orUnknown_snd (P := P) h fun c _ => h
  | same i j =>
    exact orUnknown_snd (P := P) h fun c _ => orUnknown_snd (P := P) h fun d _ => h

omit h in
theorem run {steps : List Step} (h : s.InBounds) (hsteps : ∀ t ∈ steps, TakesWords t) :
    (s.run steps).2.InBounds := by
  induction steps generalizing s with
  | nil => exact h
  | cons t rest ih =>
    rw [List.forall_mem_cons] at hsteps
    exact ih (h.step hsteps.1) hsteps.2

theorem advance_answer_ne (i : Nat) (e : RangeError) :
    (s.step (.advance i)).1 ≠ .outside e ∧ (s.step (.advanceKeeping i)).1 ≠ .outside e := by
  simp only [Session.step]
  cases hc : s.cursors[i]? with
  | none => simp [orUnknown]
  | some c =>
    obtain ⟨d, hadvance, -⟩ := h.advance hc
    simp [orUnknown, orOutside, hadvance]

end InBounds
end Session

namespace Pattern

/-- Queries of a subject fail just if their range lies outside it, at once and not later. -/
structure FailsOutside (p : Pattern) (subject : Subject) : Prop where
  find_iff : ∀ range : Range, (∃ e, p.find subject range = .error e) ↔ range.Outside subject.size
  isMatch_iff : ∀ range : Range,
    (∃ e, p.isMatch subject range = .error e) ↔ range.Outside subject.size
  /-- A checked sequence fails when it is made, or else it can be collected. -/
  matches_iff : ∀ (i j : Nat) (range : Range),
    ((∃ e, Sequence.ofRange ⟨i, p⟩ ⟨j, subject⟩ range = .error e) ↔ range.Outside subject.size) ∧
      (¬ range.Outside subject.size →
        ∃ q ms, Sequence.ofRange ⟨i, p⟩ ⟨j, subject⟩ range = .ok q ∧ q.collect = .ok ms)
  since_eq : ∀ start : Int, ¬ (Range.since start).Outside subject.size →
    p.find subject (.since start) = p.find subject (.span start (subject.size - start)) ∧
      p.isMatch subject (.since start) = p.isMatch subject (.span start (subject.size - start)) ∧
      ∀ i j : Nat, Sequence.ofRange ⟨i, p⟩ ⟨j, subject⟩ (.since start) =
        Sequence.ofRange ⟨i, p⟩ ⟨j, subject⟩ (.span start (subject.size - start))
  /-- The check of a span may be computed in words. -/
  exact_in_words : ∀ start length : Int, IsWord start → IsWord length →
    ((Range.span start length).Outside subject.size ↔
      start < 0 ∨ length < 0 ∨ word (subject.size - length) < start)
  /-- An unchecked sequence fails in the same cases when a cursor begins, and never later. -/
  begin_iff : ∀ (i j : Nat) (start length : Int), IsWord start → IsWord length →
    let q : Sequence := ⟨⟨i, p⟩, ⟨j, subject⟩, start, length⟩
    ((∃ e, q.begin = .error e) ↔ (Range.span start length).Outside subject.size) ∧
      ∀ c, q.begin = .ok c → ∀ n, ∃ d, c.advances n = .ok d

theorem exists_collect (p : Pattern) {subject : Subject} (i j : Nat) {range : Range}
    (haccepted : range.Accepted subject.size) :
    ∃ q ms, Sequence.ofRange ⟨i, p⟩ ⟨j, subject⟩ range = .ok q ∧ q.collect = .ok ms := by
  cases hrange : range.resolve subject.size with
  | error e => exact absurd haccepted ((Range.resolve_fails_iff range).mp ⟨e, hrange⟩)
  | ok w =>
    have hw := w.inside
    have hwindow : (Range.span w.start w.length).Accepted subject.size := by
      refine ⟨haccepted.size_lt, ?_⟩
      rw [Range.Outside]
      omega
    obtain ⟨c, hbegin, hc⟩ :=
      (Sequence.inBounds_cursor (q := .ofWindow ⟨i, p⟩ ⟨j, subject⟩ w) hwindow).advance
    obtain ⟨ms, hms⟩ := hc.exists_rest
    refine ⟨_, ms, Sequence.ofRange_eq_ok hrange, ?_⟩
    rw [Sequence.collect, Sequence.begin, hbegin]
    exact hms

theorem failsOutside (p : Pattern) {subject : Subject} (hsize : subject.size < 2147483648) :
    p.FailsOutside subject where
  find_iff range := by
    rw [find, map_fails_iff, Range.resolve_fails_iff, Range.not_accepted_iff hsize]
  isMatch_iff range := by
    rw [isMatch, map_fails_iff, find, map_fails_iff, Range.resolve_fails_iff,
      Range.not_accepted_iff hsize]
  matches_iff i j range := by
    refine ⟨?_, fun hinside => p.exists_collect i j ⟨hsize, hinside⟩⟩
    rw [Sequence.ofRange_fails_iff, Range.not_accepted_iff hsize]
  since_eq start hstart := by
    have hresolve := Range.resolve_since hstart
    have hfind : p.find subject (.since start) =
        p.find subject (.span start (subject.size - start)) := by rw [find, find, hresolve]
    refine ⟨hfind, by rw [isMatch, isMatch, hfind], fun i j => ?_⟩
    rw [Sequence.ofRange, Sequence.ofRange, hresolve]
  exact_in_words start length _ hlength := Range.outside_span_iff_of_words hsize hlength
  begin_iff i j start length _ hlength := by
    refine ⟨?_, fun c hc n => ?_⟩
    · exact (Sequence.begin_fails_iff hlength).trans (Range.not_accepted_iff hsize _)
    obtain ⟨d, hadvances, -⟩ := (Sequence.inBounds_of_begin hlength hc).advances n
    exact ⟨d, hadvances⟩

/-- Ranges are refused just if they lie outside the subject. Whatever is done in a session, with
cursors begun on checked or unchecked sequences, copied and advanced in any order, no advance
fails. -/
theorem fails_only_outside (p : Pattern) {subject : Subject} (hsize : subject.size < 2147483648) :
    p.FailsOutside subject ∧
      ∀ (patterns : List Pattern) (subjects : List Subject) (steps : List Step),
        (∀ t ∈ subjects, t.size < 2147483648) → (∀ t ∈ steps, Session.TakesWords t) →
        ∀ (i : Nat) (e : RangeError),
          let s := ((Session.fresh patterns subjects).run steps).2
          (s.step (.advance i)).1 ≠ .outside e ∧ (s.step (.advanceKeeping i)).1 ≠ .outside e := by
  refine ⟨p.failsOutside hsize, ?_⟩
  intro patterns subjects steps hsizes hsteps i e
  have hfresh : (Session.fresh patterns subjects).InBounds :=
    ⟨hsizes, by simp [Session.fresh], by simp [Session.fresh]⟩
  exact (hfresh.run hsteps).advance_answer_ne i e

/-- A length that makes the sum wrap around is refused when a cursor begins, while a cursor over the
end of the subject and a copy of it, made behind its first match, run to their ends. -/
theorem fails_only_outside_of_wrapped_sum :
    ∃ p, compile [97] .anywhere {} = .ok p ∧ word (2 + 2147483647) < 0 ∧
      (∃ e, Sequence.begin ⟨⟨0, p⟩, ⟨0, #[97, 98, 97]⟩, 2, 2147483647⟩ = .error e) ∧
      (∀ c, Sequence.begin ⟨⟨0, p⟩, ⟨0, #[97, 98, 97]⟩, 1, 2⟩ = .ok c →
        ∃ d, c.advances 3 = .ok d) ∧
      ∀ e, ((((Session.fresh [p] [#[97, 98, 97]]).run
        [.unchecked 0 0 0 3, .begin 0, .advance 0, .copy 0]).2).step (.advance 1)).1 ≠
          .outside e := by
  obtain ⟨p, hcompile⟩ := @Compilable.exists_compiled [97] {} (by decide) .anywhere
  obtain ⟨hfails, hsession⟩ := @fails_only_outside p #[97, 98, 97] (by decide)
  have hwords : IsWord 0 ∧ IsWord 1 ∧ IsWord 2 ∧ IsWord 3 ∧ IsWord 2147483647 := by
    simp [IsWord]
  obtain ⟨hzero, hone, htwo, hthree, hlong⟩ := hwords
  refine ⟨p, hcompile, by decide, ?_, ?_, ?_⟩
  · exact (hfails.begin_iff 0 0 2 2147483647 htwo hlong).1.mpr (.inr (.inr (by decide)))
  · exact fun c hc => (hfails.begin_iff 0 0 1 2 hone htwo).2 c hc 3
  · intro e
    have hsteps : ∀ t ∈ [Step.unchecked 0 0 0 3, .begin 0, .advance 0, .copy 0],
        Session.TakesWords t := by
      simp [Session.TakesWords, hzero, hthree]
    exact (hsession [p] [#[97, 98, 97]] _ (by decide) hsteps 1 e).1

end Pattern
end Wildcard
