import Wildcard.Proofs.Positions
import Wildcard.Session

/-!
# Sessions of cursors

In a session cursors are begun, copied, advanced and compared in any order. What a cursor shows
depends on where it comes from only: the sequence that it, or the cursor it was copied from, was begun
on, and the number of its advances since.
-/

namespace Wildcard

/-- Where a cursor of a session comes from: a sequence by its number with the advances made since it
was begun, or the end of a sequence. -/
inductive Origin
  | begun (sequence advances : Nat)
  | finished
  deriving DecidableEq, Repr

def Origin.next : Origin → Origin
  | .begun sequence advances => .begun sequence (advances + 1)
  | .finished => .finished

namespace Step

def InRange (subjects : List Subject) : Step → Prop
  | .unchecked _ subject start length =>
    ∀ text, subjects[subject]? = some text → 0 ≤ start ∧ 0 ≤ length ∧ start + length ≤ text.size
  | _ => True

end Step

namespace Session

def trace (s : Session) (origins : List Origin) : Step → List Origin
  | .begin i => origins ++ s.sequences[i]?.toList.map fun _ => .begun i 0
  | .finish i => origins ++ s.sequences[i]?.toList.map fun _ => .finished
  | .copy i => origins ++ origins[i]?.toList
  | .advance i => origins.modify i Origin.next
  | .advanceKeeping i => origins.modify i Origin.next ++ origins[i]?.toList
  | _ => origins

def traces (s : Session) (origins : List Origin) : List Step → List Origin
  | [] => origins
  | t :: rest => (s.step t).2.traces (s.trace origins t) rest

def ComesFrom (sequences : List Sequence) (c : Cursor) : Origin → Prop
  | .begun i advances => ∃ q ms, sequences[i]? = some q ∧ q.collect = .ok ms ∧
      c.pattern = q.pattern ∧ c.subject = q.subject ∧ c.StandsAt ms advances
  | .finished => c.phase = .done

/-- The cursors of a session stand where their origins say, and its sequences can be collected. -/
structure Follows (s : Session) (origins : List Origin) : Prop where
  patterns : ∀ p ∈ s.patterns, p.Compiled
  subjects : ∀ t ∈ s.subjects, t.size < 2147483648
  sequences : ∀ q ∈ s.sequences, q.Listed
  cursors : List.Forall₂ (ComesFrom s.sequences) s.cursors origins

variable {s : Session} {origins : List Origin} {c d : Cursor} {o : Origin} {q : Sequence}

theorem ComesFrom.mono {sequences : List Sequence} (h : ComesFrom sequences c o)
    (added : Sequence) : ComesFrom (sequences ++ [added]) c o := by
  cases o with
  | finished => exact h
  | begun i advances =>
    obtain ⟨q, ms, hq, hrest⟩ := h
    refine ⟨q, ms, ?_, hrest⟩
    rw [List.getElem?_append_left (List.getElem?_eq_some_iff.mp hq).1, hq]

theorem ComesFrom.advance {sequences : List Sequence} (h : ComesFrom sequences c o) :
    ∃ d, c.advance = .ok d ∧ ComesFrom sequences d o.next := by
  cases o with
  | finished => exact ⟨c, Cursor.advance_of_done h, h⟩
  | begun i advances =>
    obtain ⟨q, ms, hq, hms, hpattern, hsubject, hstands⟩ := h
    obtain ⟨d, hadvance, hnext⟩ := hstands.advance
    exact ⟨d, hadvance, q, ms, hq, hms, (Cursor.advance_pattern hadvance).trans hpattern,
      (Cursor.advance_subject hadvance).trans hsubject, hnext⟩

theorem forall₂_getElem?_cases {α β : Type} {R : α → β → Prop} {xs : List α} {ys : List β}
    (h : List.Forall₂ R xs ys) (i : Nat) :
    (xs[i]? = none ∧ ys[i]? = none) ∨ ∃ x y, xs[i]? = some x ∧ ys[i]? = some y ∧ R x y := by
  induction h generalizing i with
  | nil => exact .inl ⟨rfl, rfl⟩
  | @cons x y xs ys hxy _ ih =>
    cases i with
    | zero => exact .inr ⟨x, y, rfl, rfl, hxy⟩
    | succ i => exact ih i

theorem forall₂_set_modify {α β : Type} {R : α → β → Prop} {xs : List α} {ys : List β}
    (h : List.Forall₂ R xs ys) {i : Nat} {x : α} {f : β → β} (hx : ∀ y, ys[i]? = some y → R x (f y)) :
    List.Forall₂ R (xs.set i x) (ys.modify i f) := by
  induction h generalizing i with
  | nil => simp
  | @cons x' y xs ys hxy hrest ih =>
    cases i with
    | zero => exact .cons (hx y rfl) hrest
    | succ i => exact .cons hxy (ih hx)

namespace Follows

theorem addCursor (h : s.Follows origins) (hc : ComesFrom s.sequences c o) :
    (s.addCursor c).2.Follows (origins ++ [o]) :=
  ⟨h.patterns, h.subjects, h.sequences, List.rel_append h.cursors (.cons hc .nil)⟩

theorem addSequence (h : s.Follows origins) (hq : q.Listed) :
    (s.addSequence q).2.Follows origins := by
  refine ⟨h.patterns, h.subjects, ?_, h.cursors.imp fun c o hc => hc.mono q⟩
  intro r hr
  rcases List.mem_append.mp hr with hr | hr
  · exact h.sequences r hr
  · rw [List.mem_singleton] at hr
    exact hr ▸ hq

theorem listed (h : s.Follows origins) {i j : Nat} {pattern : Held Pattern} {subject : Held Subject}
    (hpattern : held s.patterns i = some pattern) (hsubject : held s.subjects j = some subject)
    (w : Window subject.value.size) : (Sequence.ofWindow pattern subject w).Listed := by
  obtain ⟨p, hp, rfl⟩ := Option.map_eq_some_iff.mp hpattern
  obtain ⟨t, ht, rfl⟩ := Option.map_eq_some_iff.mp hsubject
  exact Sequence.listed_ofWindow (h.patterns p (List.mem_of_getElem? hp))
    (h.subjects t (List.mem_of_getElem? ht)) w

theorem sequence (h : s.Follows origins) (pattern subject : Nat) (range : Range) :
    (s.step (.sequence pattern subject range)).2.Follows origins := by
  simp only [Session.step]
  cases hpattern : held s.patterns pattern with
  | none => exact h
  | some p =>
    cases hsubject : held s.subjects subject with
    | none => exact h
    | some text =>
      cases hrange : range.resolve text.value.size with
      | error e =>
        have hsequence : Sequence.ofRange p text range = .error e := by
          rw [Sequence.ofRange, hrange]
          rfl
        simp only [orUnknown, hsequence]
        exact h
      | ok w =>
        simp only [orUnknown, Sequence.ofRange_eq_ok hrange]
        exact h.addSequence (h.listed hpattern hsubject w)

theorem unchecked (h : s.Follows origins) {pattern subject : Nat} {start length : Int}
    (hrange : (Step.unchecked pattern subject start length).InRange s.subjects) :
    (s.step (.unchecked pattern subject start length)).2.Follows origins := by
  simp only [Session.step]
  cases hpattern : held s.patterns pattern with
  | none => exact h
  | some p =>
    cases hsubject : held s.subjects subject with
    | none => exact h
    | some held =>
      obtain ⟨text, htext, rfl⟩ := Option.map_eq_some_iff.mp hsubject
      obtain ⟨hstart, hlength, hinside⟩ := hrange text htext
      lift start to Nat using hstart
      lift length to Nat using hlength
      have hstop : start + length ≤ text.size := by omega
      exact h.addSequence (h.listed hpattern hsubject ⟨start, length, hstop⟩)

theorem begin (h : s.Follows origins) (i : Nat) :
    (s.step (.begin i)).2.Follows (s.trace origins (.begin i)) := by
  simp only [Session.step, trace]
  cases hq : s.sequences[i]? with
  | none => simpa [orUnknown] using h
  | some q =>
    obtain ⟨ms, hms, -⟩ := h.sequences q (List.mem_of_getElem? hq)
    obtain ⟨c, hbegin, hpattern, hsubject, hstands⟩ := Sequence.exists_begin_standsAt hms
    simp only [orUnknown, hbegin]
    exact h.addCursor ⟨q, ms, hq, hms, hpattern, hsubject, hstands⟩

theorem finish (h : s.Follows origins) (i : Nat) :
    (s.step (.finish i)).2.Follows (s.trace origins (.finish i)) := by
  simp only [Session.step, trace]
  cases s.sequences[i]? with
  | none => simpa [orUnknown] using h
  | some q => exact h.addCursor rfl

theorem copy (h : s.Follows origins) (i : Nat) :
    (s.step (.copy i)).2.Follows (s.trace origins (.copy i)) := by
  simp only [Session.step, trace]
  rcases forall₂_getElem?_cases h.cursors i with ⟨hc, ho⟩ | ⟨c, o, hc, ho, hcomes⟩
  · simpa [orUnknown, hc, ho] using h
  · simp only [hc, ho]
    exact h.addCursor hcomes

theorem advanceAt (h : s.Follows origins) {i : Nat} {o : Origin} (ho : origins[i]? = some o)
    (hd : ComesFrom s.sequences d o.next) :
    Follows { s with cursors := s.cursors.set i d } (origins.modify i Origin.next) := by
  refine ⟨h.patterns, h.subjects, h.sequences, forall₂_set_modify h.cursors ?_⟩
  intro o' ho'
  rw [ho] at ho'
  exact Option.some.inj ho' ▸ hd

theorem advance (h : s.Follows origins) (i : Nat) :
    (s.step (.advance i)).2.Follows (s.trace origins (.advance i)) := by
  simp only [Session.step, trace]
  rcases forall₂_getElem?_cases h.cursors i with ⟨hc, ho⟩ | ⟨c, o, hc, ho, hcomes⟩
  · have hsame : origins.modify i Origin.next = origins :=
      List.modify_eq_self (List.getElem?_eq_none_iff.mp ho)
    simpa only [hc, orUnknown, hsame] using h
  · obtain ⟨d, hadvance, hd⟩ := hcomes.advance
    simp only [hc, orUnknown, hadvance, orOutside]
    exact h.advanceAt ho hd

theorem advanceKeeping (h : s.Follows origins) (i : Nat) :
    (s.step (.advanceKeeping i)).2.Follows (s.trace origins (.advanceKeeping i)) := by
  simp only [Session.step, trace]
  rcases forall₂_getElem?_cases h.cursors i with ⟨hc, ho⟩ | ⟨c, o, hc, ho, hcomes⟩
  · have hsame : origins.modify i Origin.next = origins :=
      List.modify_eq_self (List.getElem?_eq_none_iff.mp ho)
    simpa [hc, ho, orUnknown, hsame] using h
  · obtain ⟨d, hadvance, hd⟩ := hcomes.advance
    simp only [hc, ho, orUnknown, hadvance, orOutside]
    exact (h.advanceAt ho hd).addCursor hcomes

end Follows

/-- What holds of the session and of how a step goes on holds after the step. -/
theorem orUnknown_snd {P : Session → Prop} {α : Type} {named : Option α}
    {next : α → Answer × Session} (hs : P s) (h : ∀ a, named = some a → P (next a).2) :
    P (s.orUnknown named next).2 := by
  cases named with
  | none => exact hs
  | some a => exact h a rfl

theorem orOutside_snd {P : Session → Prop} {α : Type} {outcome : Except RangeError α}
    {next : α → Answer × Session} (hs : P s) (h : ∀ a, outcome = .ok a → P (next a).2) :
    P (s.orOutside outcome next).2 := by
  cases outcome with
  | error e => exact hs
  | ok a => exact h a rfl

theorem step_subjects (s : Session) (t : Step) : (s.step t).2.subjects = s.subjects := by
  cases t <;> simp only [step, orUnknown, orOutside]
  all_goals repeat' split
  all_goals rfl

theorem Follows.step (h : s.Follows origins) {t : Step} (ht : t.InRange s.subjects) :
    (s.step t).2.Follows (s.trace origins t) := by
  let P (s' : Session) : Prop := s'.Follows origins
  cases t with
  | sequence pattern subject range => exact h.sequence pattern subject range
  | unchecked pattern subject start length => exact h.unchecked ht
  | begin i => exact h.begin i
  | finish i => exact h.finish i
  | copy i => exact h.copy i
  | advance i => exact h.advance i
  | advanceKeeping i => exact h.advanceKeeping i
  | collect i => exact orUnknown_snd (P := P) h fun q _ => orOutside_snd (P := P) h fun ms _ => h
  | current i => exact orUnknown_snd (P := P) h fun c _ => h
  | isDone i => exact orUnknown_snd (P := P) h fun c _ => h
  | same i j =>
    exact orUnknown_snd (P := P) h fun c _ => orUnknown_snd (P := P) h fun d _ => h

theorem Follows.run (h : s.Follows origins) {steps : List Step}
    (hsteps : ∀ t ∈ steps, t.InRange s.subjects) :
    (s.run steps).2.Follows (s.traces origins steps) := by
  induction steps generalizing s origins with
  | nil => exact h
  | cons t rest ih =>
    rw [List.forall_mem_cons] at hsteps
    have hrest : ∀ u ∈ rest, u.InRange (s.step t).2.subjects := by
      rw [step_subjects]
      exact hsteps.2
    exact ih (h.step hsteps.1) hrest

theorem getElem?_cursors_advance (s : Session) {i j : Nat} (hne : j ≠ i)
    (hj : j < s.cursors.length) :
    (s.step (.advance i)).2.cursors[j]? = s.cursors[j]? ∧
      (s.step (.advanceKeeping i)).2.cursors[j]? = s.cursors[j]? := by
  let P (s' : Session) : Prop := s'.cursors[j]? = s.cursors[j]?
  have hset : ∀ d, (s.cursors.set i d)[j]? = s.cursors[j]? := fun d =>
    List.getElem?_set_ne (Ne.symm hne)
  constructor
  · exact orUnknown_snd (P := P) rfl fun c _ => orOutside_snd (P := P) rfl fun d _ => hset d
  · refine orUnknown_snd (P := P) rfl fun c _ => orOutside_snd (P := P) rfl fun d _ => ?_
    have hlt : j < (s.cursors.set i d).length := by rwa [List.length_set]
    exact (List.getElem?_append_left hlt).trans (hset d)

section Answers

variable {i j n k : Nat} {ms : List Match}

theorem step_current (h : s.cursors[i]? = some c) : (s.step (.current i)).1 = .one c.current := by
  simp [Session.step, h, orUnknown]

theorem step_isDone (h : s.cursors[i]? = some c) :
    (s.step (.isDone i)).1 = .truth (decide (c.phase = .done)) := by
  simp [Session.step, h, orUnknown]

theorem step_same (hc : s.cursors[i]? = some c) (hd : s.cursors[j]? = some d) :
    (s.step (.same i j)).1 = .truth (c.same d) := by
  simp [Session.step, hc, hd, orUnknown]

theorem step_collect (h : s.sequences[n]? = some q) (hms : q.collect = .ok ms) :
    (s.step (.collect n)).1 = .found ms := by
  simp [Session.step, h, hms, orUnknown, orOutside]

theorem Follows.exists_cursor (h : s.Follows origins) (ho : origins[i]? = some (.begun n k)) :
    ∃ c q ms, s.cursors[i]? = some c ∧ s.sequences[n]? = some q ∧ q.collect = .ok ms ∧ ms.Nodup ∧
      c.pattern = q.pattern ∧ c.subject = q.subject ∧ c.StandsAt ms k := by
  rcases forall₂_getElem?_cases h.cursors i with ⟨-, hnone⟩ | ⟨c, o, hc, ho', hcomes⟩
  · rw [hnone] at ho
    cases ho
  · obtain rfl : o = .begun n k := Option.some.inj (ho'.symm.trans ho)
    obtain ⟨q, ms, hq, hms, hpattern, hsubject, hstands⟩ := hcomes
    obtain ⟨ms', hms', hnodup⟩ := h.sequences q (List.mem_of_getElem? hq)
    obtain rfl : ms = ms' := Except.ok.inj (hms.symm.trans hms')
    exact ⟨c, q, ms, hc, hq, hms, hnodup, hpattern, hsubject, hstands⟩

end Answers

/-- The cursors of a session answer by their origins: one that was begun on a sequence and advanced
`k` times shows match `k` of the sequence, counted from 0, is done just behind the last match and
then shows that still; cursors of one sequence are the same just if they show the same or are both
done; and advancing a cursor leaves all others as they are. -/
structure AnswersBy (s : Session) (origins : List Origin) : Prop where
  length_eq : origins.length = s.cursors.length
  shows : ∀ {i n k}, origins[i]? = some (.begun n k) →
    ∃ ms, (s.step (.collect n)).1 = .found ms ∧
      (∀ h : k < ms.length, (s.step (.current i)).1 = .one ms[k]) ∧
      (s.step (.isDone i)).1 = .truth (decide (ms.length ≤ k)) ∧
      (ms.length ≤ k → (s.step (.current i)).1 = .one (ms.getLast?.getD (.missing 0))) ∧
      ∀ {j l}, origins[j]? = some (.begun n l) →
        (s.step (.same i j)).1 = .truth (decide (min k ms.length = min l ms.length))
  equivalence : Equivalence fun i j : Fin s.cursors.length =>
    (s.step (.same i j)).1 = .truth true
  others : ∀ {i j}, j ≠ i → j < s.cursors.length →
    (s.step (.advance i)).2.cursors[j]? = s.cursors[j]? ∧
      (s.step (.advanceKeeping i)).2.cursors[j]? = s.cursors[j]?

theorem Follows.answersBy (h : s.Follows origins) : s.AnswersBy origins := by
  refine ⟨h.cursors.length_eq.symm, ?_, ?_, s.getElem?_cursors_advance⟩
  · intro i n k ho
    obtain ⟨c, q, ms, hc, hq, hms, hnodup, hpattern, hsubject, hstands⟩ := h.exists_cursor ho
    refine ⟨ms, step_collect hq hms, ?_, ?_, ?_, ?_⟩
    · intro hk
      rw [step_current hc, hstands.current_eq, Cursor.shownAt_of_lt hk]
    · simp only [step_isDone hc, hstands.done_iff]
    · intro hk
      rw [step_current hc, hstands.current_eq, Cursor.shownAt_of_le (by omega)]
    · intro j l ho'
      obtain ⟨d, q', ms', hd, hq', hms', -, hpattern', hsubject', hstands'⟩ := h.exists_cursor ho'
      obtain rfl : q = q' := Option.some.inj (hq.symm.trans hq')
      obtain rfl : ms = ms' := Except.ok.inj (hms.symm.trans hms')
      have hsame := hstands.same_iff hstands' hnodup (hpattern.trans hpattern'.symm)
        (hsubject.trans hsubject'.symm)
      rw [step_same hc hd, Bool.eq_iff_iff.mpr (hsame.trans decide_eq_true_iff.symm)]
  · have hsame : ∀ i j : Fin s.cursors.length, (s.step (.same i j)).1 = .truth true ↔
        s.cursors[i].same s.cursors[j] = true := by
      intro i j
      rw [step_same (List.getElem?_eq_getElem i.isLt) (List.getElem?_eq_getElem j.isLt),
        Answer.truth.injEq]
      rfl
    simp only [hsame]
    exact Cursor.equivalence_same.comap fun i : Fin s.cursors.length => s.cursors[i]

def fresh (patterns : List Pattern) (subjects : List Subject) : Session :=
  { patterns := patterns, subjects := subjects }

/-- After any steps, in any order and with any copies in between, the cursors answer by where they
come from. -/
theorem answersBy_run {patterns : List Pattern} {subjects : List Subject} {steps : List Step}
    (hpatterns : ∀ p ∈ patterns, ∃ format mode tokens, Pattern.compile format mode tokens = .ok p)
    (hsizes : ∀ t ∈ subjects, t.size < 2147483648)
    (hsteps : ∀ t ∈ steps, t.InRange subjects) :
    ((fresh patterns subjects).run steps).2.AnswersBy
      ((fresh patterns subjects).traces [] steps) := by
  have hcompiled : ∀ p ∈ patterns, p.Compiled := by
    intro p hp
    obtain ⟨format, mode, tokens, hcompile⟩ := hpatterns p hp
    exact (Pattern.compile_eq_ok_iff.mp hcompile).1
  have hfresh : (fresh patterns subjects).Follows [] := ⟨hcompiled, hsizes, by simp [fresh], .nil⟩
  exact (hfresh.run hsteps).answersBy

/-- A copy that is advanced twice gets done behind two matches; the copy kept of it in between stands
where the first cursor does. -/
theorem answersBy_run_of_copies :
    ∃ p s, Pattern.compile [97] .anywhere {} = .ok p ∧
      s = ((fresh [p] [#[97, 98, 97]]).run
        [.sequence 0 0 .all, .begin 0, .copy 0, .advanceKeeping 1, .advance 1]).2 ∧
      s.AnswersBy [.begun 0 0, .begun 0 2, .begun 0 0] ∧
      (s.step (.current 1)).1 = .one (.covering 2 1) ∧ (s.step (.isDone 1)).1 = .truth true ∧
      (s.step (.same 0 2)).1 = .truth true := by
  obtain ⟨p, hp⟩ := @Pattern.Compilable.exists_compiled [97] {} (by decide) .anywhere
  have hanswers := @answersBy_run [p] [#[97, 98, 97]]
    [.sequence 0 0 .all, .begin 0, .copy 0, .advanceKeeping 1, .advance 1]
    (by rw [List.forall_mem_singleton]; exact ⟨_, _, _, hp⟩) (by decide) (by simp [Step.InRange])
  refine ⟨p, _, hp, rfl, hanswers, ?_⟩
  obtain ⟨ms, hms, -, hdone, hlast, -⟩ := hanswers.shows (i := 1) (n := 0) (k := 2) rfl
  obtain ⟨ms', -, -, -, -, hsame⟩ := hanswers.shows (i := 0) (n := 0) (k := 0) rfl
  obtain rfl : ms = [.covering 0 1, .covering 2 1] := by
    cases hp
    exact (Answer.found.inj (hms.symm.trans (by decide +kernel)))
  exact ⟨hlast (by decide), hdone, (hsame (j := 2) rfl).trans (by simp)⟩

end Session
end Wildcard
