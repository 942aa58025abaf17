import Mathlib.Tactic.Lift
import Wildcard.Proofs.Core
import Wildcard.Proofs.Covering

/-!
# What finding finds

A pattern that has to cover the range matches it if the range holds a text that the format accepts.
A pattern that may stand anywhere finds, of all texts of its core in the range, the one that starts
first, and no other ends before it.
-/

namespace Wildcard

/-- A span between two bounds that starts first and ends first of all of its kind there. -/
structure IsEarliest (P : Nat → Nat → Prop) (start stop first last : Nat) : Prop where
  start_le : start ≤ first
  le_stop : last ≤ stop
  holds : P first last
  least : ∀ s e, start ≤ s → e ≤ stop → P s e → first ≤ s ∧ last ≤ e

namespace Pattern

open Section Texts

variable {p : Pattern} {subject : Subject} {start length : Nat}

namespace Compiled

theorem ready (hp : p.Compiled) : ∀ t ∈ p.targets, t.Ready p.tokens.unknown := by
  intro t ht
  rw [hp.targets_eq] at ht
  obtain ⟨s, -, rfl⟩ := List.mem_map.mp ht
  exact Target.ready_ofSection p.tokens.unknown s

theorem targets_eq_nil_iff (hp : p.Compiled) :
    p.targets = [] ↔ ∀ b ∈ p.format, b = p.tokens.anything := by
  rw [hp.targets_eq, List.map_eq_nil_iff, Tokens.sections_eq_nil_iff, Tokens.core_eq_nil_iff]

theorem minWidth_eq_totalWidth (hp : p.Compiled) : p.minWidth = totalWidth p.sections := by
  rw [hp.minWidth_eq, hp.sections_eq]

theorem findIn_of_forall_anything (hp : p.Compiled) (h : ∀ b ∈ p.format, b = p.tokens.anything)
    (subject : Subject) (start length : Nat) :
    p.findIn subject start length = .covering start 0 := by
  have htargets := hp.targets_eq_nil_iff.mpr h
  have hwidth : p.minWidth = 0 := by
    rw [hp.minWidth_eq_totalWidth, sections, htargets]
    rfl
  simp [findIn, hwidth, htargets]

/-- A pattern that has to cover the window is found there just if the sections span it: a shorter
window than their width has no such span. -/
theorem findIn_whole (hp : p.Compiled) (hmode : p.mode = .whole)
    (h : ∃ b ∈ p.format, b ≠ p.tokens.anything) (hstop : start + length ≤ subject.size) :
    (subject.Span (p.tokens.language p.format) start (start + length) ∧
        p.findIn subject start length = .covering start length) ∨
      (¬ subject.Span (p.tokens.language p.format) start (start + length) ∧
        p.findIn subject start length = .missing start) := by
  have htargets : p.targets ≠ [] := by
    rw [ne_eq, hp.targets_eq_nil_iff]
    push Not
    exact h
  have hmeaning := hp.meaning_eq
  rw [hmode] at hmeaning
  change _ = p.tokens.language p.format at hmeaning
  rw [← hmeaning]
  by_cases hwidth : length < p.minWidth
  · right
    refine ⟨fun hspan => ?_, by rw [findIn, if_pos hwidth]⟩
    have := hspan.meaning_width
    rw [← hp.minWidth_eq_totalWidth] at this
    omega
  · have hroom : start + totalWidth p.sections ≤ start + length := by
      rw [← hp.minWidth_eq_totalWidth]
      omega
    have hcovers := covers_iff hp.ready htargets hstop hroom
    have hsome : p.targets.isEmpty = false := by simpa using htargets
    by_cases hcover : p.covers subject start (start + length) = true
    · left
      exact ⟨hcovers.mp hcover, by simp [findIn, hwidth, hsome, hmode, hcover]⟩
    · right
      exact ⟨mt hcovers.mpr hcover, by simp [findIn, hwidth, hsome, hmode, hcover]⟩

section Anywhere

variable (hp : p.Compiled) (hmode : p.mode = .anywhere) (hcore : p.tokens.core p.format ≠ [])

include hp

theorem targets_ne_nil_of_core (hcore : p.tokens.core p.format ≠ []) : p.targets ≠ [] := by
  rw [ne_eq, hp.targets_eq_nil_iff, ← Tokens.core_eq_nil_iff]
  exact hcore

include hmode

theorem sectionsOf_targets_anywhere :
    sectionsOf p.targets = p.tokens.sections false p.format := by
  have hopen : p.anchors.atEnd = false := by
    rw [hp.anchors_eq, hmode]
    rfl
  rw [← sections_eq_sectionsOf, hp.sections_eq, hopen]

include hcore

theorem coreSpan_of_chain {s e : Nat}
    (h : subject.Span (chain p.tokens.unknown (sectionsOf p.targets)) s e) :
    p.tokens.CoreSpan p.format subject s e := by
  rw [hp.sectionsOf_targets_anywhere hmode] at h
  exact h.mono (Tokens.chain_sections_le_core hp.distinct hcore false)

theorem exists_chain_of_coreSpan {s e : Nat} (h : p.tokens.CoreSpan p.format subject s e) :
    ∃ last ≤ e, subject.Span (chain p.tokens.unknown (sectionsOf p.targets)) s last := by
  rw [hp.sectionsOf_targets_anywhere hmode]
  exact h.exists_chain hp.distinct hcore

/-- The greedy placement compares to every core span, through the span of the sections that the
core span begins with. -/
theorem spanOf_le_coreSpan {stop s e : Nat} (hs : start ≤ s) (he : e ≤ stop)
    (h : p.tokens.CoreSpan p.format subject s e) :
    ∃ first last, spanOf p.tokens.unknown subject start stop p.targets = some (first, last) ∧
      first ≤ s ∧ last ≤ e := by
  obtain ⟨middle, hmiddle, hchain⟩ := hp.exists_chain_of_coreSpan hmode hcore h
  obtain ⟨first, last, hfound, hfirst, hlast⟩ :=
    spanOf_le hp.ready (hp.targets_ne_nil_of_core hcore) hs (Nat.le_trans hmiddle he) hchain
  exact ⟨first, last, hfound, hfirst, Nat.le_trans hlast hmiddle⟩

theorem spanOf_isEarliest {stop first last : Nat} (hstop : stop ≤ subject.size)
    (h : spanOf p.tokens.unknown subject start stop p.targets = some (first, last)) :
    IsEarliest (p.tokens.CoreSpan p.format subject) start stop first last := by
  obtain ⟨hchain, hfirst, hlast⟩ := spanOf_span hp.ready hstop h
  refine ⟨hfirst, hlast, hp.coreSpan_of_chain hmode hcore hchain, ?_⟩
  intro s e hs he hspan
  obtain ⟨first', last', hfound, hle⟩ := hp.spanOf_le_coreSpan hmode hcore hs he hspan
  rw [h] at hfound
  obtain ⟨rfl, rfl⟩ := Prod.mk.inj (Option.some.inj hfound)
  exact hle

theorem minWidth_le_of_coreSpan (s e : Nat) (h : p.tokens.CoreSpan p.format subject s e) :
    s + p.minWidth ≤ e := by
  obtain ⟨last, hlast, hchain⟩ := hp.exists_chain_of_coreSpan hmode hcore h
  have hwidth := hchain.chain_width
  rw [← sections_eq_sectionsOf, ← hp.minWidth_eq_totalWidth] at hwidth
  exact Nat.le_trans hwidth hlast

theorem findIn_anywhere (hstop : start + length ≤ subject.size) :
    (∃ first last, p.findIn subject start length = .covering first (last - first) ∧
        IsEarliest (p.tokens.CoreSpan p.format subject) start (start + length) first last) ∨
      (p.findIn subject start length = .missing start ∧
        ∀ s e, start ≤ s → e ≤ start + length → ¬ p.tokens.CoreSpan p.format subject s e) := by
  have hsome : p.targets.isEmpty = false := by simpa using hp.targets_ne_nil_of_core hcore
  by_cases hwidth : length < p.minWidth
  · right
    refine ⟨by rw [findIn, if_pos hwidth], ?_⟩
    intro s e hs he hspan
    have hwide := hp.minWidth_le_of_coreSpan hmode hcore s e hspan
    omega
  · cases hfound : spanOf p.tokens.unknown subject start (start + length) p.targets with
    | none =>
      right
      refine ⟨by simp [findIn, hwidth, hsome, hmode, hfound], ?_⟩
      intro s e hs he hspan
      obtain ⟨first, last, hsome', -⟩ := hp.spanOf_le_coreSpan hmode hcore hs he hspan
      rw [hfound] at hsome'
      cases hsome'
    | some found =>
      left
      exact ⟨found.1, found.2, by simp [findIn, hwidth, hsome, hmode, hfound],
        hp.spanOf_isEarliest hmode hcore hstop hfound⟩

theorem modeLanguage_eq_around :
    p.tokens.modeLanguage p.format .anywhere =
      anyText * chain p.tokens.unknown (sectionsOf p.targets) * anyText := by
  have hne : p.sections ≠ [] := by
    rw [hp.sections_eq, ne_eq, Tokens.sections_eq_nil_iff]
    exact hcore
  have hopen : p.anchors = ⟨false, false⟩ := by
    rw [hp.anchors_eq, hmode]
    rfl
  have hmeaning := hp.meaning_eq
  rw [meaning_of_ne_nil _ hne, hopen, hmode, sections_eq_sectionsOf] at hmeaning
  exact hmeaning.symm

theorem findIn_anywhere_found_iff (hstop : start + length ≤ subject.size) :
    (p.findIn subject start length).found = true ↔
      subject.Span (anyText * chain p.tokens.unknown (sectionsOf p.targets) * anyText) start
        (start + length) := by
  simp only [Subject.span_mul, Subject.span_anyText]
  rcases hp.findIn_anywhere hmode hcore hstop with
    ⟨first, last, hfind, hearliest⟩ | ⟨hfind, hnone⟩
  · rw [hfind]
    obtain ⟨middle, hmiddle, hchain⟩ := hp.exists_chain_of_coreSpan hmode hcore hearliest.holds
    have hfirst := hearliest.start_le
    have hlast := hearliest.le_stop
    have hbounds := hchain.1
    have hinside := hchain.2.1
    refine ⟨fun _ => ⟨middle, ⟨first, ⟨hfirst, ?_⟩, hchain⟩, ?_, hstop⟩, fun _ => rfl⟩
    · omega
    · omega
  · rw [hfind]
    refine ⟨fun h => absurd h (by simp), ?_⟩
    rintro ⟨last, ⟨first, ⟨hfirst, -⟩, hchain⟩, hlast, -⟩
    exact absurd (hp.coreSpan_of_chain hmode hcore hchain) (hnone first last hfirst hlast)

end Anywhere

theorem findIn_found_iff (hp : p.Compiled) (hstop : start + length ≤ subject.size) :
    (p.findIn subject start length).found = true ↔
      subject.Span (p.tokens.modeLanguage p.format p.mode) start (start + length) := by
  by_cases hall : ∀ b ∈ p.format, b = p.tokens.anything
  · have hsections : p.sections = [] := by rw [sections, hp.targets_eq_nil_iff.mpr hall]; rfl
    have hmeaning := hp.meaning_eq
    rw [hsections] at hmeaning
    change anyText = _ at hmeaning
    rw [hp.findIn_of_forall_anything hall, ← hmeaning, Subject.span_anyText]
    simpa using hstop
  · have hcore : p.tokens.core p.format ≠ [] := mt Tokens.core_eq_nil_iff.mp hall
    cases hmode : p.mode with
    | whole =>
      push Not at hall
      have hlanguage : p.tokens.modeLanguage p.format .whole = p.tokens.language p.format := rfl
      rw [hlanguage]
      rcases hp.findIn_whole hmode hall hstop with ⟨hholds, hfind⟩ | ⟨hfails, hfind⟩
      · simpa [hfind] using hholds
      · simpa [hfind] using hfails
    | anywhere =>
      rw [hp.modeLanguage_eq_around hmode hcore]
      exact hp.findIn_anywhere_found_iff hmode hcore hstop

end Compiled

theorem find_span (p : Pattern) (hsize : subject.size < 2147483648)
    (h : start + length ≤ subject.size) :
    p.find subject (.span start length) = .ok (p.findIn subject start length) := by
  rw [find, Range.resolve_span hsize h]
  rfl

/-- A format that has to cover the range is found just if it accepts the text of the range, and then
covers it; a format of anything tokens only is found empty. -/
theorem find_whole_iff_accepts {format : Bytes} {tokens : Tokens}
    (hcompilable : Compilable format tokens) :
    ∃ p, compile format .whole tokens = .ok p ∧
      ∀ (subject : Subject) (start length : Int),
        (Range.span start length).Accepted subject.size →
        ∃ m, p.find subject (.span start length) = .ok m ∧
          (m.found = true ↔ tokens.Accepts format (subject.slice start.toNat length.toNat)) ∧
          ((∀ b ∈ format, b = tokens.anything) → m = .covering start.toNat 0) ∧
          ((∃ b ∈ format, b ≠ tokens.anything) → m.found = true →
            m = .covering start.toNat length.toNat) ∧
          (m.found = false → m = .missing start.toNat) := by
  obtain ⟨p, hcompile⟩ := hcompilable.exists_compiled .whole
  obtain ⟨hp, rfl, hmode, rfl⟩ := compile_eq_ok_iff.mp hcompile
  refine ⟨p, hcompile, ?_⟩
  intro subject start length haccepted
  obtain ⟨hstart, hlength, hinside⟩ := haccepted.bounds
  lift start to Nat using hstart
  lift length to Nat using hlength
  have hstop : start + length ≤ subject.size := by omega
  have hspan : subject.Span (p.tokens.language p.format) start (start + length) ↔
      p.tokens.Accepts p.format (subject.slice start length) := Subject.span_add_iff hstop
  refine ⟨_, find_span p haccepted.size_lt hstop, ?_⟩
  simp only [Int.toNat_natCast]
  by_cases hall : ∀ b ∈ p.format, b = p.tokens.anything
  · have hopen : p.format.isEmpty = false := by simpa using hp.nonempty
    have hlanguage := Tokens.language_of_forall_anything hp.distinct hall
    rw [hopen, Texts.beyond_false] at hlanguage
    rw [hp.findIn_of_forall_anything hall, ← hspan, hlanguage, Subject.span_anyText]
    refine ⟨by simpa using hstop, fun _ => rfl, ?_, by simp⟩
    rintro ⟨b, hb, hne⟩
    exact absurd (hall b hb) hne
  · push Not at hall
    obtain ⟨b, hb, hne⟩ := hall
    rw [← hspan]
    rcases hp.findIn_whole hmode ⟨b, hb, hne⟩ hstop with ⟨hholds, hfind⟩ | ⟨hfails, hfind⟩
    · rw [hfind]
      exact ⟨by simpa using hholds, fun hall => absurd (hall b hb) hne, fun _ _ => rfl, by simp⟩
    · rw [hfind]
      exact ⟨by simpa using hfails, fun hall => absurd (hall b hb) hne, by simp, fun _ => rfl⟩

theorem find_whole_past_unknown :
    ∃ p, compile [97, 42, 63, 98] .whole {} = .ok p ∧
      p.find #[120, 97, 99, 98, 120] (.span 1 3) = .ok (.covering 1 3) := by
  obtain ⟨p, hp, h⟩ := @find_whole_iff_accepts [97, 42, 63, 98] {} (by decide)
  obtain ⟨m, hm, haccepts, -, hcovering, -⟩ :=
    h #[120, 97, 99, 98, 120] 1 3 (by decide)
  have htext : ({} : Tokens).Accepts [97, 42, 63, 98] [97, 99, 98] :=
    .literal (by decide) (by decide)
      (.anything [] (.unknown 99 (.literal (by decide) (by decide) .nil)))
  have hfound := hcovering ⟨97, by decide, by decide⟩ (haccepts.mpr htext)
  exact ⟨p, hp, by rw [hm, hfound]; rfl⟩

/-- A format that may stand anywhere finds the text of its core in the range that starts first and
ends first, and nothing just if there is none. -/
theorem find_anywhere_isEarliest {format : Bytes} {tokens : Tokens}
    (hcompilable : Compilable format tokens) (hcore : tokens.core format ≠ []) :
    ∃ p, compile format .anywhere tokens = .ok p ∧
      ∀ (subject : Subject) (start length : Int),
        (Range.span start length).Accepted subject.size →
        ∃ m, p.find subject (.span start length) = .ok m ∧
          ((∃ s e : Nat, start ≤ s ∧ e ≤ start + length ∧ tokens.CoreSpan format subject s e) →
            ∃ first last : Nat, m = .covering first (last - first) ∧ first < last ∧
              IsEarliest (tokens.CoreSpan format subject) start.toNat (start + length).toNat
                first last) ∧
          ((¬ ∃ s e : Nat, start ≤ s ∧ e ≤ start + length ∧ tokens.CoreSpan format subject s e) →
            m = .missing start.toNat) := by
  obtain ⟨p, hcompile⟩ := hcompilable.exists_compiled .anywhere
  obtain ⟨hp, rfl, hmode, rfl⟩ := compile_eq_ok_iff.mp hcompile
  refine ⟨p, hcompile, ?_⟩
  intro subject start length haccepted
  obtain ⟨hstart, hlength, hinside⟩ := haccepted.bounds
  lift start to Nat using hstart
  lift length to Nat using hlength
  have hstop : start + length ≤ subject.size := by omega
  refine ⟨_, find_span p haccepted.size_lt hstop, ?_⟩
  rw [← Int.natCast_add]
  simp only [Int.toNat_natCast, Int.ofNat_le]
  rcases hp.findIn_anywhere hmode hcore hstop with ⟨first, last, hfind, hearliest⟩ | ⟨hfind, hnone⟩
  · rw [hfind]
    refine ⟨fun _ => ⟨first, last, rfl, hearliest.holds.lt hp.distinct hcore, hearliest⟩, ?_⟩
    intro hno
    exact absurd ⟨first, last, hearliest.start_le, hearliest.le_stop, hearliest.holds⟩ hno
  · rw [hfind]
    refine ⟨?_, fun _ => rfl⟩
    rintro ⟨s, e, hs, he, hspan⟩
    exact absurd hspan (hnone s e hs he)

theorem find_anywhere_with_gap_at_end :
    ∃ p, compile [42, 97, 98, 42, 63, 63, 42] .anywhere {} = .ok p ∧
      ∃ first last : Nat, p.find #[122, 97, 98, 120, 121, 97, 98] (.span 0 7) =
          .ok (.covering first (last - first)) ∧ first < last ∧ first ≤ 1 ∧ last ≤ 5 := by
  obtain ⟨p, hp, h⟩ :=
    @find_anywhere_isEarliest [42, 97, 98, 42, 63, 63, 42] {} (by decide) (by decide)
  obtain ⟨m, hm, hholds, -⟩ :=
    h #[122, 97, 98, 120, 121, 97, 98] 0 7 (by decide)
  have htext : ({} : Tokens).Accepts [97, 98, 42, 63, 63] [97, 98, 120, 121] :=
    .literal (by decide) (by decide) (.literal (by decide) (by decide)
      (.anything [] (.unknown 120 (.unknown 121 .nil))))
  have hspan : ({} : Tokens).CoreSpan [42, 97, 98, 42, 63, 63, 42]
      #[122, 97, 98, 120, 121, 97, 98] 1 5 := ⟨by decide, by decide, htext⟩
  obtain ⟨first, last, rfl, hlt, hearliest⟩ := hholds ⟨1, 5, by decide, by decide, hspan⟩
  exact ⟨p, hp, first, last, hm, hlt, hearliest.least 1 5 (by decide) (by decide) hspan⟩

end Pattern
end Wildcard
