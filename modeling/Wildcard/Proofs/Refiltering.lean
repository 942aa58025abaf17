import Wildcard.Proofs.Filtering

/-!
# Filtering what a filter printed

The text of an earliest span, taken alone, has that span as its earliest one: an earlier one would
have been there before. So what a match shows is, searched again, one match that covers all of it,
and a filter that reads what it printed itself selects every line and prints it as it is. It does so
too with what it printed before a line that is too long stopped it.
-/

namespace Wildcard

namespace Subject

variable {subject : Subject} {texts : Texts} {start stop length s e : Nat}

theorem slice_slice (subject : Subject) (start : Nat) {inner count : Nat}
    (h : inner + count ≤ length) :
    slice (subject.slice start length).toArray inner count =
      subject.slice (start + inner) count := by
  have hcount : min count (length - inner) = count := by omega
  simp only [slice_eq, List.drop_take, List.drop_drop, List.take_take, hcount]

theorem mem_of_mem_slice {b : UInt8} (h : b ∈ subject.slice start length) : b ∈ subject.toList := by
  have hdrop : b ∈ subject.toList.drop start := List.mem_of_mem_take (by simpa [slice_eq] using h)
  exact List.mem_of_mem_drop hdrop

theorem span_slice_iff (hstart : start ≤ stop) (hstop : stop ≤ subject.size)
    (he : e ≤ stop - start) :
    Span (subject.slice start (stop - start)).toArray texts s e ↔
      subject.Span texts (start + s) (start + e) := by
  have hsize : (subject.slice start (stop - start)).toArray.size = stop - start := by
    simpa using length_slice_of_le hstart hstop
  have hwidth : start + e - (start + s) = e - s := by omega
  have hsame : s ≤ e → slice (subject.slice start (stop - start)).toArray s (e - s) =
      subject.slice (start + s) (e - s) :=
    fun hle => slice_slice subject start (by omega)
  constructor
  · rintro ⟨hle, -, htext⟩
    refine ⟨by omega, by omega, ?_⟩
    rwa [hwidth, ← hsame hle]
  · rintro ⟨hle, -, htext⟩
    refine ⟨by omega, by omega, ?_⟩
    rwa [hsame (by omega), ← hwidth]

end Subject

section Succession

variable {P : Nat → Nat → Prop} {start stop : Nat} {ms ms' : List Match} {m : Match}

theorem Successive.exists_isEarliest_of_mem (h : Successive P stop start ms) (hm : m ∈ ms) :
    ∃ position first last, m = .covering first (last - first) ∧
      IsEarliest P position stop first last := by
  induction h with
  | done => simp at hm
  | @next start first last ms hearliest _ ih =>
    rcases List.mem_cons.mp hm with rfl | hm
    · exact ⟨start, first, last, rfl, hearliest⟩
    · exact ih hm

theorem Successive.unique (h : Successive P stop start ms) (h' : Successive P stop start ms') :
    ms = ms' :=
  (h.isPrefix (Nat.le_refl stop) h').eq_of_length_le
    (h'.isPrefix (Nat.le_refl stop) h).length_le

end Succession

namespace Tokens

variable {tokens : Tokens} {format : Bytes} {subject : Subject} {start stop first last : Nat}

/-- The text of an earliest core span, taken alone, has nothing but itself for an earliest one. -/
theorem isEarliest_slice (hstop : stop ≤ subject.size)
    (h : IsEarliest (tokens.CoreSpan format subject) start stop first last) :
    IsEarliest (tokens.CoreSpan format (subject.slice first (last - first)).toArray) 0
      (last - first) 0 (last - first) := by
  have hle : first ≤ last := h.holds.1
  have hlast : last ≤ subject.size := Nat.le_trans h.le_stop hstop
  have hstart := h.start_le
  have hend : first + (last - first) = last := by omega
  refine ⟨Nat.le_refl 0, Nat.le_refl _, ?_, ?_⟩
  · apply (Subject.span_slice_iff hle hlast (Nat.le_refl _)).mpr
    rw [Nat.add_zero, hend]
    exact h.holds
  · intro s e _ he hspan
    have hinner := (Subject.span_slice_iff hle hlast he).mp hspan
    have hstop := h.le_stop
    have hleast := (h.least (first + s) (first + e) (by omega) (by omega) hinner).2
    omega

end Tokens

namespace Pattern

open Tokens

variable {p : Pattern} {text : Bytes} {subject : Subject} {found : List Match} {m : Match}

/-- The text is not empty and, searched alone, holds one match, which covers all of it. -/
structure IsOneMatch (p : Pattern) (text : Bytes) : Prop where
  ne_nil : text ≠ []
  find_eq : p.find text.toArray .all = .ok (.covering 0 text.length)
  allMatches_eq : p.allMatches text.toArray .all = .ok [.covering 0 text.length]

theorem IsOneMatch.isMatch_eq (h : p.IsOneMatch text) : p.isMatch text.toArray .all = .ok true := by
  rw [isMatch, h.find_eq]
  rfl

namespace Compiled

variable (hp : p.Compiled)

include hp

theorem isOneMatch_of_isEarliest (hmode : p.mode = .anywhere) (hcore : p.tokens.core p.format ≠ [])
    (hsize : text.toArray.size < 2147483648)
    (h : IsEarliest (p.tokens.CoreSpan p.format text.toArray) 0 text.length 0 text.length) :
    p.IsOneMatch text := by
  have hlt := h.holds.lt hp.distinct hcore
  have hnone : ∀ s e, text.length ≤ s → e ≤ text.length →
      ¬ p.tokens.CoreSpan p.format text.toArray s e := by
    intro s e hs he hspan
    have := hspan.lt hp.distinct hcore
    omega
  refine ⟨List.length_pos_iff.mp hlt, ?_, ?_⟩
  · have hinside : 0 + text.length ≤ text.toArray.size := by simp
    rcases hp.findIn_anywhere hmode hcore hinside with
      ⟨first, last, hfind, hearliest⟩ | ⟨-, hno⟩
    · rw [Nat.zero_add] at hearliest
      obtain ⟨rfl, rfl⟩ := h.eq_of_longer hearliest (Nat.le_refl _)
      exact (p.find_all hsize).trans (congrArg Except.ok hfind)
    · exact absurd h.holds (hno 0 text.length (Nat.le_refl 0) (by omega))
  · obtain ⟨c, hscans, hall⟩ := p.exists_scans_all hsize
    obtain ⟨ms, hms, hsuccessive⟩ := hp.upcoming_anywhere hmode hcore hscans
    have hone := hsuccessive.unique (.next h (.done hnone))
    rw [hall, hms, hone, Nat.sub_zero]

theorem isOneMatch_of_span (hmode : p.mode = .whole) (hcore : p.tokens.core p.format ≠ [])
    (hsize : subject.size < 2147483648)
    (h : subject.Span (p.tokens.language p.format) 0 subject.size) :
    p.IsOneMatch subject.toList := by
  have hsome : ∃ b ∈ p.format, b ≠ p.tokens.anything := by
    simpa [Tokens.core_eq_nil_iff] using hcore
  have hinside : 0 + subject.size ≤ subject.size := by omega
  have hfind : p.findIn subject 0 subject.size = .covering 0 subject.size := by
    rcases hp.findIn_whole hmode hsome hinside with ⟨-, hfind⟩ | ⟨hfails, -⟩
    · exact hfind
    · exact absurd (by simpa using h) hfails
  refine ⟨?_, (p.find_all hsize).trans (congrArg Except.ok hfind), ?_⟩
  · have hpos := hp.length_pos_of_found hcore hinside (by rw [hfind]; rfl)
    rw [hfind, Match.length_covering] at hpos
    exact List.length_pos_iff.mp (by simpa using hpos)
  · obtain ⟨c, hscans, hall⟩ := p.exists_scans_all hsize
    have hupcoming := (hp.upcoming_whole hmode hcore hscans).1 h
    simpa using hall.trans hupcoming

theorem isOneMatch_of_mem_allMatches (hsize : subject.size < 2147483648)
    (hfound : p.allMatches subject .all = .ok found) (hm : m ∈ found) (hpos : 0 < m.length) :
    p.IsOneMatch (subject.slice m.start m.length.toNat) := by
  obtain ⟨c, hscans, hall⟩ := p.exists_scans_all hsize
  rw [hall] at hfound
  by_cases hcore : p.tokens.core p.format = []
  · rw [hp.upcoming_of_core_eq_nil hcore hscans] at hfound
    obtain rfl := Except.ok.inj hfound
    obtain rfl := List.mem_singleton.mp hm
    simp at hpos
  · cases hmode : p.mode with
    | anywhere =>
      obtain ⟨ms, hms, hsuccessive⟩ := hp.upcoming_anywhere hmode hcore hscans
      obtain rfl : ms = found := Except.ok.inj (hms.symm.trans hfound)
      obtain ⟨_, first, last, rfl, hearliest⟩ := hsuccessive.exists_isEarliest_of_mem hm
      have halone := isEarliest_slice (Nat.le_refl _) hearliest
      have hlength : (subject.slice first (last - first)).length = last - first :=
        Subject.length_slice_of_le hearliest.holds.1 hearliest.le_stop
      rw [Match.start_covering, Match.length_covering, Int.toNat_natCast]
      apply hp.isOneMatch_of_isEarliest hmode hcore
      · have hlast := hearliest.le_stop
        rw [List.size_toArray, hlength]
        omega
      · simpa only [hlength] using halone
    | whole =>
      obtain ⟨hholds, hfails⟩ := hp.upcoming_whole hmode hcore hscans
      by_cases hspan : subject.Span (p.tokens.language p.format) 0 subject.size
      · obtain rfl := Except.ok.inj ((hholds hspan).symm.trans hfound)
        obtain rfl := List.mem_singleton.mp hm
        simpa using hp.isOneMatch_of_span hmode hcore hsize hspan
      · obtain rfl := Except.ok.inj ((hfails hspan).symm.trans hfound)
        simp at hm

end Compiled
end Pattern

namespace Bytes

variable {text line : Bytes} {ls : List Bytes} {b : UInt8}

theorem CutsInto.of_mem (h : CutsInto text ls) (hline : line ∈ ls) (hb : b ∈ line) :
    b ∈ text ∧ b ≠ newline := by
  induction h with
  | nil => simp at hline
  | last _ hnone =>
    obtain rfl := List.mem_singleton.mp hline
    exact ⟨hb, fun h => hnone (h ▸ hb)⟩
  | line hnone _ ih =>
    rcases List.mem_cons.mp hline with rfl | hline
    · exact ⟨List.mem_append_left _ hb, fun h => hnone (h ▸ hb)⟩
    · have hrest := ih hline
      exact ⟨List.mem_append_right _ (List.mem_cons_of_mem _ hrest.1), hrest.2⟩

end Bytes

namespace LineFilter

open Pattern

variable {p : Pattern} {spec : Spec} {label line text : Bytes} {texts shownLines : List Bytes}
  {ls kept : List Bytes} {number count : Nat} {b : UInt8}

theorem TextOf.eq_of_notMem (h : TextOf line text) (hreturn : carriageReturn ∉ line) :
    text = line := by
  rcases h with _ | _
  · simp at hreturn
  · rfl

theorem textOf_of_notMem (h : carriageReturn ∉ line) : TextOf line line :=
  .plain fun hlast => h (List.mem_of_getLast? hlast)

theorem Shows.of_mem (h : Shows p spec line texts) (htext : text ∈ texts) (hb : b ∈ text) :
    b ∈ line := by
  cases h with
  | whole => simpa [List.mem_singleton.mp htext] using hb
  | pieces =>
    obtain ⟨m, -, rfl⟩ := List.mem_map.mp htext
    exact Subject.mem_of_mem_slice hb

theorem Shows.isOneMatch (hp : p.Compiled) (honly : spec.onlyMatching = true)
    (hinvert : spec.invert = false) (hsize : line.length < 2147483648)
    (h : Shows p spec line texts) (htext : text ∈ texts) : p.IsOneMatch text := by
  cases h with
  | whole hwhole => simp [honly, hinvert] at hwhole
  | pieces _ _ hfound =>
    obtain ⟨m, hm, rfl⟩ := List.mem_map.mp htext
    have hkept := List.mem_filter.mp hm
    exact hp.isOneMatch_of_mem_allMatches hsize hfound hkept.1 (by simpa using hkept.2)

/-- A line that a filter selects and shows as it is. -/
structure Stays (p : Pattern) (spec : Spec) (text : Bytes) : Prop where
  one_line : Bytes.newline ∉ text
  no_return : carriageReturn ∉ text
  selected : p.isMatch text.toArray .all = .ok (!spec.invert)
  shows : Shows p spec text [text]

theorem stays_of_isOneMatch (honly : spec.onlyMatching = true) (hinvert : spec.invert = false)
    (hline : Bytes.newline ∉ text) (hreturn : carriageReturn ∉ text) (h : p.IsOneMatch text) :
    Stays p spec text := by
  refine ⟨hline, hreturn, by rw [hinvert]; exact h.isMatch_eq, ?_⟩
  have hshows : Shows p spec text _ := .pieces honly hinvert h.allMatches_eq
  have hpos : 0 < text.length := List.length_pos_iff.mpr h.ne_nil
  have hall : Subject.slice text.toArray 0 text.length = text := by
    simpa using Subject.slice_all text.toArray
  simpa [hpos, hall] using hshows

theorem Shows.stays (hp : p.Compiled) (hline : Bytes.newline ∉ line)
    (hreturn : carriageReturn ∉ line)
    (hmatch : p.isMatch line.toArray .all = .ok (!spec.invert))
    (h : Shows p spec line texts) : ∀ text ∈ texts, Stays p spec text := by
  intro text htext
  have hsize := p.size_lt_of_isMatch hmatch
  by_cases hwhole : spec.onlyMatching = false ∨ spec.invert = true
  · cases h with
    | whole =>
      rw [List.mem_singleton.mp htext]
      exact ⟨hline, hreturn, hmatch, .whole hwhole⟩
    | pieces honly hinvert => simp [honly, hinvert] at hwhole
  · have hpieces : spec.onlyMatching = true ∧ spec.invert = false := by simpa using hwhole
    exact stays_of_isOneMatch hpieces.1 hpieces.2 (mt (h.of_mem htext) hline)
      (mt (h.of_mem htext) hreturn) (h.isOneMatch hp hpieces.1 hpieces.2 hsize htext)

theorem map_labelText (hnumbers : spec.lineNumbers = false) (number : Nat) (texts : List Bytes) :
    texts.map (labelText [] ++ numberText spec number ++ ·) = texts := by
  simp [labelText, numberText, hnumbers]

theorem Filters.forall_shown {Q : Bytes → Prop} (hnumbers : spec.lineNumbers = false)
    (hreturn : ∀ line ∈ ls, carriageReturn ∉ line)
    (hshown : ∀ line ∈ ls, p.isMatch line.toArray .all = .ok (!spec.invert) →
      ∀ texts, Shows p spec line texts → ∀ text ∈ texts, Q text)
    (h : Filters p spec [] number ls count shownLines) : ∀ text ∈ shownLines, Q text := by
  induction h with
  | nil => simp
  | skipped _ _ _ ih =>
    rw [List.forall_mem_cons] at hreturn hshown
    exact ih hreturn.2 hshown.2
  | @selected number count line text rest texts shownLines htext hmatch hshows _ ih =>
    rw [List.forall_mem_cons] at hreturn hshown
    obtain rfl := htext.eq_of_notMem hreturn.1
    rw [map_labelText hnumbers, List.forall_mem_append]
    exact ⟨hshown.1 hmatch texts hshows, ih hreturn.2 hshown.2⟩

/-- A filter shows lines that stay one after the other. -/
theorem filters_of_stays (hnumbers : spec.lineNumbers = false) (h : ∀ text ∈ ls, Stays p spec text)
    (number : Nat) : Filters p spec [] number ls ls.length ls := by
  induction ls generalizing number with
  | nil => exact .nil
  | cons text rest ih =>
    have hstays := h text List.mem_cons_self
    have hrest := ih (fun t ht => h t (List.mem_cons_of_mem _ ht)) (number + 1)
    have hselected : Filters p spec [] number (text :: rest) (rest.length + 1)
        ([text].map (labelText [] ++ numberText spec number ++ ·) ++ rest) :=
      .selected (textOf_of_notMem hstays.no_return) hstays.selected hstays.shows hrest
    rwa [map_labelText hnumbers] at hselected

theorem Filters.stays (hp : p.Compiled) (hnumbers : spec.lineNumbers = false)
    (hline : ∀ line ∈ ls, Bytes.newline ∉ line) (hreturn : ∀ line ∈ ls, carriageReturn ∉ line)
    (h : Filters p spec [] number ls count shownLines) : ∀ text ∈ shownLines, Stays p spec text :=
  h.forall_shown hnumbers hreturn fun line hmem hmatch _ hshows =>
    hshows.stays hp (hline line hmem) (hreturn line hmem) hmatch

theorem Filters.isOneMatch (hp : p.Compiled) (honly : spec.onlyMatching = true)
    (hinvert : spec.invert = false) (hnumbers : spec.lineNumbers = false)
    (hreturn : ∀ line ∈ ls, carriageReturn ∉ line)
    (h : Filters p spec [] number ls count shownLines) : ∀ text ∈ shownLines, p.IsOneMatch text :=
  h.forall_shown hnumbers hreturn fun _ _ hmatch _ hshows _ =>
    hshows.isOneMatch hp honly hinvert (p.size_lt_of_isMatch hmatch)

/-- What a filter printed without label and numbers, it prints again when it reads it: every line is
selected. If it prints the matches only, each of them is one match, which covers it. All this holds
whether the filter went through all lines or stopped at one whose length is no word. -/
theorem run_output_again (mode : Mode) {format : Bytes} {tokens : Tokens}
    (hcompilable : Compilable format tokens) :
    ∃ p, compile format mode tokens = .ok p ∧ ∀ spec : Spec,
      spec.countOnly = false → spec.lineNumbers = false → ∀ input : Bytes,
        carriageReturn ∉ input → ∃ output, (print p spec [] input).out = output ∧
          ((∀ line ∈ Bytes.lines input, line.length < 2147483648) →
            ∃ count, run p spec [] input = .ok ⟨count, output⟩) ∧
          ((∃ line ∈ Bytes.lines input, 2147483648 ≤ line.length) →
            run p spec [] input = .error .subjectTooLong) ∧
          run p spec [] output = .ok ⟨(Bytes.lines output).length, output⟩ ∧
          (spec.onlyMatching = true → spec.invert = false →
            ∀ text ∈ Bytes.lines output, p.IsOneMatch text) := by
  obtain ⟨p, hcompile⟩ := hcompilable.exists_compiled mode
  obtain ⟨hp, rfl, rfl, rfl⟩ := compile_eq_ok_iff.mp hcompile
  refine ⟨p, hcompile, fun spec hcount hnumbers input hreturn => ?_⟩
  obtain ⟨kept, count, shownLines, hkept, hfilters, hout, hcomplete, hstopped⟩ :=
    exists_filters_of_print hp spec [] input
  have hcuts := Bytes.cutsInto_lines input
  have hnone : ∀ line ∈ Bytes.lines input, carriageReturn ∉ line :=
    fun line hline hb => hreturn (hcuts.of_mem hline hb).1
  have hkeptLine : ∀ line ∈ kept, Bytes.newline ∉ line :=
    fun line hline hb => (hcuts.of_mem (hkept.subset hline) hb).2 rfl
  have hkeptNone : ∀ line ∈ kept, carriageReturn ∉ line :=
    fun line hline => hnone line (hkept.subset hline)
  have hstays := hfilters.stays hp hnumbers hkeptLine hkeptNone
  have hcut : Bytes.lines (Bytes.unlines shownLines) = shownLines :=
    Bytes.lines_unlines fun text htext => (hstays text htext).one_line
  have hagain := filters_of_stays hnumbers hstays 1
  rw [← hcut] at hagain
  refine ⟨Bytes.unlines shownLines, hout hcount, ?_, ?_, ?_, ?_⟩
  · intro hsize
    refine ⟨count, ?_⟩
    rw [run, hcomplete fun line hline => .of_length (hsize line hline), hout hcount]
    rfl
  · rintro ⟨line, hline, hlong⟩
    have hstop := hstopped ⟨line, hline, fun hshort =>
      absurd (hshort line (textOf_of_notMem (hnone line hline))) (Nat.not_lt.mpr hlong)⟩
    rw [run, hstop]
    rfl
  · rw [hagain.run_eq, hcount, hcut]
    rfl
  · intro honly hinvert
    rw [hcut]
    exact hfilters.isOneMatch hp honly hinvert hnumbers hkeptNone

/-- The line `xaabbabb` shows `aab` and `abb`, which show themselves. -/
theorem run_output_again_of_pieces :
    ∃ p, compile [97, 42, 63, 98] .anywhere {} = .ok p ∧
      run p { onlyMatching := true } [] [120, 97, 97, 98, 98, 97, 98, 98] =
        .ok ⟨1, [97, 97, 98, 10, 97, 98, 98, 10]⟩ ∧
      run p { onlyMatching := true } [] [97, 97, 98, 10, 97, 98, 98, 10] =
        .ok ⟨2, [97, 97, 98, 10, 97, 98, 98, 10]⟩ ∧
      p.IsOneMatch [97, 98, 98] := by
  obtain ⟨p, hp, h⟩ := @run_output_again .anywhere [97, 42, 63, 98] {} (by decide)
  have hfirst : run p { onlyMatching := true } [] [120, 97, 97, 98, 98, 97, 98, 98] =
      .ok ⟨1, [97, 97, 98, 10, 97, 98, 98, 10]⟩ := by
    cases hp
    decide +kernel
  obtain ⟨output, -, hcomplete, -, hrerun, hpieces⟩ := h { onlyMatching := true } rfl rfl
    [120, 97, 97, 98, 98, 97, 98, 98] (by decide)
  obtain ⟨count, hcount⟩ := hcomplete (by decide)
  obtain ⟨-, rfl⟩ := Report.mk.inj (Except.ok.inj (hfirst.symm.trans hcount))
  exact ⟨p, hp, hfirst, hrerun, hpieces rfl rfl [97, 98, 98] (by decide)⟩

end LineFilter
end Wildcard
