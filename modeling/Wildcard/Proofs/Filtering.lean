import Wildcard.LineFilter
import Wildcard.Proofs.NormalForm

/-!
# What a line filter prints

A filter goes through the lines of an input, each with its number: a line that is not selected only
moves the number on, and a selected line is counted and shows its texts. What two inputs print one
after the other is what they print together, as long as the first ends with a line end and no numbers
are asked for. A line whose length is no word stops the filter, with what the lines before it show
printed already.
-/

namespace Wildcard

namespace Bytes

variable {text front back line : Bytes} {ls ms : List Bytes}

/-- The lines that a text is cut into. Each newline ends a line, and what is left behind the last
newline is one more line unless it is empty. -/
inductive CutsInto : Bytes → List Bytes → Prop
  | nil : CutsInto [] []
  | last {line : Bytes} : line ≠ [] → newline ∉ line → CutsInto line [line]
  | line {line text : Bytes} {ls : List Bytes} : newline ∉ line → CutsInto text ls →
      CutsInto (line ++ newline :: text) (line :: ls)

theorem lines_of_notMem (hne : line ≠ []) (h : newline ∉ line) : lines line = [line] := by
  induction line with
  | nil => exact absurd rfl hne
  | cons b line ih =>
    rw [List.mem_cons, not_or] at h
    have hb : (b == newline) = false := by simpa using Ne.symm h.1
    cases line with
    | nil => simp [consLine, hb]
    | cons c line =>
      rw [lines_cons, ih (List.cons_ne_nil c line) h.2, consLine, hb]
      rfl

theorem CutsInto.lines_eq (h : CutsInto text ls) : lines text = ls := by
  induction h with
  | nil => rfl
  | last hne hline => exact lines_of_notMem hne hline
  | line hline _ ih => rw [lines_append_unlines hline, ih]

theorem exists_cutsInto (text : Bytes) : ∃ ls, CutsInto text ls := by
  induction text with
  | nil => exact ⟨[], .nil⟩
  | cons b text ih =>
    obtain ⟨ls, hls⟩ := ih
    by_cases hb : b = newline
    · subst hb
      exact ⟨[] :: ls, .line List.not_mem_nil hls⟩
    · have hnew : ∀ {line : Bytes}, newline ∉ line → newline ∉ b :: line := by
        intro line hline
        rw [List.mem_cons, not_or]
        exact ⟨Ne.symm hb, hline⟩
      cases hls with
      | nil => exact ⟨[[b]], .last (List.cons_ne_nil b []) (hnew List.not_mem_nil)⟩
      | last _ hline => exact ⟨[b :: text], .last (List.cons_ne_nil b text) (hnew hline)⟩
      | @line line rest ls hline hrest => exact ⟨(b :: line) :: ls, .line (hnew hline) hrest⟩

theorem cutsInto_lines (text : Bytes) : CutsInto text (lines text) := by
  obtain ⟨ls, hls⟩ := exists_cutsInto text
  rwa [hls.lines_eq]

theorem CutsInto.append (hfront : CutsInto front ls) (hback : CutsInto back ms)
    (hend : front = [] ∨ front.getLast? = some newline) : CutsInto (front ++ back) (ls ++ ms) := by
  induction hfront with
  | nil => exact hback
  | @last line hne hline =>
    rcases hend with rfl | hend
    · exact absurd rfl hne
    · exact absurd (List.mem_of_getLast? hend) hline
  | @line line text ls hline _ ih =>
    have htext : text = [] ∨ text.getLast? = some newline := by
      rcases hend with hend | hend
      · simp at hend
      · cases text with
        | nil => exact .inl rfl
        | cons b text => exact .inr (by simpa [List.getLast?_append] using hend)
    rw [List.append_assoc, List.cons_append, List.cons_append]
    exact .line hline (ih htext)

theorem unlines_append (ls ms : List Bytes) : unlines (ls ++ ms) = unlines ls ++ unlines ms :=
  List.flatMap_append

end Bytes

namespace Pattern

variable {p : Pattern} {subject : Subject} {start length : Nat}

namespace Compiled

theorem minWidth_pos (hp : p.Compiled) (hcore : p.tokens.core p.format ≠ []) : 0 < p.minWidth := by
  have hsections : p.sections ≠ [] := by
    rw [hp.sections_eq, ne_eq, Tokens.sections_eq_nil_iff]
    exact hcore
  obtain ⟨s, rest, hcons⟩ := List.exists_cons_of_ne_nil hsections
  have hwidth := (hp.settled.trimmed s (by rw [hcons]; exact List.mem_cons_self)).width_pos
  rw [hp.minWidth_eq_totalWidth, hcons, Section.totalWidth_cons]
  omega

theorem length_pos_of_found (hp : p.Compiled) (hcore : p.tokens.core p.format ≠ [])
    (hstop : start + length ≤ subject.size) (hfound : (p.findIn subject start length).found = true) :
    0 < (p.findIn subject start length).length := by
  cases hmode : p.mode with
  | anywhere =>
    rcases hp.findIn_anywhere hmode hcore hstop with
      ⟨first, last, hfind, hearliest⟩ | ⟨hfind, -⟩
    · have hlt := hearliest.holds.lt hp.distinct hcore
      rw [hfind, Match.length_covering]
      omega
    · rw [hfind] at hfound
      cases hfound
  | whole =>
    have hwidth := hp.minWidth_pos hcore
    have hroom : p.minWidth ≤ length := by
      by_contra hshort
      rw [findIn, if_pos (Nat.lt_of_not_le hshort)] at hfound
      cases hfound
    have hsome := mt Tokens.core_eq_nil_iff.mpr hcore
    push Not at hsome
    rcases hp.findIn_whole hmode hsome hstop with ⟨-, hfind⟩ | ⟨-, hfind⟩
    · rw [hfind, Match.length_covering]
      omega
    · rw [hfind] at hfound
      cases hfound

end Compiled
end Pattern

namespace LineFilter

open Pattern

variable {p : Pattern} {spec : Spec} {label line text : Bytes} {texts shownLines : List Bytes}
  {front back ls ms : List Bytes} {number count : Nat}

/-- The text of a line: a line that ends in a carriage return loses that one byte. -/
inductive TextOf : Bytes → Bytes → Prop
  | returned {text : Bytes} : TextOf (text ++ [carriageReturn]) text
  | plain {line : Bytes} : line.getLast? ≠ some carriageReturn → TextOf line line

theorem textOf_iff : TextOf line text ↔ text = chop line := by
  constructor
  · rintro (_ | h)
    · simp [chop]
    · simp [chop, h]
  · rintro rfl
    by_cases h : line.getLast? = some carriageReturn
    · obtain ⟨text, rfl⟩ := List.getLast?_eq_some_iff.mp h
      simpa [chop] using TextOf.returned
    · simpa [chop, h] using TextOf.plain h

def IsShort (line : Bytes) : Prop := ∀ text, TextOf line text → text.length < 2147483648

theorem isShort_iff : IsShort line ↔ (chop line).length < 2147483648 := by
  simp [IsShort, textOf_iff]

theorem IsShort.of_length (h : line.length < 2147483648) : IsShort line := by
  rintro text (_ | _)
  · rw [List.length_append] at h
    omega
  · exact h

/-- The texts that a selected line shows: itself, or of each match that is not empty the text. -/
inductive Shows (p : Pattern) (spec : Spec) (line : Bytes) : List Bytes → Prop
  | whole : spec.onlyMatching = false ∨ spec.invert = true → Shows p spec line [line]
  | pieces {found : List Match} : spec.onlyMatching = true → spec.invert = false →
      p.allMatches line.toArray .all = .ok found →
      Shows p spec line ((found.filter fun m => 0 < m.length).map fun m =>
        Subject.slice line.toArray m.start m.length.toNat)

/-- What a filter does with lines, the first of which has the given number: how many are selected, and
the lines that they show. -/
inductive Filters (p : Pattern) (spec : Spec) (label : Bytes) :
    Nat → List Bytes → Nat → List Bytes → Prop
  | nil {number : Nat} : Filters p spec label number [] 0 []
  | skipped {number count : Nat} {line text : Bytes} {rest shownLines : List Bytes} :
      TextOf line text → p.isMatch text.toArray .all = .ok spec.invert →
      Filters p spec label (number + 1) rest count shownLines →
      Filters p spec label number (line :: rest) count shownLines
  | selected {number count : Nat} {line text : Bytes} {rest texts shownLines : List Bytes} :
      TextOf line text → p.isMatch text.toArray .all = .ok (!spec.invert) →
      Shows p spec text texts → Filters p spec label (number + 1) rest count shownLines →
      Filters p spec label number (line :: rest) (count + 1)
        (texts.map (labelText label ++ numberText spec number ++ ·) ++ shownLines)

theorem filterMap_text (subject : Subject) (found : List Match) :
    (found.filterMap fun m =>
      match m.length? with
      | some (n + 1) => some (Subject.slice subject m.start (n + 1))
      | _ => none) =
      (found.filter fun m => 0 < m.length).map fun m =>
        Subject.slice subject m.start m.length.toNat := by
  induction found with
  | nil => rfl
  | cons m found ih =>
    obtain ⟨start, length?⟩ := m
    rw [List.filterMap_cons, ih]
    rcases length? with _ | _ | n
    · rfl
    · rfl
    · have hpos : 0 < (⟨start, some (n + 1)⟩ : Match).length := Int.natCast_pos.mpr n.succ_pos
      rw [List.filter_cons, if_pos (by simpa using hpos)]
      rfl

theorem Shows.shown_eq (h : Shows p spec line texts) : shown p spec line = .ok texts := by
  cases h with
  | whole h =>
    have hwhole : ¬ (spec.onlyMatching && !spec.invert) = true := by
      rcases h with h | h <;> simp [h]
    rw [shown, if_neg hwhole]
  | @pieces found honly hinvert hfound =>
    have hpieces : (spec.onlyMatching && !spec.invert) = true := by rw [honly, hinvert]; rfl
    rw [shown, if_pos hpieces, LineFilter.pieces, hfound]
    exact congrArg Except.ok (filterMap_text line.toArray found)

theorem exists_shows (hp : p.Compiled) (spec : Spec) (hsize : line.length < 2147483648) :
    ∃ texts, Shows p spec line texts := by
  by_cases hwhole : spec.onlyMatching = false ∨ spec.invert = true
  · exact ⟨[line], .whole hwhole⟩
  · rw [not_or, Bool.not_eq_false, Bool.not_eq_true] at hwhole
    obtain ⟨c, hscans, hall⟩ := p.exists_scans_all hsize
    obtain ⟨found, hfound⟩ := hp.exists_upcoming hscans
    exact ⟨_, .pieces hwhole.1 hwhole.2 (hall.trans hfound)⟩

theorem exists_filters (hp : p.Compiled) (spec : Spec) (label : Bytes) (number : Nat)
    (hshort : ∀ line ∈ ls, IsShort line) :
    ∃ count shownLines, Filters p spec label number ls count shownLines := by
  induction ls generalizing number with
  | nil => exact ⟨0, [], .nil⟩
  | cons line rest ih =>
    rw [List.forall_mem_cons, isShort_iff] at hshort
    obtain ⟨count, shownLines, hrest⟩ := ih (number + 1) hshort.2
    have htext : TextOf line (chop line) := textOf_iff.mpr rfl
    obtain ⟨hit, hmatch⟩ : ∃ hit, p.isMatch (chop line).toArray .all = .ok hit :=
      ⟨_, p.isMatch_all hshort.1⟩
    by_cases hhit : hit = spec.invert
    · exact ⟨count, shownLines, .skipped htext (hhit ▸ hmatch) hrest⟩
    · obtain ⟨texts, htexts⟩ := exists_shows hp spec hshort.1
      exact ⟨_, _, .selected htext (Bool.eq_not.mpr hhit ▸ hmatch) htexts hrest⟩

def printedLines (spec : Spec) (shownLines : List Bytes) : Bytes :=
  if spec.countOnly then [] else Bytes.unlines shownLines

section Line

variable (label : Bytes) (number : Nat) (htext : TextOf line text)

include htext

theorem printLine_of_skipped (hmatch : p.isMatch text.toArray .all = .ok spec.invert) :
    printLine p spec label number line = ⟨[], [], .ok 0⟩ := by
  obtain rfl := textOf_iff.mp htext
  have hanswer : answer p spec (chop line) = .ok none := by
    rw [answer, hmatch]
    exact if_pos rfl
  rw [printLine, hanswer]
  rfl

theorem printLine_of_selected (hmatch : p.isMatch text.toArray .all = .ok (!spec.invert))
    (hshows : Shows p spec text texts) :
    printLine p spec label number line = ⟨printedLines spec
      (texts.map (labelText label ++ numberText spec number ++ ·)), [], .ok 1⟩ := by
  obtain rfl := textOf_iff.mp htext
  have hanswer : answer p spec (chop line) =
      .ok (some (if spec.countOnly then [] else texts)) := by
    rw [answer, hmatch, hshows.shown_eq]
    cases spec.invert <;> cases spec.countOnly <;> rfl
  rw [printLine, hanswer, printedLines]
  cases spec.countOnly <;> simp [Printing.ofExcept, Printing.print, pure]

theorem printLine_of_long (hlong : 2147483648 ≤ text.length) :
    printLine p spec label number line = ⟨[], [], .error .subjectTooLong⟩ := by
  obtain rfl := textOf_iff.mp htext
  have hrefused : p.isMatch (chop line).toArray .all = .error .subjectTooLong :=
    p.isMatch_of_long .all hlong
  have hanswer : answer p spec (chop line) = .error .subjectTooLong := by
    rw [answer, hrefused]
    rfl
  rw [printLine, hanswer]
  rfl

end Line

theorem printLines_append (p : Pattern) (spec : Spec) (label : Bytes) (number : Nat)
    (front back : List Bytes) :
    printLines p spec label number (front ++ back) =
      printLines p spec label number front >>= fun selected =>
        (selected + ·) <$> printLines p spec label (number + front.length) back := by
  induction front generalizing number with
  | nil =>
    simp only [printLines, List.nil_append, List.length_nil, pure_bind, Nat.zero_add, Nat.add_zero,
      id_map']
  | cons line rest ih =>
    have hnumber : number + 1 + rest.length = number + (line :: rest).length := by
      rw [List.length_cons]
      omega
    rw [List.cons_append, printLines, printLines, ih, hnumber]
    simp only [bind_assoc, map_bind, bind_map_left, Functor.map_map, Nat.add_assoc]

theorem printLines_renumber (hnumbers : spec.lineNumbers = false) (p : Pattern) (label : Bytes)
    (number number' : Nat) (ls : List Bytes) :
    printLines p spec label number ls = printLines p spec label number' ls := by
  have hnone : ∀ n, numberText spec n = [] := by
    intro n
    rw [numberText, hnumbers]
    rfl
  induction ls generalizing number number' with
  | nil => rfl
  | cons line rest ih =>
    simp only [printLines, printLine, hnone, ih (number + 1) (number' + 1)]

theorem err_printLines (p : Pattern) (spec : Spec) (label : Bytes) (number : Nat)
    (ls : List Bytes) : (printLines p spec label number ls).err = [] := by
  induction ls generalizing number with
  | nil => rfl
  | cons line rest ih =>
    refine Printing.err_bind (Printing.err_bind rfl fun texts? => ?_) fun _ => ih (number + 1)
    cases texts? <;> rfl

theorem err_print (p : Pattern) (spec : Spec) (label input : Bytes) :
    (print p spec label input).err = [] := by
  refine Printing.err_bind (err_printLines p spec label 1 _) fun selected => ?_
  cases spec.countOnly <;> rfl

/-- What a filter does with lines is printed, and the lines selected are counted. -/
theorem Filters.printLines_eq (h : Filters p spec label number ls count shownLines) :
    printLines p spec label number ls = ⟨printedLines spec shownLines, [], .ok count⟩ := by
  induction h with
  | nil => cases hcount : spec.countOnly <;> simp [printLines, printedLines, hcount, pure]
  | skipped htext hmatch _ ih =>
    rw [printLines, printLine_of_skipped label _ htext hmatch, ih]
    simp
  | selected htext hmatch hshows _ ih =>
    rw [printLines, printLine_of_selected label _ htext hmatch hshows, ih]
    simp only [printedLines]
    cases spec.countOnly <;> simp [Bytes.unlines_append, Nat.add_comm]

theorem Filters.print_eq {input : Bytes}
    (h : Filters p spec label 1 (Bytes.lines input) count shownLines) :
    print p spec label input = ⟨if spec.countOnly then
        labelText label ++ Bytes.decimal count ++ [Bytes.newline]
      else Bytes.unlines shownLines, [], .ok count⟩ := by
  rw [print, h.printLines_eq, printedLines]
  cases spec.countOnly <;> simp [Printing.print, pure]

theorem Filters.run_eq {input : Bytes}
    (h : Filters p spec label 1 (Bytes.lines input) count shownLines) :
    run p spec label input = .ok ⟨count, if spec.countOnly then
        labelText label ++ Bytes.decimal count ++ [Bytes.newline]
      else Bytes.unlines shownLines⟩ := by
  rw [run, h.print_eq]
  rfl

theorem Filters.print_of_long {input : Bytes}
    (h : Filters p spec label 1 front count shownLines) (hlong : ¬ IsShort line)
    (hlines : Bytes.lines input = front ++ line :: back) :
    print p spec label input = ⟨printedLines spec shownLines, [], .error .subjectTooLong⟩ := by
  rw [isShort_iff, Nat.not_lt] at hlong
  have hstop : ∀ number, printLine p spec label number line =
      ⟨[], [], .error .subjectTooLong⟩ :=
    fun number => printLine_of_long label number (textOf_iff.mpr rfl) hlong
  rw [print, hlines, printLines_append, h.printLines_eq, printLines, hstop]
  simp only [Printing.error_bind, Printing.ok_bind, Printing.map_error, List.append_nil]

theorem short_or_exists_long (ls : List Bytes) :
    (∀ line ∈ ls, IsShort line) ∨ ∃ front line back, ls = front ++ line :: back ∧
      (∀ l ∈ front, IsShort l) ∧ ¬ IsShort line := by
  induction ls with
  | nil => exact .inl (by simp)
  | cons line rest ih =>
    by_cases hshort : IsShort line
    · rcases ih with hrest | ⟨front, long, back, rfl, hfront, hlong⟩
      · exact .inl (List.forall_mem_cons.mpr ⟨hshort, hrest⟩)
      · exact .inr ⟨line :: front, long, back, rfl, List.forall_mem_cons.mpr ⟨hshort, hfront⟩, hlong⟩
    · exact .inr ⟨[], line, rest, rfl, by simp, hshort⟩

theorem long_of_replicate {b : UInt8} {n : Nat} (hb : b ≠ Bytes.newline ∧ b ≠ carriageReturn)
    (hn : 2147483648 ≤ n) :
    Bytes.CutsInto (List.replicate n b) [List.replicate n b] ∧ ¬ IsShort (List.replicate n b) := by
  have hmem : ∀ c ∈ List.replicate n b, c = b := fun c hc => (List.mem_replicate.mp hc).2
  refine ⟨.last ?_ ?_, ?_⟩
  · exact List.ne_nil_of_length_pos (by rw [List.length_replicate]; omega)
  · exact fun hnewline => hb.1 (hmem _ hnewline).symm
  · intro hshort
    have htext : TextOf (List.replicate n b) (List.replicate n b) :=
      .plain fun hlast => hb.2 (hmem _ (List.mem_of_getLast? hlast)).symm
    have hlength := hshort _ htext
    rw [List.length_replicate] at hlength
    omega

/-- A filter does with its first lines what it prints: with all of them, unless one is not short and
stops it. -/
theorem exists_filters_of_print (hp : p.Compiled) (spec : Spec) (label input : Bytes) :
    ∃ kept count shownLines, kept <+: Bytes.lines input ∧
      Filters p spec label 1 kept count shownLines ∧
      (spec.countOnly = false →
        (print p spec label input).out = Bytes.unlines shownLines) ∧
      ((∀ line ∈ Bytes.lines input, IsShort line) →
        (print p spec label input).result = .ok count) ∧
      ((∃ line ∈ Bytes.lines input, ¬ IsShort line) →
        (print p spec label input).result = .error .subjectTooLong) := by
  rcases short_or_exists_long (Bytes.lines input) with
    hshort | ⟨front, line, back, hlines, hshort, hlong⟩
  · obtain ⟨count, shownLines, hfilters⟩ := exists_filters hp spec label 1 hshort
    refine ⟨_, count, shownLines, List.prefix_refl _, hfilters, ?_, ?_, ?_⟩
    · intro hcount
      rw [hfilters.print_eq, hcount]
      rfl
    · intro _
      rw [hfilters.print_eq]
    · rintro ⟨line, hline, hlong⟩
      exact absurd (hshort line hline) hlong
  · obtain ⟨count, shownLines, hfilters⟩ := exists_filters hp spec label 1 hshort
    have hprint := hfilters.print_of_long hlong hlines
    refine ⟨front, count, shownLines, ⟨line :: back, hlines.symm⟩, hfilters, ?_, ?_, ?_⟩
    · intro hcount
      rw [hprint, printedLines, hcount]
      rfl
    · intro hall
      exact absurd (hall line (by simp [hlines])) hlong
    · intro _
      rw [hprint]

theorem print_append (hcount : spec.countOnly = false) (hnumbers : spec.lineNumbers = false)
    (p : Pattern) (label : Bytes) {front : Bytes} (back : Bytes)
    (hend : front = [] ∨ front.getLast? = some Bytes.newline) :
    print p spec label (front ++ back) =
      do return (← print p spec label front) + (← print p spec label back) := by
  have hprint : ∀ input,
      print p spec label input = printLines p spec label 1 (Bytes.lines input) := by
    intro input
    simp [print, hcount]
  have hlines := ((Bytes.cutsInto_lines front).append (Bytes.cutsInto_lines back) hend).lines_eq
  simp only [hprint, hlines, printLines_append, bind_pure_comp,
    printLines_renumber hnumbers p label (1 + (Bytes.lines front).length) 1]

theorem Shows.eq_nil_iff (hp : p.Compiled) (honly : spec.onlyMatching = true)
    (hinvert : spec.invert = false) (hsize : line.length < 2147483648)
    (hmatch : p.isMatch line.toArray .all = .ok true) (h : Shows p spec line texts) :
    texts = [] ↔ ∀ b ∈ p.format, b = p.tokens.anything := by
  rw [p.isMatch_all hsize] at hmatch
  cases h with
  | whole hwhole =>
    rw [honly, hinvert] at hwhole
    simp at hwhole
  | @pieces found _ _ hfound =>
    obtain ⟨c, hscans, hall⟩ := p.exists_scans_all hsize
    rw [hall] at hfound
    rw [List.map_eq_nil_iff, List.filter_eq_nil_iff, ← Tokens.core_eq_nil_iff]
    constructor
    · intro hempty
      by_contra hcore
      have hfirst : (p.findIn line.toArray 0 line.toArray.size).found = true :=
        Except.ok.inj hmatch
      obtain ⟨later, rfl⟩ := hscans.exists_later_of_found hfound hfirst
      have hlength := hp.length_pos_of_found hcore (Nat.zero_add _).le hfirst
      exact hempty _ List.mem_cons_self (by simpa using hlength)
    · intro hcore
      rw [hp.upcoming_of_core_eq_nil hcore hscans] at hfound
      obtain rfl := Except.ok.inj hfound
      simp

/-- A run does with the lines of its input what a filter does, and prints how many are selected or the
lines that they show. It stops at the first line whose length is no word, with what the lines before it
show printed. Two inputs, the first of which ends with a line end, give together what they give one
after the other if no numbers are asked for. Of a selected line there is a match to show unless the
format is made of anything tokens only. -/
theorem run_filters (mode : Mode) {format : Bytes} {tokens : Tokens}
    (hcompilable : Compilable format tokens) :
    ∃ p, compile format mode tokens = .ok p ∧ ∀ (spec : Spec) (label : Bytes),
      (∀ input, (∃ ls, Bytes.CutsInto input ls) ∧ ∀ ls, Bytes.CutsInto input ls →
        ((∀ line ∈ ls, IsShort line) →
          (∃ count shownLines, Filters p spec label 1 ls count shownLines) ∧
          ∀ count shownLines, Filters p spec label 1 ls count shownLines →
            run p spec label input = .ok ⟨count,
              if spec.countOnly then labelText label ++ Bytes.decimal count ++ [Bytes.newline]
              else Bytes.unlines shownLines⟩) ∧
        ∀ front line back, ls = front ++ line :: back → (∀ l ∈ front, IsShort l) →
          ¬ IsShort line →
          (∃ count shownLines, Filters p spec label 1 front count shownLines) ∧
          ∀ count shownLines, Filters p spec label 1 front count shownLines →
            run p spec label input = .error .subjectTooLong ∧
            (print p spec label input).out =
              if spec.countOnly then [] else Bytes.unlines shownLines) ∧
      (spec.countOnly = false → spec.lineNumbers = false → ∀ front back : Bytes,
        front = [] ∨ front.getLast? = some Bytes.newline →
        print p spec label (front ++ back) =
            (do return (← print p spec label front) + (← print p spec label back)) ∧
          ((∀ line ∈ Bytes.lines front ++ Bytes.lines back, IsShort line) →
            ∃ r s, run p spec label front = .ok r ∧ run p spec label back = .ok s ∧
              run p spec label (front ++ back) =
                .ok ⟨r.selected + s.selected, r.output ++ s.output⟩)) ∧
      (spec.onlyMatching = true → spec.invert = false → ∀ line : Bytes,
        p.isMatch line.toArray .all = .ok true →
        ∃ texts, Shows p spec line texts ∧ (texts = [] ↔ ∀ b ∈ format, b = tokens.anything)) := by
  obtain ⟨p, hcompile⟩ := hcompilable.exists_compiled mode
  obtain ⟨hp, rfl, rfl, rfl⟩ := compile_eq_ok_iff.mp hcompile
  refine ⟨p, hcompile, fun spec label => ⟨?_, ?_, ?_⟩⟩
  · intro input
    refine ⟨Bytes.exists_cutsInto input, fun ls hls => ⟨?_, ?_⟩⟩
    · intro hshort
      refine ⟨exists_filters hp spec label 1 hshort, fun count shownLines hfilters => ?_⟩
      rw [← hls.lines_eq] at hfilters
      exact hfilters.run_eq
    · intro front line back hcut hshort hlong
      refine ⟨exists_filters hp spec label 1 hshort, fun count shownLines hfilters => ?_⟩
      have hprint := hfilters.print_of_long hlong (hls.lines_eq.trans hcut)
      exact ⟨by rw [run, hprint]; rfl, by rw [hprint]; rfl⟩
  · intro hcount hnumbers front back hend
    have hprint := print_append hcount hnumbers p label back hend
    refine ⟨hprint, fun hshort => ?_⟩
    rw [List.forall_mem_append] at hshort
    obtain ⟨count, shownLines, hfront⟩ := exists_filters hp spec label 1 hshort.1
    obtain ⟨count', shownLines', hback⟩ := exists_filters hp spec label 1 hshort.2
    refine ⟨_, _, hfront.run_eq, hback.run_eq, ?_⟩
    rw [run, hprint, hfront.print_eq, hback.print_eq]
    simp [Except.map, pure]
  · intro honly hinvert line hmatch
    have hsize := p.size_lt_of_isMatch hmatch
    obtain ⟨texts, htexts⟩ := exists_shows hp spec hsize
    exact ⟨texts, htexts, htexts.eq_nil_iff hp honly hinvert hsize hmatch⟩

/-- The lines `err` and `errexr` show three matches, the line between them none. -/
theorem run_filters_of_pieces :
    ∃ p, compile [101, 63, 114] .anywhere {} = .ok p ∧
      run p { onlyMatching := true, lineNumbers := true } [108]
          [101, 114, 114, 13, 10, 110, 111, 10, 101, 114, 114, 101, 120, 114] =
        .ok ⟨2, [108, 58, 49, 58, 101, 114, 114, 10, 108, 58, 51, 58, 101, 114, 114, 10,
          108, 58, 51, 58, 101, 120, 114, 10]⟩ := by
  obtain ⟨p, hp, h⟩ := @run_filters .anywhere [101, 63, 114] {} (by decide)
  obtain ⟨hprints, -, -⟩ := h { onlyMatching := true, lineNumbers := true } [108]
  have hcut : Bytes.CutsInto [101, 114, 114, 13, 10, 110, 111, 10, 101, 114, 114, 101, 120, 114]
      [[101, 114, 114, 13], [110, 111], [101, 114, 114, 101, 120, 114]] :=
    Bytes.cutsInto_lines _
  obtain ⟨hcomplete, -⟩ := (hprints _).2 _ hcut
  have hlengths : ∀ line ∈ ([[101, 114, 114, 13], [110, 111],
      [101, 114, 114, 101, 120, 114]] : List Bytes), line.length < 2147483648 := by decide
  obtain ⟨-, hrun⟩ := hcomplete fun line hline => .of_length (hlengths line hline)
  have hfirst : p.isMatch #[101, 114, 114] .all = .ok true ∧
      p.allMatches #[101, 114, 114] .all = .ok [.covering 0 3] := by
    cases hp
    decide +kernel
  have hsecond : p.isMatch #[110, 111] .all = .ok false := by
    cases hp
    decide +kernel
  have hthird : p.isMatch #[101, 114, 114, 101, 120, 114] .all = .ok true ∧
      p.allMatches #[101, 114, 114, 101, 120, 114] .all =
        .ok [.covering 0 3, .covering 3 3] := by
    cases hp
    decide +kernel
  have hreturned : TextOf [101, 114, 114, 13] [101, 114, 114] := @TextOf.returned [101, 114, 114]
  exact ⟨p, hp, hrun 2 _ (.selected hreturned hfirst.1 (.pieces rfl rfl hfirst.2)
    (.skipped (.plain (by decide)) hsecond
      (.selected (.plain (by decide)) hthird.1 (.pieces rfl rfl hthird.2) .nil)))⟩

/-- A line of 2 to the 31st bytes is not selected and not passed over: the run gives no number. -/
theorem run_of_long_line :
    let input : Bytes := List.replicate 2147483648 97
    ∃ p, compile [97] .anywhere {} = .ok p ∧ Bytes.CutsInto input [input] ∧
      run p {} [] input = .error .subjectTooLong ∧ ¬ ∃ report, run p {} [] input = .ok report := by
  intro input
  obtain ⟨p, hcompile⟩ := @Compilable.exists_compiled [97] {} (by decide) .anywhere
  obtain ⟨hcut, hlong⟩ := @long_of_replicate 97 2147483648 (by decide) (Nat.le_refl _)
  have hnone : Filters p {} [] 1 [] 0 [] := .nil
  have hrun : run p {} [] input = .error .subjectTooLong := by
    rw [run, hnone.print_of_long hlong hcut.lines_eq]
    rfl
  exact ⟨p, hcompile, hcut, hrun, fun ⟨report, hreport⟩ => by simp [hrun] at hreport⟩

end LineFilter
end Wildcard
