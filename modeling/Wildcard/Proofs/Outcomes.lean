import Mathlib.Algebra.GroupWithZero.Nat
import Wildcard.Files
import Wildcard.Proofs.CommandOptions
import Wildcard.Proofs.Filtering

/-!
# Outcomes of runs

A run that is accepted ends in one of four ways: the pattern is refused, the pattern is shown as a
regular expression, standard input is filtered, or files are. Files are gone through in their order;
one that cannot be read is reported and changes nothing about the others. A line that is too long to be
searched ends the run, and no file behind it is read.
-/

namespace Wildcard

namespace LineFilter

variable {p : Pattern} {spec : Spec} {label input : Bytes} {r : Report}

theorem print_of_run (h : run p spec label input = .ok r) :
    print p spec label input = ⟨r.output, [], .ok r.selected⟩ := by
  cases hresult : (print p spec label input).result with
  | error e =>
    simp only [run, hresult] at h
    cases h
  | ok selected =>
    simp only [run, hresult] at h
    cases h
    exact Printing.eq_of_result (err_print p spec label input) hresult

theorem exists_run_eq_ok (hp : p.Compiled) (spec : Spec) (label : Bytes)
    (hshort : ∀ line ∈ Bytes.lines input, IsShort line) :
    ∃ report, run p spec label input = .ok report := by
  obtain ⟨count, shownLines, hfilters⟩ := exists_filters hp spec label 1 hshort
  exact ⟨_, hfilters.run_eq⟩

theorem print_of_exists_long (hp : p.Compiled) (spec : Spec) (label : Bytes)
    (hlong : ∃ line ∈ Bytes.lines input, ¬ IsShort line) :
    print p spec label input = ⟨(print p spec label input).out, [], .error .subjectTooLong⟩ := by
  obtain ⟨_, _, _, -, -, -, -, hstopped⟩ := exists_filters_of_print hp spec label input
  exact Printing.eq_of_result (err_print p spec label input) (hstopped hlong)

end LineFilter

namespace Command

open LineFilter (IsShort)

variable {p : Pattern} {spec : LineFilter.Spec} {files : Bytes → Option Bytes} {labelled : Bool}
  {path format : Bytes} {front back paths : List Bytes} {tally : Tally}
  {report : LineFilter.Report} {reports : List LineFilter.Report}

def readable (files : Bytes → Option Bytes) (paths : List Bytes) : List (Bytes × Bytes) :=
  paths.filterMap fun path => (files path).map (path, ·)

def missing (files : Bytes → Option Bytes) (paths : List Bytes) : List Bytes :=
  paths.filter fun path => (files path).isNone

/-- A line on standard error for each path that cannot be opened. -/
def unopened (paths : List Bytes) : Bytes :=
  paths.flatMap fun path => Bytes.ascii "wildrex: " ++ path ++ Bytes.ascii ": cannot open\n"

theorem complain_cannotOpen (path : Bytes) :
    complain (path ++ Bytes.ascii ": cannot open") =
      Bytes.ascii "wildrex: " ++ path ++ Bytes.ascii ": cannot open\n" := by
  rw [complain, List.append_assoc, List.append_assoc, List.append_assoc]
  rfl

/-- Each report is on the file of its place, with the path for a label if there are to be labels. -/
def Reports (p : Pattern) (spec : LineFilter.Spec) (labelled : Bool) :
    List (Bytes × Bytes) → List LineFilter.Report → Prop :=
  List.Forall₂ fun file report =>
    LineFilter.run p spec (if labelled then file.1 else []) file.2 = .ok report

theorem exists_reports (hp : p.Compiled) (spec : LineFilter.Spec) (labelled : Bool)
    {inputs : List (Bytes × Bytes)}
    (hshort : ∀ file ∈ inputs, ∀ line ∈ Bytes.lines file.2, IsShort line) :
    ∃ reports, Reports p spec labelled inputs reports := by
  induction inputs with
  | nil => exact ⟨[], .nil⟩
  | cons file rest ih =>
    rw [List.forall_mem_cons] at hshort
    obtain ⟨report, hreport⟩ :=
      LineFilter.exists_run_eq_ok hp spec (if labelled then file.1 else []) hshort.1
    obtain ⟨reports, hreports⟩ := ih hshort.2
    exact ⟨report :: reports, .cons hreport hreports⟩

namespace Tally

def plus (tally : Tally) (reports : List LineFilter.Report) (absent : List Bytes) : Tally where
  selected := tally.selected + (reports.map (·.selected)).sum
  unreadable := tally.unreadable || !absent.isEmpty

@[simp] theorem plus_nil (tally : Tally) : tally.plus [] [] = tally := by simp [plus]

theorem plus_plus (tally : Tally) (reports reports' : List LineFilter.Report)
    (absent absent' : List Bytes) :
    (tally.plus reports absent).plus reports' absent' =
      tally.plus (reports ++ reports') (absent ++ absent') := by
  cases absent <;> simp [plus, Nat.add_assoc]

/-- What is printed on the way to a tally that has some reports and missing files added. -/
def printed (tally : Tally) (reports : List LineFilter.Report) (absent : List Bytes) :
    Printing Tally :=
  ⟨reports.flatMap (·.output), unopened absent, .ok (tally.plus reports absent)⟩

theorem addFile_of_none (h : files path = none) (tally : Tally) :
    addFile p spec files labelled tally path = tally.printed [] [path] := by
  simp [addFile, h, complain_cannotOpen, printed, plus, unopened, Printing.warn, pure]

theorem addFile_of_some {input : Bytes} (h : files path = some input)
    (hrun : LineFilter.run p spec (if labelled then path else []) input = .ok report)
    (tally : Tally) :
    addFile p spec files labelled tally path = tally.printed [report] [] := by
  simp [addFile, h, LineFilter.print_of_run hrun, printed, plus, unopened, pure]

theorem addFile_of_stop {input out : Bytes} {e : RangeError} (h : files path = some input)
    (hprint : LineFilter.print p spec (if labelled then path else []) input = ⟨out, [], .error e⟩)
    (tally : Tally) :
    addFile p spec files labelled tally path = ⟨out, [], .error e⟩ := by
  simp [addFile, h, hprint]

theorem printed_bind (tally : Tally) (reports reports' : List LineFilter.Report)
    (absent absent' : List Bytes) :
    (tally.printed reports absent >>= fun t => t.printed reports' absent') =
      tally.printed (reports ++ reports') (absent ++ absent') := by
  simp [printed, plus_plus, unopened]

theorem foldlM_addFile (h : Reports p spec labelled (readable files paths) reports)
    (tally : Tally) :
    paths.foldlM (addFile p spec files labelled) tally =
      tally.printed reports (missing files paths) := by
  induction paths generalizing tally reports with
  | nil =>
    cases h
    simp [printed, missing, unopened, pure]
  | cons path rest ih =>
    cases hfile : files path with
    | none =>
      have hreadable : readable files (path :: rest) = readable files rest := by
        simp [readable, hfile]
      have hmissing : missing files (path :: rest) = path :: missing files rest := by
        simp [missing, hfile]
      rw [hreadable] at h
      simp only [List.foldlM_cons, addFile_of_none hfile, hmissing, ih h]
      exact printed_bind tally [] reports [path] (missing files rest)
    | some input =>
      have hreadable : readable files (path :: rest) = (path, input) :: readable files rest := by
        simp [readable, hfile]
      have hmissing : missing files (path :: rest) = missing files rest := by
        simp [missing, hfile]
      rw [hreadable] at h
      cases h with
      | @cons _ report _ reports hreport hreports =>
        simp only [List.foldlM_cons, addFile_of_some hfile hreport, hmissing, ih hreports]
        exact printed_bind tally [report] reports [] (missing files rest)

theorem status_plus (reports : List LineFilter.Report) (absent : List Bytes) :
    (({} : Tally).plus reports absent).status =
      if absent ≠ [] then 2 else if 0 < (reports.map (·.selected)).sum then 0 else 1 := by
  cases absent <;> simp [status, plus]

end Tally

theorem filterInputs_nil {world : World}
    (h : LineFilter.run p spec [] world.stdin = .ok report) :
    filterInputs p spec world [] = ({} : Tally).printed [report] [] := by
  simp [filterInputs, LineFilter.print_of_run h, Tally.printed, Tally.plus, unopened]

theorem filterInputs_nil_of_stop {world : World} {out : Bytes} {e : RangeError}
    (h : LineFilter.print p spec [] world.stdin = ⟨out, [], .error e⟩) :
    filterInputs p spec world [] = ⟨out, [], .error e⟩ := by
  simp [filterInputs, h]

theorem filterInputs_of_reports {world : World} (hpaths : paths ≠ [])
    (h : Reports p spec (paths.length > 1) (readable world.files paths) reports) :
    filterInputs p spec world paths = ({} : Tally).printed reports (missing world.files paths) := by
  rw [filterInputs, if_neg (by simpa using hpaths)]
  exact Tally.foldlM_addFile h {}

theorem filterInputs_of_one_file {world world' : World} {file : Bytes}
    (hfile : world'.files file = some world.stdin) :
    filterInputs p spec world' [file] = filterInputs p spec world [] := by
  simp [filterInputs, Tally.addFile, hfile]

/-- A file that stops the filter is the last one read. -/
theorem filterInputs_of_stop {world : World} {input out : Bytes} {e : RangeError}
    (hpaths : paths = front ++ path :: back)
    (h : Reports p spec (paths.length > 1) (readable world.files front) reports)
    (hfile : world.files path = some input)
    (hprint : LineFilter.print p spec (if paths.length > 1 then path else []) input =
      ⟨out, [], .error e⟩) :
    filterInputs p spec world paths =
      ⟨reports.flatMap (·.output) ++ out, unopened (missing world.files front), .error e⟩ := by
  have hne : ¬ paths.isEmpty = true := by simp [hpaths]
  have hstop : ∀ tally, Tally.addFile p spec world.files (paths.length > 1) tally path =
      ⟨out, [], .error e⟩ := Tally.addFile_of_stop hfile (by simpa using hprint)
  rw [filterInputs, if_neg hne]
  generalize decide (paths.length > 1) = labelled at h hstop ⊢
  rw [hpaths, List.foldlM_append, Tally.foldlM_addFile h]
  simp [Tally.printed, hstop]

section Execution

variable {o : Options} {settings : Config.Settings} {world : World}

def described (settings : Config.Settings) (p : Pattern) : Bytes :=
  if settings.verbose then describe p else []

def tooLong : Bytes := Bytes.ascii "wildrex: Match: subject longer than INT_MAX\n"

theorem execute_of_refused (h : format = [] ∨ settings.tokens.unknown = settings.tokens.anything ∨
      2147483648 ≤ format.length) :
    ∃ err, execute o settings world format paths = ⟨2, [], err⟩ := by
  have hrefused : (Pattern.compile format settings.mode settings.tokens).isOk = false := by
    rw [Bool.eq_false_iff, ne_eq, Pattern.compile_isOk_iff]
    rintro ⟨hformat, htokens, hlength⟩
    rcases h with h | h | h
    · exact hformat h
    · exact htokens h
    · omega
  cases hcompile : Pattern.compile format settings.mode settings.tokens with
  | error e => exact ⟨_, by rw [execute, hcompile]⟩
  | ok p =>
    rw [hcompile] at hrefused
    cases hrefused

theorem execute_of_regex (hcompile : Pattern.compile format settings.mode settings.tokens = .ok p)
    (hregex : o.regex = true) :
    execute o settings world format paths =
      ⟨0, Regex.ofPattern settings.dialect p ++ [Bytes.newline], described settings p⟩ := by
  simp only [execute, hcompile, hregex, if_true]
  rfl

theorem execute_of_tally {out err : Bytes}
    (hcompile : Pattern.compile format settings.mode settings.tokens = .ok p)
    (hregex : o.regex = false) (h : filterInputs p o.filter world paths = ⟨out, err, .ok tally⟩) :
    execute o settings world format paths = ⟨tally.status, out, described settings p ++ err⟩ := by
  simp only [execute, hcompile, hregex, h, Bool.false_eq_true, if_false]
  rfl

theorem execute_of_stop {out err : Bytes}
    (hcompile : Pattern.compile format settings.mode settings.tokens = .ok p)
    (hregex : o.regex = false)
    (h : filterInputs p o.filter world paths = ⟨out, err, .error .subjectTooLong⟩) :
    execute o settings world format paths = ⟨2, out, described settings p ++ err ++ tooLong⟩ := by
  simp only [execute, hcompile, hregex, h, Bool.false_eq_true, if_false]
  rfl

theorem execute_congr {o' : Options} {world' : World} {paths' : List Bytes}
    (hregex : o.regex = o'.regex) (hinputs : ∀ p, filterInputs p o.filter world paths =
      filterInputs p o'.filter world' paths') :
    execute o settings world format paths = execute o' settings world' format paths' := by
  simp only [execute, hregex, hinputs]

end Execution

namespace Options

variable {o : Options} {world world' : World}

theorem regex_ofItems (items : List Item) :
    (ofItems items).regex = decide (.regex ∈ items ∨ .sql ∈ items) := by
  rw [ofItems_eq_asked]
  rfl

theorem positional_ofItems (items : List Item) :
    (ofItems items).positional = items.filterMap Item.positional? := by
  rw [ofItems_eq_asked]
  rfl

/-- The text that a run takes its configuration from, if there is any. -/
def configuration (o : Options) (world : World) : Option Bytes :=
  if (Config.Settings.documentPath o.configPath world.env).isEmpty then none
  else world.files (Bytes.beforeNul (Config.Settings.documentPath o.configPath world.env))

/-- The settings of a run, in which its options stand above its configuration. -/
def resolved (o : Options) (world : World) : Config.Settings :=
  o.settings (Config.Settings.load o.configPath world.env world.files).1

def noticed (o : Options) (world : World) : Bytes :=
  (Config.Settings.load o.configPath world.env world.files).2.flatMap Config.Notice.text

theorem resolved_congr (henv : world'.env = world.env)
    (hconfiguration : o.configuration world' = o.configuration world) :
    o.resolved world' = o.resolved world ∧ o.noticed world' = o.noticed world := by
  simp only [configuration, henv] at hconfiguration
  have hload : Config.Settings.load o.configPath world.env world'.files =
      Config.Settings.load o.configPath world.env world.files := by
    simp only [Config.Settings.load, hconfiguration]
  simp only [resolved, noticed, henv, hload, and_self]

end Options

section Runs

variable {args : List Bytes} {items : List Item} {settings : Config.Settings} {world : World}
  (hread : readItems args = .ok items)
  (hpositional : items.filterMap Item.positional? = format :: paths)
  (hsettings : (Options.ofItems items).resolved world = settings)

include hread hpositional hsettings

theorem run_eq_of_execute {outcome : Outcome}
    (h : execute (.ofItems items) settings world format paths = outcome) :
    run args world =
      { outcome with err := (Options.ofItems items).noticed world ++ outcome.err } := by
  have hgiven := Options.positional_ofItems items
  rw [hpositional] at hgiven
  subst hsettings h
  simp only [run, hread, runOptions, hgiven]
  rfl

theorem run_of_regex (hcompile : Pattern.compile format settings.mode settings.tokens = .ok p)
    (hregex : (Options.ofItems items).regex = true) :
    run args world = ⟨0, Regex.ofPattern settings.dialect p ++ [Bytes.newline],
      (Options.ofItems items).noticed world ++ described settings p⟩ :=
  run_eq_of_execute hread hpositional hsettings (execute_of_regex hcompile hregex)

theorem run_of_stdin (hcompile : Pattern.compile format settings.mode settings.tokens = .ok p)
    (hregex : (Options.ofItems items).regex = false) (hpaths : paths = [])
    (h : LineFilter.run p (Options.ofItems items).filter [] world.stdin = .ok report) :
    run args world = ⟨if 0 < report.selected then 0 else 1, report.output,
      (Options.ofItems items).noticed world ++ described settings p⟩ := by
  subst hpaths
  have hrun := run_eq_of_execute hread hpositional hsettings
    (execute_of_tally hcompile hregex (filterInputs_nil h))
  rw [Tally.status_plus] at hrun
  simpa [unopened] using hrun

theorem run_of_files (hcompile : Pattern.compile format settings.mode settings.tokens = .ok p)
    (hregex : (Options.ofItems items).regex = false) (hpaths : paths ≠ [])
    (h : Reports p (Options.ofItems items).filter (paths.length > 1) (readable world.files paths)
      reports) :
    run args world =
      ⟨if missing world.files paths ≠ [] then 2
        else if 0 < (reports.map (·.selected)).sum then 0 else 1,
        reports.flatMap (·.output),
        (Options.ofItems items).noticed world ++ described settings p ++
          unopened (missing world.files paths)⟩ := by
  have hrun := run_eq_of_execute hread hpositional hsettings
    (execute_of_tally hcompile hregex (filterInputs_of_reports hpaths h))
  rw [Tally.status_plus] at hrun
  rw [hrun, List.append_assoc]

theorem run_of_stop {out err : Bytes}
    (hcompile : Pattern.compile format settings.mode settings.tokens = .ok p)
    (hregex : (Options.ofItems items).regex = false)
    (h : filterInputs p (Options.ofItems items).filter world paths =
      ⟨out, err, .error .subjectTooLong⟩) :
    run args world = ⟨2, out,
      (Options.ofItems items).noticed world ++ described settings p ++ err ++ tooLong⟩ := by
  rw [run_eq_of_execute hread hpositional hsettings (execute_of_stop hcompile hregex h)]
  simp only [List.append_assoc]

end Runs

/-- A run with one file is the run without files whose standard input is the text of the file. -/
theorem run_of_one_file {args args' : List Bytes} {items items' : List Item} {world world' : World}
    {file : Bytes} (hread : readItems args = .ok items)
    (hpositional : items.filterMap Item.positional? = [format])
    (hread' : readItems args' = .ok items')
    (hsame : Options.ofItems items' = { Options.ofItems items with positional := [format, file] })
    (henv : world'.env = world.env)
    (hconfiguration : (Options.ofItems items).configuration world' =
      (Options.ofItems items).configuration world)
    (hfile : world'.files file = some world.stdin) : run args' world' = run args world := by
  obtain ⟨hresolved, hnoticed⟩ := Options.resolved_congr henv hconfiguration
  have hpositional' : items'.filterMap Item.positional? = [format, file] := by
    rw [← Options.positional_ofItems, hsame]
  have hresolved' : (Options.ofItems items').resolved world' =
      (Options.ofItems items).resolved world := by
    rw [← hresolved, hsame]
    rfl
  have hnoticed' : (Options.ofItems items').noticed world' =
      (Options.ofItems items).noticed world := by
    rw [← hnoticed, hsame]
    rfl
  have hexecute : execute (.ofItems items') ((Options.ofItems items).resolved world) world' format
      [file] = execute (.ofItems items) ((Options.ofItems items).resolved world) world format [] := by
    apply execute_congr
    · rw [hsame]
    · intro p
      rw [filterInputs_of_one_file hfile, hsame]
  rw [run_eq_of_execute hread' hpositional' hresolved' hexecute,
    run_eq_of_execute hread hpositional rfl rfl, hnoticed']

/-- How a run ends that is accepted: with a pattern that is refused it fails; else it shows the
pattern as a regular expression, without regard to its inputs, or filters standard input, which is
the same as filtering a file with its text, or filters the files that can be read. A line that is too
long to be searched ends it with an error, behind what was printed before. -/
theorem run_outcome {args : List Bytes} {items : List Item} {settings : Config.Settings}
    {world : World} (hread : readItems args = .ok items)
    (hpositional : items.filterMap Item.positional? = format :: paths)
    (hsettings : (Options.ofItems items).resolved world = settings) :
    (format = [] ∨ settings.tokens.unknown = settings.tokens.anything ∨
        2147483648 ≤ format.length →
      (run args world).status = 2 ∧ (run args world).out = []) ∧
    (Pattern.Compilable format settings.tokens →
      ∃ p, Pattern.compile format settings.mode settings.tokens = .ok p ∧
        (.regex ∈ items ∨ .sql ∈ items →
          run args world = ⟨0, Regex.ofPattern settings.dialect p ++ [Bytes.newline],
            (Options.ofItems items).noticed world ++ described settings p⟩ ∧
          ∀ world' : World, world'.env = world.env →
            (Options.ofItems items).configuration world' =
              (Options.ofItems items).configuration world →
            run args world' = run args world) ∧
        (¬ (.regex ∈ items ∨ .sql ∈ items) → paths = [] →
          ((∀ line ∈ Bytes.lines world.stdin, IsShort line) → ∃ report,
            LineFilter.run p (Options.ofItems items).filter [] world.stdin = .ok report ∧
            run args world = ⟨if 0 < report.selected then 0 else 1, report.output,
              (Options.ofItems items).noticed world ++ described settings p⟩) ∧
          ((∃ line ∈ Bytes.lines world.stdin, ¬ IsShort line) →
            run args world =
              ⟨2, (LineFilter.print p (Options.ofItems items).filter [] world.stdin).out,
                (Options.ofItems items).noticed world ++ described settings p ++
                  Bytes.ascii "wildrex: Match: subject longer than INT_MAX\n"⟩) ∧
          ∀ args' items' file, readItems args' = .ok items' →
            Options.ofItems items' =
              { Options.ofItems items with positional := [format, file] } →
            ∀ world' : World, world'.env = world.env →
              (Options.ofItems items).configuration world' =
                (Options.ofItems items).configuration world →
              world'.files file = some world.stdin → run args' world' = run args world) ∧
        (¬ (.regex ∈ items ∨ .sql ∈ items) → paths ≠ [] →
          ((∀ file ∈ readable world.files paths, ∀ line ∈ Bytes.lines file.2, IsShort line) →
            ∃ reports,
              Reports p (Options.ofItems items).filter (paths.length > 1)
                (readable world.files paths) reports ∧
              run args world =
                ⟨if missing world.files paths ≠ [] then 2
                  else if 0 < (reports.map (·.selected)).sum then 0 else 1,
                  reports.flatMap (·.output),
                  (Options.ofItems items).noticed world ++ described settings p ++
                    (missing world.files paths).flatMap fun path =>
                      Bytes.ascii "wildrex: " ++ path ++ Bytes.ascii ": cannot open\n"⟩) ∧
          ∀ front path back text, paths = front ++ path :: back → world.files path = some text →
            (∀ file ∈ readable world.files front, ∀ line ∈ Bytes.lines file.2, IsShort line) →
            (∃ line ∈ Bytes.lines text, ¬ IsShort line) →
            ∃ reports,
              Reports p (Options.ofItems items).filter (paths.length > 1)
                (readable world.files front) reports ∧
              run args world =
                ⟨2, reports.flatMap (·.output) ++
                    (LineFilter.print p (Options.ofItems items).filter
                      (if paths.length > 1 then path else []) text).out,
                  (Options.ofItems items).noticed world ++ described settings p ++
                    ((missing world.files front).flatMap fun path =>
                      Bytes.ascii "wildrex: " ++ path ++ Bytes.ascii ": cannot open\n") ++
                    Bytes.ascii "wildrex: Match: subject longer than INT_MAX\n"⟩)) := by
  constructor
  · intro hrefused
    obtain ⟨err, hexecute⟩ := execute_of_refused hrefused
    rw [run_eq_of_execute hread hpositional hsettings hexecute]
    exact ⟨rfl, rfl⟩
  · intro hcompilable
    obtain ⟨p, hcompile⟩ := hcompilable.exists_compiled settings.mode
    have hp := (Pattern.compile_eq_ok_iff.mp hcompile).1
    refine ⟨p, hcompile, ?_, ?_, ?_⟩
    · intro hshown
      have hregex := (Options.regex_ofItems items).trans (decide_eq_true hshown)
      have hrun := run_of_regex hread hpositional hsettings hcompile hregex
      refine ⟨hrun, fun world' henv hconfiguration => ?_⟩
      obtain ⟨hresolved, hnoticed⟩ := Options.resolved_congr henv hconfiguration
      rw [run_of_regex hread hpositional (hresolved.trans hsettings) hcompile hregex, hnoticed,
        hrun]
    · intro hfiltered hpaths
      have hregex := (Options.regex_ofItems items).trans (decide_eq_false hfiltered)
      refine ⟨fun hshort => ?_, fun hlong => ?_, ?_⟩
      · obtain ⟨report, hreport⟩ :=
          LineFilter.exists_run_eq_ok hp (Options.ofItems items).filter [] hshort
        exact ⟨report, hreport,
          run_of_stdin hread hpositional hsettings hcompile hregex hpaths hreport⟩
      · subst hpaths
        have hprint := LineFilter.print_of_exists_long hp (Options.ofItems items).filter [] hlong
        have hrun := run_of_stop hread hpositional hsettings hcompile hregex
          (filterInputs_nil_of_stop hprint)
        rwa [List.append_nil] at hrun
      · subst hpaths
        intro args' items' file hread' hsame world' henv hconfiguration hfile
        exact run_of_one_file hread hpositional hread' hsame henv hconfiguration hfile
    · intro hfiltered hpaths
      have hregex := (Options.regex_ofItems items).trans (decide_eq_false hfiltered)
      refine ⟨fun hshort => ?_, ?_⟩
      · obtain ⟨reports, hreports⟩ :=
          exists_reports hp (Options.ofItems items).filter (paths.length > 1) hshort
        exact ⟨reports, hreports,
          run_of_files hread hpositional hsettings hcompile hregex hpaths hreports⟩
      · intro front path back text hcut hfile hshort hlong
        obtain ⟨reports, hreports⟩ :=
          exists_reports hp (Options.ofItems items).filter (paths.length > 1) hshort
        have hprint := LineFilter.print_of_exists_long hp (Options.ofItems items).filter
          (if paths.length > 1 then path else []) hlong
        exact ⟨reports, hreports, run_of_stop hread hpositional hsettings hcompile hregex
          (filterInputs_of_stop hcut hreports hfile hprint)⟩

/-- Of the files `f`, `g` and `f` again the second cannot be read. -/
theorem run_outcome_of_missing_file :
    run [[45, 112], [97, 63], [102], [103], [102]]
        ⟨fun _ => none, (FileTree.ofPairs [([102], [97, 98, 10, 99])]).read, []⟩ =
      ⟨2, [102, 58, 97, 98, 10, 102, 58, 97, 98, 10],
        [119, 105, 108, 100, 114, 101, 120, 58, 32, 103, 58, 32,
          99, 97, 110, 110, 111, 116, 32, 111, 112, 101, 110, 10]⟩ := by
  let world : World := ⟨fun _ => none, (FileTree.ofPairs [([102], [97, 98, 10, 99])]).read, []⟩
  have hread : readItems [[45, 112], [97, 63], [102], [103], [102]] =
      .ok [.mode .anywhere, .positional [97, 63], .positional [102], .positional [103],
        .positional [102]] := by decide
  have hpositional : [Item.mode .anywhere, .positional [97, 63], .positional [102],
      .positional [103], .positional [102]].filterMap Item.positional? =
        [97, 63] :: [[102], [103], [102]] := rfl
  have hsettings : Options.resolved (.ofItems [.mode .anywhere, .positional [97, 63],
      .positional [102], .positional [103], .positional [102]]) world = { mode := .anywhere } := by
    decide
  obtain ⟨-, h⟩ := run_outcome hread hpositional hsettings
  obtain ⟨p, hcompile, -, -, hfiles⟩ := h (by decide)
  have hreadable : readable world.files [[102], [103], [102]] =
      [([102], [97, 98, 10, 99]), ([102], [97, 98, 10, 99])] := by decide
  have hlengths : ∀ file ∈ readable world.files [[102], [103], [102]],
      ∀ line ∈ Bytes.lines file.2, line.length < 2147483648 := by decide
  obtain ⟨reports, hreports, hrun⟩ := (hfiles (by decide) (by decide)).1 fun file hfile line hline =>
    .of_length (hlengths file hfile line hline)
  have hreport : LineFilter.run p {} [102] [97, 98, 10, 99] = .ok ⟨1, [102, 58, 97, 98, 10]⟩ := by
    cases hcompile
    decide +kernel
  rw [hreadable] at hreports
  cases hreports with
  | cons hfirst hrest =>
    cases hrest with
    | cons hsecond hnone =>
      cases hnone
      obtain rfl := Except.ok.inj (hreport.symm.trans hfirst)
      obtain rfl := Except.ok.inj (hreport.symm.trans hsecond)
      exact hrun

/-- A file with a line of 2 to the 31st bytes can be read, and all the same the run fails. -/
theorem run_of_long_file :
    let world : World :=
      ⟨fun _ => none, fun _ => some (List.replicate 2147483648 97), []⟩
    missing world.files [[102]] = [] ∧
      run [[97], [102]] world =
        ⟨2, [], Bytes.ascii "wildrex: Match: subject longer than INT_MAX\n"⟩ := by
  intro world
  have hread : readItems [[97], [102]] = .ok [.positional [97], .positional [102]] := by decide
  have hpositional :
      [Item.positional [97], .positional [102]].filterMap Item.positional? = [97] :: [[102]] := rfl
  have hsettings : Options.resolved (.ofItems [.positional [97], .positional [102]]) world = {} :=
    rfl
  have hnoticed : Options.noticed (.ofItems [.positional [97], .positional [102]]) world = [] := rfl
  obtain ⟨p, hcompile⟩ := @Pattern.Compilable.exists_compiled [97] {} (by decide) .whole
  obtain ⟨hcut, hlong⟩ :=
    @LineFilter.long_of_replicate 97 2147483648 (by decide) (Nat.le_refl _)
  have hnone : LineFilter.Filters p {} [] 1 [] 0 [] := .nil
  have hprint := hnone.print_of_long hlong hcut.lines_eq
  have hpaths : [[102]] = ([] : List Bytes) ++ [102] :: [] := rfl
  have hinputs : filterInputs p {} world [[102]] = ⟨[], [], .error .subjectTooLong⟩ :=
    filterInputs_of_stop hpaths .nil rfl hprint
  refine ⟨rfl, ?_⟩
  have hrun := run_of_stop hread hpositional hsettings hcompile rfl hinputs
  rw [hnoticed] at hrun
  exact hrun

end Command
end Wildcard
