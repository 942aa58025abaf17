import Wildcard.Proofs.Outcomes

/-!
# What a run does not depend on

Of the configuration only the tokens, the mode and the dialect of a regular expression reach the
output and the status. With options for these, neither the environment nor a configuration file has
any influence on them, whatever it holds and whether or not it is there.
-/

namespace Wildcard
namespace Command

variable {p : Pattern} {spec : LineFilter.Spec} {files files' : Bytes → Option Bytes}
  {labelled : Bool} {format : Bytes} {paths : List Bytes}

theorem Tally.foldlM_addFile_congr (h : ∀ path ∈ paths, files path = files' path) (tally : Tally) :
    paths.foldlM (addFile p spec files labelled) tally =
      paths.foldlM (addFile p spec files' labelled) tally := by
  induction paths generalizing tally with
  | nil => rfl
  | cons path rest ih =>
    have hfile : addFile p spec files labelled tally path =
        addFile p spec files' labelled tally path := by
      simp only [addFile, h path List.mem_cons_self]
    have hrest := ih fun path hpath => h path (List.mem_cons_of_mem _ hpath)
    simp only [List.foldlM_cons, hfile, hrest]

theorem filterInputs_congr {world world' : World} (hstdin : world.stdin = world'.stdin)
    (hfiles : ∀ path ∈ paths, world.files path = world'.files path) :
    filterInputs p spec world paths = filterInputs p spec world' paths := by
  simp only [filterInputs, hstdin, Tally.foldlM_addFile_congr hfiles]

structure Outcome.Agrees (a b : Outcome) : Prop where
  status_eq : a.status = b.status
  out_eq : a.out = b.out

section Configuration

variable {o : Options} {settings settings' : Config.Settings} {world world' : World}
  {items : List Item} {item : Item}

theorem execute_agrees (htokens : settings.tokens = settings'.tokens)
    (hmode : settings.mode = settings'.mode)
    (hdialect : o.regex = true → settings.dialect = settings'.dialect)
    (hstdin : world.stdin = world'.stdin)
    (hfiles : ∀ path ∈ paths, world.files path = world'.files path) :
    (execute o settings world format paths).Agrees (execute o settings' world' format paths) := by
  unfold execute
  rw [htokens, hmode]
  cases Pattern.compile format settings'.mode settings'.tokens with
  | error e => exact ⟨rfl, rfl⟩
  | ok p =>
    cases hregex : o.regex with
    | true =>
      simp only [if_true, hdialect hregex]
      exact ⟨rfl, rfl⟩
    | false =>
      simp only [Bool.false_eq_true, if_false, filterInputs_congr hstdin hfiles]
      cases (filterInputs p o.filter world' paths).result with
      | error e => exact ⟨rfl, rfl⟩
      | ok tally => exact ⟨rfl, rfl⟩

theorem exists_getLast?_filterMap {α : Type} {f : Item → Option α} {a : α} (hmem : item ∈ items)
    (hf : f item = some a) : ∃ b, (items.filterMap f).getLast? = some b := by
  have hne : items.filterMap f ≠ [] :=
    List.ne_nil_of_mem (List.mem_filterMap.mpr ⟨item, hmem, hf⟩)
  exact ⟨_, List.getLast?_eq_some_getLast hne⟩

theorem settings_ofItems_eq {mode : Mode} {unknown anything : UInt8} (hmode : .mode mode ∈ items)
    (hunknown : .unknown unknown ∈ items) (hanything : .anything anything ∈ items)
    (resolved resolved' : Config.Settings) :
    ((Options.ofItems items).settings resolved).tokens =
        ((Options.ofItems items).settings resolved').tokens ∧
      ((Options.ofItems items).settings resolved).mode =
        ((Options.ofItems items).settings resolved').mode := by
  obtain ⟨m, hm⟩ := exists_getLast?_filterMap (f := Item.mode?) hmode rfl
  obtain ⟨u, hu⟩ := exists_getLast?_filterMap (f := Item.unknown?) hunknown rfl
  obtain ⟨a, ha⟩ := exists_getLast?_filterMap (f := Item.anything?) hanything rfl
  rw [Options.ofItems_eq_asked]
  simp [Options.settings, Options.asked, hm, hu, ha]

/-- A regular expression is shown in the dialect of the configuration only if none was asked for. -/
theorem dialect_ofItems_eq (h : .sql ∈ items ∨ .regex ∉ items)
    (resolved resolved' : Config.Settings) (hregex : (Options.ofItems items).regex = true) :
    ((Options.ofItems items).settings resolved).dialect =
      ((Options.ofItems items).settings resolved').dialect := by
  rw [Options.regex_ofItems, decide_eq_true_eq] at hregex
  have hsql : .sql ∈ items := by
    rcases h with h | h
    · exact h
    · exact hregex.resolve_left h
  rw [Options.ofItems_eq_asked]
  simp [Options.settings, Options.asked, hsql]

/-- With options for the mode, both tokens and, if a regular expression is to be shown, its dialect,
neither the environment nor the configuration reaches the output or the status. -/
theorem run_agrees_of_options {args : List Bytes}
    (hoptions : ∀ items, readItems args = .ok items → (∃ mode, .mode mode ∈ items) ∧
      (∃ b, .unknown b ∈ items) ∧ (∃ b, .anything b ∈ items) ∧ (.sql ∈ items ∨ .regex ∉ items))
    (hfiles : ∀ items, readItems args = .ok items →
      ∀ path ∈ (items.filterMap Item.positional?).tail, world.files path = world'.files path)
    (hstdin : world.stdin = world'.stdin) : (run args world).Agrees (run args world') := by
  cases hread : readItems args with
  | error refusal =>
    simp only [run, hread]
    exact ⟨rfl, rfl⟩
  | ok items =>
    obtain ⟨⟨mode, hmode⟩, ⟨unknown, hunknown⟩, ⟨anything, hanything⟩, hdialect⟩ :=
      hoptions items hread
    have hpaths := hfiles items hread
    cases hpositional : items.filterMap Item.positional? with
    | nil =>
      have hgiven := Options.positional_ofItems items
      rw [hpositional] at hgiven
      simp only [run, hread, runOptions, hgiven]
      exact ⟨rfl, rfl⟩
    | cons format paths =>
      rw [hpositional] at hpaths
      have hsame := settings_ofItems_eq hmode hunknown hanything
        (Config.Settings.load (Options.ofItems items).configPath world.env world.files).1
        (Config.Settings.load (Options.ofItems items).configPath world'.env world'.files).1
      have hagrees : (execute (.ofItems items) ((Options.ofItems items).resolved world) world format
          paths).Agrees (execute (.ofItems items) ((Options.ofItems items).resolved world') world'
          format paths) :=
        execute_agrees hsame.1 hsame.2 (dialect_ofItems_eq hdialect _ _) hstdin hpaths
      rw [run_eq_of_execute hread hpositional rfl rfl, run_eq_of_execute hread hpositional rfl rfl]
      exact ⟨hagrees.status_eq, hagrees.out_eq⟩

end Configuration

/-- Under `-e --unknown _ --anything % --config c` it does not count that in one world there is no
file `c` and in the other it cannot be understood, and every variable is set. -/
theorem run_agrees_of_options_with_bad_file :
    (run [[45, 101], unknownTokenOption, [95], anythingTokenOption, [37], configOption, [99],
        [97, 95]] ⟨fun _ => none, fun _ => none, [97, 98]⟩).Agrees
      (run [[45, 101], unknownTokenOption, [95], anythingTokenOption, [37], configOption, [99],
        [97, 95]] ⟨fun _ => some [120], fun path => if path = [99] then some [61, 91] else none,
          [97, 98]⟩) := by
  have hread : readItems [[45, 101], unknownTokenOption, [95], anythingTokenOption, [37],
      configOption, [99], [97, 95]] = .ok [.mode .whole, .unknown 95, .anything 37, .config [99],
        .positional [97, 95]] := by decide
  apply run_agrees_of_options
  · intro items hitems
    obtain rfl := Except.ok.inj (hread.symm.trans hitems)
    exact ⟨⟨.whole, by decide⟩, ⟨95, by decide⟩, ⟨37, by decide⟩, .inr (by decide)⟩
  · intro items hitems
    obtain rfl := Except.ok.inj (hread.symm.trans hitems)
    decide
  · rfl

end Command
end Wildcard
