import Mathlib.Data.List.Induction
import Wildcard.Proofs.CommandItems

/-!
# What items ask for

Of the modes, of the repetitions of one option and of the paths of a configuration the last decides,
flags count by being there, and positional arguments are collected in their order. So items that are
reordered without changing the order among those that replace each other, or among positional
arguments, ask for the same, and a run with them is the same run.
-/

namespace Wildcard
namespace Command

namespace Item

def mode? : Item → Option Mode
  | .mode m => some m
  | _ => none

def unknown? : Item → Option UInt8
  | .unknown b => some b
  | _ => none

def anything? : Item → Option UInt8
  | .anything b => some b
  | _ => none

def config? : Item → Option Bytes
  | .config path => some path
  | _ => none

def positional? : Item → Option Bytes
  | .positional arg => some arg
  | _ => none

inductive Kind
  | mode | unknown | anything | config | positional
  deriving DecidableEq, Repr

def kind? : Item → Option Kind
  | .mode _ => some .mode
  | .unknown _ => some .unknown
  | .anything _ => some .anything
  | .config _ => some .config
  | .positional _ => some .positional
  | _ => none

end Item

variable {items items' extra : List Item}

namespace Options

def asked (items : List Item) : Options where
  mode := (items.filterMap Item.mode?).getLast?
  unknown := (items.filterMap Item.unknown?).getLast?
  anything := (items.filterMap Item.anything?).getLast?
  sql := decide (.sql ∈ items)
  regex := decide (.regex ∈ items ∨ .sql ∈ items)
  verbose := decide (.verbose ∈ items)
  configPath := (items.filterMap Item.config?).getLast?.getD []
  filter :=
    { onlyMatching := decide (.onlyMatching ∈ items)
      countOnly := decide (.countOnly ∈ items)
      invert := decide (.invert ∈ items)
      lineNumbers := decide (.lineNumbers ∈ items) }
  positional := items.filterMap Item.positional?

theorem ofItems_concat (items : List Item) (item : Item) :
    ofItems (items ++ [item]) = (ofItems items).add item := by
  simp [ofItems]

theorem asked_concat (items : List Item) (item : Item) :
    asked (items ++ [item]) = (asked items).add item := by
  cases item <;>
    simp [asked, add, Item.mode?, Item.unknown?, Item.anything?, Item.config?, Item.positional?]

theorem ofItems_eq_asked (items : List Item) : ofItems items = asked items := by
  induction items using List.reverseRecOn with
  | nil => rfl
  | append_singleton items item ih => rw [ofItems_concat, asked_concat, ih]

end Options

/-- The same items, with the order kept among those of each kind whose order counts. -/
structure Reorders (items items' : List Item) : Prop where
  perm : items.Perm items'
  keeps : ∀ kind : Item.Kind,
    items.filter (·.kind? = some kind) = items'.filter (·.kind? = some kind)

namespace Reorders

theorem append_right (h : Reorders items items') (extra : List Item) :
    Reorders (items ++ extra) (items' ++ extra) := by
  refine ⟨h.perm.append_right extra, fun kind => ?_⟩
  rw [List.filter_append, List.filter_append, h.keeps kind]

theorem filterMap_eq {α : Type} {f : Item → Option α} (h : Reorders items items')
    (kind : Item.Kind) (hf : ∀ item, item.kind? ≠ some kind → f item = none) :
    items.filterMap f = items'.filterMap f := by
  have honly : (fun item => if decide (item.kind? = some kind) then f item else none) = f := by
    funext item
    by_cases hkind : item.kind? = some kind
    · simp [hkind]
    · simp [hkind, hf item hkind]
  have hrestrict : ∀ l : List Item,
      l.filterMap f = (l.filter (·.kind? = some kind)).filterMap f := by
    intro l
    rw [List.filterMap_filter, honly]
  rw [hrestrict items, hrestrict items', h.keeps kind]

theorem ofItems_eq (h : Reorders items items') :
    Options.ofItems items = Options.ofItems items' := by
  have hmode : items.filterMap Item.mode? = items'.filterMap Item.mode? :=
    h.filterMap_eq .mode fun item => by cases item <;> simp [Item.kind?, Item.mode?]
  have hunknown : items.filterMap Item.unknown? = items'.filterMap Item.unknown? :=
    h.filterMap_eq .unknown fun item => by cases item <;> simp [Item.kind?, Item.unknown?]
  have hanything : items.filterMap Item.anything? = items'.filterMap Item.anything? :=
    h.filterMap_eq .anything fun item => by cases item <;> simp [Item.kind?, Item.anything?]
  have hconfig : items.filterMap Item.config? = items'.filterMap Item.config? :=
    h.filterMap_eq .config fun item => by cases item <;> simp [Item.kind?, Item.config?]
  have hpositional : items.filterMap Item.positional? = items'.filterMap Item.positional? :=
    h.filterMap_eq .positional fun item => by cases item <;> simp [Item.kind?, Item.positional?]
  have hflag : ∀ item, item ∈ items ↔ item ∈ items' := fun item => h.perm.mem_iff
  rw [Options.ofItems_eq_asked, Options.ofItems_eq_asked]
  simp only [Options.asked, hmode, hunknown, hanything, hconfig, hpositional, hflag]

/-- Options may as well stand behind the positional arguments. -/
theorem options_last {options : List Item} (h : ∀ item ∈ options, item.kind? ≠ some .positional)
    (operands : List Bytes) :
    Reorders (options ++ operands.map .positional) (operands.map .positional ++ options) := by
  refine ⟨List.perm_append_comm, fun kind => ?_⟩
  rw [List.filter_append, List.filter_append]
  by_cases hkind : kind = .positional
  · have hnone : options.filter (·.kind? = some kind) = [] := by
      simpa [List.filter_eq_nil_iff, hkind] using h
    rw [hnone, List.nil_append, List.append_nil]
  · have hnone : (operands.map Item.positional).filter (·.kind? = some kind) = [] := by
      simp [List.filter_eq_nil_iff, Item.kind?, Ne.symm hkind]
    rw [hnone, List.nil_append, List.append_nil]

end Reorders

/-- Just those argument lists are read that are written by items up to their end, and reordering the
items in front of the end, with the order kept where it counts, does not change the run. So options
may stand behind the positional arguments as well. -/
theorem run_of_reorders :
    (∀ args items, readItems args = .ok items ↔ Accepts args items) ∧
      (∀ (items items' extra : List Item) (front front' tail : List Bytes), Spelled items front →
        Spelled items' front' → Ending extra tail → Reorders items items' → ∀ world : World,
          run (front ++ tail) world = run (front' ++ tail) world) ∧
      ∀ (options : List Item) (operands : List Bytes),
        (∀ item ∈ options, item.kind? ≠ some .positional) →
          Reorders (options ++ operands.map .positional) (operands.map .positional ++ options) := by
  refine ⟨fun args items => readItems_eq_ok_iff, ?_,
    fun options operands h => .options_last h operands⟩
  intro items items' extra front front' tail hfront hfront' hending hreorders world
  have hread : readItems (front ++ tail) = .ok (items ++ extra) :=
    readItems_eq_ok_iff.mpr ⟨items, front, extra, tail, hfront, hending, rfl, rfl⟩
  have hread' : readItems (front' ++ tail) = .ok (items' ++ extra) :=
    readItems_eq_ok_iff.mpr ⟨items', front', extra, tail, hfront', hending, rfl, rfl⟩
  have hsame := (hreorders.append_right extra).ofItems_eq
  simp only [run, hread, hread', hsame]

/-- With `-p --config -v a? -o -- -e` and with `a? -o -p --config -v -- -e` the run is the same: the
configuration is looked for in `-v`, and `-e` names a file. -/
theorem run_of_reorders_around_pattern :
    run ([[45, 112], configOption, [45, 118], [97, 63], [45, 111]] ++ [endOfOptions, [45, 101]])
        ⟨fun _ => none, fun _ => none, []⟩ =
      run ([[97, 63], [45, 111], [45, 112], configOption, [45, 118]] ++ [endOfOptions, [45, 101]])
        ⟨fun _ => none, fun _ => none, []⟩ := by
  obtain ⟨-, h, -⟩ := run_of_reorders
  have hmode : (Item.mode .anywhere).Spelled [[45, 112]] := .flag (by decide)
  have honly : Item.onlyMatching.Spelled [[45, 111]] := .flag (by decide)
  have hpattern : (Item.positional [97, 63]).Spelled [[97, 63]] := .positional rfl
  apply h [.mode .anywhere, .config [45, 118], .positional [97, 63], .onlyMatching]
    [.positional [97, 63], .onlyMatching, .mode .anywhere, .config [45, 118]]
    [.positional [45, 101]]
  · exact .cons hmode (.cons (.config _) (.cons hpattern (.cons honly .nil)))
  · exact .cons hpattern (.cons honly (.cons hmode (.cons (.config _) .nil)))
  · exact .marked [[45, 101]]
  · exact ⟨by decide, fun kind => by cases kind <;> decide⟩

end Command
end Wildcard
