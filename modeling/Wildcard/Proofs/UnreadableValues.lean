import Wildcard.Proofs.Refiltering
import Wildcard.Proofs.SettingSources

/-!
# Values that cannot be read

A document with an unreadable value for the tokens, the mode or the dialect resolves to the settings
of the same document without that value, and the value is reported. Verbosity is resolved by other
rules: an unreadable value for it is not reported and means no, whatever the environment says.
-/

namespace Wildcard
namespace Config

namespace Document

variable {d d' : Document} {heading key : Bytes}

/-- The document `d'` is `d` without a key under a heading: nothing is found for that key, and for
every other key what is found in `d`. -/
structure Without (d : Document) (heading key : Bytes) (d' : Document) : Prop where
  get?_eq_none : d'.get? heading key = none
  get?_eq : ∀ {other otherKey : Bytes}, ¬ (other = heading ∧ otherKey = key) →
    d'.get? other otherKey = d.get? other otherKey

/-- The lines that are left when those that assign to a key under a heading are struck out, `above`
being the heading that stands over the first of them. -/
def strike (heading key : Bytes) : Bytes → List Bytes → List Bytes
  | _, [] => []
  | above, line :: rest =>
    match Line.ofText line with
    | .heading name => line :: strike heading key name rest
    | .assignment assigned _ =>
      if above = heading ∧ assigned = key then strike heading key above rest
      else line :: strike heading key above rest
    | _ => line :: strike heading key above rest

def struck (heading key text : Bytes) : Bytes :=
  Bytes.unlines (strike heading key [] (Bytes.lines text))

theorem mem_of_mem_strike {above line : Bytes} {ls : List Bytes}
    (h : line ∈ strike heading key above ls) : line ∈ ls := by
  fun_induction strike heading key above ls with
  | case1 => exact h
  | case2 above first rest name hfirst ih =>
    exact List.mem_cons.mpr ((List.mem_cons.mp h).imp_right ih)
  | case3 above first rest assigned value hfirst hstruck ih => exact List.mem_cons_of_mem _ (ih h)
  | case4 above first rest assigned value hfirst hkept ih =>
    exact List.mem_cons.mpr ((List.mem_cons.mp h).imp_right ih)
  | case5 above first rest hheading hassignment ih =>
    exact List.mem_cons.mpr ((List.mem_cons.mp h).imp_right ih)

theorem lines_struck (heading key text : Bytes) :
    Bytes.lines (struck heading key text) = strike heading key [] (Bytes.lines text) := by
  apply Bytes.lines_unlines
  intro line hline hnewline
  exact ((Bytes.cutsInto_lines text).of_mem (mem_of_mem_strike hline) hnewline).2 rfl

/-- Of two tables the first holds nothing for a key under a heading, and all else that the second
holds. -/
def HoldsAllBut (heading key : Bytes) (tables full : List (Bytes × Entries)) : Prop :=
  ∀ other otherKey, valueUnder tables other otherKey =
    if other = heading ∧ otherKey = key then none else valueUnder full other otherKey

namespace HoldsAllBut

variable {tables full : List (Bytes × Entries)}

theorem ensure (h : HoldsAllBut heading key tables full) (name : Bytes) :
    HoldsAllBut heading key (ensure name tables) (ensure name full) := by
  intro other otherKey
  rw [valueUnder_ensure, valueUnder_ensure]
  exact h other otherKey

theorem put_struck (h : HoldsAllBut heading key tables full) (value : Bytes) :
    HoldsAllBut heading key tables (put heading key value full) := by
  intro other otherKey
  rw [h, valueUnder_put]
  by_cases hsame : other = heading ∧ otherKey = key
  · rw [if_pos hsame, if_pos hsame]
  · rw [if_neg hsame, if_neg hsame, if_neg hsame]

theorem put (h : HoldsAllBut heading key tables full) {above assigned : Bytes}
    (hkept : ¬ (above = heading ∧ assigned = key)) (value : Bytes) :
    HoldsAllBut heading key (put above assigned value tables) (put above assigned value full) := by
  intro other otherKey
  rw [valueUnder_put, valueUnder_put, h]
  by_cases hsame : other = heading ∧ otherKey = key
  · obtain ⟨rfl, rfl⟩ := hsame
    have hother : ¬ (other = above ∧ otherKey = assigned) := fun ⟨habove, hassigned⟩ =>
      hkept ⟨habove.symm, hassigned.symm⟩
    rw [if_neg hother, if_pos ⟨rfl, rfl⟩, if_pos ⟨rfl, rfl⟩]
  · rw [if_neg hsame, if_neg hsame]

theorem enter (h : HoldsAllBut heading key tables full) (above : Bytes) (ls : List Bytes) :
    HoldsAllBut heading key
      (enter above tables ((strike heading key above ls).map Line.ofText))
      (enter above full (ls.map Line.ofText)) := by
  fun_induction strike heading key above ls generalizing tables full with
  | case1 => exact h
  | case2 above line rest name hline ih =>
    simp only [List.map_cons, hline, Document.enter]
    exact ih (h.ensure name)
  | case3 above line rest assigned value hline hstruck ih =>
    obtain ⟨rfl, rfl⟩ := hstruck
    simp only [List.map_cons, hline, Document.enter]
    exact ih (h.put_struck value)
  | case4 above line rest assigned value hline hkept ih =>
    simp only [List.map_cons, hline, Document.enter]
    exact ih (h.put hkept value)
  | case5 above line rest hheading hassignment ih =>
    cases hline : Line.ofText line with
    | blank =>
      simp only [List.map_cons, hline, Document.enter]
      exact ih h
    | bad =>
      simp only [List.map_cons, hline, Document.enter]
      exact ih h
    | heading name => exact absurd hline (hheading name)
    | assignment assigned value => exact absurd hline (hassignment assigned value)

end HoldsAllBut

theorem without_struck (heading key text : Bytes) :
    (ofText text).Without heading key (ofText (struck heading key text)) := by
  have hempty : HoldsAllBut heading key [] [] := by
    intro other otherKey
    split <;> rfl
  have hentered := hempty.enter [] (Bytes.lines text)
  rw [← lines_struck] at hentered
  refine ⟨?_, fun hother => ?_⟩
  · exact (hentered heading key).trans (if_pos ⟨rfl, rfl⟩)
  · exact (hentered _ _).trans (if_neg hother)

end Document

namespace Field

variable {α : Type} {f : Field α} {d d' : Document} {heading key value : Bytes} {env : Environment}

theorem resolve_congr (h : d'.get? f.heading f.key = d.get? f.heading f.key) :
    f.resolve (some d') env = f.resolve (some d) env := by
  simp only [resolve, candidates, Option.bind_some, h]

/-- An unreadable value in a document leaves the decision to the sources behind it. -/
theorem resolve_of_unreadable (hvalue : d.get? f.heading f.key = some value)
    (hread : f.read value = none) (hnone : d'.get? f.heading f.key = none) :
    f.resolve (some d) env = ((f.resolve (some d') env).1,
      .ignored (.entry f.heading f.key) value :: (f.resolve (some d') env).2) := by
  have hrest : f.candidates (some d) env =
      (.entry f.heading f.key, value) :: f.candidates (some d') env := by
    simp [candidates, hvalue, hnone]
  rw [resolve, hrest, decideOn, hread]
  rfl

end Field

namespace Setting

variable {s t : Setting} {d d' : Document} {value : Bytes} {env : Environment}

theorem eq_of_place_eq (h : s.field.heading = t.field.heading ∧ s.field.key = t.field.key) :
    s = t := by
  revert h
  cases s <;> cases t <;> decide

theorem place_ne_verbose (s : Setting) :
    ¬ (s.field.heading = Bytes.ascii "output" ∧ s.field.key = Bytes.ascii "verbose") := by
  cases s <;> decide

theorem resolve_of_ne (hwithout : d.Without s.field.heading s.field.key d') (hne : t ≠ s) :
    t.field.resolve (some d') env = t.field.resolve (some d) env :=
  Field.resolve_congr (hwithout.get?_eq fun h => hne (eq_of_place_eq h))

theorem all_eq_append_cons (s : Setting) :
    ∃ front back, Setting.all = front ++ s :: back ∧ s ∉ front ∧ s ∉ back := by
  cases s with
  | unknown => exact ⟨[], [.anything, .mode, .dialect], rfl, by decide, by decide⟩
  | anything => exact ⟨[.unknown], [.mode, .dialect], rfl, by decide, by decide⟩
  | mode => exact ⟨[.unknown, .anything], [.dialect], rfl, by decide, by decide⟩
  | dialect => exact ⟨[.unknown, .anything, .mode], [], rfl, by decide, by decide⟩

end Setting

namespace Settings

open Document Setting

variable {s : Setting} {d d' : Document} {heading key value : Bytes} {env : Environment}

theorem eq_of_valueIn_eq {a b : Settings} (h : ∀ s : Setting, s.valueIn a = s.valueIn b)
    (hverbose : a.verbose = b.verbose) : a = b := by
  obtain ⟨⟨unknown, anything⟩, mode, dialect, verbose⟩ := a
  obtain ⟨⟨unknown', anything'⟩, mode', dialect', verbose'⟩ := b
  obtain rfl : unknown = unknown' := h .unknown
  obtain rfl : anything = anything' := h .anything
  obtain rfl : mode = mode' := h .mode
  obtain rfl : dialect = dialect' := h .dialect
  obtain rfl : verbose = verbose' := hverbose
  rfl

theorem verbosity_congr (hget : d'.get? (Bytes.ascii "output") (Bytes.ascii "verbose") =
    d.get? (Bytes.ascii "output") (Bytes.ascii "verbose")) :
    verbosity (some d') env = verbosity (some d) env := by
  simp only [verbosity, Option.bind_some, hget]

theorem resolve_fst_of_unreadable
    (hvalue : d.get? s.field.heading s.field.key = some value) (hread : s.field.read value = none)
    (hwithout : d.Without s.field.heading s.field.key d') :
    (resolve (some d) env).1 = (resolve (some d') env).1 := by
  apply eq_of_valueIn_eq
  · intro t
    rw [valueIn_resolve, valueIn_resolve]
    by_cases hsame : t = s
    · subst hsame
      rw [Field.resolve_of_unreadable hvalue hread hwithout.get?_eq_none]
    · rw [resolve_of_ne hwithout hsame]
  · apply verbosity_congr
    refine (hwithout.get?_eq ?_).symm
    rintro ⟨hheading, hkey⟩
    exact s.place_ne_verbose ⟨hheading.symm, hkey.symm⟩

theorem resolve_snd_of_unreadable
    (hvalue : d.get? s.field.heading s.field.key = some value) (hread : s.field.read value = none)
    (hwithout : d.Without s.field.heading s.field.key d') :
    ∃ front back, (resolve (some d') env).2 = front ++ back ∧
      (resolve (some d) env).2 =
        front ++ .ignored (.entry s.field.heading s.field.key) value :: back := by
  obtain ⟨front, back, hall, hfront, hback⟩ := all_eq_append_cons s
  have hothers : ∀ ts : List Setting, s ∉ ts →
      (ts.flatMap fun t => t.reported (some d) env) =
        ts.flatMap fun t => t.reported (some d') env := by
    intro ts hts
    refine List.flatMap_congr fun t ht => ?_
    have hne : t ≠ s := fun hsame => hts (hsame ▸ ht)
    rw [reported, reported, resolve_of_ne hwithout hne]
  have hreported : s.reported (some d) env =
      .ignored (.entry s.field.heading s.field.key) value :: s.reported (some d') env := by
    rw [reported, Field.resolve_of_unreadable hvalue hread hwithout.get?_eq_none]
    rfl
  refine ⟨front.flatMap fun t => t.reported (some d') env,
    s.reported (some d') env ++ back.flatMap fun t => t.reported (some d') env, ?_, ?_⟩
  · rw [notices_resolve, hall, List.flatMap_append, List.flatMap_cons]
  · rw [notices_resolve, hall, List.flatMap_append, List.flatMap_cons, hothers front hfront,
      hothers back hback, hreported, List.cons_append]

theorem resolve_of_unreadable_verbose
    (hvalue : d.get? (Bytes.ascii "output") (Bytes.ascii "verbose") = some value)
    (hread : readTruth value = none)
    (hwithout : d.Without (Bytes.ascii "output") (Bytes.ascii "verbose") d') :
    resolve (some d) env =
      ({ (resolve (some d') env).1 with verbose := false }, (resolve (some d') env).2) := by
  have hfields : ∀ t : Setting,
      t.field.resolve (some d') env = t.field.resolve (some d) env := fun t =>
    Field.resolve_congr (hwithout.get?_eq t.place_ne_verbose)
  have hverbose : verbosity (some d) env = false := by
    simp only [verbosity, Option.bind_some, hvalue, hread, Option.getD_none]
  apply Prod.ext
  · apply eq_of_valueIn_eq
    · intro t
      have hvalueIn : ∀ settings : Settings,
          t.valueIn { settings with verbose := false } = t.valueIn settings := by
        cases t <;> exact fun settings => rfl
      rw [hvalueIn, valueIn_resolve, valueIn_resolve, hfields]
    · exact hverbose
  · simp only [notices_resolve, reported, hfields]

/-- An unreadable value for a token, the mode or the dialect resolves as if its key were not in the
document, with one more notice. For verbosity the unreadable value means no without any notice, so
that it resolves as if the key were not there only where the environment does not ask for it. -/
theorem resolve_of_unreadable_values (text : Bytes) (env : Environment) :
    (∀ (s : Setting) (value : Bytes),
      (ofText text).get? s.field.heading s.field.key = some value → s.field.read value = none →
      ∀ d', (ofText text).Without s.field.heading s.field.key d' →
        (resolve (some (ofText text)) env).1 = (resolve (some d') env).1 ∧
          ∃ front back, (resolve (some d') env).2 = front ++ back ∧
            (resolve (some (ofText text)) env).2 =
              front ++ .ignored (.entry s.field.heading s.field.key) value :: back) ∧
      (∀ value, (ofText text).get? (Bytes.ascii "output") (Bytes.ascii "verbose") = some value →
        readTruth value = none →
        ∀ d', (ofText text).Without (Bytes.ascii "output") (Bytes.ascii "verbose") d' →
          resolve (some (ofText text)) env =
              ({ (resolve (some d') env).1 with verbose := false }, (resolve (some d') env).2) ∧
            ((resolve (some (ofText text)) env).1 = (resolve (some d') env).1 ↔
              env.flag (Bytes.ascii "WILDREX_VERBOSE") false = false)) ∧
      ∀ heading key, (ofText text).Without heading key (ofText (struck heading key text)) := by
  refine ⟨?_, ?_, fun heading key => without_struck heading key text⟩
  · intro s value hvalue hread d' hwithout
    exact ⟨resolve_fst_of_unreadable hvalue hread hwithout,
      resolve_snd_of_unreadable hvalue hread hwithout⟩
  · intro value hvalue hread d' hwithout
    have hresolve := @resolve_of_unreadable_verbose _ d' value env hvalue hread hwithout
    have hflag : (resolve (some d') env).1.verbose =
        env.flag (Bytes.ascii "WILDREX_VERBOSE") false := by
      show verbosity (some d') env = _
      simp only [verbosity, Option.bind_some, hwithout.get?_eq_none]
    refine ⟨hresolve, ?_⟩
    rw [hresolve, ← hflag]
    constructor
    · intro hsame
      exact (congrArg Settings.verbose hsame).symm
    · intro hquiet
      exact eq_of_valueIn_eq (fun t => by cases t <;> rfl) hquiet.symm

/-- The mode `sometimes` is passed over for the one in the environment, and verbosity is no though
the environment asks for it. -/
theorem resolve_of_unreadable_values_sometimes :
    let text := Bytes.ascii "[pattern]\nmode = sometimes\n[output]\nverbose = junk\n"
    let env := Environment.ofPairs [(Bytes.ascii "WILDREX_MODE", Bytes.ascii "like"),
      (Bytes.ascii "WILDREX_VERBOSE", Bytes.ascii "1")]
    (resolve (some (ofText text)) env).1 = (resolve (some (ofText (struck (Bytes.ascii "pattern")
        (Bytes.ascii "mode") text))) env).1 ∧
      (resolve (some (ofText text)) env).1.verbose = false := by
  intro text env
  obtain ⟨hsettings, hverbose, hstruck⟩ := resolve_of_unreadable_values text env
  constructor
  · exact (hsettings .mode (Bytes.ascii "sometimes") (by decide +kernel) (by decide +kernel) _
      (hstruck _ _)).1
  · have hresolve := (hverbose (Bytes.ascii "junk") (by decide +kernel) (by decide +kernel) _
      (hstruck _ _)).1
    rw [hresolve]

/-- An unreadable value for verbosity takes precedence over the environment and is not reported. -/
theorem verbose_despite_unreadable_value :
    let text := Bytes.ascii "[output]\nverbose = maybe\n"
    let env := Environment.ofPairs [(Bytes.ascii "WILDREX_VERBOSE", Bytes.ascii "1")]
    let other := ofText (struck (Bytes.ascii "output") (Bytes.ascii "verbose") text)
    (ofText text).get? (Bytes.ascii "output") (Bytes.ascii "verbose") =
        some (Bytes.ascii "maybe") ∧
      readTruth (Bytes.ascii "maybe") = none ∧
      resolve (some (ofText text)) env = ({}, []) ∧
      resolve (some other) env = ({ verbose := true }, []) ∧
      (resolve (some (ofText text)) env).1 ≠ (resolve (some other) env).1 := by
  decide +kernel

end Settings
end Config
end Wildcard
