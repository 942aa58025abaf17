import Mathlib.Data.List.Induction
import Wildcard.Config.Document

/-!
# The assignments of a document

A document answers with the last value that its lines assign to a key under a heading, also if the
heading is taken up again in between: what is put under a name is what is found under it, and nothing
else changes. The numbers of its bad lines are in order.
-/

namespace Wildcard
namespace Config

def Line.heading? : Line → Option Bytes
  | .heading name => some name
  | _ => none

namespace Document

section Tables

variable (tables : List (Bytes × Entries)) (heading key value sought soughtKey : Bytes)

def valueUnder (tables : List (Bytes × Entries)) (heading key : Bytes) : Option Bytes :=
  (tables.lookup heading).bind fun entries => entries.lookup key

theorem valueUnder_put : valueUnder (put heading key value tables) sought soughtKey =
    if sought = heading ∧ soughtKey = key then some value else valueUnder tables sought soughtKey := by
  rw [valueUnder, put, lookup_revise]
  by_cases hheading : sought = heading
  · subst hheading
    rw [if_pos rfl, Option.bind_some, lookup_revise]
    by_cases hkey : soughtKey = key
    · rw [if_pos hkey, if_pos ⟨rfl, hkey⟩]
    · rw [if_neg hkey, if_neg (hkey ·.2), valueUnder]
      cases tables.lookup sought <;> rfl
  · rw [if_neg hheading, if_neg (hheading ·.1), valueUnder]

theorem valueUnder_ensure : valueUnder (ensure heading tables) sought soughtKey =
    valueUnder tables sought soughtKey := by
  rw [valueUnder, ensure, lookup_revise, valueUnder]
  by_cases hheading : sought = heading
  · subst hheading
    rw [if_pos rfl]
    cases tables.lookup sought <;> rfl
  · rw [if_neg hheading]

end Tables

variable {ls : List Line} {l : Line} {heading key value : Bytes} {i : Nat}

def headingAfter (heading : Bytes) (ls : List Line) : Bytes :=
  (ls.filterMap Line.heading?).getLast?.getD heading

theorem enter_append (heading : Bytes) (tables : List (Bytes × Entries)) (ls later : List Line) :
    enter heading tables (ls ++ later) =
      enter (headingAfter heading ls) (enter heading tables ls) later := by
  induction ls generalizing heading tables with
  | nil => rfl
  | cons l ls ih =>
    cases l with
    | blank => exact ih heading tables
    | bad => exact ih heading tables
    | assignment key value => exact ih heading (put heading key value tables)
    | heading name =>
      have hafter : headingAfter heading (.heading name :: ls) = headingAfter name ls := by
        simp [headingAfter, Line.heading?, List.getLast?_cons]
      rw [hafter]
      exact ih name (ensure name tables)

/-- Line `i`, counted from 0, assigns a value to a key under a heading. -/
def AssignsAt (ls : List Line) (heading key value : Bytes) (i : Nat) : Prop :=
  ls[i]? = some (.assignment key value) ∧ headingAfter [] (ls.take i) = heading

def LastAssigns (ls : List Line) (heading key value : Bytes) : Prop :=
  ∃ i, AssignsAt ls heading key value i ∧
    ∀ j other, AssignsAt ls heading key other j → j ≤ i

theorem AssignsAt.lt (h : AssignsAt ls heading key value i) : i < ls.length :=
  (List.getElem?_eq_some_iff.mp h.1).choose

theorem LastAssigns.value_eq {other : Bytes} (h : LastAssigns ls heading key value)
    (h' : LastAssigns ls heading key other) : other = value := by
  obtain ⟨i, hi, hlast⟩ := h
  obtain ⟨j, hj, hlast'⟩ := h'
  obtain rfl : i = j := Nat.le_antisymm (hlast' i value hi) (hlast j other hj)
  have hline := hj.1.symm.trans hi.1
  simpa using hline

theorem assignsAt_snoc : AssignsAt (ls ++ [l]) heading key value i ↔
    AssignsAt ls heading key value i ∨
      i = ls.length ∧ l = .assignment key value ∧ headingAfter [] ls = heading := by
  rcases Nat.lt_trichotomy i ls.length with hlt | rfl | hgt
  · have hle := Nat.le_of_lt hlt
    rw [AssignsAt, AssignsAt, List.getElem?_append_left hlt, List.take_append_of_le_length hle]
    simp [Nat.ne_of_lt hlt]
  · simp [AssignsAt]
  · have hout : (ls ++ [l])[i]? = none := List.getElem?_eq_none (by simp; omega)
    have hout' : ls[i]? = none := List.getElem?_eq_none (Nat.le_of_lt hgt)
    simp [AssignsAt, hout, hout', Nat.ne_of_gt hgt]

theorem get?_ofLines_snoc_assignment (ls : List Line) (key value : Bytes) :
    (ofLines (ls ++ [.assignment key value])).get? (headingAfter [] ls) key = some value := by
  have htables : (ofLines (ls ++ [.assignment key value])).tables =
      put (headingAfter [] ls) key value (ofLines ls).tables := enter_append [] [] ls _
  rw [get?, htables, ← valueUnder, valueUnder_put, if_pos ⟨rfl, rfl⟩]

theorem get?_ofLines_snoc_of_not
    (h : ∀ value, ¬ (l = .assignment key value ∧ headingAfter [] ls = heading)) :
    (ofLines (ls ++ [l])).get? heading key = (ofLines ls).get? heading key := by
  have htables : (ofLines (ls ++ [l])).tables =
      enter (headingAfter [] ls) (ofLines ls).tables [l] := enter_append [] [] ls [l]
  rw [get?, htables]
  cases l with
  | blank => rfl
  | bad => rfl
  | heading name => exact valueUnder_ensure (ofLines ls).tables name heading key
  | assignment other value =>
    refine (valueUnder_put (ofLines ls).tables _ other value heading key).trans (if_neg ?_)
    rintro ⟨rfl, rfl⟩
    exact h value ⟨rfl, rfl⟩

/-- What is found is what the last line assigned, and nothing if no line assigned anything. -/
theorem get?_ofLines_cases (ls : List Line) (heading key : Bytes) :
    (∃ value, (ofLines ls).get? heading key = some value ∧ LastAssigns ls heading key value) ∨
      (ofLines ls).get? heading key = none ∧ ∀ i value, ¬ AssignsAt ls heading key value i := by
  induction ls using List.reverseRecOn with
  | nil => exact .inr ⟨rfl, by simp [AssignsAt]⟩
  | append_singleton ls l ih =>
    by_cases hassigns : ∃ value, l = .assignment key value ∧ headingAfter [] ls = heading
    · obtain ⟨value, rfl, rfl⟩ := hassigns
      refine .inl ⟨value, get?_ofLines_snoc_assignment ls key value, ls.length,
        assignsAt_snoc.mpr (.inr ⟨rfl, rfl, rfl⟩), ?_⟩
      intro j other hj
      rcases assignsAt_snoc.mp hj with hj | ⟨rfl, -, -⟩
      · exact Nat.le_of_lt hj.lt
      · exact Nat.le_refl _
    · push Not at hassigns
      have hsame : ∀ i value, AssignsAt (ls ++ [l]) heading key value i ↔
          AssignsAt ls heading key value i := by
        intro i value
        rw [assignsAt_snoc, or_iff_left]
        rintro ⟨-, hl, hheading⟩
        exact hassigns value hl hheading
      rw [get?_ofLines_snoc_of_not fun value h => hassigns value h.1 h.2]
      simpa only [LastAssigns, hsame] using ih

theorem mem_badNumbers {n : Nat} :
    n ∈ badNumbers ls ↔ ∃ i, n = i + 1 ∧ ls[i]? = some .bad := by
  simp only [badNumbers, List.mem_filterMap, Prod.exists,
    List.mk_mem_zipIdx_iff_le_and_getElem?_sub, Option.ite_none_right_eq_some, Option.some.injEq]
  constructor
  · rintro ⟨_, number, ⟨hpos, hline⟩, rfl, rfl⟩
    exact ⟨number - 1, (Nat.sub_add_cancel hpos).symm, hline⟩
  · rintro ⟨i, rfl, hline⟩
    exact ⟨.bad, i + 1, ⟨Nat.le_add_left 1 i, hline⟩, rfl, rfl⟩

theorem pairwise_badNumbers (ls : List Line) : (badNumbers ls).Pairwise (· < ·) := by
  have hnumbers : (ls.zipIdx 1).Pairwise fun a b => a.2 < b.2 := by
    rw [← List.pairwise_map, List.zipIdx_map_snd]
    exact List.pairwise_lt_range'
  rw [badNumbers, List.pairwise_filterMap]
  refine hnumbers.imp ?_
  intro first second hlt m hm n hn
  obtain ⟨-, hm⟩ := Option.ite_none_right_eq_some.mp hm
  obtain ⟨-, hn⟩ := Option.ite_none_right_eq_some.mp hn
  rwa [← Option.some.inj hm, ← Option.some.inj hn]

theorem ofLines_snoc_blank (ls : List Line) : ofLines (ls ++ [.blank]) = ofLines ls := by
  have htables : enter [] [] (ls ++ [.blank]) = enter [] [] ls := enter_append [] [] ls [.blank]
  have hnumbers : badNumbers (ls ++ [.blank]) = badNumbers ls := by
    simp [badNumbers, List.zipIdx_append]
  rw [ofLines, htables, hnumbers, ofLines]

end Document
end Config
end Wildcard
