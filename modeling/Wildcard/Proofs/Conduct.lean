import Wildcard.Find

/-!
# What finding sees of a target

Finding asks a target for its width, whether it fits at a position and where it is placed in a
window, and nothing else. Patterns whose targets answer alike find the same match in every range.
-/

namespace Wildcard

namespace Target

def conduct (unknown : UInt8) (t : Target) :
    Nat × (Subject → Nat → Bool) × (Subject → Nat → Nat → Option Nat) :=
  (t.width, t.fitsAt unknown, t.place unknown)

variable {unknown : UInt8} {t u : Target}

theorem width_eq_of_conduct_eq (h : t.conduct unknown = u.conduct unknown) : t.width = u.width :=
  congrArg Prod.fst h

theorem fitsAt_eq_of_conduct_eq (h : t.conduct unknown = u.conduct unknown) :
    t.fitsAt unknown = u.fitsAt unknown :=
  congrArg (fun c => c.2.1) h

theorem place_eq_of_conduct_eq (h : t.conduct unknown = u.conduct unknown) :
    t.place unknown = u.place unknown :=
  congrArg (fun c => c.2.2) h

end Target

namespace Pattern

variable {unknown : UInt8} {ts us : List Target} {p q : Pattern}

theorem placeAll_eq_of_conduct (subject : Subject) (limit cursor : Nat)
    (h : ts.map (Target.conduct unknown) = us.map (Target.conduct unknown)) :
    placeAll unknown subject limit cursor ts = placeAll unknown subject limit cursor us := by
  induction ts generalizing us cursor with
  | nil =>
    obtain rfl : us = [] := by simpa using h.symm
    rfl
  | cons t ts ih =>
    cases us with
    | nil => simp at h
    | cons u us =>
      obtain ⟨hconduct, hrest⟩ := List.cons.inj h
      rw [placeAll, placeAll, Target.place_eq_of_conduct_eq hconduct,
        Target.width_eq_of_conduct_eq hconduct]
      cases u.place unknown subject cursor limit with
      | none => rfl
      | some pos => exact ih (pos + u.width) hrest

theorem spanOf_eq_of_conduct (subject : Subject) (start stop : Nat)
    (h : ts.map (Target.conduct unknown) = us.map (Target.conduct unknown)) :
    spanOf unknown subject start stop ts = spanOf unknown subject start stop us := by
  cases ts with
  | nil =>
    obtain rfl : us = [] := by simpa using h.symm
    rfl
  | cons t ts =>
    cases us with
    | nil => simp at h
    | cons u us =>
      obtain ⟨hconduct, hrest⟩ := List.cons.inj h
      rw [spanOf, spanOf, Target.place_eq_of_conduct_eq hconduct,
        Target.width_eq_of_conduct_eq hconduct]
      cases u.place unknown subject start stop with
      | none => rfl
      | some first =>
        exact congrArg (Option.map fun last => (first, last))
          (placeAll_eq_of_conduct subject stop (first + u.width) hrest)

/-- A bound of the window with the targets that remain, of which only the conduct counts. -/
def boundAndConduct (unknown : UInt8) (found : Nat × List Target) :
    Nat × List (Nat × (Subject → Nat → Bool) × (Subject → Nat → Nat → Option Nat)) :=
  (found.1, found.2.map (Target.conduct unknown))

theorem stepStart_eq_of_conduct (htokens : p.tokens = q.tokens) (hanchors : p.anchors = q.anchors)
    (h : p.targets.map (Target.conduct p.tokens.unknown) =
      q.targets.map (Target.conduct p.tokens.unknown)) (subject : Subject) (start : Nat) :
    (p.stepStart subject start).map (boundAndConduct p.tokens.unknown) =
      (q.stepStart subject start).map (boundAndConduct p.tokens.unknown) := by
  rw [stepStart, stepStart, ← hanchors, ← htokens]
  cases p.anchors.atStart with
  | false => exact congrArg (fun c => some (start, c)) h
  | true =>
    cases hp : p.targets with
    | nil =>
      have hq : q.targets = [] := by simpa [hp] using h.symm
      rw [hq]
    | cons t ts =>
      cases hq : q.targets with
      | nil => simp [hp, hq] at h
      | cons u us =>
        rw [hp, hq] at h
        obtain ⟨hconduct, hrest⟩ := List.cons.inj h
        simp only [Target.fitsAt_eq_of_conduct_eq hconduct, Target.width_eq_of_conduct_eq hconduct]
        split
        · exact congrArg (fun c => some (start + u.width, c)) hrest
        · rfl

theorem stepEnd_eq_of_conduct (htokens : p.tokens = q.tokens) (hanchors : p.anchors = q.anchors)
    (h : ts.map (Target.conduct p.tokens.unknown) = us.map (Target.conduct p.tokens.unknown))
    (subject : Subject) (cursor stop : Nat) :
    (p.stepEnd subject cursor stop ts).map (boundAndConduct p.tokens.unknown) =
      (q.stepEnd subject cursor stop us).map (boundAndConduct p.tokens.unknown) := by
  have hlast := congrArg List.getLast? h
  have hfront := congrArg List.dropLast h
  rw [List.getLast?_map, List.getLast?_map] at hlast
  rw [← List.map_dropLast, ← List.map_dropLast] at hfront
  rw [stepEnd, stepEnd, ← hanchors, ← htokens]
  split
  · cases ht : ts.getLast? with
    | none =>
      have hu : us.getLast? = none := by simpa [ht] using hlast.symm
      rw [hu]
    | some t =>
      rw [ht, Option.map_some] at hlast
      obtain ⟨u, hu, hconduct⟩ := Option.map_eq_some_iff.mp hlast.symm
      rw [hu]
      simp only [Target.fitsAt_eq_of_conduct_eq hconduct, Target.width_eq_of_conduct_eq hconduct]
      split
      · exact congrArg (fun c => some (stop - t.width, c)) hfront
      · rfl
  · exact congrArg (fun c => some (stop, c)) h

theorem covers_eq_of_conduct (htokens : p.tokens = q.tokens) (hanchors : p.anchors = q.anchors)
    (h : p.targets.map (Target.conduct p.tokens.unknown) =
      q.targets.map (Target.conduct p.tokens.unknown)) (subject : Subject) (start stop : Nat) :
    p.covers subject start stop = q.covers subject start stop := by
  have hstart := stepStart_eq_of_conduct htokens hanchors h subject start
  rw [covers, covers]
  cases hp : p.stepStart subject start with
  | none =>
    have hq : q.stepStart subject start = none := by simpa [hp] using hstart.symm
    rw [hq]
  | some first =>
    rw [hp, Option.map_some] at hstart
    obtain ⟨⟨cursor, rest⟩, hq, hfirst⟩ := Option.map_eq_some_iff.mp hstart.symm
    obtain ⟨rfl, hrest⟩ := Prod.mk.inj hfirst
    rw [hq]
    dsimp only
    have hend := stepEnd_eq_of_conduct htokens hanchors hrest.symm subject first.1 stop
    cases hp' : p.stepEnd subject first.1 stop first.2 with
    | none =>
      have hq' : q.stepEnd subject first.1 stop rest = none := by simpa [hp'] using hend.symm
      rw [hq']
    | some last =>
      rw [hp', Option.map_some] at hend
      obtain ⟨⟨limit, interior⟩, hq', hlast⟩ := Option.map_eq_some_iff.mp hend.symm
      obtain ⟨rfl, hinterior⟩ := Prod.mk.inj hlast
      rw [hq', ← htokens]
      exact congrArg Option.isSome
        (placeAll_eq_of_conduct subject last.1 first.1 hinterior.symm)

/-- Patterns that differ only in their formats and in how their targets come to the same answers find
the same matches. -/
theorem findIn_eq_of_conduct (hmode : p.mode = q.mode) (htokens : p.tokens = q.tokens)
    (hanchors : p.anchors = q.anchors) (hminWidth : p.minWidth = q.minWidth)
    (h : p.targets.map (Target.conduct p.tokens.unknown) =
      q.targets.map (Target.conduct p.tokens.unknown)) : p.findIn = q.findIn := by
  funext subject start length
  have hempty := congrArg List.isEmpty h
  rw [List.isEmpty_map, List.isEmpty_map] at hempty
  rw [findIn, findIn, hmode, hminWidth, hempty, covers_eq_of_conduct htokens hanchors h,
    spanOf_eq_of_conduct subject start (start + length) h, htokens]

end Pattern
end Wildcard
