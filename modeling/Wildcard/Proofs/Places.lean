import Wildcard.Proofs.Conduct
import Wildcard.Proofs.Positions
import Wildcard.Proofs.SettledSections
import Wildcard.Regex

/-!
# Places in the format

A section knows where its literal stands in the format, but nothing that is done with a pattern reads
that. Patterns that differ only in their formats and in those places find the same match in every
range, enumerate the same matches, and are written as the same regular expression if their formats
have the same outer anything tokens.
-/

namespace Wildcard

namespace Section

/-- What does not depend on the places of literals is the same of sections that differ only in
these. -/
theorem map_eq_of_map_unplaced_eq {α : Type} {f : Section → α} {front back : List Section}
    (hf : ∀ s, f s.unplaced = f s) (h : front.map unplaced = back.map unplaced) :
    front.map f = back.map f := by
  have hmap : ∀ sections : List Section, sections.map f = (sections.map unplaced).map f := by
    intro sections
    rw [List.map_map]
    exact List.map_congr_left fun s _ => (hf s).symm
  rw [hmap front, h, ← hmap back]

end Section

namespace Target

def unplaced (t : Target) : Target := { t with start := 0 }

@[simp] theorem toSection_unplaced (t : Target) : t.unplaced.toSection = t.toSection.unplaced := rfl

theorem search_eq_bind (t : Target) (unknown : UInt8) (subject : Subject) (before after : Bytes)
    (stop pos : Nat) :
    t.search unknown subject before after stop pos =
      (t.needle.findIn subject stop pos).bind fun p =>
        if agreesAt unknown subject (p - t.run.start) before &&
            agreesAt unknown subject (p + t.run.length) after then
          some (p - t.run.start - t.leading)
        else t.search unknown subject before after stop (p + 1) := by
  rw [search]
  split
  · rename_i hnone
    rw [hnone, Option.bind_none]
  · rename_i p hp
    rw [hp, Option.bind_some]

theorem search_unplaced (t : Target) (unknown : UInt8) (subject : Subject) (before after : Bytes)
    (stop pos : Nat) :
    t.unplaced.search unknown subject before after stop pos =
      t.search unknown subject before after stop pos := by
  have hneedle : t.unplaced.needle = t.needle := rfl
  fun_induction search t unknown subject before after stop pos with
  | case1 pos hnone => rw [search_eq_bind, hneedle, hnone, Option.bind_none]
  | case2 pos p hp hagrees =>
    rw [search_eq_bind, hneedle, hp, Option.bind_some]
    exact if_pos hagrees
  | case3 pos p hp hdiffers ih =>
    rw [search_eq_bind, hneedle, hp, Option.bind_some]
    exact (if_neg hdiffers).trans ih

@[simp] theorem place_unplaced (t : Target) (unknown : UInt8) (subject : Subject)
    (cursor limit : Nat) :
    t.unplaced.place unknown subject cursor limit = t.place unknown subject cursor limit := by
  have hlocate : t.unplaced.locate unknown subject cursor limit =
      t.locate unknown subject cursor limit := by
    rw [locate, search_unplaced]
    rfl
  rw [place, hlocate]
  rfl

theorem conduct_unplaced (t : Target) (unknown : UInt8) :
    t.unplaced.conduct unknown = t.conduct unknown := by
  have hplace : t.unplaced.place unknown = t.place unknown := by
    funext subject cursor limit
    exact t.place_unplaced unknown subject cursor limit
  rw [conduct, hplace]
  rfl

end Target

namespace Pattern

variable {p q : Pattern}

def unplaced (p : Pattern) : Pattern := { p with targets := p.targets.map Target.unplaced }

theorem findIn_unplaced (p : Pattern) : p.unplaced.findIn = p.findIn := by
  have hconduct : p.unplaced.targets.map (Target.conduct p.tokens.unknown) =
      p.targets.map (Target.conduct p.tokens.unknown) := by
    rw [unplaced, List.map_map]
    exact List.map_congr_left fun t _ => t.conduct_unplaced p.tokens.unknown
  exact findIn_eq_of_conduct rfl rfl rfl rfl hconduct

/-- The two patterns differ only in their formats, which have the same outer anything tokens, and in
the places of their literals there. -/
structure Alike (p q : Pattern) : Prop where
  mode_eq : p.mode = q.mode
  tokens_eq : p.tokens = q.tokens
  anchors_eq : p.anchors = q.anchors
  minWidth_eq : p.minWidth = q.minWidth
  targets_eq : p.targets.map Target.unplaced = q.targets.map Target.unplaced
  head_eq : (p.format.head? == some p.tokens.anything) = (q.format.head? == some q.tokens.anything)
  last_eq :
    (p.format.getLast? == some p.tokens.anything) = (q.format.getLast? == some q.tokens.anything)

namespace Alike

theorem findIn_eq (h : Alike p q) (subject : Subject) (start length : Nat) :
    p.findIn subject start length = q.findIn subject start length := by
  have hunplaced : p.unplaced = { q.unplaced with format := p.format } := by
    simp only [unplaced, h.mode_eq, h.tokens_eq, h.anchors_eq, h.minWidth_eq, h.targets_eq]
  rw [← findIn_unplaced p, ← findIn_unplaced q, hunplaced]
  rfl

theorem find_eq (h : Alike p q) (subject : Subject) (range : Range) :
    p.find subject range = q.find subject range := by
  simp only [find, h.findIn_eq]

theorem isEmpty_targets_eq (h : Alike p q) : p.targets.isEmpty = q.targets.isEmpty := by
  have hempty := congrArg List.isEmpty h.targets_eq
  rwa [List.isEmpty_map, List.isEmpty_map] at hempty

theorem map_sections_eq (h : Alike p q) : p.sections.map Section.unplaced =
    q.sections.map Section.unplaced := by
  have hsections := congrArg (List.map Target.toSection) h.targets_eq
  simpa only [sections, List.map_map, Function.comp_def, Target.toSection_unplaced] using hsections

end Alike

end Pattern

namespace Cursor

def withPattern (c : Cursor) (pattern : Held Pattern) : Cursor := { c with pattern := pattern }

variable {c : Cursor} {pattern : Held Pattern}

theorem take_withPattern (hmode : pattern.value.mode = c.pattern.value.mode) (m : Match) :
    (c.withPattern pattern).take m = (c.take m).withPattern pattern := by
  simp only [take, withPattern, hmode]
  split
  · rfl
  · split <;> rfl

theorem advance_withPattern (h : Pattern.Alike pattern.value c.pattern.value) :
    (c.withPattern pattern).advance = c.advance.map fun d => d.withPattern pattern := by
  have hphase : (c.withPattern pattern).phase = c.phase := rfl
  have hfind : (c.withPattern pattern).pattern.value.find = c.pattern.value.find := by
    funext subject range
    exact h.find_eq subject range
  rw [advance, advance, hphase, hfind]
  cases c.phase with
  | done => rfl
  | last => rfl
  | ready =>
    dsimp only [withPattern]
    cases c.pattern.value.find c.subject.value (.span c.position (word (c.stop - c.position))) with
    | error e => rfl
    | ok m => exact congrArg Except.ok (take_withPattern h.mode_eq m)

/-- With a pattern that is alike, a cursor goes through the same matches. -/
theorem rest_withPattern (h : Pattern.Alike pattern.value c.pattern.value) :
    (c.withPattern pattern).rest = c.rest := by
  fun_induction rest c with
  | case1 c hdone => exact rest_of_done hdone
  | case2 c hdone e hadvance =>
    have hphase : (c.withPattern pattern).phase ≠ .done := hdone
    rw [rest_of_not_done hphase, upcoming, advance_withPattern h, hadvance]
    rfl
  | case3 c hdone d hadvance ih =>
    have hphase : (c.withPattern pattern).phase ≠ .done := hdone
    have hrest := ih (advance_pattern hadvance ▸ h)
    rw [rest_of_not_done hphase, upcoming, advance_withPattern h, hadvance]
    exact congrArg (Except.map (c.current :: ·)) hrest

theorem upcoming_withPattern (h : Pattern.Alike pattern.value c.pattern.value) :
    (c.withPattern pattern).upcoming = c.upcoming := by
  rw [upcoming, advance_withPattern h, upcoming]
  cases hadvance : c.advance with
  | error e => rfl
  | ok d => exact rest_withPattern (advance_pattern hadvance ▸ h)

end Cursor

namespace Pattern.Alike

variable {p q : Pattern}

theorem allMatches_eq (h : Alike p q) (subject : Subject) (range : Range) :
    p.allMatches subject range = q.allMatches subject range := by
  cases hresolve : range.resolve subject.size with
  | error e => simp only [allMatches, Sequence.ofRange, hresolve, Except.map, Except.bind]
  | ok w =>
    rw [Pattern.allMatches_eq p hresolve, Pattern.allMatches_eq q hresolve]
    have hcursor : (Sequence.ofWindow ⟨0, p⟩ ⟨0, subject⟩ w).cursor =
        (Sequence.ofWindow ⟨0, q⟩ ⟨0, subject⟩ w).cursor.withPattern ⟨0, p⟩ := by
      simp only [Sequence.cursor, Sequence.ofWindow, Cursor.withPattern]
    rw [hcursor, Cursor.upcoming_withPattern]
    exact h

theorem ofPattern_eq (h : Alike p q) (dialect : Dialect) :
    Regex.ofPattern dialect p = Regex.ofPattern dialect q := by
  have hparts : p.sections.map (Regex.ofSection dialect p.tokens.unknown) =
      q.sections.map (Regex.ofSection dialect q.tokens.unknown) := by
    rw [h.tokens_eq]
    exact Section.map_eq_of_map_unplaced_eq (fun _ => rfl) h.map_sections_eq
  simp only [Regex.ofPattern, Regex.body, h.isEmpty_targets_eq, h.head_eq, h.last_eq,
    h.anchors_eq, hparts]

end Pattern.Alike
end Wildcard
