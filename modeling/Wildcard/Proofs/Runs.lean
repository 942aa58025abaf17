import Mathlib.Data.List.TakeWhile
import Wildcard.Bytes.Runs

/-!
# Where runs stand

The runs of a text between the occurrences of a byte stand in the text at the positions that they
carry and are free of the byte. Occurrences of the byte at either end of the text make no run, and
a text has no run if it is made of the byte only.
-/

namespace Wildcard
namespace Bytes

theorem takeWhile_beq (b : UInt8) (s : Bytes) :
    s.takeWhile (· == b) = List.replicate (s.takeWhile (· == b)).length b := by
  apply List.eq_replicate_of_mem
  intro c hc
  simpa using List.mem_takeWhile_imp hc

theorem replicate_append_dropWhile (b : UInt8) (s : Bytes) :
    List.replicate (s.length - (s.dropWhile (· == b)).length) b ++ s.dropWhile (· == b) = s := by
  have hsplit := List.takeWhile_append_dropWhile (p := (· == b)) (l := s)
  have hcount : s.length - (s.dropWhile (· == b)).length = (s.takeWhile (· == b)).length := by
    have hlength := congrArg List.length hsplit
    rw [List.length_append] at hlength
    omega
  rw [hcount, ← takeWhile_beq, hsplit]

theorem dropTrailing_append_replicate (b : UInt8) (s : Bytes) :
    dropTrailing (· == b) s ++
      List.replicate (s.length - (dropTrailing (· == b) s).length) b = s := by
  have h := congrArg List.reverse (replicate_append_dropWhile b s.reverse)
  rw [List.reverse_append, List.reverse_replicate, List.reverse_reverse, List.length_reverse] at h
  simpa only [dropTrailing, List.length_reverse] using h

theorem head?_dropWhile_ne (b : UInt8) (s : Bytes) :
    (s.dropWhile (· == b)).head? ≠ some b := by
  intro h
  have hnot := List.head?_dropWhile_not (· == b) s
  rw [h] at hnot
  simp at hnot

theorem getLast?_dropTrailing_ne (b : UInt8) (s : Bytes) :
    (dropTrailing (· == b) s).getLast? ≠ some b := by
  rw [dropTrailing, List.getLast?_reverse]
  exact head?_dropWhile_ne b s.reverse

end Bytes

namespace Run

/-- The run stands in a text whose first byte has position `pos`, and `gap` is not in it. -/
structure Within (gap : UInt8) (pos : Nat) (text : Bytes) (r : Run) : Prop where
  free : gap ∉ r.bytes
  stands : ∃ before after, text = before ++ r.bytes ++ after ∧ r.start = pos + before.length

theorem Within.start_ge {gap : UInt8} {pos : Nat} {text : Bytes} {r : Run}
    (h : r.Within gap pos text) : pos ≤ r.start := by
  obtain ⟨before, after, -, hstart⟩ := h.stands
  omega

theorem Within.cons {gap : UInt8} {pos : Nat} {text : Bytes} {r : Run}
    (h : r.Within gap (pos + 1) text) (b : UInt8) : r.Within gap pos (b :: text) := by
  obtain ⟨before, after, rfl, hstart⟩ := h.stands
  refine ⟨h.free, b :: before, after, rfl, ?_⟩
  rw [hstart, List.length_cons]
  omega

@[simp] theorem between_cons_gap (gap : UInt8) (pos : Nat) (text : Bytes) :
    between gap pos (gap :: text) = between gap (pos + 1) text := by
  simp [between]

theorem between_cons_ne {gap b : UInt8} (hb : b ≠ gap) (pos : Nat) (text : Bytes) :
    between gap pos (b :: text) = extend pos b (between gap (pos + 1) text) := by
  simp [between, hb]

theorem within_of_mem_extend {gap b : UInt8} {pos : Nat} {text : Bytes} {runs : List Run} {r : Run}
    (hb : b ≠ gap) (hruns : ∀ r ∈ runs, r.Within gap (pos + 1) text)
    (h : r ∈ extend pos b runs) : r.Within gap pos (b :: text) := by
  have halone : (⟨pos, [b]⟩ : Run).Within gap pos (b :: text) :=
    ⟨by simpa using Ne.symm hb, [], text, rfl, by simp⟩
  cases runs with
  | nil =>
    rw [extend, List.mem_singleton] at h
    exact h ▸ halone
  | cons first rest =>
    rw [extend] at h
    split at h
    · rename_i hnext
      rcases List.mem_cons.mp h with rfl | h
      · have hfirst := hruns first List.mem_cons_self
        obtain ⟨before, after, htext, hstart⟩ := hfirst.stands
        have hbefore : before = [] := List.eq_nil_of_length_eq_zero (by omega)
        subst hbefore
        refine ⟨?_, [], after, by simp [htext], by simp⟩
        simpa using ⟨Ne.symm hb, hfirst.free⟩
      · exact (hruns r (List.mem_cons_of_mem first h)).cons b
    · rcases List.mem_cons.mp h with rfl | h
      · exact halone
      · exact (hruns r h).cons b

theorem within_of_mem_between {gap : UInt8} {pos : Nat} {text : Bytes} {r : Run}
    (h : r ∈ between gap pos text) : r.Within gap pos text := by
  induction text generalizing pos r with
  | nil => simp [between] at h
  | cons b text ih =>
    by_cases hb : b = gap
    · subst hb
      rw [between_cons_gap] at h
      exact (ih h).cons b
    · rw [between_cons_ne hb] at h
      exact within_of_mem_extend hb (fun r hr => ih hr) h

theorem start_eq_iff_of_between {gap : UInt8} {pos : Nat} {text : Bytes} {r : Run}
    {rest : List Run} (h : between gap pos text = r :: rest) :
    r.start = pos ↔ text.head? ≠ some gap := by
  cases text with
  | nil => simp [between] at h
  | cons b text =>
    by_cases hb : b = gap
    · subst hb
      rw [between_cons_gap] at h
      have hmem : r ∈ between b (pos + 1) text := by simp [h]
      have hstart : pos + 1 ≤ r.start := (within_of_mem_between hmem).start_ge
      simp only [List.head?_cons, ne_eq, not_true_eq_false, iff_false]
      omega
    · rw [between_cons_ne hb] at h
      have hr : r.start = pos := by
        cases hruns : between gap (pos + 1) text with
        | nil =>
          rw [hruns, extend, List.cons.injEq] at h
          rw [← h.1]
        | cons first others =>
          rw [hruns, extend] at h
          split at h <;> rw [← (List.cons.inj h).1]
      simp [hr, hb]

theorem extend_ne_nil (pos : Nat) (b : UInt8) (runs : List Run) : extend pos b runs ≠ [] := by
  cases runs with
  | nil => simp [extend]
  | cons r rest =>
    rw [extend]
    split <;> simp

theorem between_eq_nil_iff {gap : UInt8} {pos : Nat} {text : Bytes} :
    between gap pos text = [] ↔ ∀ b ∈ text, b = gap := by
  induction text generalizing pos with
  | nil => simp [between]
  | cons b text ih =>
    by_cases hb : b = gap
    · subst hb
      simp [ih]
    · simp [between_cons_ne hb, extend_ne_nil, hb]

theorem ne_nil_of_between_ne_nil {gap : UInt8} {pos : Nat} {text : Bytes}
    (h : between gap pos text ≠ []) : text ≠ [] := by
  rintro rfl
  exact h rfl

/-- A text has an occurrence of the byte between every two runs, and one more at either end where it
starts or ends with the byte. -/
theorem length_between_le {gap : UInt8} {pos : Nat} {text : Bytes}
    (h : between gap pos text ≠ []) :
    (between gap pos text).length + (text.head? == some gap).toNat +
      (text.getLast? == some gap).toNat ≤ text.count gap + 1 := by
  induction text generalizing pos with
  | nil => simp [between] at h
  | cons b text ih =>
    by_cases hb : b = gap
    · subst hb
      rw [between_cons_gap] at h ⊢
      have hlast : (b :: text).getLast? = text.getLast? := by
        obtain ⟨c, rest, rfl⟩ := List.exists_cons_of_ne_nil (ne_nil_of_between_ne_nil h)
        rw [List.getLast?_cons_cons]
      have hrest := ih h
      rw [hlast, List.count_cons_self, List.head?_cons, beq_self_eq_true, Bool.toNat_true]
      omega
    · have hhead : ((b :: text).head? == some gap) = false := by simpa using hb
      rw [between_cons_ne hb, hhead, List.count_cons_of_ne hb]
      cases hruns : between gap (pos + 1) text with
      | nil =>
        have hall := between_eq_nil_iff.mp hruns
        have hcount : text.count gap = text.length :=
          List.count_eq_length.mpr fun c hc => (hall c hc).symm
        have hlast : ((b :: text).getLast? == some gap).toNat ≤ text.length := by
          cases text with
          | nil => simpa using hb
          | cons c rest => exact (Bool.toNat_le _).trans (Nat.le_add_left 1 _)
        simp only [extend, List.length_singleton, Bool.toNat_false]
        omega
      | cons r rest =>
        have hne : between gap (pos + 1) text ≠ [] := by simp [hruns]
        have hlast : (b :: text).getLast? = text.getLast? := by
          obtain ⟨c, others, rfl⟩ := List.exists_cons_of_ne_nil (ne_nil_of_between_ne_nil hne)
          rw [List.getLast?_cons_cons]
        have hrest := ih hne
        rw [hruns, List.length_cons] at hrest
        rw [hlast, extend, Bool.toNat_false]
        by_cases hnext : r.start = pos + 1
        · rw [if_pos hnext, List.length_cons]
          omega
        · have hgap : text.head? = some gap := by
            rw [start_eq_iff_of_between hruns, not_not] at hnext
            exact hnext
          rw [hgap, beq_self_eq_true, Bool.toNat_true] at hrest
          rw [if_neg hnext, List.length_cons, List.length_cons]
          omega

theorem between_replicate_append (gap : UInt8) (n pos : Nat) (text : Bytes) :
    between gap pos (List.replicate n gap ++ text) = between gap (pos + n) text := by
  induction n generalizing pos with
  | zero => rfl
  | succ n ih =>
    rw [List.replicate_succ, List.cons_append, between_cons_gap, ih]
    congr 1
    omega

theorem between_append_replicate (gap : UInt8) (n pos : Nat) (text : Bytes) :
    between gap pos (text ++ List.replicate n gap) = between gap pos text := by
  induction text generalizing pos with
  | nil => simpa [between] using between_eq_nil_iff.mpr fun b hb => (List.mem_replicate.mp hb).2
  | cons b text ih =>
    by_cases hb : b = gap
    · subst hb
      rw [List.cons_append, between_cons_gap, between_cons_gap, ih]
    · rw [List.cons_append, between_cons_ne hb, between_cons_ne hb, ih]

end Run
end Wildcard
