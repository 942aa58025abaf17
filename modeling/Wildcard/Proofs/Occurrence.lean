import Wildcard.Needle
import Wildcard.Proofs.Leftmost

/-!
# First occurrences

Both ways of searching for a needle give its leftmost occurrence in the window: walking tries every
position, and skipping passes over none, since a shift never exceeds the distance to the next place
where the byte under the needle's last position stands in the needle.
-/

namespace Wildcard

theorem fillShifts_le (table : Vector Nat 256) (bytes : Bytes) (c : Nat) (hc : c < 256)
    (h : bytes.length ≤ table[c] + 1) : (fillShifts table bytes)[c] ≤ table[c] := by
  fun_induction fillShifts table bytes with
  | case1 => exact Nat.le_refl _
  | case2 => exact Nat.le_refl _
  | case3 table b next rest ih =>
    simp only [List.length_cons] at h ih
    have hset : (table.set b.toNat (rest.length + 1) b.toNat_lt)[c] ≤ table[c] ∧
        rest.length + 1 ≤ (table.set b.toNat (rest.length + 1) b.toNat_lt)[c] := by
      rw [Vector.getElem_set]
      split <;> omega
    exact Nat.le_trans (ih (by omega)) hset.1

/-- A byte of the needle other than the last stands at least its shift away from the end. -/
theorem fillShifts_le_of_getElem? (table : Vector Nat 256) (bytes : Bytes) {j : Nat} {b : UInt8}
    (hc : b.toNat < 256) (hj : j + 1 < bytes.length) (hb : bytes[j]? = some b) :
    (fillShifts table bytes)[b.toNat] + j + 1 ≤ bytes.length := by
  fun_induction fillShifts table bytes generalizing j with
  | case1 => simp at hj
  | case2 => simp at hj
  | case3 table c next rest ih =>
    simp only [List.length_cons] at hj ih ⊢
    cases j with
    | zero =>
      obtain rfl : c = b := by simpa using hb
      have hle := fillShifts_le (table.set c.toNat (rest.length + 1) c.toNat_lt) (next :: rest)
        c.toNat c.toNat_lt (by simp)
      rw [Vector.getElem_set_self] at hle
      omega
    | succ j =>
      have hj' : j + 1 < rest.length + 1 := by omega
      have hle := ih hj' (by simpa using hb)
      omega

namespace Needle

theorem occursAt_iff {text : Subject} {pos : Nat} {bytes : Bytes} :
    occursAt text pos bytes = true ↔ ∀ i < bytes.length, text[pos + i]? = bytes[i]? := by
  induction bytes generalizing pos with
  | nil => simp [occursAt]
  | cons b rest ih =>
    rw [occursAt, Bool.and_eq_true, ih, beq_iff_eq]
    constructor
    · rintro ⟨hb, hrest⟩ i hi
      cases i with
      | zero => simpa using hb
      | succ i =>
        rw [List.getElem?_cons_succ, ← hrest i (by simpa using hi)]
        congr 1
        omega
    · intro h
      refine ⟨by simpa using h 0 (by simp), ?_⟩
      intro i hi
      have hnext := h (i + 1) (by simpa using hi)
      rw [List.getElem?_cons_succ] at hnext
      rw [← hnext]
      congr 1
      omega

theorem length_pos_of_not_occursAt {text : Subject} {pos : Nat} {bytes : Bytes}
    (h : occursAt text pos bytes = false) : 0 < bytes.length := by
  cases bytes with
  | nil => simp [occursAt] at h
  | cons b rest => exact Nat.succ_pos _

theorem occursBefore_append (text : Subject) (pos : Nat) (front back : Bytes) :
    occursBefore text (pos + front.length) (front ++ back) =
      (occursBefore text (pos + front.length) front && occursBefore text pos back) := by
  induction front with
  | nil => simp [occursBefore]
  | cons b front ih =>
    simp only [List.length_cons, List.cons_append, ← Nat.add_assoc, occursBefore, ih,
      Bool.and_assoc]

theorem occursBefore_reverse (text : Subject) (pos : Nat) (bytes : Bytes) :
    occursBefore text (pos + bytes.length) bytes.reverse = occursAt text pos bytes := by
  induction bytes generalizing pos with
  | nil => simp [occursBefore, occursAt]
  | cons b rest ih =>
    have hsplit := occursBefore_append text (pos + 1) rest.reverse [b]
    have hstop : pos + (b :: rest).length = pos + 1 + rest.reverse.length := by
      simp only [List.length_cons, List.length_reverse]
      omega
    rw [List.reverse_cons, hstop, hsplit, List.length_reverse, ih, occursAt, Bool.and_comm]
    simp only [occursBefore, Bool.and_true]

theorem shifts_le (needle : Needle) (c : Nat) (hc : c < 256) :
    needle.shifts[c] ≤ needle.bytes.length := by
  have hle := fillShifts_le (Vector.replicate 256 needle.bytes.length) needle.bytes c hc (by simp)
  rw [Vector.getElem_replicate] at hle
  simpa only [needle.shifts_eq] using hle

theorem shiftAt_le_length {needle : Needle} (text : Subject) (last : Nat)
    (h : 0 < needle.bytes.length) : needle.shiftAt text last ≤ needle.bytes.length := by
  unfold shiftAt
  split
  · exact Nat.max_le.mpr ⟨h, needle.shifts_le _ (UInt8.toNat_lt _)⟩
  · exact h

/-- A shift never carries the needle past an occurrence. -/
theorem shiftAt_le {needle : Needle} {text : Subject} {pos q : Nat} (hpos : pos < q)
    (h : occursAt text q needle.bytes = true) :
    pos + needle.shiftAt text (pos + needle.bytes.length - 1) ≤ q := by
  unfold shiftAt
  split
  · rename_i b hb
    have hc : b.toNat < 256 := b.toNat_lt
    change pos + max 1 needle.shifts[b.toNat] ≤ q
    by_cases hq : q < pos + needle.bytes.length
    · -- The byte under the last position belongs to the occurrence.
      have hbyte := occursAt_iff.mp h (pos + needle.bytes.length - 1 - q) (by omega)
      have hlast : q + (pos + needle.bytes.length - 1 - q) = pos + needle.bytes.length - 1 := by
        omega
      rw [hlast, hb] at hbyte
      have hle := fillShifts_le_of_getElem? (Vector.replicate 256 needle.bytes.length) needle.bytes
        hc (by omega) hbyte.symm
      simp only [← needle.shifts_eq] at hle
      omega
    · have hle := needle.shifts_le b.toNat hc
      omega
  · omega

/-- The needle occurs at a position, all of it in front of `stop`. -/
def Occurs (bytes : Bytes) (text : Subject) (stop pos : Nat) : Prop :=
  pos + bytes.length ≤ stop ∧ occursAt text pos bytes = true

def roomAt (length stop pos : Nat) : Option Nat := if pos + length ≤ stop then some pos else none

theorem roomAt_eq_some_iff {length stop pos p : Nat} :
    roomAt length stop pos = some p ↔ p = pos ∧ p + length ≤ stop := by
  simp only [roomAt, Option.ite_none_right_eq_some, Option.some.injEq]
  constructor
  · rintro ⟨hroom, rfl⟩
    exact ⟨rfl, hroom⟩
  · rintro ⟨rfl, hroom⟩
    exact ⟨hroom, rfl⟩

theorem roomAt_leftmost (length stop pos : Nat) :
    Leftmost (fun p => p + length ≤ stop) pos (roomAt length stop pos) := by
  unfold roomAt
  split
  · rename_i hroom
    exact .here hroom
  · intro q hq hroom
    omega

theorem walk_trials (bytes : Bytes) (text : Subject) (stop pos : Nat) :
    ∃ tried, Trials (roomAt bytes.length stop) (fun p => occursAt text p bytes) (· + 1) pos tried
      (walk bytes text stop pos) := by
  fun_induction walk bytes text stop pos with
  | case1 pos hroom hoccurs =>
    exact ⟨[pos], .accepted (roomAt_eq_some_iff.mpr ⟨rfl, hroom⟩) hoccurs⟩
  | case2 pos hroom hno ih =>
    obtain ⟨tried, htried⟩ := ih
    exact ⟨pos :: tried, .resumed (roomAt_eq_some_iff.mpr ⟨rfl, hroom⟩)
      (eq_false_of_ne_true hno) htried⟩
  | case3 pos hgt => exact ⟨[], .exhausted (if_neg hgt)⟩

theorem skip_trials (needle : Needle) (text : Subject) (stop pos : Nat) :
    ∃ tried, Trials (roomAt needle.bytes.length stop)
      (fun p => occursBefore text (p + needle.bytes.length) needle.bytes.reverse)
      (fun p => p + needle.shiftAt text (p + needle.bytes.length - 1)) pos tried
      (skip needle needle.bytes.reverse text stop pos) := by
  fun_induction skip needle needle.bytes.reverse text stop pos with
  | case1 pos hroom hoccurs =>
    exact ⟨[pos], .accepted (roomAt_eq_some_iff.mpr ⟨rfl, hroom⟩) hoccurs⟩
  | case2 pos hroom hno ih =>
    obtain ⟨tried, htried⟩ := ih
    exact ⟨pos :: tried, .resumed (roomAt_eq_some_iff.mpr ⟨rfl, hroom⟩)
      (eq_false_of_ne_true hno) htried⟩
  | case3 pos hgt => exact ⟨[], .exhausted (if_neg hgt)⟩

theorem walk_leftmost (bytes : Bytes) (text : Subject) (stop pos : Nat) :
    Leftmost (Occurs bytes text stop) pos (walk bytes text stop pos) := by
  obtain ⟨tried, htried⟩ := walk_trials bytes text stop pos
  refine htried.leftmost (roomAt_leftmost bytes.length stop) (fun p => Iff.rfl) fun p => ?_
  exact ⟨Nat.lt_succ_self p, fun q hpq hq => by omega⟩

theorem skip_leftmost (needle : Needle) (text : Subject) (stop pos : Nat) :
    Leftmost (Occurs needle.bytes text stop) pos
      (skip needle needle.bytes.reverse text stop pos) := by
  obtain ⟨tried, htried⟩ := skip_trials needle text stop pos
  refine htried.leftmost (roomAt_leftmost needle.bytes.length stop) (fun p => ?_) fun p => ?_
  · rw [occursBefore_reverse, Occurs]
  · refine ⟨Nat.lt_add_of_pos_right (needle.shiftAt_pos text _), fun q hpq hq hoccurs => ?_⟩
    exact absurd hq (Nat.not_lt.mpr (shiftAt_le hpq hoccurs.2))

theorem findIn_leftmost (needle : Needle) (text : Subject) (stop pos : Nat) :
    Leftmost (Occurs needle.bytes text stop) pos (needle.findIn text stop pos) := by
  unfold findIn
  split
  · exact walk_leftmost needle.bytes text stop pos
  · exact skip_leftmost needle text stop pos

end Needle
end Wildcard
