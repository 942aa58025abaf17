import Wildcard.Subject
import Wildcard.Word

/-!
# Needle search

The first occurrence of a byte string in a window of a subject. A long needle is compared from
its last byte backward and then moves on by the distance of the byte under its last position
from the needle's end; a short needle is compared at every position. A search of a whole text counts
in words, and finds what it should where the lengths of needle and text are words.
-/

namespace Wildcard

/-- Write down, for each byte but the last, how far it stands from the end; later bytes overwrite
earlier ones, so the last occurrence counts. -/
def fillShifts : Vector Nat 256 → Bytes → Vector Nat 256
  | table, [] => table
  | table, [_] => table
  | table, b :: next :: rest =>
    fillShifts (table.set b.toNat (rest.length + 1) b.toNat_lt) (next :: rest)

structure Needle where
  bytes : Bytes
  shifts : Vector Nat 256
  shifts_eq : shifts = fillShifts (Vector.replicate 256 bytes.length) bytes

namespace Needle

def ofBytes (bytes : Bytes) : Needle := ⟨bytes, _, rfl⟩

@[simp] theorem ofBytes_bytes (bytes : Bytes) : (ofBytes bytes).bytes = bytes := rfl

/-- Needles below this length are not worth a shift table. -/
def shortLength : Nat := 4

def shiftAt (needle : Needle) (text : Subject) (last : Nat) : Nat :=
  match text[last]? with
  | some b => max 1 (needle.shifts.get b.toFin)
  | none => 1

theorem shiftAt_pos (needle : Needle) (text : Subject) (last : Nat) :
    0 < needle.shiftAt text last := by
  unfold shiftAt
  split <;> omega

def occursAt (text : Subject) : Nat → Bytes → Bool
  | _, [] => true
  | pos, b :: rest => text[pos]? == some b && occursAt text (pos + 1) rest

/-- Whether the bytes, given last byte first, occur in the text just before a position. -/
def occursBefore (text : Subject) : Nat → Bytes → Bool
  | _, [] => true
  | 0, _ :: _ => false
  | pos + 1, b :: rest => text[pos]? == some b && occursBefore text pos rest

def walk (bytes : Bytes) (text : Subject) (stop pos : Nat) : Option Nat :=
  if pos + bytes.length ≤ stop then
    if occursAt text pos bytes then some pos else walk bytes text stop (pos + 1)
  else none
termination_by stop + 1 - pos

/-- Try a position, then skip by the shift of the byte under the needle's last position. -/
def skip (needle : Needle) (backward : Bytes) (text : Subject) (stop pos : Nat) : Option Nat :=
  if pos + needle.bytes.length ≤ stop then
    if occursBefore text (pos + needle.bytes.length) backward then some pos
    else skip needle backward text stop (pos + needle.shiftAt text (pos + needle.bytes.length - 1))
  else none
termination_by stop + 1 - pos
decreasing_by
  have := needle.shiftAt_pos text (pos + needle.bytes.length - 1)
  omega

/-- The first occurrence at or after `pos` that ends at or before `stop`. -/
def findIn (needle : Needle) (text : Subject) (stop pos : Nat) : Option Nat :=
  if needle.bytes.length < shortLength then walk needle.bytes text stop pos
  else skip needle needle.bytes.reverse text stop pos

/-- A position as a word, −1 if there is none. -/
def reported : Option Nat → Int
  | some pos => pos
  | none => -1

/-- What is left of a needle whose length has been cut down to a word. -/
def counted (needle : Needle) : Needle :=
  ofBytes (needle.bytes.take (word needle.bytes.length).toNat)

/-- Look for the needle in a whole text, at or after `start` or 0. The lengths of both are cut down to
words first; a needle that is then short is still looked for as it is in all of the text. -/
def searchWord (needle : Needle) (text : Subject) (start : Int) : Int :=
  let size := word text.size
  let length := word needle.bytes.length
  let first := max 0 start
  if size < first then -1
  else if length = 0 then first
  else if size - first < length then -1
  else if length < shortLength then
    word (reported (walk needle.bytes text text.size first.toNat))
  else
    reported (skip needle.counted needle.counted.bytes.reverse text size.toNat first.toNat)

def search (needle : Needle) (text : Subject) (start : Int) : Option Nat :=
  if needle.searchWord text start < 0 then none else some (needle.searchWord text start).toNat

theorem walk_bounds {bytes : Bytes} {text : Subject} {stop pos p : Nat}
    (h : walk bytes text stop pos = some p) : pos ≤ p ∧ p + bytes.length ≤ stop := by
  fun_induction walk bytes text stop pos with
  | case1 pos hle => cases h; omega
  | case2 pos hle hno ih => have := ih h; omega
  | case3 => cases h

theorem skip_bounds {needle : Needle} {backward : Bytes} {text : Subject} {stop pos p : Nat}
    (h : skip needle backward text stop pos = some p) :
    pos ≤ p ∧ p + needle.bytes.length ≤ stop := by
  fun_induction skip needle backward text stop pos with
  | case1 pos hle => cases h; omega
  | case2 pos hle hno ih => have := ih h; omega
  | case3 => cases h

theorem findIn_bounds {needle : Needle} {text : Subject} {stop pos p : Nat}
    (h : needle.findIn text stop pos = some p) : pos ≤ p ∧ p + needle.bytes.length ≤ stop := by
  unfold findIn at h
  split at h
  · exact walk_bounds h
  · exact skip_bounds h

end Needle
end Wildcard
