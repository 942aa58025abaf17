import Wildcard.Proofs.Occurrence

/-!
# What a search tries and reads

A search tries one position after another, until the needle occurs at one or there is no room left.
Both ways of searching try positions in increasing order, so they end; at each they read bytes of the
needle's room only, so nothing outside the text; and both end with the first occurrence.
-/

namespace Wildcard

namespace Needle

/-- The positions that are read when bytes are compared from `pos` on, up to the first difference. -/
def readsAt (text : Subject) : Nat → Bytes → List Nat
  | _, [] => []
  | pos, b :: rest => pos :: if text[pos]? == some b then readsAt text (pos + 1) rest else []

def readsBefore (text : Subject) : Nat → Bytes → List Nat
  | _, [] => []
  | 0, _ :: _ => []
  | pos + 1, b :: rest => pos :: if text[pos]? == some b then readsBefore text pos rest else []

theorem bounds_of_mem_readsAt {text : Subject} {pos i : Nat} {bytes : Bytes}
    (h : i ∈ readsAt text pos bytes) : pos ≤ i ∧ i < pos + bytes.length := by
  induction bytes generalizing pos with
  | nil => simp [readsAt] at h
  | cons b rest ih =>
    rw [readsAt, List.mem_cons] at h
    rw [List.length_cons]
    rcases h with rfl | h
    · omega
    · split at h
      · have := ih h
        omega
      · simp at h

theorem bounds_of_mem_readsBefore {text : Subject} {pos i : Nat} {backward : Bytes}
    (h : i ∈ readsBefore text pos backward) : i < pos ∧ pos ≤ i + backward.length := by
  induction backward generalizing pos with
  | nil => simp [readsBefore] at h
  | cons b rest ih =>
    cases pos with
    | zero => simp [readsBefore] at h
    | succ pos =>
      rw [readsBefore, List.mem_cons] at h
      rw [List.length_cons]
      rcases h with rfl | h
      · omega
      · split at h
        · have := ih h
          omega
        · simp at h

/-- A way of searching: when it accepts a position, where it goes on from one that it does not, and
which positions of the text it reads while it is at one. -/
structure Way where
  accepts : Nat → Bool
  next : Nat → Nat
  reads : Nat → List Nat

def walking (needle : Needle) (text : Subject) : Way where
  accepts pos := occursAt text pos needle.bytes
  next pos := pos + 1
  reads pos := readsAt text pos needle.bytes

/-- Compare backward, and go on by the shift of the byte under the needle's last position, which is
read once more for that. -/
def skipping (needle : Needle) (text : Subject) : Way where
  accepts pos := occursBefore text (pos + needle.bytes.length) needle.bytes.reverse
  next pos := pos + needle.shiftAt text (pos + needle.bytes.length - 1)
  reads pos :=
    readsBefore text (pos + needle.bytes.length) needle.bytes.reverse ++
      if occursBefore text (pos + needle.bytes.length) needle.bytes.reverse then []
      else [pos + needle.bytes.length - 1]

variable {needle : Needle} {text : Subject} {stop pos : Nat}

theorem bounds_of_mem_reads_walking {i : Nat} (h : i ∈ (needle.walking text).reads pos) :
    pos ≤ i ∧ i < pos + needle.bytes.length :=
  bounds_of_mem_readsAt h

theorem bounds_of_mem_reads_skipping {i : Nat} (h : i ∈ (needle.skipping text).reads pos) :
    pos ≤ i ∧ i < pos + needle.bytes.length := by
  rcases List.mem_append.mp h with h | h
  · have := bounds_of_mem_readsBefore h
    rw [List.length_reverse] at this
    omega
  · split at h
    · simp at h
    · rename_i hno
      rw [occursBefore_reverse] at hno
      have hlast := length_pos_of_not_occursAt (eq_false_of_ne_true hno)
      rw [List.mem_singleton] at h
      omega

theorem occursAt_iff_slice {bytes : Bytes} :
    occursAt text pos bytes = true ↔ text.slice pos bytes.length = bytes := by
  rw [occursAt_iff, Subject.slice_eq]
  constructor
  · intro h
    apply List.ext_getElem?
    intro i
    by_cases hi : i < bytes.length
    · rw [List.getElem?_take_of_lt hi, List.getElem?_drop, Array.getElem?_toList, h i hi]
    · rw [List.getElem?_eq_none (by simp; omega), List.getElem?_eq_none (by omega)]
  · intro h i hi
    have hbyte := congrArg (fun s : Bytes => s[i]?) h
    rw [List.getElem?_take_of_lt hi, List.getElem?_drop, Array.getElem?_toList] at hbyte
    exact hbyte

def StandsAt (bytes : Bytes) (text : Subject) (pos : Nat) : Prop :=
  pos + bytes.length ≤ text.size ∧ text.slice pos bytes.length = bytes

theorem occurs_size_iff {bytes : Bytes} :
    Occurs bytes text text.size pos ↔ StandsAt bytes text pos :=
  and_congr_right fun _ => occursAt_iff_slice

/-- A way of searching leads from a position to the first occurrence. It tries positions in
increasing order, each with room for the bytes, and reads only what is in the text. -/
structure Way.Finds (way : Way) (bytes : Bytes) (text : Subject) (start : Nat)
    (found : Option Nat) : Prop where
  first : Leftmost (StandsAt bytes text) start found
  ends : ∃ tried, Trials (roomAt bytes.length text.size) way.accepts way.next start tried found
  tries : ∀ {tried : List Nat} {found' : Option Nat},
    Trials (roomAt bytes.length text.size) way.accepts way.next start tried found' →
    found' = found ∧ tried.Pairwise (· < ·) ∧
      ∀ p ∈ tried, start ≤ p ∧ p + bytes.length ≤ text.size ∧
        ∀ i ∈ way.reads p, start ≤ i ∧ i < text.size

theorem Way.Finds.of_trials {way : Way} {bytes : Bytes} {start : Nat} {found : Option Nat}
    (hfirst : Leftmost (Occurs bytes text text.size) start found)
    (hends : ∃ tried, Trials (roomAt bytes.length text.size) way.accepts way.next start tried found)
    (hnext : ∀ p, p < way.next p)
    (hreads : ∀ p, ∀ i ∈ way.reads p, p ≤ i ∧ i < p + bytes.length) :
    way.Finds bytes text start found := by
  have hstands : Occurs bytes text text.size = StandsAt bytes text :=
    funext fun p => propext occurs_size_iff
  refine ⟨hstands ▸ hfirst, hends, ?_⟩
  intro tried found' htrials
  obtain ⟨tried', htrials'⟩ := hends
  obtain ⟨hincreasing, hge⟩ :=
    htrials.increasing (fun pos p hp => Nat.le_of_eq (roomAt_eq_some_iff.mp hp).1.symm) hnext
  have hroom := htrials.forall_tried fun pos p hp => (roomAt_eq_some_iff.mp hp).2
  refine ⟨(htrials'.unique htrials).2, hincreasing, ?_⟩
  intro p hp
  have hstart := hge p hp
  have hstop := hroom p hp
  refine ⟨hstart, hstop, fun i hi => ?_⟩
  have := hreads p i hi
  omega

theorem findIn_of_no_room (needle : Needle) (h : stop < pos + needle.bytes.length) :
    needle.findIn text stop pos = none := by
  rw [findIn, walk, skip, if_neg (Nat.not_le.mpr h), if_neg (Nat.not_le.mpr h), ite_self]

theorem counted_ofBytes {bytes : Bytes} (h : bytes.length < 2147483648) :
    (ofBytes bytes).counted = ofBytes bytes := by
  have hword : word bytes.length = bytes.length := word_eq_self (by omega) (by omega)
  rw [counted, ofBytes_bytes, hword, Int.toNat_natCast, List.take_length]

theorem word_reported {found : Option Nat} (h : ∀ p, found = some p → p < 2147483648) :
    word (reported found) = reported found := by
  cases found with
  | none => rfl
  | some p =>
    have hlt := h p rfl
    exact word_eq_self (by rw [reported]; omega) (by rw [reported]; omega)

theorem searchWord_eq_findIn {bytes : Bytes} {text : Subject} (hbytes : bytes.length < 2147483648)
    (htext : text.size < 2147483648) (start : Int) :
    (ofBytes bytes).searchWord text start =
      reported ((ofBytes bytes).findIn text text.size start.toNat) := by
  have hsize : word text.size = text.size := word_eq_self (by omega) (by omega)
  have hlength : word bytes.length = bytes.length := word_eq_self (by omega) (by omega)
  have hfirst : max 0 start = start.toNat := by omega
  simp only [searchWord, ofBytes_bytes, hsize, hlength, hfirst, counted_ofBytes hbytes,
    Int.toNat_natCast]
  split
  · rw [findIn_of_no_room _ (by rw [ofBytes_bytes]; omega)]
    rfl
  · split
    · rename_i hroom hnil
      obtain rfl : bytes = [] := List.length_eq_zero_iff.mp (by omega)
      have hinside : start.toNat + ([] : Bytes).length ≤ text.size := by
        rw [List.length_nil]
        omega
      rw [findIn, if_pos (by decide), walk, ofBytes_bytes, if_pos hinside]
      rfl
    · split
      · rw [findIn_of_no_room _ (by rw [ofBytes_bytes]; omega)]
        rfl
      · rw [findIn, ofBytes_bytes]
        split
        · rename_i hshort
          rw [if_pos (by simpa using hshort)]
          refine word_reported fun p hp => ?_
          have hbounds := walk_bounds hp
          omega
        · rename_i hlong
          rw [if_neg (by simpa using hlong)]

theorem search_eq_findIn {bytes : Bytes} {text : Subject} (hbytes : bytes.length < 2147483648)
    (htext : text.size < 2147483648) (start : Int) :
    (ofBytes bytes).search text start = (ofBytes bytes).findIn text text.size start.toNat := by
  rw [search, searchWord_eq_findIn hbytes htext]
  cases (ofBytes bytes).findIn text text.size start.toNat with
  | none => rfl
  | some p => exact if_neg (Int.not_lt.mpr (Int.natCast_nonneg p))

theorem searchWord_of_long (needle : Needle) {text : Subject} (lower : 2147483648 ≤ text.size)
    (upper : text.size < 4294967296) (start : Int) : needle.searchWord text start = -1 := by
  have hneg := word_neg_of_long (n := text.size) (by omega) (by omega)
  exact if_pos (by omega)

/-- A search of a text gives, as a word, the first occurrence at or after its start, a negative one
counting as 0, or nothing if there is none. Both ways of searching do so for needles of any length,
end, and read nothing outside the text. All this holds where the lengths of needle and text are
words; in a text of 2 to the 31st bytes, or up to twice as many, nothing is found. -/
theorem search_finds_first (bytes : Bytes) (text : Subject) (start : Int) :
    (bytes.length < 2147483648 → text.size < 2147483648 →
      (ofBytes bytes).searchWord text start = reported ((ofBytes bytes).search text start) ∧
      Leftmost (StandsAt bytes text) start.toNat ((ofBytes bytes).search text start) ∧
      (bytes = [] → (ofBytes bytes).search text start =
        if start.toNat ≤ text.size then some start.toNat else none) ∧
      (ofBytes bytes).search text start =
        (if bytes.length < shortLength then walk bytes text text.size start.toNat
          else skip (ofBytes bytes) bytes.reverse text text.size start.toNat) ∧
      ((ofBytes bytes).walking text).Finds bytes text start.toNat
        (walk bytes text text.size start.toNat) ∧
      ((ofBytes bytes).skipping text).Finds bytes text start.toNat
        (skip (ofBytes bytes) bytes.reverse text text.size start.toNat)) ∧
      (2147483648 ≤ text.size → text.size < 4294967296 →
        (ofBytes bytes).searchWord text start = -1) := by
  refine ⟨fun hbytes htext => ?_, fun lower upper => searchWord_of_long _ lower upper start⟩
  have hwalk : ((ofBytes bytes).walking text).Finds bytes text start.toNat
      (walk bytes text text.size start.toNat) :=
    .of_trials (walk_leftmost bytes text text.size start.toNat)
      (walk_trials bytes text text.size start.toNat) Nat.lt_succ_self
      fun p i hi => bounds_of_mem_reads_walking hi
  have hskip : ((ofBytes bytes).skipping text).Finds bytes text start.toNat
      (skip (ofBytes bytes) bytes.reverse text text.size start.toNat) :=
    .of_trials (skip_leftmost (ofBytes bytes) text text.size start.toNat)
      (skip_trials (ofBytes bytes) text text.size start.toNat)
      (fun p => Nat.lt_add_of_pos_right ((ofBytes bytes).shiftAt_pos text _))
      fun p i hi => bounds_of_mem_reads_skipping hi
  rw [searchWord_eq_findIn hbytes htext, search_eq_findIn hbytes htext]
  refine ⟨rfl, ?_, ?_, rfl, hwalk, hskip⟩
  · rw [findIn]
    split
    · exact hwalk.first
    · exact hskip.first
  · rintro rfl
    rw [findIn, if_pos (by decide), walk]
    rfl

theorem search_finds_first_of_overlap :
    Leftmost (StandsAt [97, 98, 97, 98] #[97, 98, 97, 97, 98, 97, 98]) 0 (some 3) ∧
      (ofBytes [97, 98, 97, 98]).searchWord #[97, 98, 97, 97, 98, 97, 98] (-1) = 3 := by
  have hfound : (ofBytes [97, 98, 97, 98]).search #[97, 98, 97, 97, 98, 97, 98] (-1) = some 3 := by
    decide +kernel
  obtain ⟨h, -⟩ := search_finds_first [97, 98, 97, 98] #[97, 98, 97, 97, 98, 97, 98] (-1)
  obtain ⟨hword, hfirst, -⟩ := h (by decide) (by decide)
  rw [hfound] at hword hfirst
  exact ⟨hfirst, hword⟩

/-- In 2 to the 31st times `a` there is an `a` at the start, but none is found. -/
theorem search_misses_in_long_text :
    let text : Subject := Array.replicate 2147483648 97
    StandsAt [97] text 0 ∧ (ofBytes [97]).searchWord text 0 = -1 ∧
      ¬ Leftmost (StandsAt [97] text) 0 ((ofBytes [97]).search text 0) := by
  intro text
  have hsize : text.size = 2147483648 := Array.size_replicate
  have hstands : StandsAt [97] text 0 := by
    refine ⟨by rw [hsize]; decide, occursAt_iff_slice.mp ?_⟩
    have hbyte : text[0]? = some 97 := by
      rw [Array.getElem?_replicate, if_pos (by decide)]
    rw [occursAt, occursAt, hbyte]
    rfl
  have hword : (ofBytes [97]).searchWord text 0 = -1 :=
    searchWord_of_long _ (by omega) (by omega) 0
  refine ⟨hstands, hword, ?_⟩
  rw [search, hword]
  exact fun hnone => hnone 0 (Nat.le_refl 0) hstands

end Needle
end Wildcard
