import Wildcard.Proofs.Accesses
import Wildcard.Proofs.RangeChecks

/-!
# Which numbers are words

Where the lengths of format and subject are words, finding computes words, with one exception: the
place where a run is first looked for is added up before it is compared with the limit. A target
that comes up near the end of a subject of the greatest length makes it larger than any word. The
room for the run still comes out right if the place wraps around.
-/

namespace Wildcard

/-- The numbers that are computed where something is done. Where a byte is read these are its index
and the next one, since sums and counters go one further than the bytes. -/
def Event.numbers : Event → List Int
  | .subject index => [index, index + 1]
  | .format index => [index, index + 1]
  | .window stop => [stop]
  | .bounds cursor limit => [cursor, limit]
  | .placing cursor limit => [cursor, limit]
  | .searchStart position => [position]
  | .number n => [n]

def Event.InWords (e : Event) : Prop := e.numbers.Forall IsWord

theorem Event.Confined.inWords {format : Bytes} {start stop reach : Int} {e : Event}
    (h : e.Confined format start stop reach) (hformat : format.length < 2147483648)
    (hstart : 0 ≤ start) (hstop : stop < 2147483648) :
    e.InWords ∨ ∃ position, e = .searchStart position ∧ 2147483648 ≤ position ∧
      position < stop + reach := by
  obtain ⟨hinside, hconfined⟩ := h
  cases e with
  | searchStart position =>
    simp only [Inside] at hinside
    by_cases hlt : position < 2147483648
    · left
      simp only [InWords, numbers, List.Forall, IsWord]
      omega
    · exact .inr ⟨position, rfl, Int.not_lt.mp hlt, hconfined⟩
  | _ =>
    left
    simp only [Inside] at hinside hconfined
    simp only [InWords, numbers, List.Forall, IsWord]
    omega

/-- A difference that is a word is right, though what is taken off has wrapped around. -/
theorem word_sub_word {a b : Int} (h : IsWord (a - b)) : word (a - word b) = a - b := by
  obtain ⟨hlower, hupper⟩ := h
  simp only [word, Int.bmod]
  omega

namespace Target

/-- The numbers that a target carries, the sums and differences of them, and the shifts of its
needle. The loops over its bytes count up to one of them or down to −1. -/
def numbers (t : Target) : List Nat :=
  [t.start, t.literal.length, t.leading, t.trailing, t.run.start, t.run.length, t.run.stop,
    t.start + t.run.start, t.start + t.run.stop, t.literal.length - t.run.start,
    t.leading + t.literal.length, t.width, t.needle.bytes.length] ++ t.needle.shifts.toList

variable {unknown : UInt8} {format : Bytes} {start stop reach : Nat} {t : Target}

theorem Suits.numbers_le (h : t.Suits unknown format start stop reach)
    (hreach : reach ≤ format.length) : ∀ n ∈ t.numbers, n ≤ format.length := by
  have hlies := h.lies.1
  have hnarrow := h.narrow
  have hwidth := width_eq h.ready
  have hneedle : t.needle.bytes.length = t.run.length := congrArg List.length t.needle_bytes
  have hrun : t.run.stop = t.run.start + t.run.length := rfl
  simp only [Section.width] at hwidth hnarrow
  intro n hn
  rw [numbers, List.mem_append] at hn
  rcases hn with hn | hn
  · simp only [List.mem_cons, List.not_mem_nil, or_false, Section.width] at hn
    omega
  · obtain ⟨i, hi, rfl⟩ := List.getElem_of_mem hn
    have hshift := t.needle.shifts_le i (by simpa using hi)
    rw [Vector.getElem_toList]
    omega

theorem room_of_words (h : t.Ready unknown) (hwidth : t.width < 2147483648) {cursor limit : Nat}
    (hle : cursor ≤ limit) (hlimit : limit < 2147483648) :
    word (t.searchStop limit - word (t.searchStart cursor)) =
      t.searchStop limit - t.searchStart cursor := by
  have hparts := width_eq h
  apply word_sub_word
  simp only [IsWord, searchStop, searchStart]
  omega

end Target

namespace Traced

variable {α β : Type} {x : Traced α} {f : α → Traced β} {e : Event}

theorem mem_events_bind_left (h : e ∈ x.events) : e ∈ (x >>= f).events :=
  List.mem_append_left _ h

theorem mem_events_bind_right (h : e ∈ (f x.value).events) : e ∈ (x >>= f).events :=
  List.mem_append_right _ h

end Traced

namespace Pattern

open Traced

variable {p : Pattern} {subject : Subject}

theorem Compiled.minWidth_le (hp : p.Compiled) : p.minWidth ≤ p.format.length := by
  rw [hp.laidOut.minWidth_eq]
  exact List.length_filter_le _ _

/-- Where the lengths of format and subject are words, a compiled pattern carries words only.
Finding computes words only, if the range ends far enough in front of the greatest word to leave
room for the least width behind it. Beyond that the place where a run is first looked for may be no
word, but nothing else, and the room that is computed from the place wrapped around is right. -/
theorem find_computes_words (mode : Mode) {format : Bytes} {tokens : Tokens}
    (nonempty : format ≠ []) (distinct : tokens.unknown ≠ tokens.anything)
    (hformat : format.length < 2147483648) :
    ∃ p, compile format mode tokens = .ok p ∧ IsWord p.minWidth ∧
      (∀ t ∈ p.targets, ∀ n ∈ t.numbers, IsWord n) ∧
      ∀ (subject : Subject) (start length : Int), subject.size < 2147483648 →
        ¬ (Range.span start length).Outside subject.size →
        IsWord (subject.size - length) ∧
          (∃ m, p.find subject (.span start length) = .ok m ∧
            (p.tracedFindIn subject start length).value = ((m.start : Int), m.length)) ∧
          (start + length + p.minWidth ≤ 2147483648 →
            ∀ e ∈ (p.tracedFindIn subject start length).events, e.InWords) ∧
          (∀ e ∈ (p.tracedFindIn subject start length).events, e.InWords ∨
            ∃ position, e = .searchStart position ∧ 2147483648 ≤ position ∧
              position < start + length + p.minWidth) ∧
          ∀ t ∈ p.targets, ∀ cursor limit : Nat, cursor ≤ limit → limit ≤ start + length →
            word (t.searchStop limit - word (t.searchStart cursor)) =
              t.searchStop limit - t.searchStart cursor := by
  obtain ⟨p, hcompile⟩ := exists_compiled nonempty distinct hformat mode
  obtain ⟨hp, rfl, rfl, rfl⟩ := compile_eq_ok_iff.mp hcompile
  have hreach := hp.minWidth_le
  refine ⟨p, hcompile, ?_, ?_, ?_⟩
  · simp only [IsWord]
    omega
  · intro t ht n hn
    have hle := (hp.suits (Nat.le_refl (0 + p.minWidth)) t ht).numbers_le hreach n hn
    simp only [IsWord]
    omega
  · intro subject start length hsize hoverlap
    simp only [Range.Outside, not_or, Int.not_lt] at hoverlap
    obtain ⟨hstart, hlength, hinside⟩ := hoverlap
    lift start to Nat using hstart
    lift length to Nat using hlength
    have hstop : start + length ≤ subject.size := by omega
    obtain ⟨hvalue, hevents⟩ := hp.tracedFindIn_confined hstop
    have hwords := fun e he => (hevents e he).inWords hformat (Int.natCast_nonneg start) (by omega)
    refine ⟨?_, ⟨p.findIn subject start length, find_span p hsize hstop, hvalue⟩, ?_, ?_, ?_⟩
    · simp only [IsWord]
      omega
    · intro hreach e he
      rcases hwords e he with hwords | ⟨position, rfl, hge, hlt⟩
      · exact hwords
      · omega
    · simpa only [Int.natCast_add] using hwords
    · intro t ht cursor limit hle hlimit
      have hnarrow := (hp.suits (Nat.le_refl (0 + p.minWidth)) t ht).narrow
      exact Target.room_of_words (hp.ready t ht) (by omega) hle (by omega)

/-- For `a*b?cd` no number leaves the words, and `cd` is looked for from the word 4 on. -/
theorem find_computes_words_behind_gap :
    ∃ p, compile [97, 42, 98, 63, 99, 100] .anywhere {} = .ok p ∧ IsWord p.minWidth ∧
      (∀ t ∈ p.targets, ∀ n ∈ t.numbers, IsWord n) ∧
      ∀ e ∈ (p.tracedFindIn #[120, 97, 120, 98, 121, 99, 100] 0 7).events, e.InWords := by
  obtain ⟨p, hcompile, hminWidth, hnumbers, h⟩ :=
    @find_computes_words .anywhere [97, 42, 98, 63, 99, 100] {} (by decide) (by decide) (by decide)
  have hwidth : p.minWidth = 5 := by
    cases hcompile
    decide
  obtain ⟨-, -, hwords, -, -⟩ := h #[120, 97, 120, 98, 121, 99, 100] 0 7 (by decide)
    (by simp [Range.Outside])
  exact ⟨p, hcompile, hminWidth, hnumbers, hwords (by rw [hwidth]; decide)⟩

variable {t u : Target} {rest : List Target} {start length pos : Nat}

theorem searchStart_mem_tracedLocate (unknown : UInt8) (format : Bytes) (cursor : Nat)
    (limit : Int) :
    .searchStart (t.searchStart cursor) ∈
      (t.tracedLocate unknown format subject cursor limit).events := by
  rw [Target.tracedLocate]
  refine mem_events_bind_left ?_
  simp [note, Target.searchStart]

theorem searchStart_mem_tracedPlaceAll (unknown : UInt8) (format : Bytes) (cursor : Nat)
    (limit : Int) (hgap : t.isGap = false) :
    .searchStart (t.searchStart cursor) ∈
      (tracedPlaceAll unknown format subject limit cursor (t :: rest)).events := by
  rw [tracedPlaceAll, Target.tracedAdvance, Target.tracedPlace, hgap]
  refine mem_events_bind_left (mem_events_bind_left (mem_events_bind_right ?_))
  exact searchStart_mem_tracedLocate unknown format cursor limit

/-- Behind the first target that is placed, the place where the next one is first looked for is
computed, wherever that may be. -/
theorem Compiled.searchStart_mem_events (hp : p.Compiled) (hmode : p.mode = .anywhere)
    (htargets : p.targets = t :: u :: rest) (hgap : u.isGap = false)
    (hwidth : p.minWidth ≤ length)
    (hplace : t.place p.tokens.unknown subject start (start + length) = some pos) :
    .searchStart (u.searchStart (pos + t.width)) ∈
      (p.tracedFindIn subject start length).events := by
  have hsuits := hp.suits (Nat.add_le_add_left hwidth start)
  have hfirst := hsuits t (htargets ▸ List.mem_cons_self)
  have hadvance : (t.tracedAdvance p.tokens.unknown p.format subject start
      (start + length : Nat)).value = some ((pos : Int), ((pos + t.width : Nat) : Int)) := by
    rw [(Target.tracedAdvance_yields hfirst (Nat.le_refl start) (Nat.le_add_right start length)
      (Nat.le_refl _)).1, hplace]
    rfl
  have hspan : .searchStart (u.searchStart (pos + t.width)) ∈
      (tracedSpanOf p.tokens.unknown p.format subject start (start + length : Nat)
        (t :: u :: rest)).events := by
    rw [tracedSpanOf]
    refine mem_events_bind_right ?_
    rw [hadvance]
    refine mem_events_bind_left ?_
    exact searchStart_mem_tracedPlaceAll p.tokens.unknown p.format (pos + t.width) _ hgap
  rw [tracedFindIn, if_neg (by omega), if_neg (by simp [htargets]), hmode, htargets]
  exact mem_events_bind_right (mem_events_bind_left hspan)

theorem place_of_last_byte {unknown b c : UInt8} (hready : t.Ready unknown)
    (hsection : t.toSection = ⟨0, [b], 0, 0⟩) (hb : b ≠ unknown) (hc : c ≠ b) (n : Nat) :
    t.place unknown ((Array.replicate n c).push b) 0 (n + 1) = some n := by
  have hfits : ∀ pos, t.Fits unknown ((Array.replicate n c).push b) (n + 1) pos ↔ pos = n := by
    intro pos
    have hleading : t.leading = 0 := congrArg Section.leading hsection
    have hliteral : t.literal = [b] := congrArg Section.literal hsection
    have hwidth : t.width = 1 := by rw [hsection]; rfl
    simp only [Target.Fits, hwidth, Target.fitsAt, hleading, hliteral, Nat.add_zero, agreesAt,
      beq_eq_false_iff_ne.mpr hb, Bool.false_or, Bool.and_true, beq_iff_eq]
    constructor
    · rintro ⟨hroom, hbyte⟩
      by_contra hne
      have hlt : pos < n := by omega
      rw [Array.getElem?_push, Array.size_replicate, if_neg hne,
        Array.getElem?_replicate, if_pos hlt] at hbyte
      exact hc (Option.some.inj hbyte)
    · rintro rfl
      rw [Array.getElem?_push, Array.size_replicate, if_pos rfl]
      exact ⟨Nat.le_refl _, rfl⟩
  obtain ⟨first, hfirst, -⟩ := Target.exists_place_le hready (Nat.zero_le n) ((hfits n).mpr rfl)
  rw [hfirst, (hfits first).mp (Target.place_fits hready hfirst).2]

theorem searchStart_behind_last_byte {n : Nat} {length position : Int} (hn : 4 ≤ n)
    (hlength : length = n + 1) (hposition : position = n + 3) :
    ∃ p, compile [97, 42, 98, 63, 99, 100] .anywhere {} = .ok p ∧
      .searchStart position ∈
        (p.tracedFindIn ((Array.replicate n 120).push 97) 0 length).events := by
  obtain ⟨p, hcompile⟩ := @Compilable.exists_compiled [97, 42, 98, 63, 99, 100] {} (by decide) .anywhere
  obtain ⟨hp, -, hmode, htokens⟩ := compile_eq_ok_iff.mp hcompile
  have hwidth : p.minWidth = 5 := by
    cases hcompile
    decide
  have hsections : p.tokens.sections p.anchors.atEnd p.format =
      [⟨0, [97], 0, 0⟩, ⟨2, [98, 63, 99, 100], 0, 0⟩] := by
    cases hcompile
    decide
  have htargets : p.targets = [.ofSection p.tokens.unknown ⟨0, [97], 0, 0⟩,
      .ofSection p.tokens.unknown ⟨2, [98, 63, 99, 100], 0, 0⟩] := by
    rw [hp.targets_eq, hsections]
    rfl
  have hrun : (Target.ofSection p.tokens.unknown ⟨2, [98, 63, 99, 100], 0, 0⟩).run.start = 2 := by
    rw [htokens]
    decide
  have hplace := place_of_last_byte (Target.ready_ofSection p.tokens.unknown ⟨0, [97], 0, 0⟩) rfl
    (by rw [htokens]; decide) (by decide : (120 : UInt8) ≠ 97) n
  rw [← Nat.zero_add (n + 1)] at hplace
  have hmem := hp.searchStart_mem_events hmode htargets rfl (by omega) hplace
  have hend : ((n + 1 : Nat) : Int) = length := by omega
  have hstart : (Target.ofSection p.tokens.unknown ⟨2, [98, 63, 99, 100], 0, 0⟩).searchStart
      (n + (Target.ofSection p.tokens.unknown ⟨0, [97], 0, 0⟩).width) = position := by
    rw [Target.searchStart, hrun]
    show ((n + 1 + 0 + 2 : Nat) : Int) = position
    omega
  rw [hend, hstart] at hmem
  exact ⟨p, hcompile, hmem⟩

/-- The search for the `cd` of `b?cd` behind the last byte of a subject of the greatest length
starts at a place that is no word. -/
theorem searchStart_leaves_words :
    let subject : Subject := (Array.replicate 2147483646 120).push 97
    ∃ p, compile [97, 42, 98, 63, 99, 100] .anywhere {} = .ok p ∧ subject.size = 2147483647 ∧
      ¬ (Range.span 0 2147483647).Outside subject.size ∧
      .searchStart 2147483649 ∈ (p.tracedFindIn subject 0 2147483647).events ∧
      ¬ ∀ e ∈ (p.tracedFindIn subject 0 2147483647).events, e.InWords := by
  intro subject
  obtain ⟨p, hcompile, hmem⟩ := @searchStart_behind_last_byte 2147483646 2147483647 2147483649
    (by decide) (by decide) (by decide)
  have hsize : subject.size = 2147483647 := by rw [Array.size_push, Array.size_replicate]
  have hinside : ¬ (Range.span 0 2147483647).Outside subject.size := by
    rw [hsize, Range.Outside]
    decide
  refine ⟨p, hcompile, hsize, hinside, hmem, fun h => ?_⟩
  have hword : IsWord 2147483649 := h _ hmem
  exact absurd hword.2 (by decide)

end Pattern
end Wildcard
