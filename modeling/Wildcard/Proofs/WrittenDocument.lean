import Mathlib.Data.List.Nodup
import Wildcard.Proofs.LoadHistory

/-!
# Documents that are written and read back

A document is written as its tables, each as its heading in brackets and then a line
`key = "value"` for each entry, with either kind of quote that the value is free of. Whatever stands
in the headings, keys and values otherwise, reading gives the same tables, in the same order, and no
bad line.
-/

namespace Wildcard

namespace Bytes

structure Tidy (s : Bytes) : Prop where
  one_line : newline ∉ s
  head_not_blank : ∀ b ∈ s.head?, isBlank b = false
  last_not_blank : ∀ b ∈ s.getLast?, isBlank b = false

variable {s : Bytes} {b : UInt8}

theorem dropWhile_isBlank_of_head (h : ∀ b ∈ s.head?, isBlank b = false) :
    s.dropWhile isBlank = s := by
  cases s with
  | nil => rfl
  | cons b s => exact List.dropWhile_cons_of_neg (by simp [h b rfl])

theorem dropTrailing_isBlank_of_last (h : ∀ b ∈ s.getLast?, isBlank b = false) :
    dropTrailing isBlank s = s := by
  rw [← List.head?_reverse] at h
  rw [dropTrailing, dropWhile_isBlank_of_head h, List.reverse_reverse]

theorem trim_eq_self (hfront : ∀ b ∈ s.head?, isBlank b = false)
    (hback : ∀ b ∈ s.getLast?, isBlank b = false) : trim s = s := by
  rw [trim, dropWhile_isBlank_of_head hfront, dropTrailing_isBlank_of_last hback]

theorem Tidy.trim_eq (h : s.Tidy) : trim s = s := trim_eq_self h.head_not_blank h.last_not_blank

theorem trim_cons_blank (hb : isBlank b = true) (s : Bytes) : trim (b :: s) = trim s := by
  rw [trim, List.dropWhile_cons_of_pos hb, trim]

theorem Tidy.trim_concat_blank (h : s.Tidy) (hs : s ≠ []) (hb : isBlank b = true) :
    trim (s ++ [b]) = s := by
  have hfront : ∀ c ∈ (s ++ [b]).head?, isBlank c = false := by
    rw [List.head?_append_of_ne_nil s hs]
    exact h.head_not_blank
  have hback : dropTrailing isBlank (s ++ [b]) = dropTrailing isBlank s := by
    rw [dropTrailing, List.reverse_concat, List.dropWhile_cons_of_pos hb, dropTrailing]
  rw [trim, dropWhile_isBlank_of_head hfront, hback, dropTrailing_isBlank_of_last h.last_not_blank]

end Bytes

namespace Config
namespace Line

structure IsKey (key : Bytes) : Prop extends Bytes.Tidy key where
  ne_nil : key ≠ []
  no_equals : equals ∉ key
  no_comment : key.head? ≠ some comment

/-- A text on one line that leaves one kind of quote to put around it. -/
structure IsValue (value : Bytes) : Prop where
  one_line : Bytes.newline ∉ value
  leaves_quote : ∃ q, isQuote q = true ∧ q ∉ value

def quoted (q : UInt8) (value : Bytes) : Bytes := q :: (value ++ [q])

/-- The text that assigns a value to a key, between quotes that are not in the value. -/
inductive WritesEntry : Bytes × Bytes → Bytes → Prop
  | between {key value : Bytes} {q : UInt8} : isQuote q = true → q ∉ value →
      WritesEntry (key, value) (key ++ Bytes.ascii " = " ++ quoted q value)

variable {key value text : Bytes} {q : UInt8}

theorem not_isBlank_of_isQuote (h : isQuote q = true) : Bytes.isBlank q = false := by
  simp only [isQuote, Bool.or_eq_true, beq_iff_eq] at h
  rcases h with rfl | rfl <;> decide

theorem ne_closing_of_isQuote (h : isQuote q = true) : q ≠ closing := by
  rintro rfl
  exact absurd h (by decide)

theorem ne_newline_of_isQuote (h : isQuote q = true) : q ≠ Bytes.newline := by
  rintro rfl
  exact absurd h (by decide)

@[simp] theorem getLast?_append_quoted (front : Bytes) (q : UInt8) (value : Bytes) :
    (front ++ quoted q value).getLast? = some q := by
  rw [quoted, ← List.cons_append, ← List.append_assoc, List.getLast?_concat]

theorem trim_quoted (h : isQuote q = true) : Bytes.trim (quoted q value) = quoted q value := by
  have hlast := getLast?_append_quoted [] q value
  apply Bytes.trim_eq_self
  · simpa [quoted] using not_isBlank_of_isQuote h
  · rw [← List.nil_append (quoted q value), hlast]
    simpa using not_isBlank_of_isQuote h

/-- A written entry means the assignment that it is: its first equals sign is the one behind the
key, and it ends with a quote, so that it is no heading even if the key starts with a bracket. -/
theorem WritesEntry.means (hkey : IsKey key) (h : WritesEntry (key, value) text) :
    Means text (.assignment key value) := by
  obtain @⟨_, _, q, hq, hvalue⟩ := h
  have hblank : Bytes.isBlank 32 = true := by decide
  have hsplit : key ++ Bytes.ascii " = " ++ quoted q value =
      (key ++ [32]) ++ equals :: 32 :: quoted q value := by simp [Bytes.ascii, equals]
  have hdenotes : Denotes (Bytes.trim (32 :: quoted q value)) value := by
    rw [Bytes.trim_cons_blank hblank, trim_quoted hq]
    exact .quoted hq hvalue
  have hmeans : Means (key ++ Bytes.ascii " = " ++ quoted q value)
      (.assignment (Bytes.trim (key ++ [32])) value) := by
    refine .assignment ?_ ?_ hsplit ?_ (by simp) hdenotes
    · rintro (hnil | hcomment)
      · simp [quoted] at hnil
      · rw [List.append_assoc, List.head?_append_of_ne_nil key hkey.ne_nil] at hcomment
        exact hkey.no_comment hcomment
    · rintro ⟨-, hclosing⟩
      rw [getLast?_append_quoted] at hclosing
      exact ne_closing_of_isQuote hq (Option.some.inj hclosing)
    · simpa [equals] using hkey.no_equals
  rwa [hkey.toTidy.trim_concat_blank hkey.ne_nil hblank] at hmeans

theorem WritesEntry.trim_eq (hkey : IsKey key) (h : WritesEntry (key, value) text) :
    Bytes.trim text = text := by
  obtain @⟨_, _, q, hq, -⟩ := h
  apply Bytes.trim_eq_self
  · rw [List.append_assoc, List.head?_append_of_ne_nil key hkey.ne_nil]
    exact hkey.head_not_blank
  · rw [getLast?_append_quoted]
    simpa using not_isBlank_of_isQuote hq

theorem WritesEntry.ofText_eq (hkey : IsKey key) (h : WritesEntry (key, value) text) :
    ofText text = .assignment key value := by
  rw [ofText, h.trim_eq hkey, means_iff.mp (h.means hkey)]

theorem WritesEntry.one_line (hkey : IsKey key) (hvalue : IsValue value)
    (h : WritesEntry (key, value) text) : Bytes.newline ∉ text := by
  obtain @⟨_, _, q, hq, -⟩ := h
  have hspace : Bytes.newline ∉ Bytes.ascii " = " := by decide
  have hquote : Bytes.newline ≠ q := (ne_newline_of_isQuote hq).symm
  simp [quoted, hkey.one_line, hvalue.one_line, hspace, hquote]

theorem ofText_heading {name : Bytes} (h : name.Tidy) :
    ofText (opening :: (name ++ [closing])) = .heading name := by
  have htrim : Bytes.trim (opening :: (name ++ [closing])) = opening :: (name ++ [closing]) := by
    apply Bytes.trim_eq_self
    · simp [opening, Bytes.isBlank]
    · rw [← List.cons_append, List.getLast?_concat]
      simp [closing, Bytes.isBlank]
  rw [ofText, htrim, ofTrimmed_heading, h.trim_eq]

end Line

namespace Document

structure WritableTable (table : Bytes × Entries) : Prop where
  heading : table.1.Tidy
  keys_nodup : (table.2.map Prod.fst).Nodup
  keys : ∀ entry ∈ table.2, Line.IsKey entry.1
  values : ∀ entry ∈ table.2, Line.IsValue entry.2

structure Writable (tables : List (Bytes × Entries)) : Prop where
  headings_nodup : (tables.map Prod.fst).Nodup
  tables : ∀ table ∈ tables, WritableTable table

/-- A table as lines: its heading in brackets, and a line for each entry. -/
inductive WritesTable : Bytes × Entries → List Bytes → Prop
  | under {heading : Bytes} {entries : Entries} {texts : List Bytes} :
      List.Forall₂ Line.WritesEntry entries texts →
      WritesTable (heading, entries) ((Line.opening :: (heading ++ [Line.closing])) :: texts)

/-- The text that holds the tables one after the other, each line ended by a newline. -/
def Written (tables : List (Bytes × Entries)) (text : Bytes) : Prop :=
  ∃ parts, List.Forall₂ WritesTable tables parts ∧ text = Bytes.unlines parts.flatten

def linesOf (table : Bytes × Entries) : List Line :=
  .heading table.1 :: table.2.map fun entry => .assignment entry.1 entry.2

section Tables

variable {front tables : List (Bytes × Entries)} {entered entries : Entries} {heading key : Bytes}

theorem revise_append_of_notMem {α : Type} {name : Bytes} {front : List (Bytes × α)}
    (h : name ∉ front.map Prod.fst) (change : Option α → α) (back : List (Bytes × α)) :
    revise name change (front ++ back) = front ++ revise name change back := by
  induction front with
  | nil => rfl
  | cons entry front ih =>
    obtain ⟨n, a⟩ := entry
    rw [List.map_cons, List.mem_cons, not_or] at h
    rw [List.cons_append, revise, if_neg (Ne.symm h.1), ih h.2, List.cons_append]

theorem ensure_of_notMem (h : heading ∉ front.map Prod.fst) :
    ensure heading front = front ++ [(heading, [])] := by
  rw [ensure, ← List.append_nil front, revise_append_of_notMem h, List.append_nil]
  rfl

theorem put_of_notMem (hheading : heading ∉ front.map Prod.fst)
    (hkey : key ∉ entered.map Prod.fst) (value : Bytes) :
    put heading key value (front ++ [(heading, entered)]) =
      front ++ [(heading, entered ++ [(key, value)])] := by
  have hentered : revise key (fun _ => value) entered = entered ++ [(key, value)] := by
    rw [← List.append_nil entered, revise_append_of_notMem hkey, List.append_nil]
    rfl
  rw [put, revise_append_of_notMem hheading, revise, if_pos rfl, Option.getD_some, hentered]

/-- Entries under new keys come behind those that the last table has. -/
theorem enter_assignments (hheading : heading ∉ front.map Prod.fst)
    (hkeys : ((entered ++ entries).map Prod.fst).Nodup) :
    enter heading (front ++ [(heading, entered)])
        (entries.map fun entry => .assignment entry.1 entry.2) =
      front ++ [(heading, entered ++ entries)] := by
  induction entries generalizing entered with
  | nil => rw [List.map_nil, enter, List.append_nil]
  | cons entry entries ih =>
    obtain ⟨key, value⟩ := entry
    have hkey : key ∉ entered.map Prod.fst := by
      rw [List.map_append, List.nodup_append] at hkeys
      exact fun hmem => hkeys.2.2 key hmem key List.mem_cons_self rfl
    rw [List.append_cons] at hkeys
    rw [List.map_cons, enter, put_of_notMem hheading hkey, ih hkeys, ← List.append_cons]

theorem enter_linesOf (current : Bytes) {table : Bytes × Entries}
    (hheading : table.1 ∉ front.map Prod.fst) (hkeys : (table.2.map Prod.fst).Nodup) :
    enter current front (linesOf table) = front ++ [table] := by
  have hnew : (([] ++ table.2).map Prod.fst).Nodup := by rwa [List.nil_append]
  have hentries := enter_assignments hheading hnew
  rw [linesOf, enter, ensure_of_notMem hheading, hentries, List.nil_append]

theorem enter_flatMap_linesOf (current : Bytes)
    (hheadings : ((front ++ tables).map Prod.fst).Nodup)
    (hkeys : ∀ table ∈ tables, (table.2.map Prod.fst).Nodup) :
    enter current front (tables.flatMap linesOf) = front ++ tables := by
  induction tables generalizing front current with
  | nil => rw [List.flatMap_nil, enter, List.append_nil]
  | cons table tables ih =>
    rw [List.forall_mem_cons] at hkeys
    have hheading : table.1 ∉ front.map Prod.fst := by
      rw [List.map_append, List.nodup_append] at hheadings
      exact fun hmem => hheadings.2.2 table.1 hmem table.1 List.mem_cons_self rfl
    rw [List.append_cons] at hheadings
    rw [List.flatMap_cons, enter_append, enter_linesOf current hheading hkeys.1,
      ih _ hheadings hkeys.2, ← List.append_cons]

theorem badNumbers_of_notMem {ls : List Line} (h : Line.bad ∉ ls) : badNumbers ls = [] := by
  rw [List.eq_nil_iff_forall_not_mem]
  intro n hn
  obtain ⟨i, -, hline⟩ := mem_badNumbers.mp hn
  exact h (List.mem_of_getElem? hline)

theorem bad_notMem_linesOf (table : Bytes × Entries) : Line.bad ∉ linesOf table := by
  simp [linesOf]

theorem ofLines_flatMap_linesOf (hheadings : (tables.map Prod.fst).Nodup)
    (hkeys : ∀ table ∈ tables, (table.2.map Prod.fst).Nodup) :
    ofLines (tables.flatMap linesOf) = ⟨tables, []⟩ := by
  have hnew : (([] ++ tables).map Prod.fst).Nodup := by rwa [List.nil_append]
  have htables := enter_flatMap_linesOf [] hnew hkeys
  have hbad : Line.bad ∉ tables.flatMap linesOf := by
    simp [List.mem_flatMap, bad_notMem_linesOf]
  rw [ofLines, htables, badNumbers_of_notMem hbad, List.nil_append]

theorem lookup_eq_some_iff_of_nodup {α : Type} {table : List (Bytes × α)} {name : Bytes} {a : α}
    (h : (table.map Prod.fst).Nodup) : table.lookup name = some a ↔ (name, a) ∈ table := by
  induction table with
  | nil => simp
  | cons entry rest ih =>
    obtain ⟨n, b⟩ := entry
    rw [List.map_cons, List.nodup_cons] at h
    by_cases hn : name = n
    · subst hn
      have hrest : (name, a) ∉ rest := fun hmem => h.1 (List.mem_map.mpr ⟨_, hmem, rfl⟩)
      simp [hrest, eq_comm]
    · have hne : (name == n) = false := by simpa using hn
      simp [List.lookup_cons, hne, hn, ih h.2]

end Tables

section Texts

variable {table : Bytes × Entries} {tables : List (Bytes × Entries)} {texts : List Bytes}

theorem exists_forall₂ {α β : Type} {R : α → β → Prop} {xs : List α} (h : ∀ x ∈ xs, ∃ y, R x y) :
    ∃ ys, List.Forall₂ R xs ys := by
  induction xs with
  | nil => exact ⟨[], .nil⟩
  | cons x xs ih =>
    rw [List.forall_mem_cons] at h
    obtain ⟨y, hy⟩ := h.1
    obtain ⟨ys, hys⟩ := ih h.2
    exact ⟨y :: ys, .cons hy hys⟩

theorem WritableTable.exists_writesTable (h : WritableTable table) :
    ∃ texts, WritesTable table texts := by
  obtain ⟨heading, entries⟩ := table
  have hentries : ∀ entry ∈ entries, ∃ text, Line.WritesEntry entry text := by
    rintro ⟨key, value⟩ hentry
    obtain ⟨q, hq, hvalue⟩ := (h.values _ hentry).leaves_quote
    exact ⟨_, .between hq hvalue⟩
  obtain ⟨texts, htexts⟩ := exists_forall₂ hentries
  exact ⟨_, .under htexts⟩

theorem Writable.exists_written (h : Writable tables) : ∃ text, Written tables text := by
  obtain ⟨parts, hparts⟩ := exists_forall₂ fun table htable =>
    (h.tables table htable).exists_writesTable
  exact ⟨_, parts, hparts, rfl⟩

theorem reads_entries {entries : Entries} (h : List.Forall₂ Line.WritesEntry entries texts)
    (hkeys : ∀ entry ∈ entries, Line.IsKey entry.1)
    (hvalues : ∀ entry ∈ entries, Line.IsValue entry.2) :
    (∀ text ∈ texts, Bytes.newline ∉ text) ∧
      texts.map Line.ofText = entries.map fun entry => .assignment entry.1 entry.2 := by
  induction h with
  | nil => simp
  | @cons entry text entries texts hentry _ ih =>
    rw [List.forall_mem_cons] at hkeys hvalues
    obtain ⟨hlines, hread⟩ := ih hkeys.2 hvalues.2
    rw [List.forall_mem_cons, List.map_cons, List.map_cons, hread, hentry.ofText_eq hkeys.1]
    exact ⟨⟨hentry.one_line hkeys.1 hvalues.1, hlines⟩, rfl⟩

theorem WritesTable.reads (h : WritesTable table texts) (hwritable : WritableTable table) :
    (∀ text ∈ texts, Bytes.newline ∉ text) ∧ texts.map Line.ofText = linesOf table := by
  obtain @⟨heading, entries, texts, hentries⟩ := h
  have hheading : heading.Tidy := hwritable.heading
  obtain ⟨hlines, hread⟩ := reads_entries hentries hwritable.keys hwritable.values
  have hline : Bytes.newline ∉ Line.opening :: (heading ++ [Line.closing]) := by
    have hopening : Bytes.newline ≠ Line.opening := by decide
    have hclosing : Bytes.newline ≠ Line.closing := by decide
    simp [hheading.one_line, hopening, hclosing]
  rw [List.forall_mem_cons, List.map_cons, hread, Line.ofText_heading hheading]
  exact ⟨⟨hline, hlines⟩, rfl⟩

theorem reads_flatten {parts : List (List Bytes)} (h : List.Forall₂ WritesTable tables parts)
    (hwritable : ∀ table ∈ tables, WritableTable table) :
    (∀ text ∈ parts.flatten, Bytes.newline ∉ text) ∧
      parts.flatten.map Line.ofText = tables.flatMap linesOf := by
  induction h with
  | nil => simp
  | @cons table texts tables parts htable _ ih =>
    rw [List.forall_mem_cons] at hwritable
    obtain ⟨hlines, hread⟩ := htable.reads hwritable.1
    obtain ⟨hlines', hread'⟩ := ih hwritable.2
    rw [List.flatten_cons, List.forall_mem_append, List.map_append, List.flatMap_cons, hread, hread']
    exact ⟨⟨hlines, hlines'⟩, rfl⟩

theorem Written.ofText_eq {text : Bytes} (h : Written tables text) (hwritable : Writable tables) :
    ofText text = ⟨tables, []⟩ := by
  obtain ⟨parts, hparts, rfl⟩ := h
  obtain ⟨hlines, hread⟩ := reads_flatten hparts hwritable.tables
  rw [ofText, Bytes.lines_unlines hlines, hread]
  exact ofLines_flatMap_linesOf hwritable.headings_nodup fun table htable =>
    (hwritable.tables table htable).keys_nodup

/-- Tables that can be written are written as some text, and every text that they can be written as
is read back as them, whatever was read before: there is no bad line, and just the entries of the
tables are found. -/
theorem read_of_written (hwritable : Writable tables) :
    (∃ text, Written tables text) ∧
      ∀ text, Written tables text → ∀ d : Document,
        d.after (.text text) = ⟨tables, []⟩ ∧
          (∀ heading key, (d.after (.text text)).has heading key = true ↔
            ∃ entries value, (heading, entries) ∈ tables ∧ (key, value) ∈ entries) ∧
          ∀ heading entries key value fallback, (heading, entries) ∈ tables →
            (key, value) ∈ entries →
            (d.after (.text text)).getString heading key fallback = value := by
  refine ⟨hwritable.exists_written, ?_⟩
  intro text hwritten d
  have hread : d.after (.text text) = ⟨tables, []⟩ := hwritten.ofText_eq hwritable
  have hfound : ∀ heading key value, get? ⟨tables, []⟩ heading key = some value ↔
      ∃ entries, (heading, entries) ∈ tables ∧ (key, value) ∈ entries := by
    intro heading key value
    simp only [get?, Option.bind_eq_some_iff,
      lookup_eq_some_iff_of_nodup hwritable.headings_nodup]
    refine exists_congr fun entries => and_congr_right fun htable => ?_
    exact lookup_eq_some_iff_of_nodup (hwritable.tables _ htable).keys_nodup
  rw [hread]
  refine ⟨rfl, ?_, ?_⟩
  · intro heading key
    simp only [has, Option.isSome_iff_exists, hfound]
    exact exists_comm
  · intro heading entries key value fallback htable hentry
    rw [getString, (hfound heading key value).mpr ⟨entries, htable, hentry⟩, Option.getD_some]

/-- A key may start with a bracket, and a heading may look like an assignment. -/
theorem read_of_written_key_with_bracket :
    Writable [(Bytes.ascii "p = [q] #", [(Bytes.ascii "[k", Bytes.ascii " # ]' ")]), ([], [])] ∧
      (ofText (Bytes.unlines [Bytes.ascii "[p = [q] #]",
        Bytes.ascii "[k = " ++ Line.quoted 34 (Bytes.ascii " # ]' "),
        Bytes.ascii "[]"])).getString (Bytes.ascii "p = [q] #") (Bytes.ascii "[k") [] =
        Bytes.ascii " # ]' " := by
  have htable : WritableTable
      (Bytes.ascii "p = [q] #", [(Bytes.ascii "[k", Bytes.ascii " # ]' ")]) := by
    refine ⟨⟨by decide +kernel, by decide +kernel, by decide +kernel⟩, by decide +kernel, ?_, ?_⟩
    · rw [List.forall_mem_singleton]
      exact ⟨⟨by decide +kernel, by decide +kernel, by decide +kernel⟩, by decide +kernel, by decide +kernel, by decide +kernel⟩
    · rw [List.forall_mem_singleton]
      exact ⟨by decide +kernel, 34, by decide +kernel, by decide +kernel⟩
  have hempty : WritableTable ([], []) :=
    ⟨⟨by simp, by simp, by simp⟩, by simp, by simp, by simp⟩
  have hwritable : Writable
      [(Bytes.ascii "p = [q] #", [(Bytes.ascii "[k", Bytes.ascii " # ]' ")]), ([], [])] :=
    ⟨by decide, by simp [htable, hempty]⟩
  have hwritten : Written
      [(Bytes.ascii "p = [q] #", [(Bytes.ascii "[k", Bytes.ascii " # ]' ")]), ([], [])]
      (Bytes.unlines [Bytes.ascii "[p = [q] #]",
        Bytes.ascii "[k = " ++ Line.quoted 34 (Bytes.ascii " # ]' "), Bytes.ascii "[]"]) :=
    ⟨_, .cons (.under (.cons (.between (by decide) (by decide)) .nil))
      (.cons (.under .nil) .nil), rfl⟩
  obtain ⟨-, -, hfound⟩ := (read_of_written hwritable).2 _ hwritten {}
  exact ⟨hwritable, hfound _ _ _ _ [] List.mem_cons_self List.mem_cons_self⟩

end Texts

end Document
end Config
end Wildcard
