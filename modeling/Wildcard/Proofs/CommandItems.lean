import Wildcard.Command.Run

/-!
# The items of an argument list

An argument list that is accepted is written item by item: a flag or a positional argument is one
argument, an option takes the next argument as its operand whatever that looks like, and behind a
double dash every argument is positional. Reading gives just these items back.
-/

namespace Wildcard
namespace Command

variable {item : Item} {items extra : List Item} {arg : Bytes} {args rest tail : List Bytes}

/-- The arguments that an item is written with. -/
inductive Item.Spelled : Item → List Bytes → Prop
  | flag {item : Item} {text : Bytes} : (text, item) ∈ flags → Spelled item [text]
  | unknown (b : UInt8) : Spelled (.unknown b) [unknownTokenOption, [b]]
  | anything (b : UInt8) : Spelled (.anything b) [anythingTokenOption, [b]]
  | config (path : Bytes) : Spelled (.config path) [configOption, path]
  | positional {arg : Bytes} : looksLikeOption arg = false → Spelled (.positional arg) [arg]

inductive Spelled : List Item → List Bytes → Prop
  | nil : Spelled [] []
  | cons {item : Item} {items : List Item} {args rest : List Bytes} :
      item.Spelled args → Spelled items rest → Spelled (item :: items) (args ++ rest)

/-- An argument list may end with a double dash and further arguments, all of them positional. -/
inductive Ending : List Item → List Bytes → Prop
  | none : Ending [] []
  | marked (rest : List Bytes) : Ending (rest.map .positional) (endOfOptions :: rest)

theorem lookup_flags : ∀ flag ∈ flags, flags.lookup flag.1 = some flag.2 := by decide

theorem looksLikeOption_flags : ∀ flag ∈ flags, looksLikeOption flag.1 = true := by decide

theorem looksLikeOption_help : ∀ arg ∈ helpOptions, looksLikeOption arg = true := by decide

def reserved : List Bytes := [endOfOptions, unknownTokenOption, anythingTokenOption, configOption]

theorem isOk_single_reserved : ∀ arg ∈ reserved, (single arg).isOk = false := by decide

theorem mem_flags_of_lookup (h : flags.lookup arg = some item) : (arg, item) ∈ flags := by
  obtain ⟨before, after, hflags, -⟩ := List.lookup_eq_some_iff.mp h
  rw [hflags]
  exact List.mem_append_right before List.mem_cons_self

theorem looksLikeOption_of_lookup (h : flags.lookup arg = some item) : looksLikeOption arg = true :=
  looksLikeOption_flags _ (mem_flags_of_lookup h)

theorem single_eq_ok_iff : single arg = .ok item ↔ item.Spelled [arg] := by
  unfold single
  constructor
  · intro h
    split at h
    · rename_i flag hlookup
      obtain rfl := Except.ok.inj h
      exact .flag (mem_flags_of_lookup hlookup)
    · split at h
      · cases h
      · rename_i hhelp
        split at h
        · cases h
        · rename_i hplain
          obtain rfl := Except.ok.inj h
          exact .positional (by simpa using hplain)
  · intro h
    cases h with
    | flag hmem => rw [lookup_flags _ hmem]
    | positional hplain =>
      have hlookup : flags.lookup arg = none := by
        apply Option.eq_none_iff_forall_not_mem.mpr
        intro flag hflag
        simp [looksLikeOption_of_lookup hflag] at hplain
      have hhelp : arg ∉ helpOptions := by
        intro hmem
        simp [looksLikeOption_help arg hmem] at hplain
      simp [hlookup, hhelp, hplain]

theorem Item.Spelled.notMem_reserved (h : item.Spelled [arg]) : arg ∉ reserved := by
  intro hmem
  have hrefused := isOk_single_reserved arg hmem
  rw [single_eq_ok_iff.mpr h] at hrefused
  cases hrefused

theorem readItems_cons (h : item.Spelled [arg]) (rest : List Bytes) :
    readItems (arg :: rest) = (readItems rest).map (item :: ·) := by
  have hreserved := h.notMem_reserved
  simp only [reserved, List.mem_cons, List.not_mem_nil, or_false, not_or] at hreserved
  obtain ⟨hend, hunknown, hanything, hconfig⟩ := hreserved
  have htoken : ¬ isTokenOption arg = true := by simp [isTokenOption, hunknown, hanything]
  have hread := single_eq_ok_iff.mpr h
  cases rest with
  | nil =>
    simp only [readItems, if_neg hend, if_neg htoken, hread]
    rfl
  | cons operand rest =>
    rw [readItems, if_neg hend, if_neg htoken, if_neg hconfig, hread]
    rfl

theorem readItems_tokenOption {option : Bytes} (h : isTokenOption option = true) (operand : Bytes)
    (rest : List Bytes) :
    readItems (option :: operand :: rest) =
      (tokenOption option operand).bind fun item => (readItems rest).map (item :: ·) := by
  have hend : option ≠ endOfOptions := by
    rintro rfl
    exact absurd h (by decide)
  rw [readItems, if_neg hend, if_pos h]
  rfl

theorem readItems_configOption (path : Bytes) (rest : List Bytes) :
    readItems (configOption :: path :: rest) = (readItems rest).map (.config path :: ·) := by
  rw [readItems, if_neg (by decide), if_neg (by decide), if_pos rfl]

theorem Item.Spelled.readItems_append (h : item.Spelled args) (rest : List Bytes) :
    readItems (args ++ rest) = (readItems rest).map (item :: ·) := by
  cases h with
  | flag hmem => exact readItems_cons (.flag hmem) rest
  | positional hplain => exact readItems_cons (.positional hplain) rest
  | unknown b => exact readItems_tokenOption (by decide) [b] rest
  | anything b => exact readItems_tokenOption (by decide) [b] rest
  | config path => exact readItems_configOption path rest

theorem Spelled.readItems_append (h : Spelled items args) (rest : List Bytes) :
    readItems (args ++ rest) = (readItems rest).map (items ++ ·) := by
  induction h with
  | nil => cases hread : readItems rest <;> simp [hread, Except.map]
  | @cons item items args args' hitem _ ih =>
    rw [List.append_assoc, hitem.readItems_append, ih]
    cases readItems rest <;> rfl

theorem Ending.readItems_eq (h : Ending extra tail) : readItems tail = .ok extra := by
  cases h with
  | none => rfl
  | marked rest =>
    cases rest with
    | nil => rfl
    | cons arg rest => rfl

/-- An argument list is written by items up to its end. -/
def Accepts (args : List Bytes) (items : List Item) : Prop :=
  ∃ named front extra tail, Spelled named front ∧ Ending extra tail ∧ args = front ++ tail ∧
    items = named ++ extra

theorem Accepts.cons (hitem : item.Spelled args) (h : Accepts rest items) :
    Accepts (args ++ rest) (item :: items) := by
  obtain ⟨named, front, extra, tail, hnamed, hending, rfl, rfl⟩ := h
  exact ⟨item :: named, args ++ front, extra, tail, .cons hitem hnamed, hending,
    (List.append_assoc args front tail).symm, rfl⟩

theorem accepts_nil : Accepts [] [] := ⟨[], [], [], [], .nil, .none, rfl, rfl⟩

theorem accepts_of_ending (h : Ending extra tail) : Accepts tail extra :=
  ⟨[], [], extra, tail, .nil, h, rfl, rfl⟩

theorem Accepts.of_map_eq_ok {read : Except Refusal (List Item)} (hitem : item.Spelled args)
    (ih : ∀ {items}, read = .ok items → Accepts rest items)
    (h : read.map (item :: ·) = .ok items) : Accepts (args ++ rest) items := by
  cases hread : read with
  | error refusal =>
    rw [hread] at h
    cases h
  | ok later =>
    rw [hread] at h
    obtain rfl := Except.ok.inj h
    exact (ih hread).cons hitem

theorem tokenOption_spelled {option operand : Bytes} (hoption : isTokenOption option = true)
    (h : tokenOption option operand = .ok item) : item.Spelled [option, operand] := by
  have hnamed : option = unknownTokenOption ∨ option = anythingTokenOption := by
    simpa [isTokenOption] using hoption
  unfold tokenOption at h
  split at h
  · rename_i b hb
    obtain rfl := Except.ok.inj h
    have hone : operand = [b] := by
      unfold Tokens.readToken at hb
      split at hb
      · rw [Option.some.inj hb]
      · cases hb
    subst hone
    rcases hnamed with rfl | rfl
    · exact .unknown b
    · exact .anything b
  · cases h

theorem accepts_of_readItems (h : readItems args = .ok items) : Accepts args items := by
  induction args using readItems.induct generalizing items with
  | case1 =>
    obtain rfl := Except.ok.inj h
    exact accepts_nil
  | case2 =>
    obtain rfl := Except.ok.inj h
    exact accepts_of_ending (.marked [])
  | case3 arg hend htoken =>
    rw [readItems, if_neg hend, if_pos htoken] at h
    cases h
  | case4 arg hend htoken =>
    rw [readItems, if_neg hend, if_neg htoken] at h
    cases hread : single arg with
    | error refusal =>
      rw [hread] at h
      cases h
    | ok item =>
      rw [hread] at h
      obtain rfl := Except.ok.inj h
      exact accepts_nil.cons (single_eq_ok_iff.mp hread)
  | case5 operand rest =>
    obtain rfl := Except.ok.inj h
    exact accepts_of_ending (.marked (operand :: rest))
  | case6 option operand rest hend htoken ih =>
    rw [readItems_tokenOption htoken] at h
    cases hoption : tokenOption option operand with
    | error refusal =>
      rw [hoption] at h
      cases h
    | ok item =>
      rw [hoption] at h
      exact .of_map_eq_ok (tokenOption_spelled htoken hoption) ih h
  | case7 path rest hend htoken ih =>
    rw [readItems_configOption] at h
    exact .of_map_eq_ok (.config path) ih h
  | case8 arg operand rest hend htoken hconfig ih =>
    rw [readItems, if_neg hend, if_neg htoken, if_neg hconfig] at h
    cases hread : single arg with
    | error refusal =>
      rw [hread] at h
      cases h
    | ok item =>
      rw [hread] at h
      exact .of_map_eq_ok (single_eq_ok_iff.mp hread) ih h

/-- Just those argument lists are read that are written by items up to their end. -/
theorem readItems_eq_ok_iff : readItems args = .ok items ↔ Accepts args items := by
  constructor
  · exact accepts_of_readItems
  · rintro ⟨named, front, extra, tail, hnamed, hending, rfl, rfl⟩
    rw [hnamed.readItems_append, hending.readItems_eq]
    rfl

end Command
end Wildcard
