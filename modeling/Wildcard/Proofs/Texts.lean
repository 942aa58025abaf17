import Mathlib.Computability.Language
import Mathlib.Order.CompletePartialOrder
import Wildcard.Language

/-!
# Formats as products of texts

A set of byte strings is a language over bytes, and languages multiply by concatenation. The
language of a format is the product of one factor for each of its bytes. Two laws move unknowns
past anything tokens: any text times any text is any text, and any text commutes with any number
of arbitrary bytes.
-/

namespace Wildcard

abbrev Texts := Language UInt8

namespace Texts

def anyByte : Texts := {text | text.length = 1}

def anyText : Texts := {_text | True}

def byte (b : UInt8) : Texts := {[b]}

@[simp] theorem mem_anyByte {text : Bytes} : text ∈ anyByte ↔ text.length = 1 := Iff.rfl

@[simp] theorem mem_anyText (text : Bytes) : text ∈ anyText := trivial

@[simp] theorem mem_byte {b : UInt8} {text : Bytes} : text ∈ byte b ↔ text = [b] := Iff.rfl

theorem mem_anyByte_mul {texts : Texts} {text : Bytes} :
    text ∈ anyByte * texts ↔ ∃ b rest, text = b :: rest ∧ rest ∈ texts := by
  rw [Language.mem_mul]
  constructor
  · rintro ⟨one, hone, rest, hrest, rfl⟩
    obtain ⟨b, rfl⟩ := List.length_eq_one_iff.mp hone
    exact ⟨b, rest, rfl, hrest⟩
  · rintro ⟨b, rest, rfl, hrest⟩
    exact ⟨[b], rfl, rest, hrest, rfl⟩

theorem mem_byte_mul {b : UInt8} {texts : Texts} {text : Bytes} :
    text ∈ byte b * texts ↔ ∃ rest, text = b :: rest ∧ rest ∈ texts := by
  rw [Language.mem_mul]
  constructor
  · rintro ⟨one, rfl, rest, hrest, rfl⟩
    exact ⟨rest, rfl, hrest⟩
  · rintro ⟨rest, rfl, hrest⟩
    exact ⟨[b], rfl, rest, hrest, rfl⟩

@[simp] theorem mem_anyByte_pow {n : Nat} {text : Bytes} :
    text ∈ anyByte ^ n ↔ text.length = n := by
  induction n generalizing text with
  | zero => simp
  | succ n ih =>
    rw [pow_succ', mem_anyByte_mul]
    constructor
    · rintro ⟨b, rest, rfl, hrest⟩
      simp [ih.mp hrest]
    · intro h
      obtain ⟨b, rest, rfl⟩ := List.exists_cons_of_length_eq_add_one h
      exact ⟨b, rest, rfl, ih.mpr (by simpa using h)⟩

theorem one_le_anyText : (1 : Texts) ≤ anyText := fun _ _ => trivial

theorem le_mul_anyText (texts : Texts) : texts ≤ texts * anyText := by
  simpa using mul_le_mul_right one_le_anyText texts

@[simp] theorem anyText_mul_anyText : anyText * anyText = anyText := by
  apply le_antisymm
  · exact fun _ _ => trivial
  · exact le_mul_anyText anyText

/-- Arbitrary bytes in front of any text can as well stand behind it: both ask for a length only. -/
theorem anyByte_pow_mul_anyText (n : Nat) : anyByte ^ n * anyText = anyText * anyByte ^ n := by
  ext text
  simp only [Language.mem_mul, mem_anyByte_pow]
  constructor
  · rintro ⟨front, hfront, back, -, rfl⟩
    refine ⟨(front ++ back).take back.length, trivial, (front ++ back).drop back.length, ?_, ?_⟩
    · simp [hfront]
    · exact List.take_append_drop _ _
  · rintro ⟨front, -, back, hback, rfl⟩
    refine ⟨(front ++ back).take n, ?_, (front ++ back).drop n, trivial, ?_⟩
    · simp [hback]
    · exact List.take_append_drop _ _

/-- What a bound asks of the text beyond it: nothing may stand there if it is anchored. -/
def beyond (anchored : Bool) : Texts := if anchored then 1 else anyText

@[simp] theorem beyond_true : beyond true = 1 := rfl
@[simp] theorem beyond_false : beyond false = anyText := rfl

@[simp] theorem anyText_mul_beyond (anchored : Bool) : anyText * beyond anchored = anyText := by
  cases anchored <;> simp

@[simp] theorem beyond_mul_anyText (anchored : Bool) : beyond anchored * anyText = anyText := by
  cases anchored <;> simp

theorem beyond_mul_of_imp {outer inner : Bool} (h : outer = true → inner = true) :
    beyond outer * beyond inner = beyond outer := by
  cases outer with
  | true => rw [h rfl, beyond_true, one_mul]
  | false => rw [beyond_false, anyText_mul_beyond]

theorem mul_beyond_of_imp {outer inner : Bool} (h : outer = true → inner = true) :
    beyond inner * beyond outer = beyond outer := by
  cases outer with
  | true => rw [h rfl, beyond_true, one_mul]
  | false => rw [beyond_false, beyond_mul_anyText]

end Texts

namespace Tokens

open Texts

def ofByte (tokens : Tokens) (b : UInt8) : Texts :=
  if b = tokens.unknown then anyByte
  else if b = tokens.anything then anyText
  else byte b

def language (tokens : Tokens) (format : Bytes) : Texts := {text | tokens.Accepts format text}

@[simp] theorem mem_language {tokens : Tokens} {format text : Bytes} :
    text ∈ tokens.language format ↔ tokens.Accepts format text := Iff.rfl

@[simp] theorem language_nil (tokens : Tokens) : tokens.language [] = 1 := by
  ext text
  constructor
  · rintro ⟨⟩
    rfl
  · rintro rfl
    exact .nil

theorem language_cons {tokens : Tokens} (distinct : tokens.unknown ≠ tokens.anything) (b : UInt8)
    (format : Bytes) :
    tokens.language (b :: format) = tokens.ofByte b * tokens.language format := by
  ext text
  constructor
  · intro h
    cases h with
    | unknown c h =>
      rw [ofByte, if_pos rfl]
      exact mem_anyByte_mul.mpr ⟨c, _, rfl, h⟩
    | anything skipped h =>
      rw [ofByte, if_neg distinct.symm, if_pos rfl]
      exact Language.append_mem_mul trivial h
    | literal hu ha h =>
      rw [ofByte, if_neg hu, if_neg ha]
      exact mem_byte_mul.mpr ⟨_, rfl, h⟩
  · intro h
    unfold ofByte at h
    split at h
    · rename_i hu
      obtain ⟨c, rest, rfl, hrest⟩ := mem_anyByte_mul.mp h
      exact hu ▸ .unknown c hrest
    · rename_i hu
      split at h
      · rename_i ha
        obtain ⟨skipped, -, rest, hrest, rfl⟩ := Language.mem_mul.mp h
        exact ha ▸ .anything skipped hrest
      · rename_i ha
        obtain ⟨rest, rfl, hrest⟩ := mem_byte_mul.mp h
        exact .literal hu ha hrest

end Tokens
end Wildcard
