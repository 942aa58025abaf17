import Wildcard.Bytes

/-!
# Lines

A newline ends the line before it, so a final newline opens no further line and the empty text
has no lines.
-/

namespace Wildcard
namespace Bytes

def newline : UInt8 := 10

def consLine (b : UInt8) : List Bytes → List Bytes
  | [] => if b == newline then [[]] else [[b]]
  | line :: rest => if b == newline then [] :: line :: rest else (b :: line) :: rest

def lines (text : Bytes) : List Bytes := text.foldr consLine []

@[simp] theorem lines_nil : lines [] = [] := rfl

@[simp] theorem lines_cons (b : UInt8) (text : Bytes) :
    lines (b :: text) = consLine b (lines text) := rfl

def unlines (ls : List Bytes) : Bytes := ls.flatMap (· ++ [newline])

@[simp] theorem unlines_nil : unlines [] = [] := rfl

@[simp] theorem unlines_cons (line : Bytes) (ls : List Bytes) :
    unlines (line :: ls) = line ++ newline :: unlines ls := by simp [unlines]

theorem lines_append_unlines {line : Bytes} (h : newline ∉ line) (rest : Bytes) :
    lines (line ++ newline :: rest) = line :: lines rest := by
  induction line with
  | nil => cases hr : lines rest <;> simp [consLine, hr]
  | cons b line ih =>
    simp only [List.mem_cons, not_or] at h
    have hb : (b == newline) = false := by simpa using Ne.symm h.1
    simp [ih h.2, consLine, hb]

theorem lines_unlines {ls : List Bytes} (h : ∀ line ∈ ls, newline ∉ line) :
    lines (unlines ls) = ls := by
  induction ls with
  | nil => rfl
  | cons line ls ih =>
    simp only [List.forall_mem_cons] at h
    rw [unlines_cons, lines_append_unlines h.1, ih h.2]

end Bytes
end Wildcard
