/-!
# Words

Positions and lengths are words of 32 bits. A subject has fewer than 2 to the 31st bytes, so that its
length is a word.
-/

namespace Wildcard

/-- A number cut down to a word: a sum or difference that leaves the words wraps around. -/
def word (n : Int) : Int := n.bmod 4294967296

def IsWord (n : Int) : Prop := -2147483648 ≤ n ∧ n < 2147483648

theorem word_eq_self {n : Int} (lower : -2147483648 ≤ n) (upper : n < 2147483648) :
    word n = n := by
  simp only [word, Int.bmod]
  omega

theorem word_add_sub {length : Int} (start : Int) (lower : -2147483648 ≤ length)
    (upper : length < 2147483648) : word (word (start + length) - start) = length := by
  simp only [word, Int.bmod]
  omega

theorem word_neg_of_long {n : Int} (lower : 2147483648 ≤ n) (upper : n < 4294967296) :
    word n < 0 := by
  simp only [word, Int.bmod]
  omega

end Wildcard
