/-!
# Machine — sizes as machine words

Sizes are natural numbers in this library, and machine words of 64 bits in a program that runs.  Where
the range of words can be left, sizes are computed by the operations of this module: they have no result
then.
-/

namespace NetPlan.Machine

/-- How many words there are. -/
def range : Nat := 0x10000000000000000

/-- A number, if it is a word. -/
def word? (n : Nat) : Option Nat := if n < range then some n else none

/-- A sum of words, if it is one. -/
def add? (m n : Nat) : Option Nat := word? (m + n)

/-- A product of words, if it is one. -/
def mul? (m n : Nat) : Option Nat := word? (m * n)

/-- A difference of words, if it is not below zero. -/
def sub? (m n : Nat) : Option Nat := if n ≤ m then some (m - n) else none

/-- A quotient of words, if the divisor is not zero. -/
def div? (m n : Nat) : Option Nat := if n = 0 then none else some (m / n)

/-- A remainder of words, if the divisor is not zero. -/
def mod? (m n : Nat) : Option Nat := if n = 0 then none else some (m % n)

section Words

variable {m n k : Nat}

/-- Only words are read back, as they are. -/
theorem word?_eq_some : word? n = some k ↔ n < range ∧ n = k := by simp [word?]

theorem add?_eq_some : add? m n = some k ↔ m + n < range ∧ m + n = k := word?_eq_some

theorem mul?_eq_some : mul? m n = some k ↔ m * n < range ∧ m * n = k := word?_eq_some

theorem add?_of_lt (h : m + n < range) : add? m n = some (m + n) := if_pos h

theorem mul?_of_lt (h : m * n < range) : mul? m n = some (m * n) := if_pos h

theorem sub?_of_le (h : n ≤ m) : sub? m n = some (m - n) := if_pos h

theorem div?_of_pos (h : 0 < n) : div? m n = some (m / n) := if_neg (Nat.pos_iff_ne_zero.mp h)

theorem mod?_of_pos (h : 0 < n) : mod? m n = some (m % n) := if_neg (Nat.pos_iff_ne_zero.mp h)

end Words

/-- Whether an array can have so many elements of a number of bytes: its bytes are counted by a signed
word. -/
def canHold (elements bytes : Nat) : Bool := elements * bytes < 0x8000000000000000

/-! ## Signed words -/

/-- A word read as a signed one: the upper half of the words is below zero. -/
def signed (n : Nat) : Int := (n : Int).bmod range

/-- A number, if it is a signed word. -/
def int? (i : Int) : Option Int :=
  if -0x8000000000000000 ≤ i ∧ i < 0x8000000000000000 then some i else none

/-- The lower half of the words stays as it is. -/
theorem signed_of_lt {n : Nat} (h : n < 0x8000000000000000) : signed n = n := by
  have hrange : (range : Int) = 0x10000000000000000 := rfl
  refine Int.bmod_eq_of_le ?_ ?_ <;> omega

/-- Only signed words are read back, as they are. -/
theorem int?_eq_some {i j : Int} :
    int? i = some j ↔ (-0x8000000000000000 ≤ i ∧ i < 0x8000000000000000) ∧ i = j := by
  simp [int?]

end NetPlan.Machine
