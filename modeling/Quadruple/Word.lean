/-
  Words: the numbers that addresses, sizes and counts are kept in.

  A word has 64 bits.  Words are modelled by the natural numbers below `UInt64.size`, so that
      a + b  and  a * b  of two words  a, b  are words  iff  a + b < 2 ^ 64,  a * b < 2 ^ 64.
  Nothing computes on with a number that is no word.  Where a sum or a product of words is taken, it
  is compared with `UInt64.size` before anything else is, and a result that is no word is an outcome
  of its own (`Overflow`).  It is not the refusal of a request that is too large: a refusal is an
  answer, after which the program goes on, and an overflow stops it where it stands.
-/

namespace Quadruple

/-- Whether a number is a word. -/
def IsWord (n : Nat) : Prop := n < UInt64.size

instance (n : Nat) : Decidable (IsWord n) := inferInstanceAs (Decidable (n < UInt64.size))

theorem IsWord.of_le {n k : Nat} (h : n ≤ k) (hk : IsWord k) : IsWord n := Nat.lt_of_le_of_lt h hk

/-- The operation whose result is no word. -/
inductive Overflow where
  | sum
  | product
deriving DecidableEq

/-- What is said of an overflow. -/
def Overflow.message : Overflow → String
  | sum => "attempt to add with overflow"
  | product => "attempt to multiply with overflow"

end Quadruple
