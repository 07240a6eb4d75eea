/-
Unsigned 64-bit arithmetic on `Nat`: sums and differences that wrap at 2^64,
and when they do not.
-/
import Mathlib.Algebra.Ring.Nat
import Mathlib.Tactic.Common

namespace Word

def wordSize : Nat := 2 ^ 64

/-- `a + b` on a 64-bit unsigned. -/
def wadd (a b : Nat) : Nat := (a + b) % wordSize

/-- `a - b` on a 64-bit unsigned. -/
def wsub (a b : Nat) : Nat := (a + (wordSize - b % wordSize)) % wordSize

theorem wadd_of_lt {a b : Nat} (h : a + b < wordSize) : wadd a b = a + b := Nat.mod_eq_of_lt h

theorem wsub_of_le {a b : Nat} (hba : b ≤ a) (ha : a < wordSize) : wsub a b = a - b := by
  unfold wsub
  rw [Nat.mod_eq_of_lt (by omega : b < wordSize), show a + (wordSize - b) = (a - b) + wordSize by omega,
    Nat.add_mod_right, Nat.mod_eq_of_lt (by omega)]

end Word
