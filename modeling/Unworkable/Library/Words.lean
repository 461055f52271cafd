import Mathlib.Tactic

/-! # Fixed-width arithmetic on naturals

Machine words are natural numbers; every operation that can leave the word range
reduces its result explicitly, as the compiled unsigned operation does. The lemmas
give the value of an operation when no reduction takes place.
-/
namespace Unworkable.Library

abbrev Bytes := List UInt8

def wrap32 (n : ℕ) : ℕ := n % 4294967296
def add32 (a b : ℕ) : ℕ := wrap32 (a + b)
def sub32 (a b : ℕ) : ℕ := wrap32 (a + (4294967296 - wrap32 b))
def mul32 (a b : ℕ) : ℕ := wrap32 (a * b)

def wrapInt32 (z : ℤ) : ℕ := (z % 4294967296).toNat

def toInt32 (n : ℕ) : ℤ := if n < 2147483648 then n else (n : ℤ) - 4294967296

theorem wrap32_lt (n : ℕ) : wrap32 n < 4294967296 := Nat.mod_lt _ (by decide)
theorem wrapInt32_lt (z : ℤ) : wrapInt32 z < 4294967296 := by
  unfold wrapInt32
  omega

theorem wrap32_of_lt {n : ℕ} (h : n < 4294967296) : wrap32 n = n := Nat.mod_eq_of_lt h

theorem add32_of_lt {a b : ℕ} (h : a + b < 4294967296) : add32 a b = a + b := wrap32_of_lt h

theorem sub32_of_le {a b : ℕ} (ha : a < 4294967296) (h : b ≤ a) : sub32 a b = a - b := by
  unfold sub32 wrap32
  omega

/-- The bounds guard `i > n - 1` of an unsigned count refuses exactly the indices
outside the range, unless the count is zero. -/
theorem gt_sub32_one {n i : ℕ} (hn : n < 4294967296) (hpos : 0 < n) :
    i > sub32 n 1 ↔ n ≤ i := by
  rw [sub32_of_le hn hpos]
  omega

end Unworkable.Library
