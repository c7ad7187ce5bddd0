import Mathlib.Data.Int.Basic
import Mathlib.Tactic.NormNum

/-!
# Machine words

Conversions of C integers that wrap or narrow: `uint64` reads an integer modulo `2 ^ 64`,
`int64` and `int32` read it in two's complement. A value inside the range of the type is
left alone by each of them. `sub64` is the difference of two unsigned words.
-/

namespace Word

/-- The unsigned 64-bit word of an integer. -/
def uint64 (x : ℤ) : ℕ := (x % 2 ^ 64).toNat

/-- The signed 64-bit word of an integer. -/
def int64 (x : ℤ) : ℤ := Int.bmod x (2 ^ 64)

/-- The signed 32-bit word of an integer. -/
def int32 (x : ℤ) : ℤ := Int.bmod x (2 ^ 32)

/-- `a - b` on unsigned 64-bit words: below zero it wraps. -/
def sub64 (a b : ℕ) : ℕ := if b ≤ a then a - b else a + 2 ^ 64 - b

theorem uint64_natCast {n : ℕ} (h : n < 2 ^ 64) : uint64 n = n := by
  simp only [uint64]
  omega

theorem le_uint64_of_neg {v : ℤ} (hv : v < 0) (hmin : -2 ^ 63 ≤ v) : 2 ^ 63 ≤ uint64 v := by
  have hmod : v % 2 ^ 64 = v + 2 ^ 64 := by omega
  rw [uint64, hmod]
  omega

/-- Unsigned subtraction is exact when it does not go below zero. -/
theorem sub64_of_le {a b : ℕ} (h : b ≤ a) : sub64 a b = a - b := if_pos h

theorem int64_natCast {n : ℕ} (h : n < 2 ^ 63) : int64 n = n := by
  simp only [int64, Int.bmod_def]
  omega

theorem int64_eq_self_iff {x : ℤ} : int64 x = x ↔ -2 ^ 63 ≤ x ∧ x < 2 ^ 63 := by
  simp only [int64, Int.bmod_def]
  omega

/-- A sum of words wraps around once. -/
theorem int64_int64_add (x y : ℤ) : int64 (int64 x + y) = int64 (x + y) := Int.bmod_add_bmod

theorem int64_range (x : ℤ) : -2 ^ 63 ≤ int64 x ∧ int64 x < 2 ^ 63 := by
  simp only [int64, Int.bmod_def]
  omega

theorem int32_natCast {n : ℕ} (h : n < 2 ^ 31) : int32 n = n := by
  simp only [int32, Int.bmod_def]
  omega

theorem int32_le_natCast (n : ℕ) : int32 n ≤ n := by
  simp only [int32, Int.bmod_def]
  omega

theorem int32_lt (x : ℤ) : int32 x < 2 ^ 31 := by
  simp only [int32, Int.bmod_def]
  omega

end Word
