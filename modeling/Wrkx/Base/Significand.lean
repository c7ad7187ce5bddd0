import Mathlib.Data.Int.Log
import Mathlib.Tactic.FieldSimp
import Mathlib.Tactic.Linarith
import Wrkx.Base.CString

/-!
# Rounding to a number of significant bits

`roundBits p x` is the number of `p` significant bits closest to `x`, with ties to the even
one: the result of an operation of a binary floating-point format whose exponents are
unbounded. Rounding is monotone, and the numbers of the format are multiples of a power of two
that depends on their size.

## Main results

- `roundBits_mono` — rounding keeps the order
- `HasBits.exists_mul` — a number of the format is a multiple of its last place
-/

namespace Significand

open CString

variable {p : ℕ} {x y : ℚ}

/-! ## Rounding to an integer -/

theorem roundHalfEven_le (x : ℚ) : (roundHalfEven x : ℚ) ≤ x + 1 / 2 := by
  have hfloor := Int.floor_le x
  rw [roundHalfEven]
  split_ifs <;> push_cast <;> linarith

theorem le_roundHalfEven (x : ℚ) : x - 1 / 2 ≤ (roundHalfEven x : ℚ) := by
  have hfloor := Int.lt_floor_add_one x
  rw [roundHalfEven]
  split_ifs <;> push_cast <;> linarith

theorem roundHalfEven_mono (h : x ≤ y) : roundHalfEven x ≤ roundHalfEven y := by
  rcases eq_or_lt_of_le h with rfl | hlt
  · exact le_rfl
  · have hx := roundHalfEven_le x
    have hy := le_roundHalfEven y
    have hcast : (roundHalfEven x : ℚ) < roundHalfEven y + 1 := by linarith
    exact Int.lt_add_one_iff.mp (by exact_mod_cast hcast)

theorem roundHalfEven_intCast (n : ℤ) : roundHalfEven (n : ℚ) = n := by
  have hzero : 2 * ((n : ℚ) - n) < 1 := by norm_num
  rw [roundHalfEven, Int.floor_intCast, if_pos hzero]

/-! ## Rounding to significant bits -/

/-- The unit in the last of `p` places. -/
def ulp (p : ℕ) (x : ℚ) : ℚ := 2 ^ (Int.log 2 |x| + 1 - p)

/-- The number of `p` significant bits closest to `x`. -/
def roundBits (p : ℕ) (x : ℚ) : ℚ := roundHalfEven (x / ulp p x) * ulp p x

theorem ulp_pos (p : ℕ) (x : ℚ) : 0 < ulp p x := zpow_pos (by norm_num) _

/-- A number below a power of two is not rounded past it. -/
theorem roundBits_le (hx : 0 < x) : roundBits p x ≤ 2 ^ (Int.log 2 x + 1) := by
  have hpos := ulp_pos p x
  have hsplit : (2 : ℚ) ^ (Int.log 2 x + 1) = ((2 ^ p : ℤ) : ℚ) * ulp p x := by
    rw [ulp, abs_of_pos hx, Int.cast_pow, Int.cast_ofNat, ← zpow_natCast, ← zpow_add₀ (by norm_num)]
    congr 1
    ring
  have hbelow : x / ulp p x ≤ ((2 ^ p : ℤ) : ℚ) := by
    rw [div_le_iff₀ hpos, ← hsplit]
    exact_mod_cast (Int.lt_zpow_succ_log_self (b := 2) (by norm_num) x).le
  have hround := roundHalfEven_mono hbelow
  rw [roundHalfEven_intCast] at hround
  rw [roundBits, hsplit]
  exact mul_le_mul_of_nonneg_right (Int.cast_le.mpr hround) hpos.le

/-- A number from a power of two on stays there. -/
theorem le_roundBits (hp : 0 < p) (hx : 0 < x) : 2 ^ Int.log 2 x ≤ roundBits p x := by
  have hpos := ulp_pos p x
  have hsplit : (2 : ℚ) ^ Int.log 2 x = ((2 ^ (p - 1) : ℤ) : ℚ) * ulp p x := by
    rw [ulp, abs_of_pos hx, Int.cast_pow, Int.cast_ofNat, ← zpow_natCast, ← zpow_add₀ (by norm_num)]
    congr 1
    omega
  have habove : ((2 ^ (p - 1) : ℤ) : ℚ) ≤ x / ulp p x := by
    rw [le_div_iff₀ hpos, ← hsplit]
    exact_mod_cast Int.zpow_log_le_self (b := 2) (by norm_num) hx
  have hround := roundHalfEven_mono habove
  rw [roundHalfEven_intCast] at hround
  rw [roundBits, hsplit]
  exact mul_le_mul_of_nonneg_right (Int.cast_le.mpr hround) hpos.le

/-- Rounding keeps the order. -/
theorem roundBits_mono (hp : 0 < p) (hx : 0 < x) (h : x ≤ y) : roundBits p x ≤ roundBits p y := by
  have hy := hx.trans_le h
  rcases eq_or_lt_of_le (Int.log_mono_right (b := 2) hx h) with hlog | hlog
  · -- the same last place
    have hulp : ulp p x = ulp p y := by rw [ulp, ulp, abs_of_pos hx, abs_of_pos hy, hlog]
    have hpos := ulp_pos p y
    rw [roundBits, roundBits, hulp]
    have hround := roundHalfEven_mono (div_le_div_of_nonneg_right h hpos.le)
    exact mul_le_mul_of_nonneg_right (Int.cast_le.mpr hround) hpos.le
  · -- a power of two lies between them
    calc roundBits p x ≤ 2 ^ (Int.log 2 x + 1) := roundBits_le hx
      _ ≤ 2 ^ Int.log 2 y := zpow_le_zpow_right₀ (by norm_num) hlog
      _ ≤ roundBits p y := le_roundBits hp hy

theorem roundBits_zero (p : ℕ) : roundBits p 0 = 0 := by
  rw [roundBits, zero_div, ← Int.cast_zero, roundHalfEven_intCast, Int.cast_zero, zero_mul]

theorem roundBits_nonneg (hp : 0 < p) (hx : 0 ≤ x) : 0 ≤ roundBits p x := by
  rcases eq_or_lt_of_le hx with rfl | hpos
  · rw [roundBits_zero]
  · exact (zpow_pos (by norm_num) _).le.trans (le_roundBits hp hpos)

/-! ## The numbers of the format -/

/-- `x` has at most `p` significant bits. -/
def HasBits (p : ℕ) (x : ℚ) : Prop := ∃ k e : ℤ, x = k * 2 ^ e ∧ |k| < 2 ^ p

/-- From `2 ^ a` on, a number of the format is a multiple of the last place of `2 ^ a`. -/
theorem HasBits.exists_mul (h : HasBits p x) {a : ℤ} (ha : 2 ^ a ≤ x) :
    ∃ j : ℤ, x = j * 2 ^ (a + 1 - p) := by
  obtain ⟨k, e, rfl, hk⟩ := h
  have hsize : (2 : ℚ) ^ a < 2 ^ (p + e : ℤ) := by
    have hbits : (k : ℚ) < 2 ^ p := by exact_mod_cast (le_abs_self k).trans_lt hk
    calc (2 : ℚ) ^ a ≤ k * 2 ^ e := ha
      _ < 2 ^ p * 2 ^ e := mul_lt_mul_of_pos_right hbits (zpow_pos (by norm_num) _)
      _ = 2 ^ (p + e : ℤ) := by rw [zpow_add₀ (by norm_num), zpow_natCast]
  have hexp : a < p + e := (zpow_lt_zpow_iff_right₀ (by norm_num)).mp hsize
  obtain ⟨d, hd⟩ := Int.le.dest (show a + 1 - p ≤ e by omega)
  refine ⟨k * 2 ^ d, ?_⟩
  rw [← hd, zpow_add₀ (by norm_num), zpow_natCast]
  push_cast
  ring

/-- A number of the format is not changed by rounding. -/
theorem HasBits.roundBits_eq (h : HasBits p x) (hx : 0 < x) : roundBits p x = x := by
  have hlow : (2 : ℚ) ^ Int.log 2 x ≤ x := by
    exact_mod_cast Int.zpow_log_le_self (b := 2) (by norm_num) hx
  obtain ⟨j, hj⟩ := h.exists_mul hlow
  have hulp : ulp p x = 2 ^ (Int.log 2 x + 1 - p) := by rw [ulp, abs_of_pos hx]
  have hquotient : x / ulp p x = j := by
    rw [div_eq_iff (ulp_pos p x).ne', hulp]
    exact hj
  rw [roundBits, hquotient, roundHalfEven_intCast, hulp, ← hj]

theorem hasBits_natCast {n : ℕ} (h : n < 2 ^ p) : HasBits p n :=
  ⟨n, 0, by simp, by exact_mod_cast h⟩

/-- So the next one above a multiple is a last place away. -/
theorem HasBits.add_le (h : HasBits p x) {a j : ℤ} (ha : 2 ^ a ≤ x)
    (hj : j * 2 ^ (a + 1 - p) < x) : (j + 1) * 2 ^ (a + 1 - p) ≤ x := by
  have hpos : (0 : ℚ) < 2 ^ (a + 1 - p) := zpow_pos (by norm_num) _
  obtain ⟨i, rfl⟩ := h.exists_mul ha
  have hlt : (j : ℚ) < i := lt_of_mul_lt_mul_right hj hpos.le
  have hle : (j : ℚ) + 1 ≤ i := by exact_mod_cast Int.add_one_le_iff.mpr (Int.cast_lt.mp hlt)
  exact mul_le_mul_of_nonneg_right hle hpos.le

end Significand
