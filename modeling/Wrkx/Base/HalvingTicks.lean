import Mathlib.Algebra.Order.Archimedean.Basic
import Mathlib.Data.Int.Log
import Mathlib.Tactic.FieldSimp
import Mathlib.Tactic.Linarith
import Mathlib.Tactic.Ring

/-!
# Ticks on a halving scale

A scale from 0 to 1 that takes the same number `t` of ticks for every halving of the distance
that is left to its end. Before tick `n`, the distance has been halved `n / t` times.

## Main results

- `distance_succ` — what one tick takes away
- `log_one_div_distance` — the number of halvings is the logarithm of the distance
- `exists_distance_lt` — the distance tends to zero
- `div_le_iff_distance_lt` — how many halvings it takes to come close to the end
-/

namespace HalvingTicks

variable {K : Type*} [Field K] {t : ℕ}

/-- The distance to the end of the scale before tick `n`. -/
def distance (K : Type*) [Field K] (t n : ℕ) : K :=
  (2 * t - (n % t : ℕ)) / (t * 2 ^ (n / t + 1))

/-- The distance by its number of halvings and the ticks since the last of them. -/
theorem distance_add_mul {r : ℕ} (hr : r < t) (q : ℕ) :
    distance K t (r + t * q) = (2 * t - r) / (t * 2 ^ (q + 1)) := by
  rw [distance, Nat.add_mul_mod_self_left, Nat.mod_eq_of_lt hr,
    Nat.add_mul_div_left _ _ (by omega), Nat.div_eq_of_lt hr, Nat.zero_add]

/-- Every tick is one of the `t` ticks after some halving. -/
theorem exists_eq_add_mul (ht : 0 < t) (n : ℕ) : ∃ r q, r < t ∧ n = r + t * q :=
  ⟨n % t, n / t, Nat.mod_lt n ht, (Nat.mod_add_div n t).symm⟩

theorem add_mul_div {r : ℕ} (hr : r < t) (q : ℕ) : (r + t * q) / t = q := by
  rw [Nat.add_mul_div_left _ _ (by omega), Nat.div_eq_of_lt hr, Nat.zero_add]

/-- The last tick before the halving number `q + 1`. -/
theorem distance_last (ht : 0 < t) (q : ℕ) :
    distance K t (t * (q + 1) - 1) = (t + 1) / (t * 2 ^ (q + 1)) := by
  have hlast : t * (q + 1) - 1 = (t - 1) + t * q := by
    rw [Nat.mul_succ]
    omega
  rw [hlast, distance_add_mul (by omega), Nat.cast_pred ht]
  congr 1
  ring

variable [LinearOrder K] [IsStrictOrderedRing K]

theorem distance_zero (ht : 0 < t) : distance K t 0 = 1 := by
  have htK : (t : K) ≠ 0 := by exact_mod_cast ht.ne'
  have h := distance_add_mul (K := K) ht 0
  rw [Nat.mul_zero, Nat.add_zero] at h
  rw [h, Nat.cast_zero, sub_zero, Nat.zero_add, pow_one, mul_comm (2 : K), div_self]
  positivity

/-- A tick is the `t`-th part of half the distance at the last halving. -/
theorem distance_succ (ht : 0 < t) (n : ℕ) :
    distance K t (n + 1) = distance K t n - 1 / (t * 2 ^ (n / t + 1)) := by
  obtain ⟨r, q, hr, rfl⟩ := exists_eq_add_mul ht n
  have htK : (t : K) ≠ 0 := by exact_mod_cast ht.ne'
  rw [distance_add_mul hr, add_mul_div hr]
  rcases Nat.lt_or_ge (r + 1) t with hlt | hge
  · rw [Nat.add_right_comm, distance_add_mul hlt]
    push_cast
    field_simp
    ring
  · -- the last tick before the next halving
    obtain rfl : t = r + 1 := by omega
    have hnext : r + (r + 1) * q + 1 = 0 + (r + 1) * (q + 1) := by ring
    rw [hnext, distance_add_mul (Nat.succ_pos r)]
    push_cast at htK ⊢
    field_simp
    ring

theorem distance_le (ht : 0 < t) (n : ℕ) : distance K t n ≤ 1 / 2 ^ (n / t) := by
  obtain ⟨r, q, hr, rfl⟩ := exists_eq_add_mul ht n
  have htK : (0 : K) < t := by exact_mod_cast ht
  have hrK : (0 : K) ≤ r := Nat.cast_nonneg r
  have hpow : (0 : K) < 2 ^ q := by positivity
  rw [distance_add_mul hr, add_mul_div hr, div_le_div_iff₀ (by positivity) hpow, pow_succ]
  nlinarith [mul_nonneg hrK hpow.le]

theorem lt_distance (ht : 0 < t) (n : ℕ) : 1 / 2 ^ (n / t + 1) < distance K t n := by
  obtain ⟨r, q, hr, rfl⟩ := exists_eq_add_mul ht n
  have htK : (0 : K) < t := by exact_mod_cast ht
  have hrK : (r : K) < t := by exact_mod_cast hr
  have hpow : (0 : K) < 2 ^ (q + 1) := by positivity
  rw [distance_add_mul hr, add_mul_div hr, div_lt_div_iff₀ hpow (by positivity)]
  nlinarith [mul_pos hpow (sub_pos.mpr hrK)]

theorem distance_pos (ht : 0 < t) (n : ℕ) : 0 < distance K t n :=
  (by positivity : (0 : K) < 1 / 2 ^ (n / t + 1)).trans (lt_distance ht n)

theorem distance_strictAnti (ht : 0 < t) : StrictAnti (distance K t) := by
  refine strictAnti_nat_of_succ_lt fun n => ?_
  have htK : (0 : K) < t := by exact_mod_cast ht
  have htick : (0 : K) < 1 / (t * 2 ^ (n / t + 1)) := by positivity
  rw [distance_succ ht]
  exact sub_lt_self _ htick

/-- The number of halvings is the whole part of the logarithm of the distance. -/
theorem log_one_div_distance [FloorSemiring K] (ht : 0 < t) (n : ℕ) :
    Int.log 2 (1 / distance K t n) = (n / t : ℕ) := by
  have hpos := distance_pos (K := K) ht n
  have hinv : 0 < 1 / distance K t n := one_div_pos.mpr hpos
  apply le_antisymm
  · have hlt : 1 / distance K t n < ((2 : ℕ) : K) ^ ((n / t + 1 : ℕ) : ℤ) := by
      rw [zpow_natCast, Nat.cast_ofNat, one_div_lt hpos (by positivity)]
      exact lt_distance ht n
    have := (Int.lt_zpow_iff_log_lt Nat.one_lt_two hinv).mp hlt
    omega
  · apply (Int.zpow_le_iff_le_log Nat.one_lt_two hinv).mp
    rw [zpow_natCast, Nat.cast_ofNat, le_one_div (by positivity) hpos]
    exact distance_le ht n

theorem exists_distance_lt [Archimedean K] (ht : 0 < t) {ε : K} (hε : 0 < ε) :
    ∃ n, distance K t n < ε := by
  obtain ⟨q, hq⟩ := exists_pow_lt_of_lt_one hε (by norm_num : (1 / 2 : K) < 1)
  refine ⟨t * q, (distance_le ht _).trans_lt ?_⟩
  rwa [Nat.mul_div_cancel_left _ ht, ← one_div_pow]

/-- The first tick closer to the end than `ε` comes after at most `q` halvings exactly when the
    last tick before the next halving is that close. -/
theorem div_le_iff_distance_lt (ht : 0 < t) {ε : K} {n : ℕ} (hn : distance K t n < ε)
    (hfirst : ∀ j < n, ε ≤ distance K t j) (q : ℕ) :
    n / t ≤ q ↔ (t + 1) / (t * 2 ^ (q + 1)) < ε := by
  have hsucc : 0 < t * (q + 1) := Nat.mul_pos ht (Nat.succ_pos q)
  have hlast : n / t ≤ q ↔ n ≤ t * (q + 1) - 1 := by
    rw [← Nat.lt_succ_iff, Nat.div_lt_iff_lt_mul ht, Nat.mul_comm, Nat.succ_eq_add_one]
    omega
  rw [hlast, ← distance_last ht]
  constructor
  · intro hle
    exact ((distance_strictAnti ht).antitone hle).trans_lt hn
  · intro hlt
    by_contra hgt
    exact absurd hlt (not_lt.mpr (hfirst _ (not_le.mp hgt)))

end HalvingTicks
