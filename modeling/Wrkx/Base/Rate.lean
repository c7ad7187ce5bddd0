import Mathlib.Algebra.Order.Floor.Semiring
import Mathlib.Data.Rat.Floor
import Mathlib.Tactic.Linarith

/-!
# Plans with a constant rate

A plan with rate `r` that starts at the time `s` has its `n`-th item due at `s + ⌊n / r⌋`. An
item is due by the time `t` exactly when the rate covers it over `t - s + 1` units of time, so
what is sent no earlier than it is due never runs ahead of the rate.

## Main results

- `due_le_iff` — when an item is due
- `begun_le` — how many blocks of `k` items have begun when each waits for its first item
-/

namespace Rate

variable {r : ℚ} {s t u k m n : ℕ}

/-- When the `n`-th item is due. -/
def due (r : ℚ) (s n : ℕ) : ℕ := s + ⌊(n : ℚ) / r⌋₊

/-- An item is due by a time exactly when the rate covers it until then. -/
theorem due_le_iff (hr : 0 < r) : due r s n ≤ t ↔ (n : ℚ) < r * ((t : ℚ) - s + 1) := by
  have hquot : (0 : ℚ) ≤ n / r := by positivity
  rw [due]
  constructor
  · intro h
    have hfloor : ⌊(n : ℚ) / r⌋₊ < t - s + 1 := by omega
    have hcast : ((t - s : ℕ) : ℚ) = t - s := Nat.cast_sub (by omega)
    have hlt := (Nat.floor_lt hquot).mp hfloor
    push_cast at hlt
    rw [hcast, div_lt_iff₀ hr] at hlt
    linarith [mul_comm r ((t : ℚ) - s + 1)]
  · intro h
    have hst : s ≤ t := by
      by_contra hlt
      have hle : (t : ℚ) - s + 1 ≤ 0 := by
        have : ((t + 1 : ℕ) : ℚ) ≤ s := by exact_mod_cast not_le.mp hlt
        push_cast at this
        linarith
      have hneg : r * ((t : ℚ) - s + 1) ≤ 0 := mul_nonpos_of_nonneg_of_nonpos hr.le hle
      have hn : (0 : ℚ) ≤ n := Nat.cast_nonneg n
      linarith
    have hcast : ((t - s : ℕ) : ℚ) = t - s := Nat.cast_sub hst
    have hlt : (n : ℚ) / r < ((t - s + 1 : ℕ) : ℚ) := by
      push_cast
      rw [hcast, div_lt_iff₀ hr]
      linarith [mul_comm r ((t : ℚ) - s + 1)]
    have hfloor := (Nat.floor_lt hquot).mpr hlt
    omega

/-- What the rate covers by one time it covers by every later one. -/
theorem covers_mono (hr : 0 < r) (htu : t ≤ u) (h : (n : ℚ) < r * ((t : ℚ) - s + 1)) :
    (n : ℚ) < r * ((u : ℚ) - s + 1) := by
  have hcast : (t : ℚ) ≤ u := by exact_mod_cast htu
  exact h.trans_le (mul_le_mul_of_nonneg_left (by linarith) hr.le)

/-- When the first item of the last block is due, no more blocks have begun than the rate
    covers, and that one. -/
theorem begun_le (hk : 0 < k) (h : ((k * m : ℕ) : ℚ) < r * ((t : ℚ) - s + 1)) :
    m + 1 ≤ ⌊r * ((t : ℚ) - s + 1) / k⌋₊ + 1 := by
  have hk' : (0 : ℚ) < k := by exact_mod_cast hk
  refine Nat.add_le_add_right (Nat.le_floor ?_) 1
  rw [le_div_iff₀ hk']
  push_cast at h
  linarith [mul_comm (m : ℚ) k]

end Rate
