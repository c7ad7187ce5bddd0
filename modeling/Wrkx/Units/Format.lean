import Mathlib.Algebra.Order.Field.Basic
import Mathlib.Tactic.Linarith
import Wrkx.Units.Units

/-!
# Choosing a unit

`format_units` divides by the scale as long as the amount is large and another unit is left.
The end condition of its loop looks one entry too far, so that the last unit of a table is
never taken.

## Main results

- `unitLoop_spec` — the amount in the chosen unit is the number, and the bounds of the amount
- `picksUnit_iff` — for which numbers the right unit is chosen, and which units are ever used
-/

namespace Wrkx

/-- The names of the units, with the base in front. -/
def Units.names (m : Units) : List Bytes := m.base :: m.units

/-- The unit tables of `units.c`. -/
def unitTables : List Units := [timeUnitsUs, timeUnitsS, binaryUnits, metricUnits]

/-- What the loop of `format_units` needs of a table. -/
structure Units.Proper (m : Units) : Prop where
  scale : 2 ≤ m.scale
  units : m.units ≠ []
  nodup : m.names.Nodup

theorem proper_of_mem {m : Units} (hm : m ∈ unitTables) : m.Proper := by
  simp only [unitTables, List.mem_cons, List.not_mem_nil, or_false] at hm
  rcases hm with rfl | rfl | rfl | rfl <;> constructor <;> decide

variable {m : Units}

/-! ## The loop -/

/-- The amount times the units gone through is the number. Past the base it is at least
    `0.85`, and the loop stops below `0.85 * scale` unless the entry after the next is the
    end of the table. -/
theorem unitLoop_spec (hscale : 0 < m.scale) (units : List Bytes) (amt : ℚ) (unit : Bytes) :
    ∃ k, (k = 0 ∨ k < units.length) ∧
      (unit :: units)[k]? = some (unitLoop m units amt unit).2 ∧
      (unitLoop m units amt unit).1 * m.scale ^ k = amt ∧
      (0 < k → 17 / 20 ≤ (unitLoop m units amt unit).1) ∧
      (k + 1 < units.length → (unitLoop m units amt unit).1 < m.scale * (17 / 20)) := by
  have hpos : (0 : ℚ) < m.scale := by exact_mod_cast hscale
  fun_induction unitLoop m units amt unit with
  | case1 amt unit next after rest hge ih =>
    obtain ⟨k, hk, hname, hamount, hlow, hhigh⟩ := ih
    refine ⟨k + 1, Or.inr ?_, ?_, ?_, ?_, ?_⟩
    · simp only [List.length_cons] at hk ⊢
      omega
    · simpa using hname
    · rw [pow_succ, ← mul_assoc, hamount, div_mul_cancel₀ _ hpos.ne']
    · intro _
      rcases Nat.eq_zero_or_pos k with rfl | hk
      · rw [pow_zero, mul_one] at hamount
        rw [hamount, le_div_iff₀ hpos]
        linarith
      · exact hlow hk
    · intro hlast
      exact hhigh (by simpa using hlast)
  | case2 amt unit next after rest hlt =>
    exact ⟨0, Or.inl rfl, rfl, by simp, by simp, fun _ => not_le.mp hlt⟩
  | case3 units amt unit hshort =>
    refine ⟨0, Or.inl rfl, rfl, by simp, by simp, fun hlast => ?_⟩
    cases units with
    | nil => exact absurd hlast (Nat.not_lt_zero _)
    | cons next units =>
      cases units with
      | nil => exact absurd hlast (lt_irrefl _)
      | cons after rest => exact absurd rfl (hshort next after rest)

/-- A power of the scale is printed as one of its unit, if that is not the last. -/
theorem unitLoop_pow (hscale : 2 ≤ m.scale) {units : List Bytes} {k : ℕ} (hk : k < units.length)
    (unit : Bytes) :
    (unit :: units)[k]? = some (unitLoop m units (m.scale ^ k) unit).2 := by
  have htwo : (2 : ℚ) ≤ m.scale := by exact_mod_cast hscale
  induction k generalizing units unit with
  | zero =>
    have hstop : ¬ (m.scale : ℚ) * (17 / 20) ≤ m.scale ^ 0 := by
      rw [pow_zero]
      linarith
    match units with
    | [next] => rfl
    | next :: after :: rest => rw [unitLoop, if_neg hstop, List.getElem?_cons_zero]
  | succ k ih =>
    match units, hk with
    | next :: after :: rest, hk =>
      have hge : (m.scale : ℚ) * (17 / 20) ≤ m.scale ^ (k + 1) := by
        have hone : (1 : ℚ) ≤ m.scale ^ k := one_le_pow₀ (by linarith)
        rw [pow_succ]
        nlinarith
      have hdiv : (m.scale : ℚ) ^ (k + 1) / m.scale = m.scale ^ k := by
        rw [pow_succ, mul_div_cancel_right₀ _ (by linarith)]
      rw [unitLoop, if_pos hge, hdiv, List.getElem?_cons_succ]
      exact ih (by simpa using hk) next

/-! ## The right unit -/

/-- `format_units` picks the right unit for a number: the amount in this unit is the number;
    it is at least `0.85` past the base, and below `0.85 * scale` before the last unit. -/
def PicksUnit (m : Units) (n : ℚ) : Prop :=
  ∃ k, m.names[k]? = some (chooseUnit n m).2 ∧ (chooseUnit n m).1 * m.scale ^ k = n ∧
    (0 < k → 17 / 20 ≤ (chooseUnit n m).1) ∧
    (k < m.units.length → (chooseUnit n m).1 < 17 / 20 * m.scale)

/-- A name belongs to one unit of the table. -/
theorem Units.Proper.index_unique (hm : m.Proper) {i j : ℕ} {name : Bytes}
    (hi : m.names[i]? = some name) (hj : m.names[j]? = some name) : i = j := by
  have hlt : i < m.names.length := by
    by_contra hge
    rw [List.getElem?_eq_none (not_lt.mp hge)] at hi
    exact absurd hi (by simp)
  exact (List.getElem?_inj hlt hm.nodup).mp (hi.trans hj.symm)

theorem Units.Proper.picks_iff (hm : m.Proper) (n : ℚ) :
    PicksUnit m n ↔ n < 17 / 20 * m.scale ^ m.units.length := by
  have hscale := hm.scale
  have hpos : (0 : ℚ) < m.scale := by exact_mod_cast Nat.zero_lt_of_lt hscale
  have hlen : 0 < m.units.length := List.length_pos_iff.mpr hm.units
  obtain ⟨k, hk, hname, hamount, hlow, hhigh⟩ :=
    unitLoop_spec (Nat.zero_lt_of_lt hscale) m.units n m.base
  change m.names[k]? = some (chooseUnit n m).2 at hname
  change (chooseUnit n m).1 * m.scale ^ k = n at hamount
  have hklen : k < m.units.length := by omega
  have hsplit : (m.scale : ℚ) ^ m.units.length = m.scale ^ (m.units.length - k) * m.scale ^ k := by
    rw [← pow_add, Nat.sub_add_cancel hklen.le]
  -- in the chosen unit, the bound on the number is a bound on the amount
  have hbound : n < 17 / 20 * m.scale ^ m.units.length ↔
      (chooseUnit n m).1 < 17 / 20 * m.scale ^ (m.units.length - k) := by
    conv_lhs => rw [← hamount]
    rw [hsplit, ← mul_assoc, mul_lt_mul_iff_left₀ (pow_pos hpos k)]
  rw [hbound]
  constructor
  · rintro ⟨j, hj, -, -, hlt⟩
    have hjk : j = k := hm.index_unique hj hname
    refine (hlt (hjk ▸ hklen)).trans_le ?_
    have hone : (1 : ℚ) ≤ m.scale := by exact_mod_cast (show 1 ≤ m.scale by omega)
    have hle : (m.scale : ℚ) ^ 1 ≤ m.scale ^ (m.units.length - k) :=
      pow_le_pow_right₀ hone (by omega)
    rw [pow_one] at hle
    linarith
  · intro hlt
    refine ⟨k, hname, hamount, hlow, fun _ => ?_⟩
    rcases Nat.lt_or_ge (k + 1) m.units.length with hmore | hlast
    · have := hhigh hmore
      change (chooseUnit n m).1 < m.scale * (17 / 20) at this
      linarith
    · have hone : m.units.length - k = 1 := by omega
      rwa [hone, pow_one] at hlt

theorem Units.Proper.unit_used_iff (hm : m.Proper) {k : ℕ} {name : Bytes}
    (hname : m.names[k]? = some name) :
    (∃ n, 0 ≤ n ∧ (chooseUnit n m).2 = name) ↔ k < m.units.length := by
  constructor
  · rintro ⟨n, -, hn⟩
    have hscale := hm.scale
    have hlen : 0 < m.units.length := List.length_pos_iff.mpr hm.units
    obtain ⟨j, hj, hchosen, -⟩ := unitLoop_spec (Nat.zero_lt_of_lt hscale) m.units n m.base
    have hjk : k = j := hm.index_unique hname (hn ▸ hchosen)
    omega
  · intro hk
    have hpow := unitLoop_pow hm.scale hk m.base
    exact ⟨m.scale ^ k, by positivity, Option.some.inj (hpow.symm.trans hname)⟩

/-- `format_units` picks the right unit for exactly the numbers below `0.85` of the unit after
    the last of the table, and it uses every unit except the last. -/
theorem picksUnit_iff {m : Units} (hm : m ∈ unitTables) :
    (∀ n, PicksUnit m n ↔ n < 17 / 20 * m.scale ^ m.units.length) ∧
    ∀ k name, m.names[k]? = some name →
      ((∃ n, 0 ≤ n ∧ (chooseUnit n m).2 = name) ↔ k < m.units.length) :=
  ⟨(proper_of_mem hm).picks_iff, fun _ _ hname => (proper_of_mem hm).unit_used_iff hname⟩

/-- Latencies below `850` ms are printed in the right unit. -/
theorem picksUnit_iff_timeUnitsUs : PicksUnit timeUnitsUs 849999 ∧
    ∃ n, 0 ≤ n ∧ (chooseUnit n timeUnitsUs).2 = CString.ascii ['m', 's'] := by
  have h := picksUnit_iff (m := timeUnitsUs) (by simp [unitTables])
  refine ⟨(h.1 849999).mpr ?_, (h.2 1 _ rfl).mpr (by decide)⟩
  norm_num [timeUnitsUs]

/-- Two hours are printed as 120 minutes, and no duration is printed in hours. -/
theorem picksUnit_two_hours : chooseUnit 7200 timeUnitsS = (120, CString.ascii ['m']) ∧
    ¬ PicksUnit timeUnitsS 7200 ∧
    ¬ ∃ n, 0 ≤ n ∧ (chooseUnit n timeUnitsS).2 = CString.ascii ['h'] := by
  have hm : timeUnitsS.Proper := proper_of_mem (by simp [unitTables])
  refine ⟨by decide +kernel, ?_, ?_⟩
  · rw [hm.picks_iff]
    norm_num [timeUnitsS]
  · rw [hm.unit_used_iff (k := 2) rfl]
    decide

end Wrkx
