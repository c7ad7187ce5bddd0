import Wrkx.Stats.Percentile

/-!
# The share of samples within a deviation

`stats_within_stdev` counts the samples between two bounds. With raw samples it compares each
of them with the bounds. With a histogram it takes the difference of two cumulative counts,
at bounds converted to `int64_t`, and counts the slot at which it leaves its loop as well.

## Main results

- `withinStdev_counts` — the two counts of the histogram branch
- `withinStdev_iff` — when the two branches agree
-/

namespace Wrkx

open LogLinear OrderStatistic

variable {h : HdrHistogram} {values : List ℕ}

/-! ## The counts of the histogram branch -/

theorem RecordsValues.totalCount_ne_zero (hr : RecordsValues h values) (hne : values ≠ []) :
    h.totalCount ≠ 0 := by
  have hlength := List.length_pos_iff.mpr hne
  rw [hr.total]
  omega

theorem slot_eq_self {v : ℕ} (hv : v < 2048) : slot 10 v = v := by
  have hb : bucket 10 v = 0 := bucket_eq_zero hv
  rw [slot, sub, hb, pow_zero, Nat.div_one, zero_mul, zero_add]

theorem slotValue_eq_self {v : ℕ} (hv : v < 2048) : slotValue 10 v = v := by
  have hvalue := slotValue_slot 10 v
  rw [slot_eq_self hv] at hvalue
  rw [hvalue, sub, bucket_eq_zero hv, pow_zero, Nat.div_one, mul_one]

theorem RecordsValues.prefixCount_small (hr : RecordsValues h values)
    (hv : ∀ v ∈ values, v < 2048) (k : ℕ) :
    prefixCount h k = (values.countP fun v => v < k : ℕ) := by
  rw [hr.prefixCount_eq, Nat.cast_inj]
  exact List.countP_congr fun v hmem => by rw [slot_eq_self (hv v hmem)]

/-- While the total is not reached, some value lies ahead. -/
theorem RecordsValues.lt_of_more (hr : RecordsValues h values) (hv : ∀ v ∈ values, v < 2048)
    {k : ℕ} (hmore : prefixCount h k < h.totalCount) : k < 2048 := by
  by_contra hge
  have hall : values.countP (fun v => v < k) = values.length := by
    rw [List.countP_eq_length]
    intro v hmem
    have hlt := hv v hmem
    simp only [decide_eq_true_eq]
    omega
  rw [hr.prefixCount_small hv, hall, hr.total] at hmore
  exact lt_irrefl _ hmore

/-- The state after `k` slots: the values below both `k` and the lower bound are counted, and
    no slot so far lies above the upper bound. -/
def WithinAt (values : List ℕ) (upperValue lowerValue : ℤ) (k : ℕ) (lowerCount : ℤ) : Prop :=
  lowerCount = (values.countP fun v : ℕ => (v : ℤ) < lowerValue ∧ v < k : ℕ) ∧
    ∀ j < k, (j : ℤ) ≤ upperValue

/-- The counts with which the loop is left. -/
def WithinCounts (values : List ℕ) (upperValue lowerValue : ℤ) (counts : ℤ × ℤ) : Prop :=
  counts.1 = (values.countP fun v : ℕ => (v : ℤ) < lowerValue : ℕ) ∧
    counts.2 = (values.countP fun v : ℕ => (v : ℤ) ≤ max 0 (upperValue + 1) : ℕ)

theorem countP_lt_succ_of_lt {lowerValue : ℤ} {k : ℕ} (hk : (k : ℤ) < lowerValue) :
    (values.countP fun v : ℕ => (v : ℤ) < lowerValue ∧ v < k + 1) =
      values.countP fun v => v < k + 1 :=
  List.countP_congr fun v _ => by simp only [decide_eq_true_eq]; omega

theorem countP_lt_succ_of_le {lowerValue : ℤ} {k : ℕ} (hk : lowerValue ≤ k) :
    (values.countP fun v : ℕ => (v : ℤ) < lowerValue ∧ v < k) =
      values.countP fun v : ℕ => (v : ℤ) < lowerValue :=
  List.countP_congr fun v _ => by simp only [decide_eq_true_eq]; omega

/-- One round of the loop, at a slot that holds a single value. -/
theorem withinStdevStep_slotIter (hr : RecordsValues h values) (hv : ∀ v ∈ values, v < 2048)
    {upperValue lowerValue lowerCount : ℤ} (hle : lowerValue ≤ upperValue) {k : ℕ}
    (hmore : prefixCount h k < h.totalCount)
    (hat : WithinAt values upperValue lowerValue k lowerCount) :
    Round (WithinAt values upperValue lowerValue (k + 1))
      (WithinCounts values upperValue lowerValue)
      (withinStdevStep upperValue lowerValue (slotIter 10 h (k + 1)) lowerCount) := by
  have hk := hr.lt_of_more hv hmore
  have hvalue : (slotIter 10 h (k + 1)).valueFromIndex = k :=
    congrArg Nat.cast (slotValue_eq_self hk)
  have hhighest : (slotIter 10 h (k + 1)).highestEquivalentValue = k :=
    (congrArg (fun v : ℕ => highestEquivalentValue h v) (slotValue_eq_self hk)).trans
      (hr.shaped.slot_single hk).2
  have hbefore := hat.2
  rw [withinStdevStep, hat.1, hvalue, hhighest, slotIter_countToIndex, hr.prefixCount_small hv]
  -- the lower count after this slot
  have hlower : (if (k : ℤ) < lowerValue then ((values.countP fun v => v < k + 1 : ℕ) : ℤ) else
      (values.countP fun v : ℕ => (v : ℤ) < lowerValue ∧ v < k : ℕ)) =
        (values.countP fun v : ℕ => (v : ℤ) < lowerValue ∧ v < k + 1 : ℕ) := by
    split_ifs with hlt
    · rw [countP_lt_succ_of_lt hlt]
    · rw [countP_lt_succ_of_le (not_lt.mp hlt), countP_lt_succ_of_le (by push_cast; omega)]
  simp only [hlower]
  split_ifs with hbreak
  · refine .leave ⟨?_, ?_⟩
    · rw [countP_lt_succ_of_le (by push_cast; omega)]
    · -- the loop is left at the first slot above the upper bound
      have hk0 : max 0 (upperValue + 1) = k := by
        rcases Nat.eq_zero_or_pos k with rfl | hpos
        · push_cast at hbreak
          omega
        · have := hbefore (k - 1) (by omega)
          omega
      rw [hk0]
      exact congrArg Nat.cast (List.countP_congr fun v _ => by simp only [decide_eq_true_eq]; omega)
  · refine .next ⟨rfl, fun j hj => ?_⟩
    omega

/-- When the total is reached without leaving the loop, all values lie in the slots visited. -/
theorem WithinAt.counts_of_total {upperValue lowerValue lowerCount : ℤ} {k : ℕ}
    (hat : WithinAt values upperValue lowerValue k lowerCount) (hr : RecordsValues h values)
    (hv : ∀ v ∈ values, v < 2048) (htotal : h.totalCount ≤ prefixCount h k) :
    WithinCounts values upperValue lowerValue (lowerCount, h.totalCount) := by
  obtain ⟨hcount, hbefore⟩ := hat
  have hall : ∀ v ∈ values, v < k := by
    rw [hr.prefixCount_small hv, hr.total, Nat.cast_le] at htotal
    have := List.countP_eq_length.mp (le_antisymm List.countP_le_length htotal)
    intro v hmem
    simpa using this v hmem
  constructor
  · rw [hcount]
    exact congrArg Nat.cast (List.countP_congr fun v hmem => by simp [hall v hmem])
  · have hfull : (values.countP fun v : ℕ => (v : ℤ) ≤ max 0 (upperValue + 1)) =
        values.length := by
      rw [List.countP_eq_length]
      intro v hmem
      have := hbefore v (hall v hmem)
      simp only [decide_eq_true_eq]
      omega
    rw [hr.total, hfull]

theorem withinStdev_counts (hr : RecordsValues h values) (hv : ∀ v ∈ values, v < 2048)
    {upperValue lowerValue : ℤ} (hle : lowerValue ≤ upperValue) :
    ∃ counts, withinStdevCounts h upperValue lowerValue = some counts ∧
      WithinCounts values upperValue lowerValue counts := by
  have hstart : WithinAt values upperValue lowerValue 0 0 := by
    refine ⟨?_, fun j hj => absurd hj (Nat.not_lt_zero j)⟩
    simp
  have hstep : ∀ k lowerCount, prefixCount h k < h.totalCount →
      WithinAt values upperValue lowerValue k lowerCount →
      Round (WithinAt values upperValue lowerValue (k + 1))
        (WithinCounts values upperValue lowerValue)
        (withinStdevStep upperValue lowerValue (slotIter 10 h (k + 1)) lowerCount) := by
    intro k lowerCount hmore hat
    exact withinStdevStep_slotIter hr hv hle hmore hat
  have hdone : ∀ k lowerCount, h.totalCount ≤ prefixCount h k →
      WithinAt values upperValue lowerValue k lowerCount →
      WithinCounts values upperValue lowerValue (lowerCount, h.totalCount) := by
    intro k lowerCount htotal hat
    exact hat.counts_of_total hr hv htotal
  exact overSlots_spec _ _ _ _ hr.shaped hr.tallied hstart hstep hdone

/-! ## Truncated bounds -/

theorem truncate_of_nonneg {x : ℚ} (hx : 0 ≤ x) : truncate x = ⌊x⌋ := if_pos hx

theorem truncate_nonpos {x : ℚ} (hx : x ≤ 0) : truncate x ≤ 0 := by
  rw [truncate]
  split_ifs with h
  · rw [le_antisymm hx h, Int.floor_zero]
  · exact Int.ceil_le.mpr (by exact_mod_cast hx)

theorem truncate_mono {x y : ℚ} (hxy : x ≤ y) : truncate x ≤ truncate y := by
  by_cases hx : 0 ≤ x
  · rw [truncate_of_nonneg hx, truncate_of_nonneg (hx.trans hxy)]
    exact Int.floor_mono hxy
  · by_cases hy : 0 ≤ y
    · rw [truncate_of_nonneg hy]
      exact (truncate_nonpos (not_le.mp hx).le).trans (Int.floor_nonneg.mpr hy)
    · rw [truncate, truncate, if_neg hx, if_neg hy]
      exact Int.ceil_mono hxy

/-- A sample up to a bound is at most the truncated bound. -/
theorem le_truncate {v : ℕ} {x : ℚ} (hv : (v : ℚ) ≤ x) : (v : ℤ) ≤ truncate x := by
  rw [truncate_of_nonneg ((Nat.cast_nonneg v).trans hv), Int.le_floor]
  exact_mod_cast hv

/-- A sample below a truncated bound is below the bound. -/
theorem lt_of_lt_truncate {v : ℕ} {x : ℚ} (hv : (v : ℤ) < truncate x) : (v : ℚ) < x := by
  have hpos : 0 ≤ x := by
    by_contra hneg
    have := truncate_nonpos (not_le.mp hneg).le
    omega
  rw [truncate_of_nonneg hpos] at hv
  calc (v : ℚ) < (⌊x⌋ : ℤ) := by exact_mod_cast hv
    _ ≤ x := Int.floor_le x

/-- Both bounds are converted to `int64_t`; the lower one is at most the upper one. -/
def BoundsFit (upper lower : ℚ) : Prop := -2 ^ 63 ≤ truncate lower ∧ truncate upper < 2 ^ 63

instance (upper lower : ℚ) : Decidable (BoundsFit upper lower) :=
  inferInstanceAs (Decidable (_ ∧ _))

theorem BoundsFit.int64Result {upper lower : ℚ} (hfit : BoundsFit upper lower)
    (hle : lower ≤ upper) : int64Result (truncate upper) = some (truncate upper) ∧
      int64Result (truncate lower) = some (truncate lower) := by
  obtain ⟨hlow, hhigh⟩ := hfit
  have hmono := truncate_mono hle
  exact ⟨if_pos ⟨hlow.trans hmono, hhigh⟩, if_pos ⟨hlow, hmono.trans_lt hhigh⟩⟩

theorem int64Result_isSome {x : ℤ} (hx : (int64Result x).isSome) : -2 ^ 63 ≤ x ∧ x < 2 ^ 63 := by
  rw [Wrkx.int64Result] at hx
  split_ifs at hx with hfit
  · exact hfit
  · cases hx

/-! ## Samples that the branches treat differently -/

/-- The samples above the upper bound that the histogram branch counts all the same. -/
def PastUpper (upper : ℚ) (v : ℕ) : Prop := upper < v ∧ (v : ℤ) ≤ max 0 (truncate upper + 1)

/-- The samples below the lower bound that the histogram branch counts all the same. -/
def PastLower (lower : ℚ) (v : ℕ) : Prop := truncate lower ≤ v ∧ (v : ℚ) < lower

instance (upper : ℚ) (v : ℕ) : Decidable (PastUpper upper v) := inferInstanceAs (Decidable (_ ∧ _))

instance (lower : ℚ) (v : ℕ) : Decidable (PastLower lower v) := inferInstanceAs (Decidable (_ ∧ _))

theorem countP_eq_add {p q r : ℕ → Prop} [DecidablePred p] [DecidablePred q] [DecidablePred r]
    (hor : ∀ v, p v ↔ q v ∨ r v) (hand : ∀ v, q v → ¬ r v) :
    values.countP (fun v => decide (p v)) =
      values.countP (fun v => decide (q v)) + values.countP (fun v => decide (r v)) := by
  induction values with
  | nil => rfl
  | cons v values ih =>
    rw [List.countP_cons, List.countP_cons, List.countP_cons, ih]
    have hv := hor v
    by_cases hq : q v
    · simp [hv.mpr (Or.inl hq), hq, hand v hq]
      omega
    · by_cases hrv : r v
      · simp [hv.mpr (Or.inr hrv), hq, hrv]
        omega
      · have hp : ¬ p v := fun hp => (hv.mp hp).elim hq hrv
        simp [hp, hq, hrv]

theorem countP_upper (values : List ℕ) (upper : ℚ) :
    (values.countP fun v : ℕ => (v : ℤ) ≤ max 0 (truncate upper + 1)) =
      (values.countP fun v : ℕ => (v : ℚ) ≤ upper) + values.countP fun v => PastUpper upper v := by
  refine countP_eq_add (fun v => ?_) fun v hle hpast => absurd hle (not_le.mpr hpast.1)
  constructor
  · intro hv
    rcases le_or_gt (v : ℚ) upper with hle | hlt
    · exact Or.inl hle
    · exact Or.inr ⟨hlt, hv⟩
  · rintro (hle | hpast)
    · have := le_truncate hle
      omega
    · exact hpast.2

theorem countP_lower (values : List ℕ) (lower : ℚ) :
    (values.countP fun v : ℕ => (v : ℚ) < lower) =
      (values.countP fun v : ℕ => (v : ℤ) < truncate lower) +
        values.countP fun v => PastLower lower v := by
  refine countP_eq_add (fun v => ?_) fun v hlt hpast => absurd hlt (not_lt.mpr hpast.1)
  constructor
  · intro hv
    rcases lt_or_ge (v : ℤ) (truncate lower) with hlt | hge
    · exact Or.inl hlt
    · exact Or.inr ⟨hge, hv⟩
  · rintro (hlt | hpast)
    · exact lt_of_lt_truncate hlt
    · exact hpast.2

theorem countP_between (values : List ℕ) {lower upper : ℚ} (hle : lower ≤ upper) :
    (values.countP fun v : ℕ => (v : ℚ) ≤ upper) =
      (values.countP fun v : ℕ => (v : ℚ) < lower) +
        values.countP fun v : ℕ => lower ≤ v ∧ (v : ℚ) ≤ upper := by
  refine countP_eq_add (fun v => ?_) fun v hlt hbetween => absurd hlt (not_lt.mpr hbetween.1)
  constructor
  · intro hv
    rcases lt_or_ge (v : ℚ) lower with hlt | hge
    · exact Or.inl hlt
    · exact Or.inr ⟨hge, hv⟩
  · rintro (hlt | hbetween)
    · exact hlt.le.trans hle
    · exact hbetween.2

/-! ## The two branches -/

/-- The histogram branch gives a result only if both bounds are converted. -/
theorem boundsFit_of_histogram {s : Stats} (hhist : s.histogram = some h)
    (hpos : h.totalCount ≠ 0) {mean stdev : ℚ} {n : ℕ} {result : Option ℚ}
    (hwithin : statsWithinStdev s mean stdev n = some result) :
    BoundsFit (mean + stdev * n) (mean - stdev * n) := by
  simp only [statsWithinStdev, hhist] at hwithin
  rw [if_neg hpos] at hwithin
  obtain ⟨upperValue, hupper, hwithin⟩ := Option.bind_eq_some_iff.mp hwithin
  obtain ⟨lowerValue, hlower, -⟩ := Option.bind_eq_some_iff.mp hwithin
  exact ⟨(int64Result_isSome (Option.isSome_of_eq_some hlower)).1,
    (int64Result_isSome (Option.isSome_of_eq_some hupper)).2⟩

/-- The histogram branch counts the samples between the bounds, and some past each bound. -/
theorem withinStdev_histogram (hr : RecordsValues h values) (hne : values ≠ [])
    (hv : ∀ v ∈ values, v < 2048) {s : Stats} (hhist : s.histogram = some h) {mean stdev : ℚ}
    {n : ℕ} (hle : mean - stdev * n ≤ mean + stdev * n)
    (hfit : BoundsFit (mean + stdev * n) (mean - stdev * n)) :
    statsWithinStdev s mean stdev n = some (some (100 *
      (((values.countP fun v : ℕ => mean - stdev * n ≤ v ∧ (v : ℚ) ≤ mean + stdev * n) +
        (values.countP fun v => PastUpper (mean + stdev * n) v) +
        (values.countP fun v => PastLower (mean - stdev * n) v) : ℕ) : ℚ) / values.length)) := by
  have hpos := hr.totalCount_ne_zero hne
  obtain ⟨hu, hl⟩ := hfit.int64Result hle
  obtain ⟨counts, hcounts, hlower, hupper⟩ :=
    withinStdev_counts hr hv (truncate_mono hle)
  have hdiff : counts.2 - counts.1 =
      ((values.countP fun v : ℕ => mean - stdev * n ≤ v ∧ (v : ℚ) ≤ mean + stdev * n) +
        (values.countP fun v => PastUpper (mean + stdev * n) v) +
        (values.countP fun v => PastLower (mean - stdev * n) v) : ℕ) := by
    have hu := countP_upper values (mean + stdev * n)
    have hl := countP_lower values (mean - stdev * n)
    have hb := countP_between values hle
    omega
  simp only [statsWithinStdev, hhist]
  rw [if_neg hpos, hu, hl]
  simp only [Option.bind_eq_bind, Option.bind_some, Option.pure_def, hcounts, hdiff, hr.total,
    Int.cast_natCast]

theorem withinStdev_raw (hne : values ≠ []) {r : Stats} (hhist : r.histogram = none)
    (hraw : r.raw = values) (mean stdev : ℚ) (n : ℕ) :
    statsWithinStdev r mean stdev n = some (some (100 *
      ((values.countP fun v : ℕ => mean - stdev * n ≤ v ∧ (v : ℚ) ≤ mean + stdev * n : ℕ) : ℚ) /
        values.length)) := by
  have hlimit : r.limit = values.length := by
    rw [← hraw, Stats.raw, List.length_map, List.length_range]
  have hpos : r.limit ≠ 0 := by
    rw [hlimit]
    exact (List.length_pos_iff.mpr hne).ne'
  simp only [statsWithinStdev, hhist, hraw]
  rw [if_neg hpos, hlimit, div_mul_eq_mul_div, mul_comm]

/-- The branches agree exactly when both bounds are converted and no sample lies past one of
    them in the way the histogram branch overlooks. -/
theorem withinStdev_iff {fresh : HdrHistogram} (hinit : hdrInit 1 maxLatency 3 = some fresh)
    (hne : values ≠ []) (hv : ∀ v ∈ values, v < 2048) (hrecord : recordAll fresh values = some h)
    {s r : Stats} (hs : s.histogram = some h) (hr : r.histogram = none) (hraw : r.raw = values)
    {mean stdev : ℚ} (hstdev : 0 ≤ stdev) (n : ℕ) :
    (statsWithinStdev s mean stdev n = statsWithinStdev r mean stdev n ∧
      statsWithinStdev r mean stdev n = some (some (100 *
        ((values.countP fun v : ℕ => mean - stdev * n ≤ v ∧ (v : ℚ) ≤ mean + stdev * n : ℕ) : ℚ) /
          values.length))) ↔
    (-2 ^ 63 ≤ truncate (mean - stdev * n) ∧ truncate (mean + stdev * n) < 2 ^ 63) ∧
    ∀ v ∈ values,
      ¬ (mean + stdev * n < v ∧ (v : ℤ) ≤ max 0 (truncate (mean + stdev * n) + 1)) ∧
      ¬ (truncate (mean - stdev * n) ≤ v ∧ (v : ℚ) < mean - stdev * n) := by
  have hvalues := recordsValues hinit (fun v hmem => (hv v hmem).le.trans (by decide)) hrecord
  have hspread : 0 ≤ stdev * n := mul_nonneg hstdev (Nat.cast_nonneg n)
  have hlength : (values.length : ℚ) ≠ 0 :=
    Nat.cast_ne_zero.mpr (List.length_pos_iff.mpr hne).ne'
  have hle : mean - stdev * n ≤ mean + stdev * n := by linarith
  rw [withinStdev_raw hne hr hraw, and_iff_left rfl]
  by_cases hfit : BoundsFit (mean + stdev * n) (mean - stdev * n)
  swap
  · refine iff_of_false (fun hwithin => hfit ?_) fun hall => hfit hall.1
    exact boundsFit_of_histogram hs (hvalues.totalCount_ne_zero hne) hwithin
  have hbounds : -2 ^ 63 ≤ truncate (mean - stdev * n) ∧ truncate (mean + stdev * n) < 2 ^ 63 :=
    hfit
  rw [withinStdev_histogram hvalues hne hv hs hle hfit, and_iff_right hbounds]
  simp only [Option.some.injEq, div_left_inj' hlength,
    mul_right_inj' (show (100 : ℚ) ≠ 0 by norm_num), Nat.cast_inj]
  constructor
  · intro hsum v hmem
    have hupper : (values.countP fun v => PastUpper (mean + stdev * n) v) = 0 := by omega
    have hlower : (values.countP fun v => PastLower (mean - stdev * n) v) = 0 := by omega
    have hup := List.countP_eq_zero.mp hupper v hmem
    have hlow := List.countP_eq_zero.mp hlower v hmem
    exact ⟨fun hpast => hup (decide_eq_true hpast), fun hpast => hlow (decide_eq_true hpast)⟩
  · intro hall
    have hupper : (values.countP fun v => PastUpper (mean + stdev * n) v) = 0 :=
      List.countP_eq_zero.mpr fun v hmem hpast => (hall v hmem).1 (of_decide_eq_true hpast)
    have hlower : (values.countP fun v => PastLower (mean - stdev * n) v) = 0 :=
      List.countP_eq_zero.mpr fun v hmem hpast => (hall v hmem).2 (of_decide_eq_true hpast)
    omega

/-- The raw samples of a list, in an object with room for them. -/
def Example.rawStats (values : List ℕ) : Stats :=
  { statsAlloc values.length with limit := values.length, data := fun i => values.getD i 0 }

/-- Two samples on the bounds. -/
theorem withinStdev_iff_bounds : ∃ h, recordAll latencyHistogram [1, 3] = some h ∧
    statsWithinStdev { statsAlloc 10 with histogram := some h } 2 1 1 =
      statsWithinStdev (Example.rawStats [1, 3]) 2 1 1 := by
  obtain ⟨h, hrecord⟩ := recordAll_exists (show ∀ v ∈ [1, 3], v ≤ maxLatency by decide)
  exact ⟨h, hrecord, ((withinStdev_iff hdrInit_maxLatency (by simp) (by decide) hrecord rfl rfl
    (by decide) (by norm_num) 1).mpr (by decide +kernel)).1⟩

/-- Of three samples `1`, `1` and `4` with mean `2`, two lie within `7 / 5` of the mean, but the
    histogram branch counts all three. -/
theorem histogram_counts_past_upper : ∃ h, recordAll latencyHistogram [1, 1, 4] = some h ∧
    statsWithinStdev { statsAlloc 10 with histogram := some h } 2 (7 / 5) 1 = some (some 100) ∧
    statsWithinStdev (Example.rawStats [1, 1, 4]) 2 (7 / 5) 1 = some (some (200 / 3)) := by
  have hv : ∀ v ∈ [1, 1, 4], v < 2048 := by decide
  obtain ⟨h, hrecord⟩ := recordAll_exists (show ∀ v ∈ [1, 1, 4], v ≤ maxLatency by decide)
  have hr := recordsValues hdrInit_maxLatency (by decide) hrecord
  refine ⟨h, hrecord, ?_, ?_⟩
  · rw [withinStdev_histogram hr (by simp) hv rfl (by norm_num) (by decide +kernel)]
    decide +kernel
  · have hraw : (Example.rawStats [1, 1, 4]).raw = [1, 1, 4] := by decide
    rw [withinStdev_raw (by simp) rfl hraw]
    decide +kernel

end Wrkx
