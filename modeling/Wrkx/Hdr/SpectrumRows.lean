import Mathlib.Data.Nat.Find
import Wrkx.Base.HalvingTicks
import Wrkx.Hdr.Iterator
import Wrkx.Hdr.PercentileIter
import Wrkx.Hdr.Sizing

/-!
# The rows of the percentile iterator

The rows are the ticks of a halving scale from 0 to 100: row `n` is tick `n`, on the first
recorded slot whose cumulative share reaches it. The rows end with the first tick that lies on
the last recorded slot, and one more row stands for 100%.

## Main results

- `percentileLoop_coarseIter` — the loop stops on the first recorded slot that reaches a tick
- `percentileRows_run` — the rows of a run
- `percentileRows_through` — a run that ends goes through the row on the last recorded slot
- `exists_rows` — how far the `int64_t` arithmetic has to fit
-/

namespace Wrkx

open Word LogLinear HalvingTicks

variable {m n u : ℕ} {h : HdrHistogram}

/-! ## Iterators of any unit -/

/-- The iterator after `k` moves, on a histogram of unit `2 ^ u`. -/
def coarseIter (m u : ℕ) (h : HdrHistogram) : ℕ → HdrIter
  | 0 => hdrIterInit
  | k + 1 =>
    { slotIter m h (k + 1) with
      valueFromIndex := slotValue m k * 2 ^ u
      highestEquivalentValue := highestEquivalentValue h (slotValue m k * 2 ^ u) }

theorem coarseIter_countToIndex (m u : ℕ) (h : HdrHistogram) (k : ℕ) :
    (coarseIter m u h k).countToIndex = prefixCount h k := by
  cases k <;> rfl

theorem hasNext_coarseIter (m u : ℕ) (h : HdrHistogram) (k : ℕ) :
    hasNext h (coarseIter m u h k) = true ↔ prefixCount h k < h.totalCount := by
  rw [hasNext, decide_eq_true_iff, coarseIter_countToIndex]

theorem valueFromIndex_unit (m u k : ℕ) :
    valueFromIndex (slotBucket m k) (slotSub m k) u = slotValue m k * 2 ^ u := by
  have hshift : ((slotBucket m k : ℤ) + u).toNat = slotBucket m k + u := by omega
  rw [valueFromIndex, hshift, slotValue, pow_add, ← mul_assoc]
  push_cast
  rfl

theorem Coarse.incrementBucket_coarseIter (hc : Coarse m n u h) (k : ℕ) :
    incrementBucket h (coarseIter m u h k).bucketIndex (coarseIter m u h k).subBucketIndex =
      ((slotBucket m k : ℤ), (slotSub m k : ℤ)) := by
  have hstep := hc.shaped.incrementBucket_slotIter k
  cases k <;> exact hstep

/-- A move from slot to slot, before the last one. -/
theorem Coarse.moveNext_coarseIter (hc : Coarse m n u h) {k : ℕ} (hk : k < (n + 1) * 2 ^ m) :
    moveNext h (coarseIter m u h k) = some (true, coarseIter m u h (k + 1)) := by
  have hb : slotBucket m k < n := slotBucket_lt hc.buckets_pos hk
  have hle : slotBucket m k = 0 ∨ 2 ^ m ≤ slotSub m k := by
    by_cases hz : slotBucket m k = 0
    · exact Or.inl hz
    · exact Or.inr (le_slotSub hz)
  have hindex : countsIndex h (slotBucket m k) (slotSub m k) = some (k : ℤ) := by
    have hindex := hc.shaped.countsIndex hb (slotSub_lt m k) hle
    rwa [slotBucket_mul_add] at hindex
  have hmore : (slotBucket m k : ℤ) < h.bucketCount := by
    rw [hc.buckets]
    exact_mod_cast hb
  simp only [moveNext, hc.incrementBucket_coarseIter, hasBuckets, hmore, decide_true,
    Bool.not_true, Bool.false_eq_true, if_false, getCountAtIndex, hindex, hc.unit,
    valueFromIndex_unit, Option.map_some, coarseIter_countToIndex]
  rw [coarseIter, slotIter, prefixCount_succ]
  rfl

theorem Coarse.countsLen_toNat (hc : Coarse m n u h) : h.countsLen.toNat = (n + 1) * 2 ^ m :=
  hc.shaped.countsLen_toNat

theorem hdrIterNext_coarseIter (hc : Coarse m n u h) (ht : Tallied h) {k : ℕ}
    (hk : prefixCount h k < h.totalCount) :
    hdrIterNext h (coarseIter m u h k) = some (true, coarseIter m u h (k + 1)) := by
  have hlt := ht.lt_of_hasNext hk
  rw [hc.countsLen_toNat] at hlt
  simp [hdrIterNext, (hasNext_coarseIter m u h k).mpr hk, hc.moveNext_coarseIter hlt]

/-- The highest value of a slot, as far as the width of the slot fits an `int`. -/
theorem Coarse.highestEquivalentValue_slotValue (hc : Coarse m n u h) {k : ℕ}
    (hk : k < (n + 1) * 2 ^ m) :
    highestEquivalentValue h (slotValue m k * 2 ^ u) =
      slotValue m k * 2 ^ u + int32 (2 ^ (u + slotBucket m k)) - 1 := by
  have hb : slotBucket m k < n := slotBucket_lt hc.buckets_pos hk
  have hunits : slotValue m k < 2 ^ 63 := (slotValue_lt m k).trans_le
    (Nat.pow_le_pow_right (by norm_num) (by have := hc.range_le; omega))
  have hv : slotValue m k * 2 ^ u < 2 ^ 63 := by
    calc slotValue m k * 2 ^ u < 2 ^ (m + slotBucket m k + 1) * 2 ^ u :=
          Nat.mul_lt_mul_of_pos_right (slotValue_lt m k) (Nat.two_pow_pos u)
      _ = 2 ^ (m + slotBucket m k + 1 + u) := (pow_add _ _ _).symm
      _ ≤ 2 ^ 63 := Nat.pow_le_pow_right (by norm_num) (by have := hc.range_le; omega)
  have hdiv : slotValue m k * 2 ^ u / 2 ^ u = slotValue m k :=
    Nat.mul_div_cancel _ (Nat.two_pow_pos u)
  have hbucket : Wrkx.getBucketIndex h (slotValue m k * 2 ^ u : ℕ) = slotBucket m k := by
    rw [hc.getBucketIndex hv, hdiv, hc.shaped.getBucketIndex hunits, bucket_slotValue]
  have hsub : getSubBucketIndex (slotValue m k * 2 ^ u : ℕ) (slotBucket m k) u =
      slotSub m k := by
    have hunit := hc.shaped.getSubBucketIndex (slotValue m k)
    rw [bucket_slotValue, sub_slotValue] at hunit
    rw [getSubBucketIndex_div, hdiv, hunit]
  have hinside : ¬ h.subBucketCount ≤ (slotSub m k : ℤ) := by
    rw [hc.count]
    exact_mod_cast not_le.mpr (slotSub_lt m k)
  have hshift : ((u : ℤ) + slotBucket m k).toNat = u + slotBucket m k := by omega
  have hcast : (slotValue m k : ℤ) * 2 ^ u = (slotValue m k * 2 ^ u : ℕ) := by
    push_cast
    rfl
  rw [hcast]
  simp only [highestEquivalentValue, nextNonEquivalentValue, lowestEquivalentValue,
    sizeOfEquivalentValueRange, hbucket, hc.unit, hsub, hinside, if_false, hshift,
    valueFromIndex_unit, hcast]

/-- The last value of a slot. -/
def slotTop (m u k : ℕ) : ℤ := slotValue m (k + 1) * 2 ^ u - 1

/-- The highest equivalent value is the last one of its slot exactly up to a width of
    `2 ^ 30`. -/
theorem Coarse.highestEquivalentValue_eq_slotTop_iff (hc : Coarse m n u h) {k : ℕ}
    (hk : k < (n + 1) * 2 ^ m) :
    highestEquivalentValue h (slotValue m k * 2 ^ u) = slotTop m u k ↔
      u + slotBucket m k ≤ 30 := by
  have htop : slotTop m u k = slotValue m k * 2 ^ u + 2 ^ (u + slotBucket m k) - 1 := by
    rw [slotTop, slotValue_succ, pow_add]
    push_cast
    ring
  rw [hc.highestEquivalentValue_slotValue hk, htop]
  constructor
  · intro heq
    by_contra hwide
    have hpow : (2 : ℤ) ^ 31 ≤ 2 ^ (u + slotBucket m k) :=
      pow_le_pow_right₀ (by norm_num) (by omega)
    have := int32_lt (2 ^ (u + slotBucket m k))
    omega
  · intro hnarrow
    have hpow : 2 ^ (u + slotBucket m k) < 2 ^ 31 := Nat.pow_lt_pow_right (by norm_num) (by omega)
    have hword := int32_natCast hpow
    push_cast at hword
    rw [hword]

/-! ## The ticks -/

/-- The percentile of tick `n`. -/
def tickPercentile (t n : ℕ) : ℚ := 100 * (1 - distance ℚ t n)

/-- The `int64_t` arithmetic of tick `n` does not overflow. -/
def TickFits (t n : ℕ) : Prop := t * 2 ^ (n / t + 1) < 2 ^ 63

variable {t : ℕ}

theorem tickFits_iff {n : ℕ} : TickFits t n ↔ t * 2 ^ (n / t + 1) < 2 ^ 63 := Iff.rfl

theorem tickPercentile_zero (ht : 0 < t) : tickPercentile t 0 = 0 := by
  rw [tickPercentile, distance_zero ht, sub_self, mul_zero]

theorem tickPercentile_lt (ht : 0 < t) (n : ℕ) : tickPercentile t n < 100 := by
  have := distance_pos (K := ℚ) ht n
  rw [tickPercentile]
  linarith

theorem tickPercentile_strictMono (ht : 0 < t) : StrictMono (tickPercentile t) := by
  intro i j hij
  have := distance_strictAnti (K := ℚ) ht hij
  simp only [tickPercentile]
  linarith

theorem int64Result_natCast (x : ℕ) :
    int64Result x = if x < 2 ^ 63 then some (x : ℤ) else none := by
  have hlow : (-2 ^ 63 : ℤ) ≤ x := by omega
  simp only [int64Result, hlow, true_and]
  norm_cast

/-- At tick `n` the remaining distance has been halved `n / t` times. -/
theorem halfDistance_tick (ht : 0 < t) (n : ℕ) :
    halfDistance (tickPercentile t n) =
      if 2 ^ (n / t + 1) < 2 ^ 63 then some (2 ^ (n / t + 1)) else none := by
  have hpos := distance_pos (K := ℚ) ht n
  have hone : distance ℚ t n ≤ 1 :=
    (distance_le ht n).trans (div_le_one_of_le₀ (one_le_pow₀ one_le_two) (by positivity))
  have hrest : 100 / (100 - tickPercentile t n) = 1 / distance ℚ t n := by
    rw [tickPercentile, show 100 - 100 * (1 - distance ℚ t n) = 100 * distance ℚ t n by ring,
      ← div_div, div_self (by norm_num)]
  have hpow : ((2 : ℚ) ^ (((n / t : ℕ) : ℤ) + 1)) = ((2 ^ (n / t + 1) : ℕ) : ℚ) := by
    rw [← Nat.cast_succ, zpow_natCast]
    push_cast
    rfl
  have hcast : ((2 ^ (n / t + 1) : ℕ) : ℤ) = 2 ^ (n / t + 1) := by
    push_cast
    rfl
  rw [halfDistance, if_pos (tickPercentile_lt ht n), hrest, truncateLog2,
    if_pos ((one_le_div hpos).mpr hone), log_one_div_distance ht, hpow, truncate_natCast,
    int64Result_natCast, hcast]

/-- The step at tick `n` divides 100 by the ticks of the half distance. -/
theorem percentileReportingTicks_tick (ht : 0 < t) (n : ℕ) {p : HdrPercentileIter}
    (hticks : p.ticksPerHalfDistance = t) (hto : p.percentileToIterateTo = tickPercentile t n) :
    percentileReportingTicks p =
      if t * 2 ^ (n / t + 1) < 2 ^ 63 then some ((t * 2 ^ (n / t + 1) : ℕ) : ℤ) else none := by
  have hle : 2 ^ (n / t + 1) ≤ t * 2 ^ (n / t + 1) := Nat.le_mul_of_pos_left _ ht
  have hne : ((t * 2 ^ (n / t + 1) : ℕ) : ℤ) ≠ 0 := by
    exact_mod_cast (Nat.mul_pos ht (Nat.two_pow_pos _)).ne'
  have hcast : (t : ℤ) * 2 ^ (n / t + 1) = (t * 2 ^ (n / t + 1) : ℕ) := by
    push_cast
    rfl
  rw [percentileReportingTicks, hticks, hto, halfDistance_tick ht]
  by_cases hhalf : 2 ^ (n / t + 1) < 2 ^ 63
  · rw [if_pos hhalf, Option.bind_eq_bind, Option.bind_some, hcast, int64Result_natCast]
    by_cases hfits : t * 2 ^ (n / t + 1) < 2 ^ 63
    · rw [if_pos hfits, Option.bind_some, if_neg hne]
    · rw [if_neg hfits, Option.bind_none]
  · rw [if_neg hhalf, if_neg (by omega), Option.bind_eq_bind, Option.bind_none]

theorem percentileReported_tick (ht : 0 < t) {n : ℕ} (hfits : TickFits t n)
    {p : HdrPercentileIter} (hticks : p.ticksPerHalfDistance = t)
    (hto : p.percentileToIterateTo = tickPercentile t n) :
    percentileReported p = some { p with
      percentile := tickPercentile t n
      percentileToIterateTo := tickPercentile t (n + 1) } := by
  have hnext : tickPercentile t n + 100 / ((t * 2 ^ (n / t + 1) : ℕ) : ℤ) =
      tickPercentile t (n + 1) := by
    rw [tickPercentile, tickPercentile, distance_succ ht]
    push_cast
    ring
  rw [percentileReported, percentileReportingTicks_tick ht n hticks hto,
    if_pos (tickFits_iff.mp hfits), Option.map_some, hto, hnext]

theorem percentileReported_overflow (ht : 0 < t) {n : ℕ} (hfits : ¬ TickFits t n)
    {p : HdrPercentileIter} (hticks : p.ticksPerHalfDistance = t)
    (hto : p.percentileToIterateTo = tickPercentile t n) : percentileReported p = none := by
  rw [percentileReported, percentileReportingTicks_tick ht n hticks hto,
    if_neg (tickFits_iff.not.mp hfits), Option.map_none]

/-! ## The slot of a tick -/

/-- The cumulative share of the slots up to `k`, in per cent. -/
def share (h : HdrHistogram) (k : ℕ) : ℚ := 100 * prefixCount h (k + 1) / h.totalCount

/-- Slot `k` is the first recorded one whose cumulative share reaches the percentile. -/
structure FirstReaching (h : HdrHistogram) (percentile : ℚ) (k : ℕ) : Prop where
  recorded : h.counts k ≠ 0
  reaches : percentile ≤ share h k
  first : ∀ j < k, h.counts j ≠ 0 → share h j < percentile

/-- The last slot that holds a sample. -/
def lastSlot (h : HdrHistogram) : ℕ :=
  Nat.findGreatest (fun i => h.counts i ≠ 0) h.countsLen.toNat

/-- Later percentiles are reached on later slots. -/
theorem FirstReaching.mono {p q : ℚ} {j k : ℕ} (hj : FirstReaching h p j)
    (hk : FirstReaching h q k) (hpq : p ≤ q) : j ≤ k := by
  by_contra hlt
  have hbefore := hj.first k (not_le.mp hlt) hk.recorded
  exact absurd (hpq.trans hk.reaches) (not_le.mpr hbefore)

theorem FirstReaching.unique {p : ℚ} {j k : ℕ} (hj : FirstReaching h p j)
    (hk : FirstReaching h p k) : j = k :=
  le_antisymm (hj.mono hk le_rfl) (hk.mono hj le_rfl)

/-- Counts that are not all zero were added on some slot. -/
theorem exists_recorded (h : HdrHistogram) {k : ℕ} (hk : prefixCount h k ≠ 0) :
    ∃ j < k, h.counts j ≠ 0 ∧ prefixCount h (j + 1) = prefixCount h k := by
  induction k with
  | zero => exact absurd prefixCount_zero hk
  | succ k ih =>
    by_cases hcount : h.counts k = 0
    · rw [prefixCount_succ, hcount, add_zero] at hk ⊢
      obtain ⟨j, hjk, hj, hsum⟩ := ih hk
      exact ⟨j, hjk.trans (Nat.lt_succ_self k), hj, hsum⟩
    · exact ⟨k, Nat.lt_succ_self k, hcount, rfl⟩

section Recorded

variable (ht : Tallied h) (hpos : 0 < h.totalCount)
include ht hpos

theorem lastSlot_recorded : h.counts (lastSlot h) ≠ 0 := by
  have hsum : prefixCount h h.countsLen.toNat ≠ 0 := by
    rw [← ht.total]
    exact hpos.ne'
  obtain ⟨j, hj, hne, -⟩ := exists_recorded h hsum
  exact Nat.findGreatest_spec (P := fun i => h.counts i ≠ 0) hj.le hne

omit hpos in
theorem le_lastSlot {k : ℕ} (hk : h.counts k ≠ 0) : k ≤ lastSlot h := by
  by_contra hlt
  have hlen : k ≤ h.countsLen.toNat := by
    by_contra hge
    exact hk (ht.beyond k (not_le.mp hge).le)
  exact Nat.findGreatest_is_greatest (not_le.mp hlt) hlen hk

omit hpos in
theorem lt_countsLen {k : ℕ} (hk : h.counts k ≠ 0) : k < h.countsLen.toNat := by
  by_contra hge
  exact hk (ht.beyond k (not_lt.mp hge))

/-- The count reaches the total on the last recorded slot. -/
theorem prefixCount_lastSlot : prefixCount h (lastSlot h + 1) = h.totalCount := by
  have hsum : prefixCount h h.countsLen.toNat ≠ 0 := by
    rw [← ht.total]
    exact hpos.ne'
  obtain ⟨j, hj, hne, heq⟩ := exists_recorded h hsum
  have hle : prefixCount h (lastSlot h + 1) ≤ h.totalCount := by
    rw [ht.total]
    exact ht.prefixCount_mono (lt_countsLen ht (lastSlot_recorded ht hpos))
  have hge : h.totalCount ≤ prefixCount h (lastSlot h + 1) := by
    rw [ht.total, ← heq]
    exact ht.prefixCount_mono (Nat.succ_le_succ (le_lastSlot ht hne))
  exact le_antisymm hle hge

/-- Before the last recorded slot the total is not reached. -/
theorem prefixCount_lt {k : ℕ} (hk : k < lastSlot h) : prefixCount h (k + 1) < h.totalCount := by
  have hmono := ht.prefixCount_mono (j := k + 1) hk
  have hlast := prefixCount_lastSlot ht hpos
  have hne := lastSlot_recorded ht hpos
  have := ht.nonneg (lastSlot h)
  rw [prefixCount_succ] at hlast
  omega

theorem exists_firstReaching {p : ℚ} (hp : p ≤ 100) : ∃ k, FirstReaching h p k := by
  have hshare : share h (lastSlot h) = 100 := by
    have htotal : (h.totalCount : ℚ) ≠ 0 := by exact_mod_cast hpos.ne'
    rw [share, prefixCount_lastSlot ht hpos, mul_div_assoc, div_self htotal, mul_one]
  have hex : ∃ k, h.counts k ≠ 0 ∧ p ≤ share h k :=
    ⟨lastSlot h, lastSlot_recorded ht hpos, hp.trans hshare.ge⟩
  refine ⟨Nat.find hex, (Nat.find_spec hex).1, (Nat.find_spec hex).2, fun j hj hne => ?_⟩
  by_contra hge
  exact Nat.find_min hex hj ⟨hne, not_lt.mp hge⟩

/-- Which percentiles are reached on the last recorded slot only. -/
theorem FirstReaching.eq_lastSlot_iff {p : ℚ} {k : ℕ} (hk : FirstReaching h p k) :
    k = lastSlot h ↔ prefixCount h (lastSlot h) = 0 ∨
      100 * prefixCount h (lastSlot h) / h.totalCount < p := by
  constructor
  · rintro rfl
    by_cases hzero : prefixCount h (lastSlot h) = 0
    · exact Or.inl hzero
    · right
      obtain ⟨j, hj, hne, heq⟩ := exists_recorded h hzero
      have hbefore := hk.first j hj hne
      rwa [share, heq] at hbefore
  · intro hlast
    by_contra hne
    have hlt : k < lastSlot h := lt_of_le_of_ne (le_lastSlot ht hk.recorded) hne
    have hcount := ht.prefixCount_mono (j := k + 1) hlt
    rcases hlast with hzero | hlast
    · -- a recorded slot before the last one adds to the count
      have hfirst := ht.prefixCount_mono (Nat.zero_le k)
      have hrec := hk.recorded
      have := ht.nonneg k
      rw [prefixCount_succ] at hcount
      rw [prefixCount_zero] at hfirst
      omega
    · have htotal : (0 : ℚ) < h.totalCount := by exact_mod_cast hpos
      have hle : share h k ≤ 100 * prefixCount h (lastSlot h) / h.totalCount := by
        rw [share]
        have : (prefixCount h (k + 1) : ℚ) ≤ prefixCount h (lastSlot h) := by exact_mod_cast hcount
        gcongr
      exact absurd (hk.reaches.trans hle) (not_le.mpr hlast)

end Recorded

/-! ## One row -/

/-- The iterator at slot `j`. -/
def HdrPercentileIter.onSlot (p : HdrPercentileIter) (m u : ℕ) (h : HdrHistogram) (j : ℕ) :
    HdrPercentileIter :=
  { p with iter := coarseIter m u h (j + 1) }

/-- From slot `j` on, the loop stops on the first recorded slot that reaches the tick. -/
theorem percentileLoop_coarseIter (hc : Coarse m n u h) (ht : Tallied h)
    (hpos : 0 < h.totalCount) (p : HdrPercentileIter) {j k fuel : ℕ}
    (hk : FirstReaching h p.percentileToIterateTo k) (hjk : j ≤ k) (hfuel : k < fuel + j) :
    percentileLoop h fuel (p.onSlot m u h j) = percentileReported (p.onSlot m u h k) := by
  induction fuel generalizing j with
  | zero => omega
  | succ fuel ih =>
    rw [percentileLoop]
    rcases Nat.eq_or_lt_of_le hjk with rfl | hlt
    · exact if_pos ⟨hk.recorded, hk.reaches⟩
    · -- a slot before the first recorded one that reaches the tick
      have hskip : ¬ ((p.onSlot m u h j).iter.countAtIndex ≠ 0 ∧
          (p.onSlot m u h j).percentileToIterateTo ≤
            100 * (p.onSlot m u h j).iter.countToIndex / h.totalCount) := by
        rintro ⟨hne, hreach⟩
        exact absurd hreach (not_le.mpr (hk.first j hlt hne))
      have hmore : prefixCount h (j + 1) < h.totalCount :=
        prefixCount_lt ht hpos (hlt.trans_le (le_lastSlot ht hk.recorded))
      have hmove : hdrIterNext h (p.onSlot m u h j).iter =
          some (true, (p.onSlot m u h (j + 1)).iter) := hdrIterNext_coarseIter hc ht hmore
      rw [if_neg hskip, hmove, Option.bind_eq_bind, Option.bind_some]
      exact ih hlt (by omega)

/-- The iterator after row `i`, which was reported on slot `k`. -/
def reportedRow (m u : ℕ) (h : HdrHistogram) (t k i : ℕ) : HdrPercentileIter where
  iter := coarseIter m u h (k + 1)
  seenLastValue := false
  ticksPerHalfDistance := t
  percentileToIterateTo := tickPercentile t (i + 1)
  percentile := tickPercentile t i

/-- The iterator before row `i`, where `F` are the slots of the rows. -/
def beforeRow (m u : ℕ) (h : HdrHistogram) (t : ℕ) (F : ℕ → ℕ) : ℕ → HdrPercentileIter
  | 0 => hdrPercentileIterInit t
  | i + 1 => reportedRow m u h t (F i) i

/-- The row for 100%. -/
def finalRow (p : HdrPercentileIter) : HdrPercentileIter :=
  { p with seenLastValue := true, percentile := 100 }

theorem subBucketIndex_ne (m u : ℕ) (h : HdrHistogram) (k : ℕ) :
    (coarseIter m u h (k + 1)).subBucketIndex ≠ -1 := by
  have hsub : (coarseIter m u h (k + 1)).subBucketIndex = slotSub m k := rfl
  omega

theorem percentileRows_cases {fuel : ℕ} {p : HdrPercentileIter} {rows : List HdrPercentileIter}
    (hrun : percentileRows h fuel p = some rows) :
    ∃ more q rest, hdrPercentileIterNext h p = some (more, q) ∧
      (more = true → ∃ fuel', percentileRows h fuel' q = some rest ∧ rows = q :: rest) := by
  cases fuel with
  | zero => exact absurd hrun (by simp [percentileRows])
  | succ fuel =>
    rw [percentileRows, Option.bind_eq_bind, Option.bind_eq_some_iff] at hrun
    obtain ⟨⟨more, q⟩, hnext, hrun⟩ := hrun
    cases more with
    | false => exact ⟨false, q, [], hnext, fun h => absurd h Bool.false_ne_true⟩
    | true =>
      obtain ⟨rest, hrest, rfl⟩ := Option.map_eq_some_iff.mp hrun
      exact ⟨true, q, rest, hnext, fun _ => ⟨fuel, hrest, rfl⟩⟩

section Rows

variable (hc : Coarse m n u h) (ht : Tallied h) (hpos : 0 < h.totalCount) (hticks : 0 < t)
  {F : ℕ → ℕ} (hF : ∀ i, FirstReaching h (tickPercentile t i) (F i))
include hc ht hpos hticks hF

omit hticks in
/-- The loop that reports row `i`, from a slot before it. -/
theorem percentileLoop_row (p : HdrPercentileIter) {i j : ℕ} (hj : j ≤ F i)
    (hto : p.percentileToIterateTo = tickPercentile t i) :
    percentileLoop h (slotRounds h) (p.onSlot m u h j) =
      percentileReported (p.onSlot m u h (F i)) := by
  refine percentileLoop_coarseIter hc ht hpos p ?_ hj ?_
  · rw [hto]
    exact hF i
  · have := lt_countsLen ht (hF i).recorded
    rw [slotRounds]
    omega

/-- The next row, as long as the one before it is not on the last recorded slot. -/
theorem hdrPercentileIterNext_beforeRow {i : ℕ} (hnot : ∀ j < i, F j ≠ lastSlot h) :
    hdrPercentileIterNext h (beforeRow m u h t F i) =
      (percentileReported ((beforeRow m u h t F i).onSlot m u h (F i))).map (Prod.mk true) := by
  cases i with
  | zero =>
    -- the first call moves onto the first slot before it looks at it
    have hmore : hasNext h (hdrPercentileIterInit t).iter = true :=
      (hasNext_coarseIter m u h 0).mpr hpos
    have hmove : hdrIterNext h (hdrPercentileIterInit t).iter =
        some (true, coarseIter m u h 1) := hdrIterNext_coarseIter hc ht (k := 0) hpos
    have hloop := percentileLoop_row hc ht hpos hF (hdrPercentileIterInit t) (i := 0)
      (Nat.zero_le _) (tickPercentile_zero hticks).symm
    rw [hdrPercentileIterNext, beforeRow, hmore, hmove]
    exact congrArg (Option.map (Prod.mk true)) hloop
  | succ i =>
    have hlt : F i < lastSlot h :=
      lt_of_le_of_ne (le_lastSlot ht (hF i).recorded) (hnot i (Nat.lt_succ_self i))
    have hmore : hasNext h (reportedRow m u h t (F i) i).iter = true :=
      (hasNext_coarseIter m u h _).mpr (prefixCount_lt ht hpos hlt)
    have hmono : F i ≤ F (i + 1) :=
      (hF i).mono (hF (i + 1)) (tickPercentile_strictMono hticks (Nat.lt_succ_self i)).le
    have hstarted : (reportedRow m u h t (F i) i).iter.subBucketIndex ≠ -1 :=
      subBucketIndex_ne m u h (F i)
    have hloop := percentileLoop_row hc ht hpos hF (reportedRow m u h t (F i) i) hmono rfl
    rw [hdrPercentileIterNext, beforeRow, hmore, Bool.not_true, if_neg Bool.false_ne_true,
      if_neg hstarted]
    exact congrArg (Option.map (Prod.mk true)) hloop

theorem hdrPercentileIterNext_row {i : ℕ} (hnot : ∀ j < i, F j ≠ lastSlot h)
    (hfits : TickFits t i) :
    hdrPercentileIterNext h (beforeRow m u h t F i) =
      some (true, reportedRow m u h t (F i) i) := by
  rw [hdrPercentileIterNext_beforeRow hc ht hpos hticks hF hnot, percentileReported_tick hticks
    hfits]
  · cases i <;> rfl
  · cases i <;> rfl
  · cases i with
    | zero => exact (tickPercentile_zero hticks).symm
    | succ i => rfl

theorem hdrPercentileIterNext_overflow {i : ℕ} (hnot : ∀ j < i, F j ≠ lastSlot h)
    (hfits : ¬ TickFits t i) : hdrPercentileIterNext h (beforeRow m u h t F i) = none := by
  rw [hdrPercentileIterNext_beforeRow hc ht hpos hticks hF hnot,
    percentileReported_overflow hticks hfits, Option.map_none]
  · cases i <;> rfl
  · cases i with
    | zero => exact (tickPercentile_zero hticks).symm
    | succ i => rfl

omit hc hticks hF in
/-- After the row on the last recorded slot there is the row for 100%, and then the end. -/
theorem hdrPercentileIterNext_last (i : ℕ) :
    hdrPercentileIterNext h (reportedRow m u h t (lastSlot h) i) =
        some (true, finalRow (reportedRow m u h t (lastSlot h) i)) ∧
      hdrPercentileIterNext h (finalRow (reportedRow m u h t (lastSlot h) i)) =
        some (false, finalRow (reportedRow m u h t (lastSlot h) i)) := by
  have hend : hasNext h (coarseIter m u h (lastSlot h + 1)) = false := by
    rw [Bool.eq_false_iff, ne_eq, hasNext_coarseIter, prefixCount_lastSlot ht hpos]
    exact lt_irrefl _
  constructor <;> simp [hdrPercentileIterNext, reportedRow, finalRow, hend]

/-! ## The rows of a run -/

/-- The rows from row `i` to row `i + d`, the first one on the last recorded slot, and the row
    for 100%. -/
theorem percentileRows_run {d i : ℕ} (hlast : F (i + d) = lastSlot h)
    (hnot : ∀ j < i + d, F j ≠ lastSlot h) (hfits : ∀ j ≤ i + d, TickFits t j) :
    percentileRows h (d + 3) (beforeRow m u h t F i) =
      some ((List.range' i (d + 1)).map (fun j => reportedRow m u h t (F j) j) ++
        [finalRow (reportedRow m u h t (lastSlot h) (i + d))]) := by
  induction d generalizing i with
  | zero =>
    rw [Nat.add_zero] at hlast hnot hfits
    have hrow := hdrPercentileIterNext_row hc ht hpos hticks hF hnot (hfits i le_rfl)
    rw [hlast] at hrow
    obtain ⟨hfinal, hend⟩ := hdrPercentileIterNext_last (m := m) (u := u) (t := t) ht hpos i
    simp only [percentileRows, hrow, hfinal, hend, Option.bind_eq_bind, Option.bind_some,
      if_true, if_false, Bool.false_eq_true, Option.map_some, Nat.zero_add, Nat.add_zero,
      List.range'_one, List.map_cons, List.map_nil, hlast, List.cons_append, List.nil_append]
  | succ d ih =>
    have hsum : i + 1 + d = i + (d + 1) := by omega
    have hrow := hdrPercentileIterNext_row hc ht hpos hticks hF
      (fun j hj => hnot j (by omega)) (hfits i (by omega))
    have hrest := ih (i := i + 1) (by rwa [hsum]) (by rwa [hsum]) (by rwa [hsum])
    rw [hsum] at hrest
    rw [percentileRows, hrow, Option.bind_eq_bind, Option.bind_some, List.range'_succ]
    exact congrArg (Option.map _) hrest

/-- A run that ends starts with the next row. -/
theorem percentileRows_row {i fuel : ℕ} (hnot : ∀ j < i, F j ≠ lastSlot h)
    {rows : List HdrPercentileIter}
    (hrun : percentileRows h fuel (beforeRow m u h t F i) = some rows) :
    TickFits t i ∧ ∃ fuel' rest, percentileRows h fuel' (beforeRow m u h t F (i + 1)) = some rest ∧
      rows = reportedRow m u h t (F i) i :: rest := by
  obtain ⟨more, q, rest, hnext, hcase⟩ := percentileRows_cases hrun
  by_cases hfits : TickFits t i
  · rw [hdrPercentileIterNext_row hc ht hpos hticks hF hnot hfits] at hnext
    cases hnext
    obtain ⟨fuel', hrest, rfl⟩ := hcase rfl
    exact ⟨hfits, fuel', rest, hrest, rfl⟩
  · rw [hdrPercentileIterNext_overflow hc ht hpos hticks hF hnot hfits] at hnext
    exact absurd hnext (Option.some_ne_none _).symm

/-- A run that ends goes through the row on the last recorded slot. -/
theorem percentileRows_through {d i fuel : ℕ} (hnot : ∀ j < i + d, F j ≠ lastSlot h)
    {rows : List HdrPercentileIter}
    (hrun : percentileRows h fuel (beforeRow m u h t F i) = some rows) :
    TickFits t (i + d) ∧ reportedRow m u h t (F (i + d)) (i + d) ∈ rows := by
  induction d generalizing i fuel rows with
  | zero =>
    obtain ⟨hfits, _, _, _, rfl⟩ := percentileRows_row hc ht hpos hticks hF hnot hrun
    exact ⟨hfits, List.mem_cons_self⟩
  | succ d ih =>
    obtain ⟨-, fuel, rest, hrest, rfl⟩ :=
      percentileRows_row hc ht hpos hticks hF (fun j hj => hnot j (by omega)) hrun
    have hsum : i + 1 + d = i + (d + 1) := by omega
    have hthrough := ih (i := i + 1) (by rwa [hsum]) hrest
    rw [hsum] at hthrough
    exact ⟨hthrough.1, List.mem_cons_of_mem _ hthrough.2⟩

omit hc hticks in
/-- Row `i` is on the last recorded slot when less than the share of that slot is left. -/
theorem row_eq_lastSlot_iff (hbefore : prefixCount h (lastSlot h) ≠ 0) (i : ℕ) :
    F i = lastSlot h ↔ distance ℚ t i < h.counts (lastSlot h) / h.totalCount := by
  have htotal : (0 : ℚ) < h.totalCount := by exact_mod_cast hpos
  have hsum : (prefixCount h (lastSlot h) : ℚ) = h.totalCount - h.counts (lastSlot h) := by
    rw [← prefixCount_lastSlot ht hpos, prefixCount_succ]
    push_cast
    ring
  have hshare : 100 * ((h.totalCount : ℚ) - h.counts (lastSlot h)) / h.totalCount =
      100 * (1 - h.counts (lastSlot h) / h.totalCount) := by
    field_simp
  rw [FirstReaching.eq_lastSlot_iff ht hpos (hF i), hsum, hshare, tickPercentile]
  constructor
  · rintro (hzero | hlt)
    · exact absurd hzero hbefore
    · linarith
  · intro hlt
    right
    linarith

omit hc in
/-- The first row on the last recorded slot comes after at most `q` halvings when the share of
    that slot is large enough. -/
theorem exists_lastRow {q : ℕ} (hq : 0 < q) : ∃ i, F i = lastSlot h ∧
    (∀ j < i, F j ≠ lastSlot h) ∧
    (i / t ≤ q ↔ (t + 1) * h.totalCount < h.counts (lastSlot h) * t * 2 ^ (q + 1)) := by
  have htotal : (0 : ℚ) < h.totalCount := by exact_mod_cast hpos
  have hlast := lastSlot_recorded ht hpos
  have hcount : 0 < h.counts (lastSlot h) := lt_of_le_of_ne (ht.nonneg _) hlast.symm
  by_cases hbefore : prefixCount h (lastSlot h) = 0
  · -- there is only one recorded slot
    refine ⟨0, ?_, fun j hj => absurd hj (Nat.not_lt_zero j), ?_⟩
    · exact (FirstReaching.eq_lastSlot_iff ht hpos (hF 0)).mpr (Or.inl hbefore)
    · have hall := prefixCount_lastSlot ht hpos
      rw [prefixCount_succ, hbefore, zero_add] at hall
      have hpow : (4 : ℤ) ≤ 2 ^ (q + 1) := by
        calc (4 : ℤ) = 2 ^ (1 + 1) := by norm_num
          _ ≤ 2 ^ (q + 1) := pow_le_pow_right₀ (by norm_num) (by omega)
      have hlarge : (t : ℤ) + 1 < t * 2 ^ (q + 1) := by nlinarith
      simp only [Nat.zero_div, Nat.zero_le, true_iff, hall, mul_assoc]
      rw [mul_comm]
      exact mul_lt_mul_of_pos_left hlarge hpos
  · -- the distance left falls below the share of the last slot
    have hiff := row_eq_lastSlot_iff ht hpos hF hbefore
    have hex : ∃ i, distance ℚ t i < h.counts (lastSlot h) / h.totalCount := by
      refine exists_distance_lt hticks (div_pos ?_ htotal)
      exact_mod_cast hcount
    refine ⟨Nat.find hex, (hiff _).mpr (Nat.find_spec hex), fun j hj heq =>
      Nat.find_min hex hj ((hiff j).mp heq), ?_⟩
    have hhalvings := div_le_iff_distance_lt hticks (Nat.find_spec hex)
      (fun j hj => not_lt.mp (Nat.find_min hex hj)) q
    have hden : (0 : ℚ) < t * 2 ^ (q + 1) := by positivity
    rw [hhalvings, div_lt_div_iff₀ hden htotal, mul_assoc]
    exact_mod_cast Iff.rfl

end Rows

/-- For every number of ticks that fits an `int32_t`, a bound on the halvings is one on the
    `int64_t` arithmetic. -/
theorem tickFits_iff_div_le (hticks : 0 < t) (hint : t < 2 ^ 31) (i : ℕ) :
    TickFits t i ↔ i / t ≤ 61 - t.log2 := by
  have hlog : t.log2 < 31 := (Nat.log2_lt hticks.ne').mpr hint
  rw [tickFits_iff]
  rcases Nat.lt_or_ge (i / t + 1) 63 with hlt | hge
  · -- the half distance takes its bits away from those of the ticks
    have hsplit : 2 ^ 63 = 2 ^ (63 - (i / t + 1)) * 2 ^ (i / t + 1) := by
      rw [← pow_add]
      congr 1
      omega
    rw [hsplit, Nat.mul_lt_mul_right (Nat.two_pow_pos _), ← Nat.log2_lt hticks.ne']
    omega
  · have hle : 2 ^ 63 ≤ t * 2 ^ (i / t + 1) :=
      (Nat.pow_le_pow_right (by norm_num) hge).trans (Nat.le_mul_of_pos_left _ hticks)
    omega

/-- The run up to the first row on the last recorded slot. -/
theorem percentileRows_start (hc : Coarse m n u h) (ht : Tallied h) (hpos : 0 < h.totalCount)
    (hticks : 0 < t) {F : ℕ → ℕ} (hF : ∀ i, FirstReaching h (tickPercentile t i) (F i)) {d : ℕ}
    (hint : t < 2 ^ 31) (hlast : F d = lastSlot h)
    (hnot : ∀ j < d, F j ≠ lastSlot h) (hfits : TickFits t d) :
    percentileRows h (d + 3) (hdrPercentileIterInit t) =
      some ((List.range' 0 (d + 1)).map (fun i => reportedRow m u h t (F i) i) ++
        [finalRow (reportedRow m u h t (lastSlot h) d)]) := by
  have hbefore : ∀ j ≤ 0 + d, TickFits t j := fun j hj => by
    rw [tickFits_iff_div_le hticks hint] at hfits ⊢
    exact (Nat.div_le_div_right (by omega)).trans hfits
  have hrun := percentileRows_run hc ht hpos hticks hF (d := d) (i := 0)
    (by rwa [Nat.zero_add]) (by rwa [Nat.zero_add]) hbefore
  rwa [Nat.zero_add] at hrun

/-- The slots of the rows, the number of the first one on the last recorded slot, and when the
    arithmetic fits up to it. -/
theorem exists_rows (ht : Tallied h) (hpos : 0 < h.totalCount) (hticks : 0 < t)
    (hint : t < 2 ^ 31) : ∃ (F : ℕ → ℕ) (d : ℕ),
    (∀ i, FirstReaching h (tickPercentile t i) (F i)) ∧ F d = lastSlot h ∧
    (∀ j < d, F j ≠ lastSlot h) ∧
    (TickFits t d ↔
      (t + 1) * h.totalCount < h.counts (lastSlot h) * t * 2 ^ (62 - t.log2)) := by
  have hlog : t.log2 < 31 := (Nat.log2_lt hticks.ne').mpr hint
  choose F hF using fun i => exists_firstReaching ht hpos (tickPercentile_lt hticks i).le
  obtain ⟨d, hlast, hnot, hhalvings⟩ :=
    exists_lastRow ht hpos hticks hF (q := 61 - t.log2) (by omega)
  have hexp : 61 - t.log2 + 1 = 62 - t.log2 := by omega
  rw [← tickFits_iff_div_le hticks hint, hexp] at hhalvings
  exact ⟨F, d, hF, hlast, hnot, hhalvings⟩

end Wrkx
