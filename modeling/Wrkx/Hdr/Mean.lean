import Mathlib.Algebra.Order.Field.Basic
import Mathlib.Algebra.Order.Ring.Abs
import Mathlib.Tactic.FieldSimp
import Mathlib.Tactic.Linarith
import Wrkx.Hdr.Equivalent
import Wrkx.Hdr.Summary

/-!
# The accuracy of the mean

`hdr_mean` weighs each slot with its median equivalent value. That value is at most a
2048-th away from every value of the slot, and so the mean of a latency histogram is at most
a 2048-th away from the mean of the values it recorded.

## Main results

- `hdrMean_eq` — the mean as a sum over the slots
- `sum_tally_mul` — a sum over the slots regrouped by recorded value
- `hdrMean_accurate` — the distance from the exact mean
-/

namespace Wrkx

open Word LogLinear

variable {m n : ℕ} {h : HdrHistogram}

/-! ## The mean as a sum over the slots -/

/-- The sum of the first `k` slots, each weighed with its median equivalent value. -/
def medianSum (m : ℕ) (h : HdrHistogram) (k : ℕ) : ℤ :=
  ∑ i ∈ Finset.range k, h.counts i * medianEquivalentValue h (slotValue m i)

theorem medianSum_zero (m : ℕ) (h : HdrHistogram) : medianSum m h 0 = 0 := rfl

theorem medianSum_succ (m : ℕ) (h : HdrHistogram) (k : ℕ) :
    medianSum m h (k + 1) =
      medianSum m h k + h.counts k * medianEquivalentValue h (slotValue m k) :=
  Finset.sum_range_succ _ _

/-- Every slot of a histogram whose values fit an `int` shift starts below `2 ^ (m + 31)`. -/
theorem Shaped.slotValue_lt_wide (hs : Shaped m n h) (hn : n ≤ 31) {i : ℕ}
    (hi : i < h.countsLen.toNat) : slotValue m i < 2 ^ (m + 31) :=
  (hs.slotValue_lt hi).trans_le (Nat.pow_le_pow_right (by norm_num) (by omega))

theorem Shaped.medianEquivalentValue_nonneg (hs : Shaped m n h) {v : ℕ} (hv : v < 2 ^ (m + 31)) :
    0 ≤ Wrkx.medianEquivalentValue h v := by
  rw [hs.medianEquivalentValue hv]
  exact add_nonneg (Int.natCast_nonneg _) (Int.natCast_nonneg _)

theorem medianSum_mono (hs : Shaped m n h) (ht : Tallied h) (hn : n ≤ 31) {j k : ℕ} (hjk : j ≤ k)
    (hk : k ≤ h.countsLen.toNat) : medianSum m h j ≤ medianSum m h k := by
  refine Finset.sum_le_sum_of_subset_of_nonneg (Finset.range_mono hjk) fun i hi _ => ?_
  have hlt := hs.slotValue_lt_wide hn ((Finset.mem_range.mp hi).trans_le hk)
  exact mul_nonneg (ht.nonneg i) (hs.medianEquivalentValue_nonneg hlt)

theorem medianSum_eq_of_empty {j k : ℕ} (hjk : j ≤ k) (hempty : ∀ i, j ≤ i → h.counts i = 0) :
    medianSum m h k = medianSum m h j := by
  induction k, hjk using Nat.le_induction with
  | base => rfl
  | succ k hjk ih => rw [medianSum_succ, ih, hempty k hjk, zero_mul, add_zero]

theorem medianSum_nonneg (hs : Shaped m n h) (ht : Tallied h) (hn : n ≤ 31) {k : ℕ}
    (hk : k ≤ h.countsLen.toNat) : 0 ≤ medianSum m h k := by
  have := medianSum_mono hs ht hn (Nat.zero_le k) hk
  rwa [medianSum_zero] at this

/-- One round of the loop of `hdr_mean`. A partial sum lies between zero and the whole sum. -/
theorem hdrMeanStep_slotIter (hs : Shaped m n h) (ht : Tallied h) (hn : n ≤ 31)
    (hsum : medianSum m h h.countsLen.toNat < 2 ^ 63) {k : ℕ} (hk : k < h.countsLen.toNat) :
    hdrMeanStep h (slotIter m h (k + 1)) (medianSum m h k) = medianSum m h (k + 1) := by
  have hvalue : (slotIter m h (k + 1)).valueFromIndex = (slotValue m k : ℕ) := rfl
  have hcount : (slotIter m h (k + 1)).countAtIndex = h.counts k := rfl
  rw [hdrMeanStep, hvalue, hcount, ← medianSum_succ]
  by_cases hzero : h.counts k = 0
  · rw [if_neg (not_not.mpr hzero), medianSum_succ, hzero, zero_mul, add_zero]
  · have hnonneg := medianSum_nonneg hs ht hn hk
    have hlt := (medianSum_mono hs ht hn hk le_rfl).trans_lt hsum
    obtain ⟨sum, hnat⟩ := Int.eq_ofNat_of_zero_le hnonneg
    rw [hnat] at hlt
    rw [if_pos hzero, hnat]
    exact int64_natCast (by exact_mod_cast hlt)

/-- The loop of `hdr_mean` computes the sum over the slots as long as it fits a word. -/
theorem hdrMean_eq (hs : Shaped m n h) (ht : Tallied h) (hn : n ≤ 31) (hpos : h.totalCount ≠ 0)
    (hsum : medianSum m h h.countsLen.toNat < 2 ^ 63) :
    hdrMean h = some (some ((medianSum m h h.countsLen.toNat : ℚ) / h.totalCount)) := by
  obtain ⟨total, htotal, rfl⟩ := overSlots_spec
    (fun iter total => .inl (hdrMeanStep h iter total)) id
    (fun k total => k ≤ h.countsLen.toNat ∧ total = medianSum m h k)
    (fun total => total = medianSum m h h.countsLen.toNat) hs ht
    ⟨Nat.zero_le _, (medianSum_zero m h).symm⟩
    (fun k total hmore hinv => by
      have hlt := ht.lt_of_hasNext hmore
      exact .next ⟨hlt, hinv.2 ▸ hdrMeanStep_slotIter hs ht hn hsum hlt⟩)
    (fun k total htotal hinv => hinv.2.trans
      (medianSum_eq_of_empty hinv.1 fun i hki => ht.counts_eq_zero htotal hki).symm)
  rw [hdrMean, htotal, Option.map_some, if_neg hpos]

/-! ## Regrouping by recorded value -/

/-- A sum over the slots of a tally is a sum over the recorded values. -/
theorem sum_tally_mul (m : ℕ) (f : ℕ → ℤ) {k : ℕ} {values : List ℕ}
    (hk : ∀ v ∈ values, slot m v < k) :
    ∑ i ∈ Finset.range k, tally m values i * f i = (values.map fun v => f (slot m v)).sum := by
  induction values with
  | nil => simp
  | cons v values ih =>
    have hv : slot m v ∈ Finset.range k := Finset.mem_range.mpr (hk v (by simp))
    have hone : ∑ i ∈ Finset.range k, (Pi.single (slot m v) 1 : ℕ → ℤ) i * f i = f (slot m v) := by
      rw [Finset.sum_eq_single_of_mem (slot m v) hv]
      · simp
      · intro i _ hne
        simp [hne]
    have hrest := ih fun w hw => hk w (by simp [hw])
    rw [tally_cons, List.map_cons, List.sum_cons, ← hrest, ← hone, ← Finset.sum_add_distrib]
    exact Finset.sum_congr rfl fun i _ => add_mul _ _ _

/-- Relative errors of the values carry over to their sum. -/
theorem abs_sum_sub_sum_le {c : ℤ} {f : ℕ → ℤ} {values : List ℕ}
    (herror : ∀ v ∈ values, c * |f v - v| ≤ v) (hc : 0 ≤ c) :
    c * |(values.map f).sum - (values.sum : ℕ)| ≤ (values.sum : ℕ) := by
  induction values with
  | nil => simp
  | cons v values ih =>
    have hv := herror v (by simp)
    have hrest := ih fun w hw => herror w (by simp [hw])
    rw [List.map_cons, List.sum_cons, List.sum_cons, Nat.cast_add]
    calc c * |f v + (values.map f).sum - (v + values.sum)|
        = c * |(f v - v) + ((values.map f).sum - values.sum)| := by congr 2; ring
      _ ≤ c * (|f v - v| + |(values.map f).sum - values.sum|) :=
        mul_le_mul_of_nonneg_left (abs_add_le _ _) hc
      _ ≤ v + values.sum := by rw [mul_add]; exact add_le_add hv hrest

/-! ## Accuracy -/

/-- The median equivalent value is at most half the width of the slot away from a value. -/
theorem Shaped.abs_median_sub_le (hs : Shaped m n h) {v : ℕ} (hv : v < 2 ^ (m + 31)) :
    2 ^ (m + 1) * |Wrkx.medianEquivalentValue h v - v| ≤ v := by
  have hlow := slotValue_slot_le m v
  have hhigh := lt_slotValue_slot_succ m v
  rw [slotValue_succ, (slotBucket_slot m v).1] at hhigh
  rw [hs.medianEquivalentValue hv]
  rcases Nat.eq_zero_or_pos (bucket m v) with hz | hb
  · have hexact : slotValue m (slot m v) = v := by
      rw [hz] at hhigh
      omega
    simp [hz, hexact]
  · obtain ⟨b, hb⟩ : ∃ b, bucket m v = b + 1 := ⟨bucket m v - 1, by omega⟩
    have hwide := two_pow_bucket_mul_le (m := m) (v := v) (by omega)
    have hhalf : 2 ^ (b + 1) / 2 = 2 ^ b := by rw [pow_succ, Nat.mul_div_cancel _ (by norm_num)]
    rw [hb, pow_succ] at hhigh hwide
    rw [hb, hhalf]
    have hdist : |((slotValue m (slot m v) : ℕ) : ℤ) + (2 ^ b : ℕ) - v| ≤ (2 ^ b : ℕ) := by
      rw [abs_le]
      omega
    calc (2 : ℤ) ^ (m + 1) * |((slotValue m (slot m v) : ℕ) : ℤ) + (2 ^ b : ℕ) - v|
        ≤ 2 ^ (m + 1) * (2 ^ b : ℕ) := mul_le_mul_of_nonneg_left hdist (by positivity)
      _ = ((2 ^ b * 2 * 2 ^ m : ℕ) : ℤ) := by push_cast; ring
      _ ≤ v := by exact_mod_cast hwide

/-- A value and the first value of its slot have the same median equivalent value. -/
theorem Shaped.medianEquivalentValue_slot (hs : Shaped m n h) {v : ℕ} (hv : v < 2 ^ (m + 31)) :
    Wrkx.medianEquivalentValue h (slotValue m (slot m v)) = Wrkx.medianEquivalentValue h v := by
  have hle := (slotValue_slot_le m v).trans_lt hv
  rw [hs.medianEquivalentValue hle, hs.medianEquivalentValue hv, slot_slotValue, bucket_slotValue,
    (slotBucket_slot m v).1]

/-- What `hdr_mean` sums up, by recorded value. -/
theorem RecordsValues.medianSum_eq {values : List ℕ} (hr : RecordsValues h values)
    (hv : ∀ v ∈ values, v ≤ maxLatency) : medianSum 10 h h.countsLen.toNat =
      (values.map fun v : ℕ => medianEquivalentValue h v).sum := by
  have hlt : ∀ v ∈ values, v < 2 ^ (10 + 27) := fun v hmem => (hv v hmem).trans_lt maxLatency_lt
  rw [medianSum, hr.counts, sum_tally_mul 10 (fun i => medianEquivalentValue h (slotValue 10 i))
    fun v hmem => hr.shaped.slot_lt_countsLen (hlt v hmem)]
  exact congrArg List.sum (List.map_congr_left fun v hmem =>
    hr.shaped.medianEquivalentValue_slot ((hlt v hmem).trans (by norm_num)))

/-- The mean of a latency histogram is at most a 2048-th away from that of the values it
    recorded, as long as the sum that `hdr_mean` forms fits a word. -/
theorem hdrMean_accurate {fresh : HdrHistogram} (hinit : hdrInit 1 maxLatency 3 = some fresh)
    {values : List ℕ} (hne : values ≠ []) (hv : ∀ v ∈ values, v ≤ maxLatency)
    (hrecord : recordAll fresh values = some h)
    (hsum : ∑ i ∈ Finset.range h.countsLen.toNat,
      h.counts i * medianEquivalentValue h (slotValue 10 i) < 2 ^ 63) :
    ∃ mean, hdrMean h = some (some mean) ∧
      |mean - (values.sum : ℚ) / values.length| ≤ (values.sum : ℚ) / values.length / 2048 := by
  have hr := recordsValues hinit hv hrecord
  have hwide : ∀ v ∈ values, v < 2 ^ (10 + 31) := fun v hmem =>
    (hv v hmem).trans_lt (maxLatency_lt.trans (by norm_num))
  have hlength : 0 < values.length := List.length_pos_iff.mpr hne
  have herror : (2048 : ℤ) * |medianSum 10 h h.countsLen.toNat - (values.sum : ℕ)| ≤
      (values.sum : ℕ) := by
    rw [hr.medianSum_eq hv]
    exact abs_sum_sub_sum_le (fun v hmem => hr.shaped.abs_median_sub_le (hwide v hmem))
      (by norm_num)
  refine ⟨_, hdrMean_eq hr.shaped hr.tallied (by norm_num) (by rw [hr.total]; omega) hsum, ?_⟩
  have hposℚ : (0 : ℚ) < values.length := by exact_mod_cast hlength
  have hcast : ∀ (x : ℤ) (sum : ℕ), (2048 : ℤ) * |x - sum| ≤ sum →
      (2048 : ℚ) * |(x : ℚ) - sum| ≤ sum := fun x sum h => by exact_mod_cast h
  have herrorℚ := hcast _ _ herror
  rw [hr.total, Int.cast_natCast, ← sub_div, abs_div, abs_of_pos hposℚ, div_right_comm]
  exact div_le_div_of_nonneg_right (by linarith) hposℚ.le

/-- A short and a long latency. -/
theorem hdrMean_accurate_two : ∃ h mean, recordAll latencyHistogram [1000, 70000000000] = some h ∧
    hdrMean h = some (some mean) ∧ |mean - 70000001000 / 2| ≤ 70000001000 / 2 / 2048 := by
  have hv : ∀ v ∈ [1000, 70000000000], v ≤ maxLatency := by decide
  obtain ⟨h, hrecord⟩ : ∃ h, recordAll latencyHistogram [1000, 70000000000] = some h :=
    ⟨_, latencyHistogram_shaped.recordAll_eq fun v hmem => (hv v hmem).trans_lt maxLatency_lt⟩
  have hr := recordsValues hdrInit_maxLatency hv hrecord
  have hlow := hr.shaped.medianEquivalentValue (show 1000 < 2 ^ (10 + 31) by norm_num)
  have hhigh := hr.shaped.medianEquivalentValue (show 70000000000 < 2 ^ (10 + 31) by norm_num)
  have hlowValue : slotValue 10 (slot 10 1000) + 2 ^ bucket 10 1000 / 2 = 1000 := by
    decide +kernel
  have hhighValue : slotValue 10 (slot 10 70000000000) + 2 ^ bucket 10 70000000000 / 2 =
      70028099584 := by
    decide +kernel
  have hsum : medianSum 10 h h.countsLen.toNat < 2 ^ 63 := by
    rw [hr.medianSum_eq hv, List.map_cons, List.map_cons, List.map_nil, List.sum_cons,
      List.sum_cons, List.sum_nil, hlow, hhigh, ← Nat.cast_add, ← Nat.cast_add, hlowValue,
      hhighValue]
    norm_num
  obtain ⟨mean, hmean, hclose⟩ := hdrMean_accurate hdrInit_maxLatency (by simp) hv hrecord hsum
  refine ⟨h, mean, hrecord, hmean, ?_⟩
  norm_num at hclose ⊢
  exact hclose

end Wrkx
