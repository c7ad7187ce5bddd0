import Mathlib.Algebra.Group.Pi.Basic
import Wrkx.Base.LogLinear
import Wrkx.Hdr.Histogram

/-!
# Values and slots

On a histogram with unit `1`, the index arithmetic of `hdr_histogram.c` is that of the
log-linear slots. `Shaped m n h` says that `h` has `n` buckets of magnitude `m`; it is what
`hdr_init` establishes and what every writer keeps.

## Main results

- `hdrInit_maxLatency` — the shape of the histograms of `wrk.c`
- `countsIndexFor_natCast` — a value below `2 ^ (m + n)` has its log-linear slot
- `countsIndexFor_eq_none` — every larger value fails an assertion
- `hdrRecordValues_natCast` — recording adds to that slot and to the total
-/

namespace Wrkx

open Word LogLinear

/-- A histogram of unit `1` with `n` buckets of `2 ^ (m + 1)` positions. -/
structure Shaped (m n : ℕ) (h : HdrHistogram) : Prop where
  unit : h.unitMagnitude = 0
  magnitude : h.subBucketHalfCountMagnitude = m
  halfCount : h.subBucketHalfCount = 2 ^ m
  mask : h.subBucketMask = ((2 ^ (m + 1) - 1 : ℕ) : ℤ)
  count : h.subBucketCount = 2 ^ (m + 1)
  buckets : h.bucketCount = n
  len : h.countsLen = (((n + 1) * 2 ^ m : ℕ) : ℤ)
  magnitude_lt : m < 30
  buckets_pos : 0 < n
  range_le : m + n ≤ 63

/-- The histogram that `hdr_init (1, MAX_LATENCY, 3)` makes. -/
def latencyHistogram : HdrHistogram where
  lowestTrackableValue := 1
  highestTrackableValue := maxLatency
  unitMagnitude := 0
  significantFigures := 3
  subBucketHalfCountMagnitude := 10
  subBucketHalfCount := 1024
  subBucketMask := 2047
  subBucketCount := 2048
  bucketCount := 27
  countsLen := 28672
  totalCount := 0
  counts := fun _ => 0

/-- The sizing loop doubles `2047` twenty-six times. -/
theorem hdrInit_maxLatency : hdrInit 1 maxLatency 3 = some latencyHistogram := by
  have hclog : Nat.clog 2 (2 * power 10 3) = 11 := by decide
  have hlog : Nat.log2 1 = 0 := by decide
  have hmask : int32 2047 = 2047 := by decide
  have hbuckets : bucketsNeeded maxLatency 65 2047 1 = some 27 := by decide +kernel
  simp [hdrInit, hclog, hlog, hmask, hbuckets, latencyHistogram]

theorem latencyHistogram_shaped : Shaped 10 27 latencyHistogram := by
  constructor <;> simp [latencyHistogram]

variable {m n : ℕ} {h : HdrHistogram}

/-! ## The index of a value -/

theorem Shaped.getBucketIndex (hs : Shaped m n h) {v : ℕ} (hv : v < 2 ^ 63) :
    getBucketIndex h v = bucket m v := by
  have hm := hs.magnitude_lt
  have hmask : 2 ^ (m + 1) - 1 < 2 ^ 64 := by
    have : 2 ^ (m + 1) ≤ 2 ^ 31 := Nat.pow_le_pow_right (by norm_num) (by omega)
    omega
  have hlog : m ≤ (v ||| (2 ^ (m + 1) - 1)).log2 := by
    rw [Nat.le_log2 (or_mask_ne_zero m v)]
    have hle : 2 ^ (m + 1) - 1 ≤ v ||| (2 ^ (m + 1) - 1) := Nat.right_le_or
    have : 2 ^ (m + 1) = 2 ^ m * 2 := pow_succ _ _
    have := Nat.one_le_two_pow (n := m)
    omega
  simp only [Wrkx.getBucketIndex, hs.mask, hs.unit, hs.magnitude, clzll, bucket,
    uint64_natCast (show v < 2 ^ 64 by omega), uint64_natCast hmask]
  omega

theorem getSubBucketIndex_natCast {v b : ℕ} (h : v / 2 ^ b < 2 ^ 31) :
    getSubBucketIndex v b 0 = (v / 2 ^ b : ℕ) := by
  have hshift : (v : ℤ) >>> b = ((v / 2 ^ b : ℕ) : ℤ) := by
    rw [Int.shiftRight_eq_div_pow]
    push_cast
    rfl
  simp only [getSubBucketIndex, Nat.cast_zero, add_zero, Int.toNat_natCast, hshift,
    int32_natCast h]

theorem Shaped.getSubBucketIndex (hs : Shaped m n h) (v : ℕ) :
    getSubBucketIndex v (bucket m v) 0 = sub m v := by
  refine getSubBucketIndex_natCast ((sub_lt m v).trans_le ?_)
  exact Nat.pow_le_pow_right (by norm_num) (by have := hs.magnitude_lt; omega)

theorem Shaped.countsIndex (hs : Shaped m n h) {b s : ℕ} (hb : b < n) (hlt : s < 2 ^ (m + 1))
    (hle : b = 0 ∨ 2 ^ m ≤ s) : countsIndex h b s = some ((b * 2 ^ m + s : ℕ) : ℤ) := by
  have hguard : (b : ℤ) < h.bucketCount ∧ (s : ℤ) < h.subBucketCount ∧
      ((b : ℤ) = 0 ∨ h.subBucketHalfCount ≤ s) := by
    rw [hs.buckets, hs.count, hs.halfCount]
    exact ⟨by exact_mod_cast hb, by exact_mod_cast hlt, by exact_mod_cast hle⟩
  rw [Wrkx.countsIndex, if_pos hguard, hs.magnitude, hs.halfCount]
  push_cast
  congr 1
  ring

/-- A value below `2 ^ (m + n)` has its log-linear slot. -/
theorem Shaped.countsIndexFor_natCast (hs : Shaped m n h) {v : ℕ} (hv : v < 2 ^ (m + n)) :
    countsIndexFor h v = some (slot m v : ℤ) := by
  have h63 : v < 2 ^ 63 := hv.trans_le (Nat.pow_le_pow_right (by norm_num) hs.range_le)
  have hle : bucket m v = 0 ∨ 2 ^ m ≤ sub m v := by
    by_cases hz : bucket m v = 0
    · exact Or.inl hz
    · exact Or.inr (le_sub hz)
  simp only [countsIndexFor, hs.getBucketIndex h63, hs.unit, hs.getSubBucketIndex]
  exact hs.countsIndex (bucket_lt hs.buckets_pos hv) (sub_lt m v) hle

/-- A value from `2 ^ (m + n)` on fails the first assertion of `counts_index`. -/
theorem Shaped.countsIndexFor_eq_none (hs : Shaped m n h) {v : ℕ} (hv : 2 ^ (m + n) ≤ v)
    (h63 : v < 2 ^ 63) : countsIndexFor h v = none := by
  have hb : n ≤ bucket m v := (le_bucket_iff hs.buckets_pos).mpr hv
  have hguard : ¬ ((bucket m v : ℤ) < h.bucketCount) := by
    rw [hs.buckets]
    exact_mod_cast not_lt.mpr hb
  simp only [countsIndexFor, hs.getBucketIndex h63, Wrkx.countsIndex, hguard, false_and, if_false]

/-- So does a negative value. -/
theorem Shaped.countsIndexFor_neg (hs : Shaped m n h) {v : ℤ} (hv : v < 0)
    (hmin : -2 ^ 63 ≤ v) : countsIndexFor h v = none := by
  have hle : 2 ^ 63 ≤ uint64 v ||| uint64 h.subBucketMask :=
    (le_uint64_of_neg hv hmin).trans Nat.left_le_or
  have hlog : 63 ≤ (uint64 v ||| uint64 h.subBucketMask).log2 :=
    (Nat.le_log2 (by omega)).mpr hle
  have hbucket : (n : ℤ) ≤ Wrkx.getBucketIndex h v := by
    have hrange := hs.range_le
    simp only [Wrkx.getBucketIndex, clzll, hs.unit, hs.magnitude]
    omega
  have hguard : ¬ Wrkx.getBucketIndex h v < h.bucketCount := by
    rw [hs.buckets]
    exact not_lt.mpr hbucket
  simp only [countsIndexFor, Wrkx.countsIndex, hguard, false_and, if_false]

/-! ## Recording -/

/-- Add `f` slot by slot, and `t` to the total. -/
def HdrHistogram.plus (h : HdrHistogram) (f : ℕ → ℤ) (t : ℤ) : HdrHistogram :=
  { h with counts := h.counts + f, totalCount := h.totalCount + t }

@[simp] theorem plus_counts (f : ℕ → ℤ) (t : ℤ) : (h.plus f t).counts = h.counts + f := rfl

@[simp] theorem plus_totalCount (f : ℕ → ℤ) (t : ℤ) :
    (h.plus f t).totalCount = h.totalCount + t := rfl

@[simp] theorem plus_zero : h.plus 0 0 = h := by simp [HdrHistogram.plus]

@[simp] theorem plus_plus (f g : ℕ → ℤ) (s t : ℤ) :
    (h.plus f s).plus g t = h.plus (f + g) (s + t) := by
  simp [HdrHistogram.plus, add_assoc]

theorem Shaped.plus (hs : Shaped m n h) (f : ℕ → ℤ) (t : ℤ) : Shaped m n (h.plus f t) := by
  exact ⟨hs.unit, hs.magnitude, hs.halfCount, hs.mask, hs.count, hs.buckets, hs.len,
    hs.magnitude_lt, hs.buckets_pos, hs.range_le⟩

theorem Shaped.hdrReset (hs : Shaped m n h) : Shaped m n (hdrReset h) := by
  exact ⟨hs.unit, hs.magnitude, hs.halfCount, hs.mask, hs.count, hs.buckets, hs.len,
    hs.magnitude_lt, hs.buckets_pos, hs.range_le⟩

/-- Recording a value in range adds to its slot and to the total. -/
theorem Shaped.hdrRecordValues_natCast (hs : Shaped m n h) {v : ℕ} (hv : v < 2 ^ (m + n))
    (count : ℤ) :
    hdrRecordValues h v count = some (true, h.plus (Pi.single (slot m v) count) count) := by
  have hlen : ¬ ((slot m v : ℤ) < 0 ∨ h.countsLen ≤ slot m v) := by
    have hlt := slot_lt hs.buckets_pos hv
    rw [hs.len]
    omega
  have hupdate : Function.update h.counts (slot m v) (h.counts (slot m v) + count) =
      h.counts + Pi.single (slot m v) count := by
    funext i
    by_cases hi : i = slot m v
    · subst hi
      simp
    · simp [hi]
  simp [hdrRecordValues, hs.countsIndexFor_natCast hv, hlen, hupdate, HdrHistogram.plus]

end Wrkx
