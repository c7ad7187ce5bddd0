import Mathlib.Tactic.IntervalCases
import Wrkx.Hdr.Slots

/-!
# Sizing a histogram

`hdr_init` doubles the largest value of the first bucket until it reaches the highest value
asked for. With a unit above one, the histogram is one of unit one read in multiples of the
unit, and so is its index arithmetic.

## Main results

- `bucketsNeeded_eq` — the sizing loop counts the doublings
- `Coarse.countsIndexFor_natCast` — the index of a value on a histogram of any unit
- `hdrInit_iff` — which parameters `hdr_init` sizes correctly
-/

namespace Wrkx

open Word LogLinear

/-! ## The sizing loop -/

/-- The loop stops at the first doubling that reaches the highest value. -/
theorem bucketsNeeded_eq {highest t : ℤ} (ht : 0 < t) {k : ℕ} (hreach : highest ≤ t * 2 ^ k)
    (hbelow : ∀ j < k, t * 2 ^ j < highest) (hfit : t * 2 ^ k < 2 ^ 63) {fuel : ℕ}
    (hfuel : k < fuel) (needed : ℤ) :
    bucketsNeeded highest fuel t needed = some (needed + k) := by
  induction k generalizing t fuel needed with
  | zero =>
    obtain ⟨fuel, rfl⟩ : ∃ f, fuel = f + 1 := ⟨fuel - 1, by omega⟩
    rw [bucketsNeeded, if_neg (by simpa using hreach)]
    simp
  | succ k ih =>
    obtain ⟨fuel, rfl⟩ : ∃ f, fuel = f + 1 := ⟨fuel - 1, by omega⟩
    have hsplit : ∀ j : ℕ, t * 2 ^ (j + 1) = t * 2 * 2 ^ j := fun j => by ring
    have hfirst : t < highest := by simpa using hbelow 0 (Nat.succ_pos k)
    have hdouble : int64 (t * 2) = t * 2 := by
      have hle : t * 2 ≤ t * 2 * 2 ^ k :=
        le_mul_of_one_le_right (by omega) (one_le_pow₀ (by norm_num))
      have hlt : t * 2 < 2 ^ 63 := hle.trans_lt (by rwa [← hsplit])
      simp only [int64, Int.bmod_def]
      omega
    have hmore : k < fuel := by omega
    have hrest := ih (t := t * 2) (by omega) (by rwa [← hsplit])
      (fun j hj => by rw [← hsplit]; exact hbelow (j + 1) (by omega)) (by rwa [← hsplit])
      hmore (needed + 1)
    rw [bucketsNeeded, if_pos hfirst, hdouble, hrest]
    congr 1
    push_cast
    ring

theorem needed_le_bucketsNeeded {highest t needed buckets : ℤ} {fuel : ℕ}
    (hloop : bucketsNeeded highest fuel t needed = some buckets) : needed ≤ buckets := by
  induction fuel generalizing t needed with
  | zero => exact absurd hloop (by simp [bucketsNeeded])
  | succ fuel ih =>
    rw [bucketsNeeded] at hloop
    split at hloop
    · have := ih hloop
      omega
    · exact (Option.some.inj hloop).le

/-- As long as the doublings stay below the highest value, the loop goes on. -/
theorem lt_bucketsNeeded {highest t needed buckets : ℤ} (ht : 0 < t) (hmax : highest < 2 ^ 63)
    {fuel k : ℕ} (hbelow : t * 2 ^ k < highest)
    (hloop : bucketsNeeded highest fuel t needed = some buckets) : needed + k < buckets := by
  induction k generalizing t fuel needed with
  | zero =>
    cases fuel with
    | zero => exact absurd hloop (by simp [bucketsNeeded])
    | succ fuel =>
      rw [bucketsNeeded, if_pos (by simpa using hbelow)] at hloop
      have := needed_le_bucketsNeeded hloop
      simp only [Nat.cast_zero]
      omega
  | succ k ih =>
    cases fuel with
    | zero => exact absurd hloop (by simp [bucketsNeeded])
    | succ fuel =>
      have hsplit : t * 2 ^ (k + 1) = t * 2 * 2 ^ k := by ring
      have hle : t * 2 ≤ t * 2 * 2 ^ k :=
        le_mul_of_one_le_right (by omega) (one_le_pow₀ (by norm_num))
      rw [hsplit] at hbelow
      have hdouble : int64 (t * 2) = t * 2 := by
        simp only [int64, Int.bmod_def]
        omega
      rw [bucketsNeeded, if_pos (by omega), hdouble] at hloop
      have := ih (by omega) hbelow hloop
      push_cast
      omega

/-! ## Histograms of any unit -/

/-- A histogram of unit `2 ^ u` with `n` buckets of `2 ^ (m + 1)` positions. -/
structure Coarse (m n u : ℕ) (h : HdrHistogram) : Prop where
  unit : h.unitMagnitude = u
  magnitude : h.subBucketHalfCountMagnitude = m
  halfCount : h.subBucketHalfCount = 2 ^ m
  mask : h.subBucketMask = (((2 ^ (m + 1) - 1) * 2 ^ u : ℕ) : ℤ)
  count : h.subBucketCount = 2 ^ (m + 1)
  buckets : h.bucketCount = n
  len : h.countsLen = (((n + 1) * 2 ^ m : ℕ) : ℤ)
  mask_lt : m + u < 31
  magnitude_lt : m < 30
  buckets_pos : 0 < n
  range_le : m + n + u ≤ 63

/-- The histogram of unit one that a coarser one is read as. -/
def HdrHistogram.perUnit (h : HdrHistogram) : HdrHistogram :=
  { h with unitMagnitude := 0, subBucketMask := h.subBucketCount - 1 }

variable {m n u : ℕ} {h : HdrHistogram}

theorem Coarse.shaped (hc : Coarse m n u h) : Shaped m n h.perUnit where
  unit := rfl
  magnitude := hc.magnitude
  halfCount := hc.halfCount
  mask := by
    rw [HdrHistogram.perUnit, hc.count, Nat.cast_sub Nat.one_le_two_pow]
    push_cast
    rfl
  count := hc.count
  buckets := hc.buckets
  len := hc.len
  magnitude_lt := hc.magnitude_lt
  buckets_pos := hc.buckets_pos
  range_le := by have := hc.range_le; omega

/-- Dividing by a power of two takes that many binary digits away. -/
theorem log2_div_two_pow {x u : ℕ} (h : 2 ^ u ≤ x) : (x / 2 ^ u).log2 = x.log2 - u := by
  have hx : x ≠ 0 := by
    have := Nat.two_pow_pos u
    omega
  have hle : u ≤ x.log2 := (Nat.le_log2 hx).mpr h
  have hdiv : x / 2 ^ u ≠ 0 := (Nat.div_pos h (Nat.two_pow_pos u)).ne'
  rw [Nat.log2_eq_iff hdiv, Nat.le_div_iff_mul_le (Nat.two_pow_pos u),
    Nat.div_lt_iff_lt_mul (Nat.two_pow_pos u), ← pow_add, ← pow_add]
  constructor
  · rw [Nat.sub_add_cancel hle]
    exact Nat.log2_self_le hx
  · rw [Nat.add_right_comm, Nat.sub_add_cancel hle]
    exact Nat.lt_log2_self

theorem Coarse.getBucketIndex (hc : Coarse m n u h) {v : ℕ} (hv : v < 2 ^ 63) :
    getBucketIndex h v = Wrkx.getBucketIndex h.perUnit (v / 2 ^ u : ℕ) := by
  have hu := hc.mask_lt
  have hmask : (2 ^ (m + 1) - 1) * 2 ^ u < 2 ^ 64 := by
    calc (2 ^ (m + 1) - 1) * 2 ^ u ≤ 2 ^ (m + 1) * 2 ^ u := Nat.mul_le_mul_right _ (Nat.sub_le _ _)
      _ = 2 ^ (m + 1 + u) := (pow_add _ _ _).symm
      _ < 2 ^ 64 := Nat.pow_lt_pow_right (by norm_num) (by omega)
  have hone : 2 ^ (m + 1) - 1 < 2 ^ 64 := by
    have : 2 ^ (m + 1) ≤ 2 ^ 31 := Nat.pow_le_pow_right (by norm_num) (by omega)
    omega
  have hor : (v ||| (2 ^ (m + 1) - 1) * 2 ^ u) / 2 ^ u = v / 2 ^ u ||| (2 ^ (m + 1) - 1) := by
    rw [← Nat.shiftRight_eq_div_pow, Nat.shiftRight_or_distrib, Nat.shiftRight_eq_div_pow,
      Nat.shiftRight_eq_div_pow, Nat.mul_div_cancel _ (Nat.two_pow_pos u)]
  have hle : 2 ^ u ≤ v ||| (2 ^ (m + 1) - 1) * 2 ^ u := by
    have hpos : 1 ≤ 2 ^ (m + 1) - 1 := by
      have : 2 ^ 1 ≤ 2 ^ (m + 1) := Nat.pow_le_pow_right (by norm_num) (by omega)
      omega
    exact (Nat.le_mul_of_pos_left _ hpos).trans Nat.right_le_or
  have hlog := log2_div_two_pow hle
  have hdigits : u ≤ (v ||| (2 ^ (m + 1) - 1) * 2 ^ u).log2 :=
    (Nat.le_log2 (by have := Nat.two_pow_pos u; omega)).mpr hle
  have hv' : v / 2 ^ u < 2 ^ 64 := (Nat.div_le_self _ _).trans_lt (by omega)
  rw [hor] at hlog
  simp only [Wrkx.getBucketIndex, hc.shaped.mask, hc.shaped.magnitude, hc.shaped.unit, hc.mask,
    hc.unit, hc.magnitude, clzll, uint64_natCast (show v < 2 ^ 64 by omega),
    uint64_natCast hmask, uint64_natCast hone, uint64_natCast hv', hlog]
  omega

theorem getSubBucketIndex_div (v b u : ℕ) :
    getSubBucketIndex v b u = getSubBucketIndex (v / 2 ^ u : ℕ) b 0 := by
  have hshift : (v : ℤ) >>> (b + u) = ((v / 2 ^ u : ℕ) : ℤ) >>> b := by
    rw [Int.shiftRight_eq_div_pow, Int.shiftRight_eq_div_pow]
    push_cast
    rw [Int.ediv_ediv_of_nonneg (by positivity), ← pow_add, Nat.add_comm]
  have hnat : ((b : ℤ) + (u : ℤ)).toNat = b + u := by omega
  simp only [getSubBucketIndex, hnat, Nat.cast_zero, add_zero, Int.toNat_natCast, hshift]

/-- The index of a value is that of its number of units. -/
theorem Coarse.countsIndexFor_natCast (hc : Coarse m n u h) {v : ℕ} (hv : v < 2 ^ (m + n + u)) :
    countsIndexFor h v = some (slot m (v / 2 ^ u) : ℤ) := by
  have h63 : v < 2 ^ 63 := hv.trans_le (Nat.pow_le_pow_right (by norm_num) hc.range_le)
  have hdiv : v / 2 ^ u < 2 ^ (m + n) := by
    rwa [Nat.div_lt_iff_lt_mul (Nat.two_pow_pos u), ← pow_add]
  have hunit := hc.shaped.countsIndexFor_natCast hdiv
  have hbucket := hc.shaped.getBucketIndex
    (hdiv.trans_le (Nat.pow_le_pow_right (by norm_num) hc.shaped.range_le))
  simp only [countsIndexFor, hc.getBucketIndex h63, hbucket, hc.unit, hc.shaped.unit] at hunit ⊢
  rw [getSubBucketIndex_div]
  exact hunit

theorem Coarse.slot_lt (hc : Coarse m n u h) {v : ℕ} (hv : v < 2 ^ (m + n + u)) :
    (slot m (v / 2 ^ u) : ℤ) < h.countsLen := by
  have hdiv : v / 2 ^ u < 2 ^ (m + n) := by
    rwa [Nat.div_lt_iff_lt_mul (Nat.two_pow_pos u), ← pow_add]
  rw [hc.len]
  exact_mod_cast LogLinear.slot_lt hc.buckets_pos hdiv

/-! ## The parameters of `hdr_init` -/

/-- The binary digits of `sub_bucket_count - 1`. -/
def subBucketBits (significantFigures : ℕ) : ℕ := Nat.clog 2 (2 * power 10 significantFigures)

theorem subBucketBits_range {s : ℕ} (hs : 1 ≤ s) (hs5 : s ≤ 5) :
    5 ≤ subBucketBits s ∧ subBucketBits s ≤ 18 := by
  interval_cases s <;> decide

/-- `hdr_init` sizes a histogram correctly: the mask fits an `int32_t`, the loop stops without
    overflow of an `int64_t`, the number of slots fits an `int32_t`, and every value up to the
    highest has a slot. -/
structure SizedCorrectly (lowest highest : ℤ) (s : ℕ) (h : HdrHistogram) : Prop where
  made : hdrInit lowest highest s = some h
  mask : h.subBucketMask = (h.subBucketCount - 1) * 2 ^ h.unitMagnitude
  trackable : ∀ k : ℕ, (k : ℤ) < h.bucketCount → h.subBucketMask * 2 ^ k < 2 ^ 63
  len : h.countsLen < 2 ^ 31
  covers : ∀ v, 0 ≤ v → v ≤ highest → ∃ i, countsIndexFor h v = some i ∧ 0 ≤ i ∧ i < h.countsLen

/-- The histogram that `hdr_init` makes when it needs `buckets` buckets. -/
def sizedHistogram (lowest highest : ℤ) (s : ℕ) (buckets : ℤ) : HdrHistogram where
  lowestTrackableValue := lowest
  highestTrackableValue := highest
  unitMagnitude := lowest.toNat.log2
  significantFigures := s
  subBucketHalfCountMagnitude := subBucketBits s - 1
  subBucketHalfCount := 2 ^ subBucketBits s / 2
  subBucketMask := int32 ((2 ^ subBucketBits s - 1) * 2 ^ lowest.toNat.log2)
  subBucketCount := 2 ^ subBucketBits s
  bucketCount := buckets
  countsLen := (buckets + 1) * (2 ^ subBucketBits s / 2)
  totalCount := 0
  counts := fun _ => 0

theorem hdrInit_eq_map {s : ℕ} (hs : 1 ≤ s) (hs5 : s ≤ 5) (lowest highest : ℤ) :
    hdrInit lowest highest s =
      (bucketsNeeded highest 65 (int32 ((2 ^ subBucketBits s - 1) * 2 ^ lowest.toNat.log2)) 1).map
        (sizedHistogram lowest highest s) := by
  have hbits := subBucketBits_range hs hs5
  have hmagnitude : subBucketBits s - 1 + 1 = subBucketBits s := by omega
  have hhalf : (if 1 < subBucketBits s then subBucketBits s else 1) - 1 = subBucketBits s - 1 := by
    rw [if_pos (by omega)]
  have hclog : Nat.clog 2 (2 * power 10 s) = subBucketBits s := rfl
  rw [hdrInit, if_neg (by omega)]
  simp only [hclog, hhalf, hmagnitude]
  rfl

theorem log2_add_le_iff {x a : ℕ} (hx : x ≠ 0) (ha : a ≤ 31) :
    x.log2 + a ≤ 31 ↔ x < 2 ^ (32 - a) := by
  rw [← Nat.log2_lt hx]
  omega

/-- The mask shifted by the unit fits an `int32_t` exactly when its top digit does. -/
theorem mask_lt_iff {bits u : ℕ} (hbits : 1 ≤ bits) :
    ((2 : ℤ) ^ bits - 1) * 2 ^ u < 2 ^ 31 ↔ u + bits ≤ 31 := by
  have hsplit : ((2 : ℤ) ^ bits - 1) * 2 ^ u = 2 ^ (u + bits) - 2 ^ u := by ring
  have hpos : (0 : ℤ) < 2 ^ u := by positivity
  rw [hsplit]
  constructor
  · intro hlt
    by_contra hge
    have hhalf : (2 : ℤ) * 2 ^ u ≤ 2 ^ (u + bits) := by
      rw [mul_comm, ← pow_succ]
      exact pow_le_pow_right₀ (by norm_num) (by omega)
    have htop : (2 : ℤ) ^ 32 ≤ 2 ^ (u + bits) := pow_le_pow_right₀ (by norm_num) (by omega)
    omega
  · intro hle
    have htop : (2 : ℤ) ^ (u + bits) ≤ 2 ^ 31 := pow_le_pow_right₀ (by norm_num) hle
    omega

theorem sizedHistogram_coarse {s : ℕ} (hs : 1 ≤ s) (hs5 : s ≤ 5) {lowest highest : ℤ} {n : ℕ}
    (hmask : lowest.toNat.log2 + subBucketBits s ≤ 31) (hn : 0 < n)
    (hrange : subBucketBits s + n + lowest.toNat.log2 ≤ 64) :
    Coarse (subBucketBits s - 1) n lowest.toNat.log2 (sizedHistogram lowest highest s n) := by
  have hbits := subBucketBits_range hs hs5
  obtain ⟨m, hm⟩ : ∃ m, subBucketBits s = m + 1 := ⟨subBucketBits s - 1, by omega⟩
  have hhalf : (2 : ℤ) ^ (m + 1) / 2 = 2 ^ m := by
    rw [pow_succ]
    exact Int.mul_ediv_cancel _ (by norm_num)
  have hcast : ((((2 ^ (m + 1) - 1) * 2 ^ lowest.toNat.log2 : ℕ)) : ℤ) =
      (2 ^ (m + 1) - 1) * 2 ^ lowest.toNat.log2 := by
    rw [Nat.cast_mul, Nat.cast_sub Nat.one_le_two_pow]
    push_cast
    rfl
  have hbit : 1 ≤ m + 1 := by omega
  have hfits := (mask_lt_iff hbit).mpr (hm ▸ hmask)
  rw [← hcast] at hfits
  refine ⟨rfl, rfl, ?_, ?_, ?_, rfl, ?_, ?_, ?_, hn, ?_⟩
  · simp only [sizedHistogram, hm, hhalf, Nat.add_sub_cancel]
  · simp only [sizedHistogram, hm, Nat.add_sub_cancel, ← hcast]
    exact int32_natCast (by exact_mod_cast hfits)
  · simp only [sizedHistogram, hm, Nat.add_sub_cancel]
  · simp only [sizedHistogram, hm, hhalf, Nat.add_sub_cancel]
    push_cast
    rfl
  · omega
  · omega
  · omega

/-! ## Which parameters are sized correctly -/

/-- The largest value the loop can reach below `2 ^ 63`. -/
theorem mask_mul_pow {bits u k : ℕ} (hk : bits + u + k = 63) :
    ((2 : ℤ) ^ bits - 1) * 2 ^ u * 2 ^ k = 2 ^ 63 - 2 ^ (63 - bits) := by
  have hsub : 63 - bits = u + k := by omega
  rw [hsub, ← hk]
  ring

theorem mask_pos {bits : ℕ} (hbits : 1 ≤ bits) (u : ℕ) : (0 : ℤ) < (2 ^ bits - 1) * 2 ^ u := by
  have : (2 : ℤ) ^ 1 ≤ 2 ^ bits := pow_le_pow_right₀ (by norm_num) hbits
  exact mul_pos (by omega) (by positivity)

/-- The least number of doublings that reaches the highest value. -/
theorem exists_doublings {mask highest : ℤ} {last : ℕ} (hlast : highest ≤ mask * 2 ^ last) :
    ∃ k ≤ last, highest ≤ mask * 2 ^ k ∧ ∀ j < k, mask * 2 ^ j < highest := by
  have hreaches : ∃ k, highest ≤ mask * 2 ^ k := ⟨last, hlast⟩
  exact ⟨Nat.find hreaches, Nat.find_min' hreaches hlast, Nat.find_spec hreaches,
    fun j hj => not_le.mp (Nat.find_min hreaches hj)⟩

theorem SizedCorrectly.bounds {s : ℕ} (hs : 1 ≤ s) (hs5 : s ≤ 5) {lowest highest : ℤ}
    {h : HdrHistogram} (hmax : highest < 2 ^ 63)
    (hsized : SizedCorrectly lowest highest s h) :
    lowest.toNat.log2 + subBucketBits s ≤ 31 ∧ highest ≤ 2 ^ 63 - 2 ^ (63 - subBucketBits s) := by
  have hbits := subBucketBits_range hs hs5
  have hmade := hsized.made
  rw [hdrInit_eq_map hs hs5, Option.map_eq_some_iff] at hmade
  obtain ⟨buckets, hloop, rfl⟩ := hmade
  have hmask : int32 ((2 ^ subBucketBits s - 1) * 2 ^ lowest.toNat.log2) =
      (2 ^ subBucketBits s - 1) * 2 ^ lowest.toNat.log2 := hsized.mask
  have hfits : lowest.toNat.log2 + subBucketBits s ≤ 31 := by
    rw [← mask_lt_iff (by omega), ← hmask]
    exact int32_lt _
  refine ⟨hfits, ?_⟩
  by_contra hhigh
  -- the doubling at `k` stays below the highest value, and the next one leaves the type
  obtain ⟨k, hk⟩ : ∃ k, subBucketBits s + lowest.toNat.log2 + k = 63 :=
    ⟨63 - (subBucketBits s + lowest.toNat.log2), by omega⟩
  have hone : 1 ≤ subBucketBits s := by omega
  have hpos := mask_pos hone lowest.toNat.log2
  have hlast := mask_mul_pow hk
  rw [hmask] at hloop
  have hmore := lt_bucketsNeeded hpos hmax (k := k) (by rw [hlast]; omega) hloop
  have htrack := hsized.trackable (k + 1) (by simp only [sizedHistogram]; push_cast; omega)
  have hover : ((2 : ℤ) ^ subBucketBits s - 1) * 2 ^ lowest.toNat.log2 * 2 ^ (k + 1) =
      2 * (2 ^ 63 - 2 ^ (63 - subBucketBits s)) := by
    rw [← hlast]
    ring
  have hsmall : (2 : ℤ) ^ (63 - subBucketBits s) ≤ 2 ^ 58 :=
    pow_le_pow_right₀ (by norm_num) (by omega)
  simp only [sizedHistogram, hmask, hover] at htrack
  omega

theorem Coarse.covers (hc : Coarse m n u h) {v highest : ℤ} (hv : 0 ≤ v) (hle : v ≤ highest)
    (hrange : highest ≤ (2 ^ (m + 1) - 1) * 2 ^ u * 2 ^ (n - 1)) :
    ∃ i, countsIndexFor h v = some i ∧ 0 ≤ i ∧ i < h.countsLen := by
  obtain ⟨v, rfl⟩ := Int.eq_ofNat_of_zero_le hv
  have hpow : ((2 : ℤ) ^ (m + 1) - 1) * 2 ^ u * 2 ^ (n - 1) < 2 ^ (m + n + u) := by
    have hn := hc.buckets_pos
    have hexp : m + n + u = m + 1 + (u + (n - 1)) := by omega
    have hsplit : ((2 : ℤ) ^ (m + 1) - 1) * 2 ^ u * 2 ^ (n - 1) =
        2 ^ (m + 1 + (u + (n - 1))) - 2 ^ (u + (n - 1)) := by ring
    have hpos : (0 : ℤ) < 2 ^ (u + (n - 1)) := by positivity
    rw [hexp, hsplit]
    omega
  have hlt : v < 2 ^ (m + n + u) := by exact_mod_cast hle.trans_lt (hrange.trans_lt hpow)
  exact ⟨_, hc.countsIndexFor_natCast hlt, Int.natCast_nonneg _, hc.slot_lt hlt⟩

theorem sizedCorrectly_of_bounds {s : ℕ} (hs : 1 ≤ s) (hs5 : s ≤ 5) {lowest highest : ℤ}
    (hfits : lowest.toNat.log2 + subBucketBits s ≤ 31)
    (hhigh : highest ≤ 2 ^ 63 - 2 ^ (63 - subBucketBits s)) :
    ∃ h, SizedCorrectly lowest highest s h := by
  have hbits := subBucketBits_range hs hs5
  obtain ⟨last, hlast⟩ : ∃ k, subBucketBits s + lowest.toNat.log2 + k = 63 :=
    ⟨63 - (subBucketBits s + lowest.toNat.log2), by omega⟩
  obtain ⟨mask, hmask⟩ : ∃ t : ℤ, t = (2 ^ subBucketBits s - 1) * 2 ^ lowest.toNat.log2 :=
    ⟨_, rfl⟩
  have hpos : 0 < mask := by
    rw [hmask]
    exact mask_pos (by omega) _
  have hword : int32 mask = mask := by
    have hlt := (mask_lt_iff (by omega)).mpr hfits
    rw [← hmask] at hlt
    simp only [int32, Int.bmod_def]
    omega
  have htop : mask * 2 ^ last = 2 ^ 63 - 2 ^ (63 - subBucketBits s) := by
    rw [hmask]
    exact mask_mul_pow hlast
  -- the loop stops after the least number of doublings that reaches the highest value
  obtain ⟨k, hklast, hk, hbelow⟩ := exists_doublings (hhigh.trans htop.ge)
  have hmono : ∀ i j : ℕ, i ≤ j → mask * 2 ^ i ≤ mask * 2 ^ j := fun i j hij =>
    mul_le_mul_of_nonneg_left (pow_le_pow_right₀ (by norm_num) hij) hpos.le
  have hfit : mask * 2 ^ k < 2 ^ 63 := by
    have hle := hmono k last hklast
    have : (0 : ℤ) < 2 ^ (63 - subBucketBits s) := by positivity
    omega
  have hfuel : k < 65 := by omega
  have hloop := bucketsNeeded_eq hpos hk hbelow hfit hfuel 1
  have hcount : (1 : ℤ) + k = ((k + 1 : ℕ) : ℤ) := by
    push_cast
    ring
  have hcoarse : Coarse (subBucketBits s - 1) (k + 1) lowest.toNat.log2
      (sizedHistogram lowest highest s (k + 1 : ℕ)) :=
    sizedHistogram_coarse hs hs5 hfits (Nat.succ_pos k) (by omega)
  have hstored : (sizedHistogram lowest highest s (k + 1 : ℕ)).subBucketMask = mask := by
    simp only [sizedHistogram, ← hmask, hword]
  refine ⟨sizedHistogram lowest highest s (k + 1 : ℕ), ?_, ?_, ?_, ?_, ?_⟩
  · rw [hdrInit_eq_map hs hs5, ← hmask, hword, hloop, hcount, Option.map_some]
  · rw [hstored, hmask]
    rfl
  · intro j hj
    rw [hstored]
    have hjk : j ≤ k := by
      simp only [sizedHistogram] at hj
      omega
    exact (hmono j k hjk).trans_lt hfit
  · have hpow : 2 ^ (subBucketBits s - 1) ≤ 2 ^ 17 := Nat.pow_le_pow_right (by norm_num) (by omega)
    have hmul : (k + 1 + 1) * 2 ^ (subBucketBits s - 1) ≤ 65 * 2 ^ 17 :=
      Nat.mul_le_mul (by omega) hpow
    rw [hcoarse.len]
    omega
  · intro v hv hle
    refine hcoarse.covers hv hle (hk.trans_eq ?_)
    rw [hmask, Nat.sub_add_cancel (by omega), Nat.add_sub_cancel]

/-- `hdr_init` sizes the histogram correctly if and only if the lowest value leaves room for
    the digits of a bucket in 31 bits, and the highest one is no larger than the last doubling
    that fits 63 bits. -/
theorem hdrInit_iff {lowest highest : ℤ} {s : ℕ} (hlow : 1 ≤ lowest) (hmax : highest < 2 ^ 63)
    (hs : 1 ≤ s) (hs5 : s ≤ 5) :
    (∃ h, SizedCorrectly lowest highest s h) ↔
      lowest < 2 ^ (32 - subBucketBits s) ∧ highest ≤ 2 ^ 63 - 2 ^ (63 - subBucketBits s) := by
  have hbits := subBucketBits_range hs hs5
  have hdigits : lowest.toNat.log2 + subBucketBits s ≤ 31 ↔
      lowest < 2 ^ (32 - subBucketBits s) := by
    rw [log2_add_le_iff (by omega) (by omega)]
    have hpow : ((2 ^ (32 - subBucketBits s) : ℕ) : ℤ) = 2 ^ (32 - subBucketBits s) := by
      push_cast
      rfl
    omega
  rw [← hdigits]
  exact ⟨fun hsized => hsized.elim fun _ h => h.bounds hs hs5 hmax,
    fun h => sizedCorrectly_of_bounds hs hs5 h.1 h.2⟩

/-- The histograms of `wrk.c` are sized correctly. -/
theorem hdrInit_iff_maxLatency : ∃ h, SizedCorrectly 1 maxLatency 3 h := by
  have hbits : subBucketBits 3 = 11 := by decide
  refine (hdrInit_iff (by norm_num) (by decide) (by norm_num) (by norm_num)).mpr ?_
  rw [hbits]
  decide

/-- Up to the largest `int64_t`, the loop doubles past the type; with a unit of `2 ^ 21`, the
    mask leaves its 32 bits. -/
theorem hdrInit_overflows : (¬ ∃ h, SizedCorrectly 1 (2 ^ 63 - 1) 3 h) ∧
    ¬ ∃ h, SizedCorrectly (2 ^ 21) (2 ^ 40) 3 h := by
  have hbits : subBucketBits 3 = 11 := by decide
  constructor
  · rintro ⟨h, hsized⟩
    have hbounds := hsized.bounds (by norm_num) (by norm_num) (by norm_num)
    rw [hbits] at hbounds
    norm_num at hbounds
  · rintro ⟨h, hsized⟩
    have hbounds := hsized.bounds (by norm_num) (by norm_num) (by norm_num)
    have hlog : ((2 : ℤ) ^ 21).toNat.log2 = 21 := by decide
    rw [hbits, hlog] at hbounds
    omega

end Wrkx
