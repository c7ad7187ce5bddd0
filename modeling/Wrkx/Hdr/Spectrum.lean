import Wrkx.Hdr.SpectrumRows
import Wrkx.Hdr.Summary

/-!
# The percentile spectrum

A spectrum is complete when its percentiles, values and counts go up to 100%, each of its rows
on the first recorded slot that reaches it. Slots of `2 ^ 31` values and more do not have the
highest value that `size_of_equivalent_value_range` computes for them.

## Main results

- `spectrumEnds_iff` — on which histograms the spectrum is complete and ends
- `LatencyHistogram.hdrPercentilesPrint` — the spectrum that `print_hdr_latency` prints
-/

namespace Wrkx

open Word LogLinear HalvingTicks

variable {m n u t : ℕ} {h : HdrHistogram}

/-! ## Complete spectra -/

/-- The rows of a complete spectrum, the last of which stands for 100%. -/
structure SpectrumComplete (h : HdrHistogram) (rows : List HdrPercentileIter)
    (last : HdrPercentileIter) : Prop where
  below : ∀ row ∈ rows, row.percentile < 100
  to_below : ∀ row ∈ rows ++ [last], row.percentileToIterateTo < 100
  percentile_le : (rows ++ [last]).Pairwise fun a b => a.percentile ≤ b.percentile
  value_le : (rows ++ [last]).Pairwise fun a b =>
    a.iter.highestEquivalentValue ≤ b.iter.highestEquivalentValue
  count_le : (rows ++ [last]).Pairwise fun a b => a.iter.countToIndex ≤ b.iter.countToIndex
  on_slot : ∀ row ∈ rows, ∃ k, FirstReaching h row.percentile k ∧
    row.iter.countToIndex = prefixCount h (k + 1) ∧
    row.iter.highestEquivalentValue = slotTop h.subBucketHalfCountMagnitude h.unitMagnitude k
  last_percentile : last.percentile = 100
  last_count : last.iter.countToIndex = h.totalCount

/-- The percentile iterator ends, and its rows are a complete spectrum. -/
def SpectrumEnds (h : HdrHistogram) (ticksPerHalfDistance : ℤ) : Prop :=
  ∃ fuel rows last,
    percentileRows h fuel (hdrPercentileIterInit ticksPerHalfDistance) = some (rows ++ [last]) ∧
    SpectrumComplete h rows last

theorem slotBucket_mono (m : ℕ) {j k : ℕ} (hjk : j ≤ k) : slotBucket m j ≤ slotBucket m k :=
  Nat.sub_le_sub_right (Nat.div_le_div_right hjk) 1

theorem slotTop_mono (m u : ℕ) {j k : ℕ} (hjk : j ≤ k) : slotTop m u j ≤ slotTop m u k := by
  have hle : slotValue m (j + 1) * 2 ^ u ≤ slotValue m (k + 1) * 2 ^ u :=
    Nat.mul_le_mul_right _ ((slotValue_strictMono m).monotone (Nat.succ_le_succ hjk))
  have hcast : (slotValue m (j + 1) : ℤ) * 2 ^ u ≤ slotValue m (k + 1) * 2 ^ u := by
    exact_mod_cast hle
  exact sub_le_sub_right hcast 1

/-- What grows from row to row and up to the last one grows over the whole list. -/
theorem pairwise_rows {α β : Type*} [Preorder β] (row : ℕ → α) (last : α) (f : α → β) {d : ℕ}
    (hmono : ∀ i j, i ≤ j → f (row i) ≤ f (row j)) (hlast : ∀ i ≤ d, f (row i) ≤ f last) :
    ((List.range' 0 (d + 1)).map row ++ [last]).Pairwise fun a b => f a ≤ f b := by
  rw [List.pairwise_append]
  refine ⟨?_, List.pairwise_singleton _ _, ?_⟩
  · rw [List.pairwise_map]
    exact (List.pairwise_lt_range' (s := 0) (n := d + 1)).imp fun hlt => hmono _ _ hlt.le
  · intro a ha b hb
    obtain ⟨i, hi, rfl⟩ := List.mem_map.mp ha
    rw [List.mem_singleton.mp hb]
    have := List.mem_range'_1.mp hi
    exact hlast i (by omega)

section Complete

variable (hc : Coarse m n u h) (ht : Tallied h) (hpos : 0 < h.totalCount) (hticks : 0 < t)
  {F : ℕ → ℕ} (hF : ∀ i, FirstReaching h (tickPercentile t i) (F i))
include hc ht hpos hticks hF

omit hpos hticks in
/-- Up to a width of `2 ^ 30` of the last recorded slot, the value of a row is right. -/
theorem reportedRow_value (hwidth : u + slotBucket m (lastSlot h) ≤ 30) (i : ℕ) :
    (reportedRow m u h t (F i) i).iter.highestEquivalentValue = slotTop m u (F i) := by
  have hlt := lt_countsLen ht (hF i).recorded
  rw [hc.countsLen_toNat] at hlt
  have hle := slotBucket_mono m (le_lastSlot ht (hF i).recorded)
  exact (hc.highestEquivalentValue_eq_slotTop_iff hlt).mpr (by omega)

/-- The rows of a run are a complete spectrum. -/
theorem spectrumComplete_run (hwidth : u + slotBucket m (lastSlot h) ≤ 30) {d : ℕ}
    (hlast : F d = lastSlot h) :
    SpectrumComplete h ((List.range' 0 (d + 1)).map fun i => reportedRow m u h t (F i) i)
      (finalRow (reportedRow m u h t (lastSlot h) d)) := by
  have hvalue := reportedRow_value (t := t) hc ht hF hwidth
  have hmono : ∀ i j, i ≤ j → F i ≤ F j := fun i j hij =>
    (hF i).mono (hF j) ((tickPercentile_strictMono hticks).monotone hij)
  have hfinal : ∀ i, F i ≤ lastSlot h := fun i => le_lastSlot ht (hF i).recorded
  have hfinalValue : (finalRow (reportedRow m u h t (lastSlot h) d)).iter.highestEquivalentValue =
      slotTop m u (lastSlot h) := by
    rw [← hlast]
    exact hvalue d
  refine ⟨?_, ?_, pairwise_rows _ _ HdrPercentileIter.percentile ?_ ?_,
    pairwise_rows _ _ (fun p : HdrPercentileIter => p.iter.highestEquivalentValue) ?_ ?_,
    pairwise_rows _ _ (fun p : HdrPercentileIter => p.iter.countToIndex) ?_ ?_, ?_, rfl,
    prefixCount_lastSlot ht hpos⟩
  · intro row hrow
    obtain ⟨i, -, rfl⟩ := List.mem_map.mp hrow
    exact tickPercentile_lt hticks i
  · intro row hrow
    rcases List.mem_append.mp hrow with hrow | hrow
    · obtain ⟨i, -, rfl⟩ := List.mem_map.mp hrow
      exact tickPercentile_lt hticks (i + 1)
    · rw [List.mem_singleton.mp hrow]
      exact tickPercentile_lt hticks (d + 1)
  · exact fun i j hij => (tickPercentile_strictMono hticks).monotone hij
  · exact fun i _ => (tickPercentile_lt hticks i).le
  · intro i j hij
    simp only [hvalue]
    exact slotTop_mono m u (hmono i j hij)
  · intro i _
    rw [hvalue, hfinalValue]
    exact slotTop_mono m u (hfinal i)
  · exact fun i j hij => ht.prefixCount_mono (Nat.succ_le_succ (hmono i j hij))
  · exact fun i _ => ht.prefixCount_mono (Nat.succ_le_succ (hfinal i))
  · intro row hrow
    obtain ⟨i, -, rfl⟩ := List.mem_map.mp hrow
    rw [hc.magnitude, hc.unit]
    exact ⟨F i, hF i, rfl, hvalue i⟩

/-- A complete spectrum has a last recorded slot of width at most `2 ^ 30`, and its `int64_t`
    arithmetic fits up to the row on that slot. -/
theorem SpectrumEnds.bounds {d : ℕ} (hlast : F d = lastSlot h)
    (hnot : ∀ j < d, F j ≠ lastSlot h) (hends : SpectrumEnds h t) :
    u + slotBucket m (lastSlot h) ≤ 30 ∧ TickFits t d := by
  obtain ⟨fuel, rows, last, hrun, hcomplete⟩ := hends
  -- a run that ends goes through the row on the last recorded slot
  have hthrough := percentileRows_through hc ht hpos hticks hF (d := d) (i := 0)
    (by rwa [Nat.zero_add]) hrun
  rw [Nat.zero_add, hlast] at hthrough
  obtain ⟨hfits, hmem⟩ := hthrough
  refine ⟨?_, hfits⟩
  have hrow : reportedRow m u h t (lastSlot h) d ∈ rows := by
    rcases List.mem_append.mp hmem with hrow | hrow
    · exact hrow
    · -- a row below 100% is not the last one
      have hlow : (reportedRow m u h t (lastSlot h) d).percentile < 100 :=
        tickPercentile_lt hticks d
      rw [List.mem_singleton.mp hrow, hcomplete.last_percentile] at hlow
      exact absurd hlow (lt_irrefl _)
  obtain ⟨k, hk, -, hvalue⟩ := hcomplete.on_slot _ hrow
  have hslot : k = lastSlot h := by
    rw [← hlast]
    exact hk.unique (hF d)
  have hlen := lt_countsLen ht (lastSlot_recorded ht hpos)
  rw [hc.countsLen_toNat] at hlen
  rw [hslot, hc.magnitude, hc.unit] at hvalue
  exact (hc.highestEquivalentValue_eq_slotTop_iff hlen).mp hvalue

end Complete

theorem spectrumEnds_of_bounds (hc : Coarse m n u h) (ht : Tallied h) (hpos : 0 < h.totalCount)
    (hticks : 0 < t) (hint : t < 2 ^ 31) (hwidth : u + slotBucket m (lastSlot h) ≤ 30)
    (hshare : (t + 1) * h.totalCount < h.counts (lastSlot h) * t * 2 ^ (62 - t.log2)) :
    SpectrumEnds h t := by
  obtain ⟨F, d, hF, hlast, hnot, hfits⟩ := exists_rows ht hpos hticks hint
  exact ⟨d + 3, _, _,
    percentileRows_start hc ht hpos hticks hF hint hlast hnot (hfits.mpr hshare),
    spectrumComplete_run hc ht hpos hticks hF hwidth hlast⟩

/-- The spectrum of a histogram that is not empty is complete and ends if and only if the width
    of its last recorded slot fits an `int`, and the share of that slot is large enough for the
    `int64_t` products of ticks and half distances up to it. -/
theorem spectrumEnds_iff (hc : Coarse m n u h) (ht : Tallied h) (hpos : 0 < h.totalCount)
    {ticks : ℤ} (hticks : 1 ≤ ticks) (hint : ticks < 2 ^ 31) :
    SpectrumEnds h ticks ↔ u + slotBucket m (lastSlot h) ≤ 30 ∧
      (ticks + 1) * h.totalCount <
        h.counts (lastSlot h) * ticks * 2 ^ (62 - ticks.toNat.log2) := by
  obtain ⟨t, rfl⟩ := Int.eq_ofNat_of_zero_le (show 0 ≤ ticks by omega)
  have hone : 0 < t := by omega
  have hlt : t < 2 ^ 31 := by exact_mod_cast hint
  rw [Int.toNat_natCast]
  constructor
  · intro hends
    obtain ⟨F, d, hF, hlast, hnot, hfits⟩ := exists_rows ht hpos hone hlt
    have hbounds := hends.bounds hc ht hpos hone hF hlast hnot
    exact ⟨hbounds.1, hfits.mp hbounds.2⟩
  · exact fun hbounds => spectrumEnds_of_bounds hc ht hpos hone hlt hbounds.1 hbounds.2

theorem Shaped.coarse (hs : Shaped m n h) : Coarse m n 0 h := by
  refine ⟨hs.unit, hs.magnitude, hs.halfCount, ?_, hs.count, hs.buckets, hs.len, ?_,
    hs.magnitude_lt, hs.buckets_pos, hs.range_le⟩
  · rw [pow_zero, mul_one]
    exact hs.mask
  · have := hs.magnitude_lt
    omega

/-- One sample is a whole spectrum. -/
theorem spectrumEnds_iff_single : ∃ h, hdrRecordValue latencyHistogram 5 = some (true, h) ∧
    SpectrumEnds h 5 := by
  have hs := latencyHistogram_shaped
  have hrecord := hs.hdrRecordValues_natCast (v := 5) (by norm_num) 1
  have hslot : slot 10 5 = 5 := by decide +kernel
  rw [hslot] at hrecord
  have ht : Tallied (latencyHistogram.plus (Pi.single 5 1) 1) :=
    latencyHistogram_tallied.plus_single (by decide) (by norm_num)
  have hcounts : (latencyHistogram.plus (Pi.single 5 1) 1).counts = Pi.single 5 1 := zero_add _
  have hpos : 0 < (latencyHistogram.plus (Pi.single 5 1) 1).totalCount := by decide
  have hlast : lastSlot (latencyHistogram.plus (Pi.single 5 1) 1) = 5 := by
    have hne := lastSlot_recorded ht hpos
    rw [hcounts, Pi.single_apply] at hne
    by_contra hother
    exact hne (if_neg hother)
  refine ⟨_, hrecord, (spectrumEnds_iff (hs.plus _ _).coarse ht hpos (by norm_num)
    (by norm_num)).mpr ?_⟩
  rw [hlast, hcounts]
  decide +kernel

/-! ## A slot wider than an `int` -/

/-- A histogram that `hdr_init` makes for values up to `2 ^ 42`. -/
theorem hdrInit_wide : ∃ h, hdrInit 1 (2 ^ 42) 3 = some h ∧ Shaped 10 33 h ∧ Tallied h ∧
    h.counts = 0 ∧ h.totalCount = 0 := by
  have hbits : subBucketBits 3 = 11 := by decide
  have hmask : int32 ((2 ^ 11 - 1) * 2 ^ (1 : ℤ).toNat.log2) = 2047 := by decide
  have hlog : Nat.log2 1 = 0 := by decide
  have hword : int32 2047 = 2047 := by decide
  have hbuckets : bucketsNeeded (2 ^ 42) 65 2047 1 = some 33 := by decide +kernel
  refine ⟨sizedHistogram 1 (2 ^ 42) 3 33, ?_, ?_, ⟨fun _ => le_rfl, fun _ _ => rfl, ?_⟩, rfl, rfl⟩
  · rw [hdrInit_eq_map (by norm_num) (by norm_num), hbits, hmask, hbuckets, Option.map_some]
  · constructor <;> simp [sizedHistogram, hbits, hlog, hword]
  · simp [sizedHistogram, prefixCount]

section Neighbours

variable {k : ℕ} (hcounts : h.counts = Pi.single k 1 + Pi.single (k + 1) 1)
include hcounts

theorem neighbours_ne_zero (i : ℕ) : h.counts i ≠ 0 ↔ i = k ∨ i = k + 1 := by
  rw [hcounts, Pi.add_apply, Pi.single_apply, Pi.single_apply]
  split_ifs <;> omega

theorem lastSlot_neighbours (ht : Tallied h) (hpos : 0 < h.totalCount) : lastSlot h = k + 1 := by
  have hle := le_lastSlot ht ((neighbours_ne_zero hcounts (k + 1)).mpr (Or.inr rfl))
  have := (neighbours_ne_zero hcounts _).mp (lastSlot_recorded ht hpos)
  omega

theorem firstReaching_neighbours (ht : Tallied h) (hpos : 0 < h.totalCount) :
    FirstReaching h 0 k := by
  refine ⟨(neighbours_ne_zero hcounts k).mpr (Or.inl rfl), ?_, fun j hj hrec => ?_⟩
  · have hsum : (0 : ℚ) ≤ prefixCount h (k + 1) := by
      exact_mod_cast ht.prefixCount_mono (Nat.zero_le (k + 1))
    have htot : (0 : ℚ) ≤ h.totalCount := by exact_mod_cast hpos.le
    rw [share]
    positivity
  · have := (neighbours_ne_zero hcounts j).mp hrec
    omega

end Neighbours

/-- The first slot that is too wide for an `int` ends below the slot before it. -/
theorem Coarse.highestEquivalentValue_decreases (hc : Coarse m n u h) {k : ℕ}
    (hk : k + 1 < (n + 1) * 2 ^ m) (hnarrow : u + slotBucket m k = 30)
    (hwide : u + slotBucket m (k + 1) = 31) :
    highestEquivalentValue h (slotValue m (k + 1) * 2 ^ u) <
      highestEquivalentValue h (slotValue m k * 2 ^ u) := by
  have hnext : (slotValue m (k + 1) : ℤ) * 2 ^ u = slotValue m k * 2 ^ u + 2 ^ 30 := by
    rw [slotValue_succ, ← hnarrow, pow_add]
    push_cast
    ring
  have hwords : int32 (2 ^ 30) = 2 ^ 30 ∧ int32 (2 ^ 31) = -2 ^ 31 := by decide
  rw [hc.highestEquivalentValue_slotValue hk,
    hc.highestEquivalentValue_slotValue (Nat.lt_of_succ_lt hk), hnarrow, hwide, hnext,
    hwords.1, hwords.2]
  omega

/-- Two samples on neighbouring slots, the second of which is too wide for an `int`. -/
theorem spectrum_decreases_of_wide (hc : Coarse m n u h) (ht : Tallied h) {k : ℕ}
    (hcounts : h.counts = Pi.single k 1 + Pi.single (k + 1) 1) (htotal : h.totalCount = 2)
    (hnarrow : u + slotBucket m k = 30) (hwide : u + slotBucket m (k + 1) = 31) :
    (∃ fuel rows, percentileRows h fuel (hdrPercentileIterInit 5) = some rows ∧
      ¬ rows.Pairwise fun a b => a.iter.highestEquivalentValue ≤ b.iter.highestEquivalentValue) ∧
    ¬ SpectrumEnds h 5 := by
  have hpos : 0 < h.totalCount := by omega
  have hlastSlot := lastSlot_neighbours hcounts ht hpos
  have hrecorded := (neighbours_ne_zero hcounts (k + 1)).mpr (Or.inr rfl)
  have hlastCount : h.counts (k + 1) = 1 := by
    rw [hcounts, Pi.add_apply, Pi.single_eq_of_ne (by omega), Pi.single_eq_same, zero_add]
  obtain ⟨F, d, hF, hlast, hnot, hfits⟩ :=
    exists_rows (t := 5) ht hpos (by norm_num) (by norm_num)
  have hfirst : F 0 = k := by
    refine (hF 0).unique ?_
    rw [tickPercentile_zero (by norm_num)]
    exact firstReaching_neighbours hcounts ht hpos
  have hlog : Nat.log2 5 = 2 := by decide
  rw [htotal, hlastSlot, hlastCount, hlog] at hfits
  have hd : d ≠ 0 := by
    rintro rfl
    omega
  refine ⟨⟨d + 3, _, percentileRows_start hc ht hpos (by norm_num) hF (by norm_num) hlast hnot
    (hfits.mpr (by norm_num)), ?_⟩, fun hends => ?_⟩
  · intro hpairwise
    -- row 0 stands on the narrow slot, the last one before 100% on the wide slot
    obtain ⟨e, rfl⟩ := Nat.exists_eq_succ_of_ne_zero hd
    rw [List.range'_succ, List.map_cons, List.cons_append, List.pairwise_cons] at hpairwise
    have hmem : e + 1 ∈ List.range' (0 + 1) (e + 1) := List.mem_range'_1.mpr (by omega)
    have hle := hpairwise.1 (reportedRow m u h 5 (F (e + 1)) (e + 1))
      (List.mem_append_left _ (List.mem_map.mpr ⟨e + 1, hmem, rfl⟩))
    have hlen : k + 1 < (n + 1) * 2 ^ m := by
      rw [← hc.countsLen_toNat]
      exact lt_countsLen ht hrecorded
    rw [hfirst, hlast, hlastSlot] at hle
    exact absurd hle (not_le.mpr (hc.highestEquivalentValue_decreases hlen hnarrow hwide))
  · have hbounds := SpectrumEnds.bounds hc ht hpos (by norm_num) hF hlast hnot hends
    rw [hlastSlot] at hbounds
    omega

/-- Two values on the two sides of `2 ^ 41`: the spectrum goes down from `2 ^ 41 - 1` to
    `2 ^ 41 - 2 ^ 31 - 1`. -/
theorem spectrum_decreases : ∃ h h₁ h₂, hdrInit 1 (2 ^ 42) 3 = some h ∧
    hdrRecordValue h (2 ^ 41 - 1) = some (true, h₁) ∧
    hdrRecordValue h₁ (2 ^ 41) = some (true, h₂) ∧
    (∃ fuel rows, percentileRows h₂ fuel (hdrPercentileIterInit 5) = some rows ∧
      ¬ rows.Pairwise fun a b =>
        a.iter.highestEquivalentValue ≤ b.iter.highestEquivalentValue) ∧
    ¬ SpectrumEnds h₂ 5 := by
  obtain ⟨h, hinit, hs, ht, hcounts, htotal⟩ := hdrInit_wide
  have hslots : slot 10 (2 ^ 41 - 1) = 32767 ∧ slot 10 (2 ^ 41) = 32768 := by decide +kernel
  have hbuckets : slotBucket 10 32767 = 30 ∧ slotBucket 10 32768 = 31 := by decide
  have hfirst := hs.hdrRecordValues_natCast (v := 2 ^ 41 - 1) (by norm_num) 1
  have hsecond := (hs.plus (Pi.single 32767 1) 1).hdrRecordValues_natCast (v := 2 ^ 41)
    (by norm_num) 1
  have hlen : h.countsLen.toNat = 34816 := hs.countsLen_toNat
  rw [hslots.1] at hfirst
  rw [hslots.2] at hsecond
  have hlen' : (h.plus (Pi.single 32767 1) 1).countsLen.toNat = 34816 := hlen
  have htallied : Tallied ((h.plus (Pi.single 32767 1) 1).plus (Pi.single 32768 1) 1) :=
    (ht.plus_single (by omega) zero_le_one).plus_single (by omega) zero_le_one
  refine ⟨h, _, _, hinit, hfirst, hsecond,
    spectrum_decreases_of_wide ((hs.plus _ _).plus _ _).coarse htallied (k := 32767) ?_ ?_ ?_ ?_⟩
  · rw [plus_counts, plus_counts, hcounts, zero_add]
  · rw [plus_totalCount, plus_totalCount, htotal]
    norm_num
  · rw [hbuckets.1]
  · rw [hbuckets.2]

/-! ## The printed spectrum -/

theorem percentileLine_infinite_iff (valueScale : ℚ) (p : HdrPercentileIter) :
    (percentileLine valueScale p).invertedPercentile = none ↔ p.percentile = 100 := by
  have hone : p.percentile / 100 = 1 ↔ p.percentile = 100 := div_eq_one_iff_eq (by norm_num)
  simp [percentileLine, hone]

/-- Of two printed lines, the later one has the larger numbers. -/
def PercentileLine.Before (a b : PercentileLine) : Prop :=
  a.value ≤ b.value ∧ a.percentile ≤ b.percentile ∧ a.totalCount ≤ b.totalCount

theorem SpectrumComplete.lines {rows : List HdrPercentileIter} {last : HdrPercentileIter}
    (hcomplete : SpectrumComplete h rows last) {valueScale : ℚ} (hscale : 0 < valueScale) :
    ((rows ++ [last]).map (percentileLine valueScale)).Pairwise PercentileLine.Before := by
  rw [List.pairwise_map]
  refine (hcomplete.value_le.and (hcomplete.percentile_le.and hcomplete.count_le)).imp ?_
  rintro a b ⟨hvalue, hpercentile, hcount⟩
  refine ⟨?_, ?_, hcount⟩
  · have hcast : (a.iter.highestEquivalentValue : ℚ) ≤ b.iter.highestEquivalentValue := by
      exact_mod_cast hvalue
    exact div_le_div_of_nonneg_right hcast hscale.le
  · exact div_le_div_of_nonneg_right hpercentile (by norm_num)

/-- The slots of a latency histogram are narrow, so that its spectrum with five ticks is
    complete as long as it holds fewer than `2 ^ 59` samples. -/
theorem LatencyHistogram.spectrumEnds (hl : LatencyHistogram h) (hpos : 0 < h.totalCount)
    (hsmall : h.totalCount < 2 ^ 59) : SpectrumEnds h 5 := by
  have hne := lastSlot_recorded hl.tallied hpos
  have hcount : 1 ≤ h.counts (lastSlot h) := by
    have := hl.tallied.nonneg (lastSlot h)
    omega
  have hlen := lt_countsLen hl.tallied hne
  rw [hl.shaped.countsLen_toNat] at hlen
  have hbucket := slotBucket_lt (by norm_num) hlen
  have hlog : Nat.log2 5 = 2 := by decide
  refine spectrumEnds_of_bounds hl.shaped.coarse hl.tallied hpos (t := 5) (by norm_num)
    (by norm_num) (by omega) ?_
  rw [hlog]
  push_cast
  omega

/-- What `print_hdr_latency` prints of such a histogram: its lines go up, and only the last one
    has an infinite column. -/
theorem LatencyHistogram.hdrPercentilesPrint (hl : LatencyHistogram h) (hpos : 0 < h.totalCount)
    (hsmall : h.totalCount < 2 ^ 59) (sqrt : ℚ → ℚ) :
    ∃ fuel lines last footer,
      Wrkx.hdrPercentilesPrint sqrt h 5 1000 fuel = some (lines ++ [last], footer) ∧
      (lines ++ [last]).Pairwise PercentileLine.Before ∧
      (∀ line ∈ lines, line.invertedPercentile ≠ none) ∧
      last.invertedPercentile = none ∧ last.totalCount = h.totalCount := by
  obtain ⟨fuel, rows, last, hrun, hcomplete⟩ := hl.spectrumEnds hpos hsmall
  obtain ⟨mean, hmean⟩ := Option.isSome_iff_exists.mp (hdrMean_isSome hl.shaped hl.tallied)
  obtain ⟨dev, hdev⟩ := Option.isSome_iff_exists.mp (hdrStddev_isSome hl.shaped hl.tallied sqrt)
  obtain ⟨max, hmax⟩ := Option.isSome_iff_exists.mp (hdrMax_isSome hl.shaped hl.tallied)
  have hscale : (0 : ℚ) < 1000 := by norm_num
  have hlines := hcomplete.lines hscale
  rw [List.map_append, List.map_singleton] at hlines
  refine ⟨fuel, rows.map (percentileLine 1000), percentileLine 1000 last,
    percentileFooter h 1000 mean dev max, ?_, hlines, ?_, ?_, hcomplete.last_count⟩
  · simp only [Wrkx.hdrPercentilesPrint, hrun, hmean, hdev, hmax, Option.bind_eq_bind,
      Option.bind_some, List.map_append, List.map_singleton]
    rfl
  · intro line hline
    obtain ⟨row, hrow, rfl⟩ := List.mem_map.mp hline
    rw [ne_eq, percentileLine_infinite_iff]
    exact (hcomplete.below row hrow).ne
  · rw [percentileLine_infinite_iff]
    exact hcomplete.last_percentile

end Wrkx
