import Wrkx.Base.OrderStatistic
import Wrkx.Hdr.Equivalent
import Wrkx.Hdr.Summary
import Wrkx.Stats.Stats

/-!
# Order statistics of a latency histogram

The functions that look for a position in the order of the recorded values:
`hdr_value_at_percentile`, `hdr_min`, `hdr_max`, and `script_stats_get`, which shows a
histogram to the script as the sorted list of its samples. Each of them finds the slot of an
order statistic by adding up the counts of the slots.

## Main results

- `RecordsValues.prefixCount_eq` — the counts of the first slots, in terms of the values
- `RecordsValues.valueAtCount_eq` — the scan for a count finds the order statistic
- `showsSamples_iff` — up to which length `script_stats_get` shows every sample
- `orderStatistics_iff` — all results at once
-/

namespace Wrkx

open Word LogLinear OrderStatistic

variable {h : HdrHistogram} {values : List ℕ}

/-! ## Counting slots -/

theorem prefixCount_tally_single (i k : ℕ) (c : ℤ) :
    ∑ j ∈ Finset.range k, (Pi.single i c : ℕ → ℤ) j = if i < k then c else 0 := by
  rw [Finset.sum_pi_single']
  simp

/-- The counts of the first `k` slots are the values in those slots. -/
theorem RecordsValues.prefixCount_eq (hr : RecordsValues h values) (k : ℕ) :
    prefixCount h k = (values.countP fun v => slot 10 v < k : ℕ) := by
  rw [prefixCount, hr.counts]
  clear hr
  induction values with
  | nil => simp
  | cons v values ih =>
    have hadd : ∀ j, tally 10 (v :: values) j =
        (Pi.single (slot 10 v) 1 : ℕ → ℤ) j + tally 10 values j := by
      simp
    rw [Finset.sum_congr rfl fun j _ => hadd j, Finset.sum_add_distrib, ih,
      prefixCount_tally_single, List.countP_cons]
    by_cases hlt : slot 10 v < k <;> simp [hlt, add_comm]

/-- The first `k` slots hold at least `c` values when the `c`-th smallest value is in them. -/
theorem RecordsValues.le_prefixCount_iff (hr : RecordsValues h values) {c : ℕ} (hc : 0 < c)
    (hlength : c ≤ values.length) (k : ℕ) :
    (c : ℤ) ≤ prefixCount h k ↔ slot 10 (kth values c) < k := by
  rw [hr.prefixCount_eq, Nat.cast_le, le_countP_iff hc hlength]
  · simp
  · intro a b hab hb
    have hmono := slot_mono 10 hab
    have hslot : slot 10 b < k := by simpa using hb
    simpa using hmono.trans_lt hslot

/-! ## The scan for a count -/

theorem kth_lt (hv : ∀ v ∈ values, v ≤ maxLatency) {i : ℕ} (hi : 0 < i)
    (hle : i ≤ values.length) : kth values i < 2 ^ (10 + 31) :=
  (hv _ (kth_mem hi hle)).trans_lt (maxLatency_lt.trans (by norm_num))

/-- One round of the scan: the order statistic lies in the first slot at which the count is
    reached. -/
theorem RecordsValues.valueAtCount_step (hr : RecordsValues h values)
    (hv : ∀ v ∈ values, v ≤ maxLatency) {c : ℕ} (hc : 0 < c) (hlength : c ≤ values.length)
    {k : ℕ} (hbefore : prefixCount h k < c) :
    Round (fun total => total = prefixCount h (k + 1) ∧ prefixCount h (k + 1) < c)
      (· = highestEquivalentValue h (kth values c : ℕ))
      (hdrValueAtPercentileStep h c (slotIter 10 h (k + 1)) (prefixCount h k)) := by
  have hcount : (slotIter 10 h (k + 1)).countAtIndex = h.counts k := rfl
  have hvalue : (slotIter 10 h (k + 1)).valueFromIndex = (slotValue 10 k : ℕ) := rfl
  rw [hdrValueAtPercentileStep, hcount, ← prefixCount_succ, hvalue]
  by_cases hfound : (c : ℤ) ≤ prefixCount h (k + 1)
  · have hwide := kth_lt hv hc hlength
    have hslot : slot 10 (kth values c) = k := by
      have hlt := (hr.le_prefixCount_iff hc hlength (k + 1)).mp hfound
      have hge := mt (hr.le_prefixCount_iff hc hlength k).mpr (not_le.mpr hbefore)
      omega
    have hsame := hr.shaped.highestEquivalentValue_slotValue hwide
    rw [hslot] at hsame
    rw [if_pos hfound]
    exact .leave hsame
  · rw [if_neg hfound]
    exact .next ⟨rfl, not_le.mp hfound⟩

/-- The scan for a count finds the order statistic. -/
theorem RecordsValues.valueAtCount_eq (hr : RecordsValues h values)
    (hv : ∀ v ∈ values, v ≤ maxLatency) {c : ℕ} (hc : 0 < c) (hlength : c ≤ values.length) :
    overSlots h (hdrValueAtPercentileStep h c) (fun _ => 0) 0 =
      some (highestEquivalentValue h (kth values c : ℕ)) := by
  have hstart : (0 : ℤ) = prefixCount h 0 ∧ prefixCount h 0 < c := by
    rw [prefixCount_zero]
    exact ⟨rfl, by exact_mod_cast hc⟩
  have hstep : ∀ k total, prefixCount h k < h.totalCount →
      total = prefixCount h k ∧ prefixCount h k < c →
      Round (fun total => total = prefixCount h (k + 1) ∧ prefixCount h (k + 1) < c)
        (· = highestEquivalentValue h (kth values c : ℕ))
        (hdrValueAtPercentileStep h c (slotIter 10 h (k + 1)) total) := by
    rintro k total - ⟨rfl, hbefore⟩
    exact hr.valueAtCount_step hv hc hlength hbefore
  have hdone : ∀ k total, h.totalCount ≤ prefixCount h k →
      total = prefixCount h k ∧ prefixCount h k < c →
      (0 : ℤ) = highestEquivalentValue h (kth values c : ℕ) := by
    -- the scan never gets to the end
    rintro k total htotal ⟨-, hbefore⟩
    rw [hr.total] at htotal
    omega
  have hscan := overSlots_spec (hdrValueAtPercentileStep h c) (fun _ => 0)
    (fun k total => total = prefixCount h k ∧ prefixCount h k < c)
    (· = highestEquivalentValue h (kth values c : ℕ)) hr.shaped hr.tallied hstart hstep hdone
  obtain ⟨result, hresult, heq⟩ := hscan
  rw [hresult, heq]

/-! ## Percentiles -/

/-- The position that a percentile asks for, in a list of `length` values. -/
def rank (length : ℕ) (percentile : ℚ) : ℕ :=
  (max 1 ⌊min percentile 100 * length / 100 + 1 / 2⌋).toNat

theorem rank_pos (length : ℕ) (percentile : ℚ) : 0 < rank length percentile := by
  rw [rank, Int.lt_toNat]
  exact lt_max_of_lt_left Int.one_pos

theorem rank_mono (length : ℕ) {p q : ℚ} (hpq : p ≤ q) : rank length p ≤ rank length q := by
  refine Int.toNat_le_toNat (max_le_max le_rfl (Int.floor_mono ?_))
  have hmin : min p 100 ≤ min q 100 := min_le_min hpq le_rfl
  gcongr

theorem rank_le_length {length : ℕ} (hlength : 0 < length) (percentile : ℚ) :
    rank length percentile ≤ length := by
  have hfloor : ⌊min percentile 100 * length / 100 + 1 / 2⌋ ≤ (length : ℤ) := by
    rw [← Int.lt_add_one_iff, Int.floor_lt]
    have hmin : min percentile 100 ≤ 100 := min_le_right _ _
    have hmul : min percentile 100 * length ≤ 100 * length := by gcongr
    push_cast
    linarith
  rw [rank, Int.toNat_le]
  exact max_le (by exact_mod_cast hlength) hfloor

/-- The percentile that `script_stats_get` computes for an index asks for that position. -/
theorem rank_index {length : ℕ} (hlength : 0 < length) {index : ℤ} (hindex : index ≤ length) :
    rank length (100 * index / length) = (max 1 index).toNat := by
  have hpos : (0 : ℚ) < length := by exact_mod_cast hlength
  have hle : 100 * (index : ℚ) / length ≤ 100 := by
    rw [div_le_iff₀ hpos]
    have : (index : ℚ) ≤ length := by exact_mod_cast hindex
    linarith
  have hexact : 100 * (index : ℚ) / length * length / 100 + 1 / 2 = index + 1 / 2 := by
    field_simp
  have hfloor : ⌊(index : ℚ) + 1 / 2⌋ = index := by
    rw [Int.floor_eq_iff]
    constructor <;> linarith
  rw [rank, min_eq_left hle, hexact, hfloor]

/-- The count that `hdr_value_at_percentile` looks for. -/
theorem truncate_count_eq (length : ℕ) (percentile : ℚ) :
    (if 1 < truncate ((if percentile < 100 then percentile else 100) / 100 * length + 1 / 2) then
      truncate ((if percentile < 100 then percentile else 100) / 100 * length + 1 / 2) else 1) =
        (rank length percentile : ℤ) := by
  have hmin : (if percentile < 100 then percentile else 100) = min percentile 100 := by
    rcases lt_or_ge percentile 100 with hlt | hge
    · rw [if_pos hlt, min_eq_left hlt.le]
    · rw [if_neg (not_lt.mpr hge), min_eq_right hge]
  rw [hmin, div_mul_eq_mul_div, rank, Int.toNat_of_nonneg (by omega)]
  generalize min percentile 100 * length / 100 + 1 / 2 = x
  by_cases hx : 0 ≤ x
  · rw [truncate, if_pos hx]
    omega
  · -- below zero both roundings are at most zero
    have hceil : ⌈x⌉ ≤ 0 := Int.ceil_le.mpr (by push_cast; exact (not_le.mp hx).le)
    have hfloor : ⌊x⌋ ≤ ⌈x⌉ := Int.floor_le_ceil x
    rw [truncate, if_neg hx]
    omega

theorem RecordsValues.hdrValueAtPercentile_eq (hr : RecordsValues h values) (hne : values ≠ [])
    (hv : ∀ v ∈ values, v ≤ maxLatency) (percentile : ℚ) :
    hdrValueAtPercentile h percentile =
      some (highestEquivalentValue h (kth values (rank values.length percentile) : ℕ)) := by
  have hlength := List.length_pos_iff.mpr hne
  rw [hdrValueAtPercentile, hr.total, Int.cast_natCast]
  simp only [truncate_count_eq]
  exact hr.valueAtCount_eq hv (rank_pos _ _) (rank_le_length hlength _)

/-! ## The smallest and the largest value -/

/-- `hdr_min` leaves its loop at the first slot that holds a value. -/
theorem RecordsValues.hdrMin_eq (hr : RecordsValues h values) (hne : values ≠ [])
    (hv : ∀ v ∈ values, v ≤ maxLatency) :
    hdrMin h = some (lowestEquivalentValue h (kth values 1 : ℕ)) := by
  have hlength := List.length_pos_iff.mpr hne
  have hlow : (slotValue 10 (slot 10 (kth values 1)) : ℤ) =
      lowestEquivalentValue h (kth values 1 : ℕ) :=
    (hr.shaped.lowestEquivalentValue
      ((kth_lt hv Nat.one_pos hlength).trans hr.shaped.two_pow_lt)).symm
  have hstep : ∀ k min, prefixCount h k < h.totalCount → min = 0 ∧ prefixCount h k < 1 →
      Round (fun min => min = 0 ∧ prefixCount h (k + 1) < 1)
        (· = lowestEquivalentValue h (kth values 1 : ℕ))
        (hdrMinStep (slotIter 10 h (k + 1)) min) := by
    rintro k min - ⟨rfl, hbefore⟩
    have hvalue : (slotIter 10 h (k + 1)).valueFromIndex = (slotValue 10 k : ℕ) := rfl
    rw [hdrMinStep, slotIter_countToIndex, hvalue]
    have hnonneg : 0 ≤ prefixCount h (k + 1) := hr.tallied.prefixCount_mono (Nat.zero_le _)
    by_cases hempty : prefixCount h (k + 1) = 0
    · rw [if_neg (by simp [hempty])]
      exact .next ⟨rfl, by omega⟩
    · have hfound := (hr.le_prefixCount_iff Nat.one_pos hlength (k + 1)).mp (by push_cast; omega)
      have hge := mt (hr.le_prefixCount_iff Nat.one_pos hlength k).mpr
        (by push_cast; exact not_le.mpr hbefore)
      have hslot : slot 10 (kth values 1) = k := by omega
      rw [if_pos ⟨hempty, rfl⟩, ← hlow, hslot]
      exact .leave rfl
  have hdone : ∀ k min, h.totalCount ≤ prefixCount h k → min = 0 ∧ prefixCount h k < 1 →
      (id min : ℤ) = lowestEquivalentValue h (kth values 1 : ℕ) := by
    rintro k min htotal ⟨-, hbefore⟩
    rw [hr.total] at htotal
    omega
  obtain ⟨result, hresult, heq⟩ := overSlots_spec hdrMinStep id
    (fun k min => min = 0 ∧ prefixCount h k < 1)
    (· = lowestEquivalentValue h (kth values 1 : ℕ)) hr.shaped hr.tallied ⟨rfl, by simp⟩ hstep hdone
  rw [hdrMin, hresult, heq]

/-- After `k` slots `max` stands for the last of them that holds a value. -/
def MaxAt (h : HdrHistogram) (k : ℕ) (max : ℤ) : Prop :=
  ∀ i < k, h.counts i ≠ 0 → (∀ j < k, i < j → h.counts j = 0) →
    max = highestEquivalentValue h (slotValue 10 i)

theorem MaxAt.step {k : ℕ} {max : ℤ} (hmax : MaxAt h k max) :
    MaxAt h (k + 1) (hdrMaxStep (slotIter 10 h (k + 1)) max) := by
  have hcount : (slotIter 10 h (k + 1)).countAtIndex = h.counts k := rfl
  intro i hi hne hlast
  rw [hdrMaxStep, hcount]
  rcases Nat.lt_succ_iff_lt_or_eq.mp hi with hlt | rfl
  · rw [if_neg (not_not.mpr (hlast k (Nat.lt_succ_self k) hlt))]
    exact hmax i hlt hne fun j hj => hlast j (by omega)
  · rw [if_pos hne]
    rfl

theorem RecordsValues.counts_ne_zero (hr : RecordsValues h values) {v : ℕ} (hv : v ∈ values) :
    h.counts (slot 10 v) ≠ 0 := by
  have hsplit := prefixCount_succ h (slot 10 v)
  obtain ⟨c, hc, hlength, hkth⟩ := exists_kth hv
  have hreached := (hr.le_prefixCount_iff hc hlength (slot 10 v + 1)).mpr (by rw [hkth]; omega)
  have hbefore := mt (hr.le_prefixCount_iff hc hlength (slot 10 v)).mp (by rw [hkth]; omega)
  omega

theorem RecordsValues.counts_eq_zero (hr : RecordsValues h values) {i : ℕ}
    (hi : slot 10 (kth values values.length) < i) (hne : values ≠ []) : h.counts i = 0 := by
  have hlength := List.length_pos_iff.mpr hne
  have hall := (hr.le_prefixCount_iff hlength le_rfl i).mpr hi
  exact hr.tallied.counts_eq_zero (hr.total ▸ hall) le_rfl

/-- `hdr_max` returns to the first value of the last slot that holds a value. -/
theorem RecordsValues.hdrMax_eq (hr : RecordsValues h values) (hne : values ≠ [])
    (hv : ∀ v ∈ values, v ≤ maxLatency) :
    hdrMax h = some (lowestEquivalentValue h (kth values values.length : ℕ)) := by
  have hlength := List.length_pos_iff.mpr hne
  have hmem := kth_mem hlength (le_refl values.length)
  have hwide := kth_lt hv hlength le_rfl
  have hdone : ∀ k max, h.totalCount ≤ prefixCount h k → MaxAt h k max →
      id max = highestEquivalentValue h (kth values values.length : ℕ) := by
    intro k max htotal hmax
    rw [hr.total] at htotal
    have hlast := (hr.le_prefixCount_iff hlength le_rfl k).mp htotal
    rw [id, hmax _ hlast (hr.counts_ne_zero hmem) fun j _ hj => hr.counts_eq_zero hj hne]
    exact hr.shaped.highestEquivalentValue_slotValue hwide
  obtain ⟨result, hresult, heq⟩ := overSlots_spec
    (fun iter max => .inl (hdrMaxStep iter max)) id (MaxAt h)
    (· = highestEquivalentValue h (kth values values.length : ℕ)) hr.shaped hr.tallied
    (fun i hi => absurd hi (Nat.not_lt_zero i)) (fun k max _ hmax => .next hmax.step) hdone
  rw [hdrMax, hresult, heq, Option.map_some, hr.shaped.lowestEquivalentValue_highest hwide
    ((slotValue_succ_maxLatency (hv _ hmem)).trans (by norm_num))]

/-! ## The samples shown to the script -/

theorem scriptStatsLen_eq (hr : RecordsValues h values) {s : Stats} (hhist : s.histogram = some h) :
    scriptStatsLen s = values.length := by
  simp only [scriptStatsLen, hhist]
  exact hr.total

/-- `script_stats_get` looks the index up as an `int`. -/
theorem RecordsValues.scriptStatsGet_eq (hr : RecordsValues h values) (hne : values ≠ [])
    (hv : ∀ v ∈ values, v ≤ maxLatency) (sqrt : ℚ → ℚ) {s : Stats} (hhist : s.histogram = some h)
    {i : ℕ} (hi : i ≤ values.length) :
    scriptStatsGet sqrt s (.number i) = some (.number (some
      (highestEquivalentValue h (kth values (max 1 (int32 i)).toNat : ℕ)))) := by
  have hindex : int32 i ≤ values.length :=
    (int32_le_natCast i).trans (by exact_mod_cast hi)
  simp only [scriptStatsGet, hhist, truncate_natCast, hr.total, Int.cast_natCast,
    hr.hdrValueAtPercentile_eq hne hv, Option.map_some]
  rw [rank_index (List.length_pos_iff.mpr hne) hindex]

theorem max_int32_eq {i : ℕ} (hi : 1 ≤ i) (hlt : i < 2 ^ 31) : (max 1 (int32 i)).toNat = i := by
  rw [int32_natCast hlt]
  omega

/-- The position at which `script_stats_get` looks is one of the first `2 ^ 31 - 1`. -/
theorem max_int32_bounds {i length : ℕ} (hi : 1 ≤ i) (hle : i ≤ length) :
    0 < (max 1 (int32 i)).toNat ∧ (max 1 (int32 i)).toNat ≤ length ∧
      (max 1 (int32 i)).toNat < 2 ^ 31 := by
  have hindex := int32_le_natCast i
  have hlt := int32_lt i
  omega

/-- Every sample of a list is shown as the order statistic of its index. -/
def ShowsSamples (h : HdrHistogram) (values : List ℕ) : Prop :=
  ∀ sqrt s, s.histogram = some h → ∀ i : ℕ, 1 ≤ i → i ≤ values.length →
    scriptStatsGet sqrt s (.number i) =
      some (.number (some (highestEquivalentValue h (kth values i : ℕ))))

/-- All values share one slot. -/
def OneSlot (h : HdrHistogram) (values : List ℕ) : Prop :=
  ∀ v ∈ values, ∀ w ∈ values, lowestEquivalentValue h v = lowestEquivalentValue h w

section

variable (hr : RecordsValues h values) (hne : values ≠ []) (hv : ∀ v ∈ values, v ≤ maxLatency)
include hr hne hv

/-- A sample is shown right when the `int` of its index leads to the same slot. -/
theorem showsSamples_iff_slot : ShowsSamples h values ↔ ∀ i, 1 ≤ i → i ≤ values.length →
    slot 10 (kth values (max 1 (int32 i)).toNat) = slot 10 (kth values i) := by
  have hat : ∀ sqrt s, s.histogram = some h → ∀ i : ℕ, 1 ≤ i → i ≤ values.length →
      (scriptStatsGet sqrt s (.number i) =
        some (.number (some (highestEquivalentValue h (kth values i : ℕ)))) ↔
      slot 10 (kth values (max 1 (int32 i)).toNat) = slot 10 (kth values i)) := by
    intro sqrt s hhist i hi hle
    obtain ⟨hpos, hbound, -⟩ := max_int32_bounds hi hle
    rw [hr.scriptStatsGet_eq hne hv sqrt hhist hle, Option.some.injEq, StatsField.number.injEq,
      Option.some.injEq, Int.cast_inj]
    exact hr.shaped.highestEquivalentValue_eq_iff (kth_lt hv hpos hbound)
      (kth_lt hv hi hle)
  constructor
  · intro hshows i hi hle
    have hs := hshows id { statsAlloc 10 with histogram := some h } rfl i hi hle
    exact (hat id _ rfl i hi hle).mp hs
  · intro hslot sqrt s hhist i hi hle
    exact (hat sqrt s hhist i hi hle).mpr (hslot i hi hle)

/-- Indices that do not fit an `int` wrap around. -/
theorem showsSamples_iff : ShowsSamples h values ↔
    values.length < 2 ^ 31 ∨ OneSlot h values := by
  have h63 : ∀ v ∈ values, v < 2 ^ 63 := fun v hmem =>
    (hv v hmem).trans_lt (maxLatency_lt.trans (by norm_num))
  rw [showsSamples_iff_slot hr hne hv]
  constructor
  · intro hslot
    by_cases hshort : values.length < 2 ^ 31
    · exact Or.inl hshort
    · -- the first index that wraps leads to the first sample, so that all up to it share a slot
      have hwrap : (max 1 (int32 (2 ^ 31 : ℕ))).toNat = 1 := by decide
      have hfirst : slot 10 (kth values 1) = slot 10 (kth values (2 ^ 31)) := by
        have hat := hslot (2 ^ 31) (by norm_num) (not_lt.mp hshort)
        rwa [hwrap] at hat
      have hlow : ∀ i, 1 ≤ i → i ≤ 2 ^ 31 → slot 10 (kth values i) = slot 10 (kth values 1) := by
        intro i hi hle
        have hfirst' : kth values 1 ≤ kth values i := kth_mono Nat.one_pos hi (by omega)
        have hwrapped : kth values i ≤ kth values (2 ^ 31) := kth_mono hi hle (by omega)
        have hge := slot_mono 10 hfirst'
        have hle := slot_mono 10 hwrapped
        omega
      have hall : ∀ i, 1 ≤ i → i ≤ values.length →
          slot 10 (kth values i) = slot 10 (kth values 1) := by
        intro i hi hle
        obtain ⟨hpos, -, hbound⟩ := max_int32_bounds hi hle
        rw [← hslot i hi hle]
        exact hlow _ hpos hbound.le
      refine Or.inr fun v hvm w hwm => ?_
      obtain ⟨i, hi, hile, rfl⟩ := exists_kth hvm
      obtain ⟨j, hj, hjle, rfl⟩ := exists_kth hwm
      rw [hr.shaped.lowestEquivalentValue_eq_iff (h63 _ hvm) (h63 _ hwm), hall i hi hile,
        hall j hj hjle]
  · rintro (hshort | hone) i hi hle
    · rw [max_int32_eq hi (by omega)]
    · obtain ⟨hpos, hbound, -⟩ := max_int32_bounds hi hle
      have hmem := kth_mem hpos hbound
      have hmem' : kth values i ∈ values := kth_mem hi hle
      exact (hr.shaped.lowestEquivalentValue_eq_iff (h63 _ hmem) (h63 _ hmem')).mp
        (hone _ hmem _ hmem')

end

/-! ## All order statistics -/

/-- What the functions that look for a position in the recorded values should return. -/
structure OrderStatistics (h : HdrHistogram) (values : List ℕ) : Prop where
  percentile : ∀ p, hdrValueAtPercentile h p =
    some (highestEquivalentValue h (kth values (rank values.length p) : ℕ))
  monotone : ∀ p q x y, p ≤ q → hdrValueAtPercentile h p = some x →
    hdrValueAtPercentile h q = some y → x ≤ y
  atLeast : ∀ p x, hdrValueAtPercentile h p = some x →
    rank values.length p ≤ values.countP fun v : ℕ => (v : ℤ) ≤ x
  min : hdrMin h = some (lowestEquivalentValue h (kth values 1 : ℕ))
  max : hdrMax h = some (lowestEquivalentValue h (kth values values.length : ℕ))
  raw : ShowsSamples h values

section

variable (hr : RecordsValues h values) (hne : values ≠ []) (hv : ∀ v ∈ values, v ≤ maxLatency)
include hr hne hv

theorem percentile_monotone {p q : ℚ} {x y : ℤ} (hpq : p ≤ q)
    (hx : hdrValueAtPercentile h p = some x) (hy : hdrValueAtPercentile h q = some y) : x ≤ y := by
  have hlength := List.length_pos_iff.mpr hne
  have hp := rank_pos values.length p
  have hq := rank_pos values.length q
  rw [hr.hdrValueAtPercentile_eq hne hv, Option.some.injEq] at hx hy
  rw [← hx, ← hy, hr.shaped.highestEquivalentValue_le_iff
    (kth_lt hv hp (rank_le_length hlength p)) (kth_lt hv hq (rank_le_length hlength q))]
  exact slot_mono 10 (kth_mono hp (rank_mono _ hpq) (rank_le_length hlength q))

theorem percentile_atLeast {p : ℚ} {x : ℤ} (hx : hdrValueAtPercentile h p = some x) :
    rank values.length p ≤ values.countP fun v : ℕ => (v : ℤ) ≤ x := by
  have hp := rank_pos values.length p
  have hle := rank_le_length (List.length_pos_iff.mpr hne) p
  rw [hr.hdrValueAtPercentile_eq hne hv, Option.some.injEq] at hx
  rw [le_countP_iff hp hle]
  · have := (hr.shaped.mem_slot (kth_lt hv hp hle)).2
    simpa [← hx] using this
  · intro a b hab hb
    have hbx : (b : ℤ) ≤ x := by simpa using hb
    have habx : (a : ℤ) ≤ x := by omega
    simpa using habx

end

/-- The results are those of the sorted list of the recorded values, with one exception: the
    script sees wrong samples when there are too many of them for an `int`, unless all share
    one slot. -/
theorem orderStatistics_iff {fresh : HdrHistogram} (hinit : hdrInit 1 maxLatency 3 = some fresh)
    (hne : values ≠ []) (hv : ∀ v ∈ values, v ≤ maxLatency)
    (hrecord : recordAll fresh values = some h) :
    OrderStatistics h values ↔ values.length < 2 ^ 31 ∨
      ∀ v ∈ values, ∀ w ∈ values, lowestEquivalentValue h v = lowestEquivalentValue h w := by
  have hr := recordsValues hinit hv hrecord
  have hiff := showsSamples_iff hr hne hv
  constructor
  · intro hstats
    exact hiff.mp hstats.raw
  · intro hcond
    exact
      { percentile := hr.hdrValueAtPercentile_eq hne hv
        monotone := fun _ _ _ _ hpq hx hy => percentile_monotone hr hne hv hpq hx hy
        atLeast := fun _ _ hx => percentile_atLeast hr hne hv hx
        min := hr.hdrMin_eq hne hv
        max := hr.hdrMax_eq hne hv
        raw := hiff.mpr hcond }

theorem recordAll_exists {values : List ℕ} (hv : ∀ v ∈ values, v ≤ maxLatency) :
    ∃ h, recordAll latencyHistogram values = some h :=
  ⟨_, latencyHistogram_shaped.recordAll_eq fun v hmem => (hv v hmem).trans_lt maxLatency_lt⟩

theorem orderStatistics_iff_three : ∃ h, recordAll latencyHistogram [5, 0, 70000000000] = some h ∧
    OrderStatistics h [5, 0, 70000000000] := by
  have hv : ∀ v ∈ [5, 0, 70000000000], v ≤ maxLatency := by decide
  obtain ⟨h, hrecord⟩ := recordAll_exists hv
  exact ⟨h, hrecord, (orderStatistics_iff hdrInit_maxLatency (by simp) hv hrecord).mpr
    (Or.inl (by decide))⟩

/-- One short latency and `n` longer ones. -/
def Example.shortAndLong (n : ℕ) : List ℕ := 0 :: List.replicate n 5

/-- The last sample of a list that is too long for an `int` is shown as the first one. -/
theorem last_sample_wraps :
    ∃ h, recordAll latencyHistogram (Example.shortAndLong (2 ^ 31)) = some h ∧
      ¬ OrderStatistics h (Example.shortAndLong (2 ^ 31)) := by
  have hv : ∀ v ∈ Example.shortAndLong (2 ^ 31), v ≤ maxLatency := by
    intro v hmem
    rcases List.mem_cons.mp hmem with rfl | hmem
    · exact Nat.zero_le _
    · rw [List.eq_of_mem_replicate hmem]
      decide
  have hlength : (Example.shortAndLong (2 ^ 31)).length = 2 ^ 31 + 1 := by
    rw [Example.shortAndLong, List.length_cons, List.length_replicate]
  have hlong : 5 ∈ Example.shortAndLong (2 ^ 31) :=
    List.mem_cons_of_mem _ (List.mem_replicate.mpr ⟨by norm_num, rfl⟩)
  obtain ⟨h, hrecord⟩ := recordAll_exists hv
  have hr := recordsValues hdrInit_maxLatency hv hrecord
  refine ⟨h, hrecord, fun hstats => ?_⟩
  rcases (showsSamples_iff hr (List.cons_ne_nil _ _) hv).mp hstats.raw with hshort | hone
  · omega
  · have hsame := hone 0 List.mem_cons_self 5 hlong
    rw [hr.shaped.lowestEquivalentValue_eq_iff (by norm_num) (by norm_num)] at hsame
    exact absurd hsame (by decide)

end Wrkx
