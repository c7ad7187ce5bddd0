import Wrkx.Hdr.Merge

/-!
# Equivalent values

Two values are equivalent to a histogram when they share a slot. `lowest_equivalent_value`,
`next_non_equivalent_value`, `highest_equivalent_value` and `median_equivalent_value` read
the slot of a value as an interval: its first value, the first value after it, its last
value and its middle.

## Main results

- `Shaped.lowestEquivalentValue`, `Shaped.nextNonEquivalentValue` — the interval of a slot
- `equivalent_values` — the slots of a latency histogram keep three significant digits
-/

namespace Wrkx

open Word LogLinear

variable {m n : ℕ} {h : HdrHistogram}

/-! ## The interval of a slot -/

theorem Shaped.two_pow_lt (hs : Shaped m n h) : 2 ^ (m + 31) < 2 ^ 63 :=
  Nat.pow_lt_pow_right (by norm_num) (by have := hs.magnitude_lt; omega)

theorem Shaped.lowestEquivalentValue (hs : Shaped m n h) {v : ℕ} (hv : v < 2 ^ 63) :
    lowestEquivalentValue h v = slotValue m (slot m v) := by
  have hbucket := hs.getBucketIndex hv
  have hsub := hs.getSubBucketIndex v
  rw [slotValue_slot]
  simp only [Wrkx.lowestEquivalentValue, hs.unit, hbucket, hsub, valueFromIndex, Nat.cast_zero,
    add_zero, Int.toNat_natCast]
  push_cast
  rfl

/-- Beyond bucket 30 the width of a slot does not fit an `int`. -/
theorem Shaped.sizeOfEquivalentValueRange (hs : Shaped m n h) {v : ℕ} (hv : v < 2 ^ (m + 31)) :
    sizeOfEquivalentValueRange h v = (2 ^ bucket m v : ℕ) := by
  have hbucket := hs.getBucketIndex (hv.trans hs.two_pow_lt)
  have hsub := hs.getSubBucketIndex v
  have hinside : ¬ h.subBucketCount ≤ (sub m v : ℤ) := by
    rw [hs.count]
    exact_mod_cast not_le.mpr (sub_lt m v)
  have hint : 2 ^ bucket m v < 2 ^ 31 :=
    Nat.pow_lt_pow_right (by norm_num) (bucket_lt (by norm_num) hv)
  simp only [Wrkx.sizeOfEquivalentValueRange, hs.unit, hbucket, hsub, hinside, if_false,
    Nat.cast_zero, zero_add, Int.toNat_natCast]
  exact_mod_cast int32_natCast hint

theorem Shaped.nextNonEquivalentValue (hs : Shaped m n h) {v : ℕ} (hv : v < 2 ^ (m + 31)) :
    nextNonEquivalentValue h v = slotValue m (slot m v + 1) := by
  rw [Wrkx.nextNonEquivalentValue, hs.lowestEquivalentValue (hv.trans hs.two_pow_lt),
    hs.sizeOfEquivalentValueRange hv, slotValue_succ, (slotBucket_slot m v).1]
  push_cast
  rfl

theorem Shaped.highestEquivalentValue (hs : Shaped m n h) {v : ℕ} (hv : v < 2 ^ (m + 31)) :
    highestEquivalentValue h v = slotValue m (slot m v + 1) - 1 := by
  rw [Wrkx.highestEquivalentValue, hs.nextNonEquivalentValue hv]

theorem Shaped.medianEquivalentValue (hs : Shaped m n h) {v : ℕ} (hv : v < 2 ^ (m + 31)) :
    medianEquivalentValue h v = slotValue m (slot m v) + (2 ^ bucket m v / 2 : ℕ) := by
  rw [Wrkx.medianEquivalentValue, hs.lowestEquivalentValue (hv.trans hs.two_pow_lt),
    hs.sizeOfEquivalentValueRange hv, Int.shiftRight_eq_div_pow]
  push_cast
  rfl

/-! ## Values of one slot -/

/-- A value lies in its slot, between its lowest and its highest equivalent value. -/
theorem Shaped.mem_slot (hs : Shaped m n h) {v : ℕ} (hv : v < 2 ^ (m + 31)) :
    Wrkx.lowestEquivalentValue h v ≤ v ∧ (v : ℤ) ≤ Wrkx.highestEquivalentValue h v := by
  have hle := slotValue_slot_le m v
  have hlt := lt_slotValue_slot_succ m v
  rw [hs.lowestEquivalentValue (hv.trans hs.two_pow_lt), hs.highestEquivalentValue hv]
  omega

theorem Shaped.lowestEquivalentValue_eq_iff (hs : Shaped m n h) {v w : ℕ} (hv : v < 2 ^ 63)
    (hw : w < 2 ^ 63) :
    Wrkx.lowestEquivalentValue h v = Wrkx.lowestEquivalentValue h w ↔ slot m v = slot m w := by
  rw [hs.lowestEquivalentValue hv, hs.lowestEquivalentValue hw, Nat.cast_inj]
  exact (slotValue_strictMono m).injective.eq_iff

theorem Shaped.mem_slot_iff (hs : Shaped m n h) {v w : ℕ} (hv : v < 2 ^ (m + 31)) :
    (Wrkx.lowestEquivalentValue h v ≤ w ∧ (w : ℤ) ≤ Wrkx.highestEquivalentValue h v) ↔
      slot m v = slot m w := by
  rw [hs.lowestEquivalentValue (hv.trans hs.two_pow_lt), hs.highestEquivalentValue hv,
    eq_comm, slot_eq_iff]
  omega

/-- The first value of a slot has the same interval as any other value of the slot. -/
theorem Shaped.highestEquivalentValue_slotValue (hs : Shaped m n h) {v : ℕ}
    (hv : v < 2 ^ (m + 31)) : Wrkx.highestEquivalentValue h (slotValue m (slot m v)) =
      Wrkx.highestEquivalentValue h v := by
  have hle := (slotValue_slot_le m v).trans_lt hv
  rw [hs.highestEquivalentValue hle, hs.highestEquivalentValue hv, slot_slotValue]

/-- The highest equivalent value lies in the slot of the value. -/
theorem Shaped.lowestEquivalentValue_highest (hs : Shaped m n h) {v : ℕ} (hv : v < 2 ^ (m + 31))
    (hnext : slotValue m (slot m v + 1) < 2 ^ (m + 31)) :
    Wrkx.lowestEquivalentValue h (Wrkx.highestEquivalentValue h v) =
      Wrkx.lowestEquivalentValue h v := by
  have hlow := slotValue_slot_le m v
  have hhigh := lt_slotValue_slot_succ m v
  have hcast : ((slotValue m (slot m v + 1) : ℕ) : ℤ) - 1 =
      ((slotValue m (slot m v + 1) - 1 : ℕ) : ℤ) := by omega
  have hslot : slot m (slotValue m (slot m v + 1) - 1) = slot m v := by
    rw [slot_eq_iff]
    omega
  have h63 : slotValue m (slot m v + 1) - 1 < 2 ^ 63 := by
    have := hs.two_pow_lt
    omega
  rw [hs.highestEquivalentValue hv, hcast, hs.lowestEquivalentValue_eq_iff h63
    (hv.trans hs.two_pow_lt)]
  exact hslot

theorem Shaped.highestEquivalentValue_le_iff (hs : Shaped m n h) {v w : ℕ}
    (hv : v < 2 ^ (m + 31)) (hw : w < 2 ^ (m + 31)) :
    Wrkx.highestEquivalentValue h v ≤ Wrkx.highestEquivalentValue h w ↔ slot m v ≤ slot m w := by
  rw [hs.highestEquivalentValue hv, hs.highestEquivalentValue hw, sub_le_sub_iff_right,
    Nat.cast_le, (slotValue_strictMono m).le_iff_le, Nat.succ_le_succ_iff]

theorem Shaped.highestEquivalentValue_eq_iff (hs : Shaped m n h) {v w : ℕ}
    (hv : v < 2 ^ (m + 31)) (hw : w < 2 ^ (m + 31)) :
    Wrkx.highestEquivalentValue h v = Wrkx.highestEquivalentValue h w ↔ slot m v = slot m w := by
  rw [le_antisymm_iff, hs.highestEquivalentValue_le_iff hv hw,
    hs.highestEquivalentValue_le_iff hw hv, le_antisymm_iff]

/-- The values of one slot differ by less than the `2 ^ m`-th part of each of them. -/
theorem Shaped.slot_width (hs : Shaped m n h) {v : ℕ} (hv : v < 2 ^ (m + 31)) :
    Wrkx.highestEquivalentValue h v - Wrkx.lowestEquivalentValue h v ≤ (v : ℤ) / 2 ^ m := by
  have hwidth : 2 ^ bucket m v - 1 ≤ v / 2 ^ m := by
    by_cases hz : bucket m v = 0
    · simp [hz]
    · have := (Nat.le_div_iff_mul_le (Nat.two_pow_pos m)).mpr (two_pow_bucket_mul_le hz)
      exact (Nat.sub_le _ _).trans this
  have hpos := Nat.two_pow_pos (bucket m v)
  have hcast : (v : ℤ) / 2 ^ m = ((v / 2 ^ m : ℕ) : ℤ) := by push_cast; rfl
  rw [hs.lowestEquivalentValue (hv.trans hs.two_pow_lt), hs.highestEquivalentValue hv,
    slotValue_succ, (slotBucket_slot m v).1, hcast]
  omega

/-- In the first bucket every value has its own slot. -/
theorem Shaped.slot_single (hs : Shaped m n h) {v : ℕ} (hv : v < 2 ^ (m + 1)) :
    Wrkx.lowestEquivalentValue h v = v ∧ Wrkx.highestEquivalentValue h v = v := by
  have hlt : v < 2 ^ (m + 31) := hv.trans (Nat.pow_lt_pow_right (by norm_num) (by omega))
  have hslot : slotValue m (slot m v) = v := by
    rw [slotValue_slot, bucket_eq_zero hv, sub, bucket_eq_zero hv, pow_zero, Nat.div_one, mul_one]
  rw [hs.lowestEquivalentValue (hlt.trans hs.two_pow_lt), hs.highestEquivalentValue hlt,
    slotValue_succ, (slotBucket_slot m v).1, bucket_eq_zero hv, hslot]
  omega

/-- The slot after that of a value starts where the values equivalent to it end. -/
theorem Shaped.next_slot (hs : Shaped m n h) {v : ℕ} (hv : v < 2 ^ (m + 31))
    (hnext : slotValue m (slot m v + 1) < 2 ^ (m + n)) :
    countsIndexFor h (Wrkx.nextNonEquivalentValue h v) = some (slot m v + 1) ∧
      Wrkx.lowestEquivalentValue h (Wrkx.nextNonEquivalentValue h v) =
        Wrkx.nextNonEquivalentValue h v := by
  have h63 := hnext.trans_le (Nat.pow_le_pow_right (by norm_num) hs.range_le)
  rw [hs.nextNonEquivalentValue hv, hs.countsIndexFor_natCast hnext, hs.lowestEquivalentValue h63,
    slot_slotValue]
  exact ⟨by push_cast; rfl, rfl⟩

/-! ## Three significant digits -/

theorem slotValue_succ_maxLatency {v : ℕ} (hv : v ≤ maxLatency) :
    slotValue 10 (slot 10 v + 1) < 2 ^ (10 + 27) := by
  have hslot : slot 10 v + 1 ≤ 27912 := by
    have hmax : slot 10 maxLatency = 27911 := by decide +kernel
    have := slot_mono 10 hv
    omega
  calc slotValue 10 (slot 10 v + 1) ≤ slotValue 10 27912 := (slotValue_strictMono 10).monotone hslot
    _ < 2 ^ (10 + 27) := by decide +kernel

/-- The slots of the histogram `hdr_init (1, MAX_LATENCY, 3)`: they are intervals of
    equivalent values, numbered in the order of their values and without a gap, whose width
    is at most a 1024-th of their values, and `1` below 2048. -/
theorem equivalent_values (hinit : hdrInit 1 maxLatency 3 = some h) {v w : ℤ} (hv : 0 ≤ v)
    (hvmax : v ≤ maxLatency) (hw : 0 ≤ w) (hwmax : w ≤ maxLatency) :
    (lowestEquivalentValue h v ≤ v ∧ v ≤ highestEquivalentValue h v) ∧
    (∃ i j, countsIndexFor h v = some i ∧ countsIndexFor h w = some j ∧
      (i = j ↔ lowestEquivalentValue h v = lowestEquivalentValue h w) ∧
      (i = j ↔ lowestEquivalentValue h v ≤ w ∧ w ≤ highestEquivalentValue h v) ∧
      (v ≤ w → i ≤ j) ∧
      countsIndexFor h (nextNonEquivalentValue h v) = some (i + 1) ∧
      lowestEquivalentValue h (nextNonEquivalentValue h v) = nextNonEquivalentValue h v) ∧
    highestEquivalentValue h v - lowestEquivalentValue h v ≤ v / 1024 ∧
    (v < 2048 → lowestEquivalentValue h v = v ∧ highestEquivalentValue h v = v) := by
  obtain rfl : latencyHistogram = h := by
    rw [hdrInit_maxLatency] at hinit
    exact Option.some.inj hinit
  have hs := latencyHistogram_shaped
  obtain ⟨v, rfl⟩ := Int.eq_ofNat_of_zero_le hv
  obtain ⟨w, rfl⟩ := Int.eq_ofNat_of_zero_le hw
  have hvmax' : v ≤ maxLatency := Int.ofNat_le.mp hvmax
  have hvlt : v < 2 ^ (10 + 27) := hvmax'.trans_lt maxLatency_lt
  have hwlt : w < 2 ^ (10 + 27) := (Int.ofNat_le.mp hwmax).trans_lt maxLatency_lt
  have hwide : v < 2 ^ (10 + 31) := hvlt.trans (by norm_num)
  have h63 : ∀ x, x < 2 ^ (10 + 27) → x < 2 ^ 63 := fun x hx => hx.trans (by norm_num)
  obtain ⟨hindex, hlowest⟩ := hs.next_slot hwide (slotValue_succ_maxLatency hvmax')
  refine ⟨hs.mem_slot hwide, ⟨slot 10 v, slot 10 w, hs.countsIndexFor_natCast hvlt,
    hs.countsIndexFor_natCast hwlt, ?_, ?_, ?_, hindex, hlowest⟩, hs.slot_width hwide, ?_⟩
  · rw [hs.lowestEquivalentValue_eq_iff (h63 v hvlt) (h63 w hwlt), Nat.cast_inj]
  · rw [hs.mem_slot_iff hwide, Nat.cast_inj]
  · intro hle
    exact_mod_cast slot_mono 10 (Int.ofNat_le.mp hle)
  · intro hsmall
    exact hs.slot_single (by exact_mod_cast hsmall)

/-- The two ends of the range: `0` and a whole day. -/
theorem equivalent_values_ends :
    highestEquivalentValue latencyHistogram maxLatency -
      lowestEquivalentValue latencyHistogram maxLatency ≤ maxLatency / 1024 :=
  (equivalent_values hdrInit_maxLatency (v := maxLatency) (w := 0) (by decide) le_rfl le_rfl
    (by decide)).2.2.1

end Wrkx
