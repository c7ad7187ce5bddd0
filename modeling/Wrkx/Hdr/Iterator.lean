import Mathlib.Algebra.BigOperators.Group.Finset.Basic
import Mathlib.Algebra.Order.BigOperators.Group.Finset
import Mathlib.Algebra.Order.Ring.Int
import Wrkx.Hdr.Slots

/-!
# Iterating over the slots

An iterator of a shaped histogram stands on the slots in order: after `k` moves it is
`slotIter m h k`, the reading of slot `k - 1`. It has no end test besides the comparison of
the counts it has seen with `total_count`, so the walks below need `Tallied`: the total is
the sum of the counts.

## Main results

- `moveNext_slotIter` — a move from slot to slot
- `hdrRecordedIterNext_slotIter` — the next slot that holds a sample, or the end
-/

namespace Wrkx

open LogLinear

variable {m n : ℕ} {h : HdrHistogram}

/-- The counts of the first `k` slots. -/
def prefixCount (h : HdrHistogram) (k : ℕ) : ℤ := ∑ i ∈ Finset.range k, h.counts i

/-- The total of the histogram is the sum of its counts, none of which is negative. -/
structure Tallied (h : HdrHistogram) : Prop where
  nonneg : ∀ i, 0 ≤ h.counts i
  beyond : ∀ i, h.countsLen.toNat ≤ i → h.counts i = 0
  total : h.totalCount = prefixCount h h.countsLen.toNat

@[simp] theorem prefixCount_zero : prefixCount h 0 = 0 := rfl

theorem prefixCount_succ (h : HdrHistogram) (k : ℕ) :
    prefixCount h (k + 1) = prefixCount h k + h.counts k := Finset.sum_range_succ _ _

theorem Tallied.prefixCount_mono (ht : Tallied h) {j k : ℕ} (hjk : j ≤ k) :
    prefixCount h j ≤ prefixCount h k :=
  Finset.sum_le_sum_of_subset_of_nonneg (Finset.range_mono hjk) fun i _ _ => ht.nonneg i

/-- Once the total is reached, the remaining slots are empty. -/
theorem Tallied.counts_eq_zero (ht : Tallied h) {k i : ℕ} (hk : h.totalCount ≤ prefixCount h k)
    (hki : k ≤ i) : h.counts i = 0 := by
  by_cases hi : h.countsLen.toNat ≤ i
  · exact ht.beyond i hi
  · have hmono : prefixCount h k ≤ prefixCount h i := ht.prefixCount_mono hki
    have hend : prefixCount h (i + 1) ≤ h.totalCount := by
      rw [ht.total]
      exact ht.prefixCount_mono (by omega)
    rw [prefixCount_succ] at hend
    have := ht.nonneg i
    omega

/-! ## The position of an iterator -/

/-- The iterator after `k` moves. -/
def slotIter (m : ℕ) (h : HdrHistogram) : ℕ → HdrIter
  | 0 => hdrIterInit
  | k + 1 =>
    { bucketIndex := slotBucket m k
      subBucketIndex := slotSub m k
      countAtIndex := h.counts k
      countToIndex := prefixCount h (k + 1)
      valueFromIndex := slotValue m k
      highestEquivalentValue := highestEquivalentValue h (slotValue m k) }

theorem slotIter_countToIndex (m : ℕ) (h : HdrHistogram) (k : ℕ) :
    (slotIter m h k).countToIndex = prefixCount h k := by
  cases k <;> rfl

theorem hasNext_slotIter (m : ℕ) (h : HdrHistogram) (k : ℕ) :
    hasNext h (slotIter m h k) = true ↔ prefixCount h k < h.totalCount := by
  rw [hasNext, decide_eq_true_iff, slotIter_countToIndex]

/-- The next position in the order of slots. -/
theorem Shaped.incrementBucket_slotIter (hs : Shaped m n h) (k : ℕ) :
    incrementBucket h (slotIter m h k).bucketIndex (slotIter m h k).subBucketIndex =
      ((slotBucket m k : ℤ), (slotSub m k : ℤ)) := by
  have hpow : (1 : ℤ) < 2 ^ (m + 1) := by
    exact_mod_cast Nat.one_lt_two_pow (Nat.succ_ne_zero m)
  cases k with
  | zero =>
    have hzero : slotBucket m 0 = 0 ∧ slotSub m 0 = 0 := by simp [slotBucket, slotSub]
    rw [incrementBucket, hs.count, if_neg (by simp [slotIter, hdrIterInit])]
    simp [slotIter, hdrIterInit, hzero]
  | succ k =>
    simp only [incrementBucket, hs.count, hs.halfCount, slotIter]
    rcases Nat.lt_or_ge (slotSub m k + 1) (2 ^ (m + 1)) with hlt | hge
    · obtain ⟨hb, hsub⟩ := slot_succ_of_lt hlt
      rw [if_neg (by exact_mod_cast not_le.mpr hlt), hb, hsub]
      push_cast
      rfl
    · have heq : slotSub m k + 1 = 2 ^ (m + 1) := le_antisymm (slotSub_lt m k) hge
      obtain ⟨hb, hsub⟩ := slot_succ_of_eq heq
      rw [if_pos (by exact_mod_cast hge), hb, hsub]
      push_cast
      rfl

theorem valueFromIndex_slot (m k : ℕ) :
    valueFromIndex (slotBucket m k) (slotSub m k) 0 = slotValue m k := by
  simp [valueFromIndex, slotValue]

/-- A move from slot to slot, before the last one. -/
theorem Shaped.moveNext_slotIter (hs : Shaped m n h) {k : ℕ} (hk : k < (n + 1) * 2 ^ m) :
    moveNext h (slotIter m h k) = some (true, slotIter m h (k + 1)) := by
  have hb : slotBucket m k < n := slotBucket_lt hs.buckets_pos hk
  have hle : slotBucket m k = 0 ∨ 2 ^ m ≤ slotSub m k := by
    by_cases hz : slotBucket m k = 0
    · exact Or.inl hz
    · exact Or.inr (le_slotSub hz)
  have hcount : getCountAtIndex h (slotBucket m k) (slotSub m k) = some (h.counts k) := by
    rw [getCountAtIndex, hs.countsIndex hb (slotSub_lt m k) hle, slotBucket_mul_add]
    rfl
  have hmore : ((slotBucket m k : ℤ) < h.bucketCount) := by
    rw [hs.buckets]
    exact_mod_cast hb
  simp only [moveNext, hs.incrementBucket_slotIter, hasBuckets, hmore, decide_true, Bool.not_true,
    Bool.false_eq_true, if_false, hcount, hs.unit, valueFromIndex_slot, Option.map_some,
    slotIter_countToIndex]
  rw [slotIter, prefixCount_succ]

theorem Shaped.countsLen_toNat (hs : Shaped m n h) : h.countsLen.toNat = (n + 1) * 2 ^ m := by
  rw [hs.len, Int.toNat_natCast]

/-- While the total is not reached there is a slot to move to. -/
theorem Tallied.lt_of_hasNext (ht : Tallied h) {k : ℕ} (hk : prefixCount h k < h.totalCount) :
    k < h.countsLen.toNat := by
  by_contra hge
  have := ht.prefixCount_mono (not_lt.mp hge)
  rw [← ht.total] at this
  omega

theorem hdrIterNext_slotIter (hs : Shaped m n h) (ht : Tallied h) (k : ℕ) :
    hdrIterNext h (slotIter m h k) =
      if prefixCount h k < h.totalCount then some (true, slotIter m h (k + 1))
      else some (false, slotIter m h k) := by
  by_cases hk : prefixCount h k < h.totalCount
  · have hlt := ht.lt_of_hasNext hk
    rw [hs.countsLen_toNat] at hlt
    simp [hdrIterNext, (hasNext_slotIter m h k).mpr hk, hs.moveNext_slotIter hlt, hk]
  · have hno : hasNext h (slotIter m h k) = false := by
      rw [Bool.eq_false_iff, ne_eq, hasNext_slotIter]
      exact hk
    simp [hdrIterNext, hno, hk]

/-! ## The recorded iterator -/

/-- What the recorded iterator finds from slot `k` on: the first slot that holds a sample,
    or the end when there is none. -/
inductive NextRecorded (m : ℕ) (h : HdrHistogram) (k : ℕ) : Option (Bool × HdrIter) → Prop
  | found (j : ℕ) (hkj : k ≤ j) (hlt : j < h.countsLen.toNat) (hne : h.counts j ≠ 0)
      (hempty : ∀ i, k ≤ i → i < j → h.counts i = 0) :
      NextRecorded m h k (some (true, slotIter m h (j + 1)))
  | finished (iter : HdrIter) (hempty : ∀ i, k ≤ i → h.counts i = 0) :
      NextRecorded m h k (some (false, iter))

theorem hdrRecordedIterNext_slotIter (hs : Shaped m n h) (ht : Tallied h) (fuel : ℕ) {k : ℕ}
    (hk : k ≤ h.countsLen.toNat) (hfuel : h.countsLen.toNat < fuel + k) :
    NextRecorded m h k (hdrRecordedIterNext h fuel (slotIter m h k)) := by
  induction fuel generalizing k with
  | zero => omega
  | succ fuel ih =>
    rw [hdrRecordedIterNext, hdrIterNext_slotIter hs ht]
    by_cases hmore : prefixCount h k < h.totalCount
    · have hlt := ht.lt_of_hasNext hmore
      simp only [hmore, if_true, Option.bind_eq_bind, Option.bind_some]
      by_cases hne : h.counts k = 0
      · have hcount : ¬ (slotIter m h (k + 1)).countAtIndex ≠ 0 := not_not.mpr hne
        rw [if_neg hcount]
        have hrest := ih (k := k + 1) hlt (by omega)
        have hextend : ∀ i j, (∀ i, k + 1 ≤ i → i < j → h.counts i = 0) → k ≤ i → i < j →
            h.counts i = 0 := by
          intro i j hempty hki hij
          rcases Nat.eq_or_lt_of_le hki with rfl | hki
          · exact hne
          · exact hempty i hki hij
        generalize hdrRecordedIterNext h fuel (slotIter m h (k + 1)) = found at hrest
        cases hrest with
        | found j hkj hlt hne' hempty =>
          exact .found j (by omega) hlt hne' fun i hki hij => hextend i j hempty hki hij
        | finished iter hempty =>
          exact .finished iter fun i hki =>
            hextend i (i + 1) (fun i hki _ => hempty i hki) hki (Nat.lt_succ_self i)
      · have hcount : (slotIter m h (k + 1)).countAtIndex ≠ 0 := hne
        rw [if_pos hcount]
        exact .found k le_rfl hlt hne fun i hki hik => by omega
    · simp only [hmore, if_false, Option.bind_eq_bind, Option.bind_some, Bool.false_eq_true]
      exact .finished _ fun i hki => ht.counts_eq_zero (not_lt.mp hmore) hki

end Wrkx
