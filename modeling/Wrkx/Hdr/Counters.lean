import Wrkx.Hdr.Summary

/-!
# Counters of 64 bits

The counters of a histogram are of type `int64_t`. Writing to them is what the unbounded
writers do, read modulo `2 ^ 64`, so nothing changes as long as the total stays below `2 ^ 63`.
A histogram that is added to itself is another matter: the iterator follows a total that grows
while it is walked, and runs past the last slot.

## Main results

- `hdrAdd64_wrapped` — `hdr_add` on `int64_t` counters
- `LatencyHistogram.hdrRecordValues64`, `LatencyHistogram.hdrAdd64` — without an overflow
- `Stalled.hdrRecordedIterNext` — an iterator that does not come to an end
-/

namespace Wrkx

open Word LogLinear

variable {m n : ℕ} {h : HdrHistogram}

/-! ## Wrapping around -/

/-- The histogram with each counter read as an `int64_t`. -/
def HdrHistogram.wrapped (h : HdrHistogram) : HdrHistogram :=
  { h with counts := fun i => int64 (h.counts i), totalCount := int64 h.totalCount }

theorem hdrRecordValues64_wrapped (h : HdrHistogram) (v count : ℤ) :
    hdrRecordValues64 h.wrapped v count =
      (hdrRecordValues h v count).map (Prod.map id HdrHistogram.wrapped) := by
  have hindex : countsIndexFor h.wrapped v = countsIndexFor h v := rfl
  rw [hdrRecordValues64, hdrRecordValues, hindex, Option.map_map]
  congr 1
  funext i
  simp only [Function.comp_apply]
  by_cases hi : i < 0 ∨ h.countsLen ≤ i
  · rw [if_pos hi, if_pos (show i < 0 ∨ h.wrapped.countsLen ≤ i from hi)]
    rfl
  · rw [if_neg hi, if_neg (show ¬ (i < 0 ∨ h.wrapped.countsLen ≤ i) from hi)]
    simp only [HdrHistogram.wrapped, int64_int64_add, Prod.map_apply, id_eq]
    congr 2
    funext j
    by_cases hj : j = i.toNat
    · rw [hj, Function.update_self, Function.update_self]
    · rw [Function.update_of_ne hj, Function.update_of_ne hj]

theorem hdrAddLoop64_wrapped (src : HdrHistogram) (fuel : ℕ) (iter : HdrIter) (dropped : ℤ)
    (h : HdrHistogram) :
    hdrAddLoop64 (fun _ => src) (slotRounds src) fuel iter (int64 dropped) h.wrapped =
      (hdrAddLoop src fuel iter dropped h).map (Prod.map int64 HdrHistogram.wrapped) := by
  induction fuel generalizing iter dropped h with
  | zero => rfl
  | succ fuel ih =>
    rw [hdrAddLoop64, hdrAddLoop]
    cases hdrRecordedIterNext src (slotRounds src) iter with
    | none => rfl
    | some next =>
      obtain ⟨more, iter⟩ := next
      cases more
      · rfl
      · simp only [Option.bind_eq_bind, Option.bind_some, if_true, hdrRecordValues64_wrapped]
        cases hdrRecordValues h iter.valueFromIndex iter.countAtIndex with
        | none => rfl
        | some recorded =>
          obtain ⟨ok, h⟩ := recorded
          cases ok
          · exact (congrArg (fun d => hdrAddLoop64 _ _ fuel iter d h.wrapped)
              (int64_int64_add _ _)).trans (ih iter _ h)
          · exact ih iter dropped h

/-- `hdr_add` on `int64_t` counters. -/
theorem hdrAdd64_wrapped (h src : HdrHistogram) :
    hdrAdd64 h.wrapped src = (hdrAdd h src).map (Prod.map int64 HdrHistogram.wrapped) :=
  hdrAddLoop64_wrapped src (slotRounds src) hdrIterInit 0 h

/-! ## Without an overflow -/

theorem Tallied.counts_le_total (ht : Tallied h) (i : ℕ) : h.counts i ≤ h.totalCount := by
  rcases lt_or_ge i h.countsLen.toNat with hi | hi
  · have hlast : prefixCount h i + h.counts i ≤ h.totalCount := by
      rw [← prefixCount_succ, ht.total]
      exact ht.prefixCount_mono hi
    have hfirst : 0 ≤ prefixCount h i := Finset.sum_nonneg fun j _ => ht.nonneg j
    omega
  · rw [ht.beyond i hi]
    exact ht.total_nonneg

theorem Tallied.wrapped_eq (ht : Tallied h) (hfits : h.totalCount < 2 ^ 63) : h.wrapped = h := by
  have htotal := ht.total_nonneg
  have hcounts : (fun i => int64 (h.counts i)) = h.counts := by
    funext i
    have hle := ht.counts_le_total i
    have hnonneg := ht.nonneg i
    exact int64_eq_self_iff.mpr ⟨by omega, by omega⟩
  have hword : int64 h.totalCount = h.totalCount := int64_eq_self_iff.mpr ⟨by omega, hfits⟩
  rw [HdrHistogram.wrapped, hcounts, hword]

theorem LatencyHistogram.plus_single (hl : LatencyHistogram h) {v : ℕ} (hv : v ≤ maxLatency)
    {count : ℤ} (hcount : 0 ≤ count) :
    LatencyHistogram (h.plus (Pi.single (slot 10 v) count) count) :=
  ⟨hl.shaped.plus _ _, hl.tallied.plus_single
    (hl.shaped.slot_lt_countsLen (hv.trans_lt maxLatency_lt)) hcount⟩

/-- Recording below a total of `2 ^ 63` overflows no counter. -/
theorem LatencyHistogram.hdrRecordValues64 (hl : LatencyHistogram h) {v : ℕ} (hv : v ≤ maxLatency)
    {count : ℤ} (hcount : 0 ≤ count) (hfits : h.totalCount + count < 2 ^ 63) :
    hdrRecordValues64 h v count = some (true, h.plus (Pi.single (slot 10 v) count) count) := by
  have hbefore : h.wrapped = h := hl.tallied.wrapped_eq (by omega)
  have hafter := (hl.plus_single hv hcount).tallied.wrapped_eq hfits
  calc Wrkx.hdrRecordValues64 h v count
      = (hdrRecordValues h v count).map (Prod.map id HdrHistogram.wrapped) := by
        rw [← hdrRecordValues64_wrapped, hbefore]
    _ = some (true, h.plus (Pi.single (slot 10 v) count) count) := by
        rw [hl.shaped.hdrRecordValues_natCast (hv.trans_lt maxLatency_lt), Option.map_some,
          Prod.map_apply, id_eq, hafter]

theorem Tallied.plus_counts (ht : Tallied h) {src : HdrHistogram} (hsrc : Tallied src)
    (hlen : src.countsLen = h.countsLen) : Tallied (h.plus src.counts src.totalCount) := by
  refine ⟨fun i => ?_, fun i hi => ?_, ?_⟩
  · exact add_nonneg (ht.nonneg i) (hsrc.nonneg i)
  · have hzero := ht.beyond i hi
    have hzero' := hsrc.beyond i (hlen ▸ hi)
    simp [hzero, hzero']
  · have hsum : prefixCount (h.plus src.counts src.totalCount) h.countsLen.toNat =
        prefixCount h h.countsLen.toNat + prefixCount src h.countsLen.toNat :=
      Finset.sum_add_distrib
    rw [plus_totalCount, ht.total, hsrc.total, hlen]
    exact hsum.symm

/-- Adding another histogram ends, and below a total of `2 ^ 63` overflows no counter. -/
theorem LatencyHistogram.hdrAdd64 (hl : LatencyHistogram h) {src : HdrHistogram}
    (hsrc : LatencyHistogram src) (hfits : h.totalCount + src.totalCount < 2 ^ 63) :
    ∃ h', hdrAdd64 h src = some (0, h') ∧ LatencyHistogram h' ∧
      h'.totalCount = h.totalCount + src.totalCount := by
  have hlen : src.countsLen = h.countsLen := by rw [hsrc.shaped.len, hl.shaped.len]
  have ht := hl.tallied.plus_counts hsrc.tallied hlen
  have hnonneg := hsrc.tallied.total_nonneg
  have hbefore : h.wrapped = h := hl.tallied.wrapped_eq (by omega)
  refine ⟨h.plus src.counts src.totalCount, ?_, ⟨hl.shaped.plus _ _, ht⟩, rfl⟩
  calc Wrkx.hdrAdd64 h src
      = (hdrAdd h src).map (Prod.map int64 HdrHistogram.wrapped) := by
        rw [← hdrAdd64_wrapped, hbefore]
    _ = some (0, h.plus src.counts src.totalCount) := by
        rw [hdrAdd_eq hsrc.shaped hsrc.tallied hl.shaped, Option.map_some, Prod.map_apply,
          ht.wrapped_eq hfits]
        rfl

/-! ## An iterator that does not end -/

/-- The iterator stands on slot `k`. -/
def StandsOn (m : ℕ) (iter : HdrIter) (k : ℕ) : Prop :=
  iter.bucketIndex = slotBucket m k ∧ iter.subBucketIndex = slotSub m k

theorem StandsOn.incrementBucket {iter : HdrIter} {k : ℕ} (hat : StandsOn m iter k)
    (hs : Shaped m n h) : incrementBucket h iter.bucketIndex iter.subBucketIndex =
      ((slotBucket m (k + 1) : ℤ), (slotSub m (k + 1) : ℤ)) := by
  rw [hat.1, hat.2]
  exact hs.incrementBucket_slotIter (k + 1)

/-- A move from slot to slot, whatever the iterator has counted. -/
theorem StandsOn.moveNext {iter : HdrIter} {k : ℕ} (hat : StandsOn m iter k)
    (hs : Shaped m n h) (hk : k + 1 < (n + 1) * 2 ^ m) :
    ∃ next, moveNext h iter = some (true, next) ∧ StandsOn m next (k + 1) ∧
      next.countAtIndex = h.counts (k + 1) ∧
      next.countToIndex = iter.countToIndex + h.counts (k + 1) := by
  have hb : slotBucket m (k + 1) < n := slotBucket_lt hs.buckets_pos hk
  have hle : slotBucket m (k + 1) = 0 ∨ 2 ^ m ≤ slotSub m (k + 1) := by
    by_cases hz : slotBucket m (k + 1) = 0
    · exact Or.inl hz
    · exact Or.inr (le_slotSub hz)
  have hcount : getCountAtIndex h (slotBucket m (k + 1)) (slotSub m (k + 1)) =
      some (h.counts (k + 1)) := by
    rw [getCountAtIndex, hs.countsIndex hb (slotSub_lt m _) hle, slotBucket_mul_add]
    rfl
  have hmore : (slotBucket m (k + 1) : ℤ) < h.bucketCount := by
    rw [hs.buckets]
    exact_mod_cast hb
  simp only [Wrkx.moveNext, hat.incrementBucket hs, hasBuckets, hmore, decide_true, Bool.not_true,
    Bool.false_eq_true, if_false, hcount, Option.map_some]
  exact ⟨_, rfl, ⟨rfl, rfl⟩, rfl, rfl⟩

/-- No sample is ahead of the iterator, and it has counted less than the total. -/
structure Stalled (m : ℕ) (h : HdrHistogram) (iter : HdrIter) : Prop where
  position : (∃ k, StandsOn m iter k ∧ ∀ j, k < j → h.counts j = 0) ∨
    h.bucketCount ≤ iter.bucketIndex
  empty : iter.countAtIndex = 0
  more : iter.countToIndex < h.totalCount

theorem incrementBucket_le (h : HdrHistogram) (b s : ℤ) : b ≤ (incrementBucket h b s).1 := by
  rw [incrementBucket]
  split_ifs <;> simp

/-- Past the last bucket `move_next` only moves on. -/
theorem moveNext_past {iter : HdrIter}
    (hpast : h.bucketCount ≤ (incrementBucket h iter.bucketIndex iter.subBucketIndex).1) :
    ∃ next, moveNext h iter = some (false, next) ∧ h.bucketCount ≤ next.bucketIndex ∧
      next.countAtIndex = iter.countAtIndex ∧ next.countToIndex = iter.countToIndex := by
  simp only [moveNext, hasBuckets, not_lt.mpr hpast, decide_false, Bool.not_false, if_true]
  exact ⟨_, rfl, hpast, rfl, rfl⟩

theorem Stalled.hdrIterNext {iter : HdrIter} (hstall : Stalled m h iter) (hs : Shaped m n h) :
    ∃ next, hdrIterNext h iter = some (true, next) ∧ Stalled m h next := by
  have hnext : hasNext h iter = true := decide_eq_true hstall.more
  have hmoved : ∃ moved next, moveNext h iter = some (moved, next) ∧ Stalled m h next := by
    rcases hstall.position with ⟨k, hat, hempty⟩ | hpast
    · by_cases hk : k + 1 < (n + 1) * 2 ^ m
      · obtain ⟨next, hmove, hat', hcount, htotal⟩ := hat.moveNext hs hk
        have hzero := hempty (k + 1) (Nat.lt_succ_self k)
        exact ⟨true, next, hmove, Or.inl ⟨k + 1, hat', fun j hj => hempty j (by omega)⟩,
          hcount.trans hzero, by rw [htotal, hzero, add_zero]; exact hstall.more⟩
      · have hbucket : h.bucketCount ≤
            (incrementBucket h iter.bucketIndex iter.subBucketIndex).1 := by
          rw [hat.incrementBucket hs, hs.buckets]
          exact Nat.cast_le.mpr (le_slotBucket (not_lt.mp hk))
        obtain ⟨next, hmove, hnext, hcount, htotal⟩ := moveNext_past hbucket
        exact ⟨false, next, hmove, Or.inr hnext, hcount.trans hstall.empty, htotal ▸ hstall.more⟩
    · obtain ⟨next, hmove, hnext, hcount, htotal⟩ :=
        moveNext_past (hpast.trans (incrementBucket_le h _ _))
      exact ⟨false, next, hmove, Or.inr hnext, hcount.trans hstall.empty, htotal ▸ hstall.more⟩
  obtain ⟨moved, next, hmove, hstall'⟩ := hmoved
  exact ⟨next, by simp [Wrkx.hdrIterNext, hnext, hmove], hstall'⟩

/-- However many rounds it is allowed, a stalled iterator finds no sample and no end. -/
theorem Stalled.hdrRecordedIterNext {iter : HdrIter} (hstall : Stalled m h iter)
    (hs : Shaped m n h) (fuel : ℕ) : hdrRecordedIterNext h fuel iter = none := by
  induction fuel generalizing iter with
  | zero => rfl
  | succ fuel ih =>
    obtain ⟨next, hnext, hstall'⟩ := hstall.hdrIterNext hs
    rw [Wrkx.hdrRecordedIterNext, hnext]
    simp only [Option.bind_eq_bind, Option.bind_some, if_true, hstall'.empty, ne_eq,
      not_true_eq_false, if_false]
    exact ih hstall'

theorem hdrRecordedIterNext_mono {iter : HdrIter} {found : Bool × HdrIter} {fuel fuel' : ℕ}
    (hle : fuel ≤ fuel') (hfound : hdrRecordedIterNext h fuel iter = some found) :
    hdrRecordedIterNext h fuel' iter = some found := by
  induction fuel generalizing iter fuel' with
  | zero => exact absurd hfound (by simp [hdrRecordedIterNext])
  | succ fuel ih =>
    obtain ⟨fuel', rfl⟩ := Nat.exists_eq_add_of_le' (Nat.lt_of_lt_of_le (Nat.succ_pos _) hle)
    rw [hdrRecordedIterNext] at hfound ⊢
    obtain ⟨⟨more, next⟩, hnext, hrest⟩ := Option.bind_eq_some_iff.mp hfound
    refine Option.bind_eq_some_iff.mpr ⟨⟨more, next⟩, hnext, ?_⟩
    dsimp only at hrest ⊢
    split_ifs at hrest ⊢
    · exact hrest
    · exact ih (by omega) hrest
    · exact hrest

end Wrkx
