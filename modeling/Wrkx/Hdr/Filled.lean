import Wrkx.Hdr.Counters
import Wrkx.Hdr.Equivalent
import Wrkx.Stats.Stats

/-!
# Histograms in use

`Filled h` says that `h` comes from `hdr_init (1, MAX_LATENCY, 3)` by recording, adding and
resetting, in any order, and that no total reached `2 ^ 63` on the way. Each of these keeps the
total equal to the sum of the counts, and this is all that makes an iterator stop: it visits
the slots in order until it has counted the total.

## Main results

- `Filled.latencyHistogram` — the writers keep the shape and the total
- `hdrIterVisits_eq` — an iterator visits the first slots, up to one that reaches the total
- `filled_readers` — the invariant, the order of the visits and the end of every loop
- `hdrAddSelf64_sampled` — `hdr_add (h, h)` does not end
-/

namespace Wrkx

open LogLinear

variable {m n : ℕ} {h : HdrHistogram}

/-- What `hdr_record_value`, `hdr_record_values`, `hdr_add` and `hdr_reset` make of a
    histogram of `hdr_init (1, MAX_LATENCY, 3)` as long as its total stays below `2 ^ 63`. The
    two histograms of `hdr_add` are different objects. -/
inductive Filled : HdrHistogram → Prop
  | init {h : HdrHistogram} (hinit : hdrInit 1 maxLatency 3 = some h) : Filled h
  | recordValue {h h' : HdrHistogram} {v : ℤ} {ok : Bool} (hh : Filled h) (hv : 0 ≤ v)
      (hmax : v ≤ maxLatency) (hfits : h.totalCount + 1 < 2 ^ 63)
      (hrecord : hdrRecordValue64 h v = some (ok, h')) : Filled h'
  | recordValues {h h' : HdrHistogram} {v count : ℤ} {ok : Bool} (hh : Filled h) (hv : 0 ≤ v)
      (hmax : v ≤ maxLatency) (hcount : 0 ≤ count) (hfits : h.totalCount + count < 2 ^ 63)
      (hrecord : hdrRecordValues64 h v count = some (ok, h')) : Filled h'
  | add {h src h' : HdrHistogram} {dropped : ℤ} (hh : Filled h) (hsrc : Filled src)
      (hfits : h.totalCount + src.totalCount < 2 ^ 63)
      (hadd : hdrAdd64 h src = some (dropped, h')) : Filled h'
  | reset {h : HdrHistogram} (hh : Filled h) : Filled (hdrReset h)

/-! ## The writers -/

/-- What is recorded below a total of `2 ^ 63` is counted. -/
theorem LatencyHistogram.of_hdrRecordValues64 (hl : LatencyHistogram h) {v count : ℤ} (hv : 0 ≤ v)
    (hmax : v ≤ maxLatency) (hcount : 0 ≤ count) (hfits : h.totalCount + count < 2 ^ 63)
    {ok : Bool} {h' : HdrHistogram}
    (hrecord : Wrkx.hdrRecordValues64 h v count = some (ok, h')) :
    LatencyHistogram h' ∧ h'.totalCount < 2 ^ 63 := by
  obtain ⟨v, rfl⟩ := Int.eq_ofNat_of_zero_le hv
  have hle := Int.ofNat_le.mp hmax
  rw [hl.hdrRecordValues64 hle hcount hfits] at hrecord
  simp only [Option.some.injEq, Prod.mk.injEq] at hrecord
  obtain ⟨-, rfl⟩ := hrecord
  exact ⟨hl.plus_single hle hcount, hfits⟩

/-- Every writer keeps the shape and the total. -/
theorem Filled.latencyHistogram (hh : Filled h) : LatencyHistogram h ∧ h.totalCount < 2 ^ 63 := by
  induction hh with
  | init hinit => exact hdrInit_eq hinit ▸ ⟨latencyHistogram_fresh, by decide⟩
  | recordValue _ hv hmax hfits hrecord ih =>
    exact ih.1.of_hdrRecordValues64 hv hmax (by norm_num) hfits hrecord
  | recordValues _ hv hmax hcount hfits hrecord ih =>
    exact ih.1.of_hdrRecordValues64 hv hmax hcount hfits hrecord
  | add _ _ hfits hadd ih ihsrc =>
    obtain ⟨sum, hsum, hl, htotal⟩ := ih.1.hdrAdd64 ihsrc.1 hfits
    rw [hsum] at hadd
    simp only [Option.some.injEq, Prod.mk.injEq] at hadd
    obtain ⟨-, rfl⟩ := hadd
    exact ⟨hl, htotal ▸ hfits⟩
  | reset _ ih => exact ⟨ih.1.hdrReset, show (0 : ℤ) < 2 ^ 63 by norm_num⟩

/-! ## The visits of an iterator -/

/-- The positions of an iterator, from `hdr_iter_init` until `hdr_iter_next` returns false. -/
def hdrIterVisits (h : HdrHistogram) : Option (List HdrIter) :=
  overSlots h (fun iter visited => .inl (visited ++ [iter])) id []

/-- An iterator visits the first slots, up to one that reaches the total. -/
theorem hdrIterVisits_eq (hs : Shaped m n h) (ht : Tallied h) :
    ∃ k, hdrIterVisits h = some ((List.range k).map fun i => slotIter m h (i + 1)) ∧
      k ≤ h.countsLen.toNat ∧ h.totalCount ≤ prefixCount h k := by
  obtain ⟨visited, hvisited, k, hk, htotal, rfl⟩ := overSlots_spec
    (fun iter visited => .inl (visited ++ [iter])) id
    (fun k visited => k ≤ h.countsLen.toNat ∧
      visited = (List.range k).map fun i => slotIter m h (i + 1))
    (fun visited => ∃ k, k ≤ h.countsLen.toNat ∧ h.totalCount ≤ prefixCount h k ∧
      visited = (List.range k).map fun i => slotIter m h (i + 1))
    hs ht (s := []) ⟨Nat.zero_le _, rfl⟩
    (fun k visited hmore hinv =>
      .next ⟨ht.lt_of_hasNext hmore, by simp [hinv.2, List.range_succ]⟩)
    (fun k visited htotal hinv => ⟨k, hinv.1, htotal, hinv.2⟩)
  exact ⟨k, hvisited, hk, htotal⟩

theorem prefixCount_eq_sum (h : HdrHistogram) (k : ℕ) :
    prefixCount h k = ((List.range k).map h.counts).sum := by
  induction k with
  | zero => rfl
  | succ k ih => simp [prefixCount_succ, ih, List.range_succ]

theorem visits_increasing (m : ℕ) (h : HdrHistogram) (k : ℕ) :
    ((List.range k).map fun i => slotIter m h (i + 1)).Pairwise
      fun a b => a.valueFromIndex < b.valueFromIndex := by
  rw [List.pairwise_map]
  refine List.pairwise_lt_range.imp fun {i j} hij => ?_
  have := slotValue_strictMono m hij
  simpa [slotIter] using this

theorem visits_countToIndex {m k : ℕ} {visited : List HdrIter}
    (hvisited : visited = (List.range k).map fun i => slotIter m h (i + 1)) (i : ℕ)
    (hi : i < visited.length) :
    visited[i].countToIndex = ((visited.take (i + 1)).map (·.countAtIndex)).sum := by
  subst hvisited
  have hik : i < k := by simpa using hi
  have htake : (List.range k).take (i + 1) = List.range (i + 1) := by
    rw [List.take_range, min_eq_left hik]
  rw [← List.map_take, htake, List.map_map, List.getElem_map, List.getElem_range,
    slotIter_countToIndex, prefixCount_eq_sum]
  rfl

theorem Shaped.countsIndex_slot (hs : Shaped m n h) {i : ℕ} (hi : i < h.countsLen.toNat) :
    Wrkx.countsIndex h (slotBucket m i) (slotSub m i) = some (i : ℤ) := by
  rw [hs.countsLen_toNat] at hi
  have hhalf : slotBucket m i = 0 ∨ 2 ^ m ≤ slotSub m i := by
    by_cases hz : slotBucket m i = 0
    · exact Or.inl hz
    · exact Or.inr (le_slotSub hz)
  rw [hs.countsIndex (slotBucket_lt hs.buckets_pos hi) (slotSub_lt m i) hhalf, slotBucket_mul_add]

/-! ## Invariant and termination -/

/-- A histogram in use has a total that is the sum of its counts, and no counter overflows. An
    iterator then visits slots in the order of their values, counts what it visits, misses no
    slot that holds a sample and stops, and so do all loops over the slots. -/
theorem filled_readers (hh : Filled h) :
    (h.totalCount = ∑ i ∈ Finset.range h.countsLen.toNat, h.counts i ∧ h.totalCount < 2 ^ 63) ∧
    (∃ visited, hdrIterVisits h = some visited ∧
      visited.Pairwise (fun a b => a.valueFromIndex < b.valueFromIndex) ∧
      (∀ i, (hi : i < visited.length) →
        visited[i].countToIndex = ((visited.take (i + 1)).map (·.countAtIndex)).sum ∧
        0 ≤ visited[i].countToIndex ∧ visited[i].countToIndex < 2 ^ 63) ∧
      ∀ i, h.counts i ≠ 0 → ∃ iter ∈ visited, iter.countAtIndex = h.counts i ∧
        countsIndex h iter.bucketIndex iter.subBucketIndex = some (i : ℤ)) ∧
    (hdrMin h).isSome ∧ (hdrMax h).isSome ∧
    (∀ percentile, (hdrValueAtPercentile h percentile).isSome) ∧
    (hdrMean h).isSome ∧ (∀ sqrt, (hdrStddev sqrt h).isSome) ∧
    (∀ dst, Filled dst → (hdrAdd64 dst h).isSome) ∧
    ∀ upperValue lowerValue, (withinStdevCounts h upperValue lowerValue).isSome := by
  obtain ⟨⟨hs, ht⟩, hfits⟩ := hh.latencyHistogram
  obtain ⟨k, hvisits, hk, htotal⟩ := hdrIterVisits_eq hs ht
  refine ⟨⟨ht.total, hfits⟩, ⟨_, hvisits, visits_increasing 10 h k, fun i hi => ⟨?_, ?_⟩, ?_⟩,
    hdrMin_isSome hs ht, hdrMax_isSome hs ht, hdrValueAtPercentile_isSome hs ht,
    hdrMean_isSome hs ht, hdrStddev_isSome hs ht, ?_, ?_⟩
  · exact visits_countToIndex rfl i hi
  · have hik : i < k := by simpa using hi
    rw [List.getElem_map, List.getElem_range, slotIter_countToIndex]
    have hnonneg : prefixCount h 0 ≤ prefixCount h (i + 1) := ht.prefixCount_mono (Nat.zero_le _)
    have hle : prefixCount h (i + 1) ≤ prefixCount h h.countsLen.toNat :=
      ht.prefixCount_mono (by omega)
    exact ⟨hnonneg, hle.trans_lt (ht.total ▸ hfits)⟩
  · intro i hi
    have hik : i < k := by
      by_contra hge
      exact hi (ht.counts_eq_zero htotal (not_lt.mp hge))
    have hlen : i < h.countsLen.toNat := by
      by_contra hge
      exact hi (ht.beyond i (not_lt.mp hge))
    exact ⟨slotIter 10 h (i + 1), List.mem_map.mpr ⟨i, List.mem_range.mpr hik, rfl⟩, rfl,
      hs.countsIndex_slot hlen⟩
  · intro dst hdst
    obtain ⟨hl, hbelow⟩ := hdst.latencyHistogram
    rw [← hl.tallied.wrapped_eq hbelow, hdrAdd64_wrapped, hdrAdd_eq hs ht hl.shaped]
    rfl
  · intro upperValue lowerValue
    exact overSlots_isSome _ _ hs ht _

/-- A histogram of the one sample `5`. -/
def Example.sampled : HdrHistogram := latencyHistogram.plus (Pi.single (slot 10 5) 1) 1

theorem Example.sampled_filled : LatencyHistogram Example.sampled :=
  latencyHistogram_fresh.plus_single (by decide) (by norm_num)

theorem Example.sampled_recorded :
    hdrRecordValue64 latencyHistogram 5 = some (true, Example.sampled) :=
  latencyHistogram_fresh.hdrRecordValues64 (v := 5) (by decide) (by norm_num) (by decide)

/-- A histogram that recorded one value, added to a fresh one. -/
theorem filled_readers_added : ∃ sum, hdrAdd64 latencyHistogram Example.sampled = some (0, sum) ∧
    (hdrMean sum).isSome := by
  have hfits : latencyHistogram.totalCount + Example.sampled.totalCount < 2 ^ 63 := by decide
  obtain ⟨sum, hsum, -⟩ := latencyHistogram_fresh.hdrAdd64 Example.sampled_filled hfits
  have hfresh : Filled latencyHistogram := .init hdrInit_maxLatency
  have hfilled : Filled sum := .add hfresh
    (.recordValue hfresh (by decide) (by decide) (by decide) Example.sampled_recorded) hfits hsum
  exact ⟨sum, hsum, (filled_readers hfilled).2.2.2.2.2.1⟩

/-! ## What `Filled` leaves out -/

theorem Example.sampled_counts {i : ℕ} (hi : i ≠ 5) : Example.sampled.counts i = 0 := by
  have hslot : slot 10 5 = 5 := by decide
  simp [Example.sampled, latencyHistogram, hslot, hi]

/-- The one sample that a recorded iterator finds, if it is allowed enough rounds. -/
theorem Example.sampled_recordedIter {fuel : ℕ} {found : Bool × HdrIter}
    (hfound : hdrRecordedIterNext Example.sampled fuel hdrIterInit = some found) :
    found = (true, slotIter 10 Example.sampled 6) := by
  have hmono := hdrRecordedIterNext_mono (Nat.le_add_right fuel (slotRounds Example.sampled)) hfound
  have hnext := hdrRecordedIterNext_slotIter Example.sampled_filled.shaped
    Example.sampled_filled.tallied (fuel + slotRounds Example.sampled) (Nat.zero_le _)
    (by simp only [slotRounds]; omega)
  rw [show slotIter 10 Example.sampled 0 = hdrIterInit from rfl, hmono] at hnext
  cases hnext with
  | found j _ _ hne _ =>
    have hj : j = 5 := by
      by_contra hother
      exact hne (Example.sampled_counts hother)
    rw [hj]
  | finished iter hempty => exact absurd (hempty 5 (Nat.zero_le _)) (by decide)

/-- Once the sample is recorded a second time, the iterator that found it stalls. -/
theorem Example.sampled_stalls (fuel : ℕ) :
    hdrRecordedIterNext (Example.sampled.plus (Pi.single (slot 10 5) 1) 1) fuel
      (slotIter 10 Example.sampled 6) = none := by
  have hs := Example.sampled_filled.shaped.plus (Pi.single (slot 10 5) 1) 1
  have hslot : slot 10 5 = 5 := by decide
  have hempty : ∀ j, 5 < j → (Example.sampled.plus (Pi.single (slot 10 5) 1) 1).counts j = 0 := by
    intro j hj
    have hother : j ≠ 5 := hj.ne'
    simp [Example.sampled_counts hother, hslot, hother]
  have hat : StandsOn 10 (slotIter 10 Example.sampled 6) 5 := ⟨rfl, rfl⟩
  obtain ⟨next, hmove, hat', hcount, htotal⟩ := hat.moveNext hs (by norm_num)
  have hzero := hempty 6 (by norm_num)
  have hmore : (slotIter 10 Example.sampled 6).countToIndex <
      (Example.sampled.plus (Pi.single (slot 10 5) 1) 1).totalCount := by decide
  have hstall : Stalled 10 (Example.sampled.plus (Pi.single (slot 10 5) 1) 1) next :=
    ⟨Or.inl ⟨6, hat', fun j hj => hempty j (by omega)⟩, hcount.trans hzero,
      by rw [htotal, hzero, add_zero]; exact hmore⟩
  cases fuel with
  | zero => rfl
  | succ fuel =>
    have hnext : hasNext (Example.sampled.plus (Pi.single (slot 10 5) 1) 1)
        (slotIter 10 Example.sampled 6) = true := decide_eq_true hmore
    simp only [hdrRecordedIterNext, hdrIterNext, hnext, hmove, Bool.not_true, Bool.false_eq_true,
      if_false, Option.map_some, Option.bind_eq_bind, Option.bind_some, if_true, hcount, hzero,
      ne_eq, not_true_eq_false]
    exact hstall.hdrRecordedIterNext hs fuel

/-- `hdr_add (h, h)` does not end, however many rounds it is allowed. -/
theorem hdrAddSelf64_sampled (rounds : ℕ) : hdrAddSelf64 rounds Example.sampled = none := by
  rw [hdrAddSelf64]
  generalize hfuel : rounds = fuel
  cases fuel with
  | zero => rfl
  | succ fuel =>
    rw [hdrAddLoop64, ← hfuel]
    cases hfound : hdrRecordedIterNext (id Example.sampled) rounds hdrIterInit with
    | none => rfl
    | some found =>
      obtain rfl := Example.sampled_recordedIter hfound
      have hrecord : hdrRecordValues64 Example.sampled
          (slotIter 10 Example.sampled 6).valueFromIndex
          (slotIter 10 Example.sampled 6).countAtIndex =
            some (true, Example.sampled.plus (Pi.single (slot 10 5) 1) 1) :=
        Example.sampled_filled.hdrRecordValues64 (v := 5) (by decide) (by decide) (by decide)
      simp only [Option.bind_eq_bind, Option.bind_some, if_true, hrecord]
      cases fuel with
      | zero => rfl
      | succ fuel =>
        rw [hdrAddLoop64, id_eq, Example.sampled_stalls]
        rfl

/-- A histogram of `INT64_MAX` samples `0`. -/
def Example.full : HdrHistogram :=
  latencyHistogram.plus (Pi.single (slot 10 0) (2 ^ 63 - 1)) (2 ^ 63 - 1)

/-- The same with as many samples `5`, which its total does not hold. -/
def Example.overflowed : HdrHistogram :=
  (Example.full.plus (Pi.single (slot 10 5) (2 ^ 63 - 1)) (2 ^ 63 - 1)).wrapped

theorem Example.overflowed_recorded :
    hdrRecordValues64 Example.full 5 (2 ^ 63 - 1) = some (true, Example.overflowed) := by
  have hfull : LatencyHistogram Example.full :=
    latencyHistogram_fresh.plus_single (by decide) (by norm_num)
  have hwrapped := hdrRecordValues64_wrapped Example.full 5 (2 ^ 63 - 1)
  have hrecord := hfull.shaped.hdrRecordValues_natCast (v := 5) (by norm_num) (2 ^ 63 - 1)
  rw [hfull.tallied.wrapped_eq (by decide)] at hwrapped
  exact hwrapped.trans (congrArg (Option.map _) hrecord)

theorem Example.overflowed_counts_nonneg (i : ℕ) : 0 ≤ Example.overflowed.counts i := by
  have hslot : slot 10 0 = 0 ∧ slot 10 5 = 5 := by decide
  have hcounts : Example.overflowed.counts i =
      Word.int64 ((Pi.single 0 (2 ^ 63 - 1) : ℕ → ℤ) i + (Pi.single 5 (2 ^ 63 - 1) : ℕ → ℤ) i) := by
    simp [Example.overflowed, HdrHistogram.wrapped, Example.full, latencyHistogram, hslot]
  rw [hcounts]
  by_cases h0 : i = 0
  · subst h0
    decide
  · by_cases h5 : i = 5
    · subst h5
      decide
    · rw [Pi.single_eq_of_ne h0, Pi.single_eq_of_ne h5]
      decide

/-- Both conditions are needed. Two recordings of `INT64_MAX` samples, both accepted, give a
    negative total, of which an iterator visits no slot; and `hdr_add (h, h)` does not end. -/
theorem counters_overflow :
    hdrInit 1 maxLatency 3 = some latencyHistogram ∧
    hdrRecordValues64 latencyHistogram 0 (2 ^ 63 - 1) = some (true, Example.full) ∧
    hdrRecordValues64 Example.full 5 (2 ^ 63 - 1) = some (true, Example.overflowed) ∧
    Example.overflowed.totalCount ≠
      ∑ i ∈ Finset.range Example.overflowed.countsLen.toNat, Example.overflowed.counts i ∧
    Example.overflowed.counts 5 ≠ 0 ∧ hdrIterVisits Example.overflowed = some [] ∧
    hdrRecordValue64 latencyHistogram 5 = some (true, Example.sampled) ∧
    ∀ rounds, hdrAddSelf64 rounds Example.sampled = none := by
  have htotal : Example.overflowed.totalCount = -2 := by decide
  refine ⟨hdrInit_maxLatency, ?_, Example.overflowed_recorded, ?_, by decide, rfl,
    Example.sampled_recorded, hdrAddSelf64_sampled⟩
  · exact latencyHistogram_fresh.hdrRecordValues64 (v := 0) (by decide) (by norm_num) (by decide)
  · have hsum : 0 ≤ ∑ i ∈ Finset.range Example.overflowed.countsLen.toNat,
        Example.overflowed.counts i :=
      Finset.sum_nonneg fun i _ => Example.overflowed_counts_nonneg i
    rw [htotal]
    omega

end Wrkx
