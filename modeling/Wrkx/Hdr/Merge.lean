import Mathlib.Algebra.BigOperators.Pi
import Wrkx.Hdr.Iterator

/-!
# Merging the histograms of the threads

`main` adds the histograms of its threads one after another with `hdr_add`. A histogram that
recorded a list of values is the fresh one plus the tally of the list, and `hdr_add` adds the
source slot by slot, so the order of the values and of the threads does not matter.

## Main results

- `recordAll_eq` — recording a list adds its tally
- `hdrAdd_eq` — `hdr_add` adds a tallied source and drops nothing
- `mergeLoop_eq_recordAll` — the merge loop of `main` against one histogram for all values
-/

namespace Wrkx

open LogLinear

variable {m n : ℕ} {h src : HdrHistogram}

/-! ## Recording a list of values -/

/-- Record the values of a list one after another with `hdr_record_value`. -/
def recordAll (h : HdrHistogram) (values : List ℕ) : Option HdrHistogram :=
  values.foldlM (fun h (v : ℕ) => (hdrRecordValue h v).map Prod.snd) h

/-- How often each slot occurs in a list of values. -/
def tally (m : ℕ) (values : List ℕ) : ℕ → ℤ :=
  (values.map fun v => Pi.single (slot m v) 1).sum

@[simp] theorem tally_nil (m : ℕ) : tally m [] = 0 := rfl

@[simp] theorem tally_cons (m v : ℕ) (values : List ℕ) :
    tally m (v :: values) = Pi.single (slot m v) 1 + tally m values := by
  simp [tally]

@[simp] theorem tally_append (m : ℕ) (xs ys : List ℕ) :
    tally m (xs ++ ys) = tally m xs + tally m ys := by
  simp [tally]

theorem tally_perm (m : ℕ) {xs ys : List ℕ} (hp : xs.Perm ys) : tally m xs = tally m ys :=
  (hp.map _).sum_eq

/-- Recording a list adds its tally. -/
theorem Shaped.recordAll_eq (hs : Shaped m n h) {values : List ℕ}
    (hv : ∀ v ∈ values, v < 2 ^ (m + n)) :
    recordAll h values = some (h.plus (tally m values) values.length) := by
  induction values generalizing h with
  | nil => simp [recordAll]
  | cons v values ih =>
    have hfirst := hs.hdrRecordValues_natCast (hv v (by simp)) 1
    have hrest := ih (hs.plus (Pi.single (slot m v) 1) 1) fun w hw => hv w (by simp [hw])
    have hlength : (1 : ℤ) + values.length = (v :: values).length := by
      push_cast [List.length_cons]
      ring
    rw [recordAll, List.foldlM_cons, hdrRecordValue, hfirst]
    rw [recordAll, plus_plus, hlength] at hrest
    simpa using hrest

theorem prefixCount_plus_single (h : HdrHistogram) {i k : ℕ} (hi : i < k) (c t : ℤ) :
    prefixCount (h.plus (Pi.single i c) t) k = prefixCount h k + c := by
  simp only [prefixCount, plus_counts, Pi.add_apply, Finset.sum_add_distrib]
  rw [Finset.sum_pi_single', if_pos (Finset.mem_range.mpr hi)]

/-- Adding to one slot and to the total keeps the histogram tallied. -/
theorem Tallied.plus_single (ht : Tallied h) {i : ℕ} {c : ℤ} (hi : i < h.countsLen.toNat)
    (hc : 0 ≤ c) : Tallied (h.plus (Pi.single i c) c) := by
  refine ⟨fun j => ?_, fun j hj => ?_, ?_⟩
  · have := ht.nonneg j
    by_cases hji : j = i
    · subst hji
      simp only [plus_counts, Pi.add_apply, Pi.single_eq_same]
      omega
    · simpa [hji] using this
  · have hji : j ≠ i := by
      rintro rfl
      exact absurd hi (not_lt.mpr hj)
    simpa [hji] using ht.beyond j hj
  · exact (congrArg (· + c) ht.total).trans (prefixCount_plus_single h hi c c).symm

theorem Shaped.slot_lt_countsLen (hs : Shaped m n h) {v : ℕ} (hv : v < 2 ^ (m + n)) :
    slot m v < h.countsLen.toNat := by
  rw [hs.countsLen_toNat]
  exact slot_lt hs.buckets_pos hv

theorem Tallied.plus_tally (hs : Shaped m n h) (ht : Tallied h) {values : List ℕ}
    (hv : ∀ v ∈ values, v < 2 ^ (m + n)) :
    Tallied (h.plus (tally m values) values.length) := by
  induction values generalizing h with
  | nil => simpa using ht
  | cons v values ih =>
    have hfirst := ht.plus_single (hs.slot_lt_countsLen (hv v (by simp))) (c := 1) (by norm_num)
    have hrest := ih (hs.plus _ _) hfirst fun w hw => hv w (by simp [hw])
    rw [plus_plus, ← tally_cons] at hrest
    convert hrest using 2
    push_cast [List.length_cons]
    ring

theorem latencyHistogram_tallied : Tallied latencyHistogram :=
  ⟨fun _ => le_rfl, fun _ _ => rfl, by simp [latencyHistogram, prefixCount]⟩

theorem Tallied.total_nonneg (ht : Tallied h) : 0 ≤ h.totalCount := by
  rw [ht.total]
  exact Finset.sum_nonneg fun i _ => ht.nonneg i

/-! ## Adding one histogram to another -/

/-- The counts from slot `k` on. -/
def countsFrom (h : HdrHistogram) (k : ℕ) : ℕ → ℤ := fun i => if k ≤ i then h.counts i else 0

@[simp] theorem countsFrom_zero (h : HdrHistogram) : countsFrom h 0 = h.counts := by
  funext i
  simp [countsFrom]

theorem countsFrom_eq_single_add {k j : ℕ} (hkj : k ≤ j)
    (hempty : ∀ i, k ≤ i → i < j → h.counts i = 0) :
    countsFrom h k = Pi.single j (h.counts j) + countsFrom h (j + 1) := by
  funext i
  rcases lt_trichotomy i j with hij | rfl | hij
  · by_cases hki : k ≤ i
    · simp [countsFrom, hij.ne, hki, hempty i hki hij, show ¬ j + 1 ≤ i by omega]
    · simp [countsFrom, hij.ne, hki, show ¬ j + 1 ≤ i by omega]
  · simp [countsFrom, hkj]
  · simp [countsFrom, hij.ne', show k ≤ i by omega, show j + 1 ≤ i by omega]

theorem prefixCount_eq_of_empty {k j : ℕ} (hkj : k ≤ j)
    (hempty : ∀ i, k ≤ i → i < j → h.counts i = 0) : prefixCount h j = prefixCount h k := by
  induction j, hkj using Nat.le_induction with
  | base => rfl
  | succ j hkj ih =>
    rw [prefixCount_succ, ih fun i hki hij => hempty i hki (by omega),
      hempty j hkj (Nat.lt_succ_self j), add_zero]

theorem Shaped.slotValue_lt (hs : Shaped m n h) {i : ℕ} (hi : i < h.countsLen.toNat) :
    slotValue m i < 2 ^ (m + n) := by
  rw [hs.countsLen_toNat] at hi
  have hb := slotBucket_lt hs.buckets_pos hi
  exact (LogLinear.slotValue_lt m i).trans_le (Nat.pow_le_pow_right (by norm_num) (by omega))

/-- From slot `k` on, the loop of `hdr_add` adds what is left of the source. -/
theorem hdrAddLoop_slotIter (hsrc : Shaped m n src) (ht : Tallied src) (hs : Shaped m n h)
    (fuel : ℕ) {k : ℕ} (dropped : ℤ) (hk : k ≤ src.countsLen.toNat)
    (hfuel : src.countsLen.toNat < fuel + k) :
    hdrAddLoop src fuel (slotIter m src k) dropped h =
      some (dropped, h.plus (countsFrom src k) (src.totalCount - prefixCount src k)) := by
  induction fuel generalizing k h with
  | zero => omega
  | succ fuel ih =>
    have hnext := hdrRecordedIterNext_slotIter hsrc ht (slotRounds src) hk
      (by simp only [slotRounds]; omega)
    rw [hdrAddLoop]
    generalize hdrRecordedIterNext src (slotRounds src) (slotIter m src k) = found at hnext
    cases hnext with
    | found j hkj hlt hne hempty =>
      have hvalue : (slotIter m src (j + 1)).valueFromIndex = (slotValue m j : ℕ) := rfl
      have hcount : (slotIter m src (j + 1)).countAtIndex = src.counts j := rfl
      have hrecord := hs.hdrRecordValues_natCast (hsrc.slotValue_lt hlt) (src.counts j)
      have hrest := ih (hs.plus (Pi.single j (src.counts j)) (src.counts j)) (k := j + 1) hlt
        (by omega)
      have htotal : src.counts j + (src.totalCount - prefixCount src (j + 1)) =
          src.totalCount - prefixCount src k := by
        rw [prefixCount_succ, prefixCount_eq_of_empty hkj hempty]
        ring
      rw [slot_slotValue] at hrecord
      rw [plus_plus, ← countsFrom_eq_single_add hkj hempty, htotal] at hrest
      simpa [hvalue, hcount, hrecord] using hrest
    | finished iter hempty =>
      have hfrom : countsFrom src k = 0 := by
        funext i
        by_cases hki : k ≤ i
        · simpa [countsFrom, hki] using hempty i hki
        · simp [countsFrom, hki]
      have htotal : src.totalCount - prefixCount src k = 0 := by
        rw [ht.total, prefixCount_eq_of_empty hk fun i hki _ => hempty i hki, sub_self]
      simp [hfrom, htotal]

/-- `hdr_add` adds a tallied source slot by slot and drops nothing. -/
theorem hdrAdd_eq (hsrc : Shaped m n src) (ht : Tallied src) (hs : Shaped m n h) :
    hdrAdd h src = some (0, h.plus src.counts src.totalCount) := by
  have hloop := hdrAddLoop_slotIter hsrc ht hs (slotRounds src) 0 (Nat.zero_le _)
    (by simp only [slotRounds]; omega)
  simpa [hdrAdd, slotIter] using hloop

/-! ## The merge loop of `main` -/

/-- The merge loop of `main` over histograms kept in a store: `hdr_add (dst, src)` for each
    source of the list. It yields what each call returned, and the store afterwards. -/
def mergeLoop (store : ℕ → HdrHistogram) (dst : ℕ) :
    List ℕ → Option (List ℤ × (ℕ → HdrHistogram))
  | [] => some ([], store)
  | src :: rest => do
    let (dropped, h) ← hdrAdd (store dst) (store src)
    let (drops, store) ← mergeLoop (Function.update store dst h) dst rest
    some (dropped :: drops, store)

/-- The merge loop adds the tallies of all sources to the destination and leaves the sources
    alone. -/
theorem mergeLoop_eq {store : ℕ → HdrHistogram} {dst : ℕ} {threads : List ℕ}
    {samples : ℕ → List ℕ} (hs : Shaped m n (store dst)) (hdst : dst ∉ threads)
    (hv : ∀ i ∈ threads, ∀ v ∈ samples i, v < 2 ^ (m + n))
    (hsrc : ∀ i ∈ threads, ∃ empty, Shaped m n empty ∧ Tallied empty ∧ empty.counts = 0 ∧
      empty.totalCount = 0 ∧ store i = empty.plus (tally m (samples i)) (samples i).length) :
    mergeLoop store dst threads = some (threads.map fun _ => 0, Function.update store dst
      ((store dst).plus (tally m (threads.flatMap samples)) (threads.flatMap samples).length)) := by
  induction threads generalizing store with
  | nil => simp [mergeLoop]
  | cons i rest ih =>
    obtain ⟨empty, hshape, htallied, hcounts, htotal, hi⟩ := hsrc i (by simp)
    simp only [List.mem_cons, not_or] at hdst
    have hvi : ∀ v ∈ samples i, v < 2 ^ (m + n) := hv i (by simp)
    have hadd : hdrAdd (store dst) (store i) =
        some (0, (store dst).plus (tally m (samples i)) (samples i).length) := by
      rw [hi, hdrAdd_eq (hshape.plus _ _) (Tallied.plus_tally hshape htallied hvi) hs,
        plus_counts, plus_totalCount, hcounts, htotal, zero_add, zero_add]
    have hrest := @ih (Function.update store dst
        ((store dst).plus (tally m (samples i)) (samples i).length))
      (by simpa using hs.plus _ _) hdst.2 (fun j hj => hv j (by simp [hj]))
      (fun j hj => by
        have hne : j ≠ dst := fun heq => hdst.2 (heq ▸ hj)
        simpa [hne] using hsrc j (by simp [hj]))
    simp [mergeLoop, hadd, hrest]

/-- The merge loop adds up the totals. -/
theorem mergeLoop_total (store : ℕ → HdrHistogram) (dst : ℕ) {threads : List ℕ}
    (hs : Shaped m n (store dst)) (hdst : dst ∉ threads)
    (hsrc : ∀ i ∈ threads, Shaped m n (store i) ∧ Tallied (store i)) :
    ∃ result, mergeLoop store dst threads = some result ∧ (result.2 dst).totalCount =
      (store dst).totalCount + (threads.map fun i => (store i).totalCount).sum := by
  induction threads generalizing store with
  | nil => exact ⟨_, rfl, by simp⟩
  | cons i rest ih =>
    simp only [List.mem_cons, not_or] at hdst
    obtain ⟨hshape, htallied⟩ := hsrc i (by simp)
    have hadd := hdrAdd_eq hshape htallied hs
    have hother : ∀ j ∈ rest, j ≠ dst := fun j hj heq => hdst.2 (heq ▸ hj)
    obtain ⟨result, hresult, htotal⟩ := ih (Function.update store dst
        ((store dst).plus (store i).counts (store i).totalCount))
      (by simpa using hs.plus _ _) hdst.2
      (fun j hj => by simpa [hother j hj] using hsrc j (by simp [hj]))
    refine ⟨(0 :: result.1, result.2), by simp [mergeLoop, hadd, hresult], ?_⟩
    have hrest : rest.map (fun j => (Function.update store dst
        ((store dst).plus (store i).counts (store i).totalCount) j).totalCount) =
        rest.map fun j => (store j).totalCount :=
      List.map_congr_left fun j hj => by rw [Function.update_of_ne (hother j hj)]
    rw [htotal, hrest, Function.update_self, plus_totalCount, List.map_cons, List.sum_cons]
    ring

theorem maxLatency_lt : maxLatency < 2 ^ (10 + 27) := by decide

/-- Merging loses nothing: the histograms of the threads, merged in any order, give the
    histogram that records all their values in any order. -/
theorem mergeLoop_eq_recordAll {fresh : HdrHistogram} (hfresh : hdrInit 1 maxLatency 3 = some fresh)
    {store : ℕ → HdrHistogram} {dst : ℕ} {threads : List ℕ} {samples : ℕ → List ℕ}
    (hdst : dst ∉ threads) (hempty : store dst = fresh)
    (hv : ∀ i ∈ threads, ∀ v ∈ samples i, v ≤ maxLatency)
    (hrecorded : ∀ i ∈ threads, recordAll fresh (samples i) = some (store i))
    {all : List ℕ} (hall : all.Perm (threads.flatMap samples)) :
    ∃ merged, recordAll fresh all = some merged ∧
      mergeLoop store dst threads =
        some (threads.map fun _ => 0, Function.update store dst merged) := by
  obtain rfl : latencyHistogram = fresh := by
    rw [hdrInit_maxLatency] at hfresh
    exact Option.some.inj hfresh
  have hs := latencyHistogram_shaped
  have hlt : ∀ i ∈ threads, ∀ v ∈ samples i, v < 2 ^ (10 + 27) := fun i hi v hvi =>
    (hv i hi v hvi).trans_lt maxLatency_lt
  have hallLt : ∀ v ∈ all, v < 2 ^ (10 + 27) := by
    intro v hvall
    obtain ⟨i, hi, hvi⟩ := List.mem_flatMap.mp (hall.mem_iff.mp hvall)
    exact hlt i hi v hvi
  refine ⟨_, hs.recordAll_eq hallLt, ?_⟩
  rw [tally_perm 10 hall, hall.length_eq]
  rw [← hempty] at hs ⊢
  refine mergeLoop_eq hs hdst hlt fun i hi => ?_
  refine ⟨latencyHistogram, latencyHistogram_shaped, latencyHistogram_tallied, rfl, rfl, ?_⟩
  have := hrecorded i hi
  rw [latencyHistogram_shaped.recordAll_eq (hlt i hi)] at this
  exact (Option.some.inj this).symm

/-- The samples of two threads, in units of a microsecond. -/
def Example.samples : ℕ → List ℕ
  | 1 => [5, 5]
  | 2 => [70000000000]
  | _ => []

/-- The histograms of two threads, and at `0` the one they are merged into. -/
def Example.store (i : ℕ) : HdrHistogram :=
  (recordAll latencyHistogram (samples i)).getD latencyHistogram

theorem mergeLoop_eq_recordAll_two : ∃ merged,
    recordAll latencyHistogram [70000000000, 5, 5] = some merged ∧
      mergeLoop Example.store 0 [1, 2] = some ([0, 0], Function.update Example.store 0 merged) := by
  have hsome : ∀ i ∈ [1, 2], (recordAll latencyHistogram (Example.samples i)).isSome := by
    decide +kernel
  refine mergeLoop_eq_recordAll hdrInit_maxLatency (by simp) rfl (by decide) (fun i hi => ?_)
    (by decide : [70000000000, 5, 5].Perm ([1, 2].flatMap Example.samples))
  obtain ⟨h, hrecord⟩ := Option.isSome_iff_exists.mp (hsome i hi)
  rw [Example.store, hrecord]
  rfl

end Wrkx
