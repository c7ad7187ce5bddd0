import Wrkx.Base.Ring
import Wrkx.Base.Run
import Wrkx.Stats.Sorting

/-!
# The window of raw samples

An object without histogram keeps the samples recorded last. `stats_record` writes its array as
a ring, so that `index` is the slot of the oldest sample once the array is full.
`stats_summarize` sorts the same array and leaves `index` as it is: another sample may then lie
in the slot that is written next.

## Main results

- `Indexed.result` — what every call keeps, whatever the sort did to the samples
- `Ringed.perm_record_iff` — when a new sample takes the place of the oldest one
- `keepsWindow_iff` — the object holds the samples recorded last if and only if no sort moved
  another sample into a slot that is written over
-/

namespace Wrkx

/-! ## The calls -/

/-- `stats_reset`. -/
def statsReset (s : Stats) : Stats :=
  { s with limit := 0, index := 0, min := 2 ^ 64 - 1, max := 0 }

/-- `stats_rewind`. -/
def statsRewind (s : Stats) : Stats := { s with limit := 0, index := 0 }

/-- A call that is given a statistics object. -/
inductive StatsCall
  | record (x : ℕ)
  | summarize
  | mean
  | rewind
  | reset
deriving DecidableEq

namespace StatsCall

/-- The object after the call. -/
def run (qsort : (ℕ → ℕ → ℤ) → List ℕ → List ℕ) (s : Stats) : StatsCall → Option Stats
  | record x => statsRecord s x
  | summarize =>
    -- the index is not touched, and the mean is only returned
    let s := statsSummarize qsort s
    (statsMean s).map fun _ => s
  | mean => (statsMean s).map fun _ => s
  | rewind => some (statsRewind s)
  | reset => some (statsReset s)

/-- The values recorded since the last rewind or reset, the newest one first. -/
def records (older : List ℕ) : StatsCall → List ℕ
  | record x => x :: older
  | summarize | mean => older
  | rewind | reset => []

end StatsCall

/-! ## What is asked of an object -/

/-- The object holds the values recorded last, in any order. -/
structure SlidingWindow (records : List ℕ) (s : Stats) : Prop where
  index_lt : s.index < s.samples
  limit_le : s.limit ≤ s.samples
  limit_eq : s.limit = min records.length s.samples
  perm : s.raw.Perm (records.take s.limit)
  min_le : ∀ x ∈ s.raw, s.min ≤ x
  le_max : ∀ x ∈ s.raw, x ≤ s.max

/-- An object, the values recorded in it since the last rewind or reset, the newest one first,
    and the object that it would be if `stats_summarize` left the samples where they are. -/
structure Observed where
  stats : Stats
  records : List ℕ
  unsorted : Stats

/-- A sort that leaves the elements where they are. -/
def leaveInPlace (_ : ℕ → ℕ → ℤ) (l : List ℕ) : List ℕ := l

/-- A call on both objects, and what it records. -/
def observe (qsort : (ℕ → ℕ → ℤ) → List ℕ → List ℕ) (call : StatsCall) (o : Observed) :
    Option Observed := do
  let stats ← call.run qsort o.stats
  let unsorted ← call.run leaveInPlace o.unsorted
  return { stats, records := call.records o.records, unsorted }

def Observed.start (samples : ℕ) : Observed := ⟨statsAlloc samples, [], statsAlloc samples⟩

/-- The calls go through, and the object holds the values recorded last after each of them. -/
structure KeepsWindow (qsort : (ℕ → ℕ → ℤ) → List ℕ → List ℕ) (samples : ℕ)
    (calls : List StatsCall) : Prop where
  total : ∃ o, Run.run (observe qsort) calls (Observed.start samples) = some o
  window : ∀ o ∈ Run.states (observe qsort) calls (Observed.start samples),
    SlidingWindow o.records o.stats

/-- What a call needs: `qsort` gets samples that its comparator can order, and a full object is
    recorded into where it holds what it would hold unsorted. -/
def StatsCall.KeepsAge (o : Observed) : StatsCall → Prop
  | record _ => o.stats.limit = o.stats.samples →
      o.stats.data o.stats.index = o.unsorted.data o.stats.index
  | summarize => Consistent statsCompare o.stats.raw
  | mean | rewind | reset => True

/-! ## The parts of an object that a sort does not touch -/

variable {qsort : (ℕ → ℕ → ℤ) → List ℕ → List ℕ} {samples x : ℕ} {records : List ℕ} {s : Stats}
  {call : StatsCall} {o o' : Observed}

/-- The counters of an object that recorded these values. -/
structure Indexed (samples : ℕ) (records : List ℕ) (s : Stats) : Prop where
  samples_eq : s.samples = samples
  histogram_eq : s.histogram = none
  index_eq : s.index = records.length % samples
  limit_eq : s.limit = min records.length samples
  bounds : ∀ x ∈ records, s.min ≤ x ∧ x ≤ s.max

theorem indexed_statsAlloc : Indexed samples [] (statsAlloc samples) where
  samples_eq := rfl
  histogram_eq := rfl
  index_eq := (Nat.zero_mod _).symm
  limit_eq := (Nat.zero_min _).symm
  bounds := by simp

theorem statsMean_eq_some (hhist : s.histogram = none) : ∃ mean, statsMean s = some mean := by
  rw [statsMean, hhist]
  split_ifs with hlimit
  · exact ⟨_, rfl⟩
  · exact ⟨_, rfl⟩

namespace StatsCall

/-- The object after the call, when it has no histogram. -/
def result (qsort : (ℕ → ℕ → ℤ) → List ℕ → List ℕ) (s : Stats) : StatsCall → Stats
  | record x => { s with
      min := if x < s.min then x else s.min
      max := if s.max < x then x else s.max
      data := Function.update s.data s.index x
      index := Ring.next s.samples s.index
      limit := if s.limit < s.samples then s.limit + 1 else s.limit }
  | summarize => statsSummarize qsort s
  | mean => s
  | rewind => statsRewind s
  | reset => statsReset s

theorem run_eq (hhist : s.histogram = none) : call.run qsort s = some (call.result qsort s) := by
  cases call with
  | record x => simp only [run, result, statsRecord, statsRecordWith, hhist, Ring.next]
  | summarize =>
    obtain ⟨mean, hmean⟩ := statsMean_eq_some (s := statsSummarize qsort s) hhist
    simp only [run, result, hmean, Option.map_some]
  | mean =>
    obtain ⟨mean, hmean⟩ := statsMean_eq_some hhist
    simp only [run, result, hmean, Option.map_some]
  | rewind => rfl
  | reset => rfl

end StatsCall

/-- Every call counts rightly, whatever `qsort` does. -/
theorem Indexed.result (h : Indexed samples records s) (hsamples : 0 < samples)
    (qsort : (ℕ → ℕ → ℤ) → List ℕ → List ℕ) (call : StatsCall) :
    Indexed samples (call.records records) (call.result qsort s) := by
  cases call with
  | record x =>
    refine ⟨h.samples_eq, h.histogram_eq, ?_, ?_, ?_⟩
    · show Ring.next s.samples s.index = (records.length + 1) % samples
      rw [h.samples_eq, h.index_eq, Ring.next_mod hsamples]
    · have hlimit := h.limit_eq
      have hcapacity := h.samples_eq
      simp only [StatsCall.result, StatsCall.records, List.length_cons]
      split_ifs <;> omega
    · intro y hy
      simp only [StatsCall.result]
      rcases List.mem_cons.mp hy with rfl | hy
      · constructor
        · split_ifs <;> omega
        · split_ifs <;> omega
      · obtain ⟨hmin, hmax⟩ := h.bounds y hy
        constructor
        · split_ifs <;> omega
        · split_ifs <;> omega
  | summarize => exact ⟨h.samples_eq, h.histogram_eq, h.index_eq, h.limit_eq, h.bounds⟩
  | mean => exact h
  | rewind =>
    exact ⟨h.samples_eq, h.histogram_eq, (Nat.zero_mod _).symm, (Nat.zero_min _).symm,
      by simp [StatsCall.records]⟩
  | reset =>
    exact ⟨h.samples_eq, h.histogram_eq, (Nat.zero_mod _).symm, (Nat.zero_min _).symm,
      by simp [StatsCall.records]⟩

/-- Of the window, only which samples are held depends on the sorts. -/
theorem Indexed.slidingWindow_iff (h : Indexed samples records s) (hsamples : 0 < samples) :
    SlidingWindow records s ↔ s.raw.Perm (records.take s.limit) := by
  refine ⟨SlidingWindow.perm, fun hperm => ?_⟩
  have hbounds : ∀ x ∈ s.raw, s.min ≤ x ∧ x ≤ s.max := fun x hx =>
    h.bounds x (List.mem_of_mem_take (hperm.mem_iff.mp hx))
  refine ⟨?_, ?_, ?_, hperm, fun x hx => (hbounds x hx).1, fun x hx => (hbounds x hx).2⟩
  · rw [h.index_eq, h.samples_eq]
    exact Nat.mod_lt _ hsamples
  · rw [h.limit_eq, h.samples_eq]
    exact Nat.min_le_right _ _
  · rw [h.limit_eq, h.samples_eq]

/-! ## The ring that is never sorted -/

/-- Both objects count rightly, and the one that is never sorted is a ring. -/
structure Ringed (samples : ℕ) (o : Observed) : Prop where
  stats : Indexed samples o.records o.stats
  unsorted : Indexed samples o.records o.unsorted
  ring : Ring.Holds samples o.unsorted.data o.records

theorem ringed_start : Ringed samples (Observed.start samples) :=
  ⟨indexed_statsAlloc, indexed_statsAlloc, Ring.Holds.nil⟩

theorem statsSummarize_leaveInPlace : statsSummarize leaveInPlace s = s := by
  have hdata : (fun i => if i < s.limit then (leaveInPlace statsCompare s.raw).getD i 0
      else s.data i) = s.data := by
    funext i
    split_ifs with hi
    · simp [leaveInPlace, Stats.raw, hi]
    · rfl
  rw [statsSummarize, hdata]

theorem ring_result (h : Indexed samples records s) (hring : Ring.Holds samples s.data records) :
    Ring.Holds samples (call.result leaveInPlace s).data (call.records records) := by
  cases call with
  | record x =>
    have hpush := hring.push x
    rw [← h.index_eq] at hpush
    exact hpush
  | summarize =>
    rw [StatsCall.result, statsSummarize_leaveInPlace]
    exact hring
  | mean => exact hring
  | rewind => exact Ring.Holds.nil
  | reset => exact Ring.Holds.nil

/-- Both objects after a call, and what is recorded in them then. -/
def Observed.next (qsort : (ℕ → ℕ → ℤ) → List ℕ → List ℕ) (call : StatsCall) (o : Observed) :
    Observed :=
  ⟨call.result qsort o.stats, call.records o.records, call.result leaveInPlace o.unsorted⟩

theorem Ringed.observe_eq (h : Ringed samples o) :
    observe qsort call o = some (o.next qsort call) := by
  simp [observe, StatsCall.run_eq h.stats.histogram_eq, StatsCall.run_eq h.unsorted.histogram_eq,
    Observed.next]

theorem Ringed.next (h : Ringed samples o) (hsamples : 0 < samples)
    (qsort : (ℕ → ℕ → ℤ) → List ℕ → List ℕ) (call : StatsCall) :
    Ringed samples (o.next qsort call) :=
  ⟨h.stats.result hsamples qsort call, h.unsorted.result hsamples leaveInPlace call,
    ring_result h.unsorted h.ring⟩

/-- A new sample takes the place of the oldest one of a full object if and only if the slot at
    the index holds what it holds in the ring. -/
theorem Ringed.perm_record_iff (h : Ringed samples o) (hsamples : 0 < samples)
    (qsort : (ℕ → ℕ → ℤ) → List ℕ → List ℕ)
    (hperm : o.stats.raw.Perm (o.records.take o.stats.limit)) :
    ((StatsCall.record x).result qsort o.stats).raw.Perm ((x :: o.records).take
      ((StatsCall.record x).result qsort o.stats).limit) ↔ (StatsCall.record x).KeepsAge o := by
  have hlimit := h.stats.limit_eq
  have hcapacity := h.stats.samples_eq
  simp only [Stats.raw, StatsCall.KeepsAge, StatsCall.result] at hperm ⊢
  split_ifs with hroom
  · -- the sample goes behind those that are there
    have hindex : o.stats.index = o.stats.limit := by
      rw [h.stats.index_eq, Nat.mod_eq_of_lt (by omega)]
      omega
    have hnew : ((List.range o.stats.limit).map o.stats.data ++ [x]).Perm
        (x :: o.records.take o.stats.limit) :=
      (List.perm_append_singleton x _).trans (hperm.cons x)
    rw [hindex, Ring.map_update_succ, List.take_succ_cons]
    exact iff_of_true hnew fun hfull => absurd hfull hroom.ne
  · have hfull : o.stats.limit = samples := by omega
    have hindex : o.stats.index < samples := by
      rw [h.stats.index_eq]
      exact Nat.mod_lt _ hsamples
    -- of the samples held, the ring has the oldest one in the slot at the index
    obtain ⟨k, rfl⟩ := Nat.exists_eq_succ_of_ne_zero hsamples.ne'
    have holdest := h.ring.oldest hsamples (by omega)
    rw [← h.stats.index_eq, Nat.succ_sub_one] at holdest
    obtain ⟨hk, hvalue⟩ := List.getElem?_eq_some_iff.mp holdest
    rw [hfull, List.take_succ_eq_append_getElem hk, hvalue] at hperm
    -- the object itself may have any of them there
    rw [hfull, Ring.map_update_of_lt, List.take_succ_cons,
      Ring.set_perm_iff (hperm.trans (List.perm_append_singleton _ _)) (by simpa using hindex)]
    simp [hcapacity]

/-! ## Sorts -/

theorem length_raw : s.raw.length = s.limit := by simp [Stats.raw]

theorem perm_summarize (hsorts : Sorts qsort) (hc : Consistent statsCompare s.raw) :
    (statsSummarize qsort s).raw.Perm s.raw := by
  have hperm := (hsorts statsCompare s.raw hc).1
  rw [raw_statsSummarize (hperm.length_eq.trans length_raw)]
  exact hperm

/-- A sort that keeps no element where its comparator is not consistent. -/
noncomputable def spoilingSort (qsort : (ℕ → ℕ → ℤ) → List ℕ → List ℕ) (cmp : ℕ → ℕ → ℤ)
    (l : List ℕ) : List ℕ := by
  classical
  exact if Consistent cmp l then qsort cmp l else l.map (· + 1)

theorem spoilingSort_of_consistent {cmp : ℕ → ℕ → ℤ} {l : List ℕ} (hc : Consistent cmp l) :
    spoilingSort qsort cmp l = qsort cmp l := by
  rw [spoilingSort, if_pos hc]

theorem spoilingSort_sorts (hsorts : Sorts qsort) : Sorts (spoilingSort qsort) := by
  intro cmp l hc
  rw [spoilingSort_of_consistent hc]
  exact hsorts cmp l hc

/-- What is summarized with such a sort keeps its samples only if they could be ordered. -/
theorem consistent_of_perm_summarize
    (hperm : (statsSummarize (spoilingSort qsort) s).raw.Perm s.raw) :
    Consistent statsCompare s.raw := by
  by_contra hc
  have hspoiled : spoilingSort qsort statsCompare s.raw = s.raw.map (· + 1) := by
    rw [spoilingSort, if_neg hc]
  have hlength : (spoilingSort qsort statsCompare s.raw).length = s.limit := by
    rw [hspoiled, List.length_map, length_raw]
  rw [raw_statsSummarize hlength, hspoiled] at hperm
  have hsum : (s.raw.map (· + 1)).sum = s.raw.sum + s.raw.length := by
    rw [List.sum_map_add]
    simp
  have hnil : s.raw = [] := List.eq_nil_of_length_eq_zero (by
    have := hperm.sum_eq
    omega)
  rw [hnil] at hc
  exact hc ⟨by simp, by simp⟩

/-- Two sorts that agree on the samples of the object summarize it alike. -/
theorem observe_spoilingSort (h : call.KeepsAge o) :
    observe (spoilingSort qsort) call o = observe qsort call o := by
  cases call with
  | summarize =>
    have hsummarize :
        statsSummarize (spoilingSort qsort) o.stats = statsSummarize qsort o.stats := by
      rw [statsSummarize, statsSummarize, spoilingSort_of_consistent h]
    simp only [observe, StatsCall.run, hsummarize]
  | record x => rfl
  | mean => rfl
  | rewind => rfl
  | reset => rfl

/-! ## One call -/

theorem Ringed.window_iff (h : Ringed samples o) (hsamples : 0 < samples) :
    SlidingWindow o.records o.stats ↔ o.stats.raw.Perm (o.records.take o.stats.limit) :=
  h.stats.slidingWindow_iff hsamples

/-- A call that keeps the age of the samples keeps the window. -/
theorem Ringed.window_next (h : Ringed samples o) (hsamples : 0 < samples)
    (hsorts : Sorts qsort) (hwindow : SlidingWindow o.records o.stats) (hage : call.KeepsAge o) :
    SlidingWindow (o.next qsort call).records (o.next qsort call).stats := by
  rw [(h.next hsamples qsort call).window_iff hsamples]
  have hperm := hwindow.perm
  cases call with
  | record x => exact (h.perm_record_iff hsamples qsort hperm).mpr hage
  | summarize => exact (perm_summarize hsorts hage).trans hperm
  | mean => exact hperm
  | rewind => exact List.Perm.refl []
  | reset => exact List.Perm.refl []

/-- With the worst sort, only such calls do. -/
theorem Ringed.keepsAge (h : Ringed samples o) (hsamples : 0 < samples)
    (hwindow : SlidingWindow o.records o.stats)
    (hnext : SlidingWindow (o.next (spoilingSort qsort) call).records
      (o.next (spoilingSort qsort) call).stats) : call.KeepsAge o := by
  cases call with
  | record x => exact (h.perm_record_iff hsamples (spoilingSort qsort) hwindow.perm).mp hnext.perm
  | summarize => exact consistent_of_perm_summarize (hnext.perm.trans hwindow.perm.symm)
  | mean => trivial
  | rewind => trivial
  | reset => trivial

/-! ## Runs -/

section Runs

variable {calls : List StatsCall}

theorem Ringed.of_observe (h : Ringed samples o) (hsamples : 0 < samples)
    (hobserve : observe qsort call o = some o') : Ringed samples o' := by
  obtain rfl := Option.some.inj (h.observe_eq.symm.trans hobserve)
  exact h.next hsamples qsort call

theorem ringed_states (hsamples : 0 < samples) :
    ∀ o ∈ Run.states (observe qsort) calls (Observed.start samples), Ringed samples o :=
  Run.states_preserves_of (C := fun _ _ => True)
    (fun _ _ _ hobserve _ hringed => hringed.of_observe hsamples hobserve) ringed_start
    fun _ _ => trivial

theorem slidingWindow_start (hsamples : 0 < samples) :
    SlidingWindow (Observed.start samples).records (Observed.start samples).stats :=
  (ringed_start.window_iff hsamples).mpr (List.Perm.refl [])

theorem keepsAge_cons (hobserve : observe qsort call o = some o') (hage : call.KeepsAge o)
    (hrest : ∀ x ∈ Run.trace (observe qsort) calls o', x.2.KeepsAge x.1) :
    ∀ x ∈ Run.trace (observe qsort) (call :: calls) o, x.2.KeepsAge x.1 :=
  Run.forall_trace_cons (C := fun o (call : StatsCall) => call.KeepsAge o) hobserve hage hrest

/-- A run whose calls all keep the age of the samples keeps the window. -/
theorem keepsWindow_of_keepsAge (hsamples : 0 < samples) (hsorts : Sorts qsort)
    (hage : ∀ x ∈ Run.trace (observe qsort) calls (Observed.start samples), x.2.KeepsAge x.1) :
    KeepsWindow qsort samples calls := by
  have hstates : ∀ o ∈ Run.states (observe qsort) calls (Observed.start samples),
      Ringed samples o ∧ SlidingWindow o.records o.stats := by
    refine Run.states_preserves_of ?_ ⟨ringed_start, slidingWindow_start hsamples⟩ hage
    rintro call o o' hobserve hkeeps ⟨hringed, hwindow⟩
    obtain rfl := Option.some.inj (hringed.observe_eq.symm.trans hobserve)
    exact ⟨hringed.next hsamples qsort call,
      hringed.window_next hsamples hsorts hwindow hkeeps⟩
  refine ⟨?_, fun o ho => (hstates o ho).2⟩
  refine Run.run_total (P := Ringed samples) ?_ calls ringed_start
  intro call o hringed
  exact ⟨_, hringed.observe_eq, hringed.next hsamples qsort call⟩

/-- Under every correct sort, the object holds the samples recorded last after each call if and
    only if `qsort` only gets samples that its comparator can order, and no full object is
    recorded into where a sort has put another sample. -/
theorem keepsWindow_iff (hsamples : 1 ≤ samples) (calls : List StatsCall) :
    (∀ qsort, Sorts qsort →
      (∀ x ∈ Run.trace (observe qsort) calls (Observed.start samples), x.2.KeepsAge x.1) →
        KeepsWindow qsort samples calls) ∧
    ((∀ qsort, Sorts qsort → KeepsWindow qsort samples calls) →
      ∀ qsort, Sorts qsort →
        ∀ x ∈ Run.trace (observe qsort) calls (Observed.start samples), x.2.KeepsAge x.1) := by
  refine ⟨fun qsort hsorts => keepsWindow_of_keepsAge hsamples hsorts, ?_⟩
  intro hwindow qsort hsorts
  -- the worst sort does what `qsort` does as long as the samples can be ordered
  have hspoiled := (hwindow (spoilingSort qsort) (spoilingSort_sorts hsorts)).window
  have hstates : ∀ o ∈ Run.states (observe (spoilingSort qsort)) calls (Observed.start samples),
      Ringed samples o ∧ SlidingWindow o.records o.stats := fun o ho =>
    ⟨ringed_states hsamples o ho, hspoiled o ho⟩
  have hage : ∀ x ∈ Run.trace (observe (spoilingSort qsort)) calls (Observed.start samples),
      x.2.KeepsAge x.1 := by
    refine Run.trace_of_states (C := fun o (call : StatsCall) => call.KeepsAge o) ?_ hstates
    intro call o ⟨hringed, hnow⟩ hnext
    exact hringed.keepsAge hsamples hnow (hnext _ hringed.observe_eq).2
  have htrace := Run.trace_congr (C := fun o (call : StatsCall) => call.KeepsAge o)
    (fun call o hkeeps => observe_spoilingSort hkeeps) hage
  rw [htrace]
  exact hage

end Runs

/-! ### A sort that moves the oldest sample, and one that does not -/

/-- Comparable samples have one order, which every correct sort finds. -/
theorem Comparable.qsort_eq {l : List ℕ} (hc : Comparable l) (hwords : ∀ x ∈ l, x < 2 ^ 64)
    (hsorts : Sorts qsort) : qsort statsCompare l = l.insertionSort (· ≤ ·) := by
  obtain ⟨hperm, hsorted⟩ := hc.ascending hwords hsorts
  exact (hperm.trans (List.perm_insertionSort _ l).symm).eq_of_pairwise
    (fun a b _ _ hab hba => le_antisymm hab hba) hsorted (List.pairwise_insertionSort _ l)

theorem adverseSort_three_one : adverseSort statsCompare [3, 1] = [1, 3] := by
  rw [Comparable.qsort_eq (by rw [Comparable]; decide) (by decide) adverseSort_sorts]
  decide

theorem adverseSort_one_three : adverseSort statsCompare [1, 3] = [1, 3] := by
  rw [Comparable.qsort_eq (by rw [Comparable]; decide) (by decide) adverseSort_sorts]
  decide

/-- Samples that came in ascending order stay in their slots. -/
theorem keepsWindow_iff_ascending : KeepsWindow adverseSort 2
    [.record 1, .record 3, .summarize, .record 5, .mean, .rewind, .record 4] := by
  refine (keepsWindow_iff (by decide) _).1 adverseSort adverseSort_sorts ?_
  have hc : Consistent statsCompare [1, 3] :=
    Comparable.consistent (by rw [Comparable]; decide) (by decide)
  have hslot : (adverseSort statsCompare [1, 3]).getD 0 0 = 1 := by
    rw [adverseSort_one_three]
    rfl
  refine keepsAge_cons rfl (fun hfull => by cases hfull) ?_
  refine keepsAge_cons rfl (fun hfull => by cases hfull) ?_
  refine keepsAge_cons rfl hc ?_
  refine keepsAge_cons rfl (fun _ => hslot) ?_
  refine keepsAge_cons rfl trivial ?_
  refine keepsAge_cons rfl trivial ?_
  refine keepsAge_cons rfl (fun hfull => by cases hfull) ?_
  exact fun x hx => absurd hx List.not_mem_nil

/-- The sort moves the oldest sample out of the slot that is written next, and a later one is
    written over in its place. -/
theorem summarized_window_fails : Sorts adverseSort ∧
    ¬ KeepsWindow adverseSort 2 [.record 3, .record 1, .summarize, .record 5] := by
  refine ⟨adverseSort_sorts, fun hkeeps => ?_⟩
  have hperm : [5, (adverseSort statsCompare [3, 1]).getD 1 0].Perm [5, 1] :=
    (hkeeps.window _ (Run.mem_states_of_run rfl)).perm
  rw [adverseSort_three_one] at hperm
  exact absurd hperm (by decide)

end Wrkx
