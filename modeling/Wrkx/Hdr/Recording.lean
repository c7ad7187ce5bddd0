import Wrkx.Hdr.Merge
import Wrkx.Stats.Stats

/-!
# Recording any value

The index arithmetic of `hdr_record_value` runs before its range test. A value past the last
bucket, or a negative one, fails an assertion of `counts_index`, and the branch that would
return false is never reached. A value in range is recorded, cleanly unless a counter
overflows.

## Main results

- `Operated.shaped` — no operation changes the shape of a histogram
- `recording_iff` — a recording is clean if and only if the value lies below `2 ^ 37` and no
  counter overflows
-/

namespace Wrkx

open Word LogLinear

variable {m n : ℕ} {h : HdrHistogram}

/-- The loop of `hdr_record_corrected_value`, allowed `fuel` rounds. -/
def correctedLoop (expectedInterval : ℤ) : ℕ → ℤ → HdrHistogram → Option (Bool × HdrHistogram)
  | 0, _, _ => none
  | fuel + 1, missingValue, h =>
    if missingValue < expectedInterval then
      some (true, h)
    else do
      let (ok, h) ← hdrRecordValue64 h missingValue
      if ok then correctedLoop expectedInterval fuel (missingValue - expectedInterval) h
      else some (false, h)

/-- `hdr_record_corrected_value`. -/
def hdrRecordCorrectedValue (h : HdrHistogram) (value expectedInterval : ℤ) :
    Option (Bool × HdrHistogram) := do
  let (ok, h) ← hdrRecordValue64 h value
  if !ok then
    some (false, h)
  else if expectedInterval ≤ 0 ∨ value ≤ expectedInterval then
    some (true, h)
  else
    correctedLoop expectedInterval value.toNat (value - expectedInterval) h

/-- What a sequence of operations that return makes of a histogram of
    `hdr_init (1, MAX_LATENCY, 3)`, whatever values and counts it is given. The other writers
    are calls of `hdr_record_values`, by the lemmas below. -/
inductive Operated : HdrHistogram → Prop
  | init {h : HdrHistogram} (hinit : hdrInit 1 maxLatency 3 = some h) : Operated h
  | recordValues {h h' : HdrHistogram} {v count : ℤ} {ok : Bool} (hh : Operated h)
      (hrecord : hdrRecordValues64 h v count = some (ok, h')) : Operated h'
  | reset {h : HdrHistogram} (hh : Operated h) : Operated (hdrReset h)

theorem Operated.recordValue {h' : HdrHistogram} {v : ℤ} {ok : Bool} (hh : Operated h)
    (hrecord : hdrRecordValue64 h v = some (ok, h')) : Operated h' :=
  .recordValues hh hrecord

theorem Operated.correctedLoop {h' : HdrHistogram} {expectedInterval missingValue : ℤ} {fuel : ℕ}
    {ok : Bool} (hh : Operated h)
    (hloop : correctedLoop expectedInterval fuel missingValue h = some (ok, h')) :
    Operated h' := by
  induction fuel generalizing missingValue h with
  | zero => exact absurd hloop (by simp [Wrkx.correctedLoop])
  | succ fuel ih =>
    rw [Wrkx.correctedLoop] at hloop
    split at hloop
    · simp only [Option.some.injEq, Prod.mk.injEq] at hloop
      exact hloop.2 ▸ hh
    · obtain ⟨⟨recorded, h₁⟩, hrecord, hrest⟩ := Option.bind_eq_some_iff.mp hloop
      have hh₁ := hh.recordValue hrecord
      cases recorded
      · simp only [Bool.false_eq_true, if_false, Option.some.injEq, Prod.mk.injEq] at hrest
        exact hrest.2 ▸ hh₁
      · exact ih hh₁ hrest

/-- `hdr_record_corrected_value` is a sequence of recordings. -/
theorem Operated.recordCorrected {h' : HdrHistogram} {v interval : ℤ} {ok : Bool}
    (hh : Operated h) (hrecord : hdrRecordCorrectedValue h v interval = some (ok, h')) :
    Operated h' := by
  obtain ⟨⟨recorded, h₁⟩, hfirst, hrest⟩ := Option.bind_eq_some_iff.mp hrecord
  have hh₁ := hh.recordValue hfirst
  dsimp only at hrest
  split at hrest
  · simp only [Option.some.injEq, Prod.mk.injEq] at hrest
    exact hrest.2 ▸ hh₁
  · split at hrest
    · simp only [Option.some.injEq, Prod.mk.injEq] at hrest
      exact hrest.2 ▸ hh₁
    · exact hh₁.correctedLoop hrest

theorem Operated.addLoop {src : HdrHistogram → HdrHistogram} {h' : HdrHistogram} {iter : HdrIter}
    {rounds fuel : ℕ} {dropped total : ℤ} (hh : Operated h)
    (hloop : hdrAddLoop64 src rounds fuel iter dropped h = some (total, h')) : Operated h' := by
  induction fuel generalizing iter dropped h with
  | zero => exact absurd hloop (by simp [hdrAddLoop64])
  | succ fuel ih =>
    obtain ⟨⟨more, iter⟩, -, hbody⟩ := Option.bind_eq_some_iff.mp hloop
    cases more
    · simp only [Bool.false_eq_true, if_false, Option.some.injEq, Prod.mk.injEq] at hbody
      exact hbody.2 ▸ hh
    · obtain ⟨⟨ok, h₁⟩, hrecord, hrest⟩ := Option.bind_eq_some_iff.mp hbody
      exact ih (hh.recordValues hrecord) hrest

/-- So is `hdr_add`, whatever histogram it reads and whatever the iterator makes of it. -/
theorem Operated.add {src h' : HdrHistogram} {dropped : ℤ} (hh : Operated h)
    (hadd : hdrAdd64 h src = some (dropped, h')) : Operated h' :=
  hh.addLoop hadd

theorem Operated.addSelf {rounds : ℕ} {h' : HdrHistogram} {dropped : ℤ} (hh : Operated h)
    (hadd : hdrAddSelf64 rounds h = some (dropped, h')) : Operated h' :=
  hh.addLoop hadd

/-! ## The shape -/

theorem Shaped.of_hdrRecordValues64 (hs : Shaped m n h) {h' : HdrHistogram} {v count : ℤ}
    {ok : Bool} (hrecord : hdrRecordValues64 h v count = some (ok, h')) : Shaped m n h' := by
  simp only [hdrRecordValues64, Option.map_eq_some_iff] at hrecord
  obtain ⟨i, -, hrecord⟩ := hrecord
  split at hrecord
  · obtain ⟨-, rfl⟩ := Prod.mk.inj hrecord
    exact hs
  · obtain ⟨-, rfl⟩ := Prod.mk.inj hrecord
    exact ⟨hs.unit, hs.magnitude, hs.halfCount, hs.mask, hs.count, hs.buckets, hs.len,
      hs.magnitude_lt, hs.buckets_pos, hs.range_le⟩

/-- No operation changes the shape, even when values are dropped on the way. -/
theorem Operated.shaped (hh : Operated h) : Shaped 10 27 h := by
  induction hh with
  | init hinit =>
    rw [hdrInit_maxLatency, Option.some.injEq] at hinit
    exact hinit ▸ latencyHistogram_shaped
  | recordValues _ hrecord ih => exact ih.of_hdrRecordValues64 hrecord
  | reset _ ih => exact ih.hdrReset

/-! ## Clean recordings -/

/-- A call of `hdr_record_values` is clean: a value below `2 ^ 37` is added to one slot and to
    the total, and any other one is refused with the histogram unchanged. -/
def RecordsCleanly (h : HdrHistogram) (v count : ℤ) : Prop :=
  ((0 ≤ v ∧ v < 2 ^ 37) ∧ ∃ i : ℕ, (i : ℤ) < h.countsLen ∧
    hdrRecordValues64 h v count = some (true, h.plus (Pi.single i count) count)) ∨
  (¬ (0 ≤ v ∧ v < 2 ^ 37) ∧ hdrRecordValues64 h v count = some (false, h))

/-- No `int64_t` overflows when `count` is added to the slot of `v` and to the total. -/
def CountersFit (h : HdrHistogram) (v count : ℤ) : Prop :=
  (∀ i, countsIndexFor h v = some i →
    -2 ^ 63 ≤ h.counts i.toNat + count ∧ h.counts i.toNat + count < 2 ^ 63) ∧
  -2 ^ 63 ≤ h.totalCount + count ∧ h.totalCount + count < 2 ^ 63

theorem Shaped.hdrRecordValues64_natCast (hs : Shaped m n h) {v : ℕ} (hv : v < 2 ^ (m + n))
    (count : ℤ) : hdrRecordValues64 h v count = some (true, { h with
      counts := Function.update h.counts (slot m v) (int64 (h.counts (slot m v) + count))
      totalCount := int64 (h.totalCount + count) }) := by
  have hlen : ¬ ((slot m v : ℤ) < 0 ∨ h.countsLen ≤ slot m v) := by
    have hlt := slot_lt hs.buckets_pos hv
    rw [hs.len]
    omega
  simp [hdrRecordValues64, hs.countsIndexFor_natCast hv, hlen]

theorem update_eq_add_single {f : ℕ → ℤ} {i : ℕ} {count : ℤ}
    (hfits : int64 (f i + count) = f i + count) :
    Function.update f i (int64 (f i + count)) = f + Pi.single i count := by
  funext j
  by_cases hj : j = i
  · subst hj
    simp [hfits]
  · simp [hj]

/-- A slot that gained exactly `count` did not overflow. -/
theorem fits_of_update_eq {f : ℕ → ℤ} {i j : ℕ} {count : ℤ}
    (heq : Function.update f i (int64 (f i + count)) = f + Pi.single j count) :
    int64 (f i + count) = f i + count := by
  have hi := congrFun heq i
  rw [Function.update_self, Pi.add_apply] at hi
  by_cases hij : i = j
  · subst hij
    rwa [Pi.single_eq_same] at hi
  · have hj := congrFun heq j
    rw [Function.update_of_ne (Ne.symm hij), Pi.add_apply, Pi.single_eq_same] at hj
    have hzero : count = 0 := by omega
    rw [Pi.single_eq_of_ne hij] at hi
    rw [hi, hzero]

theorem Shaped.countersFit_iff (hs : Shaped m n h) {v : ℕ} (hv : v < 2 ^ (m + n)) (count : ℤ) :
    CountersFit h v count ↔ int64 (h.counts (slot m v) + count) = h.counts (slot m v) + count ∧
      int64 (h.totalCount + count) = h.totalCount + count := by
  rw [CountersFit, int64_eq_self_iff, int64_eq_self_iff, hs.countsIndexFor_natCast hv]
  simp only [Option.some.injEq, forall_eq', Int.toNat_natCast]

/-- A value in range is added to one slot and to the total if neither overflows. -/
theorem Shaped.adds_iff (hs : Shaped 10 27 h) {v : ℕ} (hv : v < 2 ^ 37) (count : ℤ) :
    (∃ i : ℕ, (i : ℤ) < h.countsLen ∧
      hdrRecordValues64 h v count = some (true, h.plus (Pi.single i count) count)) ↔
      CountersFit h v count := by
  rw [hs.countersFit_iff hv, hs.hdrRecordValues64_natCast hv]
  have hslot : slot 10 v < h.countsLen.toNat := hs.slot_lt_countsLen hv
  constructor
  · rintro ⟨i, -, hplus⟩
    simp only [HdrHistogram.plus, Option.some.injEq, Prod.mk.injEq, HdrHistogram.mk.injEq,
      true_and] at hplus
    exact ⟨fits_of_update_eq hplus.2, hplus.1⟩
  · rintro ⟨hcount, htotal⟩
    refine ⟨slot 10 v, by omega, ?_⟩
    rw [update_eq_add_single hcount, htotal, HdrHistogram.plus]

/-- A value out of range does not come back from the index arithmetic. -/
theorem Shaped.hdrRecordValues64_eq_none (hs : Shaped 10 27 h) {v : ℤ} (hmin : -2 ^ 63 ≤ v)
    (hmax : v < 2 ^ 63) (hv : ¬ (0 ≤ v ∧ v < 2 ^ 37)) (count : ℤ) :
    hdrRecordValues64 h v count = none := by
  have hindex : countsIndexFor h v = none := by
    rcases lt_or_ge v 0 with hneg | hpos
    · exact hs.countsIndexFor_neg hneg hmin
    · obtain ⟨v, rfl⟩ := Int.eq_ofNat_of_zero_le hpos
      have hge : 2 ^ 37 ≤ v := by omega
      exact hs.countsIndexFor_eq_none hge (by omega)
  rw [hdrRecordValues64, hindex, Option.map_none]

theorem Shaped.recordsCleanly_iff (hs : Shaped 10 27 h) {v : ℤ} (hmin : -2 ^ 63 ≤ v)
    (hmax : v < 2 ^ 63) (count : ℤ) :
    RecordsCleanly h v count ↔ (0 ≤ v ∧ v < 2 ^ 37) ∧ CountersFit h v count := by
  by_cases hv : 0 ≤ v ∧ v < 2 ^ 37
  · obtain ⟨v, rfl⟩ := Int.eq_ofNat_of_zero_le hv.1
    have hlt : v < 2 ^ 37 := by omega
    rw [RecordsCleanly, hs.adds_iff hlt count]
    exact or_iff_left fun hrefused => hrefused.1 hv
  · refine iff_of_false ?_ fun hfits => hv hfits.1
    rintro (⟨hin, -⟩ | ⟨-, hrefused⟩)
    · exact hv hin
    · rw [hs.hdrRecordValues64_eq_none hmin hmax hv] at hrefused
      exact absurd hrefused (by simp)

/-- An unsigned word passed as an `int64_t` lies in range if it did before. -/
theorem int64_inRange_iff {x : ℕ} (hx : x < 2 ^ 64) :
    0 ≤ int64 x ∧ int64 x < 2 ^ 37 ↔ x < 2 ^ 37 := by
  simp only [int64, Int.bmod_def]
  omega

theorem Shaped.statsRecord64_isSome_iff (hs : Shaped 10 27 h) {s : Stats}
    (hhist : s.histogram = some h) {x : ℕ} (hx : x < 2 ^ 64) :
    (statsRecord64 s x).isSome ↔ x < 2 ^ 37 := by
  have hrange := int64_range x
  simp only [statsRecord64, statsRecordWith, hhist, Option.isSome_map, hdrRecordValue64]
  constructor
  · intro hsome
    by_contra hge
    rw [hs.hdrRecordValues64_eq_none hrange.1 hrange.2
      (mt (int64_inRange_iff hx).mp hge)] at hsome
    exact absurd hsome (by simp)
  · intro hlt
    rw [int64_natCast (by omega), hs.hdrRecordValues64_natCast hlt]
    rfl

/-- A call of `stats_record` returns and adds one sample to the histogram. -/
def StatsRecordsCleanly (s : Stats) (h : HdrHistogram) (x : ℕ) : Prop :=
  ∃ s', statsRecord64 s x = some s' ∧ ∃ i : ℕ, (i : ℤ) < h.countsLen ∧
    s'.histogram = some (h.plus (Pi.single i 1) 1)

theorem Shaped.statsRecordsCleanly_iff (hs : Shaped 10 27 h) {s : Stats}
    (hhist : s.histogram = some h) {x : ℕ} (hx : x < 2 ^ 64) :
    StatsRecordsCleanly s h x ↔ x < 2 ^ 37 ∧ CountersFit h x 1 := by
  constructor
  · rintro ⟨s', hrecord, i, hi, hplus⟩
    have hlt := (hs.statsRecord64_isSome_iff hhist hx).mp (Option.isSome_of_eq_some hrecord)
    refine ⟨hlt, (hs.adds_iff hlt 1).mp ⟨i, hi, ?_⟩⟩
    simp only [statsRecord64, statsRecordWith, hhist, hdrRecordValue64, Option.map_eq_some_iff]
      at hrecord
    obtain ⟨⟨ok, h'⟩, hrecord, rfl⟩ := hrecord
    rw [int64_natCast (by omega)] at hrecord
    have hvalue := hs.hdrRecordValues64_natCast hlt 1
    rw [hrecord] at hvalue ⊢
    simp only [Option.some.injEq, Prod.mk.injEq] at hvalue hplus
    rw [hvalue.1, hplus]
  · rintro ⟨hlt, hfits⟩
    obtain ⟨i, hi, hrecord⟩ := (hs.adds_iff hlt 1).mpr hfits
    simp only [StatsRecordsCleanly, statsRecord64, statsRecordWith, hhist, hdrRecordValue64,
      int64_natCast (show x < 2 ^ 63 by omega), hrecord, Option.map_some]
    exact ⟨_, rfl, i, hi, rfl⟩

/-- After any operations, a call of `hdr_record_value` or `hdr_record_values` is clean if and
    only if its value lies below `2 ^ 37` and no counter overflows. One of `stats_record`
    returns for a value below `2 ^ 37`, and records it if no counter overflows. -/
theorem recording_iff (hh : Operated h) {v : ℤ} (hmin : -2 ^ 63 ≤ v) (hmax : v < 2 ^ 63) :
    (∀ count, RecordsCleanly h v count ↔ (0 ≤ v ∧ v < 2 ^ 37) ∧ CountersFit h v count) ∧
    ∀ s x, s.histogram = some h → x < 2 ^ 64 → ((statsRecord64 s x).isSome ↔ x < 2 ^ 37) ∧
      (StatsRecordsCleanly s h x ↔ x < 2 ^ 37 ∧ CountersFit h x 1) :=
  ⟨hh.shaped.recordsCleanly_iff hmin hmax, fun _ _ hhist hx =>
    ⟨hh.shaped.statsRecord64_isSome_iff hhist hx, hh.shaped.statsRecordsCleanly_iff hhist hx⟩⟩

/-- The end of the last bucket, on a histogram that has recorded a value. -/
theorem recording_iff_end : ∃ h, hdrRecordValue64 latencyHistogram 5 = some (true, h) ∧
    (RecordsCleanly h (2 ^ 37 - 1) 1 ↔
      ((0 : ℤ) ≤ 2 ^ 37 - 1 ∧ (2 ^ 37 - 1 : ℤ) < 2 ^ 37) ∧ CountersFit h (2 ^ 37 - 1) 1) := by
  have hrecord := latencyHistogram_shaped.hdrRecordValues64_natCast (v := 5) (by norm_num) 1
  have hh : Operated latencyHistogram := .init hdrInit_maxLatency
  exact ⟨_, hrecord, (recording_iff (hh.recordValue hrecord) (by norm_num) (by norm_num)).1 1⟩

/-- The value just past the last bucket aborts the process, and so does `-1`. -/
theorem recording_past_end : hdrInit 1 maxLatency 3 = some latencyHistogram ∧
    ¬ RecordsCleanly latencyHistogram (2 ^ 37) 1 ∧ ¬ RecordsCleanly latencyHistogram (-1) 1 ∧
    hdrRecordValue64 latencyHistogram (2 ^ 37) = none := by
  have hs := latencyHistogram_shaped
  refine ⟨hdrInit_maxLatency, ?_, ?_, ?_⟩
  · rw [hs.recordsCleanly_iff (by norm_num) (by norm_num)]
    norm_num
  · rw [hs.recordsCleanly_iff (by norm_num) (by norm_num)]
    norm_num
  · exact hs.hdrRecordValues64_eq_none (by norm_num) (by norm_num) (by norm_num) 1

end Wrkx
