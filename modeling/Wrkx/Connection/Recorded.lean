import Wrkx.Connection.Latency
import Wrkx.Connection.Streams
import Wrkx.Hdr.Summary

/-!
# What a response records

The values that `response_complete` gives to the histograms lie in their range, and no
assertion of `counts_index` fails, as long as no response arrives before the connection has
started its first batch. The first batch start is what sets `actual_latency_start`: before it
the field is zero and the uncorrected latency is the time of day.

## Main results

- `Act.recorded` — every act keeps the histograms sound and the process alive
- `recorded_in_range` — so along every run without early responses all values are in range
- `early_response_aborts` — one early response ends the process
-/

namespace Wrkx

open History Word

/-- The readings of the clock in a history. -/
def readings (h : List Obs) : List ℕ := h.filterMap Obs.reading

/-- No two readings of the clock are further apart than a histogram reaches. -/
def Short (h : List Obs) : Prop := ∀ t ∈ readings h, ∀ t' ∈ readings h, t' ≤ t + maxLatency

instance (h : List Obs) : Decidable (Short h) :=
  inferInstanceAs (Decidable (∀ t ∈ readings h, ∀ t' ∈ readings h, t' ≤ t + maxLatency))

theorem backward_short : Backward Short := by
  intro h h' hsuffix hh t ht t' ht'
  obtain ⟨newer, rfl⟩ := hsuffix
  have hmem : ∀ t ∈ readings h, t ∈ readings (newer ++ h) := fun t ht => by
    rw [readings, List.filterMap_append]
    exact List.mem_append_right _ ht
  exact hh t (hmem t ht) t' (hmem t' ht')

/-- A response before `stop_at` comes after the first batch start. -/
def Prompt (stopAt : ℕ) (o : Obs) (older : List Obs) : Prop :=
  ∀ now ∈ o.completedAt, now < stopAt → HasStarted older

instance (stopAt : ℕ) (o : Obs) (older : List Obs) : Decidable (Prompt stopAt o older) :=
  inferInstanceAs (Decidable (∀ now ∈ o.completedAt, now < stopAt → HasStarted older))

/-- A latency that the histograms can hold. -/
def InRange (v : ℤ) : Prop := 0 ≤ v ∧ v ≤ maxLatency

/-- No assertion has failed, and the values given to the histograms are in their range. -/
def RecordsInRange (l : Local) : Prop :=
  l.aborted = false ∧ ∀ expected actual, .record expected actual ∈ l.history →
    InRange expected ∧ InRange actual

/-- The histograms of the thread are latency histograms and the process is alive. -/
structure Sound (stopAt : ℕ) (l : Local) : Prop where
  stop : l.thread.stopAt = stopAt
  latency : LatencyHistogram l.thread.latencyHistogram
  uLatency : LatencyHistogram l.thread.uLatencyHistogram
  alive : l.aborted = false

/-- The invariant behind the range of the recorded values. -/
structure Recorded (stopAt : ℕ) (l : Local) : Prop extends Sound stopAt l where
  threadStart : l.tcp ≠ 0 → l.c.threadStart ∈ readings l.history
  inRange : ∀ expected actual, .record expected actual ∈ l.history →
    InRange expected ∧ InRange actual

theorem mem_readings_append {noted h : List Obs} {t : ℕ} (ht : t ∈ readings h) :
    t ∈ readings (noted ++ h) := by
  rw [readings, List.filterMap_append]
  exact List.mem_append_right _ ht

section Acts

variable {S : Setting} {l l' : Local} {stopAt : ℕ}

theorem Sound.of_quiet (hl : Sound stopAt l) (hthread : l.thread.Quiet l'.thread)
    (habort : l'.aborted = l.aborted) : Sound stopAt l' := by
  rw [Thread.Quiet] at hthread
  refine ⟨?_, ?_, ?_, habort.trans hl.alive⟩ <;> rw [hthread]
  · exact hl.stop
  · exact hl.latency
  · exact hl.uLatency

/-- An act that records nothing and leaves the histograms alone. -/
theorem Recorded.of_quiet (hl : Recorded stopAt l) (noted : List Obs)
    (hhistory : l'.history = noted ++ l.history)
    (hnoted : ∀ expected actual, Obs.record expected actual ∉ noted)
    (hsound : Sound stopAt l') (hthreadStart : l'.tcp ≠ 0 → l.tcp ≠ 0)
    (hc : l'.c.threadStart = l.c.threadStart) : Recorded stopAt l' := by
  refine ⟨hsound, fun h => ?_, fun expected actual h => ?_⟩
  · rw [hc, hhistory]
    exact mem_readings_append (hl.threadStart (hthreadStart h))
  · rw [hhistory] at h
    exact hl.inRange _ _ ((List.mem_append.mp h).resolve_left (hnoted _ _))

/-! ## Recording -/

theorem Sound.recordLatencyValue (hl : Sound stopAt l) {v : ℤ} (hv : InRange v) :
    Sound stopAt (recordValue (·.latencyHistogram) (fun h t => { t with latencyHistogram := h })
      v l) := by
  obtain ⟨h', hrecord, hl'⟩ := hl.latency.hdrRecordValue hv.1 hv.2
  simp only [recordValue, hrecord]
  exact ⟨hl.stop, hl', hl.uLatency, hl.alive⟩

theorem Sound.recordULatencyValue (hl : Sound stopAt l) {v : ℤ} (hv : InRange v) :
    Sound stopAt (recordValue (·.uLatencyHistogram) (fun h t => { t with uLatencyHistogram := h })
      v l) := by
  obtain ⟨h', hrecord, hl'⟩ := hl.uLatency.hdrRecordValue hv.1 hv.2
  simp only [recordValue, hrecord]
  exact ⟨hl.stop, hl.latency, hl', hl.alive⟩

/-- Two values in range are recorded and keep the histograms sound. -/
theorem Sound.recordLatency (hl : Sound stopAt l) {now : Micros} {timing : ℤ}
    (htiming : InRange timing) (hactual : InRange (int64 (sub64 now l.c.actualLatencyStart))) :
    Sound stopAt (recordLatency S now timing l) := by
  have hnoted : ∀ o, Sound stopAt (l.note o) := fun _ => hl.of_quiet (.refl _) rfl
  simp only [Wrkx.recordLatency]
  split_ifs
  · exact (hnoted _).recordLatencyValue htiming
  · exact ((hnoted _).recordLatencyValue htiming).recordULatencyValue hactual
  · exact hl

theorem mem_measurement {now tcp : ℕ} {c : Connection} {expected actual : ℤ}
    (h : .record expected actual ∈ measurement S now tcp c) :
    expected = int64 (sub64 now (expectedLatencyStart S c)) ∧
      actual = int64 (sub64 now c.actualLatencyStart) := by
  simp only [measurement] at h
  split_ifs at h
  · simpa using h
  · simp at h

theorem record_notMem_received {i : CompleteInput} {tcp : ℕ} {c : Connection}
    (expected actual : ℤ) :
    .record expected actual ∉ delivery i c ++ [.complete tcp i.now i.status, .clock i.now] := by
  intro h
  exact untimed_received _ h

/-- The two latencies of a response after the first batch start. -/
theorem inRange_respond (htimed : Timed S l) {i : CompleteInput}
    (horder : InOrder (.clock i.now) l.history) (hstarted : HasStarted l.history)
    (hshort : i.now ≤ l.c.threadStart + maxLatency) :
    InRange (int64 (sub64 i.now (expectedLatencyStart S l.c))) ∧
      InRange (int64 (sub64 i.now l.c.actualLatencyStart)) := by
  obtain ⟨hexpected, t, ht, hactual⟩ := htimed.starts hstarted
  have hnow : l.c.actualLatencyStart ≤ i.now := hactual.trans (horder _ rfl t ht)
  have hthreadStart : l.c.threadStart ≤ expectedLatencyStart S l.c := Nat.le_add_right _ _
  rw [int64_sub64 (hexpected.trans hnow) i.now.isLt, int64_sub64 hnow i.now.isLt]
  constructor <;> constructor <;> omega

/-- A response that is measured comes after the first batch start and within reach of the
    clock. -/
theorem inRange_measured (hl : Recorded stopAt l) (htimed : Timed S l) (htcp : l.tcp ≠ 0)
    {i : CompleteInput} (hstop : i.now < l.thread.stopAt)
    (horder : Each InOrder (respond S i l).history) (hshort : Short (respond S i l).history)
    (hprompt : Each (Prompt stopAt) (respond S i l).history) :
    InRange (int64 (sub64 i.now (expectedLatencyStart S l.c))) ∧
      InRange (int64 (sub64 i.now l.c.actualLatencyStart)) := by
  have hsuffix := suffix_received S i l
  have hclock := (horder.of_suffix hsuffix).2.1
  have hstarted : HasStarted l.history := by
    have := hprompt.at_entry hsuffix _ rfl (by rw [← hl.stop]; exact hstop)
    simpa [HasStarted, Obs.isBatchStart] using this
  obtain ⟨newer, hnewer⟩ := hsuffix
  have hreach : (i.now : ℕ) ≤ l.c.threadStart + maxLatency := by
    rw [← hnewer] at hshort
    refine hshort _ (mem_readings_append ?_) _ (mem_readings_append ?_)
    · exact @mem_readings_append [_, _] _ _ (hl.threadStart htcp)
    · simp [readings, Obs.reading]
  exact inRange_respond htimed hclock hstarted hreach

/-- A response at the end of the run is not measured. -/
theorem recorded_respond_stop (hl : Recorded stopAt l) {i : CompleteInput} (htcp : l.tcp ≠ 0)
    (hstop : l.thread.stopAt ≤ i.now) : Recorded stopAt (respond S i l) := by
  have hhistory : (respond S i l).history = (deliver i l).history := by
    rw [respond_history, if_pos hstop]
  have heq : respond S i l = { deliver i l with thread :=
      { (countResponse i l).thread with loop := aeStop l.thread.loop } } := by
    simp [respond, hstop]
  refine hl.of_quiet _ (hhistory.trans deliver_received) record_notMem_received ?_
    (fun _ => htcp) ?_
  · rw [heq]
    exact ⟨hl.stop, hl.latency, hl.uLatency, by simpa using hl.alive⟩
  · rw [respond_c, if_pos hstop, delivered_threadStart]

/-- A response within reach of the clock that comes after the first batch start. -/
theorem recorded_respond (hl : Recorded stopAt l) (htimed : Timed S l) (hbasic : Basic l)
    {i : CompleteInput} {fd : Fd} (hcalls : l.Calls fd false .socketReadable)
    (horder : Each InOrder (respond S i l).history) (hshort : Short (respond S i l).history)
    (hprompt : Each (Prompt stopAt) (respond S i l).history) :
    Recorded stopAt (respond S i l) := by
  have htcp : l.tcp ≠ 0 := hbasic.tcp_of_calls hcalls
  by_cases hstop : l.thread.stopAt ≤ i.now
  · exact recorded_respond_stop hl htcp hstop
  · have hhistory : (respond S i l).history =
        measurement S i.now l.tcp l.c ++ (deliver i l).history := by
      rw [respond_history, if_neg hstop]
    obtain ⟨htiming, hactual⟩ :=
      inRange_measured hl htimed htcp (not_le.mp hstop) horder hshort hprompt
    refine ⟨?_, fun _ => ?_, fun expected actual h => ?_⟩
    · have heq : respond S i l = measureResponse S i (deliver i l) := by
        simp [respond, hstop]
      rw [heq, measureResponse]
      refine Sound.recordLatency (.of_quiet ⟨?_, ?_, ?_, ?_⟩ quiet_decrementPending (by simp)) ?_ ?_
      · simpa using hl.stop
      · simpa using hl.latency
      · simpa using hl.uLatency
      · simpa using hl.alive
      · simpa [expectedLatencyStart] using htiming
      · simpa [decrementPending_c] using hactual
    · have hmem : l.c.threadStart ∈
          readings (measurement S i.now l.tcp l.c ++ (deliver i l).history) := by
        rw [deliver_received]
        exact mem_readings_append (mem_readings_append (hl.threadStart htcp))
      rw [hhistory, respond_c, if_neg hstop]
      simpa using hmem
    · rw [hhistory, deliver_received] at h
      rcases List.mem_append.mp h with h | h
      · obtain ⟨hexpected, hactual'⟩ := mem_measurement h
        rw [hexpected, hactual']
        exact ⟨htiming, hactual⟩
      · exact hl.inRange _ _ ((List.mem_append.mp h).resolve_left (record_notMem_received _ _))

theorem calibrate_isSome (S : Setting) (started armed : Micros) {t : Thread}
    (ht : LatencyHistogram t.latencyHistogram) : (calibrate S started armed t).isSome := by
  obtain ⟨mean, hmean⟩ := Option.isSome_iff_exists.mp (hdrMean_isSome ht.shaped ht.tallied)
  obtain ⟨percentile, hpercentile⟩ :=
    Option.isSome_iff_exists.mp (hdrValueAtPercentile_isSome ht.shaped ht.tallied 90)
  simp only [calibrate, hmean, hpercentile, Option.bind_eq_bind, Option.bind_some]
  split_ifs <;> rfl

/-- Every act keeps the histograms sound and the process alive, in a short run without early
    responses. -/
theorem Act.recorded (hact : Act S l l') (hbasic : Basic l) (htimed : Timed S l)
    (horder : Each InOrder l'.history) (hshort : Short l'.history)
    (hprompt : Each (Prompt stopAt) l'.history) (hl : Recorded stopAt l) :
    Recorded stopAt l' := by
  -- most acts measure nothing
  have hquiet : ∀ noted : List Obs, l'.history = noted ++ l.history →
      (∀ expected actual, Obs.record expected actual ∉ noted) → l.thread.Quiet l'.thread →
      l'.aborted = l.aborted → (l'.tcp ≠ 0 → l.tcp ≠ 0) →
      l'.c.threadStart = l.c.threadStart → Recorded stopAt l' :=
    fun noted hhistory hnoted hthread habort => hl.of_quiet noted hhistory hnoted
      (hl.toSound.of_quiet hthread habort)
  cases hact with
  | tick now => exact hquiet [_] rfl (by simp) (.refl _) rfl id rfl
  | parser => exact hquiet [] rfl (by simp) (.refl _) rfl id rfl
  | thread t hframe =>
    -- the calibration keeps both histograms or resets them
    refine hl.of_quiet [] rfl (by simp) ⟨hframe.stopAt.trans hl.stop, ?_, ?_, hl.alive⟩ id rfl
    · rcases hframe.tally.histograms with ⟨h, -⟩ | ⟨h, -⟩ <;> simp only [h]
      · exact hl.latency
      · exact hl.latency.hdrReset
    · rcases hframe.tally.histograms with ⟨-, h⟩ | ⟨-, h⟩ <;> simp only [h]
      · exact hl.uLatency
      · exact hl.uLatency.hdrReset
  | fail started armed hfail =>
    exact absurd (calibrate_isSome S started armed hl.latency) (by simp [hfail])
  | initial id now i harmed =>
    have hconnects := Local.initialConnect_connects now i l
    obtain ⟨ok, hhistory⟩ := hconnects.history_eq
    have hsound := hl.toSound.of_quiet (hconnects.quiet.trans (quiet_setLoop
      (f := (aeDeleteTimeEvent · id)))) hconnects.aborted_eq
    refine ⟨hsound, fun _ => ?_, fun expected actual h => ?_⟩
    · rw [setLoop_c, setLoop_history, hconnects.c_eq, hhistory]
      simp [readings, Obs.reading, Local.begun]
    · rw [setLoop_history, hhistory] at h
      exact hl.inRange _ _ (by simpa [Local.begun] using h)
  | reconnect i hconnected =>
    have hconnects := Local.reconnectSocket_connects i l
    obtain ⟨ok, hhistory⟩ := hconnects.history_eq
    refine hquiet [_, _] hhistory (by simp)
      (.trans Local.quiet_deleteFileEvent hconnects.quiet) hconnects.aborted_eq
      (fun _ => hconnected.1) ?_
    rw [hconnects.c_eq]
    rfl
  | paced now =>
    obtain ⟨noted, hhistory, hnoted⟩ := usecToNextSend_history S now l
    refine hquiet (noted ++ [.clock now]) (by simp [hhistory]) ?_ ?_ (by simp) (by simp) ?_
    · rcases hnoted with rfl | rfl | rfl <;> simp
    · rw [usecToNextSend_thread]
      exact .refl _
    · rw [usecToNextSend_c]
  | park fd writable armed wait hcalls hwritten =>
    exact hquiet [_, _] park_history (by simp) quiet_park rfl id rfl
  | resume id harmed =>
    exact hquiet [_] resume_history (by simp) quiet_resume (by simp) (by simp) (by simp)
  | start fd writable i hcalls hwritten hclock hpermits =>
    have hhistory := startBatch_history (S := S) (i := i) (l := l)
    have hthread : l.thread.Quiet (startBatch S i l).thread := by
      rw [startBatch_thread]
      exact .refl _
    split_ifs at hhistory
    · exact hquiet [_, _, _] hhistory (by simp) hthread (by simp) (by simp) (by rw [startBatch_c])
    · exact hquiet [_, _] hhistory (by simp) hthread (by simp) (by simp) (by rw [startBatch_c])
  | wrote fd writable n hcalls hbatch =>
    have hhistory : (acceptBytes n fd l).history = _ := acceptBytes_history
    split_ifs at hhistory
    · exact hquiet [_, _] hhistory (by simp) quiet_acceptBytes (by simp) (by simp)
        (by rw [acceptBytes_c])
    · exact hquiet [_] hhistory (by simp) quiet_acceptBytes (by simp) (by simp)
        (by rw [acceptBytes_c])
  | refuse fd writable hcalls hbatch => exact hquiet [_] rfl (by simp) (.refl _) rfl id rfl
  | established fd writable hcalls =>
    exact hquiet [_] openSocket_history (by simp) quiet_openSocket (by simp) (by simp) (by simp)
  | field fd piece hcalls hwant =>
    exact hquiet [_] rfl (by simp) (.refl _) rfl id (by rw [headerField_c])
  | value fd piece hcalls hwant =>
    exact hquiet [_] rfl (by simp) (.refl _) rfl id (by rw [headerValue_c])
  | body fd piece hcalls hwant => exact hquiet [_] rfl (by simp) (.refl _) rfl id rfl
  | respond fd i hcalls => exact recorded_respond hl htimed hbasic hcalls horder hshort hprompt

end Acts

/-! ## Runs -/

theorem Start.recorded (start : Start) : Recorded start.stopAt start.local := by
  have hfresh : LatencyHistogram start.histogram := by
    have hinit := start.hinit
    rw [hdrInit_maxLatency] at hinit
    rw [← Option.some.inj hinit]
    exact latencyHistogram_fresh
  exact ⟨⟨rfl, hfresh, hfresh, rfl⟩, fun h => absurd rfl h, by simp [Start.local]⟩

/-- In a run shorter than `MAX_LATENCY` whose clock does not go back, no value is out of the
    range of the histograms and no assertion fails, as long as no response is complete before
    the first batch is started. -/
theorem recorded_in_range {S : Setting} {start : Start} {moves : List Move} {l : Local}
    (h : start.run S moves = some l) (horder : Each InOrder l.history) (hshort : Short l.history)
    (hprompt : Each (Prompt start.stopAt) l.history) : RecordsInRange l := by
  have hinv := Start.run_preserves_under
    (I := fun l => Basic l ∧ Timed S l ∧ Recorded start.stopAt l)
    ((backward_each.and backward_short).and backward_each)
    (fun _ _ hact hc hl => ⟨hact.basic hl.1, hact.timed hl.1 hc.1.1 hl.2.1,
      hact.recorded hl.1 hl.2.1 hc.1.1 hc.1.2 hc.2 hl.2.2⟩)
    h ⟨⟨horder, hshort⟩, hprompt⟩ ⟨start.basic, start.timed S, start.recorded⟩
  exact ⟨hinv.2.2.alive, hinv.2.2.inRange⟩

theorem recorded_in_range_late : ∃ l : Local, Example.late = some l ∧
    Obs.record 1095 100 ∈ l.history ∧ RecordsInRange l := by
  have hrun : ∃ l : Local, Example.late = some l ∧ (Each InOrder l.history ∧
      Short l.history ∧ Each (Prompt 10000) l.history) ∧ Obs.record 1095 100 ∈ l.history :=
    exists_of_any (by decide +kernel)
  obtain ⟨l, hl, ⟨horder, hshort, hprompt⟩, hrecord⟩ := hrun
  exact ⟨l, hl, hrecord, recorded_in_range hl horder hshort hprompt⟩

/-- A server that speaks first, before the connection has become writable. -/
def Example.early : Option Local :=
  (start [71, 69, 84] (2 * 10 ^ 15)).run (setting 1 false)
    [connect 1700000000000000 3, opens 3,
      read 3 [completed 1700000000000100 true (connects 3)]]

/-- One early response ends the process: its uncorrected latency is the time of day. -/
theorem early_response_aborts : ∃ l : Local, Example.early = some l ∧ Each InOrder l.history ∧
    Short l.history ∧ Obs.record 100 1700000000000100 ∈ l.history ∧ ¬ RecordsInRange l := by
  have hrun : ∃ l : Local, Example.early = some l ∧ Each InOrder l.history ∧ Short l.history ∧
      Obs.record 100 1700000000000100 ∈ l.history ∧ l.aborted = true :=
    exists_of_any (by decide +kernel)
  obtain ⟨l, hl, horder, hshort, hrecord, habort⟩ := hrun
  exact ⟨l, hl, horder, hshort, hrecord, fun h => by simp [h.1] at habort⟩

end Wrkx
