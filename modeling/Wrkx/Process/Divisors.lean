import Wrkx.Connection.Timing
import Wrkx.Hdr.Summary
import Wrkx.Process.Samples
import Wrkx.Stats.Stats

/-!
# The divisors of the statistics

`hdr_mean` and `hdr_stddev` divide by `total_count`, for `calibrate` and for the report that
`main` makes in the end, and `sample_rate` divides by the milliseconds since `thread->start`.
The test `mean == 0` of `calibrate` comes after the division, and a not-a-number passes it. The
report is about the latencies of all threads and about the rates in `statistics.requests`.

## Main results

- `ProcessAct.kept` — the histograms of a thread are empty until it records a latency
- `requestsOf_total` — the rates of a run, one for each call of `sample_rate`
- `sampled_late` — `sample_rate` runs late enough unless the clock is set back
- `divisors_nonzero_iff` — the runs in which nothing is divided by zero
-/

namespace Wrkx

open Word Relation

/-! ## The latencies of a thread -/

/-- The thread has recorded a latency since `calibrate` last ran to its end. -/
def HasLatency (t : Thread) : Prop := ∃ ok, Call.record ok ∈ sinceCalibrated t.calls

instance (t : Thread) : Decidable (HasLatency t) :=
  inferInstanceAs (Decidable (∃ ok : Bool, Call.record ok ∈ sinceCalibrated t.calls))

/-- The histograms of a thread hold as many latencies as one another, and some as soon as one
    is recorded. -/
structure Latencies (t : Thread) : Prop where
  latency : LatencyHistogram t.latencyHistogram
  uLatency : LatencyHistogram t.uLatencyHistogram
  totals : t.uLatencyHistogram.totalCount = t.latencyHistogram.totalCount
  filled : t.latencyHistogram.totalCount ≠ 0 ↔ HasLatency t

section Latencies

variable {S : Setting} {l l' : Local} {t t' : Thread} {i : CompleteInput}

theorem sinceCalibrated_cons (call : Call) (calls : List Call) : sinceCalibrated (call :: calls) =
    if call = .calibrated then [] else call :: sinceCalibrated calls := by
  simp [sinceCalibrated, List.takeWhile_cons]

theorem Latencies.of_quiet (ht : Latencies t) (h : t.Quiet t') : Latencies t' := by
  obtain ⟨hcalls, -, -, -, hlatency, huLatency⟩ := h.counts
  refine ⟨?_, ?_, ?_, ?_⟩
  · rw [hlatency]
    exact ht.latency
  · rw [huLatency]
    exact ht.uLatency
  · rw [hlatency, huLatency]
    exact ht.totals
  · rw [hlatency, HasLatency, hcalls]
    exact ht.filled

theorem Latencies.of_tally (ht : Latencies t) (h : t.Tally t') : Latencies t' := by
  cases h with
  | quiet hcalls hcomplete hrequests hlatency huLatency =>
    refine ⟨hlatency ▸ ht.latency, huLatency ▸ ht.uLatency, ?_, ?_⟩
    · rw [hlatency, huLatency]
      exact ht.totals
    · rw [hlatency, HasLatency, hcalls]
      exact ht.filled
  | calibrated hcalls hcomplete hrequests hlatency huLatency =>
    refine ⟨hlatency ▸ ht.latency.hdrReset, huLatency ▸ ht.uLatency.hdrReset, ?_, ?_⟩
    · rw [hlatency, huLatency]
      rfl
    · rw [hlatency, HasLatency, hcalls]
      simp [hdrReset, sinceCalibrated_cons]
  | sampled hcalls hcomplete hrequests hlatency huLatency =>
    refine ⟨hlatency ▸ ht.latency, huLatency ▸ ht.uLatency, ?_, ?_⟩
    · rw [hlatency, huLatency]
      exact ht.totals
    · rw [hlatency, HasLatency, hcalls]
      simpa [HasLatency, sinceCalibrated_cons] using ht.filled

/-- A response counts in both histograms or in neither. -/
theorem Latencies.respond (hl : Latencies l.thread) (habort : (respond S i l).aborted = false) :
    Latencies (Wrkx.respond S i l).thread := by
  obtain ⟨t, hquiet, hrecorded⟩ := respond_thread habort
  have hcounted : Latencies (countResponse i l).thread := by
    refine ⟨hl.latency, hl.uLatency, hl.totals, hl.filled.trans ?_⟩
    simp [HasLatency, countResponse, sinceCalibrated_cons]
  have ht := hcounted.of_quiet hquiet
  rcases hrecorded with ⟨-, hthread⟩ | ⟨-, ok, ok', h, h', timing, actual, hok, hok', hthread⟩
  · rw [hthread]
    exact ht
  · obtain ⟨hlatency, htotal⟩ :=
      ht.latency.of_hdrRecordValue (int64_range _).1 (int64_range _).2 hok
    obtain ⟨huLatency, huTotal⟩ :=
      ht.uLatency.of_hdrRecordValue (int64_range _).1 (int64_range _).2 hok'
    have hnonneg := ht.latency.tallied.total_nonneg
    rw [hthread]
    refine ⟨hlatency, huLatency, ?_, ⟨fun _ => ⟨ok, ?_⟩, fun _ => ?_⟩⟩
    · simp only [htotal, huTotal, ht.totals]
    · simp [sinceCalibrated_cons]
    · simp only [htotal]
      omega

theorem Act.latencies (h : Act S l l') (halive : l'.aborted = false) (hl : Latencies l.thread) :
    Latencies l'.thread := by
  rcases h.thread_cases with hquiet | ⟨t, hframe, rfl⟩ | ⟨i, rfl⟩
  · exact hl.of_quiet hquiet
  · exact hl.of_tally hframe.tally
  · exact hl.respond halive

end Latencies

/-! ## What every act keeps -/

section Process

variable {S : Setting} {p p' : Process} {move : ProcessMove}

/-- What holds of the threads of every reached process. -/
structure ThreadsKept (p : Process) : Prop where
  basic : ∀ i, Basic (p.view i [])
  distinct : ∀ k, (p.threads k).loop.Distinct
  latencies : p.aborted = false → ∀ k, Latencies (p.threads k)

/-- What a thread goes through in an act: nothing, an act of one of its connections or a timer. -/
theorem ProcessAct.thread_cases (h : ProcessAct S p p') (k : ℕ) : p'.threads k = p.threads k ∨
    (p.threads k).Frame (p'.threads k) ∨ ∃ l l', Act S l l' ∧ l.thread = p.threads k ∧
      l'.thread = p'.threads k ∧ l'.aborted = p'.aborted := by
  cases h with
  | peer i kernel l hact =>
    by_cases hk : k = i.thread
    · subst hk
      exact .inr (.inr ⟨_, l, hact, rfl, by simp [Process.put], rfl⟩)
    · exact .inl (by simp [Process.put, hk])
  | timer j t hframe =>
    by_cases hk : k = j
    · subst hk
      exact .inr (.inl (by simpa [Process.setThread] using hframe))
    · exact .inl (by simp [Process.setThread, hk])
  | fail => exact .inl rfl

theorem ProcessAct.alive (h : ProcessAct S p p') (halive : p'.aborted = false) :
    p.aborted = false := by
  cases h with
  | peer i kernel l hact => exact hact.alive halive
  | timer => exact halive
  | fail => cases halive

/-- The histograms of a thread are empty until it records a latency. -/
theorem ProcessAct.kept (h : ProcessAct S p p') (hp : ThreadsKept p) : ThreadsKept p' where
  basic := h.basic hp.basic
  distinct k := by
    rcases h.thread_cases k with heq | hframe | ⟨l, l', hact, hl, hl', -⟩
    · exact heq ▸ hp.distinct k
    · exact hframe.distinct (hp.distinct k)
    · exact hl' ▸ hact.distinct (hl ▸ hp.distinct k)
  latencies halive k := by
    have hk := hp.latencies (h.alive halive) k
    rcases h.thread_cases k with heq | hframe | ⟨l, l', hact, hl, hl', habort⟩
    · exact heq ▸ hk
    · exact hk.of_tally hframe.tally
    · exact hl' ▸ hact.latencies (habort.trans halive) (hl ▸ hk)

theorem ThreadsKept.machine (hp : ThreadsKept p) (h : Process.machine S move p = some p') :
    ThreadsKept p' :=
  Run.preserves_of_reflTransGen (fun _ _ hact hp => ProcessAct.kept hact hp)
    (process_acts h hp.basic) hp

theorem ProcessStart.kept (start : ProcessStart) : ThreadsKept start.process where
  basic := ProcessStart.basic
  distinct _ := distinct_startLoop
  latencies _ k := by
    have hfresh := hdrInit_eq start.hinit
    have hlatency : LatencyHistogram start.histogram := by
      rw [hfresh]
      exact latencyHistogram_fresh
    refine ⟨hlatency, hlatency, rfl, ?_⟩
    simp [ProcessStart.process, startThread, hfresh, latencyHistogram, HasLatency,
      sinceCalibrated]

end Process

/-! ## The pace of the samples -/

section Pace

variable {S : Setting} {p p' : Process} {move : ProcessMove} {start : ProcessStart}
  {moves : List ProcessMove}

/-- The clock is not set back between the readings that `sample_rate` goes by. -/
def ProcessMove.Forward : ProcessMove → Prop
  | .event .. => True
  | .timer _ _ now rearm call => call.Forward now rearm

theorem machine_paced (h : Process.machine S move p = some p') (hforward : move.Forward)
    (hkept : ThreadsKept p) (hp : ∀ k, (p.threads k).timing.Paced) (k : ℕ) :
    (p'.threads k).timing.Paced := by
  cases move with
  | event i kernel event =>
    obtain ⟨l', hstep, rfl⟩ := Option.map_eq_some_iff.mp h
    by_cases hk : k = i.thread
    · subst hk
      have htiming := timing_step hstep (hkept.distinct i.thread)
      rw [show ((p.put i l').threads i.thread) = l'.thread by simp [Process.put], htiming]
      exact hp i.thread
    · simpa [Process.put, hk] using hp k
  | timer j id now rearm timer =>
    simp only [Process.machine, Process.fire] at h
    split_ifs at h with habort hdue
    cases hcall : timer.call S (p.starts j) (p.threads j) with
    | none =>
      rw [hcall] at h
      exact Option.some.inj h ▸ hp k
    | some result =>
      obtain ⟨returned, t⟩ := result
      rw [hcall] at h
      obtain rfl := Option.some.inj h
      by_cases hk : k = j
      · subst hk
        simpa [Process.setThread] using
          timer_paced hcall (hkept.distinct k) hdue.armed hforward (hp k)
      · simpa [Process.setThread, hk] using hp k

theorem ProcessStart.paced (start : ProcessStart) (k : ℕ) :
    (start.process.threads k).timing.Paced := by
  have harmed : ∀ te ∈ (start.process.threads k).timing.timers,
      (start.process.view ⟨k, 0⟩ []).thread.loop.Armed te.id te.timeProc ∧
        te.timeProc.conn = none := fun te hte => by
    obtain ⟨hmem, hconn⟩ := EventLoop.mem_timers.mp hte
    exact ⟨⟨te, hmem, rfl, rfl⟩, hconn⟩
  refine .calibrating (if k < start.threads then start.connections else 0) ?_ ?_
  · intro te hte hsample
    rcases ProcessStart.armed.mp (harmed te hte).1 with
      ⟨slot, -, -, hproc⟩ | ⟨-, hproc⟩ | ⟨-, hproc⟩
    all_goals
      rw [hsample] at hproc
      cases hproc
  · intro te hte hcalibrate
    rcases ProcessStart.armed.mp (harmed te hte).1 with
      ⟨slot, -, -, hproc⟩ | ⟨hid, -⟩ | ⟨-, hproc⟩
    · rw [hcalibrate] at hproc
      cases hproc
    · exact hid
    · rw [hcalibrate] at hproc
      cases hproc

/-- `sample_rate` reads the clock at least a millisecond after `thread->start`. -/
theorem Timing.Paced.sampled_late {t : Thread} {id : ℕ} {now sampled : Micros}
    (hp : t.timing.Paced) (hdue : t.loop.IsDue id now .sampleRate) (hle : now ≤ sampled) :
    1000 ≤ sub64 sampled t.start := by
  obtain ⟨te, hmem, -, hproc, hdue⟩ := hdue
  have hte : te ∈ t.timing.timers := EventLoop.mem_timers.mpr ⟨hmem, by simp [hproc, TimeProc.conn]⟩
  cases hp with
  | calibrating id hsample => exact absurd hproc (hsample te hte)
  | sampling id hcalibrated hinterval hsampling =>
    have hpassed : milliseconds t.start + 10 ≤ milliseconds now := by
      have := (hsampling te hte hproc).2
      have : 10 ≤ t.interval := hinterval
      simp only [Thread.timing] at *
      omega
    have hclock : now.val ≤ sampled.val := hle
    simp only [milliseconds] at hpassed
    rw [sub64_of_le (by omega)]
    omega

end Pace

/-! ## The rates -/

/-- `sample_rate` runs. -/
def ProcessMove.Samples : ProcessMove → Prop
  | .timer _ _ _ _ (.sampleRate _ _) => True
  | _ => False

instance : DecidablePred ProcessMove.Samples
  | .event .. => isFalse id
  | .timer _ _ _ _ (.calibrate _ _) => isFalse id
  | .timer _ _ _ _ (.checkTimeouts _ _) => isFalse id
  | .timer _ _ _ _ (.sampleRate _ _) => isTrue trivial

/-- What a move records in `statistics.requests`; `none` when the rate is not a number or fails
    an assertion. -/
def recordRate (requests : Stats) : Process × ProcessMove → Option Stats
  | (p, .timer k _ _ _ (.sampleRate sampled started)) =>
    (sampleRate sampled started (p.threads k)).1.bind (statsRecord requests)
  | _ => some requests

/-- `statistics.requests`, with the histogram that `main` gives it, after the moves of a run. -/
def requestsOf (histogram : HdrHistogram) (trace : List (Process × ProcessMove)) : Option Stats :=
  trace.foldlM recordRate { statsAlloc 10 with histogram := some histogram }

section Rates

variable {requests requests' : Stats} {h : HdrHistogram} {trace : List (Process × ProcessMove)}

theorem recordRate_total {x : Process × ProcessMove} (hhist : requests.histogram = some h)
    (hl : LatencyHistogram h) (hrecord : recordRate requests x = some requests') :
    ∃ h', requests'.histogram = some h' ∧ LatencyHistogram h' ∧
      h'.totalCount = h.totalCount + if x.2.Samples then 1 else 0 := by
  have hquiet : requests' = requests → ¬ x.2.Samples → ∃ h', requests'.histogram = some h' ∧
      LatencyHistogram h' ∧ h'.totalCount = h.totalCount + if x.2.Samples then 1 else 0 :=
    fun heq hnone => ⟨h, heq ▸ hhist, hl, by rw [if_neg hnone, add_zero]⟩
  obtain ⟨p, move⟩ := x
  cases move with
  | event i kernel event => exact hquiet (Option.some.inj hrecord).symm fun hsamples => hsamples
  | timer k id now rearm timer =>
    cases timer with
    | calibrate started armed =>
      exact hquiet (Option.some.inj hrecord).symm fun hsamples => hsamples
    | checkTimeouts now interrupted =>
      exact hquiet (Option.some.inj hrecord).symm fun hsamples => hsamples
    | sampleRate sampled started =>
      obtain ⟨rate, -, hrate⟩ := Option.bind_eq_some_iff.mp hrecord
      simp only [statsRecord, statsRecordWith, hhist, Option.map_eq_some_iff] at hrate
      obtain ⟨⟨ok, h'⟩, hvalue, rfl⟩ := hrate
      obtain ⟨hl', htotal⟩ := hl.of_hdrRecordValue (int64_range _).1 (int64_range _).2 hvalue
      exact ⟨h', rfl, hl', htotal⟩

/-- One rate for each call of `sample_rate`. -/
theorem foldlM_recordRate_total (hhist : requests.histogram = some h) (hl : LatencyHistogram h)
    (hrecord : trace.foldlM recordRate requests = some requests') :
    ∃ h', requests'.histogram = some h' ∧ LatencyHistogram h' ∧
      h'.totalCount = h.totalCount + (trace.countP fun x => x.2.Samples : ℕ) := by
  induction trace generalizing requests h with
  | nil => exact ⟨h, Option.some.inj hrecord ▸ hhist, hl, by simp⟩
  | cons x trace ih =>
    obtain ⟨requests₁, hfirst, hrest⟩ := Option.bind_eq_some_iff.mp hrecord
    obtain ⟨h₁, hhist₁, hl₁, htotal₁⟩ := recordRate_total hhist hl hfirst
    obtain ⟨h', hhist', hl', htotal'⟩ := ih hhist₁ hl₁ hrest
    refine ⟨h', hhist', hl', ?_⟩
    rw [htotal', htotal₁, List.countP_cons]
    by_cases hx : x.2.Samples <;> simp [hx]
    ring

theorem requestsOf_total {fresh : HdrHistogram} (hfresh : LatencyHistogram fresh)
    (hempty : fresh.totalCount = 0) (hrequests : requestsOf fresh trace = some requests) :
    ∃ h, requests.histogram = some h ∧
      h.totalCount = (trace.countP fun x => x.2.Samples : ℕ) := by
  obtain ⟨h, hhist, -, htotal⟩ := foldlM_recordRate_total rfl hfresh hrequests
  exact ⟨h, hhist, by rw [htotal, hempty, zero_add]⟩

end Rates

/-! ## The report -/

namespace Process

/-- Every thread has left `aeMain`, so that `main` goes on to its report. -/
def Finished (threads : ℕ) (p : Process) : Prop :=
  p.aborted = false ∧ ∀ k < threads, (p.threads k).loop.stop = true

/-- The histograms that `main` merges: a fresh one at `0`, and those of the threads after it. -/
def store (get : Thread → HdrHistogram) (fresh : HdrHistogram) (p : Process) : ℕ → HdrHistogram
  | 0 => fresh
  | k + 1 => get (p.threads k)

def merged (get : Thread → HdrHistogram) (fresh : HdrHistogram) (threads : ℕ) (p : Process) :
    Option HdrHistogram :=
  (mergeLoop (p.store get fresh) 0 ((List.range threads).map (· + 1))).map fun r => r.2 0

/-- The histograms that the report calls `hdr_mean` and `hdr_stddev` for: in `print_stats` for
    the latencies and for `statistics.requests`, in `hdr_percentiles_print` as far as
    `cfg.latency` and `cfg.u_latency` ask for it, and for the script. -/
def reported (latency uLatency : Bool) (fresh : HdrHistogram) (threads : ℕ) (requests : Stats)
    (p : Process) : Option (List HdrHistogram) :=
  (p.merged (·.latencyHistogram) fresh threads).bind fun merged =>
    (p.merged (·.uLatencyHistogram) fresh threads).map fun uMerged =>
      merged :: (requests.histogram.toList ++ (if latency then [merged] else []) ++
        if uLatency then [uMerged] else [])

end Process

section Report

variable {p : Process} {get : Thread → HdrHistogram} {fresh : HdrHistogram} {threads : ℕ}

/-- What is merged is empty only if there is nothing to merge. -/
theorem merged_filled (threads : ℕ) (hfresh : LatencyHistogram fresh)
    (hempty : fresh.totalCount = 0) (hget : ∀ k < threads, LatencyHistogram (get (p.threads k))) :
    ∃ h, p.merged get fresh threads = some h ∧
      (h.totalCount ≠ 0 ↔ ∃ k < threads, (get (p.threads k)).totalCount ≠ 0) := by
  have hsources : ∀ i ∈ (List.range threads).map (· + 1),
      LatencyHistogram (p.store get fresh i) := by
    simpa [Process.store] using hget
  obtain ⟨result, hresult, htotal⟩ := mergeLoop_total (p.store get fresh) 0
    hfresh.shaped (by simp) fun i hi => ⟨(hsources i hi).shaped, (hsources i hi).tallied⟩
  refine ⟨result.2 0, by rw [Process.merged, hresult, Option.map_some], ?_⟩
  have hfirst : (p.store get fresh 0).totalCount = 0 := hempty
  rw [htotal, hfirst, zero_add, List.map_map]
  constructor
  · intro hne
    by_contra hnone
    refine hne (List.sum_eq_zero fun x hx => ?_)
    obtain ⟨k, hk, rfl⟩ := List.mem_map.mp hx
    by_contra hx
    exact hnone ⟨k, List.mem_range.mp hk, hx⟩
  · rintro ⟨k, hk, hne⟩ hzero
    refine hne (List.all_zero_of_le_zero_le_of_sum_eq_zero (fun x hx => ?_) hzero
      (List.mem_map.mpr ⟨k, List.mem_range.mpr hk, rfl⟩))
    obtain ⟨j, hj, rfl⟩ := List.mem_map.mp hx
    exact (hget j (List.mem_range.mp hj)).tallied.total_nonneg

/-- The report divides by zero when no thread has recorded a latency, or none a rate. -/
theorem reported_filled {latency uLatency : Bool} (hfresh : LatencyHistogram fresh)
    (hempty : fresh.totalCount = 0) (hp : ∀ k, Latencies (p.threads k)) {requests : Stats}
    {trace : List (Process × ProcessMove)} (hrequests : requestsOf fresh trace = some requests) :
    (∃ hs, p.reported latency uLatency fresh threads requests = some hs ∧
      ∀ h ∈ hs, h.totalCount ≠ 0) ↔
      (∃ k < threads, HasLatency (p.threads k)) ∧ ∃ x ∈ trace, x.2.Samples := by
  obtain ⟨merged, hmerged, hfilled⟩ :=
    merged_filled threads hfresh hempty fun k _ => (hp k).latency
  obtain ⟨uMerged, huMerged, huFilled⟩ :=
    merged_filled threads hfresh hempty fun k _ => (hp k).uLatency
  obtain ⟨rates, hrates, htotal⟩ := requestsOf_total hfresh hempty hrequests
  have hsampled : rates.totalCount ≠ 0 ↔ ∃ x ∈ trace, x.2.Samples := by
    rw [htotal, Nat.cast_ne_zero, ← Nat.pos_iff_ne_zero, List.countP_pos_iff]
    simp only [decide_eq_true_eq]
  simp only [(hp _).totals, (hp _).filled] at hfilled huFilled
  rw [Process.reported, hmerged, huMerged, hrates]
  simp only [Option.bind_some, Option.map_some, Option.some.injEq, exists_eq_left', ← hfilled,
    ← hsampled]
  constructor
  · exact fun h => ⟨h merged (by simp), h rates (by simp)⟩
  · rintro ⟨hne, hrated⟩ h hmem
    have hcases : h = merged ∨ h = rates ∨ h = uMerged := by
      cases latency <;> cases uLatency <;> simp at hmem <;> tauto
    rcases hcases with rfl | rfl | rfl
    · exact hne
    · exact hrated
    · exact huFilled.mpr (hfilled.mp hne)

end Report

/-! ## Runs -/

/-- `elapsed_ms` of `sample_rate`. -/
def elapsedMs (now : Micros) (t : Thread) : ℕ := sub64 now t.start / 1000

namespace ProcessMove

/-- The timer that fires divides by no zero, and `calibrate` only asks to be called again as
    long as no latency is recorded. -/
def DivisorsNonzero (S : Setting) (p : Process) : ProcessMove → Prop
  | .timer k _ _ _ (.calibrate started armed) =>
    (p.threads k).latencyHistogram.totalCount ≠ 0 ∧
      (¬ HasLatency (p.threads k) → Wrkx.calibrate S started armed (p.threads k) =
        some (some calibrateDelayMs, p.threads k))
  | .timer k _ _ _ (.sampleRate sampled _) => elapsedMs sampled (p.threads k) ≠ 0
  | _ => True

/-- There is something to measure when the timer fires: a latency for `calibrate`, a
    millisecond for `sample_rate`. -/
def Measured (p : Process) : ProcessMove → Prop
  | .timer k _ _ _ (.calibrate _ _) => HasLatency (p.threads k)
  | .timer k _ _ _ (.sampleRate sampled _) => 1000 ≤ sub64 sampled (p.threads k).start
  | _ => True

instance (p : Process) : DecidablePred (Measured p)
  | .event .. => isTrue trivial
  | .timer k _ _ _ (.calibrate _ _) => inferInstanceAs (Decidable (HasLatency (p.threads k)))
  | .timer k _ _ _ (.sampleRate sampled _) =>
    inferInstanceAs (Decidable (1000 ≤ sub64 sampled (p.threads k).start))
  | .timer _ _ _ _ (.checkTimeouts _ _) => isTrue trivial

end ProcessMove

/-- No statistic that the timers of a run compute is divided by zero, and none of the report
    after it. -/
structure DivisorsNonzero (S : Setting) (start : ProcessStart) (moves : List ProcessMove)
    (latency uLatency : Bool) (p : Process) : Prop where
  timers : ∀ x ∈ Run.trace (Process.machine S) moves start.process, x.2.DivisorsNonzero S x.1
  report : ∀ requests, p.Finished start.threads →
    requestsOf start.histogram (Run.trace (Process.machine S) moves start.process) =
      some requests →
    ∃ hs, p.reported latency uLatency start.histogram start.threads requests = some hs ∧
      ∀ h ∈ hs, h.totalCount ≠ 0

/-- There is something to measure whenever a timer of a run fires, and latencies and rates for
    the report if the process comes to it. -/
structure Measured (S : Setting) (start : ProcessStart) (moves : List ProcessMove) (p : Process) :
    Prop where
  timers : ∀ x ∈ Run.trace (Process.machine S) moves start.process, x.2.Measured x.1
  report : p.Finished start.threads →
    (requestsOf start.histogram (Run.trace (Process.machine S) moves start.process)).isSome →
    (∃ k < start.threads, HasLatency (p.threads k)) ∧
      ∃ x ∈ Run.trace (Process.machine S) moves start.process, x.2.Samples

section Runs

variable {S : Setting} {p q : Process} {start : ProcessStart} {moves : List ProcessMove}
  {move : ProcessMove}

theorem ProcessMove.divisorsNonzero_iff (hkept : ThreadsKept q) (halive : q.aborted = false) :
    move.DivisorsNonzero S q ↔ move.Measured q := by
  cases move with
  | event i kernel event => exact Iff.rfl
  | timer k id now rearm timer =>
    cases timer with
    | checkTimeouts now interrupted => exact Iff.rfl
    | sampleRate sampled started =>
      simp only [ProcessMove.DivisorsNonzero, ProcessMove.Measured, elapsedMs]
      omega
    | calibrate started armed =>
      have hfilled := (hkept.latencies halive k).filled
      exact ⟨fun h => hfilled.mp h.1, fun h => ⟨hfilled.mpr h, fun hnone => absurd h hnone⟩⟩

/-- Nothing happens once an assertion has failed. -/
theorem alive_of_machine (h : Process.machine S move q = some p) : q.aborted = false := by
  by_contra habort
  cases move with
  | event i kernel event =>
    simp [Process.machine, Local.step.eq_def, Process.view, habort] at h
  | timer k id now rearm timer => simp [Process.machine, Process.fire, habort] at h

theorem kept_of_trace (h : start.run S moves = some p) :
    ∀ x ∈ Run.trace (Process.machine S) moves start.process,
      ThreadsKept x.1 ∧ x.1.aborted = false := by
  intro x hx
  obtain ⟨p', hstep⟩ := Run.trace_steps h x hx
  exact ⟨Run.trace_preserves (P := ThreadsKept) (fun _ _ _ hstep hq => hq.machine hstep)
      start.kept x hx,
    alive_of_machine hstep⟩

/-- `sample_rate` runs late enough unless the clock is set back. -/
theorem sampled_late (h : start.run S moves = some p)
    (hforward : ∀ x ∈ Run.trace (Process.machine S) moves start.process, x.2.Forward)
    {k id : ℕ} {now rearm sampled started : Micros}
    (hmem : (q, .timer k id now rearm (.sampleRate sampled started)) ∈
      Run.trace (Process.machine S) moves start.process) :
    1000 ≤ sub64 sampled (q.threads k).start := by
  have hpaced := Run.trace_preserves_of
    (P := fun q => ThreadsKept q ∧ ∀ k, (q.threads k).timing.Paced)
    (C := fun _ move => move.Forward)
    (fun _ _ _ hstep hforward hq =>
      ⟨hq.1.machine hstep, machine_paced hstep hforward hq.1 hq.2⟩)
    ⟨start.kept, start.paced⟩ hforward _ hmem
  obtain ⟨p', hstep⟩ := Run.trace_steps h _ hmem
  simp only [Process.machine, Process.fire] at hstep
  split_ifs at hstep with habort hdue
  exact (hpaced.2 k).sampled_late hdue (hforward _ hmem).1

/-- Nothing is divided by zero in a run exactly if `calibrate` is not called before its thread has
    recorded a latency, `sample_rate` not within a millisecond of `thread->start`, and the report
    not made without a latency and a rate in some thread. The second only happens when the clock
    is set back. -/
theorem divisors_nonzero_iff (h : start.run S moves = some p) (latency uLatency : Bool) :
    (DivisorsNonzero S start moves latency uLatency p ↔ Measured S start moves p) ∧
      ((∀ x ∈ Run.trace (Process.machine S) moves start.process, x.2.Forward) →
        ∀ (q : Process) (k id : ℕ) (now rearm sampled started : Micros),
          (q, .timer k id now rearm (.sampleRate sampled started)) ∈
            Run.trace (Process.machine S) moves start.process →
          1000 ≤ sub64 sampled (q.threads k).start) := by
  have htimers : ∀ x ∈ Run.trace (Process.machine S) moves start.process,
      (x.2.DivisorsNonzero S x.1 ↔ x.2.Measured x.1) := fun x hx =>
    ProcessMove.divisorsNonzero_iff (kept_of_trace h x hx).1 (kept_of_trace h x hx).2
  have hkept : ThreadsKept p :=
    Run.run_preserves (fun _ _ _ hstep hq => hq.machine hstep) h start.kept
  have hfresh := hdrInit_eq start.hinit
  have hlatency : LatencyHistogram start.histogram := hfresh ▸ latencyHistogram_fresh
  have hempty : start.histogram.totalCount = 0 := by rw [hfresh]; rfl
  refine ⟨⟨fun hnonzero => ⟨fun x hx => ?_, fun hfinished hrecorded => ?_⟩,
    fun hmeasured => ⟨fun x hx => ?_, fun requests hfinished hrequests => ?_⟩⟩,
    fun hforward q k id now rearm sampled started hmem => sampled_late h hforward hmem⟩
  · exact (htimers x hx).mp (hnonzero.timers x hx)
  · obtain ⟨requests, hrequests⟩ := Option.isSome_iff_exists.mp hrecorded
    exact (reported_filled hlatency hempty (hkept.latencies hfinished.1) hrequests).mp
      (hnonzero.report requests hfinished hrequests)
  · exact (htimers x hx).mpr (hmeasured.timers x hx)
  · exact (reported_filled hlatency hempty (hkept.latencies hfinished.1) hrequests).mpr
      (hmeasured.report hfinished (Option.isSome_of_eq_some hrequests))

namespace Example

/-- The two threads of `twoThreads` with a minute to run. -/
def aMinute : ProcessStart := { twoThreads with stopAt := fun _ => 60000000 }

def calibrates (k : ℕ) (now : Micros) : ProcessMove := .timer k 1 now now (.calibrate now now)

def interrupts (k : ℕ) (now : Micros) : ProcessMove :=
  .timer k 2 now now (.checkTimeouts now true)

/-- A response before `calibrate`, a sample of the rate and a response before the run is
    interrupted. -/
def measures : List ProcessMove :=
  [on 0 (connect 0 5), on 0 (opens 5), on 0 (write 5 0 [] (.ok 3)),
    on 0 (read 5 [completed 50 true (connects 5)]), calibrates 0 10005000,
    .timer 0 3 10015000 10015000 (.sampleRate 10015000 10015000),
    on 0 (write 5 10015000 [] (.ok 3)), on 0 (read 5 [completed 10015000 true (connects 5)]),
    interrupts 0 10016000, interrupts 1 10016000]

/-- A request without a response up to the call of `calibrate`. -/
def silentServer : List ProcessMove :=
  [on 0 (connect 0 5), on 0 (opens 5), on 0 (write 5 0 [] (.ok 3)), calibrates 0 10005000]

end Example

theorem divisors_nonzero_iff_measured : ∃ p : Process,
    Example.aMinute.run (Example.setting 1 false) Example.measures = some p ∧
      p.Finished 2 ∧ (p.threads 0).interval = 10 ∧
      DivisorsNonzero (Example.setting 1 false) Example.aMinute Example.measures true true p := by
  have hmeasured : ∀ x ∈ Run.trace (Process.machine (Example.setting 1 false)) Example.measures
      Example.aMinute.process, x.2.Measured x.1 := by decide +kernel
  obtain ⟨p, hp, halive, hstop, hstop', hinterval, hlatency⟩ : ∃ p : Process,
      Example.aMinute.run (Example.setting 1 false) Example.measures = some p ∧
        p.aborted = false ∧ (p.threads 0).loop.stop = true ∧ (p.threads 1).loop.stop = true ∧
        (p.threads 0).interval = 10 ∧ HasLatency (p.threads 0) :=
    exists_of_any (by decide +kernel)
  have hfinished : p.Finished 2 := ⟨halive, fun k hk => by
    rcases Nat.lt_succ_iff_lt_or_eq.mp hk with hk | rfl
    · obtain rfl := Nat.lt_one_iff.mp hk
      exact hstop
    · exact hstop'⟩
  have hsampled : ∃ x ∈ Run.trace (Process.machine (Example.setting 1 false)) Example.measures
      Example.aMinute.process, x.2.Samples := by decide +kernel
  exact ⟨p, hp, hfinished, hinterval, (divisors_nonzero_iff hp true true).1.mpr
    ⟨hmeasured, fun _ _ => ⟨⟨0, by decide, hlatency⟩, hsampled⟩⟩⟩

/-- A server that never answers: the mean that `calibrate` computes of no latency is not a number
    and passes its test, so that it sets `thread->mean` and `thread->interval` and starts
    `sample_rate`. -/
theorem unanswered_calibrates : ∃ p : Process,
    Example.aMinute.run (Example.setting 1 false) Example.silentServer = some p ∧
      (p.threads 0).complete = 0 ∧ (p.threads 0).interval = 10 ∧
      (p.threads 0).loop.Armed 3 .sampleRate ∧
      ¬ DivisorsNonzero (Example.setting 1 false) Example.aMinute Example.silentServer false false
        p := by
  obtain ⟨p, hp, hcomplete, hinterval, hdue⟩ : ∃ p : Process,
      Example.aMinute.run (Example.setting 1 false) Example.silentServer = some p ∧
        (p.threads 0).complete = 0 ∧ (p.threads 0).interval = 10 ∧
        (p.threads 0).loop.IsDue 3 10015000 .sampleRate :=
    exists_of_any (by decide +kernel)
  refine ⟨p, hp, hcomplete, hinterval, hdue.armed, fun hnonzero => ?_⟩
  have hsilent : ∃ x ∈ Run.trace (Process.machine (Example.setting 1 false)) Example.silentServer
      Example.aMinute.process, ¬ x.2.Measured x.1 := by decide +kernel
  obtain ⟨x, hx, hnone⟩ := hsilent
  obtain ⟨hkept, halive⟩ := kept_of_trace hp x hx
  exact hnone ((ProcessMove.divisorsNonzero_iff hkept halive).mp (hnonzero.timers x hx))

end Runs

end Wrkx
