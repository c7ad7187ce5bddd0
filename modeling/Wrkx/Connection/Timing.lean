import Wrkx.Connection.Chains

/-!
# The timing of a thread

What `sample_rate` goes by: `thread->start`, `thread->interval` and the time events of the
thread itself. The handlers of a connection leave them alone, and its timers keep
`sample_rate` from running before its interval has passed.

## Main results

- `timing_step` — an event of a connection keeps the timing of its thread
- `timer_paced` — a timer keeps the pace of `sample_rate`
- `Act.distinct` — the numbers of time events stay distinct
-/

namespace Wrkx

/-- The time events of the thread itself. -/
def EventLoop.timers (loop : EventLoop) : List TimeEvent :=
  loop.timeEvents.filter fun te => te.timeProc.conn = none

/-- The part of a thread that `sample_rate` goes by. -/
structure Timing where
  start : ℕ
  interval : ℕ
  timers : List TimeEvent

def Thread.timing (t : Thread) : Timing where
  start := t.start
  interval := t.interval
  timers := t.loop.timers

/-- The time event with this number gets another due time. -/
def TimeEvent.rearm (id due : ℕ) (te : TimeEvent) : TimeEvent :=
  if te.id = id then { te with due } else te

section Timers

variable {loop : EventLoop} {te : TimeEvent} {id now due : ℕ} {ms : ℤ} {proc : TimeProc}

@[simp]
theorem TimeEvent.rearm_id : (te.rearm id due).id = te.id := by
  rw [rearm]
  split_ifs <;> rfl

@[simp]
theorem TimeEvent.rearm_timeProc : (te.rearm id due).timeProc = te.timeProc := by
  rw [rearm]
  split_ifs <;> rfl

theorem TimeEvent.rearm_of_ne (h : te.id ≠ id) : te.rearm id due = te := if_neg h

theorem EventLoop.mem_timers :
    te ∈ loop.timers ↔ te ∈ loop.timeEvents ∧ te.timeProc.conn = none := by
  simp [timers]

/-- What is armed for a connection is no time event of the thread itself. -/
theorem EventLoop.Distinct.of_conn (h : loop.Distinct) (harmed : loop.Armed id proc)
    (hconn : proc.conn ≠ none) (te : TimeEvent) (hte : te ∈ loop.timers) : te.id ≠ id := by
  obtain ⟨hmem, hnone⟩ := EventLoop.mem_timers.mp hte
  rintro rfl
  exact hconn (h.unique _ _ _ harmed ⟨te, hmem, rfl, rfl⟩ ▸ hnone)

theorem timers_aeCreateTimeEvent : (aeCreateTimeEvent loop now ms proc).timers =
    if proc.conn = none then
      ⟨loop.timeEventNextId, aeAddMillisecondsToNow now ms, proc⟩ :: loop.timers
    else
      loop.timers := by
  simp only [EventLoop.timers, aeCreateTimeEvent, List.filter_cons, decide_eq_true_eq]

theorem timers_aeDeleteTimeEvent : (aeDeleteTimeEvent loop id).timers =
    loop.timers.filter fun te => te.id ≠ id := by
  simp only [EventLoop.timers, aeDeleteTimeEvent, List.filter_filter, Bool.and_comm]

theorem timers_aeRearmTimeEvent : (aeRearmTimeEvent loop id now ms).timers =
    loop.timers.map (TimeEvent.rearm id (aeAddMillisecondsToNow now ms)) := by
  have hfilter : (aeRearmTimeEvent loop id now ms).timers =
      (loop.timeEvents.map (TimeEvent.rearm id (aeAddMillisecondsToNow now ms))).filter fun te =>
        te.timeProc.conn = none := rfl
  rw [hfilter, List.filter_map]
  simp [EventLoop.timers, Function.comp_def]

theorem timers_delete_of_ne (h : ∀ te ∈ loop.timers, te.id ≠ id) :
    (aeDeleteTimeEvent loop id).timers = loop.timers := by
  rw [timers_aeDeleteTimeEvent, List.filter_eq_self]
  exact fun te hte => by simpa using h te hte

theorem timers_rearm_of_ne (h : ∀ te ∈ loop.timers, te.id ≠ id) :
    (aeRearmTimeEvent loop id now ms).timers = loop.timers := by
  rw [timers_aeRearmTimeEvent]
  exact (List.map_congr_left fun te hte => TimeEvent.rearm_of_ne (h te hte)).trans (List.map_id _)

end Timers

section Timing

variable {S : Setting} {l l' : Local} {fd : Fd} {reconnect : ConnectInput}

/-! ## The operations -/

@[simp]
theorem timing_createFileEvent {mask : Mask} {proc : FileProc} :
    (l.createFileEvent fd mask proc).2.thread.timing = l.thread.timing := by
  rw [Local.createFileEvent_thread]
  rfl

@[simp]
theorem timing_deleteFileEvent {mask : Mask} :
    (l.deleteFileEvent fd mask).thread.timing = l.thread.timing := by
  rw [Local.deleteFileEvent_thread]
  rfl

theorem Local.Connects.timing {again : Bool} (h : Local.Connects again l l') :
    l'.thread.timing = l.thread.timing := by
  cases h with
  | failed hself hc htcp hhistory hthread =>
    rw [hthread]
    rfl
  | opened newFd hself hc htcp hhistory hfree hfd hthread =>
    rw [hthread]
    rfl

theorem timing_reconnectSocket : (reconnectSocket reconnect l).thread.timing = l.thread.timing :=
  (Local.reconnectSocket_connects reconnect l).timing.trans timing_deleteFileEvent

/-! ## Reading -/

theorem timing_recordValue {get : Thread → HdrHistogram} {set : HdrHistogram → Thread → Thread}
    {value : ℤ} (hset : ∀ h t, (set h t).timing = t.timing) :
    (recordValue get set value l).thread.timing = l.thread.timing := by
  rw [recordValue]
  split
  · rfl
  · exact hset _ _

theorem timing_recordLatency {now : Micros} {timing : ℤ} :
    (recordLatency S now timing l).thread.timing = l.thread.timing := by
  simp only [recordLatency]
  split_ifs
  · rw [timing_recordValue]
    · rfl
    · intro h t
      rfl
  · rw [timing_recordValue, timing_recordValue]
    · rfl
    all_goals
      intro h t
      rfl
  · rfl

theorem timing_decrementPending : (decrementPending l).thread.timing = l.thread.timing := by
  rw [decrementPending]
  split_ifs
  · exact timing_createFileEvent
  · rfl

@[simp]
theorem timing_respond {i : CompleteInput} :
    (respond S i l).thread.timing = l.thread.timing := by
  have hdeliver : (deliver i l).thread.timing = l.thread.timing := by
    rw [deliver_thread]
    rfl
  rw [respond]
  split_ifs
  · exact hdeliver
  · rw [measureResponse, timing_recordLatency, timing_decrementPending]
    exact hdeliver

theorem timing_responseComplete {i : CompleteInput} :
    (responseComplete S i l).thread.timing = l.thread.timing := by
  rw [responseComplete_eq]
  split_ifs
  · exact timing_respond
  · exact timing_respond
  · exact timing_reconnectSocket.trans timing_respond
  · exact timing_respond

theorem timing_runCallback {callback : Callback} :
    (runCallback S callback l).thread.timing = l.thread.timing := by
  cases callback with
  | headerField | headerValue | body =>
    rw [runCallback]
    split_ifs <;> rfl
  | messageComplete i => exact timing_responseComplete

theorem timing_httpParserExecute {callbacks : List Callback} :
    (httpParserExecute S callbacks l).thread.timing = l.thread.timing := by
  induction callbacks generalizing l with
  | nil => rfl
  | cons callback rest ih =>
    rw [httpParserExecute]
    split_ifs
    · rfl
    · exact ih.trans timing_runCallback

theorem timing_readError : (readError reconnect l).thread.timing = l.thread.timing :=
  timing_reconnectSocket

theorem timing_executeEof {i : CompleteInput} :
    (executeEof S i l).thread.timing = l.thread.timing := by
  rw [executeEof]
  split_ifs
  · exact timing_responseComplete
  · rfl

theorem timing_socketReadable {rounds : List ReadInput} :
    (socketReadable S reconnect rounds l).thread.timing = l.thread.timing := by
  induction rounds generalizing l with
  | nil => rfl
  | cons round rest ih =>
    cases round with
    | ok n callbacks left parsed more =>
      have hexecute : (httpParserExecute S callbacks l).thread.timing = l.thread.timing :=
        timing_httpParserExecute
      rw [socketReadable]
      generalize httpParserExecute S callbacks l = executed at *
      split_ifs
      · exact hexecute
      · exact timing_readError.trans hexecute
      · exact ih.trans hexecute
      · exact hexecute
    | eof i =>
      rw [socketReadable]
      split_ifs
      · exact timing_executeEof
      · exact timing_readError.trans timing_executeEof
    | error => exact timing_readError
    | retry => rfl

/-! ## Writing and connecting -/

theorem timing_acceptBytes {n : ℕ} : (acceptBytes n fd l).thread.timing = l.thread.timing := by
  rw [acceptBytes]
  simp only
  split_ifs
  · exact timing_deleteFileEvent
  · rfl

theorem timing_sendRequest {i : WriteInput} :
    (sendRequest i fd l).thread.timing = l.thread.timing := by
  rw [sendRequest]
  cases i.result with
  | ok n => exact timing_acceptBytes
  | error => exact timing_reconnectSocket
  | retry => rfl

theorem timing_park {armed : Micros} {wait : ℕ} :
    (park fd armed wait l).thread.timing = l.thread.timing := by
  have htimers : (park fd armed wait l).thread.loop.timers =
      (l.deleteFileEvent fd .write).thread.loop.timers := by
    rw [park_loop, timers_aeCreateTimeEvent, if_neg (by simp [TimeProc.conn])]
  rw [← timing_deleteFileEvent (l := l), Thread.timing, htimers]
  rfl

theorem timing_socketWriteable {i : WriteInput} :
    (socketWriteable S i fd l).thread.timing = l.thread.timing := by
  have hthread : (usecToNextSend S i.now l).2.thread = l.thread := usecToNextSend_thread
  rw [socketWriteable]
  generalize usecToNextSend S i.now l = paced at *
  obtain ⟨wait, paced⟩ := paced
  simp only at *
  split_ifs
  · rw [timing_park, hthread]
  · rw [timing_sendRequest, startBatch_thread, hthread]
  · exact timing_sendRequest

theorem timing_openSocket : (openSocket fd l).thread.timing = l.thread.timing := by
  rw [openSocket]
  exact timing_createFileEvent.trans timing_createFileEvent

theorem timing_socketConnected {status : Status} :
    (socketConnected status reconnect fd l).thread.timing = l.thread.timing := by
  cases status with
  | ok => exact timing_openSocket
  | error => exact timing_reconnectSocket
  | retry => rfl

/-! ## Events -/

theorem timing_setLoop {f : EventLoop → EventLoop}
    (h : (f l.thread.loop).timers = l.thread.loop.timers) :
    (l.setLoop f).thread.timing = l.thread.timing := by
  rw [Thread.timing, Thread.timing, Local.setLoop, h]

theorem timers_of_timing {t t' : Thread} (h : t'.timing = t.timing) :
    t'.loop.timers = t.loop.timers :=
  congrArg Timing.timers h

theorem timing_delay {id : ℕ} {send rearm : Micros}
    (h : ∀ te ∈ l.thread.loop.timers, te.id ≠ id) :
    (l.delay S id send rearm).thread.timing = l.thread.timing := by
  have hthread : (usecToNextSend S send l).2.thread = l.thread := usecToNextSend_thread
  rw [Local.delay, delayRequest]
  generalize usecToNextSend S send l = paced at *
  obtain ⟨wait, paced⟩ := paced
  simp only at *
  rw [← hthread] at h ⊢
  split_ifs
  · -- The send is not due, and the time event is armed again.
    exact timing_setLoop (l := paced.note (.clock rearm)) (timers_rearm_of_ne h)
  · let resumed := paced.note (.resumed id paced.tcp paced.connecting)
    have htiming : (resumed.createFileEvent paced.c.fd .write .socketWriteable).2.thread.timing =
        paced.thread.timing := timing_createFileEvent
    have hne : ∀ te ∈ (resumed.createFileEvent paced.c.fd .write
        .socketWriteable).2.thread.loop.timers, te.id ≠ id := by
      rw [timers_of_timing htiming]
      exact h
    exact (timing_setLoop (timers_delete_of_ne hne)).trans htiming

theorem timing_initialConnect {id : ℕ} {now : Micros}
    (h : ∀ te ∈ l.thread.loop.timers, te.id ≠ id) :
    ((delayedInitialConnect now reconnect l).setLoop (aeDeleteTimeEvent · id)).thread.timing =
      l.thread.timing := by
  have htiming := (Local.initialConnect_connects now reconnect l).timing
  refine (timing_setLoop (timers_delete_of_ne ?_)).trans htiming
  rw [timers_of_timing htiming]
  exact h

/-- An event of a connection keeps the timing of its thread. -/
theorem timing_step {event : Event} (h : l.step S event = some l')
    (hdistinct : l.thread.loop.Distinct) : l'.thread.timing = l.thread.timing := by
  rw [Local.step.eq_def] at h
  split_ifs at h
  cases event with
  | initialConnect id now start connect =>
    simp only at h
    split_ifs at h with hdue
    obtain rfl := Option.some.inj h
    exact timing_initialConnect (hdistinct.of_conn hdue.armed (by simp [TimeProc.conn]))
  | delay id now send rearm =>
    simp only at h
    split_ifs at h with hdue
    obtain rfl := Option.some.inj h
    exact timing_delay (hdistinct.of_conn hdue.armed (by simp [TimeProc.conn]))
  | file fd writable call =>
    simp only at h
    split_ifs at h
    obtain rfl := Option.some.inj h
    cases call with
    | connected status reconnect => exact timing_socketConnected
    | readable reconnect rounds => exact timing_socketReadable
    | writeable i => exact timing_socketWriteable

end Timing

/-! ## The timers of the thread -/

/-- `sample_rate` is armed once, after `calibrate` ran to its end, and not before the interval
    has passed since `thread->start`. -/
inductive Timing.Paced (t : Timing) : Prop
  | calibrating (id : ℕ) (hsample : ∀ te ∈ t.timers, te.timeProc ≠ .sampleRate)
      (honce : ∀ te ∈ t.timers, te.timeProc = .calibrate → te.id = id)
  | sampling (id : ℕ) (hcalibrated : ∀ te ∈ t.timers, te.timeProc ≠ .calibrate)
      (hinterval : 10 ≤ t.interval)
      (hdue : ∀ te ∈ t.timers, te.timeProc = .sampleRate →
        te.id = id ∧ milliseconds t.start + t.interval ≤ te.due)

/-- The clock is not set back between the readings that `sample_rate` goes by. -/
def TimerCall.Forward (now rearm : Micros) : TimerCall → Prop
  | .calibrate started armed => started ≤ armed
  | .checkTimeouts _ _ => True
  | .sampleRate sampled started => now ≤ sampled ∧ started ≤ rearm

section Paced

variable {S : Setting} {t t' : Thread} {timing : Timing} {id due : ℕ} {now rearm : Micros}
  {returned : Option ℕ} {starts : List ℕ}

/-- Arming another timer again keeps the pace. -/
theorem Timing.Paced.rearmed (hp : timing.Paced)
    (hne : ∀ te ∈ timing.timers, te.id = id → te.timeProc ≠ .sampleRate) :
    Timing.Paced { timing with timers := timing.timers.map (TimeEvent.rearm id due) } := by
  cases hp with
  | calibrating id' hsample honce =>
    refine .calibrating id' ?_ ?_ <;> simpa
  | sampling id' hcalibrated hinterval hdue =>
    refine .sampling id' (by simpa) hinterval ?_
    simp only [List.mem_map, forall_exists_index, and_imp, forall_apply_eq_imp_iff₂,
      TimeEvent.rearm_timeProc]
    intro te hte hproc
    rw [TimeEvent.rearm_of_ne fun hid => hne te hte hid hproc]
    exact hdue te hte hproc

theorem timing_finish :
    Thread.timing { t with loop := aeFinishTimeEvent t.loop id rearm returned } =
    { t.timing with timers := match returned with
      | none => t.loop.timers.filter fun te => te.id ≠ id
      | some ms => t.loop.timers.map (TimeEvent.rearm id (milliseconds rearm + ms)) } := by
  cases returned with
  | none => simp only [Thread.timing, aeFinishTimeEvent, timers_aeDeleteTimeEvent]
  | some ms => simp only [Thread.timing, aeFinishTimeEvent, timers_aeRearmTimeEvent,
      aeAddMillisecondsToNow_natCast]

theorem EventLoop.Distinct.timeProc_eq {loop : EventLoop} {proc : TimeProc} (h : loop.Distinct)
    (harmed : loop.Armed id proc) (te : TimeEvent) (hte : te ∈ loop.timers) (hid : te.id = id) :
    te.timeProc = proc :=
  h.unique id _ _ ⟨te, (EventLoop.mem_timers.mp hte).1, hid, rfl⟩ harmed

/-- `sample_rate` is armed with the interval that `calibrate` sets. -/
theorem calibrate_paced {started armed : Micros}
    (h : calibrate S started armed t = some (returned, t'))
    (harmed : ∃ te ∈ t.loop.timers, te.id = id ∧ te.timeProc = .calibrate)
    (hproc : ∀ te ∈ t.loop.timers, te.id = id → te.timeProc = .calibrate) (hle : started ≤ armed)
    (hp : t.timing.Paced) :
    (Thread.timing { t' with loop := aeFinishTimeEvent t'.loop id rearm returned }).Paced := by
  simp only [calibrate, Option.bind_eq_bind, Option.bind_eq_some_iff] at h
  obtain ⟨mean, -, percentile, -, h⟩ := h
  split_ifs at h <;> obtain ⟨rfl, rfl⟩ := Prod.mk.inj (Option.some.inj h)
  · rw [timing_finish]
    exact hp.rearmed fun te hte hid => by simp [hproc te hte hid]
  · obtain ⟨te, hte, hid, hcalibrate⟩ := harmed
    cases hp with
    | sampling id' hcalibrated => exact absurd hcalibrate (hcalibrated te hte)
    | calibrating id' hsample honce =>
      -- The time event of `calibrate` is taken away as that of `sample_rate` comes.
      obtain rfl : id = id' := hid.symm.trans (honce te hte hcalibrate)
      rw [timing_finish]
      simp only [timers_aeCreateTimeEvent, TimeProc.conn, if_true]
      refine .sampling t.loop.timeEventNextId ?_ (le_max_right _ _) ?_ <;>
        intro te' hte' hproc' <;>
        obtain ⟨hte', hne⟩ := List.mem_filter.mp hte' <;>
        rcases List.mem_cons.mp hte' with rfl | hold
      · cases hproc'
      · exact absurd (honce te' hold hproc') (by simpa using hne)
      · rw [aeAddMillisecondsToNow_natCast]
        exact ⟨rfl, Nat.add_le_add_right (Nat.div_le_div_right hle) _⟩
      · exact absurd hproc' (hsample te' hold)

/-- `sample_rate` is armed again with the same interval. -/
theorem sampleRate_paced {sampled started : Micros}
    (h : TimerCall.call S starts t (.sampleRate sampled started) = some (returned, t'))
    (harmed : ∃ te ∈ t.loop.timers, te.id = id ∧ te.timeProc = .sampleRate)
    (hle : started ≤ rearm) (hp : t.timing.Paced) :
    (Thread.timing { t' with loop := aeFinishTimeEvent t'.loop id rearm returned }).Paced := by
  obtain ⟨rfl, rfl⟩ := Prod.mk.inj (Option.some.inj h)
  obtain ⟨te, hte, hid, hsample⟩ := harmed
  rw [timing_finish]
  cases hp with
  | calibrating id' hnone => exact absurd hsample (hnone te hte)
  | sampling id' hcalibrated hinterval hdue =>
    obtain rfl : id = id' := hid.symm.trans (hdue te hte hsample).1
    refine .sampling id (by simpa [sampleRate]) hinterval ?_
    simp only [List.mem_map, forall_exists_index, and_imp, forall_apply_eq_imp_iff₂,
      TimeEvent.rearm_timeProc, TimeEvent.rearm_id]
    intro te' hte' hproc'
    obtain ⟨hid', -⟩ := hdue te' hte' hproc'
    refine ⟨hid', ?_⟩
    rw [TimeEvent.rearm, if_pos hid']
    exact Nat.add_le_add_right (Nat.div_le_div_right hle) _

/-- `check_timeouts` has no part in the pace. -/
theorem checkTimeouts_paced {now' : Micros} {interrupted : Bool}
    (h : TimerCall.call S starts t (.checkTimeouts now' interrupted) = some (returned, t'))
    (hproc : ∀ te ∈ t.loop.timers, te.id = id → te.timeProc = .checkTimeouts)
    (hp : t.timing.Paced) :
    (Thread.timing { t' with loop := aeFinishTimeEvent t'.loop id rearm returned }).Paced := by
  obtain ⟨rfl, hthread⟩ := Prod.mk.inj (Option.some.inj h)
  have htiming : t'.timing = t.timing := by
    rw [← hthread]
    split_ifs <;> rfl
  rw [timing_finish, htiming, timers_of_timing htiming]
  exact hp.rearmed fun te hte hid => by simp [hproc te hte hid]

/-- A timer of the thread keeps the pace of `sample_rate`, unless the clock is set back. -/
theorem timer_paced {timer : TimerCall} (h : timer.call S starts t = some (returned, t'))
    (hdistinct : t.loop.Distinct) (harmed : t.loop.Armed id timer.proc)
    (hforward : timer.Forward now rearm) (hp : t.timing.Paced) :
    (Thread.timing { t' with loop := aeFinishTimeEvent t'.loop id rearm returned }).Paced := by
  have hproc := hdistinct.timeProc_eq harmed
  have hmem : ∃ te ∈ t.loop.timers, te.id = id ∧ te.timeProc = timer.proc := by
    obtain ⟨te, hte, hid, heq⟩ := harmed
    exact ⟨te, EventLoop.mem_timers.mpr ⟨hte, heq ▸ TimerCall.conn_proc⟩, hid, heq⟩
  cases timer with
  | calibrate started armed => exact calibrate_paced h hmem hproc hforward hp
  | sampleRate sampled started => exact sampleRate_paced h hmem hforward.2 hp
  | checkTimeouts now' interrupted => exact checkTimeouts_paced h hproc hp

end Paced

/-! ## Numbers of time events -/

section Distinct

variable {S : Setting} {l l' : Local}

theorem Local.Connects.nextId {again : Bool} (h : Local.Connects again l l') :
    l'.thread.loop.timeEventNextId = l.thread.loop.timeEventNextId := by
  cases h with
  | failed hself hc htcp hhistory hthread => rw [hthread]
  | opened fd hself hc htcp hhistory hfree hfd hthread =>
    rw [hthread]
    rfl

/-- The numbers of time events stay distinct. -/
theorem Act.distinct (h : Act S l l') (hl : l.thread.loop.Distinct) :
    l'.thread.loop.Distinct := by
  cases h with
  | thread t hframe => exact hframe.distinct hl
  | initial id now i harmed =>
    have hconnects := Local.initialConnect_connects now i l
    exact hl.of_armed
      (fun id proc h => hconnects.armed.mp (EventLoop.armed_aeDeleteTimeEvent.mp h).1)
      hconnects.nextId.ge
  | reconnect i hconnected =>
    have hconnects := Local.reconnectSocket_connects i l
    refine hl.of_armed (fun id proc h => ?_) ?_
    · exact Local.armed_deleteFileEvent.mp (hconnects.armed.mp h)
    · rw [hconnects.nextId]
      exact Local.deleteFileEvent_nextId.ge
  | park fd writable armed wait hcalls hwritten =>
    have hdeleted : (l.deleteFileEvent fd .write).thread.loop.Distinct :=
      hl.of_armed (fun id proc h => Local.armed_deleteFileEvent.mp h)
        Local.deleteFileEvent_nextId.ge
    rw [park_loop]
    exact hdeleted.aeCreateTimeEvent
  | resume id harmed =>
    rw [resume_loop]
    refine hl.of_armed (fun id proc h => ?_) Local.createFileEvent_nextId.ge
    exact Local.armed_createFileEvent.mp (EventLoop.armed_aeDeleteTimeEvent.mp h).1
  | wrote fd writable n hcalls hbatch =>
    rw [acceptBytes_loop]
    split_ifs
    · exact hl.of_armed (fun id proc h => Local.armed_deleteFileEvent.mp h)
        Local.deleteFileEvent_nextId.ge
    · exact hl
  | established fd writable hcalls =>
    rw [openSocket_loop]
    refine hl.of_armed (fun id proc h => ?_) (by simp)
    exact Local.armed_createFileEvent.mp (Local.armed_createFileEvent.mp h)
  | respond fd i hcalls =>
    rw [respond_loop]
    split_ifs
    · exact ⟨hl.lt, hl.unique⟩
    · exact hl.of_armed (fun id proc h => Local.armed_createFileEvent.mp h)
        Local.createFileEvent_nextId.ge
    · exact hl
  | _ => simpa using hl

end Distinct

end Wrkx
