import Wrkx.Connection.Chains

/-!
# What the handlers charge to the error counters

`errors.connect`, `errors.read`, `errors.write` and `errors.timeout` of the thread over one
call of each handler. A failed `connect_socket` is a record of the history, so that the
balance of `errors.connect` is taken against the history.

## Main results

- `charges_socketReadable` — `socket_readable` charges one read error for its failure, if it has one
- `charges_socketWriteable` — the same for `socket_writeable` and write errors
- `charges_step`, `errors_of_timer` — what an event of a connection charges, and a timer
-/

namespace Wrkx

open Word

/-- A call of `connect_socket` that failed. -/
def Obs.isFailedConnect : Obs → Bool
  | .connect _ ok => !ok
  | _ => false

/-- The calls of `connect_socket` that failed. -/
def failedConnects (history : List Obs) : ℕ := history.countP Obs.isFailedConnect

/-- The error counters of the thread, `connect` beside the failed calls of `connect_socket`. -/
structure Charges where
  connect : ℤ
  read : ℕ
  write : ℕ
  timeout : ℕ

namespace Charges

def addConnect (n : ℕ) (c : Charges) : Charges := { c with connect := c.connect + n }

def addRead (n : ℕ) (c : Charges) : Charges := { c with read := c.read + n }

def addWrite (n : ℕ) (c : Charges) : Charges := { c with write := c.write + n }

end Charges

def Local.charges (l : Local) : Charges where
  connect := l.thread.errors.connect.increments - failedConnects l.history
  read := l.thread.errors.read.increments
  write := l.thread.errors.write.increments
  timeout := l.thread.errors.timeout.increments

/-! ## Failures -/

/-- The state in which `sock.read` is called before `socket_readable` comes to its error exit. -/
def readFailure (S : Setting) : List ReadInput → Local → Option Local
  | [], _ => none
  | .ok n callbacks left parsed more :: rest, l =>
    let executed := httpParserExecute S callbacks l
    if executed.aborted then
      none
    else if !parsed then
      some l
    else if n = recvbuf ∧ more then
      readFailure S rest (addBytes n (leaveParser left executed))
    else
      none
  | .eof i :: _, l => if (executeEof S i l).aborted then none else some l
  | .error :: _, l => some l
  | .retry :: _, _ => none

/-- The state in which `sock.write` is called before `socket_writeable` comes to its error
    exit. -/
def writeFailure (S : Setting) (i : WriteInput) (l : Local) : Option Local :=
  match i.result with
  | .error =>
    if l.c.written = 0 then
      let (wait, paced) := usecToNextSend S i.now l
      if wait ≠ 0 then none else some (startBatch S i paced)
    else
      some l
  | _ => none

def Event.readFailure (S : Setting) (l : Local) : Event → Option Local
  | .file _ _ (.readable _ rounds) => Wrkx.readFailure S rounds l
  | _ => none

def Event.writeFailure (S : Setting) (l : Local) : Event → Option Local
  | .file _ _ (.writeable i) => Wrkx.writeFailure S i l
  | _ => none

/-- `sock.connect` reported an error. -/
def Event.openFailure : Event → Bool
  | .file _ _ (.connected .error _) => true
  | _ => false

section Charges

variable {S : Setting} {l l' : Local} {fd : Fd} {reconnect : ConnectInput}

/-! ## The operations -/

theorem charges_of_eq (herrors : l'.thread.errors = l.thread.errors)
    (hhistory : l'.history = l.history) : l'.charges = l.charges := by
  simp only [Local.charges, herrors, hhistory]

theorem charges_of_eq' (hthread : l'.thread = l.thread)
    (hhistory : failedConnects l'.history = failedConnects l.history) : l'.charges = l.charges := by
  simp only [Local.charges, hthread, hhistory]

/-- The counter of read errors is the one that is charged. -/
theorem read_of_charges (h : l'.charges = l.charges) :
    l'.thread.errors.read = l.thread.errors.read :=
  ErrorCounter.ext (congrArg Charges.read h)

@[simp]
theorem charges_note {o : Obs} (ho : o.isFailedConnect = false) :
    (l.note o).charges = l.charges := by
  simp [Local.charges, failedConnects, ho]

@[simp]
theorem charges_createFileEvent {mask : Mask} {proc : FileProc} :
    (l.createFileEvent fd mask proc).2.charges = l.charges :=
  charges_of_eq (by rw [Local.createFileEvent_thread]) Local.createFileEvent_history

@[simp]
theorem charges_deleteFileEvent {mask : Mask} : (l.deleteFileEvent fd mask).charges = l.charges :=
  charges_of_eq (by rw [Local.deleteFileEvent_thread]) rfl

@[simp]
theorem charges_close : (l.close fd).charges = l.charges := rfl

@[simp]
theorem charges_setLoop {f : EventLoop → EventLoop} : (l.setLoop f).charges = l.charges := rfl

/-! ## Connecting -/

theorem charges_connectFailed {again : Bool} : (connectFailed again l).charges = l.charges := by
  simp only [Local.charges, connectFailed, failedConnects, Local.setErrors, Local.note,
    ErrorCounter.add_increments, Obs.isFailedConnect, Bool.not_false, List.countP_cons_of_pos,
    Charges.mk.injEq, and_true]
  push_cast
  omega

theorem charges_socket {socketFd : Option Fd} (h : l.socket socketFd = some (fd, l')) :
    l'.charges = l.charges := by
  cases socketFd with
  | none => cases h
  | some newFd =>
    simp only [Local.socket] at h
    split_ifs at h
    obtain ⟨-, rfl⟩ := Prod.mk.inj (Option.some.inj h)
    rfl

theorem charges_connectSocket {again : Bool} {i : ConnectInput} :
    (connectSocket again i l).charges = l.charges := by
  rw [connectSocket]
  cases hsocket : ({ l with tcp := l.tcp + 1 } : Local).socket i.socket with
  | none => exact charges_connectFailed
  | some result =>
    obtain ⟨newFd, opened⟩ := result
    have hopened : opened.charges = l.charges :=
      charges_socket (l := { l with tcp := l.tcp + 1 }) hsocket
    simp only
    generalize hcreate : Local.createFileEvent newFd .both .socketConnected _ = created
    have hcreated : created.2.charges = l.charges := by
      rw [← hcreate, charges_createFileEvent]
      exact hopened
    split_ifs
    · exact charges_connectFailed.trans hopened
    · rw [charges_note rfl]
      exact hcreated
    · exact charges_connectFailed.trans hcreated

@[simp]
theorem charges_reconnectSocket : (reconnectSocket reconnect l).charges = l.charges := by
  rw [reconnectSocket, charges_connectSocket, charges_close, charges_note rfl,
    charges_deleteFileEvent]

theorem charges_delayedInitialConnect {now : Micros} :
    (delayedInitialConnect now reconnect l).charges = l.charges := by
  rw [delayedInitialConnect, charges_connectSocket]
  exact charges_note (l := l) (o := .clock now) rfl

/-! ## Pacing -/

@[simp]
theorem charges_usecToNextSend {now : Micros} :
    (usecToNextSend S now l).2.charges = l.charges := by
  rcases usecToNextSend_cases S now l with ⟨-, h⟩ | ⟨-, -, h⟩ | ⟨-, -, h⟩ <;> rw [h]
  · exact (charges_note rfl).trans (charges_note (l := l) (o := .clock now) rfl)
  · exact (charges_note rfl).trans (charges_note (l := l) (o := .clock now) rfl)
  · exact charges_note rfl

@[simp]
theorem charges_park {armed : Micros} {wait : ℕ} :
    (park fd armed wait l).charges = l.charges := by
  rw [park, charges_note rfl]
  exact (charges_note (o := .clock armed) rfl).trans charges_deleteFileEvent

theorem charges_delay {id : ℕ} {send rearm : Micros} :
    (l.delay S id send rearm).charges = l.charges := by
  have hpaced : (usecToNextSend S send l).2.charges = l.charges := charges_usecToNextSend
  rw [Local.delay, delayRequest]
  generalize usecToNextSend S send l = paced at *
  obtain ⟨wait, paced⟩ := paced
  simp only at *
  split_ifs
  · rw [charges_setLoop, charges_note rfl, hpaced]
  · rw [charges_setLoop, charges_createFileEvent, charges_note rfl, hpaced]

/-! ## Reading -/

theorem charges_recordValue {get : Thread → HdrHistogram} {set : HdrHistogram → Thread → Thread}
    {value : ℤ} (hset : ∀ h t, (set h t).errors = t.errors) :
    (recordValue get set value l).charges = l.charges := by
  rw [recordValue]
  split
  · rfl
  · exact charges_of_eq (hset _ _) rfl

theorem charges_recordLatency {now : Micros} {timing : ℤ} :
    (recordLatency S now timing l).charges = l.charges := by
  simp only [recordLatency]
  split_ifs
  · rw [charges_recordValue, charges_note rfl]
    intro h t
    rfl
  · rw [charges_recordValue, charges_recordValue, charges_note rfl] <;> intro h t <;> rfl
  · rfl

theorem charges_decrementPending : (decrementPending l).charges = l.charges := by
  have hnoted : (l.note (.decrement l.tcp l.c.pending)).charges = l.charges := charges_note rfl
  rw [decrementPending]
  split_ifs
  · exact charges_createFileEvent.trans hnoted
  · exact hnoted

theorem charges_deliver {i : CompleteInput} : (deliver i l).charges = l.charges := by
  -- Only errors.status is charged here.
  have hcounted : (countResponse i l).charges = l.charges := by
    simp only [Local.charges, countResponse, failedConnects, Local.note, List.countP_cons,
      Obs.isFailedConnect]
    split_ifs <;> simp_all
  rw [deliver]
  split_ifs
  · exact (charges_note rfl).trans hcounted
  · exact hcounted

@[simp]
theorem charges_respond {i : CompleteInput} : (respond S i l).charges = l.charges := by
  simp only [respond]
  split_ifs
  · exact (charges_of_eq rfl rfl).trans charges_deliver
  · rw [measureResponse, charges_recordLatency, charges_decrementPending, charges_note rfl]
    exact (charges_of_eq rfl rfl).trans charges_deliver

@[simp]
theorem charges_responseComplete {i : CompleteInput} :
    (responseComplete S i l).charges = l.charges := by
  rw [responseComplete_eq]
  split_ifs
  · exact charges_respond
  · exact charges_respond
  · exact charges_reconnectSocket.trans charges_respond
  · exact (charges_of_eq rfl rfl).trans charges_respond

theorem charges_runCallback {callback : Callback} :
    (runCallback S callback l).charges = l.charges := by
  cases callback with
  | headerField | headerValue | body =>
    rw [runCallback]
    split_ifs
    · exact charges_note rfl
    · rfl
  | messageComplete i => exact charges_responseComplete

@[simp]
theorem charges_httpParserExecute {callbacks : List Callback} :
    (httpParserExecute S callbacks l).charges = l.charges := by
  induction callbacks generalizing l with
  | nil => rfl
  | cons callback rest ih =>
    rw [httpParserExecute]
    split_ifs
    · rfl
    · exact ih.trans charges_runCallback

@[simp]
theorem charges_executeEof {i : CompleteInput} : (executeEof S i l).charges = l.charges := by
  rw [executeEof]
  split_ifs
  · exact charges_responseComplete
  · rfl

theorem charges_readError : (readError reconnect l).charges = l.charges.addRead 1 :=
  charges_reconnectSocket

/-- `socket_readable` charges one read error for its failure, if it has one. -/
theorem charges_socketReadable {rounds : List ReadInput} :
    (socketReadable S reconnect rounds l).charges =
      l.charges.addRead (readFailure S rounds l).toList.length := by
  induction rounds generalizing l with
  | nil => rfl
  | cons round rest ih =>
    cases round with
    | ok n callbacks left parsed more =>
      have hexecute : (httpParserExecute S callbacks l).charges = l.charges :=
        charges_httpParserExecute
      rw [socketReadable, readFailure]
      generalize httpParserExecute S callbacks l = executed at *
      have hleft : (leaveParser left executed).charges = l.charges := hexecute
      have hbytes : (addBytes n (leaveParser left executed)).charges = l.charges := hexecute
      split_ifs
      · exact hexecute
      · rw [charges_readError, hleft]
        rfl
      · rw [ih, hbytes]
      · exact hbytes
    | eof i =>
      rw [socketReadable, readFailure]
      split_ifs
      · exact charges_executeEof
      · rw [charges_readError, charges_executeEof]
        rfl
    | error => exact charges_readError
    | retry => rfl

/-! ## Opening and writing -/

theorem charges_openSocket : (openSocket fd l).charges = l.charges := by
  simp only [openSocket, charges_createFileEvent]
  exact charges_note rfl

theorem charges_startBatch {i : WriteInput} : (startBatch S i l).charges = l.charges := by
  refine charges_of_eq' (by rw [startBatch_thread]) ?_
  rw [startBatch_history]
  split_ifs <;> simp [failedConnects, Obs.isFailedConnect]

theorem charges_acceptBytes {n : ℕ} : (acceptBytes n fd l).charges = l.charges := by
  rw [acceptBytes]
  simp only
  split_ifs
  · rw [charges_deleteFileEvent, charges_note rfl]
    exact charges_note rfl
  · exact charges_note rfl

theorem charges_writeError :
    (reconnectSocket reconnect (l.setErrors fun e => { e with write := e.write.add 1 })).charges =
      l.charges.addWrite 1 :=
  charges_reconnectSocket

theorem charges_sendRequest {i : WriteInput} : (sendRequest i fd l).charges =
    l.charges.addWrite (match i.result with | .error => 1 | _ => 0) := by
  have hrefused : (l.note (.refused l.c.written)).charges = l.charges := charges_note rfl
  rw [sendRequest]
  cases i.result with
  | ok n => exact charges_acceptBytes
  | error => rw [charges_writeError, hrefused]
  | retry => exact hrefused

/-- `socket_writeable` charges one write error for its failure, if it has one. -/
theorem charges_socketWriteable {i : WriteInput} : (socketWriteable S i fd l).charges =
    l.charges.addWrite (writeFailure S i l).toList.length := by
  have hpaced : (usecToNextSend S i.now l).2.charges = l.charges := charges_usecToNextSend
  rw [socketWriteable, writeFailure]
  by_cases hwritten : l.c.written = 0
  · simp only [hwritten, if_true]
    generalize usecToNextSend S i.now l = paced at *
    obtain ⟨wait, paced⟩ := paced
    simp only at *
    by_cases hwait : wait = 0
    · simp only [hwait, ne_eq, not_true_eq_false, if_false, charges_sendRequest,
        charges_startBatch, hpaced]
      cases i.result <;> rfl
    · simp only [hwait, ne_eq, not_false_eq_true, if_true, charges_park, hpaced]
      cases i.result <;> rfl
  · simp only [hwritten, if_false, charges_sendRequest]
    cases i.result <;> rfl

theorem charges_socketConnected {status : Status} :
    (socketConnected status reconnect fd l).charges =
      l.charges.addConnect (match status with | .error => 1 | _ => 0) := by
  cases status with
  | ok =>
    rw [socketConnected, charges_openSocket]
    simp [Charges.addConnect]
  | error =>
    rw [socketConnected, charges_reconnectSocket]
    simp [Charges.addConnect, Local.charges, Local.setErrors]
    omega
  | retry => simp [socketConnected, Charges.addConnect]

/-! ## Events -/

/-- The timers of the thread charge timeouts only. -/
theorem errors_of_timer {timer : TimerCall} {starts : List ℕ} {t t' : Thread}
    {returned : Option ℕ} (h : timer.call S starts t = some (returned, t')) :
    t'.errors = { t.errors with
      timeout := t.errors.timeout.add
        (match timer with | .checkTimeouts now _ => countTimeouts S now starts | _ => 0) } := by
  cases timer with
  | calibrate started armed =>
    simp only [TimerCall.call, calibrate, Option.bind_eq_bind, Option.bind_eq_some_iff] at h
    obtain ⟨mean, -, percentile, -, h⟩ := h
    split_ifs at h <;> obtain ⟨-, rfl⟩ := Prod.mk.inj (Option.some.inj h) <;>
      simp only [ErrorCounter.add_zero]
  | checkTimeouts now interrupted =>
    simp only [TimerCall.call, checkTimeouts, Option.some.injEq, Prod.mk.injEq] at h
    obtain ⟨-, rfl⟩ := h
    split_ifs <;> rfl
  | sampleRate now started =>
    simp only [TimerCall.call, sampleRate, Option.some.injEq, Prod.mk.injEq] at h
    obtain ⟨-, rfl⟩ := h
    simp only [ErrorCounter.add_zero]

/-- What an event of a connection charges. -/
theorem charges_step {event : Event} (h : l.step S event = some l') : l'.charges =
    ((l.charges.addConnect event.openFailure.toNat).addRead
      (event.readFailure S l).toList.length).addWrite (event.writeFailure S l).toList.length := by
  simp only [Local.step] at h
  split_ifs at h
  cases event with
  | initialConnect id now start connect =>
    simp only at h
    split_ifs at h
    obtain rfl := Option.some.inj h
    rw [charges_setLoop, charges_delayedInitialConnect, charges_note rfl]
    simp [Event.openFailure, Event.readFailure, Event.writeFailure, Charges.addConnect,
      Charges.addRead, Charges.addWrite]
  | delay id now send rearm =>
    simp only at h
    split_ifs at h
    obtain rfl := Option.some.inj h
    rw [charges_delay, charges_note rfl]
    simp [Event.openFailure, Event.readFailure, Event.writeFailure, Charges.addConnect,
      Charges.addRead, Charges.addWrite]
  | file fd writable call =>
    simp only at h
    split_ifs at h
    obtain rfl := Option.some.inj h
    cases call with
    | connected status reconnect =>
      rw [FileCall.call, charges_socketConnected]
      cases status <;> rfl
    | readable reconnect rounds =>
      rw [FileCall.call, charges_socketReadable]
      simp [Event.openFailure, Event.readFailure, Event.writeFailure, Charges.addConnect,
        Charges.addRead, Charges.addWrite]
    | writeable i =>
      rw [FileCall.call, charges_socketWriteable]
      simp [Event.openFailure, Event.readFailure, Event.writeFailure, Charges.addConnect,
        Charges.addRead, Charges.addWrite]

end Charges

end Wrkx
