import Wrkx.Base.History
import Wrkx.Connection.Pacing

/-!
# The acts of a connection

Every event of a connection is made of a few acts: a reading of the clock, a pacing decision,
a batch started, bytes written, a response counted, a reconnection and so on. `Act` lists
them, each with what the handler that performs it has made sure of. An invariant is proved
act by act and then holds along every run.

## Main results

- `Act.history_suffix` — an act only adds to the history
- `Act.basic` — what holds of a connection whatever else goes on in its thread
-/

namespace Wrkx

open Relation History

/-! ## The acts -/

/-- What the thread does to its counters besides counting responses. -/
inductive Thread.Tally (t t' : Thread) : Prop
  | quiet (hcalls : t'.calls = t.calls) (hcomplete : t'.complete = t.complete)
      (hrequests : t'.requests = t.requests)
      (hlatency : t'.latencyHistogram = t.latencyHistogram)
      (huLatency : t'.uLatencyHistogram = t.uLatencyHistogram)
  | calibrated (hcalls : t'.calls = .calibrated :: t.calls) (hcomplete : t'.complete = t.complete)
      (hrequests : t'.requests = 0)
      (hlatency : t'.latencyHistogram = hdrReset t.latencyHistogram)
      (huLatency : t'.uLatencyHistogram = hdrReset t.uLatencyHistogram)
  | sampled (hcalls : t'.calls = .sampled :: t.calls) (hcomplete : t'.complete = t.complete)
      (hrequests : t'.requests = 0)
      (hlatency : t'.latencyHistogram = t.latencyHistogram)
      (huLatency : t'.uLatencyHistogram = t.uLatencyHistogram)

theorem Thread.Tally.histograms {t t' : Thread} (h : t.Tally t') :
    (t'.latencyHistogram = t.latencyHistogram ∧ t'.uLatencyHistogram = t.uLatencyHistogram) ∨
      (t'.latencyHistogram = hdrReset t.latencyHistogram ∧
        t'.uLatencyHistogram = hdrReset t.uLatencyHistogram) := by
  cases h with
  | quiet hcalls hcomplete hrequests hlatency huLatency => exact .inl ⟨hlatency, huLatency⟩
  | calibrated hcalls hcomplete hrequests hlatency huLatency => exact .inr ⟨hlatency, huLatency⟩
  | sampled hcalls hcomplete hrequests hlatency huLatency => exact .inl ⟨hlatency, huLatency⟩

/-- What the thread does besides its file events: the time events of its connections stay as
    they are. -/
structure Thread.Frame (t t' : Thread) : Prop where
  events : t'.loop.events = t.loop.events
  setsize : t'.loop.setsize = t.loop.setsize
  nextId : t.loop.timeEventNextId ≤ t'.loop.timeEventNextId
  delay : ∀ id c, t'.loop.Armed id (.delayRequest c) → t.loop.Armed id (.delayRequest c)
  initial : ∀ id c,
    t'.loop.Armed id (.delayedInitialConnect c) → t.loop.Armed id (.delayedInitialConnect c)
  distinct : t.loop.Distinct → t'.loop.Distinct
  kept : t.loop.Distinct → ∀ id proc, proc.conn ≠ none →
    t.loop.Armed id proc → t'.loop.Armed id proc
  stopAt : t'.stopAt = t.stopAt
  tally : t.Tally t'

/-- What `delay_request` and `processTimeEvents` do once the send is due. -/
def resume (id : ℕ) (l : Local) : Local :=
  ((l.note (.resumed id l.tcp l.connecting)).createFileEvent l.c.fd .write
    .socketWriteable).2.setLoop (aeDeleteTimeEvent · id)

/-- A call of `connect_socket` has succeeded for the connection. -/
def Local.Connected (l : Local) : Prop := l.tcp ≠ 0 ∧ ∃ again, .connect again true ∈ l.history

/-- The connection is about to start a batch, or is inside one. -/
def Local.InBatch (l : Local) : Prop :=
  l.c.written = 0 → ∃ now complete older, l.history = .batchStart l.tcp now complete :: older

/-- What a connection does in one go. -/
inductive Act (S : Setting) : Local → Local → Prop
  | tick (l : Local) (now : ℕ) : Act S l (l.note (.clock now))
  | thread (l : Local) (t : Thread) (hframe : l.thread.Frame t) : Act S l { l with thread := t }
  | fail (l : Local) (started armed : Micros) (hfail : calibrate S started armed l.thread = none) :
      Act S l { l with aborted := true }
  | parser (l : Local) (state : ParserState) :
      Act S l { l with c := { l.c with parser := state } }
  | initial (l : Local) (id : ℕ) (now : Micros) (i : ConnectInput)
      (harmed : l.thread.loop.Armed id (.delayedInitialConnect l.self)) :
      Act S l ((delayedInitialConnect now i l).setLoop (aeDeleteTimeEvent · id))
  | reconnect (l : Local) (i : ConnectInput) (hconnected : l.Connected) :
      Act S l (reconnectSocket i l)
  | paced (l : Local) (now : Micros) : Act S l (usecToNextSend S now l).2
  | park (l : Local) (fd : Fd) (writable : Bool) (armed : Micros) (wait : ℕ)
      (hcalls : l.Calls fd writable .socketWriteable) (hwritten : l.c.written = 0) :
      Act S l (park fd armed wait l)
  | resume (l : Local) (id : ℕ) (harmed : l.thread.loop.Armed id (.delayRequest l.self)) :
      Act S l (resume id l)
  | start (l : Local) (fd : Fd) (writable : Bool) (i : WriteInput)
      (hcalls : l.Calls fd writable .socketWriteable) (hwritten : l.c.written = 0)
      (hclock : lastClock l.history = some i.now.val) (hpermits : Permits S i.now l.c) :
      Act S l (startBatch S i l)
  | wrote (l : Local) (fd : Fd) (writable : Bool) (n : ℕ)
      (hcalls : l.Calls fd writable .socketWriteable) (hbatch : l.InBatch) :
      Act S l (acceptBytes n fd l)
  | refuse (l : Local) (fd : Fd) (writable : Bool)
      (hcalls : l.Calls fd writable .socketWriteable) (hbatch : l.InBatch) :
      Act S l (l.note (.refused l.c.written))
  | established (l : Local) (fd : Fd) (writable : Bool)
      (hcalls : l.Calls fd writable .socketConnected) : Act S l (openSocket fd l)
  | field (l : Local) (fd : Fd) (piece : Bytes) (hcalls : l.Calls fd false .socketReadable)
      (hwant : S.cfg.wantResponse) : Act S l (headerField S piece l)
  | value (l : Local) (fd : Fd) (piece : Bytes) (hcalls : l.Calls fd false .socketReadable)
      (hwant : S.cfg.wantResponse) : Act S l (headerValue S piece l)
  | body (l : Local) (fd : Fd) (piece : Bytes) (hcalls : l.Calls fd false .socketReadable)
      (hwant : S.cfg.wantResponse) : Act S l (responseBody S piece l)
  | respond (l : Local) (fd : Fd) (i : CompleteInput)
      (hcalls : l.Calls fd false .socketReadable) : Act S l (respond S i l)

/-! ## What the acts change -/

section Projections

variable {S : Setting} {l : Local} {n id wait : ℕ} {fd : Fd} {armed : Micros} {i : WriteInput}
  {piece : Bytes}

@[simp] theorem setLoop_self {f} : (l.setLoop f).self = l.self := rfl
@[simp] theorem setLoop_c {f} : (l.setLoop f).c = l.c := rfl
@[simp] theorem setLoop_tcp {f} : (l.setLoop f).tcp = l.tcp := rfl
@[simp] theorem setLoop_history {f} : (l.setLoop f).history = l.history := rfl
@[simp] theorem setLoop_files {f} : (l.setLoop f).files = l.files := rfl
@[simp] theorem setLoop_kernel {f} : (l.setLoop f).kernel = l.kernel := rfl
@[simp] theorem setLoop_aborted {f} : (l.setLoop f).aborted = l.aborted := rfl
@[simp] theorem setLoop_loop {f} : (l.setLoop f).thread.loop = f l.thread.loop := rfl

/-! ### Writing -/

@[simp] theorem acceptBytes_self : (acceptBytes n fd l).self = l.self := by
  by_cases hdone : l.c.written + (accepted n l.c).length = l.c.request.length <;>
    simp [acceptBytes, hdone]

@[simp] theorem acceptBytes_tcp : (acceptBytes n fd l).tcp = l.tcp := by
  by_cases hdone : l.c.written + (accepted n l.c).length = l.c.request.length <;>
    simp [acceptBytes, hdone]

@[simp] theorem acceptBytes_kernel : (acceptBytes n fd l).kernel = l.kernel := by
  by_cases hdone : l.c.written + (accepted n l.c).length = l.c.request.length <;>
    simp [acceptBytes, hdone]

@[simp] theorem acceptBytes_aborted : (acceptBytes n fd l).aborted = l.aborted := by
  by_cases hdone : l.c.written + (accepted n l.c).length = l.c.request.length <;>
    simp [acceptBytes, hdone]

@[simp] theorem acceptBytes_owner : (acceptBytes n fd l).files.owner = l.files.owner := by
  by_cases hdone : l.c.written + (accepted n l.c).length = l.c.request.length <;>
    simp [acceptBytes, hdone]

theorem acceptBytes_c : (acceptBytes n fd l).c = { l.c with written :=
    if l.c.written + (accepted n l.c).length = l.c.request.length then 0
    else l.c.written + (accepted n l.c).length } := by
  by_cases hdone : l.c.written + (accepted n l.c).length = l.c.request.length <;>
    simp [acceptBytes, hdone]

theorem acceptBytes_history : (acceptBytes n fd l).history =
    if l.c.written + (accepted n l.c).length = l.c.request.length then
      .finished l.tcp :: .wrote l.tcp l.c.written l.c.request (accepted n l.c) :: l.history
    else
      .wrote l.tcp l.c.written l.c.request (accepted n l.c) :: l.history := by
  by_cases hdone : l.c.written + (accepted n l.c).length = l.c.request.length <;>
    simp [acceptBytes, hdone]

theorem acceptBytes_loop : (acceptBytes n fd l).thread.loop =
    if l.c.written + (accepted n l.c).length = l.c.request.length then
      (l.deleteFileEvent fd .write).thread.loop
    else
      l.thread.loop := by
  by_cases hdone : l.c.written + (accepted n l.c).length = l.c.request.length
  · simp only [acceptBytes, Local.note_c, hdone, if_true]
    rfl
  · simp [acceptBytes, hdone]

theorem acceptBytes_files : (acceptBytes n fd l).files =
    if l.c.written + (accepted n l.c).length = l.c.request.length then
      (l.deleteFileEvent fd .write).files
    else
      l.files := by
  by_cases hdone : l.c.written + (accepted n l.c).length = l.c.request.length
  · simp only [acceptBytes, Local.note_c, hdone, if_true]
    rfl
  · simp [acceptBytes, hdone]

@[simp] theorem startBatch_self : (startBatch S i l).self = l.self := by
  simp only [startBatch]; split_ifs <;> rfl

@[simp] theorem startBatch_tcp : (startBatch S i l).tcp = l.tcp := by
  simp only [startBatch]; split_ifs <;> rfl

@[simp] theorem startBatch_thread : (startBatch S i l).thread = l.thread := by
  simp only [startBatch]; split_ifs <;> rfl

@[simp] theorem startBatch_files : (startBatch S i l).files = l.files := by
  simp only [startBatch]; split_ifs <;> rfl

@[simp] theorem startBatch_kernel : (startBatch S i l).kernel = l.kernel := by
  simp only [startBatch]; split_ifs <;> rfl

@[simp] theorem startBatch_aborted : (startBatch S i l).aborted = l.aborted := by
  simp only [startBatch]; split_ifs <;> rfl

/-- The connection as a batch starts: one that was cut short keeps its start. -/
theorem startBatch_c : (startBatch S i l).c = { l.c with
    request := if S.cfg.dynamic then i.request else l.c.request
    start := i.start
    actualLatencyStart := if l.c.hasPending then l.c.actualLatencyStart else i.start
    completeAtLastBatchStart :=
      if l.c.hasPending then l.c.completeAtLastBatchStart else l.c.complete
    hasPending := true
    pending := S.cfg.pipeline } := by
  by_cases hdynamic : S.cfg.dynamic = true <;> by_cases hpending : l.c.hasPending = true <;>
    simp [startBatch, hdynamic, hpending]

theorem startBatch_history : (startBatch S i l).history =
    if S.cfg.dynamic then
      .batchStart l.tcp i.start l.c.complete :: .clock i.start :: .request i.request :: l.history
    else
      .batchStart l.tcp i.start l.c.complete :: .clock i.start :: l.history := by
  by_cases hdynamic : S.cfg.dynamic = true <;> by_cases hpending : l.c.hasPending = true <;>
    simp [startBatch, hdynamic, hpending]

/-! ### Timers and connecting -/

@[simp] theorem park_self : (park fd armed wait l).self = l.self := rfl
@[simp] theorem park_c : (park fd armed wait l).c = l.c := rfl
@[simp] theorem park_tcp : (park fd armed wait l).tcp = l.tcp := rfl
@[simp] theorem park_aborted : (park fd armed wait l).aborted = l.aborted := rfl

theorem park_loop : (park fd armed wait l).thread.loop =
    aeCreateTimeEvent (l.deleteFileEvent fd .write).thread.loop armed (msecToWait wait)
      (.delayRequest l.self) := rfl

theorem park_history : (park fd armed wait l).history =
    .parked (l.deleteFileEvent fd .write).thread.loop.timeEventNextId l.tcp :: .clock armed ::
      l.history := rfl

@[simp] theorem resume_self : (resume id l).self = l.self := by simp [resume]
@[simp] theorem resume_c : (resume id l).c = l.c := by simp [resume]
@[simp] theorem resume_tcp : (resume id l).tcp = l.tcp := by simp [resume]
@[simp] theorem resume_aborted : (resume id l).aborted = l.aborted := by simp [resume]
@[simp] theorem resume_kernel : (resume id l).kernel = l.kernel.tail := by simp [resume]

@[simp]
theorem resume_owner : (resume id l).files.owner = l.files.owner := by simp [resume]

@[simp]
theorem resume_history :
    (resume id l).history = .resumed id l.tcp l.connecting :: l.history := by simp [resume]

theorem resume_loop : (resume id l).thread.loop =
    aeDeleteTimeEvent (l.createFileEvent l.c.fd .write .socketWriteable).2.thread.loop id := by
  simp [resume, Local.createFileEvent_loop]

theorem resume_files : (resume id l).files =
    (l.createFileEvent l.c.fd .write .socketWriteable).2.files := by
  simp [resume, Local.createFileEvent_files]

@[simp] theorem openSocket_self : (openSocket fd l).self = l.self := by simp [openSocket]
@[simp] theorem openSocket_tcp : (openSocket fd l).tcp = l.tcp := by simp [openSocket]
@[simp] theorem openSocket_aborted : (openSocket fd l).aborted = l.aborted := by simp [openSocket]

@[simp]
theorem openSocket_c : (openSocket fd l).c = { l.c with parser := .start, written := 0 } := by
  simp [openSocket]

@[simp]
theorem openSocket_kernel : (openSocket fd l).kernel = l.kernel.tail.tail := by simp [openSocket]

@[simp]
theorem openSocket_owner : (openSocket fd l).files.owner = l.files.owner := by simp [openSocket]

@[simp]
theorem openSocket_history : (openSocket fd l).history = .established l.tcp :: l.history := by
  simp [openSocket]

theorem openSocket_loop : (openSocket fd l).thread.loop =
    ((l.createFileEvent fd .read .socketReadable).2.createFileEvent fd .write
      .socketWriteable).2.thread.loop := by
  simp [openSocket, Local.createFileEvent_loop, Files.isOpen]

theorem openSocket_files : (openSocket fd l).files =
    ((l.createFileEvent fd .read .socketReadable).2.createFileEvent fd .write
      .socketWriteable).2.files := by
  simp [openSocket, Local.createFileEvent_loop, Local.createFileEvent_files, Files.isOpen]

/-! ### The thread -/

theorem quiet_setLoop {f : EventLoop → EventLoop} : l.thread.Quiet (l.setLoop f).thread := rfl

theorem quiet_park : l.thread.Quiet (park fd armed wait l).thread :=
  Local.quiet_deleteFileEvent.trans rfl

theorem quiet_resume : l.thread.Quiet (resume id l).thread := by
  have hcreate : l.thread.Quiet ((l.note (.resumed id l.tcp l.connecting)).createFileEvent
      l.c.fd .write .socketWriteable).2.thread := Local.quiet_createFileEvent
  exact hcreate.trans quiet_setLoop

theorem quiet_acceptBytes : l.thread.Quiet (acceptBytes n fd l).thread := by
  by_cases hdone : l.c.written + (accepted n l.c).length = l.c.request.length
  · simp only [acceptBytes, Local.note_c, hdone, if_true]
    exact Local.quiet_deleteFileEvent
  · simp only [acceptBytes, Local.note_c, hdone, if_false]
    exact .refl _

theorem quiet_openSocket : l.thread.Quiet (openSocket fd l).thread := by
  have hread : l.thread.Quiet (({ l with c := { l.c with parser := .start, written := 0 } }.note
      (.established l.tcp)).createFileEvent fd .read .socketReadable).2.thread :=
    Local.quiet_createFileEvent
  exact hread.trans Local.quiet_createFileEvent

/-! ### Reading -/

@[simp] theorem headerField_self : (headerField S piece l).self = l.self := rfl
@[simp] theorem headerField_tcp : (headerField S piece l).tcp = l.tcp := rfl
@[simp] theorem headerField_thread : (headerField S piece l).thread = l.thread := rfl
@[simp] theorem headerField_aborted : (headerField S piece l).aborted = l.aborted := rfl

@[simp]
theorem headerField_history : (headerField S piece l).history = .field piece :: l.history := rfl

/-- The connection after a piece of a header name. -/
theorem headerField_c : (headerField S piece l).c = { l.c with
    headers := bufferAppend S.junk
      (if l.c.state = .value then bufferTerminate l.c.headers else l.c.headers) piece
    state := .field } := by
  cases hstate : l.c.state <;> simp [headerField, hstate]

@[simp] theorem headerValue_self : (headerValue S piece l).self = l.self := rfl
@[simp] theorem headerValue_tcp : (headerValue S piece l).tcp = l.tcp := rfl
@[simp] theorem headerValue_thread : (headerValue S piece l).thread = l.thread := rfl
@[simp] theorem headerValue_aborted : (headerValue S piece l).aborted = l.aborted := rfl

@[simp]
theorem headerValue_history : (headerValue S piece l).history = .value piece :: l.history := rfl

/-- The connection after a piece of a header value. -/
theorem headerValue_c : (headerValue S piece l).c = { l.c with
    headers := bufferAppend S.junk
      (if l.c.state = .field then bufferTerminate l.c.headers else l.c.headers) piece
    state := .value } := by
  cases hstate : l.c.state <;> simp [headerValue, hstate]

@[simp] theorem responseBody_self : (responseBody S piece l).self = l.self := rfl
@[simp] theorem responseBody_tcp : (responseBody S piece l).tcp = l.tcp := rfl
@[simp] theorem responseBody_thread : (responseBody S piece l).thread = l.thread := rfl
@[simp] theorem responseBody_aborted : (responseBody S piece l).aborted = l.aborted := rfl

@[simp]
theorem responseBody_history : (responseBody S piece l).history = .body piece :: l.history := rfl

end Projections

/-! ## What every act keeps -/

section Acts

variable {S : Setting} {l l' : Local}

theorem Act.self_eq (h : Act S l l') : l'.self = l.self := by
  cases h with
  | initial id now i harmed => exact (Local.initialConnect_connects now i l).self_eq
  | reconnect i hconnected => exact (Local.reconnectSocket_connects i l).self_eq
  | _ => simp

theorem Act.tcp_le (h : Act S l l') : l.tcp ≤ l'.tcp := by
  cases h with
  | initial id now i harmed => simp [delayedInitialConnect]
  | reconnect i hconnected => simp [reconnectSocket]
  | _ => simp

theorem Act.stopAt_eq (h : Act S l l') : l'.thread.stopAt = l.thread.stopAt := by
  cases h with
  | thread t hframe => exact hframe.stopAt
  | initial id now i harmed => exact (Local.initialConnect_connects now i l).quiet.stopAt
  | reconnect i hconnected =>
    exact (Local.reconnectSocket_connects i l).quiet.stopAt.trans
      Local.quiet_deleteFileEvent.stopAt
  | park => exact quiet_park.stopAt
  | resume => exact quiet_resume.stopAt
  | wrote => exact quiet_acceptBytes.stopAt
  | established => exact quiet_openSocket.stopAt
  | respond => exact respond_stopAt
  | _ => simp

/-- Every act only adds to the history. -/
theorem Act.history_suffix (h : Act S l l') : l.history <:+ l'.history := by
  cases h with
  | initial id now i harmed => exact Local.suffix_delayedInitialConnect
  | reconnect i hconnected => exact Local.suffix_reconnectSocket
  | paced now =>
    obtain ⟨noted, hnoted, -⟩ := usecToNextSend_history S now l
    exact ⟨noted ++ [.clock now], by simp [hnoted]⟩
  | park fd writable armed wait hcalls hwritten => exact ⟨[_, _], rfl⟩
  | start fd writable i hcalls hwritten hclock hpermits =>
    rw [startBatch_history]
    split_ifs
    · exact ⟨[_, _, _], rfl⟩
    · exact ⟨[_, _], rfl⟩
  | wrote fd writable n hcalls hbatch =>
    rw [acceptBytes_history]
    split_ifs
    · exact ⟨[_, _], rfl⟩
    · exact List.suffix_cons _ _
  | respond fd i hcalls => exact suffix_respond
  | thread | fail | parser => exact List.suffix_refl _
  | _ => simp

/-- No act arms a first connect, and the one act that makes it takes its time event away. -/
theorem Act.armed_initial (h : Act S l l') {id : ℕ} {c : ConnId}
    (harmed : l'.thread.loop.Armed id (.delayedInitialConnect c)) :
    l.thread.loop.Armed id (.delayedInitialConnect c) := by
  cases h with
  | thread t hframe => exact hframe.initial id c harmed
  | initial id' now i harmed' =>
    exact (Local.initialConnect_connects now i l).armed.mp
      (EventLoop.armed_aeDeleteTimeEvent.mp harmed).1
  | reconnect i hconnected =>
    simpa using (Local.reconnectSocket_connects i l).armed.mp harmed
  | park fd writable armed wait hcalls hwritten => simpa [park_loop] using harmed
  | resume id' harmed' =>
    rw [resume_loop, EventLoop.armed_aeDeleteTimeEvent, Local.armed_createFileEvent] at harmed
    exact harmed.1
  | wrote fd writable n hcalls hbatch =>
    rw [acceptBytes_loop] at harmed
    split_ifs at harmed <;> simpa using harmed
  | established fd writable hcalls => simpa [openSocket_loop] using harmed
  | respond fd i hcalls =>
    rw [respond_loop] at harmed
    split_ifs at harmed <;> simpa using harmed
  | _ => simpa using harmed

/-- The only time events armed for a request are those of `park`. -/
theorem Act.armed_delay (h : Act S l l') {id : ℕ} {c : ConnId}
    (harmed : l'.thread.loop.Armed id (.delayRequest c)) :
    l.thread.loop.Armed id (.delayRequest c) ∨
      (c = l.self ∧ id = l.thread.loop.timeEventNextId ∧ .parked id l.tcp ∈ l'.history) := by
  cases h with
  | thread t hframe => exact .inl (hframe.delay id c harmed)
  | initial id' now i harmed' =>
    exact .inl ((Local.initialConnect_connects now i l).armed.mp
      (EventLoop.armed_aeDeleteTimeEvent.mp harmed).1)
  | reconnect i hconnected =>
    exact .inl (by simpa using (Local.reconnectSocket_connects i l).armed.mp harmed)
  | park fd writable armed wait hcalls hwritten =>
    rw [park_loop, EventLoop.armed_aeCreateTimeEvent, Local.armed_deleteFileEvent,
      Local.deleteFileEvent_nextId] at harmed
    rcases harmed with ⟨rfl, hproc⟩ | harmed
    · exact .inr ⟨(TimeProc.delayRequest.inj hproc).symm, rfl, by simp [park_history]⟩
    · exact .inl harmed
  | resume id' harmed' =>
    rw [resume_loop, EventLoop.armed_aeDeleteTimeEvent, Local.armed_createFileEvent] at harmed
    exact .inl harmed.1
  | wrote fd writable n hcalls hbatch =>
    rw [acceptBytes_loop] at harmed
    split_ifs at harmed <;> exact .inl (by simpa using harmed)
  | established fd writable hcalls => exact .inl (by simpa [openSocket_loop] using harmed)
  | respond fd i hcalls =>
    rw [respond_loop] at harmed
    split_ifs at harmed <;> exact .inl (by simpa using harmed)
  | _ => exact .inl (by simpa using harmed)

/-- A connection of a thread with one connection calls `connect_socket` for the first time
    from its first time event, which nothing else is armed with. -/
def FirstConnect (l : Local) : Prop :=
  ∀ id c, l.thread.loop.Armed id (.delayedInitialConnect c) → id = 0 ∧ l.tcp = 0

theorem Act.firstConnect (h : Act S l l') (hl : FirstConnect l) : FirstConnect l' := by
  intro id c harmed
  obtain ⟨rfl, htcp⟩ := hl id c (h.armed_initial harmed)
  refine ⟨rfl, ?_⟩
  cases h with
  | initial id' now i harmed' =>
    have hne := (EventLoop.armed_aeDeleteTimeEvent.mp harmed).2
    exact absurd (hl id' _ harmed').1.symm hne
  | reconnect i hconnected => exact absurd htcp hconnected.1
  | _ => simpa using htcp

theorem Local.Connected.mono (hl : l.Connected) (htcp : l.tcp ≤ l'.tcp)
    (hsuffix : l.history <:+ l'.history) : l'.Connected := by
  obtain ⟨hne, again, hmem⟩ := hl
  exact ⟨by omega, again, hsuffix.subset hmem⟩

theorem Act.connected (h : Act S l l') (hl : l.Connected) : l'.Connected :=
  hl.mono h.tcp_le h.history_suffix

/-- What holds of a connection whatever else goes on in its thread: `socket_readable` is
    registered for reading only, and nothing is handled before `connect_socket` succeeded. -/
structure Basic (l : Local) : Prop where
  writeSide : ∀ fd, (l.thread.loop.events fd).wfileProc ≠ .socketReadable
  calls : ∀ fd writable proc, l.Calls fd writable proc → l.Connected
  timers : ∀ id, l.thread.loop.Armed id (.delayRequest l.self) → l.Connected

theorem Basic.tcp_of_calls (hl : Basic l) {fd : Fd} {writable : Bool} {proc : FileProc}
    (h : l.Calls fd writable proc) : l.tcp ≠ 0 :=
  (hl.calls fd writable proc h).1

theorem Basic.tcp_of_timers (hl : Basic l) {id : ℕ}
    (h : l.thread.loop.Armed id (.delayRequest l.self)) : l.tcp ≠ 0 :=
  (hl.timers id h).1

theorem writeSide_register {fd : Fd} {mask : Mask} {proc : FileProc}
    (hl : ∀ fd, (l.thread.loop.events fd).wfileProc ≠ .socketReadable)
    (hproc : mask.writable = true → proc ≠ .socketReadable) (fd' : Fd) :
    ((l.register fd mask proc).thread.loop.events fd').wfileProc ≠ .socketReadable := by
  rw [Local.register_wfileProc]
  split_ifs with h
  · exact hproc h.2
  · exact hl fd'

theorem writeSide_createFileEvent {fd : Fd} {mask : Mask} {proc : FileProc}
    (hl : ∀ fd, (l.thread.loop.events fd).wfileProc ≠ .socketReadable)
    (hproc : mask.writable = true → proc ≠ .socketReadable) (fd' : Fd) :
    ((l.createFileEvent fd mask proc).2.thread.loop.events fd').wfileProc ≠ .socketReadable := by
  rcases Local.createFileEvent_cases l fd mask proc with h | ⟨-, -, h⟩ <;> rw [h]
  · exact hl fd'
  · exact writeSide_register hl hproc fd'

theorem writeSide_deleteFileEvent {fd : Fd} {mask : Mask}
    (hl : ∀ fd, (l.thread.loop.events fd).wfileProc ≠ .socketReadable) (fd' : Fd) :
    ((l.deleteFileEvent fd mask).thread.loop.events fd').wfileProc ≠ .socketReadable := by
  rw [Local.deleteFileEvent_wfileProc]
  exact hl fd'

/-- An act of a connection that is connected needs to keep the write side only. -/
theorem Basic.of_connected (hl : l'.Connected)
    (hwrite : ∀ fd, (l'.thread.loop.events fd).wfileProc ≠ .socketReadable) : Basic l' :=
  ⟨hwrite, fun _ _ _ _ => hl, fun _ _ => hl⟩

/-- An act that leaves the loop alone. -/
theorem Basic.of_loop (hl : Basic l) (hself : l'.self = l.self) (htcp : l.tcp ≤ l'.tcp)
    (hsuffix : l.history <:+ l'.history) (hloop : l'.thread.loop = l.thread.loop) : Basic l' := by
  refine ⟨fun fd => hloop ▸ hl.writeSide fd, fun fd writable proc h => ?_, fun id h => ?_⟩
  · refine (hl.calls fd writable proc ?_).mono htcp hsuffix
    simpa only [Local.Calls, hself, hloop] using h
  · refine (hl.timers id ?_).mono htcp hsuffix
    simpa only [hself, hloop] using h

theorem Local.Connects.basic {again : Bool} (h : Local.Connects again l l') (hl : Basic l) :
    Basic l' := by
  cases h with
  | failed hself hc htcp hhistory hthread =>
    refine hl.of_loop hself (by omega) ?_ (by rw [hthread])
    rw [hhistory]
    exact List.suffix_cons _ _
  | opened newFd hself hc htcp hhistory hfree hfd hthread =>
    refine .of_connected ⟨by omega, again, by simp [hhistory]⟩ fun fd => ?_
    rw [hthread]
    exact writeSide_register hl.writeSide (by simp) fd

theorem Act.basic (h : Act S l l') (hl : Basic l) : Basic l' := by
  have hself := h.self_eq
  have hle := h.tcp_le
  have hsuffix := h.history_suffix
  have hcalled : ∀ {fd : Fd} {writable : Bool} {proc : FileProc}, l.Calls fd writable proc →
      l'.Connected := fun hcalls => h.connected (hl.calls _ _ _ hcalls)
  cases h with
  | thread t hframe =>
    refine ⟨fun fd => hframe.events ▸ hl.writeSide fd, fun fd writable proc h => ?_,
      fun id h => hl.timers id (hframe.delay id _ h)⟩
    refine hl.calls fd writable proc ?_
    simpa only [Local.Calls, hframe.events] using h
  | initial id now i harmed =>
    have hbegun : Basic (l.begun now) :=
      hl.of_loop rfl le_rfl (List.suffix_cons _ _) rfl
    have hconnects := (Local.initialConnect_connects now i l).basic hbegun
    exact ⟨hconnects.writeSide, hconnects.calls, fun id' h =>
      hconnects.timers id' (EventLoop.armed_aeDeleteTimeEvent.mp h).1⟩
  | reconnect i hconnected =>
    refine (Local.reconnectSocket_connects i l).basic ?_
    have hdropped : l.dropped.Connected := hconnected.mono le_rfl (List.suffix_cons _ _)
    exact .of_connected hdropped
      (writeSide_deleteFileEvent hl.writeSide)
  | park fd writable armed wait hcalls hwritten =>
    exact .of_connected (hcalled hcalls) (writeSide_deleteFileEvent hl.writeSide)
  | resume id harmed =>
    refine .of_connected ((hl.timers id harmed).mono hle hsuffix) fun fd => ?_
    rw [resume_loop]
    exact writeSide_createFileEvent hl.writeSide (by simp) fd
  | wrote fd writable n hcalls hbatch =>
    refine .of_connected (hcalled hcalls) fun fd' => ?_
    rw [acceptBytes_loop]
    split_ifs
    · exact writeSide_deleteFileEvent hl.writeSide fd'
    · exact hl.writeSide fd'
  | established fd writable hcalls =>
    refine .of_connected (hcalled hcalls) fun fd' => ?_
    rw [openSocket_loop]
    exact writeSide_createFileEvent (writeSide_createFileEvent hl.writeSide (by simp [Mask.read]))
      (by simp) fd'
  | respond fd i hcalls =>
    refine .of_connected (hcalled hcalls) fun fd' => ?_
    rw [respond_loop]
    split_ifs
    · exact hl.writeSide fd'
    · exact writeSide_createFileEvent hl.writeSide (by simp) fd'
    · exact hl.writeSide fd'
  | _ => exact hl.of_loop hself hle hsuffix (by simp)

end Acts

end Wrkx
