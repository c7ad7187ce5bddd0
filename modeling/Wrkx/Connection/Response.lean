import Wrkx.Connection.Frame

/-!
# What a response changes

`response_complete` up to its keep-alive test, cut into the delivery to the script and the
measurement, with the connection, the loop and the rest of the state after each of them.
-/

namespace Wrkx

/-- The connection after `script_response`, which is not called without a header buffer. -/
def Connection.delivered (c : Connection) : Connection :=
  if c.headers.allocated then
    { c with
      headers := bufferReset (bufferTerminate c.headers)
      body := bufferReset c.body
      state := .field }
  else
    c

/-- `response_complete` up to the keep-alive test. -/
def respond (S : Setting) (i : CompleteInput) (l : Local) : Local :=
  let l := deliver i l
  if l.thread.stopAt ≤ i.now then
    { l with thread := { l.thread with loop := aeStop l.thread.loop } }
  else
    measureResponse S i l

variable {S : Setting} {i : CompleteInput} {l : Local} {c : Connection} {now : Micros} {timing : ℤ}

/-! ## Delivery -/

@[simp] theorem delivered_parserState : c.delivered.parser = c.parser := by
  simp only [Connection.delivered]; split <;> rfl

@[simp] theorem delivered_fd : c.delivered.fd = c.fd := by
  simp only [Connection.delivered]; split <;> rfl

@[simp] theorem delivered_throughput : c.delivered.throughput = c.throughput := by
  simp only [Connection.delivered]; split <;> rfl

@[simp]
theorem delivered_catchUpThroughput :
    c.delivered.catchUpThroughput = c.catchUpThroughput := by
  simp only [Connection.delivered]; split <;> rfl

@[simp] theorem delivered_complete : c.delivered.complete = c.complete := by
  simp only [Connection.delivered]; split <;> rfl

@[simp]
theorem delivered_completeAtLastBatchStart :
    c.delivered.completeAtLastBatchStart = c.completeAtLastBatchStart := by
  simp only [Connection.delivered]; split <;> rfl

@[simp] theorem delivered_catchUpStartTime : c.delivered.catchUpStartTime = c.catchUpStartTime := by
  simp only [Connection.delivered]; split <;> rfl

@[simp]
theorem delivered_completeAtCatchUpStart :
    c.delivered.completeAtCatchUpStart = c.completeAtCatchUpStart := by
  simp only [Connection.delivered]; split <;> rfl

@[simp] theorem delivered_threadStart : c.delivered.threadStart = c.threadStart := by
  simp only [Connection.delivered]; split <;> rfl

@[simp] theorem delivered_start : c.delivered.start = c.start := by
  simp only [Connection.delivered]; split <;> rfl

@[simp] theorem delivered_request : c.delivered.request = c.request := by
  simp only [Connection.delivered]; split <;> rfl

@[simp] theorem delivered_written : c.delivered.written = c.written := by
  simp only [Connection.delivered]; split <;> rfl

@[simp] theorem delivered_pending : c.delivered.pending = c.pending := by
  simp only [Connection.delivered]; split <;> rfl

@[simp]
theorem delivered_actualLatencyStart :
    c.delivered.actualLatencyStart = c.actualLatencyStart := by
  simp only [Connection.delivered]; split <;> rfl

@[simp] theorem delivered_hasPending : c.delivered.hasPending = c.hasPending := by
  simp only [Connection.delivered]; split <;> rfl

@[simp] theorem delivered_caughtUp : c.delivered.caughtUp = c.caughtUp := by
  simp only [Connection.delivered]; split <;> rfl

@[simp]
theorem deliver_self : (deliver i l).self = l.self := by
  simp only [deliver]; split <;> rfl

@[simp]
theorem deliver_tcp : (deliver i l).tcp = l.tcp := by
  simp only [deliver]; split <;> rfl

@[simp]
theorem deliver_files : (deliver i l).files = l.files := by
  simp only [deliver]; split <;> rfl

@[simp]
theorem deliver_kernel : (deliver i l).kernel = l.kernel := by
  simp only [deliver]; split <;> rfl

@[simp]
theorem deliver_aborted : (deliver i l).aborted = l.aborted := by
  simp only [deliver]; split <;> rfl

@[simp]
theorem deliver_thread : (deliver i l).thread = (countResponse i l).thread := by
  simp only [deliver]; split <;> rfl

/-- Delivering a response to the script touches only its buffers. -/
@[simp]
theorem deliver_c : (deliver i l).c = l.c.delivered := by
  simp only [deliver, Connection.delivered]
  split <;> split <;> first | rfl | contradiction

/-- What the delivery to the script adds to the history. -/
def delivery (i : CompleteInput) (c : Connection) : List Obs :=
  if c.headers.allocated then
    let headers := bufferTerminate c.headers
    let read := headerPairs headers headers.cursor 0
    [.scriptResponse i.status read.1 c.body.contents read.2]
  else
    []

/-- The delivery is one call of `script_response` at most. -/
theorem forall_delivery {P : Obs → Prop} {c : Connection}
    (hscript : ∀ status headers body overread, P (.scriptResponse status headers body overread)) :
    ∀ o ∈ delivery i c, P o := by
  intro o ho
  rw [delivery] at ho
  split_ifs at ho
  · obtain rfl := List.mem_singleton.mp ho
    exact hscript _ _ _ _
  · exact absurd ho List.not_mem_nil

/-- What is noted of a response up to its delivery. -/
theorem forall_received {P : Obs → Prop} {c : Connection} {tcp : ℕ}
    (hscript : ∀ status headers body overread, P (.scriptResponse status headers body overread))
    (hcomplete : P (.complete tcp i.now i.status)) (hclock : P (.clock i.now)) :
    ∀ o ∈ delivery i c ++ [.complete tcp i.now i.status, .clock i.now], P o := by
  intro o ho
  rcases List.mem_append.mp ho with ho | ho
  · exact forall_delivery hscript o ho
  · rcases List.mem_cons.mp ho with rfl | ho
    · exact hcomplete
    · obtain rfl := List.mem_singleton.mp ho
      exact hclock

theorem deliver_history : (deliver i l).history =
    delivery i l.c ++ .complete l.tcp i.now i.status :: .clock i.now :: l.history := by
  by_cases halloc : l.c.headers.allocated
  · have hcount : (countResponse i l).c.headers.allocated = true := halloc
    simp only [deliver, delivery, hcount, halloc, if_true]
    rfl
  · have hcount : ¬ (countResponse i l).c.headers.allocated = true := halloc
    simp only [deliver, delivery, hcount, halloc, if_false, Bool.false_eq_true]
    rfl

theorem deliver_received : (deliver i l).history =
    (delivery i l.c ++ [.complete l.tcp i.now i.status, .clock i.now]) ++ l.history := by
  rw [deliver_history]
  simp

@[simp] theorem countResponse_loop : (countResponse i l).thread.loop = l.thread.loop := rfl
@[simp] theorem countResponse_stopAt : (countResponse i l).thread.stopAt = l.thread.stopAt := rfl

@[simp]
theorem countResponse_latencyHistogram :
    (countResponse i l).thread.latencyHistogram = l.thread.latencyHistogram := rfl

@[simp]
theorem countResponse_uLatencyHistogram :
    (countResponse i l).thread.uLatencyHistogram = l.thread.uLatencyHistogram := rfl

/-! ## Measurement -/

section Record

variable {get : Thread → HdrHistogram} {set : HdrHistogram → Thread → Thread} {value : ℤ}

@[simp]
theorem recordValue_self : (recordValue get set value l).self = l.self := by
  simp only [recordValue]; split <;> rfl

@[simp]
theorem recordValue_c : (recordValue get set value l).c = l.c := by
  simp only [recordValue]; split <;> rfl

@[simp]
theorem recordValue_tcp : (recordValue get set value l).tcp = l.tcp := by
  simp only [recordValue]; split <;> rfl

@[simp]
theorem recordValue_history : (recordValue get set value l).history = l.history := by
  simp only [recordValue]; split <;> rfl

@[simp]
theorem recordValue_files : (recordValue get set value l).files = l.files := by
  simp only [recordValue]; split <;> rfl

@[simp]
theorem recordValue_kernel : (recordValue get set value l).kernel = l.kernel := by
  simp only [recordValue]; split <;> rfl

theorem recordValue_loop (hset : ∀ h t, (set h t).loop = t.loop) :
    (recordValue get set value l).thread.loop = l.thread.loop := by
  simp only [recordValue]; split <;> simp [hset]

theorem recordValue_stopAt (hset : ∀ h t, (set h t).stopAt = t.stopAt) :
    (recordValue get set value l).thread.stopAt = l.thread.stopAt := by
  simp only [recordValue]; split <;> simp [hset]

end Record

@[simp]
theorem recordLatency_self : (recordLatency S now timing l).self = l.self := by
  simp only [recordLatency]; split_ifs <;> simp

@[simp]
theorem recordLatency_c : (recordLatency S now timing l).c = l.c := by
  simp only [recordLatency]; split_ifs <;> simp

@[simp]
theorem recordLatency_tcp : (recordLatency S now timing l).tcp = l.tcp := by
  simp only [recordLatency]; split_ifs <;> simp

@[simp]
theorem recordLatency_files : (recordLatency S now timing l).files = l.files := by
  simp only [recordLatency]; split_ifs <;> simp

@[simp]
theorem recordLatency_kernel : (recordLatency S now timing l).kernel = l.kernel := by
  simp only [recordLatency]; split_ifs <;> simp

@[simp]
theorem recordLatency_loop : (recordLatency S now timing l).thread.loop = l.thread.loop := by
  simp only [recordLatency]
  split_ifs <;> simp [recordValue_loop]

@[simp]
theorem recordLatency_stopAt : (recordLatency S now timing l).thread.stopAt = l.thread.stopAt := by
  simp only [recordLatency]
  split_ifs <;> simp [recordValue_stopAt]

/-- The values given to the histograms by `recordLatency`. -/
theorem recordLatency_history : (recordLatency S now timing l).history =
    if S.cfg.recordAllResponses || !l.c.hasPending then
      .record timing (Word.int64 (Word.sub64 now l.c.actualLatencyStart)) :: l.history
    else
      l.history := by
  simp only [recordLatency]
  split_ifs <;> simp

@[simp] theorem decrementPending_self : (decrementPending l).self = l.self := by
  simp only [decrementPending]; split_ifs <;> simp

@[simp] theorem decrementPending_tcp : (decrementPending l).tcp = l.tcp := by
  simp only [decrementPending]; split_ifs <;> simp

@[simp] theorem decrementPending_owner :
    (decrementPending l).files.owner = l.files.owner := by
  simp only [decrementPending]; split_ifs <;> simp

@[simp] theorem decrementPending_history :
    (decrementPending l).history = .decrement l.tcp l.c.pending :: l.history := by
  simp only [decrementPending]; split_ifs <;> simp

theorem decrementPending_kernel (hkernel : l.kernel = []) : (decrementPending l).kernel = [] := by
  by_cases hlast : Word.sub64 l.c.pending 1 = 0 <;> simp [decrementPending, hlast, hkernel]

/-- The connection after `--c->pending`. -/
theorem decrementPending_c : (decrementPending l).c = { l.c with
    pending := Word.sub64 l.c.pending 1
    hasPending := if Word.sub64 l.c.pending 1 = 0 then false else l.c.hasPending } := by
  by_cases hlast : Word.sub64 l.c.pending 1 = 0 <;> simp [decrementPending, hlast]

/-- The loop after `--c->pending`: the write handler comes back with the last response of a
    batch. -/
theorem decrementPending_loop : (decrementPending l).thread.loop =
    if Word.sub64 l.c.pending 1 = 0 then
      (l.createFileEvent l.c.fd .write .socketWriteable).2.thread.loop
    else
      l.thread.loop := by
  by_cases hlast : Word.sub64 l.c.pending 1 = 0
  · simp only [decrementPending, Local.note_c, hlast, if_true, Local.createFileEvent_loop]
    rfl
  · simp only [decrementPending, Local.note_c, hlast, if_false]
    rfl

theorem decrementPending_files : (decrementPending l).files =
    if Word.sub64 l.c.pending 1 = 0 then
      (l.createFileEvent l.c.fd .write .socketWriteable).2.files
    else
      l.files := by
  by_cases hlast : Word.sub64 l.c.pending 1 = 0
  · simp only [decrementPending, Local.note_c, hlast, if_true, Local.createFileEvent_files]
    rfl
  · simp only [decrementPending, Local.note_c, hlast, if_false]
    rfl

theorem quiet_decrementPending : l.thread.Quiet (decrementPending l).thread := by
  by_cases hlast : Word.sub64 l.c.pending 1 = 0
  · simp only [decrementPending, Local.note_c, hlast, if_true]
    exact Local.quiet_createFileEvent
  · simp only [decrementPending, Local.note_c, hlast, if_false]
    exact .refl _

theorem Thread.Quiet.stopAt {t t' : Thread} (h : t.Quiet t') : t'.stopAt = t.stopAt := by
  rw [Thread.Quiet] at h
  rw [h]

@[simp]
theorem decrementPending_aborted : (decrementPending l).aborted = l.aborted := by
  by_cases hlast : Word.sub64 l.c.pending 1 = 0 <;> simp [decrementPending, hlast]

/-! ## `response_complete` -/

@[simp]
theorem respond_self : (respond S i l).self = l.self := by
  simp only [respond, measureResponse]; split_ifs <;> simp

@[simp]
theorem respond_tcp : (respond S i l).tcp = l.tcp := by
  simp only [respond, measureResponse]; split_ifs <;> simp

@[simp]
theorem respond_owner : (respond S i l).files.owner = l.files.owner := by
  simp only [respond, measureResponse]; split_ifs <;> simp

@[simp]
theorem respond_stopAt : (respond S i l).thread.stopAt = l.thread.stopAt := by
  simp only [respond, measureResponse]
  split_ifs
  · simp
  · rw [recordLatency_stopAt, quiet_decrementPending.stopAt]
    simp

theorem respond_kernel (hkernel : l.kernel = []) : (respond S i l).kernel = [] := by
  simp only [respond, measureResponse]
  split_ifs
  · simp [hkernel]
  · rw [recordLatency_kernel, decrementPending_kernel]
    simp [hkernel]

/-- The connection after a response. -/
theorem respond_c : (respond S i l).c =
    if l.thread.stopAt ≤ i.now then
      l.c.delivered
    else
      { l.c.delivered with
        complete := l.c.complete + 1
        pending := Word.sub64 l.c.pending 1
        hasPending := if Word.sub64 l.c.pending 1 = 0 then false else l.c.hasPending } := by
  simp only [respond, measureResponse, deliver_thread, countResponse_stopAt]
  split_ifs <;> simp [decrementPending_c, *]

/-- The loop after a response: the last one of a batch brings the write handler back. -/
theorem respond_loop : (respond S i l).thread.loop =
    if l.thread.stopAt ≤ i.now then
      aeStop l.thread.loop
    else if Word.sub64 l.c.pending 1 = 0 then
      (l.createFileEvent l.c.fd .write .socketWriteable).2.thread.loop
    else
      l.thread.loop := by
  simp only [respond, measureResponse, deliver_thread, countResponse_stopAt]
  split_ifs <;> simp [decrementPending_loop, Local.createFileEvent_loop, *]

theorem respond_files : (respond S i l).files =
    if l.thread.stopAt ≤ i.now then
      l.files
    else if Word.sub64 l.c.pending 1 = 0 then
      (l.createFileEvent l.c.fd .write .socketWriteable).2.files
    else
      l.files := by
  simp only [respond, measureResponse, deliver_thread, countResponse_stopAt]
  split_ifs <;> simp [decrementPending_files, Local.createFileEvent_files, *]

/-- The `expected_latency_start` of a response. -/
def expectedLatencyStart (S : Setting) (c : Connection) : ℕ :=
  c.threadStart + S.quot c.completeAtLastBatchStart c.throughput

/-- What a response before `stop_at` adds to the history after its delivery. -/
def measurement (S : Setting) (now tcp : ℕ) (c : Connection) : List Obs :=
  let timing := Word.int64 (Word.sub64 now (expectedLatencyStart S c))
  let recorded : List Obs :=
    if S.cfg.recordAllResponses || (decide (Word.sub64 c.pending 1 = 0) || !c.hasPending) then
      [.record timing (Word.int64 (Word.sub64 now c.actualLatencyStart))]
    else
      []
  recorded ++
    [.decrement tcp c.pending, .latency now (expectedLatencyStart S c) c.actualLatencyStart timing]

/-- What is noted as a response is measured. -/
theorem forall_measurement {P : Obs → Prop} {now tcp : ℕ} {c : Connection}
    (hrecord : ∀ expected actual, P (.record expected actual))
    (hdecrement : P (.decrement tcp c.pending))
    (hlatency : ∀ expectedStart actualStart timing,
      P (.latency now expectedStart actualStart timing)) :
    ∀ o ∈ measurement S now tcp c, P o := by
  intro o ho
  rw [measurement] at ho
  rcases List.mem_append.mp ho with ho | ho
  · split_ifs at ho
    · obtain rfl := List.mem_singleton.mp ho
      exact hrecord _ _
    · exact absurd ho List.not_mem_nil
  · rcases List.mem_cons.mp ho with rfl | ho
    · exact hdecrement
    · obtain rfl := List.mem_singleton.mp ho
      exact hlatency _ _ _

theorem respond_history : (respond S i l).history =
    if l.thread.stopAt ≤ i.now then
      (deliver i l).history
    else
      measurement S i.now l.tcp l.c ++ (deliver i l).history := by
  simp only [respond, measureResponse, deliver_thread, countResponse_stopAt]
  split_ifs with hstop
  · rfl
  · rw [recordLatency_history, decrementPending_history]
    by_cases hlast : Word.sub64 l.c.pending 1 = 0 <;>
      by_cases hrecord : S.cfg.recordAllResponses = true <;>
      by_cases hpending : l.c.hasPending = true <;>
      simp [measurement, expectedLatencyStart, decrementPending_c, hlast, hrecord, hpending]

/-- An entry that a response makes. -/
def Obs.ofResponse : Obs → Bool
  | .clock _ | .complete .. | .scriptResponse .. | .latency .. | .decrement .. | .record .. => true
  | _ => false

/-- What a response adds to the history, newest entry first. -/
def responded (S : Setting) (i : CompleteInput) (l : Local) : List Obs :=
  (if l.thread.stopAt ≤ i.now then [] else measurement S i.now l.tcp l.c) ++
    delivery i l.c ++ [.complete l.tcp i.now i.status, .clock i.now]

theorem respond_responded : (respond S i l).history = responded S i l ++ l.history := by
  rw [respond_history, deliver_history, responded]
  split_ifs <;> simp

theorem ofResponse_of_mem {o : Obs} (ho : o ∈ responded S i l) : o.ofResponse = true := by
  rw [responded, List.append_assoc] at ho
  rcases List.mem_append.mp ho with ho | ho
  · split_ifs at ho
    · exact absurd ho List.not_mem_nil
    · exact forall_measurement (P := fun o => o.ofResponse = true) (fun _ _ => rfl) rfl
        (fun _ _ _ => rfl) o ho
  · exact forall_received (P := fun o => o.ofResponse = true) (fun _ _ _ _ => rfl) rfl rfl o ho

/-- What `response_complete` notes first. -/
theorem suffix_received (S : Setting) (i : CompleteInput) (l : Local) :
    .complete l.tcp i.now i.status :: .clock i.now :: l.history <:+ (respond S i l).history := by
  rw [respond_history, deliver_history]
  split_ifs
  · exact List.suffix_append _ _
  · rw [← List.append_assoc]
    exact List.suffix_append _ _

theorem suffix_respond : l.history <:+ (respond S i l).history :=
  (List.suffix_append [_, _] l.history).trans (suffix_received S i l)

end Wrkx
