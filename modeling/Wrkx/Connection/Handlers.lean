import Wrkx.Connection.State

/-!
# The handlers

The functions of `wrk.c` that run on behalf of one connection. What comes from outside the
program is given to each of them as an input: the readings of the clock, the results of the
system calls and of `sock.*`, the string `script_request` returns and the callbacks that
`http_parser_execute` makes. They write the records of `Local` as they go.
-/

namespace Wrkx

open Word

/-! ## Connecting -/

/-- The results of `socket` (`none` for `-1`), of `connect`, which is `refused` when it failed
    with an error other than `EINPROGRESS`, and of the `epoll_ctl` that adds the descriptor. -/
structure ConnectInput where
  socket : Option Fd
  refused : Bool
  added : Bool

/-- The error exit of `connect_socket`, before the descriptor is closed. -/
def connectFailed (again : Bool) (l : Local) : Local :=
  (l.setErrors fun e => { e with connect := e.connect.add 1 }).note (.connect again false)

/-- `connect_socket`. No caller looks at what it returns. -/
def connectSocket (again : Bool) (i : ConnectInput) (l : Local) : Local :=
  let l := { l with tcp := l.tcp + 1 }
  match l.socket i.socket with
  | none =>
    -- connect fails on the descriptor -1, which is then closed all the same.
    (connectFailed again l).closeNone
  | some (fd, l) =>
    if i.refused then
      (connectFailed again l).close fd
    else
      let created := { l with kernel := i.added :: l.kernel }.createFileEvent fd .both
        .socketConnected
      if created.1 then
        { created.2 with c := { created.2.c with fd } }.note (.connect again true)
      else
        (connectFailed again created.2).close fd

/-- `reconnect_socket`. -/
def reconnectSocket (i : ConnectInput) (l : Local) : Local :=
  let l := (l.deleteFileEvent l.c.fd .both).note .closed
  connectSocket true i (l.close l.c.fd)

/-- `delayed_initial_connect`, up to its result `AE_NOMORE`. -/
def delayedInitialConnect (now : Micros) (i : ConnectInput) (l : Local) : Local :=
  let l := l.note (.clock now)
  connectSocket false i { l with c := { l.c with threadStart := now } }

/-! ## Pacing -/

/-- The first fall-behind since the connection was last caught up. -/
def fallBehind (now : Micros) (l : Local) : Local :=
  if l.c.caughtUp then
    { l with c := { l.c with
        caughtUp := false
        catchUpStartTime := now
        completeAtCatchUpStart := l.c.complete } }.note (.fellBehind now l.c.complete)
  else
    l

/-- `usec_to_next_send`. -/
def usecToNextSend (S : Setting) (now : Micros) (l : Local) : ℕ × Local :=
  let l := l.note (.clock now)
  let nextStartTime := l.c.threadStart + S.quot l.c.complete l.c.throughput
  if now < nextStartTime then
    (nextStartTime - now, { l with c := { l.c with caughtUp := true } }.note .onPace)
  else
    let l := fallBehind now l
    let completeSinceCatchUpStart := sub64 l.c.complete l.c.completeAtCatchUpStart
    let nextStartTime :=
      l.c.catchUpStartTime + S.quot completeSinceCatchUpStart l.c.catchUpThroughput
    if now < nextStartTime then (nextStartTime - now, l) else (0, l)

/-- `round ((usec / 1000.0L) + 0.5)` as an `int`. The conversion of a number that `int` does not
    hold gives `INT_MIN`. -/
def msecToWait (usec : ℕ) : ℤ := if usec / 1000 + 1 < 2 ^ 31 then usec / 1000 + 1 else -2 ^ 31

/-- `socket_connected` has not run yet for the descriptor of the connection. -/
def Local.connecting (l : Local) : Bool :=
  let fe := l.thread.loop.events l.c.fd
  fe.mask.readable && decide (fe.rfileProc = .socketConnected)

/-- `delay_request`, run for the time event `id`; `none` for `AE_NOMORE`. -/
def delayRequest (S : Setting) (now : Micros) (id : ℕ) (l : Local) : Option ℤ × Local :=
  let (wait, l) := usecToNextSend S now l
  if wait ≠ 0 then
    (some (msecToWait wait), l)
  else
    let l := l.note (.resumed id l.tcp l.connecting)
    (none, (l.createFileEvent l.c.fd .write .socketWriteable).2)

/-! ## Completing a response -/

structure CompleteInput where
  now : Micros
  status : ℕ
  keepAlive : Bool
  reconnect : ConnectInput

/-- `script_response` as `response_complete` calls it, and the reset of the buffers. -/
def scriptResponse (status : ℕ) (l : Local) : Local :=
  let headers := bufferTerminate l.c.headers
  let read := headerPairs headers headers.cursor 0
  let l := l.note (.scriptResponse status read.1 l.c.body.contents read.2)
  { l with c := { l.c with
      headers := bufferReset headers
      body := bufferReset l.c.body
      state := .field } }

/-- `if (--c->pending == 0)` and its body. -/
def decrementPending (l : Local) : Local :=
  let l := l.note (.decrement l.tcp l.c.pending)
  let l := { l with c := { l.c with pending := sub64 l.c.pending 1 } }
  if l.c.pending = 0 then
    let l := { l with c := { l.c with hasPending := false } }
    (l.createFileEvent l.c.fd .write .socketWriteable).2
  else
    l

/-- `hdr_record_value` on one of the histograms of the thread. -/
def recordValue (get : Thread → HdrHistogram) (set : HdrHistogram → Thread → Thread) (value : ℤ)
    (l : Local) : Local :=
  match hdrRecordValue (get l.thread) value with
  | none => { l with aborted := true }
  | some (ok, h) =>
    let thread := set h l.thread
    { l with thread := { thread with calls := .record ok :: thread.calls } }

/-- The recording part of `response_complete`. -/
def recordLatency (S : Setting) (now : Micros) (timing : ℤ) (l : Local) : Local :=
  if S.cfg.recordAllResponses || !l.c.hasPending then
    let actual := int64 (sub64 now l.c.actualLatencyStart)
    let l := l.note (.record timing actual)
    let l := recordValue (·.latencyHistogram) (fun h t => { t with latencyHistogram := h }) timing l
    if l.aborted then
      l
    else
      recordValue (·.uLatencyHistogram) (fun h t => { t with uLatencyHistogram := h }) actual l
  else
    l

/-- The counters at the start of `response_complete`. -/
def countResponse (i : CompleteInput) (l : Local) : Local :=
  let l := (l.note (.clock i.now)).note (.complete l.tcp i.now i.status)
  { l with thread := { l.thread with
      complete := l.thread.complete + 1
      requests := l.thread.requests + 1
      calls := .responseComplete i.now l.c.pending :: l.thread.calls
      errors := if 399 < i.status then
          { l.thread.errors with status := l.thread.errors.status.add 1 }
        else
          l.thread.errors } }

/-- `response_complete` past the test of `stop_at`, up to the keep-alive test. -/
def measureResponse (S : Setting) (i : CompleteInput) (l : Local) : Local :=
  let l := { l with c := { l.c with complete := l.c.complete + 1 } }
  let expectedLatencyStart :=
    l.c.threadStart + S.quot l.c.completeAtLastBatchStart l.c.throughput
  let timing := int64 (sub64 i.now expectedLatencyStart)
  -- A negative timing is only reported.
  let l := l.note (.latency i.now expectedLatencyStart l.c.actualLatencyStart timing)
  recordLatency S i.now timing (decrementPending l)

/-- `response_complete` up to the test of `stop_at`. -/
def deliver (i : CompleteInput) (l : Local) : Local :=
  let l := countResponse i l
  if l.c.headers.allocated then scriptResponse i.status l else l

/-- `response_complete`. -/
def responseComplete (S : Setting) (i : CompleteInput) (l : Local) : Local :=
  let l := deliver i l
  if l.thread.stopAt ≤ i.now then
    { l with thread := { l.thread with loop := aeStop l.thread.loop } }
  else
    let l := measureResponse S i l
    if l.aborted then
      l
    else if !i.keepAlive then
      reconnectSocket i.reconnect l
    else
      { l with c := { l.c with parser := .start } }

/-! ## Reading -/

/-- A callback of `http_parser`. -/
inductive Callback
  | headerField (piece : Bytes)
  | headerValue (piece : Bytes)
  | body (piece : Bytes)
  | messageComplete (i : CompleteInput)

def headerField (S : Setting) (piece : Bytes) (l : Local) : Local :=
  let l := l.note (.field piece)
  let c :=
    if l.c.state = .value then
      { l.c with headers := bufferTerminate l.c.headers, state := .field }
    else
      l.c
  { l with c := { c with headers := bufferAppend S.junk c.headers piece } }

def headerValue (S : Setting) (piece : Bytes) (l : Local) : Local :=
  let l := l.note (.value piece)
  let c :=
    if l.c.state = .field then
      { l.c with headers := bufferTerminate l.c.headers, state := .value }
    else
      l.c
  { l with c := { c with headers := bufferAppend S.junk c.headers piece } }

def responseBody (S : Setting) (piece : Bytes) (l : Local) : Local :=
  let l := l.note (.body piece)
  { l with c := { l.c with body := bufferAppend S.junk l.c.body piece } }

/-- One callback. The parser leaves a message that is not keep-alive for its dead state before
    it makes the callback. -/
def runCallback (S : Setting) (callback : Callback) (l : Local) : Local :=
  match callback with
  | .headerField piece => if S.cfg.wantResponse then headerField S piece l else l
  | .headerValue piece => if S.cfg.wantResponse then headerValue S piece l else l
  | .body piece => if S.cfg.wantResponse then responseBody S piece l else l
  | .messageComplete i =>
    responseComplete S i
      { l with c := { l.c with parser := if i.keepAlive then .start else .dead } }

/-- The callbacks of one `http_parser_execute`; a dead parser makes none. -/
def httpParserExecute (S : Setting) : List Callback → Local → Local
  | [], l => l
  | callback :: rest, l =>
    if l.aborted ∨ l.c.parser = .dead then l
    else httpParserExecute S rest (runCallback S callback l)

/-- The state in which the bytes leave the parser. -/
def leaveParser (left : ParserState) (l : Local) : Local :=
  { l with c := { l.c with parser := if l.c.parser = .dead then .dead else left } }

/-- One round of the loop of `socket_readable`: what `sock.read` returned and, for bytes, what
    `http_parser_execute` made of them and whether `sock.readable` reports more. -/
inductive ReadInput
  | ok (n : ℕ) (callbacks : List Callback) (left : ParserState) (parsed more : Bool)
  | eof (i : CompleteInput)
  | error
  | retry

/-- `RECVBUF`. -/
def recvbuf : ℕ := 8192

/-- The error exit of `socket_readable`. -/
def readError (reconnect : ConnectInput) (l : Local) : Local :=
  reconnectSocket reconnect (l.setErrors fun e => { e with read := e.read.add 1 })

/-- `http_parser_execute` on no bytes: a body that ends with the connection is complete. -/
def executeEof (S : Setting) (i : CompleteInput) (l : Local) : Local :=
  if l.c.parser = .untilEof then
    responseComplete S { i with keepAlive := false } l
  else
    l

def addBytes (n : ℕ) (l : Local) : Local :=
  { l with thread := { l.thread with bytes := l.thread.bytes + n } }

/-- `socket_readable`. -/
def socketReadable (S : Setting) (reconnect : ConnectInput) : List ReadInput → Local → Local
  | [], l => l
  | .ok n callbacks left parsed more :: rest, l =>
    let l := httpParserExecute S callbacks l
    if l.aborted then
      l
    else
      let l := leaveParser left l
      if !parsed then
        readError reconnect l
      else
        let l := addBytes n l
        if n = recvbuf ∧ more then socketReadable S reconnect rest l else l
  | .eof i :: _, l =>
    let l := executeEof S i l
    if l.aborted then l else readError reconnect l
  | .error :: _, l => readError reconnect l
  | .retry :: _, l => l

/-! ## Writing -/

/-- What `sock.write` returned; `ok n` when it accepted `n` bytes. -/
inductive WriteResult
  | ok (n : ℕ)
  | error
  | retry

structure WriteInput where
  now : Micros
  armed : Micros
  start : Micros
  request : Bytes
  result : WriteResult
  reconnect : ConnectInput

/-- `socket_writeable` before the planned time: the write handler gives way to a timer. -/
def park (fd : Fd) (armed : Micros) (wait : ℕ) (l : Local) : Local :=
  let l := (l.deleteFileEvent fd .write).note (.clock armed)
  let id := l.thread.loop.timeEventNextId
  let loop := aeCreateTimeEvent l.thread.loop armed (msecToWait wait) (.delayRequest l.self)
  { l with thread := { l.thread with loop } }.note (.parked id l.tcp)

/-- `socket_writeable` as it takes up a new request. -/
def startBatch (S : Setting) (i : WriteInput) (l : Local) : Local :=
  let l :=
    if S.cfg.dynamic then
      { l with c := { l.c with request := i.request } }.note (.request i.request)
    else
      l
  let l := l.note (.clock i.start)
  let c := { l.c with start := i.start }
  let c :=
    if c.hasPending then
      c
    else
      { c with
        actualLatencyStart := c.start
        completeAtLastBatchStart := c.complete
        hasPending := true }
  { l with c := { c with pending := S.cfg.pipeline } }.note (.batchStart l.tcp i.start c.complete)

/-- The bytes that `sock.write` accepts when it takes up to `n` of those left. -/
def accepted (n : ℕ) (c : Connection) : Bytes := (c.request.drop c.written).take n

/-- `socket_writeable` once `sock.write` accepted bytes. -/
def acceptBytes (n : ℕ) (fd : Fd) (l : Local) : Local :=
  let written := l.c.written + (accepted n l.c).length
  let l := l.note (.wrote l.tcp l.c.written l.c.request (accepted n l.c))
  if written = l.c.request.length then
    ({ l with c := { l.c with written := 0 } }.note (.finished l.tcp)).deleteFileEvent fd .write
  else
    { l with c := { l.c with written } }

/-- `socket_writeable` from `sock.write` on. -/
def sendRequest (i : WriteInput) (fd : Fd) (l : Local) : Local :=
  match i.result with
  | .ok n => acceptBytes n fd l
  | .error =>
    let l := l.note (.refused l.c.written)
    reconnectSocket i.reconnect (l.setErrors fun e => { e with write := e.write.add 1 })
  | .retry => l.note (.refused l.c.written)

/-- `socket_writeable`. -/
def socketWriteable (S : Setting) (i : WriteInput) (fd : Fd) (l : Local) : Local :=
  if l.c.written = 0 then
    let (wait, l) := usecToNextSend S i.now l
    if wait ≠ 0 then
      park fd i.armed wait l
    else
      sendRequest i fd (startBatch S i l)
  else
    sendRequest i fd l

/-! ## The connection is open -/

/-- What `sock.connect` returned. -/
inductive Status
  | ok
  | error
  | retry
deriving DecidableEq

/-- `socket_connected` once `sock.connect` succeeded. -/
def openSocket (fd : Fd) (l : Local) : Local :=
  let l := { l with c := { l.c with parser := .start, written := 0 } }.note (.established l.tcp)
  let l := (l.createFileEvent fd .read .socketReadable).2
  (l.createFileEvent fd .write .socketWriteable).2

/-- `socket_connected`. -/
def socketConnected (status : Status) (reconnect : ConnectInput) (fd : Fd) (l : Local) : Local :=
  match status with
  | .ok => openSocket fd l
  | .error =>
    reconnectSocket reconnect (l.setErrors fun e => { e with connect := e.connect.add 1 })
  | .retry => l

end Wrkx
