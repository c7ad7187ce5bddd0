import Mathlib.Data.Rat.Floor
import Wrkx.Connection.Buffer
import Wrkx.Hdr.Histogram
import Wrkx.Loop.EventLoop

/-!
# The state a handler works on

`connection` and `thread` of `wrk.h`, the descriptor table of the process, and `Local`, what
a handler reaches through its connection pointer. Beside the state of the program each of
them keeps a record of what happened, newest entry first: `Local.history` for the connection,
`Thread.calls` for the thread and `Files.uses` for the descriptors. The program never reads
these records; the statements about runs do.

## Design notes

The fields of `connection` that are used for debugging only are left out. `c->length` is the
length of `c->request`. The state of `http_parser` is cut down to what decides which
callbacks it can still make.
-/

namespace Wrkx

/-- A reading of `time_us`, which adds in signed 64-bit arithmetic. -/
abbrev Micros := Fin (2 ^ 63)

instance neZeroMicros : NeZero (2 ^ 63 : ℕ) := ⟨by decide⟩

/-! ## Settings -/

/-- The fields of `cfg` that the handlers read. `wantResponse` says that the callbacks for
    headers and body are installed. -/
structure Config where
  pipeline : ℕ
  dynamic : Bool
  recordAllResponses : Bool
  wantResponse : Bool
  timeout : ℕ

/-- The configuration, and the parts of the machine the source leaves open: `quot n x` is
    the double `n / x` converted to an integer, `nan` what the conversion makes of a
    not-a-number, `junk` what `realloc` leaves in new bytes. -/
structure Setting where
  cfg : Config
  quot : ℕ → ℚ → ℕ
  nan : ℕ
  junk : ℕ → UInt8

/-- Double division read as exact rationals truncated toward zero. -/
def exactQuot (n : ℕ) (x : ℚ) : ℕ := ⌊(n : ℚ) / x⌋₊

/-! ## The connection -/

/-- How far `http_parser` is: before a message, inside one, inside a body that ends with the
    connection, or after the last message of a connection. -/
inductive ParserState
  | start
  | message
  | untilEof
  | dead
deriving DecidableEq

/-- `enum { FIELD, VALUE }`. -/
inductive HeaderState
  | field
  | value
deriving DecidableEq

/-- `struct connection`. -/
structure Connection where
  parser : ParserState
  state : HeaderState
  fd : Fd
  throughput : ℚ
  catchUpThroughput : ℚ
  complete : ℕ
  completeAtLastBatchStart : ℕ
  catchUpStartTime : ℕ
  completeAtCatchUpStart : ℕ
  threadStart : ℕ
  start : ℕ
  request : Bytes
  written : ℕ
  pending : ℕ
  headers : Buffer
  body : Buffer
  actualLatencyStart : ℕ
  hasPending : Bool
  caughtUp : Bool

/-- A connection as `thread_main` sets it up in zeroed memory. -/
def newConnection (throughput : ℚ) (request : Bytes) : Connection where
  parser := .start
  state := .field
  fd := 0
  throughput := throughput
  catchUpThroughput := throughput * 2
  complete := 0
  completeAtLastBatchStart := 0
  catchUpStartTime := 0
  completeAtCatchUpStart := 0
  threadStart := 0
  start := 0
  request := request
  written := 0
  pending := 0
  headers := .null
  body := .null
  actualLatencyStart := 0
  hasPending := false
  caughtUp := true

/-- What a connection did. TCP connections are numbered by the calls of `connect_socket`. -/
inductive Obs
  /-- a reading of the clock -/
  | clock (now : ℕ)
  /-- `caught_up` was set -/
  | onPace
  /-- `caught_up` was cleared, at this time and count of completions -/
  | fellBehind (now complete : ℕ)
  /-- `connect_socket` was called, `again` by `reconnect_socket` -/
  | connect (again ok : Bool)
  /-- `reconnect_socket` gave up the TCP connection -/
  | closed
  /-- `socket_connected` found the TCP connection open -/
  | established (tcp : ℕ)
  /-- `socket_writeable` armed the time event `id` for `delay_request` -/
  | parked (id tcp : ℕ)
  /-- `delay_request` found the send due and registered `socket_writeable` -/
  | resumed (id tcp : ℕ) (connecting : Bool)
  /-- `script_request` was called -/
  | request (bytes : Bytes)
  /-- `sock.write` is reached with `c->written == 0` -/
  | batchStart (tcp now complete : ℕ)
  /-- `sock.write` accepted bytes of the request, from the offset `c->written` on -/
  | wrote (tcp offset : ℕ) (request accepted : Bytes)
  /-- `sock.write` accepted nothing and returned `RETRY` or `ERROR` -/
  | refused (offset : ℕ)
  /-- the whole request is written -/
  | finished (tcp : ℕ)
  /-- `header_field` -/
  | field (piece : Bytes)
  /-- `header_value` -/
  | value (piece : Bytes)
  /-- `response_body` -/
  | body (piece : Bytes)
  /-- `response_complete` was called -/
  | complete (tcp now status : ℕ)
  /-- `script_response` was called; `overread` when a string was read past the cursor -/
  | scriptResponse (status : ℕ) (headers : List (Bytes × Bytes)) (body : Bytes) (overread : Bool)
  /-- `response_complete` computed `expected_latency_timing` -/
  | latency (now expectedStart actualStart : ℕ) (timing : ℤ)
  /-- `--c->pending` found this value -/
  | decrement (tcp pending : ℕ)
  /-- the values given to `hdr_record_value` for the two histograms -/
  | record (expected actual : ℤ)
deriving DecidableEq

/-! ## The thread -/

/-- A `uint32_t` of `errors`, beside how often it was incremented. -/
structure ErrorCounter where
  value : BitVec 32
  increments : ℕ
  wraps : value = BitVec.ofNat 32 increments

namespace ErrorCounter

def zero : ErrorCounter := ⟨0, 0, rfl⟩

/-- `n` increments. -/
def add (n : ℕ) (c : ErrorCounter) : ErrorCounter where
  value := c.value + BitVec.ofNat 32 n
  increments := c.increments + n
  wraps := by rw [c.wraps, BitVec.ofNat_add]

/-- The counter was incremented `n` times, and holds `n` modulo 2^32. -/
def Counts (c : ErrorCounter) (n : ℕ) : Prop := c.increments = n ∧ c.value = BitVec.ofNat 32 n

variable {c : ErrorCounter} {n : ℕ}

@[simp]
theorem add_increments : (c.add n).increments = c.increments + n := rfl

@[simp]
theorem add_zero : c.add 0 = c := by
  obtain ⟨value, increments, wraps⟩ := c
  simp [add]

@[ext]
theorem ext {d : ErrorCounter} (h : c.increments = d.increments) : c = d := by
  obtain ⟨value, increments, wraps⟩ := c
  obtain ⟨value', increments', wraps'⟩ := d
  subst wraps wraps'
  exact congrArg (fun n => ErrorCounter.mk (BitVec.ofNat 32 n) n rfl) h

theorem counts_iff : c.Counts n ↔ c.increments = n :=
  ⟨And.left, fun h => ⟨h, h ▸ c.wraps⟩⟩

end ErrorCounter

/-- `errors` of `stats.h`. -/
structure Errors where
  connect : ErrorCounter
  read : ErrorCounter
  write : ErrorCounter
  status : ErrorCounter
  timeout : ErrorCounter

/-- What a thread did. -/
inductive Call
  /-- `response_complete`, with `c->pending` as it was called -/
  | responseComplete (now pending : ℕ)
  /-- what `hdr_record_value` returned -/
  | record (ok : Bool)
  /-- `calibrate` ran to its end -/
  | calibrated
  /-- `sample_rate` -/
  | sampled
deriving DecidableEq

/-- `thread`. -/
structure Thread where
  loop : EventLoop
  connections : ℕ
  interval : ℕ
  stopAt : ℕ
  complete : ℕ
  requests : ℕ
  bytes : ℕ
  start : ℕ
  mean : ℕ
  latencyHistogram : HdrHistogram
  uLatencyHistogram : HdrHistogram
  errors : Errors
  calls : List Call

/-! ## The descriptor table -/

/-- Who obtained a descriptor. -/
inductive Owner
  | process
  | conn (c : ConnId)
deriving DecidableEq

/-- A descriptor was closed, registered or deregistered on behalf of a connection; the number
    -1 is `none`. -/
structure Use where
  conn : ConnId
  fd : Option Fd
  owner : Option Owner
deriving DecidableEq

/-- The descriptor table of the process; a descriptor without owner is free. -/
structure Files where
  owner : Fd → Option Owner
  uses : List Use

def Files.isOpen (files : Files) (fd : Fd) : Bool := (files.owner fd).isSome

/-- Note that `fd` is used on behalf of a connection. -/
def Files.use (files : Files) (c : ConnId) (fd : Fd) : Files :=
  { files with uses := ⟨c, some fd, files.owner fd⟩ :: files.uses }

/-! ## What a handler reaches -/

/-- The connection `self` with its thread and the descriptor table. `tcp` numbers the TCP
    connection, `kernel` holds the outcomes of the coming `epoll_ctl` calls (they succeed
    when it runs out), and `aborted` is set when an assertion failed. -/
structure Local where
  self : ConnId
  c : Connection
  tcp : ℕ
  history : List Obs
  thread : Thread
  files : Files
  kernel : List Bool
  aborted : Bool

namespace Local

def note (o : Obs) (l : Local) : Local := { l with history := o :: l.history }

/-- `aeCreateFileEvent`; whether it returned `AE_OK`. `epoll_ctl` refuses a descriptor that
    is not open. -/
def createFileEvent (fd : Fd) (mask : Mask) (proc : FileProc) (l : Local) : Bool × Local :=
  let added := l.files.isOpen fd && l.kernel.headD true
  let l := { l with kernel := l.kernel.tail }
  match aeCreateFileEvent l.thread.loop added fd mask proc l.self with
  | none => (false, l)
  | some loop =>
    (true, { l with thread := { l.thread with loop }, files := l.files.use l.self fd })

/-- `aeDeleteFileEvent`. -/
def deleteFileEvent (fd : Fd) (mask : Mask) (l : Local) : Local :=
  { l with
    thread := { l.thread with loop := aeDeleteFileEvent l.thread.loop fd mask }
    files := l.files.use l.self fd }

/-- `close`. -/
def close (fd : Fd) (l : Local) : Local :=
  let files := l.files.use l.self fd
  { l with files := { files with owner := Function.update files.owner fd none } }

/-- `close(-1)`, which closes nothing. -/
def closeNone (l : Local) : Local :=
  { l with files := { l.files with uses := ⟨l.self, none, none⟩ :: l.files.uses } }

/-- `socket`. The number `fd` is taken when it is free, else the call fails. -/
def socket (fd : Option Fd) (l : Local) : Option (Fd × Local) :=
  match fd with
  | none => none
  | some fd =>
    if l.files.isOpen fd then
      none
    else
      some (fd, { l with files := { l.files with
        owner := Function.update l.files.owner fd (some (.conn l.self)) } })

def setErrors (f : Errors → Errors) (l : Local) : Local :=
  { l with thread := { l.thread with errors := f l.thread.errors } }

end Local

end Wrkx
