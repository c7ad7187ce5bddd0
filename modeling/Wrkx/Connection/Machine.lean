import Wrkx.Base.Run
import Wrkx.Connection.Handlers
import Wrkx.Hdr.Slots
import Wrkx.Thread.Timers

/-!
# One connection and its event loop

The calls that `aeProcessEvents` makes on behalf of a connection: its two time events, and the
handlers registered for its descriptor, in any order. `Local.machine` adds the timers of the
thread; its runs are those of a thread with a single connection.

## Design notes

The kernel may report any registered event at any time. A time event fires when a reading of
the clock has reached its due time. A failed assertion ends the process, so that nothing
happens after it.
-/

namespace Wrkx

/-- A call of a file event handler, with what it learns from outside. -/
inductive FileCall
  | connected (status : Status) (reconnect : ConnectInput)
  | readable (reconnect : ConnectInput) (rounds : List ReadInput)
  | writeable (i : WriteInput)

def FileCall.proc : FileCall → FileProc
  | .connected .. => .socketConnected
  | .readable .. => .socketReadable
  | .writeable .. => .socketWriteable

def FileCall.call (S : Setting) (fd : Fd) (l : Local) : FileCall → Local
  | .connected status reconnect => socketConnected status reconnect fd l
  | .readable reconnect rounds => socketReadable S reconnect rounds l
  | .writeable i => socketWriteable S i fd l

/-- The handler that `aeProcessEvents` calls for one direction of a descriptor. -/
def FileEvent.handler (fe : FileEvent) (writable : Bool) : Option FileProc :=
  if writable then
    if fe.mask.writable then some fe.wfileProc else none
  else
    if fe.mask.readable then some fe.rfileProc else none

/-- An event handled on behalf of a connection, with the readings of the clock on the way. -/
inductive Event
  /-- `delayed_initial_connect` -/
  | initialConnect (id : ℕ) (now start : Micros) (connect : ConnectInput)
  /-- `delay_request` -/
  | delay (id : ℕ) (now send rearm : Micros)
  /-- a handler of the descriptor `fd` -/
  | file (fd : Fd) (writable : Bool) (call : FileCall)

namespace Local

def setLoop (f : EventLoop → EventLoop) (l : Local) : Local :=
  { l with thread := { l.thread with loop := f l.thread.loop } }

/-- `delay_request` with what `processTimeEvents` does afterwards. -/
def delay (S : Setting) (id : ℕ) (send rearm : Micros) (l : Local) : Local :=
  match delayRequest S send id l with
  | (none, l) => l.setLoop (aeDeleteTimeEvent · id)
  | (some ms, l) => (l.note (.clock rearm)).setLoop (aeRearmTimeEvent · id rearm ms)

/-- A handler of the descriptor is called for the connection. -/
def Calls (l : Local) (fd : Fd) (writable : Bool) (proc : FileProc) : Prop :=
  (l.thread.loop.events fd).handler writable = some proc ∧
    (l.thread.loop.events fd).clientData = l.self

instance (l : Local) (fd : Fd) (writable : Bool) (proc : FileProc) :
    Decidable (l.Calls fd writable proc) :=
  inferInstanceAs (Decidable (_ ∧ _))

/-- One event of the connection; `none` when it cannot happen. -/
def step (S : Setting) (event : Event) (l : Local) : Option Local :=
  if l.aborted then
    none
  else
    match event with
    | .initialConnect id now start connect =>
      if l.thread.loop.IsDue id now (.delayedInitialConnect l.self) then
        some ((delayedInitialConnect start connect (l.note (.clock now))).setLoop
          (aeDeleteTimeEvent · id))
      else
        none
    | .delay id now send rearm =>
      if l.thread.loop.IsDue id now (.delayRequest l.self) then
        some ((l.note (.clock now)).delay S id send rearm)
      else
        none
    | .file fd writable call =>
      if l.Calls fd writable call.proc then some (call.call S fd l) else none

/-- A timer of the thread fires. -/
def fire (S : Setting) (starts : List ℕ) (id : ℕ) (now rearm : Micros) (timer : TimerCall)
    (l : Local) : Option Local :=
  if l.aborted then
    none
  else if l.thread.loop.IsDue id now timer.proc then
    match timer.call S starts l.thread with
    | none => some { l with aborted := true }
    | some (returned, thread) =>
      some { l with thread :=
        { thread with loop := aeFinishTimeEvent thread.loop id rearm returned } }
  else
    none

end Local

/-- What happens in a thread with one connection. -/
inductive Move
  | event (event : Event)
  | timer (id : ℕ) (now rearm : Micros) (timer : TimerCall)

/-- The machine of a thread with one connection. -/
def Local.machine (S : Setting) : Move → Local → Option Local
  | .event event, l => l.step S event
  | .timer id now rearm timer, l => l.fire S [l.c.start] id now rearm timer

/-! ## Start -/

/-- The loop of `thread_main` over the connections: connects are staggered 5 msec apart. -/
def staggerConnects (thread : ℕ) (now : Micros) : ℕ → EventLoop → EventLoop
  | 0, loop => loop
  | slot + 1, loop =>
    aeCreateTimeEvent (staggerConnects thread now slot loop) now (slot * 5)
      (.delayedInitialConnect ⟨thread, slot⟩)

/-- The event loop of a thread with its time events, as `thread_main` enters `aeMain`. -/
def startLoop (setsize thread connections : ℕ) (now : Micros) : EventLoop :=
  let loop := staggerConnects thread now connections (aeCreateEventLoop setsize)
  let loop := aeCreateTimeEvent loop now (calibrateDelayMs + connections * 5) .calibrate
  aeCreateTimeEvent loop now (timeoutIntervalMs + connections * 5) .checkTimeouts

/-- A thread as `thread_main` enters `aeMain`. -/
def startThread (setsize thread connections stopAt : ℕ) (now : Micros) (h : HdrHistogram) :
    Thread where
  loop := startLoop setsize thread connections now
  connections := connections
  interval := 0
  stopAt := stopAt
  complete := 0
  requests := 0
  bytes := 0
  start := now
  mean := 0
  latencyHistogram := h
  uLatencyHistogram := h
  errors := ⟨.zero, .zero, .zero, .zero, .zero⟩
  calls := []

/-- The descriptor table before any connection is made: the process holds some descriptors. -/
structure StartFiles where
  files : Files
  ofProcess : ∀ fd owner, files.owner fd = some owner → owner = .process
  unused : files.uses = []

/-- What a run of one connection starts from. -/
structure Start where
  setsize : ℕ
  self : ℕ
  stopAt : ℕ
  now : Micros
  histogram : HdrHistogram
  throughput : ℚ
  request : Bytes
  files : StartFiles
  hinit : hdrInit 1 maxLatency 3 = some histogram

/-- The only connection of a thread, as `thread_main` enters `aeMain`. -/
def Start.local (start : Start) : Local where
  self := ⟨start.self, 0⟩
  c := newConnection start.throughput start.request
  tcp := 0
  history := []
  thread := startThread start.setsize start.self 1 start.stopAt start.now start.histogram
  files := start.files.files
  kernel := []
  aborted := false

/-- The state after a list of moves, `none` when one of them cannot happen. -/
def Start.run (S : Setting) (start : Start) (moves : List Move) : Option Local :=
  Run.run (Local.machine S) moves start.local

/-- A run that ends in a state with a property that can be evaluated. -/
theorem exists_of_any {σ : Type*} {P : σ → Prop} [DecidablePred P] {result : Option σ}
    (h : result.any (fun s => decide (P s)) = true) : ∃ s, result = some s ∧ P s := by
  cases result with
  | none => simp at h
  | some s => exact ⟨s, rfl, by simpa using h⟩

/-! ## An example -/

namespace Example

/-- A configuration that reads the double arithmetic exactly. -/
def setting (pipeline : ℕ) (dynamic : Bool) : Setting where
  cfg :=
    { pipeline, dynamic, recordAllResponses := true, wantResponse := true, timeout := 2000 }
  quot := exactQuot
  nan := 0
  junk := fun _ => 170

/-- A process that holds its three standard streams. -/
def files : StartFiles where
  files := { owner := fun fd => if fd < 3 then some .process else none, uses := [] }
  ofProcess := by
    intro fd owner h
    dsimp only at h
    split at h
    · exact (Option.some.inj h).symm
    · simp at h
  unused := rfl

/-- A connection that is planned to send every 100 microseconds. -/
def start (request : Bytes) (stopAt : ℕ) : Start where
  setsize := 40
  self := 0
  stopAt := stopAt
  now := 0
  histogram := latencyHistogram
  throughput := 1 / 100
  request := request
  files := files
  hinit := hdrInit_maxLatency

/-- A `connect_socket` that gets the descriptor `fd`. -/
def connects (fd : Fd) : ConnectInput := { socket := some fd, refused := false, added := true }

/-- The first connect, at the time `now`, on the descriptor `fd`. -/
def connect (now : Micros) (fd : Fd) : Move :=
  .event (.initialConnect 0 now now (connects fd))

/-- The kernel reports the descriptor writable while it connects. -/
def opens (fd : Fd) : Move := .event (.file fd true (.connected .ok (connects fd)))

/-- A write at the time `now` that accepts up to `n` bytes. -/
def write (fd : Fd) (now : Micros) (request : Bytes) (result : WriteResult) : Move :=
  .event (.file fd true
    (.writeable { now, armed := now, start := now, request, result, reconnect := connects fd }))

/-- A read that makes the given callbacks and leaves the parser between messages. -/
def read (fd : Fd) (callbacks : List Callback) : Move :=
  .event (.file fd false (.readable (connects fd) [.ok 1 callbacks .start true false]))

/-- The end of a response at the time `now`. -/
def completed (now : Micros) (keepAlive : Bool) (reconnect : ConnectInput) : Callback :=
  .messageComplete { now, status := 200, keepAlive, reconnect }

/-- The peer closes the connection; the next one gets the descriptor `fd'`. -/
def hangUp (fd fd' : Fd) : Move :=
  .event (.file fd false (.readable (connects fd') [.error]))

/-- The time event `id` fires for a request at the time `now`. -/
def timer (id : ℕ) (now : Micros) : Move := .event (.delay id now now now)

end Example

end Wrkx
