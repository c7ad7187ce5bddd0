import Wrkx.Connection.Chains

/-!
# All threads of the process

The threads with their connections and the one descriptor table they share. An event of a
connection is that of `Local.step`, on what the connection sees of the process.

## Main results

- `process_acts` — a move is a chain of acts of connections and of timers
- `ProcessAct.preserves` — what an act has to keep of its connection and of those beside it

## Design notes

The events of different threads are interleaved, each handler runs to its end;
`Process.Interleaved` lets other threads in between. The outcomes of `epoll_ctl` are given to
each event, so that registrations can fail anywhere.
-/

namespace Wrkx

open Relation

/-- What a connection has for itself. -/
structure Peer where
  c : Connection
  tcp : ℕ
  history : List Obs

/-- The threads, their connections and the descriptor table. -/
structure Process where
  threads : ℕ → Thread
  peers : ConnId → Peer
  files : Files
  aborted : Bool

/-- What happens in the process: an event of the connection `i`, with the outcomes of the
    `epoll_ctl` calls it makes, or a timer of a thread. -/
inductive ProcessMove
  | event (i : ConnId) (kernel : List Bool) (event : Event)
  | timer (thread id : ℕ) (now rearm : Micros) (timer : TimerCall)

/-- The connection that the move is an event of. -/
def ProcessMove.peer : ProcessMove → Option ConnId
  | .event i _ _ => some i
  | .timer .. => none

namespace Process

/-- What a handler called for a connection reaches. -/
def view (p : Process) (i : ConnId) (kernel : List Bool) : Local where
  self := i
  c := (p.peers i).c
  tcp := (p.peers i).tcp
  history := (p.peers i).history
  thread := p.threads i.thread
  files := p.files
  kernel := kernel
  aborted := p.aborted

/-- The process after a handler called for the connection `i`. -/
def put (p : Process) (i : ConnId) (l : Local) : Process where
  threads := Function.update p.threads i.thread l.thread
  peers := Function.update p.peers i ⟨l.c, l.tcp, l.history⟩
  files := l.files
  aborted := l.aborted

def setThread (p : Process) (k : ℕ) (t : Thread) : Process :=
  { p with threads := Function.update p.threads k t }

/-- `c->start` of the connections of a thread, as `check_timeouts` reads them. -/
def starts (p : Process) (k : ℕ) : List ℕ :=
  (List.range (p.threads k).connections).map fun slot => (p.peers ⟨k, slot⟩).c.start

/-- A timer of the thread `k` fires. -/
def fire (S : Setting) (k id : ℕ) (now rearm : Micros) (timer : TimerCall) (p : Process) :
    Option Process :=
  if p.aborted then
    none
  else if (p.threads k).loop.IsDue id now timer.proc then
    match timer.call S (p.starts k) (p.threads k) with
    | none => some { p with aborted := true }
    | some (returned, t) =>
      some (p.setThread k { t with loop := aeFinishTimeEvent t.loop id rearm returned })
  else
    none

/-- The machine of the process. -/
def machine (S : Setting) : ProcessMove → Process → Option Process
  | .event i kernel event, p => ((p.view i kernel).step S event).map (p.put i)
  | .timer k id now rearm timer, p => p.fire S k id now rearm timer

end Process

/-! ## Start -/

/-- What a run of the process starts from: how many threads there are, and for each of them its
    connections, its clock and its request. -/
structure ProcessStart where
  threads : ℕ
  connections : ℕ
  setsize : ℕ
  stopAt : ℕ → ℕ
  now : ℕ → Micros
  histogram : HdrHistogram
  throughput : ℚ
  request : ℕ → Bytes
  files : StartFiles
  hinit : hdrInit 1 maxLatency 3 = some histogram

/-- The process once every thread is about to enter `aeMain`. There are no connections in a
    thread that is not there. -/
def ProcessStart.process (start : ProcessStart) : Process where
  threads k := startThread start.setsize k (if k < start.threads then start.connections else 0)
    (start.stopAt k) (start.now k) start.histogram
  peers i := ⟨newConnection start.throughput (start.request i.thread), 0, []⟩
  files := start.files.files
  aborted := false

/-- The process after a list of moves, `none` when one of them cannot happen. -/
def ProcessStart.run (S : Setting) (start : ProcessStart) (moves : List ProcessMove) :
    Option Process :=
  Run.run (Process.machine S) moves start.process

/-! ## Views -/

/-- What the connection of `m` sees after a handler for another connection left `l`. -/
def Local.beside (l m : Local) : Local :=
  { m with
    thread := if m.self.thread = l.self.thread then l.thread else m.thread
    files := l.files
    aborted := l.aborted }

section Views

variable {p : Process} {l : Local} {t : Thread} {i j : ConnId} {kernel : List Bool} {k : ℕ}

theorem Process.put_view : p.put i (p.view i kernel) = p := by
  simp [Process.put, Process.view]

theorem Process.put_put {l' : Local} : (p.put i l).put i l' = p.put i l' := by
  simp [Process.put]

theorem Process.view_put_self (hself : l.self = i) :
    (p.put i l).view i kernel = { l with kernel := kernel } := by
  subst hself
  simp [Process.put, Process.view]

theorem Process.view_put_of_ne (hself : l.self = i) (hne : j ≠ i) :
    (p.put i l).view j kernel = l.beside (p.view j kernel) := by
  subst hself
  by_cases hk : j.thread = l.self.thread <;>
    simp [Process.put, Process.view, Local.beside, hne, hk]

theorem Process.view_setThread : (p.setThread k t).view j kernel =
    if j.thread = k then { p.view j kernel with thread := t } else p.view j kernel := by
  simp only [Process.setThread, Process.view, Function.update_apply]
  split_ifs <;> rfl

end Views

/-! ## Acts -/

/-- What happens in the process in one go: an act of a connection, or one of a timer. -/
inductive ProcessAct (S : Setting) : Process → Process → Prop
  | peer (p : Process) (i : ConnId) (kernel : List Bool) (l : Local)
      (hact : Act S (p.view i kernel) l) : ProcessAct S p (p.put i l)
  | timer (p : Process) (k : ℕ) (t : Thread) (hframe : (p.threads k).Frame t) :
      ProcessAct S p (p.setThread k t)
  | fail (p : Process) : ProcessAct S p { p with aborted := true }

section Acts

variable {S : Setting} {p p' : Process} {l l' : Local} {i : ConnId} {I : Local → Prop}

theorem self_of_acts (h : ReflTransGen (Act S) l l') : l'.self = l.self :=
  Run.preserves_of_reflTransGen (P := fun m => m.self = l.self)
    (fun _ _ hact heq => hact.self_eq.trans heq) h rfl

/-- The acts of a connection are acts of the process. -/
theorem put_acts (h : ReflTransGen (Act S) l l') (hself : l.self = i) :
    ReflTransGen (ProcessAct S) (p.put i l) (p.put i l') := by
  induction h with
  | refl => exact .refl
  | @tail m m' hfirst hlast ih =>
    have hview : (p.put i m).view i m.kernel = m :=
      Process.view_put_self ((self_of_acts hfirst).trans hself)
    have hact := ProcessAct.peer (p.put i m) i m.kernel m' (hview.symm ▸ hlast)
    rw [Process.put_put] at hact
    exact .tail ih hact

/-- A move of the process is a chain of acts. -/
theorem process_acts {move : ProcessMove} (h : Process.machine S move p = some p')
    (hbasic : ∀ i, Basic (p.view i [])) : ReflTransGen (ProcessAct S) p p' := by
  cases move with
  | event i kernel event =>
    obtain ⟨l', hstep, rfl⟩ := Option.map_eq_some_iff.mp h
    have hb : Basic (p.view i kernel) :=
      ⟨(hbasic i).writeSide, (hbasic i).calls, (hbasic i).timers⟩
    have hchain := put_acts (p := p) (step_acts hstep hb) (i := i) rfl
    rwa [Process.put_view] at hchain
  | timer k id now rearm timer =>
    simp only [Process.machine, Process.fire] at h
    split_ifs at h with habort hdue
    cases hcall : timer.call S (p.starts k) (p.threads k) with
    | none =>
      rw [hcall] at h
      exact Option.some.inj h ▸ .single (.fail p)
    | some result =>
      obtain ⟨returned, t⟩ := result
      rw [hcall] at h
      exact Option.some.inj h ▸ .single (.timer p k _
        ((timer_frame hcall).finish (timer_armed hcall hdue.armed) TimerCall.conn_proc rearm
          returned))

/-- What the connection of `m` shares with the connection `i`, before that one acts: the
    descriptor table, and the thread if it is the same. -/
structure Process.Shares (p : Process) (i : ConnId) (m : Local) : Prop where
  ne : m.self ≠ i
  files : m.files = p.files
  aborted : m.aborted = p.aborted
  thread : m.self.thread = i.thread → m.thread = p.threads i.thread

/-- What holds of all connections is kept by an act if its connection keeps it, for itself and
    for each connection beside it. -/
theorem ProcessAct.preserves (h : ProcessAct S p p')
    (hkernel : ∀ l kernel, I l → I { l with kernel := kernel })
    (hfail : ∀ l, I l → I { l with aborted := true })
    (hframe : ∀ l t, l.thread.Frame t → I l → I { l with thread := t })
    (hact : ∀ i kernel l', Act S (p.view i kernel) l' → p' = p.put i l' →
      I (p.view i kernel) → I l' ∧ ∀ m, p.Shares i m → I m → I (l'.beside m))
    (hp : ∀ i, I (p.view i [])) (j : ConnId) : I (p'.view j []) := by
  cases h with
  | peer i kernel l' hact' =>
    obtain ⟨hl', hbeside⟩ := hact i kernel l' hact' rfl (hkernel _ kernel (hp i))
    have hself : l'.self = i := hact'.self_eq
    by_cases hj : j = i
    · subst hj
      rw [Process.view_put_self hself]
      exact hkernel _ _ hl'
    · rw [Process.view_put_of_ne hself hj]
      exact hbeside _ ⟨hj, rfl, rfl, fun hthread => congrArg p.threads hthread⟩ (hp j)
  | timer k t hframe' =>
    rw [Process.view_setThread]
    split_ifs with hj
    · subst hj
      exact hframe _ t hframe' (hp j)
    · exact hp j
  | fail => exact hfail _ (hp j)

/-! ## What holds whatever happens -/

/-- The file events of other connections were there before. -/
def Local.Foreign (l l' : Local) : Prop :=
  ∀ fd, (l'.thread.loop.events fd).mask ≠ .none → (l'.thread.loop.events fd).clientData ≠ l.self →
    (l.thread.loop.events fd).mask ≠ .none ∧
      (l'.thread.loop.events fd).clientData = (l.thread.loop.events fd).clientData

theorem Local.Foreign.of_events (h : l'.thread.loop.events = l.thread.loop.events) :
    l.Foreign l' := by
  intro fd hmask hne
  rw [h] at hmask ⊢
  exact ⟨hmask, rfl⟩

theorem Local.Foreign.trans {l'' : Local} (h : l.Foreign l') (hself : l'.self = l.self)
    (h' : l'.Foreign l'') : l.Foreign l'' := by
  intro fd hmask hne
  obtain ⟨hmask', heq⟩ := h' fd hmask (hself.symm ▸ hne)
  obtain ⟨hmask'', heq'⟩ := h fd hmask' (heq ▸ hne)
  exact ⟨hmask'', heq.trans heq'⟩

theorem foreign_register {fd : Fd} {mask : Mask} {proc : FileProc} :
    l.Foreign (l.register fd mask proc) := by
  intro fd' hmask hne
  rw [Local.register_events] at hmask hne ⊢
  by_cases hfd : fd' = fd
  · simp [hfd] at hne
  · rw [if_neg hfd] at hmask ⊢
    exact ⟨hmask, rfl⟩

theorem foreign_createFileEvent {fd : Fd} {mask : Mask} {proc : FileProc} :
    l.Foreign (l.createFileEvent fd mask proc).2 := by
  rcases Local.createFileEvent_cases l fd mask proc with h | ⟨-, -, h⟩ <;> rw [h]
  · exact .of_events rfl
  · exact foreign_register

theorem Mask.ne_none_of_diff {a b : Mask} (h : a.diff b ≠ .none) : a ≠ .none := by
  rintro rfl
  exact h (by simp [Mask.diff, Mask.none])

theorem foreign_deleteFileEvent {fd : Fd} {mask : Mask} :
    l.Foreign (l.deleteFileEvent fd mask) := by
  intro fd' hmask hne
  rw [Local.deleteFileEvent_mask] at hmask
  refine ⟨?_, Local.deleteFileEvent_clientData fd'⟩
  split_ifs at hmask
  · exact Mask.ne_none_of_diff hmask
  · exact hmask

theorem Local.Connects.foreign {again : Bool} (h : Local.Connects again l l') : l.Foreign l' := by
  cases h with
  | failed hself hc htcp hhistory hthread => exact .of_events (by rw [hthread])
  | opened fd hself hc htcp hhistory hfree hfd hthread =>
    have hregister : l.Foreign (l.register fd .both .socketConnected) := foreign_register
    intro fd' hmask hne
    rw [hthread] at hmask hne ⊢
    exact hregister fd' hmask hne

/-- Only the events of the connection itself are created. -/
theorem Act.foreign (h : Act S l l') : l.Foreign l' := by
  cases h with
  | thread t hframe => exact .of_events hframe.events
  | initial id now i harmed => exact (Local.initialConnect_connects now i l).foreign
  | reconnect i hconnected =>
    have hdropped : l.Foreign l.dropped := foreign_deleteFileEvent
    exact hdropped.trans rfl (Local.reconnectSocket_connects i l).foreign
  | park fd writable armed wait hcalls hwritten => exact foreign_deleteFileEvent
  | resume id harmed =>
    intro fd hmask hne
    rw [resume_loop] at hmask hne ⊢
    exact foreign_createFileEvent fd hmask hne
  | wrote fd writable n hcalls hbatch =>
    intro fd' hmask hne
    rw [acceptBytes_loop] at hmask hne ⊢
    split_ifs at hmask hne ⊢
    · exact foreign_deleteFileEvent fd' hmask hne
    · exact ⟨hmask, rfl⟩
  | established fd writable hcalls =>
    intro fd' hmask hne
    rw [openSocket_loop] at hmask hne ⊢
    exact (foreign_createFileEvent.trans Local.createFileEvent_self foreign_createFileEvent)
      fd' hmask hne
  | respond fd i hcalls =>
    intro fd' hmask hne
    rw [respond_loop] at hmask hne ⊢
    split_ifs at hmask hne ⊢
    · exact ⟨hmask, rfl⟩
    · exact foreign_createFileEvent fd' hmask hne
    · exact ⟨hmask, rfl⟩
  | _ => exact .of_events (by simp)

theorem FileEvent.handler_isSome {fe : FileEvent} (h : fe.mask ≠ .none) :
    ∃ writable proc, fe.handler writable = some proc := by
  obtain ⟨⟨readable, writable⟩, rfileProc, wfileProc, clientData⟩ := fe
  cases readable
  · cases writable
    · exact absurd rfl h
    · exact ⟨true, wfileProc, rfl⟩
  · exact ⟨false, rfileProc, rfl⟩

theorem FileEvent.mask_of_handler {fe : FileEvent} {writable : Bool} {proc : FileProc}
    (h : fe.handler writable = some proc) : fe.mask ≠ .none := by
  rintro hnone
  cases writable <;> simp [FileEvent.handler, hnone, Mask.none] at h

theorem Basic.of_events (hl : Basic l) {fd : Fd} (hmask : (l.thread.loop.events fd).mask ≠ .none)
    (hself : (l.thread.loop.events fd).clientData = l.self) : l.Connected := by
  obtain ⟨writable, proc, hhandler⟩ := FileEvent.handler_isSome hmask
  exact hl.calls fd writable proc ⟨hhandler, hself⟩

theorem Act.basic_beside {m : Local} (h : Act S l l') (hl' : Basic l')
    (hne : m.self ≠ l.self) (hthread : m.self.thread = l.self.thread → m.thread = l.thread)
    (hm : Basic m) : Basic (l'.beside m) := by
  rw [Local.beside, h.self_eq]
  split_ifs with hk
  · refine ⟨hl'.writeSide, fun fd writable proc hcalls => ?_, fun id harmed => ?_⟩
    · -- The handler was registered for `m` before, in some direction.
      obtain ⟨hmask, heq⟩ := h.foreign fd (FileEvent.mask_of_handler hcalls.1)
        (hcalls.2 ▸ hne)
      rw [← hthread hk] at hmask heq
      exact hm.of_events hmask (heq ▸ hcalls.2)
    · rcases h.armed_delay harmed with harmed | ⟨hself, -⟩
      · exact hm.timers id (hthread hk ▸ harmed)
      · exact absurd hself hne
  · exact ⟨hm.writeSide, hm.calls, hm.timers⟩

theorem ProcessAct.basic (h : ProcessAct S p p') (hp : ∀ i, Basic (p.view i [])) :
    ∀ i, Basic (p'.view i []) :=
  h.preserves (fun _ _ hl => ⟨hl.writeSide, hl.calls, hl.timers⟩)
    (fun _ hl => ⟨hl.writeSide, hl.calls, hl.timers⟩)
    (fun l t hframe hl => (Act.thread (S := S) l t hframe).basic hl)
    (fun _ _ _ hact _ hl => ⟨hact.basic hl, fun _ hm =>
      hact.basic_beside (hact.basic hl) hm.ne hm.thread⟩) hp

/-- Every act only adds to the histories. -/
theorem ProcessAct.history_suffix (h : ProcessAct S p p') (j : ConnId) :
    (p.peers j).history <:+ (p'.peers j).history := by
  cases h with
  | peer i kernel l hact =>
    by_cases hj : j = i
    · subst hj
      simpa [Process.put, Process.view] using hact.history_suffix
    · simp [Process.put, hj]
  | timer | fail => exact List.suffix_refl _

end Acts

/-! ## Runs -/

section Runs

variable {S : Setting} {start : ProcessStart} {moves : List ProcessMove} {p : Process}
  {i : ConnId} {id fd : ℕ} {proc : TimeProc}

theorem ProcessStart.events : ((start.process.view i []).thread.loop.events fd).mask = .none := by
  simp [Process.view, ProcessStart.process, startThread, aeCreateEventLoop]

/-- The only time events of connections at the start are the first connects. -/
theorem ProcessStart.armed : (start.process.view i []).thread.loop.Armed id proc ↔
    ((∃ slot < if i.thread < start.threads then start.connections else 0,
        slot = id ∧ .delayedInitialConnect ⟨i.thread, slot⟩ = proc) ∨
      (id = (if i.thread < start.threads then start.connections else 0) ∧ proc = .calibrate) ∨
      (id = (if i.thread < start.threads then start.connections else 0) + 1 ∧
        proc = .checkTimeouts)) := by
  simp only [Process.view, ProcessStart.process, startThread, armed_startLoop]

theorem ProcessStart.basic (i : ConnId) : Basic (start.process.view i []) := by
  refine ⟨fun fd => ?_, fun fd writable proc h => ?_, fun id h => ?_⟩
  · simp [Process.view, ProcessStart.process, startThread, aeCreateEventLoop]
  · exact absurd ProcessStart.events (FileEvent.mask_of_handler h.1)
  · simp [ProcessStart.armed] at h

/-- A run of the process is a chain of acts. -/
theorem ProcessStart.run_acts (h : start.run S moves = some p) :
    ReflTransGen (ProcessAct S) start.process p :=
  Run.reflTransGen_of_run (fun _ _ _ => process_acts) (fun _ _ h hp => h.basic hp) h
    ProcessStart.basic

/-- A connection without events stays as it is. -/
theorem peers_of_run {p' : Process} (h : Run.run (Process.machine S) moves p = some p')
    (hi : ∀ move ∈ moves, move.peer ≠ some i) : p'.peers i = p.peers i := by
  induction moves generalizing p with
  | nil =>
    obtain rfl : p = p' := Option.some.inj h
    rfl
  | cons move rest ih =>
    obtain ⟨q, hfirst, hrest⟩ := Run.run_cons h
    rw [ih hrest fun move hmove => hi move (by simp [hmove])]
    cases move with
    | event j kernel event =>
      obtain ⟨l', -, rfl⟩ := Option.map_eq_some_iff.mp hfirst
      have hne : i ≠ j := fun heq => hi (.event j kernel event) (by simp) (heq ▸ rfl)
      simp [Process.put, hne]
    | timer k id now rearm timer =>
      simp only [Process.machine, Process.fire] at hfirst
      split_ifs at hfirst
      split at hfirst <;> exact Option.some.inj hfirst ▸ rfl

end Runs

/-! ## An example -/

namespace Example

/-- A connection in each of two threads, planned to send every 100 microseconds. -/
def twoThreads : ProcessStart where
  threads := 2
  connections := 1
  setsize := 40
  stopAt := fun _ => 1000000
  now := fun _ => 0
  histogram := latencyHistogram
  throughput := 1 / 100
  request := fun _ => [1, 2, 3]
  files := files
  hinit := hdrInit_maxLatency

/-- An event of the connection of thread `k`. -/
def on (k : ℕ) : Move → ProcessMove
  | .event event => .event ⟨k, 0⟩ [] event
  | .timer id now rearm timer => .timer k id now rearm timer

/-- A call of `connect` that fails at once, on the descriptor `fd`. -/
def refuses (fd : Fd) : ConnectInput := { socket := some fd, refused := true, added := true }

end Example

end Wrkx
