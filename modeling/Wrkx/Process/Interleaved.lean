import Wrkx.Process.Machine

/-!
# Threads between each other's calls

`Process.machine` runs every handler to its end. But the threads share the descriptor table, and
while one of them is in `reconnect_socket` or `connect_socket` another one can open, close and
register descriptors. Here the threads take turns in smaller portions: a handler goes act by
act, and the functions that connect go piece by piece, each with at most one of the calls that
change the table.

## Main results

- `connectSocket_pieces` — `connect_socket` is its pieces in a row
- `ProcessStart.run_interleaves` — a run of whole handlers is one in which the threads take turns
- `Interleaves.preserves` — what a turn has to keep of its connection and of those beside it

## Design notes

The condition under which an act happens never reads the descriptor table, so a handler is a
chain of the same acts whatever the other threads do in between. A thread that is inside the
functions that connect does nothing else until they return.
-/

namespace Wrkx

open Relation

/-! ## The pieces -/

/-- Who called `connect_socket`: `delayed_initial_connect`, for the time event `id`, or
    `reconnect_socket`. -/
inductive Caller
  | initial (id : ℕ)
  | reconnect
deriving DecidableEq

def Caller.again : Caller → Bool
  | .initial _ => false
  | .reconnect => true

/-- What happens once `connect_socket` has returned: a first connect is over, and
    `processTimeEvents` deletes its time event. -/
def Caller.finish (caller : Caller) (l : Local) : Local :=
  match caller with
  | .initial id => l.setLoop (aeDeleteTimeEvent · id)
  | .reconnect => l

/-- How far a thread is in the functions that connect, on behalf of one connection. -/
inductive Point
  /-- in none of them -/
  | outside
  /-- in `reconnect_socket`, before `close` -/
  | deregistered
  /-- in `connect_socket`, before `socket` -/
  | called (caller : Caller)
  /-- in `connect_socket`, before `connect` -/
  | obtained (caller : Caller) (fd : Fd)
  /-- in `connect_socket`, before `c->fd = fd` -/
  | registered (caller : Caller) (fd : Fd)
  /-- back in the caller of `connect_socket` -/
  | returned (caller : Caller)
deriving DecidableEq

/-- `reconnect_socket` has closed the descriptor that `c->fd` still names. -/
def Point.stale : Point → Bool
  | .called caller | .obtained caller _ | .registered caller _ => caller.again
  | _ => false

/-- A piece of these functions, with what it learns from outside. -/
inductive Piece
  /-- `delayed_initial_connect` up to its call of `connect_socket` -/
  | initial (id : ℕ) (now : Micros)
  /-- `aeDeleteFileEvent` -/
  | deregister
  /-- `close(c->fd)` -/
  | close
  /-- `socket`, and the error exit when it returned -1 -/
  | socket (fd : Option Fd)
  /-- `connect` and `aeCreateFileEvent`, and the error exit when one of them failed -/
  | connect (refused added : Bool)
  /-- `c->fd = fd` -/
  | store
  /-- what follows in the caller -/
  | finish

/-- One piece; `none` when it does not come next. -/
def Local.piece (piece : Piece) (point : Point) (l : Local) : Option (Point × Local) :=
  match point, piece with
  | .outside, .initial id now =>
    let l := l.note (.clock now)
    some (.called (.initial id), { l with c := { l.c with threadStart := now } })
  | .outside, .deregister => some (.deregistered, (l.deleteFileEvent l.c.fd .both).note .closed)
  | .deregistered, .close => some (.called .reconnect, l.close l.c.fd)
  | .called caller, .socket none =>
    let l := { l with tcp := l.tcp + 1 }
    some (.returned caller, (connectFailed caller.again l).closeNone)
  | .called caller, .socket (some fd) =>
    (Local.socket (some fd) { l with tcp := l.tcp + 1 }).map fun (fd, l) => (.obtained caller fd, l)
  | .obtained caller fd, .connect refused added =>
    if refused then
      some (.returned caller, (connectFailed caller.again l).close fd)
    else
      let created := { l with kernel := added :: l.kernel }.createFileEvent fd .both
        .socketConnected
      if created.1 then
        some (.registered caller fd, created.2.note (.connect caller.again true))
      else
        some (.returned caller, (connectFailed caller.again created.2).close fd)
  | .registered caller fd, .store => some (.returned caller, { l with c := { l.c with fd } })
  | .returned caller, .finish => some (.outside, caller.finish l)
  | _, _ => none

/-- What a handler has made sure of when it comes to the piece. -/
def Piece.Called (l : Local) : Piece → Prop
  | .initial id _ => l.thread.loop.Armed id (.delayedInitialConnect l.self)
  | .deregister => l.Connected
  | _ => True

/-- No call of the piece fails; `setsize` is that of the event loop. -/
def Piece.Succeeds (setsize : ℕ) (point : Point) (piece : Piece) : Prop :=
  match point, piece with
  | _, .socket fd => fd ≠ none
  | .obtained _ fd, .connect refused added => refused = false ∧ added = true ∧ fd < setsize
  | _, _ => True

/-- `connect_socket` once `socket` has returned `fd`. -/
def Local.obtain (fd : Fd) (l : Local) : Local :=
  { l with
    tcp := l.tcp + 1
    files := { l.files with
      owner := Function.update l.files.owner fd (some (.conn l.self)) } }

/-- What the pieces come to. -/
inductive Piece.Leads (l : Local) : Piece → Point → Point → Local → Prop
  | initial (id : ℕ) (now : Micros) :
      Leads l (.initial id now) .outside (.called (.initial id)) (l.begun now)
  | deregister : Leads l .deregister .outside .deregistered
      ((l.deleteFileEvent l.c.fd .both).note .closed)
  | close : Leads l .close .deregistered (.called .reconnect) (l.close l.c.fd)
  | noSocket (caller : Caller) : Leads l (.socket none) (.called caller) (.returned caller)
      (connectFailed caller.again { l with tcp := l.tcp + 1 }).closeNone
  | socket (caller : Caller) (fd : Fd) (hfree : l.files.owner fd = none) :
      Leads l (.socket (some fd)) (.called caller) (.obtained caller fd) (l.obtain fd)
  | failed (caller : Caller) (fd : Fd) (refused added : Bool)
      (hfailed : refused = true ∨ ¬ (fd < l.thread.loop.setsize ∧
        (l.files.isOpen fd && added) = true)) :
      Leads l (.connect refused added) (.obtained caller fd) (.returned caller)
        ((connectFailed caller.again l).close fd)
  | registered (caller : Caller) (fd : Fd) (added : Bool) (hfd : fd < l.thread.loop.setsize) :
      Leads l (.connect false added) (.obtained caller fd) (.registered caller fd)
        ({ l.register fd .both .socketConnected with
          kernel := l.kernel }.note (.connect caller.again true))
  | store (caller : Caller) (fd : Fd) : Leads l .store (.registered caller fd) (.returned caller)
      { l with c := { l.c with fd } }
  | finish (caller : Caller) : Leads l .finish (.returned caller) .outside (caller.finish l)

section Pieces

variable {l l' : Local} {point point' : Point} {piece : Piece}

theorem Local.piece_leads (h : l.piece piece point = some (point', l')) :
    piece.Leads l point point' l' := by
  unfold Local.piece at h
  split at h
  · obtain ⟨rfl, rfl⟩ := Prod.mk.inj (Option.some.inj h)
    exact .initial _ _
  · obtain ⟨rfl, rfl⟩ := Prod.mk.inj (Option.some.inj h)
    exact .deregister
  · obtain ⟨rfl, rfl⟩ := Prod.mk.inj (Option.some.inj h)
    exact .close
  · obtain ⟨rfl, rfl⟩ := Prod.mk.inj (Option.some.inj h)
    exact .noSocket _
  · rename_i caller fd
    by_cases hopen : l.files.isOpen fd
    · simp [Local.socket, hopen] at h
    · simp only [Local.socket, hopen, Bool.false_eq_true, if_false, Option.map_some,
        Option.some.injEq, Prod.mk.injEq] at h
      obtain ⟨rfl, rfl⟩ := h
      exact .socket caller fd (by simpa [Files.isOpen] using hopen)
  · rename_i caller fd refused added
    cases refused with
    | true =>
      obtain ⟨rfl, rfl⟩ := Prod.mk.inj (Option.some.inj h)
      exact .failed caller fd _ _ (.inl rfl)
    | false =>
      have hcreate := Local.createFileEvent_eq_ite { l with kernel := added :: l.kernel } fd .both
        .socketConnected
      by_cases hadded : fd < l.thread.loop.setsize ∧ (l.files.isOpen fd && added) = true
      · have hcreate := hcreate.trans (if_pos hadded)
        simp only [hcreate, Bool.false_eq_true, if_false, if_true] at h
        obtain ⟨rfl, rfl⟩ := Prod.mk.inj (Option.some.inj h)
        exact .registered caller fd added hadded.1
      · have hcreate := hcreate.trans (if_neg hadded)
        simp only [hcreate, Bool.false_eq_true, if_false] at h
        obtain ⟨rfl, rfl⟩ := Prod.mk.inj (Option.some.inj h)
        exact .failed caller fd _ _ (.inr hadded)
  · obtain ⟨rfl, rfl⟩ := Prod.mk.inj (Option.some.inj h)
    exact .store _ _
  · obtain ⟨rfl, rfl⟩ := Prod.mk.inj (Option.some.inj h)
    exact .finish _
  · simp at h

@[simp]
theorem Caller.finish_self {caller : Caller} : (caller.finish l).self = l.self := by
  cases caller <;> rfl

theorem Piece.Leads.self_eq (h : piece.Leads l point point' l') : l'.self = l.self := by
  cases h <;> first | rfl | exact Caller.finish_self

/-! ### The pieces in a row -/

/-- A piece that meets a condition. -/
def Local.PieceStep (D : Point × Local → Piece → Prop) (s s' : Point × Local) : Prop :=
  ∃ piece : Piece, piece.Called s.2 ∧ D s piece ∧ s.2.piece piece s.1 = some s'

/-- The piece succeeds if `connect_socket` has not failed in the end. -/
def Local.SucceedsIn (again : Bool) (l' : Local) (s : Point × Local) (piece : Piece) : Prop :=
  .connect again false ∉ l'.history → piece.Succeeds s.2.thread.loop.setsize s.1

/-- `connect_socket` from `connect` on. -/
def connectOn (again : Bool) (fd : Fd) (refused added : Bool) (l : Local) : Local :=
  if refused then
    (connectFailed again l).close fd
  else
    let created := { l with kernel := added :: l.kernel }.createFileEvent fd .both
      .socketConnected
    if created.1 then
      { created.2 with c := { created.2.c with fd } }.note (.connect again true)
    else
      (connectFailed again created.2).close fd

theorem connectOn_pieces (caller : Caller) (fd : Fd) (refused added : Bool) (l : Local) :
    ReflTransGen
      (Local.PieceStep (Local.SucceedsIn caller.again (connectOn caller.again fd refused added l)))
      (.obtained caller fd, l) (.returned caller, connectOn caller.again fd refused added l) := by
  cases refused with
  | true =>
    refine .single ⟨.connect true added, trivial, fun hfailed => absurd ?_ hfailed, rfl⟩
    simp [connectOn, connectFailed, Local.close]
  | false =>
    have hcreate := Local.createFileEvent_eq_ite { l with kernel := added :: l.kernel } fd .both
      .socketConnected
    by_cases hadded : fd < l.thread.loop.setsize ∧ (l.files.isOpen fd && added) = true
    · have hcreate := hcreate.trans (if_pos hadded)
      have hpiece : l.piece (.connect false added) (.obtained caller fd) =
          some (.registered caller fd, (Local.register fd .both .socketConnected
            { l with kernel := added :: l.kernel }).note (.connect caller.again true)) := by
        simp only [Local.piece, hcreate, Bool.false_eq_true, if_false, if_true]
      simp only [connectOn, hcreate, Bool.false_eq_true, if_false, if_true]
      refine .head ⟨.connect false added, trivial, fun _ => ⟨rfl, ?_, hadded.1⟩, hpiece⟩
        (.single ⟨.store, trivial, fun _ => trivial, rfl⟩)
      exact (Bool.and_eq_true _ _ ▸ hadded.2).2
    · have hcreate := hcreate.trans (if_neg hadded)
      simp only [connectOn, hcreate, Bool.false_eq_true, if_false]
      refine .single ⟨.connect false added, trivial, fun hfailed => absurd ?_ hfailed, ?_⟩
      · simp [connectFailed, Local.close]
      · simp only [Local.piece, hcreate, Bool.false_eq_true, if_false]

/-- `connect_socket` is its pieces in a row. -/
theorem connectSocket_pieces (caller : Caller) (i : ConnectInput) (l : Local) :
    ReflTransGen (Local.PieceStep (Local.SucceedsIn caller.again (connectSocket caller.again i l)))
      (.called caller, l) (.returned caller, connectSocket caller.again i l) := by
  obtain ⟨socketFd, refused, added⟩ := i
  have hnone : connectSocket caller.again ⟨socketFd, refused, added⟩ l =
      (connectFailed caller.again { l with tcp := l.tcp + 1 }).closeNone →
      ReflTransGen (Local.PieceStep (Local.SucceedsIn caller.again
        (connectSocket caller.again ⟨socketFd, refused, added⟩ l))) (.called caller, l)
        (.returned caller, connectSocket caller.again ⟨socketFd, refused, added⟩ l) := by
    intro heq
    refine .single ⟨.socket none, trivial, fun hfailed => absurd ?_ hfailed, ?_⟩
    · simp [heq, Local.closeNone, connectFailed]
    · rw [heq]
      rfl
  cases socketFd with
  | none => exact hnone rfl
  | some fd =>
    by_cases hopen : l.files.isOpen fd
    · exact hnone (by simp [connectSocket, Local.socket, hopen])
    · have hsocket : Local.socket (some fd) { l with tcp := l.tcp + 1 } =
          some (fd, l.obtain fd) := by
        simp only [Local.socket, hopen, if_false, Bool.false_eq_true]
        rfl
      have hconnect : connectSocket caller.again ⟨some fd, refused, added⟩ l =
          connectOn caller.again fd refused added (l.obtain fd) := by
        simp only [connectSocket, hsocket]
        rfl
      rw [hconnect]
      refine .head ⟨.socket (some fd), trivial, fun _ => by simp [Piece.Succeeds], ?_⟩
        (connectOn_pieces caller fd refused added (l.obtain fd))
      simp only [Local.piece, hsocket, Option.map_some]

theorem initialConnect_pieces {id : ℕ} {now : Micros} (i : ConnectInput)
    (harmed : l.thread.loop.Armed id (.delayedInitialConnect l.self)) :
    ReflTransGen (Local.PieceStep (Local.SucceedsIn false (delayedInitialConnect now i l)))
      (.outside, l)
      (.outside, (delayedInitialConnect now i l).setLoop (aeDeleteTimeEvent · id)) :=
  .head ⟨.initial id now, harmed, fun _ => trivial, rfl⟩
    (.tail (connectSocket_pieces (.initial id) i (l.begun now))
      ⟨.finish, trivial, fun _ => trivial, rfl⟩)

theorem reconnectSocket_pieces (i : ConnectInput) (hconnected : l.Connected) :
    ReflTransGen (Local.PieceStep (Local.SucceedsIn true (reconnectSocket i l)))
      (.outside, l) (.outside, reconnectSocket i l) :=
  .head ⟨.deregister, hconnected, fun _ => trivial, rfl⟩
    (.head ⟨.close, trivial, fun _ => trivial, rfl⟩
      (.tail (connectSocket_pieces .reconnect i l.dropped)
        ⟨.finish, trivial, fun _ => trivial, rfl⟩))

end Pieces

instance (loop : EventLoop) (id : ℕ) (proc : TimeProc) : Decidable (loop.Armed id proc) :=
  inferInstanceAs (Decidable (∃ te ∈ loop.timeEvents, _))

instance (l : Local) (piece : Piece) : Decidable (piece.Called l) :=
  match piece with
  | .initial id _ => inferInstanceAs (Decidable (l.thread.loop.Armed id _))
  | .deregister =>
    inferInstanceAs (Decidable (l.tcp ≠ 0 ∧ ∃ again, .connect again true ∈ l.history))
  | .close | .socket _ | .connect _ _ | .store | .finish => .isTrue trivial

/-! ## Taking turns -/

/-- What a thread does for a connection in one go: an act that does not call `connect_socket`, or
    a piece. -/
inductive Slice (S : Setting) (C : Piece → Prop) (l : Local) : Point → Point → Local → Prop
  | act (l' : Local) (hact : Act S l l') (htcp : l'.tcp = l.tcp) :
      Slice S C l .outside .outside l'
  | piece {point point' : Point} (piece : Piece) (l' : Local) (hcalled : piece.Called l)
      (hc : C piece) (hpiece : l.piece piece point = some (point', l')) :
      Slice S C l point point' l'

/-- The process, with how far it is in the functions that connect, connection by connection. -/
structure Interleaving where
  process : Process
  point : ConnId → Point

/-- No thread is in the functions that connect. -/
def Process.settled (p : Process) : Interleaving := ⟨p, fun _ => .outside⟩

namespace Interleaving

def view (q : Interleaving) (i : ConnId) (kernel : List Bool) : Local := q.process.view i kernel

def put (q : Interleaving) (i : ConnId) (point : Point) (l : Local) : Interleaving where
  process := q.process.put i l
  point := Function.update q.point i point

/-- A piece of the connection `i`; `none` when it cannot happen. -/
def step (i : ConnId) (piece : Piece) (q : Interleaving) : Option Interleaving :=
  if piece.Called (q.view i []) then
    ((q.view i []).piece piece (q.point i)).map fun (point, l) => q.put i point l
  else
    none

/-- The thread of the connection `i` is in no function that connects another connection. -/
def Turns (q : Interleaving) (i : ConnId) : Prop :=
  ∀ j ≠ i, j.thread = i.thread → q.point j = .outside

end Interleaving

/-- One go of some thread. A piece is run under a condition on the state it is run in. -/
inductive Interleaves (S : Setting) (C : Interleaving → ConnId → Piece → Prop) :
    Interleaving → Interleaving → Prop
  | slice (q : Interleaving) (i : ConnId) (kernel : List Bool) (point : Point) (l : Local)
      (hturns : q.Turns i) (hslice : Slice S (C q i) (q.view i kernel) (q.point i) point l) :
      Interleaves S C q (q.put i point l)
  | timer (q : Interleaving) (k : ℕ) (t : Thread)
      (houtside : ∀ j, j.thread = k → q.point j = .outside)
      (hframe : (q.process.threads k).Frame t) :
      Interleaves S C q { q with process := q.process.setThread k t }
  | fail (q : Interleaving) :
      Interleaves S C q { q with process := { q.process with aborted := true } }

section Turns

variable {S : Setting} {C C' : Interleaving → ConnId → Piece → Prop} {p p' : Process}
  {q q' : Interleaving} {l l' : Local} {point point' : Point} {i j : ConnId}
  {kernel : List Bool} {D : Point × Local → Piece → Prop} {s s' : Point × Local}

theorem Slice.self_eq {C : Piece → Prop} (h : Slice S C l point point' l') : l'.self = l.self := by
  cases h with
  | act l' hact htcp => exact hact.self_eq
  | piece piece l' hcalled hc hpiece => exact (Local.piece_leads hpiece).self_eq

theorem Slice.mono {C C' : Piece → Prop} (hC : ∀ piece, C piece → C' piece)
    (h : Slice S C l point point' l') : Slice S C' l point point' l' := by
  cases h with
  | act l' hact htcp => exact .act l' hact htcp
  | piece piece l' hcalled hc hpiece => exact .piece piece l' hcalled (hC piece hc) hpiece

theorem Interleaves.mono (hC : ∀ q i piece, C q i piece → C' q i piece)
    (h : Interleaves S C q q') : Interleaves S C' q q' := by
  cases h with
  | slice i kernel point l hturns hslice =>
    exact .slice q i kernel point l hturns (hslice.mono (hC q i))
  | timer k t houtside hframe => exact .timer q k t houtside hframe
  | fail => exact .fail q

theorem Interleaving.step_interleaves {piece : Piece} (h : q.step i piece = some q')
    (hturns : q.Turns i) (hc : C q i piece) : Interleaves S C q q' := by
  simp only [Interleaving.step, Option.ite_none_right_eq_some] at h
  obtain ⟨hcalled, h⟩ := h
  obtain ⟨⟨point, l⟩, hpiece, rfl⟩ := Option.map_eq_some_iff.mp h
  exact .slice q i [] point l hturns (.piece piece l hcalled hc hpiece)

/-! ### Whole handlers -/

theorem Interleaving.put_put {point' : Point} :
    (q.put i point l).put i point' l' = q.put i point' l' := by
  simp [Interleaving.put, Process.put_put]

theorem Interleaving.put_point : (q.put i point l).point i = point := by
  simp [Interleaving.put]

theorem Interleaving.put_point_of_ne (hne : j ≠ i) : (q.put i point l).point j = q.point j := by
  simp [Interleaving.put, hne]

theorem Interleaving.put_view (hself : l.self = i) :
    (q.put i point l).view i kernel = { l with kernel := kernel } :=
  Process.view_put_self hself

theorem Interleaving.put_view_of_ne (hself : l.self = i) (hne : j ≠ i) :
    (q.put i point l).view j kernel = l.beside (q.view j kernel) :=
  Process.view_put_of_ne hself hne

theorem Interleaving.Turns.put (h : q.Turns i) : (q.put i point l).Turns i := by
  intro j hne hthread
  simpa [Interleaving.put, hne] using h j hne hthread

/-- The pieces of a connection are turns of its thread. -/
theorem put_pieces (h : ReflTransGen (Local.PieceStep D) s s') (hself : s.2.self = i)
    (hturns : q.Turns i)
    (hC : ∀ s piece, s.2.self = i → D s piece → C (q.put i s.1 s.2) i piece) :
    ReflTransGen (Interleaves S C) (q.put i s.1 s.2) (q.put i s'.1 s'.2) ∧ s'.2.self = i := by
  induction h with
  | refl => exact ⟨.refl, hself⟩
  | @tail m m' hfirst hlast ih =>
    obtain ⟨hchain, hm⟩ := ih
    obtain ⟨piece, hcalled, hD, hpiece⟩ := hlast
    have hview : (q.put i m.1 m.2).view i m.2.kernel = m.2 := Interleaving.put_view hm
    have hstep := Interleaves.slice (S := S) (C := C) (q.put i m.1 m.2) i m.2.kernel m'.1 m'.2
      hturns.put (.piece piece m'.2 (hview.symm ▸ hcalled) (hC m piece hm hD) (by
        rw [hview, Interleaving.put_point]
        exact hpiece))
    rw [Interleaving.put_put] at hstep
    exact ⟨.tail hchain hstep, (Local.piece_leads hpiece).self_eq.trans hm⟩

/-- No other thread is in between, and a piece succeeds if no `connect_socket` has failed in the
    end. -/
def Sequential (p' : Process) (q : Interleaving) (i : ConnId) (piece : Piece) : Prop :=
  (∀ j ≠ i, q.point j = .outside) ∧
    ((∀ again, .connect again false ∉ (p'.peers i).history) →
      piece.Succeeds (q.process.threads i.thread).loop.setsize (q.point i))

/-- The pieces of a `connect_socket` that ends in `l'`, with no other thread in between. -/
theorem settled_pieces {again : Bool} (h : ReflTransGen
      (Local.PieceStep (Local.SucceedsIn again l')) (.outside, p.view i kernel) (.outside, l')) :
    ReflTransGen (Interleaves S (Sequential (p.put i l'))) p.settled (p.put i l').settled := by
  have hput : ∀ l, p.settled.put i .outside l = (p.put i l).settled := by
    intro l
    simp [Process.settled, Interleaving.put]
  have hlifted := (put_pieces (S := S) (C := Sequential (p.put i l')) (q := p.settled) (i := i)
    h rfl (fun _ _ _ => rfl) ?_).1
  · simp only [hput, Process.put_view] at hlifted
    exact hlifted
  · intro s piece hself hD
    refine ⟨fun j hne => by simp [Interleaving.put, Process.settled, hne], fun hc => ?_⟩
    rw [Interleaving.put_point]
    have hsucceeds := hD (by simpa [Process.put] using hc again)
    simpa [Interleaving.put, Process.put] using hsucceeds

/-- An act of the process is a chain of turns. -/
theorem ProcessAct.interleaves (h : ProcessAct S p p') :
    ReflTransGen (Interleaves S (Sequential p')) p.settled p'.settled := by
  cases h with
  | peer i kernel l hact =>
    -- The acts that call `connect_socket` are the two that change `tcp`.
    have hact' : l.tcp = (p.view i kernel).tcp →
        ReflTransGen (Interleaves S (Sequential (p.put i l))) p.settled (p.put i l).settled := by
      intro htcp
      have hstep := Interleaves.slice (S := S) (C := Sequential (p.put i l)) p.settled i kernel
        .outside l (fun _ _ _ => rfl) (.act l hact htcp)
      simpa [Process.settled, Interleaving.put] using ReflTransGen.single hstep
    cases hact with
    | initial id now connect harmed => exact settled_pieces (initialConnect_pieces connect harmed)
    | reconnect connect hconnected =>
      exact settled_pieces (reconnectSocket_pieces connect hconnected)
    | _ => exact hact' (by simp)
  | timer k t hframe => exact .single (.timer p.settled k t (fun _ _ => rfl) hframe)
  | fail => exact .single (.fail p.settled)

theorem acts_interleave (h : ReflTransGen (ProcessAct S) p p') :
    ReflTransGen (Interleaves S (Sequential p')) p.settled p'.settled := by
  induction h with
  | refl => exact .refl
  | tail hfirst hlast ih =>
    have hmono : ∀ q i piece, Sequential _ q i piece → Sequential _ q i piece :=
      fun q i piece h => ⟨h.1, fun hc => h.2 fun again =>
        History.backward_notMem (hlast.history_suffix i) (hc again)⟩
    exact (ih.lift id fun _ _ hstep => hstep.mono hmono).trans hlast.interleaves

/-- A run of whole handlers is one in which the threads take turns. -/
theorem ProcessStart.run_interleaves {start : ProcessStart} {moves : List ProcessMove}
    (h : start.run S moves = some p) :
    ReflTransGen (Interleaves S (Sequential p)) start.process.settled p.settled :=
  acts_interleave (ProcessStart.run_acts h)

/-! ### What turns keep -/

theorem Piece.Leads.foreign {piece : Piece} (h : piece.Leads l point point' l') :
    l.Foreign l' := by
  cases h with
  | deregister => exact foreign_deleteFileEvent
  | registered caller fd added hfd => exact foreign_register
  | finish caller => exact .of_events (by cases caller <;> rfl)
  | _ => exact .of_events rfl

theorem Slice.foreign {C : Piece → Prop} (h : Slice S C l point point' l') : l.Foreign l' := by
  cases h with
  | act l' hact htcp => exact hact.foreign
  | piece piece l' hcalled hc hpiece => exact (Local.piece_leads hpiece).foreign

/-- What holds of all connections is kept by a turn if its connection keeps it, for itself and
    for each connection beside it. -/
theorem Interleaves.preserves {I : Point → Local → Prop} (h : Interleaves S C q q')
    (hkernel : ∀ point l kernel, I point l → I point { l with kernel := kernel })
    (hfail : ∀ point l, I point l → I point { l with aborted := true })
    (hframe : ∀ l t, l.thread.Frame t → I .outside l → I .outside { l with thread := t })
    (hslice : ∀ i kernel point l', Slice S (C q i) (q.view i kernel) (q.point i) point l' →
      I (q.point i) (q.view i kernel) →
      I point l' ∧ ∀ point' m, q.process.Shares i m → I point' m → I point' (l'.beside m))
    (hq : ∀ i, I (q.point i) (q.view i [])) (j : ConnId) : I (q'.point j) (q'.view j []) := by
  cases h with
  | slice i kernel point l' hturns hslice' =>
    obtain ⟨hl', hbeside⟩ := hslice i kernel point l' hslice' (hkernel _ _ kernel (hq i))
    have hself : l'.self = i := hslice'.self_eq
    by_cases hj : j = i
    · subst hj
      rw [Interleaving.put_point, Interleaving.put_view hself]
      exact hkernel _ _ _ hl'
    · rw [Interleaving.put_point_of_ne hj, Interleaving.put_view_of_ne hself hj]
      exact hbeside _ _ ⟨hj, rfl, rfl, fun hthread => congrArg q.process.threads hthread⟩ (hq j)
  | timer k t houtside hframe' =>
    rw [Interleaving.view, Process.view_setThread]
    split_ifs with hj
    · subst hj
      have hj' := hq j
      rw [houtside j rfl] at hj' ⊢
      exact hframe _ t hframe' hj'
    · exact hq j
  | fail => exact hfail _ _ (hq j)

end Turns

end Wrkx
