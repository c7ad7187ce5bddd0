import Mathlib.Algebra.BigOperators.Group.Finset.Basic
import Wrkx.Connection.Errors
import Wrkx.Process.Machine

/-!
# How failed connects are counted

`connect_socket` starts a connect that fails at once, stays in progress or is through. One
that fails later is reported as readable and writable, and `sock_connect` does not look at
its outcome. The error counters are compared with the attempts that failed and with the
outcomes of the attempts that the failed reads and writes were on. A connection whose reconnect
failed keeps the number of its old descriptor, which another connection may get, and then reads
and writes for that one.

## Main results

- `ProcessAct.tracked` — an open descriptor of a connection is that of its last attempt
- `connects_classified_iff` — the counters are right as long as no reported attempt failed late
  and no read or write fails on the descriptor of another connection
-/

namespace Wrkx

open Relation Local

/-! ## Attempts -/

/-- The outcome of a call of `connect_socket`. -/
def Obs.attempt : Obs → Option Bool
  | .connect _ ok => some ok
  | _ => none

/-- The outcome of the last call of `connect_socket`. -/
def lastAttempt (h : List Obs) : Option Bool := h.findSome? Obs.attempt

section History

variable {noted h : List Obs}

theorem lastAttempt_append (hnoted : ∀ o ∈ noted, o.attempt = none) :
    lastAttempt (noted ++ h) = lastAttempt h :=
  History.findSome?_append_of_none hnoted

theorem opened_append (hnoted : ∀ o ∈ noted, o.attempt = none) {again : Bool}
    (hmem : .connect again true ∈ noted ++ h) : .connect again true ∈ h := by
  rcases List.mem_append.mp hmem with hmem | hmem
  · exact absurd (hnoted _ hmem) (by simp [Obs.attempt])
  · exact hmem

end History

/-! ## What a connection is bound to -/

/-- The descriptors a connection is registered for or owns are its `c->fd`, and what it owns was
    opened by its last attempt. -/
structure Bound (l : Local) : Prop where
  own : ∀ fd, (l.thread.loop.events fd).mask ≠ .none →
    (l.thread.loop.events fd).clientData = l.self → fd = l.c.fd ∧ fd < l.thread.loop.setsize
  owned : ∀ fd, l.files.owner fd = some (.conn l.self) →
    fd = l.c.fd ∧ l.tcp ≠ 0 ∧ lastAttempt l.history = some true
  notProcess : ∀ again, .connect again true ∈ l.history → l.files.owner l.c.fd ≠ some .process

/-- What is known of a connection between two acts, whatever fails. -/
structure Tracked (l : Local) : Prop extends Basic l, Bound l where
  first : ∀ id, l.thread.loop.Armed id (.delayedInitialConnect l.self) →
    id = l.self.slot ∧ l.tcp = 0

/-- The registrations for the connection are those of before, or are for the descriptor. -/
def Registers (l l' : Local) (fd₀ : Fd) : Prop :=
  ∀ fd, (l'.thread.loop.events fd).mask ≠ .none → (l'.thread.loop.events fd).clientData = l.self →
    (l.thread.loop.events fd).mask ≠ .none ∧ (l.thread.loop.events fd).clientData = l.self ∨
      fd = fd₀ ∧ fd < l.thread.loop.setsize

section Acts

variable {S : Setting} {l l' : Local} {fd : Fd}

theorem Registers.of_events (h : l'.thread.loop.events = l.thread.loop.events) :
    Registers l l' fd := by
  intro fd' hmask hclient
  rw [h] at hmask hclient
  exact .inl ⟨hmask, hclient⟩

theorem registers_createFileEvent {mask : Mask} {proc : FileProc} :
    Registers l (l.createFileEvent fd mask proc).2 fd := by
  intro fd' hmask hclient
  rcases createFileEvent_cases l fd mask proc with h | ⟨-, hfd, h⟩ <;> rw [h] at hmask hclient
  · exact .inl ⟨hmask, hclient⟩
  · by_cases heq : fd' = fd
    · exact .inr ⟨heq, heq ▸ hfd⟩
    · rw [register_events, if_neg heq] at hmask hclient
      exact .inl ⟨hmask, hclient⟩

theorem registers_deleteFileEvent {mask : Mask} {fd₀ : Fd} :
    Registers l (l.deleteFileEvent fd mask) fd₀ := by
  intro fd' hmask hclient
  rw [deleteFileEvent_clientData] at hclient
  rw [deleteFileEvent_mask] at hmask
  refine .inl ⟨?_, hclient⟩
  split_ifs at hmask
  · exact Mask.ne_none_of_diff hmask
  · exact hmask

theorem Registers.trans {l'' : Local} (h : Registers l l' fd) (hself : l'.self = l.self)
    (hsetsize : l'.thread.loop.setsize = l.thread.loop.setsize) (h' : Registers l' l'' fd) :
    Registers l l'' fd := by
  intro fd' hmask hclient
  rcases h' fd' hmask (hclient.trans hself.symm) with ⟨hmask', hclient'⟩ | ⟨heq, hlt⟩
  · exact h fd' hmask' (hclient'.trans hself)
  · exact .inr ⟨heq, hsetsize ▸ hlt⟩

/-- An act that opens and closes nothing. -/
structure Keeps (l l' : Local) : Prop where
  noted : ∃ noted, l'.history = noted ++ l.history ∧ ∀ o ∈ noted, o.attempt = none
  tcp : l'.tcp = l.tcp
  fd : l'.c.fd = l.c.fd
  owner : l'.files.owner = l.files.owner
  setsize : l'.thread.loop.setsize = l.thread.loop.setsize
  registers : Registers l l' l.c.fd

theorem Keeps.tracked (h : Keeps l l') (hact : Act S l l') (hl : Tracked l) : Tracked l' where
  toBasic := hact.basic hl.toBasic
  first id harmed := by
    rw [hact.self_eq] at harmed ⊢
    rw [h.tcp]
    exact hl.first id (hact.armed_initial harmed)
  own fd hmask hclient := by
    rw [hact.self_eq] at hclient
    rw [h.fd, h.setsize]
    rcases h.registers fd hmask hclient with ⟨hmask', hclient'⟩ | hnew
    · exact hl.own fd hmask' hclient'
    · exact hnew
  owned fd hown := by
    obtain ⟨noted, hhistory, hnoted⟩ := h.noted
    rw [h.owner, hact.self_eq] at hown
    rw [h.fd, h.tcp, hhistory, lastAttempt_append hnoted]
    exact hl.owned fd hown
  notProcess again hmem := by
    obtain ⟨noted, hhistory, hnoted⟩ := h.noted
    rw [h.owner, h.fd]
    rw [hhistory] at hmem
    exact hl.notProcess again (opened_append hnoted hmem)

/-- A connection without descriptor that calls `connect_socket`. -/
theorem Local.Connects.bound {again : Bool} (h : Connects again l l')
    (hidle : ∀ fd, (l.thread.loop.events fd).mask ≠ .none →
      (l.thread.loop.events fd).clientData ≠ l.self)
    (hbare : ∀ fd, l.files.owner fd ≠ some (.conn l.self))
    (hprocess : ∀ again, .connect again true ∈ l.history → l.files.owner l.c.fd ≠ some .process) :
    Bound l' := by
  cases h with
  | failed hself hc htcp hhistory hthread howner =>
    refine ⟨fun fd hmask hclient => ?_, fun fd hown => ?_, fun again hmem => ?_⟩
    · rw [hthread] at hmask hclient
      exact absurd (hclient.trans hself) (hidle fd hmask)
    · rw [howner, hself] at hown
      exact absurd hown (hbare fd)
    · rw [howner, hc]
      exact hprocess again (by simpa [hhistory] using hmem)
  | opened newFd hself hc htcp hhistory hfree hfd hthread howner =>
    have hnew : l'.c.fd = newFd := by rw [hc]
    have hsetsize : l'.thread.loop.setsize = l.thread.loop.setsize := by rw [hthread]; rfl
    refine ⟨fun fd hmask hclient => ?_, fun fd hown => ?_, fun again _ => ?_⟩
    · rw [hthread, register_events] at hmask hclient
      rw [hnew, hsetsize]
      by_cases heq : fd = newFd
      · exact ⟨heq, heq ▸ hfd⟩
      · rw [if_neg heq] at hmask hclient
        exact absurd (hclient.trans hself) (hidle fd hmask)
    · rw [howner, hself, Function.update_apply] at hown
      rw [hnew, htcp, hhistory]
      split_ifs at hown with heq
      · exact ⟨heq, Nat.succ_ne_zero _, rfl⟩
      · exact absurd hown (hbare fd)
    · simp [howner, hnew]

theorem tracked_initial {id : ℕ} {now : Micros} {i : ConnectInput} (hl : Tracked l)
    (hact : Act S l ((delayedInitialConnect now i l).setLoop (aeDeleteTimeEvent · id)))
    (harmed : l.thread.loop.Armed id (.delayedInitialConnect l.self)) :
    Tracked ((delayedInitialConnect now i l).setLoop (aeDeleteTimeEvent · id)) := by
  have htcp := (hl.first id harmed).2
  have hself : (delayedInitialConnect now i l).self = l.self :=
    (initialConnect_connects now i l).self_eq
  have hbound : Bound (delayedInitialConnect now i l) := by
    refine (initialConnect_connects now i l).bound (fun fd hmask hclient => ?_)
      (fun fd hown => (hl.owned fd hown).2.1 htcp) fun again hmem => ?_
    · exact (hl.toBasic.of_events hmask hclient).1 htcp
    · exact hl.notProcess again (by simpa [Local.begun] using hmem)
  refine ⟨hact.basic hl.toBasic, ⟨hbound.own, hbound.owned, hbound.notProcess⟩,
    fun id' harmed' => ?_⟩
  -- The first connect is armed once, and it has just happened.
  rw [hact.self_eq] at harmed'
  have hbefore := hl.first id' (hact.armed_initial harmed')
  have hne := (EventLoop.armed_aeDeleteTimeEvent.mp harmed').2
  exact absurd (hbefore.1.trans (hl.first id harmed).1.symm) hne

theorem tracked_reconnect {i : ConnectInput} (hl : Tracked l)
    (hact : Act S l (reconnectSocket i l)) (hconnected : l.Connected) :
    Tracked (reconnectSocket i l) := by
  refine ⟨hact.basic hl.toBasic, ?_, fun id harmed => ?_⟩
  · refine (reconnectSocket_connects i l).bound (fun fd hmask hclient => ?_) (fun fd hown => ?_)
      fun again _ => by simp
    · -- What was registered for the connection was registered for c->fd.
      rw [dropped_thread, deleteFileEvent_clientData] at hclient
      rw [dropped_thread, deleteFileEvent_mask] at hmask
      split_ifs at hmask with hfd
      · exact hmask (by simp [Mask.diff, Mask.both, Mask.none])
      · obtain ⟨rfl, hlt⟩ := hl.own fd hmask hclient
        exact hfd ⟨rfl, hlt⟩
    · rw [dropped_owner, Function.update_apply, dropped_self] at hown
      split_ifs at hown with heq
      exact heq (hl.owned fd hown).1
  · rw [hact.self_eq] at harmed
    exact absurd (hl.first id (hact.armed_initial harmed)).2 hconnected.1

theorem keeps_respond {i : CompleteInput} : Keeps l (respond S i l) := by
  refine ⟨⟨responded S i l, respond_responded, fun o ho => ?_⟩, respond_tcp, ?_, respond_owner, ?_,
    fun fd hmask hclient => ?_⟩
  · have := ofResponse_of_mem ho
    cases o <;> simp_all [Obs.ofResponse, Obs.attempt]
  · rw [respond_c]
    split_ifs <;> simp
  · rw [respond_loop]
    split_ifs <;> simp [aeStop]
  · rw [respond_loop] at hmask hclient
    split_ifs at hmask hclient
    · exact .inl ⟨hmask, hclient⟩
    · exact registers_createFileEvent fd hmask hclient
    · exact .inl ⟨hmask, hclient⟩

theorem keeps_wrote {n : ℕ} : Keeps l (acceptBytes n fd l) := by
  refine ⟨?_, acceptBytes_tcp, by rw [acceptBytes_c], acceptBytes_owner, ?_,
    fun fd' hmask hclient => ?_⟩
  · have hhistory : (acceptBytes n fd l).history = _ := acceptBytes_history
    split_ifs at hhistory
    · exact ⟨[_, _], hhistory, by simp [Obs.attempt]⟩
    · exact ⟨[_], hhistory, by simp [Obs.attempt]⟩
  · rw [acceptBytes_loop]
    split_ifs <;> simp
  · rw [acceptBytes_loop] at hmask hclient
    split_ifs at hmask hclient
    · exact registers_deleteFileEvent fd' hmask hclient
    · exact .inl ⟨hmask, hclient⟩

theorem keeps_start {i : WriteInput} : Keeps l (startBatch S i l) := by
  refine ⟨?_, startBatch_tcp, by rw [startBatch_c], by simp, by simp, .of_events (by simp)⟩
  have hhistory : (startBatch S i l).history = _ := startBatch_history
  split_ifs at hhistory
  · exact ⟨[_, _, _], hhistory, by simp [Obs.attempt]⟩
  · exact ⟨[_, _], hhistory, by simp [Obs.attempt]⟩

theorem keeps_paced {now : Micros} : Keeps l (usecToNextSend S now l).2 := by
  obtain ⟨noted, hhistory, hnoted⟩ := usecToNextSend_history S now l
  refine ⟨⟨noted ++ [.clock now], by simp [hhistory], ?_⟩, by simp, ?_, by simp, by simp,
    .of_events (by simp)⟩
  · rcases hnoted with rfl | rfl | rfl <;> simp [Obs.attempt]
  · rw [usecToNextSend_c]

/-- What an act does with the descriptors of its connection. -/
inductive Binding (l : Local) : Local → Prop
  | keeps (l' : Local) (hkeeps : Keeps l l') : Binding l l'
  | initial (id : ℕ) (now : Micros) (i : ConnectInput)
      (harmed : l.thread.loop.Armed id (.delayedInitialConnect l.self)) :
      Binding l ((delayedInitialConnect now i l).setLoop (aeDeleteTimeEvent · id))
  | reconnect (i : ConnectInput) (hconnected : l.Connected) : Binding l (reconnectSocket i l)

theorem Act.binding (h : Act S l l') (hl : Tracked l) : Binding l l' := by
  cases h with
  | initial id now i harmed => exact .initial id now i harmed
  | reconnect i hconnected => exact .reconnect i hconnected
  | respond => exact .keeps _ keeps_respond
  | wrote => exact .keeps _ keeps_wrote
  | start => exact .keeps _ keeps_start
  | paced => exact .keeps _ keeps_paced
  | thread t hframe =>
    exact .keeps _ ⟨⟨[], rfl, by simp⟩, rfl, rfl, rfl, hframe.setsize, .of_events hframe.events⟩
  | fail | parser =>
    exact .keeps _ ⟨⟨[], rfl, by simp⟩, rfl, rfl, rfl, rfl, .of_events rfl⟩
  | tick | refuse | body =>
    exact .keeps _ ⟨⟨[_], rfl, by simp [Obs.attempt]⟩, rfl, rfl, rfl, rfl, .of_events rfl⟩
  | field =>
    exact .keeps _ ⟨⟨[_], rfl, by simp [Obs.attempt]⟩, rfl, by rw [headerField_c], rfl, rfl,
      .of_events rfl⟩
  | value =>
    exact .keeps _ ⟨⟨[_], rfl, by simp [Obs.attempt]⟩, rfl, by rw [headerValue_c], rfl, rfl,
      .of_events rfl⟩
  | park fd writable armed wait hcalls hwritten =>
    exact .keeps _ ⟨⟨[_, _], park_history, by simp [Obs.attempt]⟩, rfl, rfl, rfl,
      by simp [park_loop, aeCreateTimeEvent], registers_deleteFileEvent⟩
  | resume id harmed =>
    refine .keeps _ ⟨⟨[_], resume_history, by simp [Obs.attempt]⟩, by simp, by simp, by simp,
      by simp [resume_loop, aeDeleteTimeEvent], fun fd hmask hclient => ?_⟩
    rw [resume_loop] at hmask hclient
    exact registers_createFileEvent fd hmask hclient
  | established fd writable hcalls =>
    obtain ⟨rfl, -⟩ := hl.own fd (FileEvent.mask_of_handler hcalls.1) hcalls.2
    refine .keeps _ ⟨⟨[_], openSocket_history, by simp [Obs.attempt]⟩, by simp, by simp, by simp,
      by simp [openSocket_loop], fun fd hmask hclient => ?_⟩
    rw [openSocket_loop] at hmask hclient
    exact (registers_createFileEvent.trans (by simp) (by simp) registers_createFileEvent)
      fd hmask hclient

/-- Every act keeps what the connection is bound to. -/
theorem Act.tracked (h : Act S l l') (hl : Tracked l) : Tracked l' := by
  cases h.binding hl with
  | keeps _ hkeeps => exact hkeeps.tracked h hl
  | initial id now i harmed => exact tracked_initial hl h harmed
  | reconnect i hconnected => exact tracked_reconnect hl h hconnected

/-- A descriptor that has an owner after an act had it before, or belongs to the connection. -/
theorem Act.owner_cases (h : Act S l l') (hl : Tracked l) {owner : Owner}
    (howner : l'.files.owner fd = some owner) :
    l.files.owner fd = some owner ∨ owner = .conn l.self := by
  have hconnects : ∀ {again : Bool} {m m' : Local}, Connects again m m' → m.self = l.self →
      m'.files.owner fd = some owner → m.files.owner fd = some owner ∨ owner = .conn l.self := by
    intro again m m' hconnects hself h
    cases hconnects with
    | failed hself' hc htcp hhistory hthread howner => exact .inl (howner ▸ h)
    | opened newFd hself' hc htcp hhistory hfree hfd hthread howner =>
      rw [howner, Function.update_apply] at h
      split_ifs at h
      · exact .inr (hself ▸ (Option.some.inj h).symm)
      · exact .inl h
  cases h.binding hl with
  | keeps _ hkeeps => exact .inl (hkeeps.owner ▸ howner)
  | initial id now i harmed =>
    have hbegun : (delayedInitialConnect now i l).files.owner fd = some owner := howner
    have hcases := hconnects (initialConnect_connects now i l) rfl hbegun
    exact hcases
  | reconnect i hconnected =>
    refine (hconnects (reconnectSocket_connects i l) rfl howner).imp_left fun h => ?_
    rw [dropped_owner, Function.update_apply] at h
    split_ifs at h
    exact h

theorem Act.setsize_eq (h : Act S l l') (hl : Tracked l) :
    l'.thread.loop.setsize = l.thread.loop.setsize := by
  have hconnects : ∀ {again : Bool} {m m' : Local}, Connects again m m' →
      m'.thread.loop.setsize = m.thread.loop.setsize := by
    intro again m m' hconnects
    cases hconnects with
    | failed hself hc htcp hhistory hthread => rw [hthread]
    | opened newFd hself hc htcp hhistory hfree hfd hthread => rw [hthread]; rfl
  cases h.binding hl with
  | keeps _ hkeeps => exact hkeeps.setsize
  | initial id now i harmed =>
    have hbegun := hconnects (initialConnect_connects now i l)
    exact hbegun
  | reconnect i hconnected =>
    exact (hconnects (reconnectSocket_connects i l)).trans (by simp)

end Acts

section Process

variable {S : Setting} {p p' : Process} {l l' m : Local} {i : ConnId} {k : ℕ}

/-- What a connection beside the one that acts is bound to. -/
theorem Act.tracked_beside (h : Act S l l') (hl : Tracked l) (hne : m.self ≠ l.self)
    (hfiles : m.files = l.files) (hthread : m.self.thread = l.self.thread → m.thread = l.thread)
    (hm : Tracked m) : Tracked (l'.beside m) := by
  have hself := h.self_eq
  have howned : ∀ fd owner, l'.files.owner fd = some owner → owner ≠ .conn l.self →
      m.files.owner fd = some owner := by
    intro fd owner howner hother
    rw [hfiles]
    exact (h.owner_cases hl howner).resolve_right hother
  refine ⟨h.basic_beside (h.basic hl.toBasic) hne hthread hm.toBasic,
    ⟨fun fd hmask hclient => ?_, fun fd hown => ?_, fun again hmem hprocess => ?_⟩,
    fun id harmed => ?_⟩
  · by_cases hk : m.self.thread = l.self.thread
    · simp only [Local.beside, hself, hk, if_true] at hmask hclient ⊢
      obtain ⟨hmask', heq⟩ := h.foreign fd hmask (hclient ▸ hne)
      rw [← hthread hk] at hmask' heq
      rw [h.setsize_eq hl, ← hthread hk]
      exact hm.own fd hmask' (heq ▸ hclient)
    · simp only [Local.beside, hself, hk, if_false] at hmask hclient ⊢
      exact hm.own fd hmask hclient
  · exact hm.owned fd (howned fd _ hown (by simpa using hne))
  · exact hm.notProcess again hmem (howned _ _ hprocess (by simp))
  · by_cases hk : m.self.thread = l.self.thread
    · simp only [Local.beside, hself, hk, if_true] at harmed
      have hbefore := h.armed_initial harmed
      rw [← hthread hk] at hbefore
      exact hm.first id hbefore
    · simp only [Local.beside, hself, hk, if_false] at harmed
      exact hm.first id harmed

theorem ProcessAct.tracked (h : ProcessAct S p p') (hp : ∀ i, Tracked (p.view i [])) :
    ∀ i, Tracked (p'.view i []) := by
  refine h.preserves (I := Tracked) (fun _ _ hl => ⟨⟨hl.writeSide, hl.calls, hl.timers⟩,
      ⟨hl.own, hl.owned, hl.notProcess⟩, hl.first⟩)
    (fun _ hl => ⟨⟨hl.writeSide, hl.calls, hl.timers⟩, ⟨hl.own, hl.owned, hl.notProcess⟩, hl.first⟩)
    (fun l t hframe hl => (Act.thread (S := S) l t hframe).tracked hl)
    (fun i kernel l' hact _ hl => ⟨hact.tracked hl, fun m hm hI => ?_⟩) hp
  exact hact.tracked_beside hl hm.ne hm.files hm.thread hI

theorem ProcessStart.tracked {start : ProcessStart} (i : ConnId) :
    Tracked (start.process.view i []) := by
  refine ⟨ProcessStart.basic i, ⟨fun fd hmask _ => absurd ProcessStart.events hmask,
    fun fd hown => ?_, fun again hmem => by simp [Process.view, ProcessStart.process] at hmem⟩,
    fun id harmed => ?_⟩
  · have hprocess := start.files.ofProcess fd _ hown
    simp at hprocess
  · rw [ProcessStart.armed] at harmed
    rcases harmed with ⟨slot, -, hid, hproc⟩ | ⟨-, hproc⟩ | ⟨-, hproc⟩
    · obtain ⟨-, rfl⟩ := ConnId.mk.inj (TimeProc.delayedInitialConnect.inj hproc)
      exact ⟨hid.symm, rfl⟩
    · simp at hproc
    · simp at hproc

/-! ## Failures -/

/-- What the kernel may tell a call of `socket_readable` about bytes that wait on `c->fd`. -/
def Polled (S : Setting) (P : Local → Prop) : List ReadInput → Local → Prop
  | .ok n callbacks left parsed more :: rest, l =>
    let after := addBytes n (leaveParser left (httpParserExecute S callbacks l))
    parsed = true → n = recvbuf ∧ more → P after ∧ Polled S P rest after
  | _, _ => True

/-- The descriptor is open, and the attempt that opened it did not fail late. -/
def Unfailed (late : ConnId → ℕ → Bool) (q : Process) (fd : Fd) : Prop :=
  match q.files.owner fd with
  | none => False
  | some .process => True
  | some (.conn j) => late j (q.peers j).tcp = false

instance (late : ConnId → ℕ → Bool) (q : Process) (fd : Fd) : Decidable (Unfailed late q fd) :=
  match h : q.files.owner fd with
  | none => .isFalse (by simp [Unfailed, h])
  | some .process => .isTrue (by simp [Unfailed, h])
  | some (.conn j) => decidable_of_iff (late j (q.peers j).tcp = false) (by simp [Unfailed, h])

/-- The descriptor `c->fd` was opened by the last attempt of the connection itself, and that
    connect succeeded. -/
def Succeeded (late : ConnId → ℕ → Bool) (q : Process) (i : ConnId) : Prop :=
  q.files.owner (q.peers i).c.fd = some (.conn i) ∧
    lastAttempt (q.peers i).history = some true ∧ late i (q.peers i).tcp = false

/-- What the kernel and a plain socket do in any case: only open descriptors are reported,
    `sock_connect` returns `OK`, and bytes wait only where the connect succeeded. -/
def ProcessMove.Plain (S : Setting) (late : ConnId → ℕ → Bool) (q : Process) :
    ProcessMove → Prop
  | .event i kernel (.file fd _ call) => q.files.isOpen fd = true ∧
    match call with
    | .connected status _ => status = .ok
    | .readable _ rounds =>
      Polled S (fun m => Unfailed late (q.put i m) m.c.fd) rounds (q.view i kernel)
    | .writeable _ => True
  | _ => True

instance decidablePolled {S : Setting} {P : Local → Prop} [DecidablePred P] :
    (rounds : List ReadInput) → (l : Local) → Decidable (Polled S P rounds l)
  | [], _ | .eof _ :: _, _ | .error :: _, _ | .retry :: _, _ => .isTrue trivial
  | .ok n callbacks left parsed more :: rest, l =>
    have : Decidable (Polled S P rest
        (addBytes n (leaveParser left (httpParserExecute S callbacks l)))) :=
      decidablePolled rest _
    decidable_of_iff (parsed = true → n = recvbuf ∧ more = true →
      P (addBytes n (leaveParser left (httpParserExecute S callbacks l))) ∧
        Polled S P rest (addBytes n (leaveParser left (httpParserExecute S callbacks l)))) .rfl

instance (S : Setting) (late : ConnId → ℕ → Bool) (q : Process) :
    (move : ProcessMove) → Decidable (move.Plain S late q)
  | .event _ _ (.file _ _ (.connected _ _)) => inferInstanceAs (Decidable (_ ∧ _))
  | .event i kernel (.file _ _ (.readable _ rounds)) =>
    inferInstanceAs (Decidable (_ ∧ Polled S (fun m => Unfailed late (q.put i m) m.c.fd) rounds
      (q.view i kernel)))
  | .event _ _ (.file _ _ (.writeable _)) => inferInstanceAs (Decidable (_ ∧ True))
  | .event _ _ (.initialConnect ..) | .event _ _ (.delay ..) | .timer .. => .isTrue trivial

/-- The attempt that failed late, when the kernel reports the descriptor of one. -/
def ProcessMove.reports (late : ConnId → ℕ → Bool) (q : Process) :
    ProcessMove → Option (ConnId × ℕ)
  | .event _ _ (.file fd _ _) =>
    match q.files.owner fd with
    | some (.conn j) => if late j (q.peers j).tcp then some (j, (q.peers j).tcp) else none
    | _ => none
  | _ => none

/-- The failed reads of a move, each with its connection and the process as `sock.read` is
    called. -/
def ProcessMove.readFailures (S : Setting) (q : Process) : ProcessMove → List (ConnId × Process)
  | .event i kernel handled =>
    (handled.readFailure S (q.view i kernel)).toList.map fun m => (i, q.put i m)
  | .timer .. => []

/-- The failed writes of a move. -/
def ProcessMove.writeFailures (S : Setting) (q : Process) : ProcessMove → List (ConnId × Process)
  | .event i kernel handled =>
    (handled.writeFailure S (q.view i kernel)).toList.map fun m => (i, q.put i m)
  | .timer .. => []

/-- The reads and writes that fail in a move are on descriptors of their own connections. -/
def ProcessMove.OnOwn (S : Setting) (q : Process) (move : ProcessMove) : Prop :=
  ∀ failure ∈ move.readFailures S q ++ move.writeFailures S q,
    failure.2.files.owner (failure.2.peers failure.1).c.fd = some (.conn failure.1)

instance (S : Setting) (q : Process) (move : ProcessMove) : Decidable (move.OnOwn S q) :=
  inferInstanceAs (Decidable (∀ failure ∈ move.readFailures S q ++ move.writeFailures S q, _))

section Failures

variable {rounds : List ReadInput} {fd : Fd} {P : Local → Prop}

/-- A failed read is the first one of its call, or comes after a report of waiting bytes. -/
theorem readFailure_acts (hb : Basic l) (habort : l.aborted = false) (hl : l.Connected)
    (hattend : Attending fd l) (hpolled : Polled S P rounds l)
    (hm : readFailure S rounds l = some m) : ReflTransGen (Act S) l m ∧ (m = l ∨ P m) := by
  induction rounds generalizing l with
  | nil => simp [readFailure] at hm
  | cons round rest ih =>
    cases round with
    | ok n callbacks left parsed more =>
      obtain ⟨hexecute, hattend'⟩ := httpParserExecute_acts (S := S) callbacks hb hattend
      simp only [readFailure] at hm
      simp only [Polled] at hpolled
      generalize httpParserExecute S callbacks l = executed at *
      split_ifs at hm with habort' hparsed hmore
      · obtain rfl := Option.some.inj hm
        exact ⟨.refl, .inl rfl⟩
      · have hbytes := (hexecute.tail (.parser executed
          (if executed.c.parser = .dead then .dead else left))).tail
          (addBytes_act (l := leaveParser left executed) n)
        obtain ⟨hP, hpolled'⟩ := hpolled (by simpa using hparsed) hmore
        have hb' := Run.preserves_of_reflTransGen (fun _ _ h hl => h.basic hl) hbytes hb
        have hattend'' : Attending fd (addBytes n (leaveParser left executed)) := by
          rcases hattend' with h | h | h
          · exact absurd h habort'
          · exact .inr (.inl (by simp [addBytes, leaveParser, h]))
          · exact .inr (.inr h)
        obtain ⟨hacts, hcases⟩ := ih hb' (by simpa [addBytes, leaveParser] using habort')
          (connected_of_acts hbytes hl) hattend'' hpolled' hm
        exact ⟨hbytes.trans hacts, .inr (hcases.elim (fun heq => heq ▸ hP) id)⟩
    | eof i =>
      simp only [readFailure] at hm
      split_ifs at hm
      obtain rfl := Option.some.inj hm
      exact ⟨.refl, .inl rfl⟩
    | error =>
      obtain rfl := Option.some.inj hm
      exact ⟨.refl, .inl rfl⟩
    | retry => simp [readFailure] at hm

theorem Keeps.trans (h : Keeps l l') (hself : l'.self = l.self) (h' : Keeps l' m) : Keeps l m := by
  obtain ⟨noted, hhistory, hnoted⟩ := h.noted
  obtain ⟨noted', hhistory', hnoted'⟩ := h'.noted
  refine ⟨⟨noted' ++ noted, by rw [hhistory', hhistory, List.append_assoc], fun o ho => ?_⟩,
    h'.tcp.trans h.tcp, h'.fd.trans h.fd, h'.owner.trans h.owner, h'.setsize.trans h.setsize,
    h.registers.trans hself h.setsize (h.fd ▸ h'.registers)⟩
  exact (List.mem_append.mp ho).elim (hnoted' o) (hnoted o)

/-- A failed write is on the descriptor as `socket_writeable` found it. -/
theorem writeFailure_keeps {i : WriteInput} (hm : writeFailure S i l = some m) : Keeps l m := by
  have hrefl : Keeps l l := ⟨⟨[], rfl, by simp⟩, rfl, rfl, rfl, rfl, .of_events rfl⟩
  have hpaced : Keeps l (usecToNextSend S i.now l).2 := keeps_paced
  have hself : (usecToNextSend S i.now l).2.self = l.self := usecToNextSend_self
  simp only [writeFailure] at hm
  generalize usecToNextSend S i.now l = paced at *
  obtain ⟨wait, paced⟩ := paced
  split at hm
  · split_ifs at hm
    · obtain rfl := Option.some.inj hm
      exact hpaced.trans hself keeps_start
    · obtain rfl := Option.some.inj hm
      exact hrefl
  · cases hm

end Failures

/-! ## Runs -/

section Runs

variable {start : ProcessStart} {moves : List ProcessMove} {late : ConnId → ℕ → Bool} {q : Process}
  {fd : Fd}

/-- A descriptor of the connection itself that did not fail late. -/
theorem Unfailed.succeeded (hq : Tracked (q.view i []))
    (hown : q.files.owner (q.peers i).c.fd = some (.conn i))
    (h : Unfailed late q (q.peers i).c.fd) : Succeeded late q i := by
  rw [Unfailed, hown] at h
  exact ⟨hown, (hq.owned _ hown).2.2, h⟩

theorem Succeeded.of_keeps {kernel : List Bool} (hm : Keeps (q.view i kernel) m)
    (h : Succeeded late q i) : Succeeded late (q.put i m) i := by
  obtain ⟨howner, hattempt, hlate⟩ := h
  obtain ⟨noted, hhistory, hnoted⟩ := hm.noted
  have hpeer : (q.put i m).peers i = ⟨m.c, m.tcp, m.history⟩ := by simp [Process.put]
  have hfd : m.c.fd = (q.peers i).c.fd := hm.fd
  have htcp : m.tcp = (q.peers i).tcp := hm.tcp
  have hsame : lastAttempt m.history = lastAttempt (q.peers i).history := by
    rw [hhistory, lastAttempt_append hnoted]
    rfl
  refine ⟨?_, ?_, ?_⟩
  · rw [hpeer]
    exact (congrFun hm.owner _).trans (hfd ▸ howner)
  · rw [hpeer]
    exact hsame.trans hattempt
  · rw [hpeer]
    exact htcp ▸ hlate

/-- A descriptor that is open belongs to an attempt that has not failed, or a move on it would
    report that attempt. -/
theorem unfailed_of_reports {kernel : List Bool} {writable : Bool} {call : FileCall}
    (hopen : q.files.isOpen fd = true)
    (hreports : (ProcessMove.event i kernel (.file fd writable call)).reports late q = none) :
    Unfailed late q fd := by
  obtain ⟨owner, howner⟩ := Option.isSome_iff_exists.mp hopen
  cases owner with
  | process => simp [Unfailed, howner]
  | conn j =>
    simp only [ProcessMove.reports, howner] at hreports
    simpa [Unfailed, howner] using hreports

/-- What the connections are tracked by after some acts of one of them. -/
theorem tracked_put {kernel : List Bool} (hq : ∀ j, Tracked (q.view j []))
    (hacts : ReflTransGen (Act S) (q.view i kernel) m) : ∀ j, Tracked ((q.put i m).view j []) := by
  have hchain := put_acts (p := q) hacts (i := i) rfl
  rw [Process.put_view] at hchain
  exact Run.preserves_of_reflTransGen (P := fun q => ∀ j, Tracked (q.view j []))
    (fun _ _ h hq => h.tracked hq) hchain hq

/-- The failed reads and writes of a move are on connections whose connect succeeded, when it
    does not report an attempt that failed late and they are on the own descriptors. -/
theorem succeeded_of_step {move : ProcessMove} (hstep : Process.machine S move q = some p')
    (hq : ∀ j, Tracked (q.view j [])) (hplain : move.Plain S late q)
    (hreports : move.reports late q = none) (hown : move.OnOwn S q) :
    ∀ failure ∈ move.readFailures S q ++ move.writeFailures S q,
      Succeeded late failure.2 failure.1 := by
  cases move with
  | timer => simp [ProcessMove.readFailures, ProcessMove.writeFailures]
  | event i kernel handled =>
    obtain ⟨l', hlocal, -⟩ := Option.map_eq_some_iff.mp hstep
    cases handled with
    | initialConnect | delay =>
      simp [ProcessMove.readFailures, ProcessMove.writeFailures, Event.readFailure,
        Event.writeFailure]
    | file fd writable call =>
      simp only [Local.step] at hlocal
      split_ifs at hlocal with habort hcalls
      have hview : Tracked (q.view i kernel) := by
        obtain ⟨hb, hbound, hfirst⟩ := hq i
        exact ⟨⟨hb.writeSide, hb.calls, hb.timers⟩, ⟨hbound.own, hbound.owned, hbound.notProcess⟩,
          hfirst⟩
      have hconnected : (q.view i kernel).Connected := hview.calls _ _ _ hcalls
      obtain ⟨hfd, -⟩ := hview.own fd (FileEvent.mask_of_handler hcalls.1) hcalls.2
      change fd = (q.peers i).c.fd at hfd
      subst hfd
      have hfirst := unfailed_of_reports hplain.1 hreports
      intro failure hmem
      have howner := hown failure hmem
      cases call with
      | connected =>
        simp [ProcessMove.readFailures, ProcessMove.writeFailures, Event.readFailure,
          Event.writeFailure] at hmem
      | writeable i' =>
        simp only [ProcessMove.readFailures, ProcessMove.writeFailures, Event.readFailure,
          Event.writeFailure, Option.toList_none, List.map_nil, List.nil_append, List.mem_map,
          Option.mem_toList] at hmem
        obtain ⟨m, hm, rfl⟩ := hmem
        have hkeeps := writeFailure_keeps hm
        have hfd : ((q.put i m).peers i).c.fd = (q.peers i).c.fd := by
          simpa [Process.put, Process.view] using hkeeps.fd
        have hbefore : q.files.owner (q.peers i).c.fd = some (.conn i) := by
          rw [← hfd]
          exact (congrFun hkeeps.owner _).symm.trans howner
        exact (hfirst.succeeded (hq i) hbefore).of_keeps hkeeps
      | readable reconnect rounds =>
        simp only [ProcessMove.readFailures, ProcessMove.writeFailures, Event.readFailure,
          Event.writeFailure, Option.toList_none, List.map_nil, List.append_nil, List.mem_map,
          Option.mem_toList] at hmem
        obtain ⟨m, hm, rfl⟩ := hmem
        have hattend : Attending (q.peers i).c.fd (q.view i kernel) :=
          .inr (.inr (hview.calls_read hcalls))
        obtain ⟨hacts, hcases⟩ := readFailure_acts hview.toBasic (by simpa using habort)
          hconnected hattend hplain.2 hm
        refine Unfailed.succeeded (tracked_put hq hacts i) howner ?_
        rcases hcases with rfl | hpolled
        · rw [Process.put_view]
          exact hfirst
        · simpa [Process.put] using hpolled

theorem tracked_of_step {move : ProcessMove} (hstep : Process.machine S move q = some p')
    (hq : ∀ j, Tracked (q.view j [])) : ∀ j, Tracked (p'.view j []) :=
  Run.preserves_of_reflTransGen (P := fun q => ∀ j, Tracked (q.view j []))
    (fun _ _ h hq => h.tracked hq) (process_acts hstep fun j => (hq j).toBasic) hq

/-- The connections of a thread that something happened to. -/
def actors (k : ℕ) (moves : List ProcessMove) : Finset ConnId :=
  (moves.filterMap ProcessMove.peer).toFinset.filter (·.thread = k)

/-- What the moves of a run fail to read, for the connections of a thread. -/
def readFailuresOf (S : Setting) (k : ℕ) (trace : List (Process × ProcessMove)) :
    List (ConnId × Process) :=
  (trace.flatMap fun x => x.2.readFailures S x.1).filter (·.1.thread = k)

def writeFailuresOf (S : Setting) (k : ℕ) (trace : List (Process × ProcessMove)) :
    List (ConnId × Process) :=
  (trace.flatMap fun x => x.2.writeFailures S x.1).filter (·.1.thread = k)

theorem mem_failuresOf {trace : List (Process × ProcessMove)} {failure : ConnId × Process} :
    failure ∈ readFailuresOf S k trace ++ writeFailuresOf S k trace ↔
      failure.1.thread = k ∧ ∃ x ∈ trace,
        failure ∈ x.2.readFailures S x.1 ++ x.2.writeFailures S x.1 := by
  simp only [readFailuresOf, writeFailuresOf, List.mem_append, List.mem_filter, List.mem_flatMap,
    decide_eq_true_eq]
  constructor
  · rintro (⟨⟨x, hx, hfailure⟩, hk⟩ | ⟨⟨x, hx, hfailure⟩, hk⟩)
    · exact ⟨hk, x, hx, .inl hfailure⟩
    · exact ⟨hk, x, hx, .inr hfailure⟩
  · rintro ⟨hk, x, hx, hfailure | hfailure⟩
    · exact .inl ⟨⟨x, hx, hfailure⟩, hk⟩
    · exact .inr ⟨⟨x, hx, hfailure⟩, hk⟩

/-- The attempts that failed late and were reported. -/
def reported (late : ConnId → ℕ → Bool) (trace : List (Process × ProcessMove)) :
    Finset (ConnId × ℕ) :=
  (trace.filterMap fun x => x.2.reports late x.1).toFinset

/-- A failure of a connection is one of its thread. -/
theorem length_failures (failure : Option Local) (f : Local → Process) (k : ℕ) :
    ((failure.toList.map fun m => (i, f m)).filter (·.1.thread = k)).length =
      if i.thread = k then failure.toList.length else 0 := by
  cases failure <;> by_cases hk : i.thread = k <;> simp [hk]

/-- Plain sockets do not fail to open. -/
theorem ProcessMove.Plain.openFailure {kernel : List Bool} {handled : Event}
    (hplain : (ProcessMove.event i kernel handled).Plain S late q) :
    handled.openFailure = false := by
  cases handled with
  | file fd writable call =>
    cases call with
    | connected status reconnect =>
      obtain rfl : status = .ok := hplain.2
      rfl
    | _ => rfl
  | _ => rfl

/-- What one move adds to the counters of a thread, on plain sockets. -/
theorem errors_of_step {move : ProcessMove} (hstep : Process.machine S move q = some p')
    (hplain : move.Plain S late q) (k : ℕ) {A : Finset ConnId} (hA : ∀ i ∈ A, i.thread = k)
    (hmove : ∀ i, move.peer = some i → i.thread = k → i ∈ A) :
    (p'.threads k).errors.connect.increments + ∑ i ∈ A, failedConnects (q.peers i).history =
        (q.threads k).errors.connect.increments + ∑ i ∈ A, failedConnects (p'.peers i).history ∧
      (p'.threads k).errors.read.increments = (q.threads k).errors.read.increments +
        ((move.readFailures S q).filter (·.1.thread = k)).length ∧
      (p'.threads k).errors.write.increments = (q.threads k).errors.write.increments +
        ((move.writeFailures S q).filter (·.1.thread = k)).length := by
  cases move with
  | event i kernel handled =>
    obtain ⟨l', hlocal, rfl⟩ := Option.map_eq_some_iff.mp hstep
    have hcharges := charges_step hlocal
    rw [hplain.openFailure] at hcharges
    by_cases hk : i.thread = k
    · -- a connection of the thread: the rest of the sum stays
      subst hk
      have hi : i ∈ A := hmove i rfl rfl
      have hconnect := congrArg Charges.connect hcharges
      have hread := congrArg Charges.read hcharges
      have hwrite := congrArg Charges.write hcharges
      simp only [Charges.addConnect, Charges.addRead, Charges.addWrite, Local.charges,
        Process.view, Bool.toNat_false, Nat.cast_zero, add_zero] at hconnect hread hwrite
      have hsum : ∀ f : ConnId → ℕ, ∑ j ∈ A, f j = f i + ∑ j ∈ A.erase i, f j :=
        fun f => (Finset.add_sum_erase A f hi).symm
      have hothers : ∑ j ∈ A.erase i, failedConnects ((q.put i l').peers j).history =
          ∑ j ∈ A.erase i, failedConnects (q.peers j).history := by
        refine Finset.sum_congr rfl fun j hj => ?_
        simp [Process.put, Finset.ne_of_mem_erase hj]
      refine ⟨?_, ?_, ?_⟩
      · rw [hsum, hsum, hothers]
        simp only [Process.put, Function.update_self]
        omega
      · rw [ProcessMove.readFailures, length_failures, if_pos rfl]
        simp only [Process.put, Function.update_self]
        exact hread
      · rw [ProcessMove.writeFailures, length_failures, if_pos rfl]
        simp only [Process.put, Function.update_self]
        exact hwrite
    · -- a connection of another thread
      have hpeers : ∀ j ∈ A, (q.put i l').peers j = q.peers j := by
        intro j hj
        have hne : j ≠ i := fun heq => hk (heq ▸ hA j hj)
        simp [Process.put, hne]
      have hthread : (q.put i l').threads k = q.threads k := by
        simp [Process.put, Ne.symm hk]
      refine ⟨?_, ?_, ?_⟩
      · rw [hthread]
        exact congrArg _ (Finset.sum_congr rfl fun j hj => by rw [hpeers j hj])
      · rw [ProcessMove.readFailures, length_failures, if_neg hk, hthread, Nat.add_zero]
      · rw [ProcessMove.writeFailures, length_failures, if_neg hk, hthread, Nat.add_zero]
  | timer j id now rearm timer =>
    simp only [Process.machine, Process.fire] at hstep
    split_ifs at hstep
    cases hcall : timer.call S (q.starts j) (q.threads j) with
    | none =>
      rw [hcall] at hstep
      obtain rfl := Option.some.inj hstep
      simp [ProcessMove.readFailures, ProcessMove.writeFailures]
    | some result =>
      obtain ⟨returned, t⟩ := result
      have herrors := errors_of_timer hcall
      rw [hcall] at hstep
      obtain rfl := Option.some.inj hstep
      by_cases hk : k = j
      · subst hk
        simp [ProcessMove.readFailures, ProcessMove.writeFailures, Process.setThread, herrors]
      · simp [ProcessMove.readFailures, ProcessMove.writeFailures, Process.setThread, hk]

/-- The counters of a thread after a run, on plain sockets. -/
theorem errors_of_run (hrun : Run.run (Process.machine S) moves q = some p')
    (hplain : ∀ x ∈ Run.trace (Process.machine S) moves q, x.2.Plain S late x.1) (k : ℕ)
    {A : Finset ConnId} (hA : ∀ i ∈ A, i.thread = k) (hmoves : actors k moves ⊆ A) :
    (p'.threads k).errors.connect.increments + ∑ i ∈ A, failedConnects (q.peers i).history =
        (q.threads k).errors.connect.increments + ∑ i ∈ A, failedConnects (p'.peers i).history ∧
      (p'.threads k).errors.read.increments = (q.threads k).errors.read.increments +
        (readFailuresOf S k (Run.trace (Process.machine S) moves q)).length ∧
      (p'.threads k).errors.write.increments = (q.threads k).errors.write.increments +
        (writeFailuresOf S k (Run.trace (Process.machine S) moves q)).length := by
  induction moves generalizing q with
  | nil =>
    obtain rfl : q = p' := Option.some.inj hrun
    simp [Run.trace, readFailuresOf, writeFailuresOf]
  | cons move rest ih =>
    obtain ⟨q₁, hfirst, hrest⟩ := Run.run_cons hrun
    have htrace : Run.trace (Process.machine S) (move :: rest) q = _ := Run.trace_cons hfirst
    rw [htrace] at hplain ⊢
    have hactor : ∀ i, move.peer = some i → i.thread = k → i ∈ A := by
      intro i hi hk
      refine hmoves (Finset.mem_filter.mpr ⟨List.mem_toFinset.mpr ?_, hk⟩)
      exact List.mem_filterMap.mpr ⟨move, List.mem_cons_self, hi⟩
    have hrest' : actors k rest ⊆ A := by
      intro i hi
      obtain ⟨hmem, hk⟩ := Finset.mem_filter.mp hi
      obtain ⟨other, hother, hpeer⟩ := List.mem_filterMap.mp (List.mem_toFinset.mp hmem)
      refine hmoves (Finset.mem_filter.mpr ⟨List.mem_toFinset.mpr ?_, hk⟩)
      exact List.mem_filterMap.mpr ⟨other, List.mem_cons_of_mem _ hother, hpeer⟩
    obtain ⟨hconnect, hread, hwrite⟩ :=
      errors_of_step hfirst (hplain _ List.mem_cons_self) k hA hactor
    obtain ⟨hconnect', hread', hwrite'⟩ :=
      ih hrest (fun x hx => hplain x (List.mem_cons_of_mem _ hx)) hrest'
    refine ⟨by omega, ?_, ?_⟩
    · rw [hread', hread]
      simp [readFailuresOf, Nat.add_assoc]
    · rw [hwrite', hwrite]
      simp [writeFailuresOf, Nat.add_assoc]

/-- The error counters are right: `errors.connect` counts every failed attempt of the thread
    once, be it that `connect_socket` failed or that it failed late and was reported, and
    `errors.read` and `errors.write` count failures of connections whose connect succeeded. -/
structure Classified (S : Setting) (late : ConnId → ℕ → Bool) (moves : List ProcessMove)
    (trace : List (Process × ProcessMove)) (p : Process) : Prop where
  connect : ∀ k, (p.threads k).errors.connect.Counts
    (∑ i ∈ actors k moves, failedConnects (p.peers i).history +
      ((reported late trace).filter (·.1.thread = k)).card)
  read : ∀ k, (p.threads k).errors.read.Counts (readFailuresOf S k trace).length
  write : ∀ k, (p.threads k).errors.write.Counts (writeFailuresOf S k trace).length
  succeeded : ∀ k, ∀ failure ∈ readFailuresOf S k trace ++ writeFailuresOf S k trace,
    Succeeded late failure.2 failure.1

/-- On plain sockets the error counters are right exactly as long as the kernel reports no
    attempt that failed after `connect` returned, and no read or write fails on a descriptor that
    its connection does not own. -/
theorem connects_classified_iff (h : start.run S moves = some p)
    (hplain : ∀ x ∈ Run.trace (Process.machine S) moves start.process, x.2.Plain S late x.1) :
    Classified S late moves (Run.trace (Process.machine S) moves start.process) p ↔
      ∀ x ∈ Run.trace (Process.machine S) moves start.process,
        x.2.reports late x.1 = none ∧ x.2.OnOwn S x.1 := by
  have hrun := fun k => errors_of_run h hplain k (A := actors k moves)
    (fun i hi => (Finset.mem_filter.mp hi).2) (Finset.Subset.refl _)
  have hzero : ∀ k, (start.process.threads k).errors = ⟨.zero, .zero, .zero, .zero, .zero⟩ :=
    fun _ => rfl
  have hempty : ∀ i, failedConnects (start.process.peers i).history = 0 := fun _ => rfl
  simp only [hzero, ErrorCounter.zero, hempty, Finset.sum_const_zero, Nat.add_zero,
    Nat.zero_add] at hrun
  have hreported : (∀ x ∈ Run.trace (Process.machine S) moves start.process,
      x.2.reports late x.1 = none) ↔
        reported late (Run.trace (Process.machine S) moves start.process) = ∅ := by
    rw [reported, List.toFinset_eq_empty_iff, List.filterMap_eq_nil_iff]
  refine ⟨fun hclassified x hx => ⟨?_, fun failure hfailure => ?_⟩,
    fun hsound => ⟨fun k => ErrorCounter.counts_iff.mpr ?_,
      fun k => ErrorCounter.counts_iff.mpr (hrun k).2.1,
      fun k => ErrorCounter.counts_iff.mpr (hrun k).2.2,
      fun k failure hmem => ?_⟩⟩
  · refine hreported.mpr (Finset.eq_empty_of_forall_notMem fun y hy => ?_) x hx
    have hconnect := (hclassified.connect y.1.thread).1
    rw [(hrun y.1.thread).1] at hconnect
    have hcard : 0 < ((reported late (Run.trace (Process.machine S) moves start.process)).filter
        (·.1.thread = y.1.thread)).card :=
      Finset.card_pos.mpr ⟨y, Finset.mem_filter.mpr ⟨hy, rfl⟩⟩
    omega
  · exact (hclassified.succeeded failure.1.thread failure (mem_failuresOf.mpr
      ⟨rfl, x, hx, hfailure⟩)).1
  · rw [(hrun k).1, hreported.mp fun x hx => (hsound x hx).1]
    simp
  · obtain ⟨-, x, hx, hfailure⟩ := mem_failuresOf.mp hmem
    obtain ⟨p', hstep⟩ := Run.trace_steps h x hx
    have htracked := Run.trace_preserves (P := fun q => ∀ j, Tracked (q.view j []))
      (fun move q p' hstep hq => tracked_of_step hstep hq) ProcessStart.tracked x hx
    exact succeeded_of_step hstep htracked (hplain x hx) (hsound x hx).1 (hsound x hx).2 failure
      hfailure

end Runs

end Process

/-! ## Examples -/

namespace Example

/-- The connect of the first thread fails at once, that of the second succeeds, and its peer
    hangs up. -/
def oneRefused : List ProcessMove :=
  [on 0 (.event (.initialConnect 0 0 0 (refuses 5))), on 1 (connect 0 6), on 1 (opens 6),
    on 1 (hangUp 6 7)]

/-- A connect that is in progress fails; `socket_connected` finds nothing wrong, and the write
    fails. -/
def failsLate : List ProcessMove :=
  [on 0 (connect 0 5), on 0 (opens 5), on 0 (write 5 0 [] .error)]

/-- The reconnect of a connection that waits for its next send fails, another one gets the
    descriptor number, and a write of the first fails there. -/
def failsElsewhere : List ProcessMove :=
  [on 0 (connect 0 5), on 0 (opens 5), on 0 (write 5 0 [] (.ok 3)),
    on 0 (read 5 [completed 1 true (connects 5)]), on 0 (write 5 2 [] (.ok 3)),
    on 0 (.event (.file 5 false (.readable (refuses 6) [.error]))), on 1 (connect 0 5),
    on 0 (timer 3 1000), on 0 (write 5 1000 [] .error)]

end Example

open Example in
theorem connects_classified_iff_refused : ∃ p,
    twoThreads.run (setting 1 false) oneRefused = some p ∧
      (p.threads 0).errors.connect.increments = 1 ∧ (p.threads 1).errors.read.increments = 1 ∧
      Classified (setting 1 false) (fun _ _ => false) oneRefused
        (Run.trace (Process.machine (setting 1 false)) oneRefused twoThreads.process) p := by
  obtain ⟨p, hp, hconnect, hread⟩ : ∃ p, twoThreads.run (setting 1 false) oneRefused = some p ∧
      (p.threads 0).errors.connect.increments = 1 ∧ (p.threads 1).errors.read.increments = 1 :=
    exists_of_any (by decide +kernel)
  exact ⟨p, hp, hconnect, hread,
    (connects_classified_iff hp (by decide +kernel)).mpr (by decide +kernel)⟩

open Example in
/-- An attempt that fails late is counted as a write error. -/
theorem late_failure_misclassified : ∃ p, twoThreads.run (setting 1 false) failsLate = some p ∧
    (∀ x ∈ Run.trace (Process.machine (setting 1 false)) failsLate twoThreads.process,
      x.2.Plain (setting 1 false) (fun i n => i = ⟨0, 0⟩ ∧ n = 1) x.1) ∧
    (p.threads 0).errors.connect.increments = 0 ∧ (p.threads 0).errors.write.increments = 1 ∧
    ¬ Classified (setting 1 false) (fun i n => i = ⟨0, 0⟩ ∧ n = 1) failsLate
      (Run.trace (Process.machine (setting 1 false)) failsLate twoThreads.process) p := by
  obtain ⟨p, hp, hconnect, hwrite⟩ : ∃ p, twoThreads.run (setting 1 false) failsLate = some p ∧
      (p.threads 0).errors.connect.increments = 0 ∧ (p.threads 0).errors.write.increments = 1 :=
    exists_of_any (by decide +kernel)
  refine ⟨p, hp, by decide +kernel, hconnect, hwrite, fun hclassified => ?_⟩
  have hcount := (hclassified.connect 0).1
  rw [hconnect] at hcount
  have hreported : (((reported (fun i n => i = ⟨0, 0⟩ ∧ n = 1)
      (Run.trace (Process.machine (setting 1 false)) failsLate twoThreads.process)).filter
        (·.1.thread = 0)).card) = 1 := by
    decide +kernel
  omega

open Example in
/-- A connection whose last attempt failed is charged with a write error. -/
theorem stale_failure_misclassified : ∃ p,
    twoThreads.run (setting 1 false) failsElsewhere = some p ∧
    (∀ x ∈ Run.trace (Process.machine (setting 1 false)) failsElsewhere twoThreads.process,
      x.2.Plain (setting 1 false) (fun _ _ => false) x.1 ∧
        x.2.reports (fun _ _ => false) x.1 = none) ∧
    (p.threads 0).errors.write.increments = 1 ∧
    ¬ Classified (setting 1 false) (fun _ _ => false) failsElsewhere
      (Run.trace (Process.machine (setting 1 false)) failsElsewhere twoThreads.process) p := by
  obtain ⟨p, hp, hwrite⟩ : ∃ p, twoThreads.run (setting 1 false) failsElsewhere = some p ∧
      (p.threads 0).errors.write.increments = 1 :=
    exists_of_any (by decide +kernel)
  have hstale : ∃ failure ∈ writeFailuresOf (setting 1 false) 0
      (Run.trace (Process.machine (setting 1 false)) failsElsewhere twoThreads.process),
      lastAttempt (failure.2.peers failure.1).history = some false := by
    decide +kernel
  refine ⟨p, hp, by decide +kernel, hwrite, fun hclassified => ?_⟩
  obtain ⟨failure, hmem, hattempt⟩ := hstale
  have hsucceeded := (hclassified.succeeded 0 failure (List.mem_append_right _ hmem)).2.1
  rw [hattempt] at hsucceeded
  exact absurd hsucceeded (by simp)

end Wrkx
