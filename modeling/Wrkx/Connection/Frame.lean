import Wrkx.Connection.Machine

/-!
# What the operations leave alone

For each operation on `Local` the parts of the state it does not touch, as simp lemmas, and
the outcomes of the calls that can fail.
-/

namespace Wrkx

/-- Only the event loop and the error counters differ. -/
def Thread.Quiet (t t' : Thread) : Prop := t' = { t with loop := t'.loop, errors := t'.errors }

theorem Thread.Quiet.refl (t : Thread) : t.Quiet t := rfl

theorem Thread.Quiet.trans {t t' t'' : Thread} (h : t.Quiet t') (h' : t'.Quiet t'') :
    t.Quiet t'' := by
  rw [Thread.Quiet] at *
  rw [h', h]

namespace Local

variable {l : Local} {o : Obs} {fd : Fd} {mask : Mask} {proc : FileProc} {again : Bool}

@[simp] theorem note_self : (l.note o).self = l.self := rfl
@[simp] theorem note_c : (l.note o).c = l.c := rfl
@[simp] theorem note_tcp : (l.note o).tcp = l.tcp := rfl
@[simp] theorem note_history : (l.note o).history = o :: l.history := rfl
@[simp] theorem note_thread : (l.note o).thread = l.thread := rfl
@[simp] theorem note_files : (l.note o).files = l.files := rfl
@[simp] theorem note_kernel : (l.note o).kernel = l.kernel := rfl
@[simp] theorem note_aborted : (l.note o).aborted = l.aborted := rfl

/-! ## Registering and deregistering -/

/-- The state after a successful `aeCreateFileEvent`. -/
def register (fd : Fd) (mask : Mask) (proc : FileProc) (l : Local) : Local :=
  let fe := l.thread.loop.events fd
  let fe : FileEvent :=
    { mask := fe.mask.union mask
      rfileProc := if mask.readable then proc else fe.rfileProc
      wfileProc := if mask.writable then proc else fe.wfileProc
      clientData := l.self }
  { l with
    kernel := l.kernel.tail
    thread := { l.thread with loop :=
      { l.thread.loop with events := Function.update l.thread.loop.events fd fe } }
    files := l.files.use l.self fd }

theorem createFileEvent_eq_ite (l : Local) (fd : Fd) (mask : Mask) (proc : FileProc) :
    l.createFileEvent fd mask proc =
      if fd < l.thread.loop.setsize ∧ (l.files.isOpen fd && l.kernel.headD true) = true then
        (true, l.register fd mask proc)
      else
        (false, { l with kernel := l.kernel.tail }) := by
  generalize hadded : (l.files.isOpen fd && l.kernel.headD true) = added
  by_cases hfd : l.thread.loop.setsize ≤ fd
  · simp only [createFileEvent, aeCreateFileEvent, hadded, hfd, not_lt.mpr hfd, if_true, false_and,
      if_false]
  · cases added
    · simp only [createFileEvent, aeCreateFileEvent, hadded, hfd, if_false, Bool.not_false, if_true,
        Bool.false_eq_true, and_false]
    · simp only [createFileEvent, aeCreateFileEvent, hadded, hfd, if_false, Bool.not_true,
        Bool.false_eq_true, not_le.mp hfd, and_self, if_true, register]

/-- `aeCreateFileEvent` fails and changes nothing, or it registers an open descriptor. -/
theorem createFileEvent_cases (l : Local) (fd : Fd) (mask : Mask) (proc : FileProc) :
    l.createFileEvent fd mask proc = (false, { l with kernel := l.kernel.tail }) ∨
      (l.files.isOpen fd ∧ fd < l.thread.loop.setsize ∧
        l.createFileEvent fd mask proc = (true, l.register fd mask proc)) := by
  rw [createFileEvent_eq_ite]
  by_cases h : fd < l.thread.loop.setsize ∧ (l.files.isOpen fd && l.kernel.headD true) = true
  · exact .inr ⟨(Bool.and_eq_true _ _ ▸ h.2).1, h.1, if_pos h⟩
  · exact .inl (if_neg h)

/-- With nothing left to go wrong in the kernel, an open descriptor is registered. -/
theorem createFileEvent_eq (hkernel : l.kernel = []) (hopen : l.files.isOpen fd)
    (hfd : fd < l.thread.loop.setsize) :
    l.createFileEvent fd mask proc = (true, l.register fd mask proc) := by
  rw [createFileEvent_eq_ite, if_pos]
  simp [hkernel, hopen, hfd]

/-- A closed descriptor is not registered. -/
theorem createFileEvent_closed (hopen : l.files.isOpen fd = false) :
    l.createFileEvent fd mask proc = (false, { l with kernel := l.kernel.tail }) := by
  rcases createFileEvent_cases l fd mask proc with h | ⟨hopen', -, -⟩
  · exact h
  · simp [hopen] at hopen'

@[simp] theorem register_self : (l.register fd mask proc).self = l.self := rfl
@[simp] theorem register_kernel : (l.register fd mask proc).kernel = l.kernel.tail := rfl

/-- The file events after a registration. -/
theorem register_events (fd' : Fd) :
    (l.register fd mask proc).thread.loop.events fd' =
      if fd' = fd then
        { mask := (l.thread.loop.events fd).mask.union mask
          rfileProc := if mask.readable then proc else (l.thread.loop.events fd).rfileProc
          wfileProc := if mask.writable then proc else (l.thread.loop.events fd).wfileProc
          clientData := l.self }
      else
        l.thread.loop.events fd' := by
  simp only [register, Function.update_apply]

theorem register_mask (fd' : Fd) :
    ((l.register fd mask proc).thread.loop.events fd').mask =
      if fd' = fd then (l.thread.loop.events fd').mask.union mask
      else (l.thread.loop.events fd').mask := by
  rw [register_events]
  split_ifs with heq <;> simp [heq]

theorem register_rfileProc (fd' : Fd) :
    ((l.register fd mask proc).thread.loop.events fd').rfileProc =
      if fd' = fd ∧ mask.readable then proc else (l.thread.loop.events fd').rfileProc := by
  rw [register_events]
  by_cases heq : fd' = fd <;> simp [heq]

theorem register_wfileProc (fd' : Fd) :
    ((l.register fd mask proc).thread.loop.events fd').wfileProc =
      if fd' = fd ∧ mask.writable then proc else (l.thread.loop.events fd').wfileProc := by
  rw [register_events]
  by_cases heq : fd' = fd <;> simp [heq]

theorem register_clientData (fd' : Fd) :
    ((l.register fd mask proc).thread.loop.events fd').clientData =
      if fd' = fd then l.self else (l.thread.loop.events fd').clientData := by
  rw [register_events]
  by_cases heq : fd' = fd <;> simp [heq]

@[simp]
theorem createFileEvent_self : (l.createFileEvent fd mask proc).2.self = l.self := by
  rcases createFileEvent_cases l fd mask proc with h | ⟨-, -, h⟩ <;> simp [h, register]

@[simp]
theorem createFileEvent_c : (l.createFileEvent fd mask proc).2.c = l.c := by
  rcases createFileEvent_cases l fd mask proc with h | ⟨-, -, h⟩ <;> simp [h, register]

@[simp]
theorem createFileEvent_tcp : (l.createFileEvent fd mask proc).2.tcp = l.tcp := by
  rcases createFileEvent_cases l fd mask proc with h | ⟨-, -, h⟩ <;> simp [h, register]

@[simp]
theorem createFileEvent_history : (l.createFileEvent fd mask proc).2.history = l.history := by
  rcases createFileEvent_cases l fd mask proc with h | ⟨-, -, h⟩ <;> simp [h, register]

@[simp]
theorem createFileEvent_aborted : (l.createFileEvent fd mask proc).2.aborted = l.aborted := by
  rcases createFileEvent_cases l fd mask proc with h | ⟨-, -, h⟩ <;> simp [h, register]

@[simp]
theorem createFileEvent_kernel :
    (l.createFileEvent fd mask proc).2.kernel = l.kernel.tail := by
  rcases createFileEvent_cases l fd mask proc with h | ⟨-, -, h⟩ <;> simp [h, register]

@[simp]
theorem createFileEvent_owner :
    (l.createFileEvent fd mask proc).2.files.owner = l.files.owner := by
  rcases createFileEvent_cases l fd mask proc with h | ⟨-, -, h⟩ <;>
    simp [h, register, Files.use]

theorem createFileEvent_loop : (l.createFileEvent fd mask proc).2.thread.loop =
    (aeCreateFileEvent l.thread.loop (l.files.isOpen fd && l.kernel.headD true) fd mask proc
      l.self).getD l.thread.loop := by
  simp only [createFileEvent]
  generalize aeCreateFileEvent _ _ _ _ _ _ = created
  cases created <;> rfl

theorem createFileEvent_files : (l.createFileEvent fd mask proc).2.files =
    if (aeCreateFileEvent l.thread.loop (l.files.isOpen fd && l.kernel.headD true) fd mask proc
      l.self).isSome then l.files.use l.self fd else l.files := by
  simp only [createFileEvent]
  generalize aeCreateFileEvent _ _ _ _ _ _ = created
  cases created <;> rfl

/-- Registering changes nothing in the thread but its file events. -/
theorem createFileEvent_thread : (l.createFileEvent fd mask proc).2.thread =
    { l.thread with loop := { l.thread.loop with
      events := (l.createFileEvent fd mask proc).2.thread.loop.events } } := by
  rcases createFileEvent_cases l fd mask proc with h | ⟨-, -, h⟩ <;> simp [h, register]

@[simp]
theorem createFileEvent_setsize :
    (l.createFileEvent fd mask proc).2.thread.loop.setsize = l.thread.loop.setsize := by
  rw [createFileEvent_thread]

@[simp]
theorem createFileEvent_nextId :
    (l.createFileEvent fd mask proc).2.thread.loop.timeEventNextId =
      l.thread.loop.timeEventNextId := by
  rw [createFileEvent_thread]

@[simp]
theorem armed_createFileEvent {id : ℕ} {timeProc : TimeProc} :
    (l.createFileEvent fd mask proc).2.thread.loop.Armed id timeProc ↔
      l.thread.loop.Armed id timeProc :=
  EventLoop.armed_of_timeEvents (by rw [createFileEvent_thread])

theorem quiet_createFileEvent : l.thread.Quiet (l.createFileEvent fd mask proc).2.thread := by
  rw [Thread.Quiet, createFileEvent_thread]

@[simp] theorem deleteFileEvent_self : (l.deleteFileEvent fd mask).self = l.self := rfl
@[simp] theorem deleteFileEvent_c : (l.deleteFileEvent fd mask).c = l.c := rfl
@[simp] theorem deleteFileEvent_tcp : (l.deleteFileEvent fd mask).tcp = l.tcp := rfl
@[simp] theorem deleteFileEvent_history : (l.deleteFileEvent fd mask).history = l.history := rfl
@[simp] theorem deleteFileEvent_kernel : (l.deleteFileEvent fd mask).kernel = l.kernel := rfl
@[simp] theorem deleteFileEvent_aborted : (l.deleteFileEvent fd mask).aborted = l.aborted := rfl

@[simp]
theorem deleteFileEvent_owner : (l.deleteFileEvent fd mask).files.owner = l.files.owner := rfl

theorem deleteFileEvent_thread : (l.deleteFileEvent fd mask).thread =
    { l.thread with loop := { l.thread.loop with
      events := (l.deleteFileEvent fd mask).thread.loop.events } } := by
  simp only [deleteFileEvent, aeDeleteFileEvent]
  split_ifs <;> rfl

@[simp]
theorem deleteFileEvent_setsize :
    (l.deleteFileEvent fd mask).thread.loop.setsize = l.thread.loop.setsize := by
  rw [deleteFileEvent_thread]

@[simp]
theorem deleteFileEvent_nextId :
    (l.deleteFileEvent fd mask).thread.loop.timeEventNextId =
      l.thread.loop.timeEventNextId := by
  rw [deleteFileEvent_thread]

@[simp]
theorem armed_deleteFileEvent {id : ℕ} {timeProc : TimeProc} :
    (l.deleteFileEvent fd mask).thread.loop.Armed id timeProc ↔
      l.thread.loop.Armed id timeProc :=
  EventLoop.armed_of_timeEvents (by rw [deleteFileEvent_thread])

theorem quiet_deleteFileEvent : l.thread.Quiet (l.deleteFileEvent fd mask).thread := by
  rw [Thread.Quiet, deleteFileEvent_thread]

/-- The file events after a deregistration. -/
theorem deleteFileEvent_events (fd' : Fd) :
    (l.deleteFileEvent fd mask).thread.loop.events fd' =
      if fd' = fd ∧ fd < l.thread.loop.setsize then
        { l.thread.loop.events fd with mask := (l.thread.loop.events fd).mask.diff mask }
      else
        l.thread.loop.events fd' := by
  simp only [deleteFileEvent, aeDeleteFileEvent]
  by_cases hfd : l.thread.loop.setsize ≤ fd
  · simp [hfd, not_lt.mpr hfd]
  · by_cases hnone : (l.thread.loop.events fd).mask = .none
    · by_cases heq : fd' = fd
      · subst heq
        simp only [hfd, hnone, if_true, if_false, not_le.mp hfd, and_self, Mask.diff, Mask.none,
          Bool.false_and]
        exact congrArg (FileEvent.mk · _ _ _) hnone
      · simp [hfd, hnone, heq]
    · simp [hfd, hnone, not_le.mp hfd, Function.update_apply]

theorem deleteFileEvent_mask (fd' : Fd) :
    ((l.deleteFileEvent fd mask).thread.loop.events fd').mask =
      if fd' = fd ∧ fd < l.thread.loop.setsize then (l.thread.loop.events fd').mask.diff mask
      else (l.thread.loop.events fd').mask := by
  rw [deleteFileEvent_events]
  split_ifs with heq <;> simp [heq]

@[simp]
theorem deleteFileEvent_wfileProc (fd' : Fd) :
    ((l.deleteFileEvent fd mask).thread.loop.events fd').wfileProc =
      (l.thread.loop.events fd').wfileProc := by
  rw [deleteFileEvent_events]
  split_ifs with heq <;> simp [heq]

@[simp]
theorem deleteFileEvent_clientData (fd' : Fd) :
    ((l.deleteFileEvent fd mask).thread.loop.events fd').clientData =
      (l.thread.loop.events fd').clientData := by
  rw [deleteFileEvent_events]
  split_ifs with heq <;> simp [heq]

@[simp] theorem close_tcp : (l.close fd).tcp = l.tcp := rfl

/-! ## Connecting -/

/-- What `connect_socket` does: it counts an error and leaves the descriptor of the connection
    and the table of owners as they were, or it takes a free descriptor and registers it. -/
inductive Connects (again : Bool) (l l' : Local) : Prop
  | failed (hself : l'.self = l.self) (hc : l'.c = l.c) (htcp : l'.tcp = l.tcp + 1)
      (hhistory : l'.history = .connect again false :: l.history)
      (hthread : l'.thread = { l.thread with errors := l'.thread.errors })
      (howner : l'.files.owner = l.files.owner) (hkernel : l'.kernel = l.kernel)
      (haborted : l'.aborted = l.aborted)
  | opened (fd : Fd) (hself : l'.self = l.self) (hc : l'.c = { l.c with fd })
      (htcp : l'.tcp = l.tcp + 1) (hhistory : l'.history = .connect again true :: l.history)
      (hfree : l.files.owner fd = none) (hfd : fd < l.thread.loop.setsize)
      (hthread : l'.thread = (l.register fd .both .socketConnected).thread)
      (howner : l'.files.owner = Function.update l.files.owner fd (some (.conn l.self)))
      (hkernel : l'.kernel = l.kernel) (haborted : l'.aborted = l.aborted)

theorem Connects.self_eq {l' : Local} (h : Connects again l l') : l'.self = l.self := by
  cases h <;> assumption

theorem Connects.tcp_eq {l' : Local} (h : Connects again l l') : l'.tcp = l.tcp + 1 := by
  cases h <;> assumption

theorem Connects.history_eq {l' : Local} (h : Connects again l l') :
    ∃ ok, l'.history = .connect again ok :: l.history := by
  cases h with
  | failed => exact ⟨false, by assumption⟩
  | opened => exact ⟨true, by assumption⟩

/-- Only the descriptor of the connection changes. -/
theorem Connects.c_eq {l' : Local} (h : Connects again l l') :
    l'.c = { l.c with fd := l'.c.fd } := by
  cases h with
  | failed hself hc => rw [hc]
  | opened newFd hself hc => rw [hc]

theorem Connects.armed {l' : Local} (h : Connects again l l') {id : ℕ} {timeProc : TimeProc} :
    l'.thread.loop.Armed id timeProc ↔ l.thread.loop.Armed id timeProc := by
  cases h with
  | failed hself hc htcp hhistory hthread => rw [hthread]
  | opened newFd hself hc htcp hhistory hfree hfd hthread =>
    rw [hthread]
    exact EventLoop.armed_of_timeEvents rfl

theorem Connects.quiet {l' : Local} (h : Connects again l l') : l.thread.Quiet l'.thread := by
  cases h with
  | failed hself hc htcp hhistory hthread => rw [Thread.Quiet, hthread]
  | opened newFd hself hc htcp hhistory hfree hfd hthread => rw [Thread.Quiet, hthread]; rfl

theorem Connects.aborted_eq {l' : Local} (h : Connects again l l') : l'.aborted = l.aborted := by
  cases h <;> assumption

theorem connectSocket_connects (i : ConnectInput) : Connects again l (connectSocket again i l) := by
  obtain ⟨socketFd, refused, added⟩ := i
  cases socketFd with
  | none => exact .failed rfl rfl rfl rfl rfl rfl rfl rfl
  | some fd =>
    by_cases hopen : l.files.isOpen fd
    · have hsocket : ({ l with tcp := l.tcp + 1 } : Local).socket (some fd) = none := by
        simp [socket, hopen]
      simp only [connectSocket, hsocket]
      exact .failed rfl rfl rfl rfl rfl rfl rfl rfl
    · have hfree : l.files.owner fd = none := by
        simpa [Files.isOpen] using hopen
      have hclosed : Function.update (Function.update l.files.owner fd (some (.conn l.self)))
          fd none = l.files.owner := by
        rw [Function.update_idem, ← hfree, Function.update_eq_self]
      have hsocket := show ({ l with tcp := l.tcp + 1 } : Local).socket (some fd) = some (fd, _) by
        simp only [socket, hopen, if_false, Bool.false_eq_true]
        rfl
      simp only [connectSocket, hsocket]
      cases refused
      · simp only [Bool.false_eq_true, if_false]
        generalize hcreate : createFileEvent fd .both .socketConnected _ = created
        rcases createFileEvent_cases _ fd .both .socketConnected with h | ⟨-, hfd, h⟩
        · rw [hcreate] at h
          subst h
          exact .failed rfl rfl rfl rfl rfl hclosed rfl rfl
        · rw [hcreate] at h
          subst h
          exact .opened fd rfl rfl rfl rfl hfree hfd rfl rfl rfl rfl
      · exact .failed rfl rfl rfl rfl rfl hclosed rfl rfl

@[simp]
theorem connectSocket_tcp (i : ConnectInput) : (connectSocket again i l).tcp = l.tcp + 1 :=
  (connectSocket_connects i).tcp_eq

/-- The connection as `delayed_initial_connect` calls `connect_socket`. -/
def begun (now : Micros) (l : Local) : Local :=
  { l with c := { l.c with threadStart := now }, history := .clock now :: l.history }

/-- The connection as `reconnect_socket` calls `connect_socket`. -/
def dropped (l : Local) : Local := ((l.deleteFileEvent l.c.fd .both).note .closed).close l.c.fd

@[simp] theorem dropped_self : l.dropped.self = l.self := rfl
@[simp] theorem dropped_c : l.dropped.c = l.c := rfl
@[simp] theorem dropped_tcp : l.dropped.tcp = l.tcp := rfl
@[simp] theorem dropped_history : l.dropped.history = .closed :: l.history := rfl

@[simp]
theorem dropped_owner : l.dropped.files.owner = Function.update l.files.owner l.c.fd none := rfl

@[simp]
theorem dropped_thread : l.dropped.thread = (l.deleteFileEvent l.c.fd .both).thread := rfl

theorem initialConnect_connects (now : Micros) (i : ConnectInput) (l : Local) :
    Connects false (l.begun now) (delayedInitialConnect now i l) :=
  connectSocket_connects i

theorem reconnectSocket_connects (i : ConnectInput) (l : Local) :
    Connects true l.dropped (reconnectSocket i l) :=
  connectSocket_connects i

theorem suffix_delayedInitialConnect {now : Micros} {i : ConnectInput} :
    l.history <:+ (delayedInitialConnect now i l).history := by
  obtain ⟨ok, hok⟩ := (initialConnect_connects now i l).history_eq
  rw [hok]
  exact ⟨[.connect false ok, .clock now], rfl⟩

theorem suffix_reconnectSocket {i : ConnectInput} :
    l.history <:+ (reconnectSocket i l).history := by
  obtain ⟨ok, hok⟩ := (reconnectSocket_connects i l).history_eq
  rw [hok]
  exact ⟨[.connect true ok, .closed], rfl⟩

end Local

end Wrkx
