import Wrkx.Connection.Chains

/-!
# The shape of a connection

Which handlers are registered for a connection that has a thread of its own. Its descriptor is
not registered at all, or it is open and registered for reading, by `socket_connected` while it
connects and by `socket_readable` afterwards; no other descriptor is registered. Every armed
`delay_request` was parked by the connection, and what is noted of a TCP connection is noted
of one that was made.

## Main results

- `Act.shape` — every act keeps the shape
- `Start.run_alone` — invariants of runs may use it
-/

namespace Wrkx

/-- The TCP connection an entry of the history is about. -/
def Obs.tcp : Obs → Option ℕ
  | .established n | .parked _ n | .resumed _ n _ | .batchStart n _ _ | .wrote n _ _ _
  | .finished n | .complete n _ _ | .decrement n _ => some n
  | _ => none

/-- The file event of the descriptor of the connection. -/
def Local.event (l : Local) : FileEvent := l.thread.loop.events l.c.fd

/-- The descriptor of the connection is open and registered for reading. -/
structure Registered (l : Local) : Prop where
  isOpen : l.files.isOpen l.c.fd = true
  lt_setsize : l.c.fd < l.thread.loop.setsize
  clientData : l.event.clientData = l.self
  readable : l.event.mask.readable = true
  handlers : l.event.rfileProc = .socketConnected ∨
    (l.event.rfileProc = .socketReadable ∧ l.event.wfileProc = .socketWriteable)

/-- The shape of a connection that has a thread of its own. -/
structure Shape (l : Local) : Prop where
  kernel : l.kernel = []
  others : ∀ fd, fd ≠ l.c.fd → (l.thread.loop.events fd).mask = .none
  phase : l.event.mask = .none ∨ Registered l
  closed : l.event.mask = .none → ∀ id, l.thread.loop.Armed id (.delayRequest l.self) →
    l.files.isOpen l.c.fd = false
  timers : ∀ id c, l.thread.loop.Armed id (.delayRequest c) →
    c = l.self ∧ ∃ n, .parked id n ∈ l.history
  parked : ∀ id n, .parked id n ∈ l.history → id < l.thread.loop.timeEventNextId
  tags : ∀ o ∈ l.history, ∀ n ∈ o.tcp, n ≤ l.tcp
  established : Registered l →
    (l.event.rfileProc = .socketReadable ↔ .established l.tcp ∈ l.history)

section Acts

variable {S : Setting} {l l' : Local} {fd : Fd} {writable : Bool} {proc : FileProc}

theorem Registered.mask_ne (h : Registered l) : l.event.mask ≠ .none := by
  intro hnone
  have := h.readable
  rw [hnone] at this
  cases this

theorem Shape.registered (hl : Shape l) (h : l.event.mask ≠ .none) : Registered l :=
  hl.phase.resolve_left h

/-- A handler is called for the descriptor of the connection only. -/
theorem Shape.fd_of_calls (hl : Shape l) (h : l.Calls fd writable proc) :
    fd = l.c.fd ∧ Registered l := by
  have hmask : (l.thread.loop.events fd).mask ≠ .none := by
    intro hnone
    have := h.1
    cases writable <;> simp [FileEvent.handler, hnone, Mask.none] at this
  have hfd : fd = l.c.fd := by
    by_contra hne
    exact hmask (hl.others fd hne)
  subst hfd
  exact ⟨rfl, hl.registered hmask⟩

/-- `socket_readable` is called once the connection is established. -/
theorem Shape.readable_of_calls (hl : Shape l) (h : l.Calls fd false .socketReadable) :
    fd = l.c.fd ∧ Registered l ∧ l.event.rfileProc = .socketReadable := by
  obtain ⟨rfl, hreg⟩ := hl.fd_of_calls h
  have hhandler := h.1
  simp only [FileEvent.handler, Bool.false_eq_true, if_false] at hhandler
  split_ifs at hhandler
  exact ⟨rfl, hreg, Option.some.inj hhandler⟩

/-- `socket_connected` is called before the connection is established. -/
theorem Shape.connected_of_calls (hl : Shape l) (h : l.Calls fd writable .socketConnected) :
    fd = l.c.fd ∧ Registered l ∧ l.event.rfileProc = .socketConnected := by
  obtain ⟨rfl, hreg⟩ := hl.fd_of_calls h
  refine ⟨rfl, hreg, hreg.handlers.resolve_right fun ⟨hread, hwrite⟩ => ?_⟩
  have := h.1
  simp only [FileEvent.handler] at this
  split_ifs at this
  · exact absurd (hwrite.symm.trans (Option.some.inj this)) (by simp)
  · exact absurd (hread.symm.trans (Option.some.inj this)) (by simp)

/-! ## Acts that leave the registration alone -/

/-- What is noted without making, parking or establishing a TCP connection. -/
def Plain (tcp : ℕ) (o : Obs) : Prop :=
  (∀ n ∈ o.tcp, n ≤ tcp) ∧ (∀ id n, o ≠ .parked id n) ∧ ∀ n, o ≠ .established n

/-- An act that leaves the registration alone. -/
theorem Shape.of_same (hl : Shape l) (noted : List Obs) (hhistory : l'.history = noted ++ l.history)
    (hnoted : ∀ o ∈ noted, Plain l.tcp o) (hkernel : l'.kernel = [])
    (hself : l'.self = l.self) (hfd : l'.c.fd = l.c.fd) (htcp : l'.tcp = l.tcp)
    (howner : l'.files.owner = l.files.owner)
    (hevents : l'.thread.loop.events = l.thread.loop.events)
    (hsetsize : l'.thread.loop.setsize = l.thread.loop.setsize)
    (hnextId : l.thread.loop.timeEventNextId ≤ l'.thread.loop.timeEventNextId)
    (htimers : ∀ id c, l'.thread.loop.Armed id (.delayRequest c) →
      l.thread.loop.Armed id (.delayRequest c)) : Shape l' := by
  have hevent : l'.event = l.event := by rw [Local.event, Local.event, hevents, hfd]
  have hopen : l'.files.isOpen = l.files.isOpen := by
    funext fd
    rw [Files.isOpen, Files.isOpen, howner]
  have hreg : Registered l' ↔ Registered l := by
    constructor
    · rintro ⟨h1, h2, h3, h4, h5⟩
      simp only [hevent, hopen, hfd, hsetsize, hself] at h1 h2 h3 h4 h5
      exact ⟨h1, h2, h3, h4, h5⟩
    · rintro ⟨h1, h2, h3, h4, h5⟩
      simp only [← hevent, ← hopen, ← hfd, ← hsetsize, ← hself] at h1 h2 h3 h4 h5
      exact ⟨h1, h2, h3, h4, h5⟩
  refine ⟨hkernel, fun fd hfd' => ?_, ?_, fun hnone id harmed => ?_, fun id c harmed => ?_,
    fun id n h => ?_, fun o ho n hn => ?_, fun h => ?_⟩
  · rw [hevents]
    exact hl.others fd (hfd ▸ hfd')
  · rw [hevent, hreg]
    exact hl.phase
  · rw [hopen, hfd]
    exact hl.closed (hevent ▸ hnone) id (hself ▸ htimers id _ harmed)
  · obtain ⟨hc, n, hn⟩ := hl.timers id c (htimers id c harmed)
    exact ⟨hc.trans hself.symm, n, hhistory ▸ List.mem_append_right _ hn⟩
  · rw [hhistory] at h
    rcases List.mem_append.mp h with h | h
    · exact absurd rfl ((hnoted _ h).2.1 id n)
    · exact (hl.parked id n h).trans_le hnextId
  · rw [hhistory] at ho
    rw [htcp]
    rcases List.mem_append.mp ho with ho | ho
    · exact (hnoted o ho).1 n hn
    · exact hl.tags o ho n hn
  · rw [hevent, htcp, hl.established (hreg.mp h), hhistory, List.mem_append]
    constructor
    · exact .inr
    · rintro (h | h)
      · exact absurd rfl ((hnoted _ h).2.2 l.tcp)
      · exact h

/-! ## Connecting -/

/-- A connection that is about to call `connect_socket`: nothing is registered for it. -/
structure Down (l : Local) : Prop where
  kernel : l.kernel = []
  unregistered : ∀ fd, (l.thread.loop.events fd).mask = .none
  closed : ∀ id, l.thread.loop.Armed id (.delayRequest l.self) → l.files.isOpen l.c.fd = false
  timers : ∀ id c, l.thread.loop.Armed id (.delayRequest c) →
    c = l.self ∧ ∃ n, .parked id n ∈ l.history
  parked : ∀ id n, .parked id n ∈ l.history → id < l.thread.loop.timeEventNextId
  tags : ∀ o ∈ l.history, ∀ n ∈ o.tcp, n ≤ l.tcp

theorem Registered.rfileProc_register (hfd : fd < l.thread.loop.setsize)
    (hevents : l'.thread = (l.register fd .both .socketConnected).thread)
    (hc : l'.c.fd = fd) (hself : l'.self = l.self) (hopen : l'.files.isOpen fd = true) :
    Registered l' ∧ l'.event.rfileProc = .socketConnected := by
  have hevent : l'.event = (l.register fd .both .socketConnected).thread.loop.events fd := by
    rw [Local.event, hevents, hc]
  have hrproc : l'.event.rfileProc = .socketConnected := by
    rw [hevent, Local.register_rfileProc, if_pos ⟨rfl, rfl⟩]
  refine ⟨⟨hc ▸ hopen, ?_, ?_, ?_, .inl hrproc⟩, hrproc⟩
  · rw [hc, hevents]
    exact hfd
  · rw [hevent, Local.register_clientData, if_pos rfl, hself]
  · rw [hevent, Local.register_mask, if_pos rfl]
    simp [Mask.union, Mask.both]

/-- `connect_socket` gives the connection its shape. -/
theorem Down.shape {again : Bool} (hl : Down l) (h : Local.Connects again l l') : Shape l' := by
  have htags : ∀ o ∈ l'.history, ∀ n ∈ o.tcp, n ≤ l.tcp := by
    obtain ⟨ok, hok⟩ := h.history_eq
    rw [hok]
    intro o ho n hn
    rcases List.mem_cons.mp ho with rfl | ho
    · cases hn
    · exact hl.tags o ho n hn
  have hmem : ∀ o ∈ l.history, o ∈ l'.history := fun o ho => by
    obtain ⟨ok, hok⟩ := h.history_eq
    rw [hok]
    exact List.mem_cons_of_mem _ ho
  have hparked : ∀ id n, .parked id n ∈ l'.history → .parked id n ∈ l.history := by
    obtain ⟨ok, hok⟩ := h.history_eq
    rw [hok]
    simp
  have htimers : ∀ id c, l'.thread.loop.Armed id (.delayRequest c) →
      c = l'.self ∧ ∃ n, .parked id n ∈ l'.history := fun id c harmed => by
    obtain ⟨hc, n, hn⟩ := hl.timers id c (h.armed.mp harmed)
    exact ⟨hc.trans h.self_eq.symm, n, hmem _ hn⟩
  have htags' : ∀ o ∈ l'.history, ∀ n ∈ o.tcp, n ≤ l'.tcp := fun o ho n hn => by
    rw [h.tcp_eq]
    exact (htags o ho n hn).trans (Nat.le_succ _)
  have harmed : ∀ id c, l'.thread.loop.Armed id (.delayRequest c) →
      l.thread.loop.Armed id (.delayRequest c) := fun _ _ => h.armed.mp
  cases h with
  | failed hself hc htcp hhistory hthread howner hkernel haborted =>
    -- nothing is registered, and the descriptor it keeps is closed
    have hloop : l'.thread.loop = l.thread.loop := by rw [hthread]
    have hnone : l'.event.mask = .none := by
      rw [Local.event, hloop]
      exact hl.unregistered _
    refine ⟨hkernel.trans hl.kernel, fun fd _ => hloop ▸ hl.unregistered fd, .inl hnone,
      fun _ id h => ?_, htimers, fun id n h => hloop ▸ hl.parked id n (hparked id n h), htags',
      fun h => absurd hnone h.mask_ne⟩
    rw [Files.isOpen, howner, hc]
    exact hl.closed id (hself ▸ harmed id _ h)
  | opened newFd hself hc htcp hhistory hfree hfd hthread howner hkernel haborted =>
    have hopen : l'.files.isOpen newFd = true := by
      rw [Files.isOpen, howner, Function.update_self]
      rfl
    have hcfd : l'.c.fd = newFd := by rw [hc]
    obtain ⟨hreg, hrproc⟩ := Registered.rfileProc_register hfd hthread hcfd hself hopen
    refine ⟨hkernel.trans hl.kernel, fun fd hne => ?_, .inr hreg, fun h => absurd h hreg.mask_ne,
      htimers, fun id n h => ?_, htags', fun _ => ?_⟩
    · rw [hthread, Local.register_mask, if_neg (hcfd ▸ hne)]
      exact hl.unregistered fd
    · rw [hthread]
      exact hl.parked id n (hparked id n h)
    · -- neither side holds yet: the TCP connection is newer than all that was noted
      constructor
      · intro h
        rw [hrproc] at h
        cases h
      · intro h
        have := htags _ h l'.tcp rfl
        omega

theorem Registered.calls (h : Registered l) : ∃ proc, l.Calls l.c.fd false proc := by
  refine ⟨l.event.rfileProc, ?_, h.clientData⟩
  have hreadable : (l.thread.loop.events l.c.fd).mask.readable = true := h.readable
  simp [FileEvent.handler, hreadable, Local.event]

/-- Nothing is registered before the first `connect_socket`. -/
theorem Shape.unregistered_of_tcp (hl : Shape l) (hbasic : Basic l) (htcp : l.tcp = 0) (fd : Fd) :
    (l.thread.loop.events fd).mask = .none := by
  by_cases hfd : fd = l.c.fd
  · subst hfd
    rcases hl.phase with hnone | hreg
    · exact hnone
    · obtain ⟨proc, hcalls⟩ := hreg.calls
      exact absurd htcp (hbasic.tcp_of_calls hcalls)
  · exact hl.others fd hfd

theorem Shape.down_begun (hl : Shape l) (hbasic : Basic l) (htcp : l.tcp = 0) (now : Micros) :
    Down (l.begun now) where
  kernel := hl.kernel
  unregistered := hl.unregistered_of_tcp hbasic htcp
  closed := fun id harmed => absurd htcp (hbasic.tcp_of_timers harmed)
  timers := fun id c harmed => by
    obtain ⟨hc, n, hn⟩ := hl.timers id c harmed
    exact ⟨hc, n, List.mem_cons_of_mem _ hn⟩
  parked := fun id n h => hl.parked id n (by simpa [Local.begun] using h)
  tags := fun o ho n hn => by
    rcases List.mem_cons.mp ho with rfl | ho
    · cases hn
    · exact hl.tags o ho n hn

theorem Mask.diff_both (m : Mask) : m.diff .both = .none := by
  simp [Mask.diff, Mask.both, Mask.none]

theorem Shape.down_dropped (hl : Shape l) : Down l.dropped where
  kernel := hl.kernel
  unregistered := fun fd => by
    rw [Local.dropped_thread, Local.deleteFileEvent_mask]
    split_ifs with h
    · exact Mask.diff_both _
    · by_cases hfd : fd = l.c.fd
      · subst hfd
        rcases hl.phase with hnone | hreg
        · exact hnone
        · exact absurd ⟨rfl, hreg.lt_setsize⟩ h
      · exact hl.others fd hfd
  closed := fun _ _ => by simp [Files.isOpen]
  timers := fun id c harmed => by
    obtain ⟨hc, n, hn⟩ := hl.timers id c (by simpa using harmed)
    exact ⟨hc, n, List.mem_cons_of_mem _ hn⟩
  parked := fun id n h => by
    simpa using hl.parked id n (by simpa using h)
  tags := fun o ho n hn => by
    rcases List.mem_cons.mp ho with rfl | ho
    · cases hn
    · exact hl.tags o ho n hn

/-! ## Acts that change the registration -/

/-- The shape of a connection that stays registered. -/
theorem Shape.of_registered (hl : Shape l) (hreg : Registered l')
    (hkernel : l'.kernel = []) (hself : l'.self = l.self) (hfd : l'.c.fd = l.c.fd)
    (hothers : ∀ fd, fd ≠ l.c.fd → (l'.thread.loop.events fd).mask =
      (l.thread.loop.events fd).mask)
    (htimers : ∀ id c, l'.thread.loop.Armed id (.delayRequest c) →
      l.thread.loop.Armed id (.delayRequest c) ∨ (c = l.self ∧ .parked id l.tcp ∈ l'.history))
    (hsuffix : l.history <:+ l'.history)
    (hparked : ∀ id n, .parked id n ∈ l'.history → id < l'.thread.loop.timeEventNextId)
    (htags : ∀ o ∈ l'.history, ∀ n ∈ o.tcp, n ≤ l'.tcp)
    (hestablished : l'.event.rfileProc = .socketReadable ↔ .established l'.tcp ∈ l'.history) :
    Shape l' := by
  refine ⟨hkernel, fun fd hne => ?_, .inr hreg, fun h => absurd h hreg.mask_ne, fun id c h => ?_,
    hparked, htags, fun _ => hestablished⟩
  · rw [hothers fd (hfd ▸ hne)]
    exact hl.others fd (hfd ▸ hne)
  · rcases htimers id c h with h | ⟨hc, hmem⟩
    · obtain ⟨hc, n, hn⟩ := hl.timers id c h
      exact ⟨hc.trans hself.symm, n, hsuffix.subset hn⟩
    · exact ⟨hc.trans hself.symm, l.tcp, hmem⟩

/-- The file event once the write handler is registered. -/
def Local.writeEvent (l : Local) : FileEvent :=
  { l.event with
    mask := l.event.mask.union .write
    wfileProc := .socketWriteable
    clientData := l.self }

/-- The file event once the write handler is deregistered. -/
def Local.readEvent (l : Local) : FileEvent :=
  { l.event with mask := l.event.mask.diff .write }

theorem Registered.createFileEvent_eq (h : Registered l) (hkernel : l.kernel = []) (mask : Mask)
    (proc : FileProc) :
    l.createFileEvent l.c.fd mask proc = (true, l.register l.c.fd mask proc) :=
  Local.createFileEvent_eq hkernel h.isOpen h.lt_setsize

theorem Registered.writeEvent_eq (h : Registered l) (hkernel : l.kernel = []) :
    (l.createFileEvent l.c.fd .write .socketWriteable).2.thread.loop.events l.c.fd =
      l.writeEvent := by
  rw [h.createFileEvent_eq hkernel, Local.register_events, if_pos rfl]
  rfl

theorem Registered.readEvent_eq (h : Registered l) :
    (l.deleteFileEvent l.c.fd .write).thread.loop.events l.c.fd = l.readEvent := by
  rw [Local.deleteFileEvent_events, if_pos ⟨rfl, h.lt_setsize⟩]
  rfl

theorem createFileEvent_others {mask : Mask} (fd' : Fd) (hne : fd' ≠ fd) :
    (l.createFileEvent fd mask proc).2.thread.loop.events fd' = l.thread.loop.events fd' := by
  rcases Local.createFileEvent_cases l fd mask proc with h | ⟨-, -, h⟩ <;> rw [h]
  rw [Local.register_events, if_neg hne]

theorem deleteFileEvent_others {mask : Mask} (fd' : Fd) (hne : fd' ≠ fd) :
    (l.deleteFileEvent fd mask).thread.loop.events fd' = l.thread.loop.events fd' := by
  rw [Local.deleteFileEvent_events, if_neg fun h => hne h.1]

/-- Registering the write handler keeps the connection registered. -/
theorem Registered.of_writeEvent (h : Registered l) (hwrite : l'.event = l.writeEvent)
    (hfd : l'.c.fd = l.c.fd) (hself : l'.self = l.self)
    (howner : l'.files.owner = l.files.owner)
    (hsetsize : l'.thread.loop.setsize = l.thread.loop.setsize) : Registered l' := by
  refine ⟨?_, ?_, ?_, ?_, ?_⟩
  · rw [Files.isOpen, howner, hfd]
    exact h.isOpen
  · rw [hfd, hsetsize]
    exact h.lt_setsize
  · rw [hwrite, hself]
    rfl
  · rw [hwrite]
    simp [Local.writeEvent, Mask.union, h.readable]
  · rw [hwrite]
    exact h.handlers.imp id fun h => ⟨h.1, rfl⟩

/-- Deregistering the write handler keeps the connection registered. -/
theorem Registered.of_readEvent (h : Registered l) (hread : l'.event = l.readEvent)
    (hfd : l'.c.fd = l.c.fd) (hself : l'.self = l.self)
    (howner : l'.files.owner = l.files.owner)
    (hsetsize : l'.thread.loop.setsize = l.thread.loop.setsize) : Registered l' := by
  refine ⟨?_, ?_, ?_, ?_, ?_⟩
  · rw [Files.isOpen, howner, hfd]
    exact h.isOpen
  · rw [hfd, hsetsize]
    exact h.lt_setsize
  · rw [hread, hself]
    exact h.clientData
  · rw [hread]
    simp [Local.readEvent, Mask.diff, Mask.write, h.readable]
  · rw [hread]
    exact h.handlers

theorem park_event {armed : Micros} {wait : ℕ} (h : Registered l) :
    (park l.c.fd armed wait l).event = l.readEvent := by
  rw [Local.event, park_loop, park_c]
  exact h.readEvent_eq

theorem resume_event {id : ℕ} (h : Registered l) (hkernel : l.kernel = []) :
    (resume id l).event = l.writeEvent := by
  rw [Local.event, resume_loop, resume_c]
  exact h.writeEvent_eq hkernel

theorem acceptBytes_event {n : ℕ} (h : Registered l) : (acceptBytes n l.c.fd l).event =
    if l.c.written + (accepted n l.c).length = l.c.request.length then l.readEvent
    else l.event := by
  rw [Local.event, acceptBytes_loop, acceptBytes_c]
  split_ifs
  · exact h.readEvent_eq
  · rfl

theorem respond_event {i : CompleteInput} (h : Registered l) (hkernel : l.kernel = []) :
    (respond S i l).event =
      if l.thread.stopAt ≤ i.now then l.event
      else if Word.sub64 l.c.pending 1 = 0 then l.writeEvent else l.event := by
  have hfd : (respond S i l).c.fd = l.c.fd := by
    rw [respond_c]
    split_ifs <;> simp
  rw [Local.event, respond_loop, hfd]
  split_ifs
  · rfl
  · exact h.writeEvent_eq hkernel
  · rfl

theorem openSocket_event (h : Registered l) (hkernel : l.kernel = []) :
    (openSocket l.c.fd l).event =
      { mask := (l.event.mask.union .read).union .write
        rfileProc := .socketReadable
        wfileProc := .socketWriteable
        clientData := l.self } := by
  have hread := h.createFileEvent_eq hkernel .read .socketReadable
  have hwrite : (l.register l.c.fd .read .socketReadable).createFileEvent l.c.fd .write
      .socketWriteable =
        (true, (l.register l.c.fd .read .socketReadable).register l.c.fd .write
          .socketWriteable) := by
    refine Local.createFileEvent_eq ?_ h.isOpen h.lt_setsize
    rw [Local.register_kernel, hkernel, List.tail_nil]
  rw [Local.event, openSocket_loop, openSocket_c, hread, hwrite]
  simp [Local.register_events, Mask.read, Mask.write, Local.event]

theorem acceptBytes_setsize {n : ℕ} :
    (acceptBytes n fd l).thread.loop.setsize = l.thread.loop.setsize := by
  rw [acceptBytes_loop]
  split_ifs <;> simp

theorem acceptBytes_nextId {n : ℕ} : (acceptBytes n fd l).thread.loop.timeEventNextId =
    l.thread.loop.timeEventNextId := by
  rw [acceptBytes_loop]
  split_ifs <;> simp

theorem respond_setsize {i : CompleteInput} :
    (respond S i l).thread.loop.setsize = l.thread.loop.setsize := by
  rw [respond_loop]
  split_ifs <;> simp [aeStop]

theorem respond_nextId {i : CompleteInput} : (respond S i l).thread.loop.timeEventNextId =
    l.thread.loop.timeEventNextId := by
  rw [respond_loop]
  split_ifs <;> simp [aeStop]

/-- The entries that are noted of the current TCP connection or of none. -/
theorem tags_append (hl : Shape l) (noted : List Obs) (hhistory : l'.history = noted ++ l.history)
    (htcp : l'.tcp = l.tcp) (hnoted : ∀ o ∈ noted, ∀ n ∈ o.tcp, n ≤ l.tcp) :
    ∀ o ∈ l'.history, ∀ n ∈ o.tcp, n ≤ l'.tcp := by
  intro o ho n hn
  rw [hhistory] at ho
  rw [htcp]
  rcases List.mem_append.mp ho with ho | ho
  · exact hnoted o ho n hn
  · exact hl.tags o ho n hn

theorem shape_park {armed : Micros} {wait : ℕ} (hl : Shape l)
    (hact : Act S l (park fd armed wait l)) (hcalls : l.Calls fd writable .socketWriteable) :
    Shape (park fd armed wait l) := by
  obtain ⟨rfl, hreg⟩ := hl.fd_of_calls hcalls
  have hevent : (park l.c.fd armed wait l).event = l.readEvent := park_event hreg
  have hreg' : Registered (park l.c.fd armed wait l) :=
    hreg.of_readEvent hevent rfl rfl rfl (by simp [park_loop, aeCreateTimeEvent])
  refine hl.of_registered hreg' hl.kernel rfl rfl (fun fd hne => ?_) (fun id c harmed => ?_)
    hact.history_suffix (fun id n h => ?_) ?_ ?_
  · rw [park_loop]
    exact congrArg FileEvent.mask (deleteFileEvent_others fd hne)
  · rcases hact.armed_delay harmed with h | ⟨hc, -, hmem⟩
    · exact .inl h
    · exact .inr ⟨hc, hmem⟩
  · rw [park_loop]
    simp only [aeCreateTimeEvent, Local.deleteFileEvent_nextId]
    rw [park_history, Local.deleteFileEvent_nextId] at h
    simp only [List.mem_cons, Obs.parked.injEq, reduceCtorEq, false_or] at h
    rcases h with ⟨rfl, -⟩ | h
    · exact Nat.lt_succ_self _
    · exact (hl.parked id n h).trans (Nat.lt_succ_self _)
  · exact tags_append hl [_, _] park_history rfl (by simp [Obs.tcp])
  · rw [hevent, park_history, park_tcp]
    simpa [Local.readEvent] using hl.established hreg

theorem shape_resume {id : ℕ} (hl : Shape l)
    (harmed : l.thread.loop.Armed id (.delayRequest l.self)) : Shape (resume id l) := by
  have htimers : ∀ id' c, (resume id l).thread.loop.Armed id' (.delayRequest c) →
      l.thread.loop.Armed id' (.delayRequest c) := fun id' c h => by
    rw [resume_loop, EventLoop.armed_aeDeleteTimeEvent, Local.armed_createFileEvent] at h
    exact h.1
  rcases hl.phase with hnone | hreg
  · -- Without a registration the descriptor is closed, and nothing can be registered.
    have hclosed := hl.closed hnone id harmed
    have hloop : (resume id l).thread.loop = aeDeleteTimeEvent l.thread.loop id := by
      rw [resume_loop, Local.createFileEvent_closed hclosed]
    refine hl.of_same [_] resume_history (by simp [Plain, Obs.tcp]) (by simp [hl.kernel])
      resume_self (by simp) resume_tcp (by simp) ?_ ?_ ?_ htimers <;> rw [hloop] <;> rfl
  · have hevent : (resume id l).event = l.writeEvent := resume_event hreg hl.kernel
    have hreg' : Registered (resume id l) := hreg.of_writeEvent hevent (by simp) resume_self
      (by simp) (by simp [resume_loop, aeDeleteTimeEvent])
    refine hl.of_registered hreg' (by simp [hl.kernel]) resume_self (by simp) (fun fd hne => ?_)
      (fun id' c h => .inl (htimers id' c h)) ⟨[_], resume_history.symm⟩ (fun id' n h => ?_)
      (tags_append hl [_] resume_history resume_tcp (by simp [Obs.tcp])) ?_
    · rw [resume_loop]
      exact congrArg FileEvent.mask (createFileEvent_others fd hne)
    · rw [resume_loop]
      simpa [aeDeleteTimeEvent] using hl.parked id' n (by simpa using h)
    · rw [hevent, resume_history, resume_tcp]
      simpa [Local.writeEvent] using hl.established hreg

theorem shape_wrote {n : ℕ} (hl : Shape l) (hact : Act S l (acceptBytes n fd l))
    (hcalls : l.Calls fd writable .socketWriteable) : Shape (acceptBytes n fd l) := by
  obtain ⟨rfl, hreg⟩ := hl.fd_of_calls hcalls
  have hfd : (acceptBytes n l.c.fd l).c.fd = l.c.fd := by rw [acceptBytes_c]
  have hnoted : ∃ noted : List Obs, (acceptBytes n l.c.fd l).history = noted ++ l.history ∧
      ∀ o ∈ noted, Plain l.tcp o := by
    rw [acceptBytes_history]
    split_ifs
    · exact ⟨[_, _], rfl, by simp [Plain, Obs.tcp]⟩
    · exact ⟨[_], rfl, by simp [Plain, Obs.tcp]⟩
  obtain ⟨noted, hhistory, hnoted⟩ := hnoted
  have hevent := acceptBytes_event (n := n) hreg
  by_cases hdone : l.c.written + (accepted n l.c).length = l.c.request.length
  · rw [if_pos hdone] at hevent
    have hreg' : Registered (acceptBytes n l.c.fd l) :=
      hreg.of_readEvent hevent hfd acceptBytes_self acceptBytes_owner acceptBytes_setsize
    refine hl.of_registered hreg' (by simp [hl.kernel]) acceptBytes_self hfd (fun fd hne => ?_)
      (fun id c h => .inl ?_) hact.history_suffix (fun id n h => ?_)
      (tags_append hl noted hhistory acceptBytes_tcp fun o ho => (hnoted o ho).1) ?_
    · rw [acceptBytes_loop, if_pos hdone]
      exact congrArg FileEvent.mask (deleteFileEvent_others fd hne)
    · rw [acceptBytes_loop, if_pos hdone] at h
      simpa using h
    · rw [acceptBytes_nextId]
      rw [hhistory] at h
      exact hl.parked id n ((List.mem_append.mp h).resolve_left fun h => (hnoted _ h).2.1 _ _ rfl)
    · rw [hevent, hhistory, acceptBytes_tcp]
      have hnew : .established l.tcp ∉ noted := fun h => (hnoted _ h).2.2 _ rfl
      simpa [Local.readEvent, hnew] using hl.established hreg
  · have hloop : (acceptBytes n l.c.fd l).thread.loop = l.thread.loop := by
      rw [acceptBytes_loop, if_neg hdone]
    exact hl.of_same noted hhistory hnoted (by simp [hl.kernel]) acceptBytes_self hfd
      acceptBytes_tcp acceptBytes_owner (by rw [hloop]) (by rw [hloop]) (by rw [hloop])
      fun id c h => hloop ▸ h

theorem shape_established (hl : Shape l) (hact : Act S l (openSocket fd l))
    (hcalls : l.Calls fd writable .socketConnected) : Shape (openSocket fd l) := by
  obtain ⟨rfl, hreg, -⟩ := hl.connected_of_calls hcalls
  have hevent := openSocket_event hreg hl.kernel
  have hreg' : Registered (openSocket l.c.fd l) := by
    refine ⟨?_, ?_, ?_, ?_, .inr ?_⟩
    · simpa [Files.isOpen] using hreg.isOpen
    · simpa [openSocket_loop] using hreg.lt_setsize
    · rw [hevent, openSocket_self]
    · rw [hevent]
      simp [Mask.union, hreg.readable]
    · rw [hevent]
      exact ⟨rfl, rfl⟩
  refine hl.of_registered hreg' (by simp [hl.kernel]) openSocket_self (by simp)
    (fun fd hne => ?_) (fun id c h => .inl (by simpa [openSocket_loop] using h))
    hact.history_suffix (fun id n h => ?_)
    (tags_append hl [_] openSocket_history openSocket_tcp (by simp [Obs.tcp])) ?_
  · rw [openSocket_loop, createFileEvent_others fd hne, createFileEvent_others fd hne]
  · simpa [openSocket_loop] using hl.parked id n (by simpa using h)
  · rw [hevent, openSocket_history, openSocket_tcp]
    simp

theorem plain_received {i : CompleteInput} {c : Connection} {tcp : ℕ} :
    ∀ o ∈ delivery i c ++ [.complete tcp i.now i.status, .clock i.now], Plain tcp o := by
  refine forall_received (fun status headers body overread => ?_) ?_ ?_ <;> simp [Plain, Obs.tcp]

theorem plain_measurement {now tcp : ℕ} {c : Connection} :
    ∀ o ∈ measurement S now tcp c, Plain tcp o := by
  refine forall_measurement (fun expected actual => ?_) ?_ (fun start actual timing => ?_) <;>
    simp [Plain, Obs.tcp]

theorem shape_respond {i : CompleteInput} (hl : Shape l) (hact : Act S l (respond S i l))
    (hcalls : l.Calls fd false .socketReadable) : Shape (respond S i l) := by
  obtain ⟨rfl, hreg, -⟩ := hl.readable_of_calls hcalls
  have hfd : (respond S i l).c.fd = l.c.fd := by
    rw [respond_c]
    split_ifs <;> simp
  have hnoted : ∃ noted : List Obs, (respond S i l).history = noted ++ l.history ∧
      ∀ o ∈ noted, Plain l.tcp o := by
    rw [respond_history, deliver_history]
    split_ifs
    · exact ⟨delivery i l.c ++ [.complete l.tcp i.now i.status, .clock i.now], by simp,
        plain_received⟩
    · refine ⟨measurement S i.now l.tcp l.c ++
        (delivery i l.c ++ [.complete l.tcp i.now i.status, .clock i.now]), by simp,
        fun o ho => ?_⟩
      rcases List.mem_append.mp ho with ho | ho
      · exact plain_measurement o ho
      · exact plain_received o ho
  obtain ⟨noted, hhistory, hnoted⟩ := hnoted
  have hnew : .established l.tcp ∉ noted := fun h => (hnoted _ h).2.2 _ rfl
  have hkernel := respond_kernel (S := S) (i := i) hl.kernel
  have hevent := respond_event (S := S) (i := i) hreg hl.kernel
  have hloop := respond_loop (S := S) (i := i) (l := l)
  have htimers : ∀ id c, (respond S i l).thread.loop.Armed id (.delayRequest c) →
      l.thread.loop.Armed id (.delayRequest c) := fun id c h => by
    rw [hloop] at h
    split_ifs at h <;> simpa using h
  by_cases hwrite : ¬ l.thread.stopAt ≤ i.now ∧ Word.sub64 l.c.pending 1 = 0
  · -- the last response of a batch asks for the write event
    rw [if_neg hwrite.1, if_pos hwrite.2] at hevent hloop
    have hreg' : Registered (respond S i l) :=
      hreg.of_writeEvent hevent hfd respond_self respond_owner respond_setsize
    refine hl.of_registered hreg' hkernel respond_self hfd (fun fd hne => ?_)
      (fun id c h => .inl (htimers id c h)) hact.history_suffix (fun id n h => ?_)
      (tags_append hl noted hhistory respond_tcp fun o ho => (hnoted o ho).1) ?_
    · rw [hloop]
      exact congrArg FileEvent.mask (createFileEvent_others fd hne)
    · rw [respond_nextId]
      rw [hhistory] at h
      exact hl.parked id n ((List.mem_append.mp h).resolve_left fun h => (hnoted _ h).2.1 _ _ rfl)
    · rw [hevent, hhistory, respond_tcp]
      simpa [Local.writeEvent, hnew] using hl.established hreg
  · have hevents : (respond S i l).thread.loop.events = l.thread.loop.events := by
      rw [hloop]
      split_ifs with hstop hlast
      · rfl
      · exact absurd ⟨hstop, hlast⟩ hwrite
      · rfl
    exact hl.of_same noted hhistory hnoted hkernel respond_self hfd respond_tcp respond_owner
      hevents respond_setsize respond_nextId.ge htimers

/-- A connection that has a thread of its own. -/
structure Alone (l : Local) : Prop where
  basic : Basic l
  first : FirstConnect l
  shape : Shape l

theorem Act.shape (hact : Act S l l') (hl : Alone l) : Shape l' := by
  -- most acts touch neither the registration nor the thread
  have hsame : ∀ noted : List Obs, l'.history = noted ++ l.history →
      (∀ o ∈ noted, Plain l.tcp o) → l'.kernel = l.kernel → l'.self = l.self → l'.c.fd = l.c.fd →
      l'.tcp = l.tcp → l'.files = l.files → l'.thread = l.thread → Shape l' := by
    intro noted hhistory hnoted hkernel hself hfd htcp hfiles hthread
    refine hl.shape.of_same noted hhistory hnoted (hkernel.trans hl.shape.kernel) hself hfd htcp
      ?_ ?_ ?_ ?_ ?_
    · rw [hfiles]
    · rw [hthread]
    · rw [hthread]
    · rw [hthread]
    · exact fun id c h => hthread ▸ h
  cases hact with
  | tick now => exact hsame [_] rfl (by simp [Plain, Obs.tcp]) rfl rfl rfl rfl rfl rfl
  | thread t hframe =>
    exact hl.shape.of_same [] rfl (by simp) hl.shape.kernel rfl rfl rfl rfl hframe.events
      hframe.setsize hframe.nextId hframe.delay
  | fail | parser => exact hsame [] rfl (by simp) rfl rfl rfl rfl rfl rfl
  | initial id now i harmed =>
    have hdown := hl.shape.down_begun hl.basic (hl.first id _ harmed).2 now
    have hshape := hdown.shape (Local.initialConnect_connects now i l)
    exact hshape.of_same [] rfl (by simp) hshape.kernel rfl rfl rfl rfl rfl rfl le_rfl
      fun id' c h => (EventLoop.armed_aeDeleteTimeEvent.mp h).1
  | reconnect i hconnected =>
    exact hl.shape.down_dropped.shape (Local.reconnectSocket_connects i l)
  | paced now =>
    obtain ⟨noted, hhistory, hnoted⟩ := usecToNextSend_history S now l
    refine hsame (noted ++ [.clock now]) (by simp [hhistory]) ?_ (by simp) (by simp) ?_ (by simp)
      (by simp) (by simp)
    · rcases hnoted with rfl | rfl | rfl <;> simp [Plain, Obs.tcp]
    · rw [usecToNextSend_c]
  | park fd writable armed wait hcalls hwritten =>
    exact shape_park hl.shape (Act.park (S := S) l fd writable armed wait hcalls hwritten) hcalls
  | resume id harmed => exact shape_resume hl.shape harmed
  | start fd writable i hcalls hwritten hclock hpermits =>
    have hhistory := startBatch_history (S := S) (i := i) (l := l)
    split_ifs at hhistory
    · exact hsame [_, _, _] hhistory (by simp [Plain, Obs.tcp]) (by simp) (by simp)
        (by rw [startBatch_c]) (by simp) (by simp) (by simp)
    · exact hsame [_, _] hhistory (by simp [Plain, Obs.tcp]) (by simp) (by simp)
        (by rw [startBatch_c]) (by simp) (by simp) (by simp)
  | wrote fd writable n hcalls hbatch =>
    exact shape_wrote hl.shape (Act.wrote (S := S) l fd writable n hcalls hbatch) hcalls
  | refuse fd writable hcalls hbatch =>
    exact hsame [_] rfl (by simp [Plain, Obs.tcp]) rfl rfl rfl rfl rfl rfl
  | established fd writable hcalls =>
    exact shape_established hl.shape (Act.established (S := S) l fd writable hcalls) hcalls
  | field fd piece hcalls hwant =>
    exact hsame [_] rfl (by simp [Plain, Obs.tcp]) rfl rfl (by rw [headerField_c]) rfl rfl rfl
  | value fd piece hcalls hwant =>
    exact hsame [_] rfl (by simp [Plain, Obs.tcp]) rfl rfl (by rw [headerValue_c]) rfl rfl rfl
  | body fd piece hcalls hwant =>
    exact hsame [_] rfl (by simp [Plain, Obs.tcp]) rfl rfl rfl rfl rfl rfl
  | respond fd i hcalls => exact shape_respond hl.shape (Act.respond l fd i hcalls) hcalls

theorem Act.alone (hact : Act S l l') (hl : Alone l) : Alone l' :=
  ⟨hact.basic hl.basic, hact.firstConnect hl.first, hact.shape hl⟩

end Acts

/-! ## Runs -/

theorem Start.firstConnect (start : Start) : FirstConnect start.local := by
  intro id c harmed
  simp only [Start.local, startThread, armed_startLoop] at harmed
  obtain ⟨slot, hslot, rfl, -⟩ | ⟨-, hproc⟩ | ⟨-, hproc⟩ := harmed
  · exact ⟨by omega, rfl⟩
  · cases hproc
  · cases hproc

theorem Start.alone (start : Start) : Alone start.local := by
  have hnone : ∀ fd, (start.local.thread.loop.events fd).mask = .none := fun fd => by
    simp [Start.local, startThread, aeCreateEventLoop]
  have htimers : ∀ id c, ¬ start.local.thread.loop.Armed id (.delayRequest c) := by
    intro id c harmed
    simp [Start.local, startThread, armed_startLoop] at harmed
  refine ⟨start.basic, start.firstConnect, rfl, fun fd _ => hnone fd, .inl (hnone _),
    fun _ id h => absurd h (htimers id _), fun id c h => absurd h (htimers id c), ?_, ?_,
    fun h => absurd (hnone _) h.mask_ne⟩
  · simp [Start.local]
  · simp [Start.local]

/-- What every act of a connection with a thread of its own preserves, under a condition on
    the history, holds after every run whose history meets the condition. -/
theorem Start.run_alone {S : Setting} {start : Start} {moves : List Move} {l : Local}
    {C : List Obs → Prop} {I : Local → Prop} (hC : History.Backward C)
    (hact : ∀ l l', Act S l l' → Alone l → C l'.history → I l → I l')
    (h : start.run S moves = some l) (hc : C l.history) (hstart : I start.local) :
    Alone l ∧ I l :=
  Start.run_preserves_under (I := fun l => Alone l ∧ I l) hC
    (fun _ _ h hc hl => ⟨h.alone hl.1, hact _ _ h hl.1 hc hl.2⟩) h hc ⟨start.alone, hstart⟩

end Wrkx
