import Wrkx.Connection.Streams

/-!
# Taking turns

A connection sends one batch of `pipeline` requests at a time and waits for all its responses
before it starts the next one. `c->pending`, `c->written`, the write handler and the timer of
`delay_request` keep that order: on each TCP connection either a batch is being written, or
responses are owed and nothing can start a batch, or nothing is owed. The order breaks when
the timer of an earlier TCP connection registers the write handler for the current one.

## Main results

- `Stage.of_writeable` — what `socket_writeable` finds
- `Act.turns` — every act keeps the turns, as long as no response comes unasked
-/

namespace Wrkx

open History

/-! ## Assumptions on a run -/

/-- A time event that finds the send due was armed on the current TCP connection. -/
def ResumesOwn (o : Obs) (older : List Obs) : Prop :=
  ∀ timer ∈ o.resumedOn, .parked timer.1 timer.2 ∈ older

instance (o : Obs) (older : List Obs) : Decidable (ResumesOwn o older) :=
  inferInstanceAs (Decidable (∀ timer ∈ o.resumedOn, .parked timer.1 timer.2 ∈ older))

/-! ## The invariant -/

/-- A time event of the current TCP connection is armed. -/
def Live (l : Local) (id : ℕ) : Prop :=
  l.thread.loop.Armed id (.delayRequest l.self) ∧ .parked id l.tcp ∈ l.history

/-- A batch of `k` requests is on its way. -/
structure Sending (k : ℕ) (l : Local) : Prop where
  opened : .established l.tcp ∈ l.history
  written : 0 < l.c.written
  length : l.c.written < l.c.request.length
  pending : l.c.pending + counted l.tcp l.history = k * begun l.tcp l.history
  calm : ∀ id, ¬ Live l id

/-- No batch is on its way. -/
structure Resting (k : ℕ) (l : Local) : Prop where
  opened : .established l.tcp ∈ l.history
  unwritten : l.c.written = 0
  counted_le : counted l.tcp l.history ≤ k * begun l.tcp l.history
  pending : counted l.tcp l.history < k * begun l.tcp l.history →
    l.c.pending + counted l.tcp l.history = k * begun l.tcp l.history
  waits : counted l.tcp l.history < k * begun l.tcp l.history → l.event.mask.writable = false
  live : ∀ id, Live l id → l.event.mask.writable = false ∧
    counted l.tcp l.history = k * begun l.tcp l.history ∧ ∀ id', Live l id' → id' = id
  begun : ∀ now complete older, l.history = .batchStart l.tcp now complete :: older →
    l.c.pending = k

/-- The stage of the current TCP connection. -/
inductive Stage (k : ℕ) (l : Local) : Prop
  | connecting (hfresh : ∀ o ∈ l.history, Elsewhere l.tcp o)
      (hwrite : Registered l → l.event.wfileProc = .socketConnected)
  | sending (hsending : Sending k l)
  | resting (hresting : Resting k l)

/-- A connection takes turns with its server. -/
structure Turns (k : ℕ) (l : Local) : Prop where
  stage : Stage k l
  counted_le : ∀ n, counted n l.history ≤ answered n l.history

variable {k : ℕ} {S : Setting} {l l' : Local} {fd : Fd} {writable : Bool}

/-- `socket_writeable` is called for the writing side only. -/
theorem Shape.writeable_of_calls (hl : Shape l) (h : l.Calls fd writable .socketWriteable) :
    fd = l.c.fd ∧ Registered l ∧ l.event.mask.writable = true ∧
      l.event.wfileProc = .socketWriteable := by
  obtain ⟨rfl, hreg⟩ := hl.fd_of_calls h
  have hhandler := h.1
  simp only [FileEvent.handler] at hhandler
  split_ifs at hhandler with hdirection hmask hmask
  · exact ⟨rfl, hreg, hmask, Option.some.inj hhandler⟩
  · rcases hreg.handlers with hread | ⟨hread, -⟩ <;>
      exact absurd (hread.symm.trans (Option.some.inj hhandler)) (by simp)

/-- A batch is written from a connection that rests with nothing owed, or goes on with one that
    is on its way. -/
theorem Stage.of_writeable (h : Stage k l) (hl : Shape l)
    (hcalls : l.Calls fd writable .socketWriteable) :
    Sending k l ∨ (Resting k l ∧ counted l.tcp l.history = k * begun l.tcp l.history ∧
      ∀ id, ¬ Live l id) := by
  obtain ⟨rfl, hreg, hmask, hwrite⟩ := hl.writeable_of_calls hcalls
  cases h with
  | connecting hfresh hconnecting =>
    rw [hconnecting hreg] at hwrite
    cases hwrite
  | sending hsending => exact .inl hsending
  | resting hresting =>
    refine .inr ⟨hresting, ?_, fun id hlive => ?_⟩
    · by_contra hne
      rw [hresting.waits (lt_of_le_of_ne hresting.counted_le hne)] at hmask
      cases hmask
    · rw [(hresting.live id hlive).1] at hmask
      cases hmask

/-- A batch starts from a connection that rests with nothing owed. -/
theorem Stage.of_unwritten (h : Stage k l) (hl : Shape l)
    (hcalls : l.Calls fd writable .socketWriteable) (hwritten : l.c.written = 0) :
    Resting k l ∧ counted l.tcp l.history = k * Wrkx.begun l.tcp l.history ∧
      ∀ id, ¬ Live l id :=
  (h.of_writeable hl hcalls).resolve_left fun hsending => hsending.written.ne' hwritten

/-! ## Acts that leave the turns alone -/

/-- An entry that neither writes, starts or finishes a batch nor counts a response. -/
structure Silent (n : ℕ) (o : Obs) : Prop where
  acceptedOn : o.acceptedOn n = []
  completes : o.completes n = false
  decrements : o.decrements n = false
  begins : o.begins n = false
  writtenWhole : ∀ h, writtenWhole n (o :: h) = Wrkx.writtenWhole n h
  startedOn : o.startedOn = none
  decremented : o.decremented = none
  writes : o.writes = none

theorem Silent.of_untagged {n : ℕ} {o : Obs} (ho : o.tcp = none) : Silent n o where
  acceptedOn := (Elsewhere.of_none ho).acceptedOn
  completes := (Elsewhere.of_none ho).completes
  decrements := (Elsewhere.of_none ho).decrements
  begins := (Elsewhere.of_none ho).begins
  writtenWhole := fun _ => (Elsewhere.of_none ho).writtenWhole
  startedOn := by cases o <;> first | rfl | cases ho
  decremented := by cases o <;> first | rfl | cases ho
  writes := by cases o <;> first | rfl | cases ho

theorem silent_established {n tcp : ℕ} : Silent n (.established tcp) :=
  ⟨rfl, rfl, rfl, rfl, fun _ => rfl, rfl, rfl, rfl⟩

theorem silent_parked {n id tcp : ℕ} : Silent n (.parked id tcp) :=
  ⟨rfl, rfl, rfl, rfl, fun _ => rfl, rfl, rfl, rfl⟩

theorem silent_resumed {n id tcp : ℕ} {connecting : Bool} : Silent n (.resumed id tcp connecting) :=
  ⟨rfl, rfl, rfl, rfl, fun _ => rfl, rfl, rfl, rfl⟩

/-- What is read off a history that grew by silent entries. -/
structure Same (h' h : List Obs) : Prop where
  stream : ∀ n, stream n h' = stream n h
  answered : ∀ n, answered n h' = answered n h
  counted : ∀ n, counted n h' = counted n h
  begun : ∀ n, begun n h' = begun n h
  starts : ∀ n, starts n h' = starts n h
  writtenWhole : ∀ n, writtenWhole n h' = writtenWhole n h
  silent : ∃ noted, h' = noted ++ h ∧ ∀ o ∈ noted,
    o.startedOn = none ∧ o.decremented = none ∧ o.writes = none

/-- Where a batch was just started nothing was added. -/
theorem Same.unstarted {h h' : List Obs} (hsame : Same h' h) (o : Obs) (older : List Obs)
    (hhead : h' = o :: older) (hstarted : o.startedOn ≠ none) : h' = h := by
  obtain ⟨noted, hhistory, hnoted⟩ := hsame.silent
  cases noted with
  | nil => exact hhistory
  | cons o' noted =>
    obtain ⟨rfl, -⟩ := List.cons.inj (hhistory.symm.trans hhead)
    exact absurd (hnoted o' (by simp)).1 hstarted

theorem Same.of_silent {noted h : List Obs} (hnoted : ∀ o ∈ noted, ∀ n, Silent n o) :
    Same (noted ++ h) h where
  stream := fun n => stream_append_of_none fun o ho => (hnoted o ho n).acceptedOn
  answered := fun n => answered_append_of_none fun o ho => (hnoted o ho n).completes
  counted := fun n => counted_append_of_none fun o ho => (hnoted o ho n).decrements
  begun := fun n => begun_append_of_none fun o ho => (hnoted o ho n).begins
  starts := fun n => starts_append_of_none fun o ho => startsOn_eq_nil (hnoted o ho n).begins
  writtenWhole := fun n => by
    induction noted with
    | nil => rfl
    | cons o noted ih =>
      rw [List.cons_append, (hnoted o (by simp) n).writtenWhole]
      exact ih fun o ho => hnoted o (by simp [ho])
  silent := ⟨noted, rfl, fun o ho =>
    ⟨(hnoted o ho 0).startedOn, (hnoted o ho 0).decremented, (hnoted o ho 0).writes⟩⟩

/-- What an act that leaves the turns alone keeps. -/
structure Aside (l l' : Local) (noted : List Obs) : Prop where
  history : l'.history = noted ++ l.history
  untagged : ∀ o ∈ noted, o.tcp = none
  self : l'.self = l.self
  tcp : l'.tcp = l.tcp
  fd : l'.c.fd = l.c.fd
  request : l'.c.request = l.c.request
  written : l'.c.written = l.c.written
  pending : l'.c.pending = l.c.pending
  owner : l'.files.owner = l.files.owner
  events : l'.thread.loop.events = l.thread.loop.events
  setsize : l'.thread.loop.setsize = l.thread.loop.setsize
  timers : ∀ id c, l'.thread.loop.Armed id (.delayRequest c) →
    l.thread.loop.Armed id (.delayRequest c)

section Aside

variable {noted : List Obs}

theorem Aside.same (h : Aside l l' noted) : Same l'.history l.history := by
  rw [h.history]
  exact .of_silent fun o ho n => .of_untagged (h.untagged o ho)

theorem Aside.mem_iff (h : Aside l l' noted) {o : Obs} (ho : o.tcp ≠ none) :
    o ∈ l'.history ↔ o ∈ l.history := by
  rw [h.history, List.mem_append]
  exact or_iff_right fun hmem => ho (h.untagged o hmem)

theorem Aside.event (h : Aside l l' noted) : l'.event = l.event := by
  rw [Local.event, Local.event, h.events, h.fd]

theorem Aside.registered (h : Aside l l' noted) (hl : Registered l') : Registered l := by
  obtain ⟨hopen, hsetsize, hdata, hread, hhandlers⟩ := hl
  rw [Files.isOpen, h.owner, h.fd] at hopen
  rw [h.fd, h.setsize] at hsetsize
  rw [h.event] at hdata hread hhandlers
  rw [h.self] at hdata
  exact ⟨hopen, hsetsize, hdata, hread, hhandlers⟩

theorem Aside.live (h : Aside l l' noted) {id : ℕ} (hl : Live l' id) : Live l id := by
  rw [Live, h.self, h.tcp] at hl
  exact ⟨h.timers id _ hl.1, (h.mem_iff (by simp [Obs.tcp])).mp hl.2⟩

theorem Sending.of_aside (hl : Sending k l) (h : Aside l l' noted) : Sending k l' where
  opened := by
    rw [h.tcp]
    exact (h.mem_iff (by simp [Obs.tcp])).mpr hl.opened
  written := by
    rw [h.written]
    exact hl.written
  length := by
    rw [h.written, h.request]
    exact hl.length
  pending := by
    rw [h.tcp, h.same.counted, h.same.begun, h.pending]
    exact hl.pending
  calm := fun id hlive => hl.calm id (h.live hlive)

theorem Resting.of_aside (hl : Resting k l) (h : Aside l l' noted) : Resting k l' := by
  refine ⟨?_, ?_, ?_, ?_, ?_, fun id hlive => ?_, fun now complete older hhead => ?_⟩
  · rw [h.tcp]
    exact (h.mem_iff (by simp [Obs.tcp])).mpr hl.opened
  · rw [h.written, hl.unwritten]
  · rw [h.tcp, h.same.counted, h.same.begun]
    exact hl.counted_le
  · rw [h.tcp, h.same.counted, h.same.begun, h.pending]
    exact hl.pending
  · rw [h.tcp, h.same.counted, h.same.begun, h.event]
    exact hl.waits
  · obtain ⟨hmask, hcounted, hunique⟩ := hl.live id (h.live hlive)
    rw [h.tcp, h.same.counted, h.same.begun, h.event]
    exact ⟨hmask, hcounted, fun id' hlive' => hunique id' (h.live hlive')⟩
  · rw [h.pending]
    rw [h.tcp] at hhead
    exact hl.begun now complete older
      ((h.same.unstarted _ _ hhead (by simp [Obs.startedOn])) ▸ hhead)

theorem Stage.of_aside (hl : Stage k l) (h : Aside l l' noted) : Stage k l' := by
  cases hl with
  | connecting hfresh hwrite =>
    refine .connecting (fun o ho => ?_) fun hreg => ?_
    · rw [h.history] at ho
      rw [h.tcp]
      exact (List.mem_append.mp ho).elim (fun ho => .of_none (h.untagged o ho)) (hfresh o)
    · rw [h.event]
      exact hwrite (h.registered hreg)
  | sending hsending => exact .sending (hsending.of_aside h)
  | resting hresting => exact .resting (hresting.of_aside h)

end Aside

/-! ## Connecting -/

/-- A new TCP connection carries nothing. -/
theorem Down.fresh {again : Bool} (hl : Down l) (h : Local.Connects again l l') :
    ∀ o ∈ l'.history, Elsewhere l'.tcp o := by
  intro o ho heq
  obtain ⟨ok, hhistory⟩ := h.history_eq
  rw [hhistory] at ho
  rcases List.mem_cons.mp ho with rfl | ho
  · cases heq
  · have hle := hl.tags o ho _ heq
    rw [h.tcp_eq] at hle
    omega

/-- A connection that is about to connect is written by `socket_connected`. -/
theorem Down.wfileProc {again : Bool} (hl : Down l) (h : Local.Connects again l l')
    (hreg : Registered l') : l'.event.wfileProc = .socketConnected := by
  cases h with
  | failed hself hc htcp hhistory hthread =>
    have hnone : l'.event.mask = .none := by
      rw [Local.event, hthread]
      exact hl.unregistered _
    exact absurd hnone hreg.mask_ne
  | opened newFd hself hc htcp hhistory hfree hfd hthread =>
    rw [Local.event, hthread, hc, Local.register_wfileProc, if_pos ⟨rfl, rfl⟩]

theorem Down.stage {again : Bool} (hl : Down l) (h : Local.Connects again l l') : Stage k l' :=
  .connecting (hl.fresh h) (hl.wfileProc h)

/-- `socket_connected` finds a TCP connection that carried nothing. -/
theorem Stage.of_connected (hl : Stage k l) (hshape : Shape l)
    (hcalls : l.Calls fd writable .socketConnected) : ∀ o ∈ l.history, Elsewhere l.tcp o := by
  obtain ⟨rfl, hreg, hread⟩ := hshape.connected_of_calls hcalls
  have hnew : .established l.tcp ∉ l.history := fun h => by
    rw [(hshape.established hreg).mpr h] at hread
    cases hread
  cases hl with
  | connecting hfresh hwrite => exact hfresh
  | sending hsending => exact absurd hsending.opened hnew
  | resting hresting => exact absurd hresting.opened hnew

theorem openSocket_same : Same (openSocket fd l).history l.history := by
  rw [openSocket_history]
  exact .of_silent fun o ho n => List.mem_singleton.mp ho ▸ silent_established

/-- A TCP connection that is open has nothing in flight. -/
theorem Stage.openSocket (hl : Stage k l) (hshape : Shape l)
    (hcalls : l.Calls fd writable .socketConnected) : Stage k (openSocket fd l) := by
  have hfresh := hl.of_connected hshape hcalls
  have hsame : Same (Wrkx.openSocket fd l).history l.history := openSocket_same
  have hcounted : counted l.tcp (Wrkx.openSocket fd l).history = 0 :=
    (hsame.counted l.tcp).trans (counted_eq_zero hfresh)
  have hbegun : Wrkx.begun l.tcp (Wrkx.openSocket fd l).history = 0 :=
    (hsame.begun l.tcp).trans (begun_eq_zero hfresh)
  refine .resting ⟨?_, ?_, ?_, ?_, ?_, fun id hlive => ?_, ?_⟩
  all_goals try rw [openSocket_tcp]
  · rw [openSocket_history]
    exact List.mem_cons_self
  · rw [openSocket_c]
  · exact hcounted.trans_le (Nat.zero_le _)
  · rw [hbegun]
    exact fun h => absurd h (Nat.not_lt_zero _)
  · rw [hbegun]
    exact fun h => absurd h (Nat.not_lt_zero _)
  · -- No timer was armed on a TCP connection that is just open.
    have hparked := hlive.2
    simp only [openSocket_tcp, openSocket_history, List.mem_cons, reduceCtorEq, false_or]
      at hparked
    exact absurd rfl (hfresh _ hparked)
  · rw [openSocket_history]
    simp

/-! ## Timers -/

theorem park_noted (fd : Fd) (armed : Micros) (wait : ℕ) (l : Local) :
    (park fd armed wait l).history =
      [.parked l.thread.loop.timeEventNextId l.tcp, .clock armed] ++ l.history := by
  rw [park_history, Local.deleteFileEvent_nextId]
  rfl

theorem park_same {armed : Micros} {wait : ℕ} :
    Same (park fd armed wait l).history l.history := by
  rw [park_noted]
  refine .of_silent fun o ho n => ?_
  rcases List.mem_cons.mp ho with rfl | ho
  · exact silent_parked
  · obtain rfl := List.mem_singleton.mp ho
    exact .of_untagged rfl

theorem Stage.park (hl : Stage k l) (hshape : Shape l) {armed : Micros} {wait : ℕ}
    (hcalls : l.Calls fd writable .socketWriteable) (hwritten : l.c.written = 0) :
    Stage k (park fd armed wait l) := by
  obtain ⟨rfl, hreg, -, -⟩ := hshape.writeable_of_calls hcalls
  obtain ⟨hresting, hcounted, hcalm⟩ := hl.of_unwritten hshape hcalls hwritten
  have hsame : Same (Wrkx.park l.c.fd armed wait l).history l.history := park_same
  have hmask : (Wrkx.park l.c.fd armed wait l).event.mask.writable = false := by
    rw [park_event hreg]
    simp [Local.readEvent, Mask.diff, Mask.write]
  -- The only timer of the TCP connection is the one just armed.
  have hlive : ∀ id, Live (Wrkx.park l.c.fd armed wait l) id →
      id = l.thread.loop.timeEventNextId := by
    intro id hlive
    obtain ⟨harmed, hparked⟩ := hlive
    rw [park_loop, EventLoop.armed_aeCreateTimeEvent, Local.armed_deleteFileEvent,
      Local.deleteFileEvent_nextId] at harmed
    rcases harmed with ⟨heq, -⟩ | harmed
    · exact heq.symm
    · rw [park_noted, park_tcp] at hparked
      simp only [List.cons_append, List.nil_append, List.mem_cons, Obs.parked.injEq, and_true,
        reduceCtorEq, false_or] at hparked
      exact hparked.resolve_right fun hmem => hcalm id ⟨harmed, hmem⟩
  refine .resting ⟨?_, hwritten, ?_, fun h => ?_, fun _ => hmask, fun id h => ⟨hmask, ?_,
    fun id' h' => (hlive id' h').trans (hlive id h).symm⟩, ?_⟩
  all_goals try rw [park_tcp]
  · rw [park_noted]
    exact List.mem_append_right _ hresting.opened
  · rw [hsame.counted, hsame.begun]
    exact hresting.counted_le
  · rw [park_tcp, hsame.counted, hsame.begun] at h
    exact absurd h (hcounted ▸ lt_irrefl _)
  · rw [hsame.counted, hsame.begun]
    exact hcounted
  · rw [park_noted]
    simp

theorem resume_same {id : ℕ} : Same (resume id l).history l.history := by
  rw [resume_history]
  exact .of_silent  fun o ho n => List.mem_singleton.mp ho ▸ silent_resumed

theorem Stage.resume (hl : Stage k l) {id : ℕ}
    (harmed : l.thread.loop.Armed id (.delayRequest l.self))
    (hown : .parked id l.tcp ∈ l.history) : Stage k (resume id l) := by
  have hlive : Live l id := ⟨harmed, hown⟩
  have hsame : Same (Wrkx.resume id l).history l.history := resume_same
  have hlive' : ∀ id', Live (Wrkx.resume id l) id' → Live l id' ∧ id' ≠ id := by
    intro id' h
    obtain ⟨harmed', hparked⟩ := h
    rw [resume_loop, EventLoop.armed_aeDeleteTimeEvent, Local.armed_createFileEvent,
      resume_self] at harmed'
    rw [resume_history, resume_tcp] at hparked
    exact ⟨⟨harmed'.1, by simpa using hparked⟩, harmed'.2⟩
  cases hl with
  | connecting hfresh => exact absurd rfl (hfresh _ hown)
  | sending hsending => exact absurd hlive (hsending.calm id)
  | resting hresting =>
    obtain ⟨-, hcounted, hunique⟩ := hresting.live id hlive
    have hall : ¬ counted l.tcp (Wrkx.resume id l).history <
        k * Wrkx.begun l.tcp (Wrkx.resume id l).history := by
      rw [hsame.counted, hsame.begun, hcounted]
      exact lt_irrefl _
    refine .resting ⟨?_, ?_, ?_, fun h => ?_, fun h => ?_, fun id' h => ?_, ?_⟩
    all_goals try rw [resume_tcp] at *
    · rw [resume_history]
      exact List.mem_cons_of_mem _ hresting.opened
    · rw [resume_c, hresting.unwritten]
    · rw [hsame.counted, hsame.begun]
      exact hresting.counted_le
    · exact absurd h hall
    · exact absurd h hall
    · obtain ⟨hlive', hne⟩ := hlive' id' h
      exact absurd (hunique id' hlive') hne
    · rw [resume_history]
      simp

/-! ## Writing -/

theorem startBatch_noted (S : Setting) (i : WriteInput) (l : Local) : ∃ noted : List Obs,
    (startBatch S i l).history = .batchStart l.tcp i.start l.c.complete :: (noted ++ l.history) ∧
      ∀ o ∈ noted, o.tcp = none := by
  rw [startBatch_history]
  split_ifs
  · exact ⟨[.clock i.start, .request i.request], rfl, by simp [Obs.tcp]⟩
  · exact ⟨[.clock i.start], rfl, by simp [Obs.tcp]⟩

theorem Stage.startBatch {i : WriteInput} (hl : Stage S.cfg.pipeline l) (hshape : Shape l)
    (hcalls : l.Calls fd writable .socketWriteable) (hwritten : l.c.written = 0) :
    Stage S.cfg.pipeline (startBatch S i l) := by
  obtain ⟨hresting, hcounted, hcalm⟩ := hl.of_unwritten hshape hcalls hwritten
  obtain ⟨noted, hhistory, huntagged⟩ := startBatch_noted S i l
  have hsame : Same (noted ++ l.history) l.history :=
    .of_silent fun o ho n => .of_untagged (huntagged o ho)
  have hcounted' : counted l.tcp (Wrkx.startBatch S i l).history =
      S.cfg.pipeline * Wrkx.begun l.tcp (Wrkx.startBatch S i l).history := by
    rw [hhistory]
    exact (hsame.counted _).trans (hcounted.trans (congrArg _ (hsame.begun _).symm))
  refine .resting ⟨?_, ?_, ?_, fun h => ?_, fun h => ?_, fun id hlive => ?_, ?_⟩
  all_goals try rw [startBatch_tcp] at *
  · rw [hhistory]
    exact List.mem_cons_of_mem _ (List.mem_append_right _ hresting.opened)
  · rw [startBatch_c]
    exact hwritten
  · exact hcounted'.le
  · exact absurd h (hcounted' ▸ lt_irrefl _)
  · exact absurd h (hcounted' ▸ lt_irrefl _)
  · obtain ⟨harmed, hparked⟩ := hlive
    rw [startBatch_thread, startBatch_self] at harmed
    rw [startBatch_tcp, hhistory] at hparked
    simp only [List.mem_cons, reduceCtorEq, false_or, List.mem_append] at hparked
    refine absurd ⟨harmed, hparked.resolve_left fun h => ?_⟩ (hcalm id)
    have := huntagged _ h
    cases this
  · intro _ _ _ _
    rw [startBatch_c]

theorem acceptBytes_noted (n : ℕ) (fd : Fd) (l : Local) : ∃ noted : List Obs,
    (acceptBytes n fd l).history =
      noted ++ .wrote l.tcp l.c.written l.c.request (accepted n l.c) :: l.history ∧
      (noted = [] ∨ noted = [.finished l.tcp]) := by
  rw [acceptBytes_history]
  split_ifs
  · exact ⟨[_], rfl, .inr rfl⟩
  · exact ⟨[], rfl, .inl rfl⟩

theorem stream_acceptBytes {n tcp : ℕ} : stream tcp (acceptBytes n fd l).history =
    stream tcp l.history ++ if l.tcp = tcp then accepted n l.c else [] := by
  obtain ⟨noted, hhistory, rfl | rfl⟩ := acceptBytes_noted n fd l <;>
    simp [hhistory, stream, Obs.acceptedOn]

theorem counted_acceptBytes {n tcp : ℕ} :
    counted tcp (acceptBytes n fd l).history = counted tcp l.history := by
  obtain ⟨noted, hhistory, rfl | rfl⟩ := acceptBytes_noted n fd l <;>
    simp [hhistory, counted, Obs.decrements]

theorem answered_acceptBytes {n tcp : ℕ} :
    answered tcp (acceptBytes n fd l).history = answered tcp l.history := by
  obtain ⟨noted, hhistory, rfl | rfl⟩ := acceptBytes_noted n fd l <;>
    simp [hhistory, answered, Obs.completes]

/-- The first bytes of a batch begin it. -/
theorem begun_acceptBytes {n tcp : ℕ} : begun tcp (acceptBytes n fd l).history =
    begun tcp l.history +
      if l.tcp = tcp ∧ l.c.written = 0 ∧ accepted n l.c ≠ [] then 1 else 0 := by
  obtain ⟨noted, hhistory, rfl | rfl⟩ := acceptBytes_noted n fd l <;>
    simp [hhistory, begun, List.countP_cons, Obs.begins]

theorem live_acceptBytes {n id : ℕ} (h : Live (acceptBytes n fd l) id) : Live l id := by
  obtain ⟨harmed, hparked⟩ := h
  refine ⟨?_, ?_⟩
  · rw [acceptBytes_loop, acceptBytes_self] at harmed
    split_ifs at harmed <;> simpa using harmed
  · obtain ⟨noted, hhistory, rfl | rfl⟩ := acceptBytes_noted n fd l <;>
      simpa [hhistory] using hparked

/-- What `sock.write` is about to send: the rest of a batch, or a batch that was just started. -/
theorem Stage.of_inBatch (hl : Stage k l) (hshape : Shape l)
    (hcalls : l.Calls fd writable .socketWriteable) (hbatch : l.InBatch) :
    Sending k l ∨ (Resting k l ∧ counted l.tcp l.history = k * begun l.tcp l.history ∧
      (∀ id, ¬ Live l id) ∧ l.c.pending = k) := by
  refine (hl.of_writeable hshape hcalls).imp_right fun ⟨hresting, hcounted, hcalm⟩ => ?_
  obtain ⟨now, complete, older, hhead⟩ := hbatch hresting.unwritten
  exact ⟨hresting, hcounted, hcalm, hresting.begun now complete older hhead⟩

theorem length_accepted_le {n : ℕ} {c : Connection} :
    (accepted n c).length ≤ c.request.length - c.written := by
  rw [accepted, List.length_take, List.length_drop]
  exact min_le_right _ _

/-- Either nothing of a batch is accepted yet, or it has begun: then it is counted, and what is
    pending is what it adds. -/
theorem owed_acceptBytes {n : ℕ}
    (hstage : Sending k l ∨ (Resting k l ∧ counted l.tcp l.history = k * begun l.tcp l.history ∧
      (∀ id, ¬ Live l id) ∧ l.c.pending = k)) :
    l.c.written = 0 ∧ accepted n l.c = [] ∧
        counted l.tcp l.history = k * begun l.tcp l.history ∨
      (l.c.written ≠ 0 ∨ accepted n l.c ≠ []) ∧ l.c.pending + counted l.tcp l.history =
        k * begun l.tcp (acceptBytes n fd l).history := by
  have hbegun : begun l.tcp (acceptBytes n fd l).history = _ := begun_acceptBytes
  rcases hstage with hsending | ⟨hresting, hcounted, -, hpending⟩
  · refine .inr ⟨.inl hsending.written.ne', ?_⟩
    rw [hbegun, if_neg fun h => hsending.written.ne' h.2.1]
    exact hsending.pending
  · by_cases hempty : accepted n l.c = []
    · exact .inl ⟨hresting.unwritten, hempty, hcounted⟩
    · refine .inr ⟨.inr hempty, ?_⟩
      rw [hbegun, if_pos ⟨rfl, hresting.unwritten, hempty⟩, hcounted, hpending, Nat.mul_succ,
        Nat.add_comm]

theorem Stage.acceptBytes {n : ℕ} (hl : Stage k l) (hshape : Shape l)
    (hcalls : l.Calls fd writable .socketWriteable) (hbatch : l.InBatch) :
    Stage k (acceptBytes n fd l) := by
  have hstage := hl.of_inBatch hshape hcalls hbatch
  obtain ⟨rfl, hreg, -, -⟩ := hshape.writeable_of_calls hcalls
  have hopened : .established l.tcp ∈ l.history := hstage.elim (·.opened) (·.1.opened)
  have hopened' : .established (Wrkx.acceptBytes n l.c.fd l).tcp ∈
      (Wrkx.acceptBytes n l.c.fd l).history := by
    obtain ⟨noted, hhistory, -⟩ := acceptBytes_noted n l.c.fd l
    rw [hhistory, acceptBytes_tcp]
    exact List.mem_append_right _ (List.mem_cons_of_mem _ hopened)
  have hcalm : ∀ id, ¬ Live (Wrkx.acceptBytes n l.c.fd l) id :=
    fun id h => hstage.elim (fun hl => hl.calm id (live_acceptBytes h))
      fun hl => hl.2.2.1 id (live_acceptBytes h)
  have hcounted : counted l.tcp (Wrkx.acceptBytes n l.c.fd l).history =
      counted l.tcp l.history := counted_acceptBytes
  have hbegun : Wrkx.begun l.tcp (Wrkx.acceptBytes n l.c.fd l).history = _ := begun_acceptBytes
  have hc : (Wrkx.acceptBytes n l.c.fd l).c = _ := acceptBytes_c
  have hpending : (Wrkx.acceptBytes n l.c.fd l).c.pending = l.c.pending := by rw [hc]
  have hhead : ∀ tcp now complete older, (Wrkx.acceptBytes n l.c.fd l).history ≠
      .batchStart tcp now complete :: older := by
    obtain ⟨noted, hhistory, rfl | rfl⟩ := acceptBytes_noted n l.c.fd l <;> simp [hhistory]
  have hsum := @owed_acceptBytes k l l.c.fd n hstage
  have hevent := acceptBytes_event (n := n) hreg
  by_cases hdone : l.c.written + (accepted n l.c).length = l.c.request.length
  · -- The batch is written whole.
    rw [if_pos hdone] at hc hevent
    refine .resting ⟨hopened', by rw [hc], ?_, fun h => ?_, fun _ => ?_,
      fun id h => absurd h (hcalm id), fun now complete older h => absurd h (hhead _ _ _ _)⟩
    all_goals try rw [acceptBytes_tcp] at *
    · rw [hcounted]
      rcases hsum with ⟨-, hempty, hcounted⟩ | ⟨-, hsum⟩
      · rw [hcounted, hbegun]
        exact Nat.mul_le_mul_left k (Nat.le_add_right _ _)
      · omega
    · rw [hcounted] at h ⊢
      rcases hsum with ⟨-, hempty, hcounted⟩ | ⟨-, hsum⟩
      · rw [hbegun, if_neg fun h => h.2.2 hempty, Nat.add_zero, hcounted] at h
        exact absurd h (lt_irrefl _)
      · rw [hpending, hsum]
    · rw [hevent]
      simp [Local.readEvent, Mask.diff, Mask.write]
  · rw [if_neg hdone] at hc hevent
    rcases hsum with ⟨hwritten, hempty, hcounted'⟩ | ⟨hsome, hsum⟩
    · -- Nothing of the batch was accepted.
      have hall : counted l.tcp (Wrkx.acceptBytes n l.c.fd l).history =
          k * Wrkx.begun l.tcp (Wrkx.acceptBytes n l.c.fd l).history := by
        rw [hcounted, hbegun, if_neg fun h => h.2.2 hempty, Nat.add_zero, hcounted']
      refine .resting ⟨hopened', ?_, ?_, fun h => ?_, fun h => ?_,
        fun id h => absurd h (hcalm id), fun now complete older h => absurd h (hhead _ _ _ _)⟩
      all_goals try rw [acceptBytes_tcp] at *
      · rw [hc]
        simp [hwritten, hempty]
      · exact hall.le
      · exact absurd h (hall ▸ lt_irrefl _)
      · exact absurd h (hall ▸ lt_irrefl _)
    · have hle := length_accepted_le (n := n) (c := l.c)
      have hlength : l.c.written ≤ l.c.request.length :=
        hstage.elim (·.length.le) fun h => h.1.unwritten ▸ Nat.zero_le _
      refine .sending ⟨hopened', ?_, ?_, ?_, hcalm⟩
      all_goals try rw [acceptBytes_tcp] at *
      · rw [hc]
        rcases hsome with hwritten | hempty
        · exact Nat.add_pos_left (Nat.pos_of_ne_zero hwritten) _
        · exact Nat.add_pos_right _ (List.length_pos_of_ne_nil hempty)
      · rw [hc]
        simp only
        omega
      · rw [hpending, hcounted, hsum]

/-! ## Responses -/

section Respond

variable {i : CompleteInput} {n : ℕ}

theorem respond_noted (S : Setting) (i : CompleteInput) (l : Local) :
    ∃ delivered measured : List Obs, (respond S i l).history =
      measured ++ (delivered ++ .complete l.tcp i.now i.status :: .clock i.now :: l.history) ∧
      (∀ o ∈ delivered, o.tcp = none) ∧
      (l.thread.stopAt ≤ i.now ∧ measured = [] ∨
        i.now < l.thread.stopAt ∧ ∃ recorded latency, measured =
          recorded ++ [.decrement l.tcp l.c.pending, latency] ∧
          (∀ o ∈ recorded, o.tcp = none) ∧ latency.tcp = none) := by
  have hdelivered : ∀ o ∈ delivery i l.c, o.tcp = none := forall_delivery fun _ _ _ _ => rfl
  rw [respond_history, deliver_history]
  split_ifs with hstop
  · exact ⟨delivery i l.c, [], rfl, hdelivered, .inl ⟨hstop, rfl⟩⟩
  · refine ⟨delivery i l.c, _, rfl, hdelivered, .inr ⟨not_le.mp hstop, _, _, rfl, ?_, rfl⟩⟩
    intro o ho
    split_ifs at ho
    · obtain rfl := List.mem_singleton.mp ho
      rfl
    · simp at ho

theorem stream_respond : stream n (respond S i l).history = stream n l.history := by
  obtain ⟨delivered, measured, hhistory, hdelivered, hmeasured⟩ := respond_noted S i l
  have hnone : ∀ o : Obs, o.tcp = none → o.acceptedOn n = [] := fun o ho =>
    (Elsewhere.of_none ho).acceptedOn
  have hreceived : stream n (delivered ++ .complete l.tcp i.now i.status :: .clock i.now ::
      l.history) = stream n l.history := by
    rw [stream_append_of_none fun o ho => hnone o (hdelivered o ho)]
    simp [stream, Obs.acceptedOn]
  rw [hhistory]
  rcases hmeasured with ⟨-, rfl⟩ | ⟨-, recorded, latency, rfl, hrecorded, hlatency⟩
  · exact hreceived
  · refine (stream_append_of_none fun o ho => ?_).trans hreceived
    rcases List.mem_append.mp ho with ho | ho
    · exact hnone o (hrecorded o ho)
    · rcases List.mem_cons.mp ho with rfl | ho
      · rfl
      · obtain rfl := List.mem_singleton.mp ho
        exact hnone _ hlatency

theorem answered_respond : answered n (respond S i l).history =
    answered n l.history + if l.tcp = n then 1 else 0 := by
  obtain ⟨delivered, measured, hhistory, hdelivered, hmeasured⟩ := respond_noted S i l
  have hnone : ∀ o : Obs, o.tcp = none → o.completes n = false := fun o ho =>
    (Elsewhere.of_none ho).completes
  have hreceived : answered n (delivered ++ .complete l.tcp i.now i.status :: .clock i.now ::
      l.history) = answered n l.history + if l.tcp = n then 1 else 0 := by
    rw [answered_append_of_none fun o ho => hnone o (hdelivered o ho)]
    simp [answered, List.countP_cons, Obs.completes]
  rw [hhistory]
  rcases hmeasured with ⟨-, rfl⟩ | ⟨-, recorded, latency, rfl, hrecorded, hlatency⟩
  · exact hreceived
  · rw [← hreceived]
    refine answered_append_of_none fun o ho => ?_
    rcases List.mem_append.mp ho with ho | ho
    · exact hnone o (hrecorded o ho)
    · rcases List.mem_cons.mp ho with rfl | ho
      · rfl
      · obtain rfl := List.mem_singleton.mp ho
        exact hnone _ hlatency

theorem counted_respond : counted n (respond S i l).history =
    counted n l.history + if l.tcp = n ∧ i.now < l.thread.stopAt then 1 else 0 := by
  obtain ⟨delivered, measured, hhistory, hdelivered, hmeasured⟩ := respond_noted S i l
  have hnone : ∀ o : Obs, o.tcp = none → o.decrements n = false := fun o ho =>
    (Elsewhere.of_none ho).decrements
  have hreceived : counted n (delivered ++ .complete l.tcp i.now i.status :: .clock i.now ::
      l.history) = counted n l.history := by
    rw [counted_append_of_none fun o ho => hnone o (hdelivered o ho)]
    rfl
  rw [hhistory]
  rcases hmeasured with ⟨hstop, rfl⟩ | ⟨hstop, recorded, latency, rfl, hrecorded, hlatency⟩
  · rw [List.nil_append, hreceived, if_neg fun h => absurd h.2 (not_lt.mpr hstop), Nat.add_zero]
  · rw [List.append_assoc, counted_append_of_none fun o ho => hnone o (hrecorded o ho)]
    simp only [List.cons_append, List.nil_append, counted, List.countP_cons,
      hnone latency hlatency] at hreceived ⊢
    rw [hreceived]
    simp [Obs.decrements, hstop]

theorem begun_respond : begun n (respond S i l).history = begun n l.history := by
  obtain ⟨delivered, measured, hhistory, hdelivered, hmeasured⟩ := respond_noted S i l
  have hnone : ∀ o : Obs, o.tcp = none → o.begins n = false := fun o ho =>
    (Elsewhere.of_none ho).begins
  have hreceived : begun n (delivered ++ .complete l.tcp i.now i.status :: .clock i.now ::
      l.history) = begun n l.history :=
    begun_append_of_none fun o ho => hnone o (hdelivered o ho)
  rw [hhistory]
  rcases hmeasured with ⟨-, rfl⟩ | ⟨-, recorded, latency, rfl, hrecorded, hlatency⟩
  · exact hreceived
  · refine (begun_append_of_none fun o ho => ?_).trans hreceived
    rcases List.mem_append.mp ho with ho | ho
    · exact hnone o (hrecorded o ho)
    · rcases List.mem_cons.mp ho with rfl | ho
      · rfl
      · obtain rfl := List.mem_singleton.mp ho
        exact hnone _ hlatency

theorem starts_respond : starts n (respond S i l).history = starts n l.history := by
  obtain ⟨delivered, measured, hhistory, hdelivered, hmeasured⟩ := respond_noted S i l
  have hnone : ∀ o : Obs, o.tcp = none → o.startsOn n = [] := fun o ho =>
    startsOn_eq_nil (Elsewhere.of_none ho).begins
  have hreceived : starts n (delivered ++ .complete l.tcp i.now i.status :: .clock i.now ::
      l.history) = starts n l.history := by
    rw [starts_append_of_none fun o ho => hnone o (hdelivered o ho)]
    simp [starts, Obs.startsOn]
  rw [hhistory]
  rcases hmeasured with ⟨-, rfl⟩ | ⟨-, recorded, latency, rfl, hrecorded, hlatency⟩
  · exact hreceived
  · refine (starts_append_of_none fun o ho => ?_).trans hreceived
    rcases List.mem_append.mp ho with ho | ho
    · exact hnone o (hrecorded o ho)
    · rcases List.mem_cons.mp ho with rfl | ho
      · rfl
      · obtain rfl := List.mem_singleton.mp ho
        exact hnone _ hlatency

theorem writtenWhole_respond :
    writtenWhole n (respond S i l).history = writtenWhole n l.history := by
  obtain ⟨delivered, measured, hhistory, hdelivered, hmeasured⟩ := respond_noted S i l
  have hreceived : writtenWhole n (delivered ++ .complete l.tcp i.now i.status :: .clock i.now ::
      l.history) = writtenWhole n l.history :=
    writtenWhole_append fun o ho => .of_none (hdelivered o ho)
  rw [hhistory]
  rcases hmeasured with ⟨-, rfl⟩ | ⟨-, recorded, latency, rfl, hrecorded, hlatency⟩
  · exact hreceived
  · rw [List.append_assoc, writtenWhole_append fun o ho => .of_none (hrecorded o ho), ← hreceived]
    exact (Elsewhere.of_none hlatency).writtenWhole

theorem live_respond {id : ℕ} (h : Live (respond S i l) id) : Live l id := by
  obtain ⟨harmed, hparked⟩ := h
  rw [respond_self, respond_loop] at harmed
  refine ⟨by split_ifs at harmed <;> simpa using harmed, ?_⟩
  obtain ⟨delivered, measured, hhistory, hdelivered, hmeasured⟩ := respond_noted S i l
  have hnone : ∀ o : Obs, o.tcp = none → Obs.parked id l.tcp ≠ o := by
    rintro _ ho rfl
    cases ho
  rw [respond_tcp, hhistory] at hparked
  rcases hmeasured with ⟨-, rfl⟩ | ⟨-, recorded, latency, rfl, hrecorded, hlatency⟩
  all_goals simp only [List.mem_append, List.mem_cons, reduceCtorEq, false_or, List.not_mem_nil,
    or_false] at hparked
  · exact hparked.resolve_left fun h => hnone _ (hdelivered _ h) rfl
  · rcases hparked with (h | h) | h | h
    · exact absurd rfl (hnone _ (hrecorded _ h))
    · exact absurd h (hnone _ hlatency)
    · exact absurd rfl (hnone _ (hdelivered _ h))
    · exact h

theorem respond_established :
    .established n ∈ (respond S i l).history ↔ .established n ∈ l.history := by
  obtain ⟨delivered, measured, hhistory, hdelivered, hmeasured⟩ := respond_noted S i l
  have hnone : ∀ o : Obs, o.tcp = none → o ≠ .established n := by
    rintro _ ho rfl
    cases ho
  constructor
  · intro hmem
    rw [hhistory] at hmem
    rcases hmeasured with ⟨-, rfl⟩ | ⟨-, recorded, latency, rfl, hrecorded, hlatency⟩
    all_goals simp only [List.mem_append, List.mem_cons, reduceCtorEq, false_or, List.not_mem_nil,
      or_false] at hmem
    · exact hmem.resolve_left fun h => hnone _ (hdelivered _ h) rfl
    · rcases hmem with (h | h) | h | h
      · exact absurd rfl (hnone _ (hrecorded _ h))
      · exact absurd h.symm (hnone _ hlatency)
      · exact absurd rfl (hnone _ (hdelivered _ h))
      · exact h
  · exact fun h => suffix_respond.subset h

theorem head_respond {now complete : ℕ} {older : List Obs} :
    (respond S i l).history ≠ .batchStart n now complete :: older := by
  obtain ⟨delivered, measured, hhistory, hdelivered, hmeasured⟩ := respond_noted S i l
  rw [hhistory]
  intro hhead
  have hnone : ∀ o : Obs, o.tcp = none → o ≠ .batchStart n now complete := by
    rintro _ ho rfl
    cases ho
  have hreceived : ∀ older', delivered ++ .complete l.tcp i.now i.status :: .clock i.now ::
      l.history ≠ .batchStart n now complete :: older' := by
    intro older' hhead
    cases delivered with
    | nil => cases hhead
    | cons o delivered => exact hnone o (hdelivered o (by simp)) (List.cons.inj hhead).1
  rcases hmeasured with ⟨-, rfl⟩ | ⟨-, recorded, latency, rfl, hrecorded, hlatency⟩
  · exact hreceived older hhead
  · cases recorded with
    | nil => cases hhead
    | cons o recorded => exact hnone o (hrecorded o (by simp)) (List.cons.inj hhead).1

theorem respond_written : (respond S i l).c.written = l.c.written := by
  rw [respond_c]
  split_ifs <;> simp

theorem respond_request : (respond S i l).c.request = l.c.request := by
  rw [respond_c]
  split_ifs <;> simp

/-- What is pending and what is counted move together, and only the last response of a batch
    brings the write handler back. -/
theorem respond_pending (hreg : Registered l) (hkernel : l.kernel = []) (hpos : 1 ≤ l.c.pending) :
    (respond S i l).c.pending + counted l.tcp (respond S i l).history =
        l.c.pending + counted l.tcp l.history ∧
      ((respond S i l).c.pending ≠ 0 → (respond S i l).event = l.event) := by
  have hcounted := counted_respond (S := S) (i := i) (l := l) (n := l.tcp)
  have hc := respond_c (S := S) (i := i) (l := l)
  have hevent := respond_event (S := S) (i := i) hreg hkernel
  rcases le_or_gt l.thread.stopAt i.now with hstop | hstop
  · rw [if_pos hstop] at hc hevent
    rw [if_neg fun h => absurd h.2 (not_lt.mpr hstop)] at hcounted
    exact ⟨by rw [hc, delivered_pending, hcounted, Nat.add_zero], fun _ => hevent⟩
  · rw [if_neg (not_le.mpr hstop)] at hc hevent
    rw [if_pos ⟨rfl, hstop⟩] at hcounted
    rw [Word.sub64_of_le hpos] at hc hevent
    have hpending : (respond S i l).c.pending = l.c.pending - 1 := by rw [hc]
    refine ⟨by omega, fun hne => ?_⟩
    rw [hevent, if_neg (by omega)]

/-- A response that a batch waits for is counted as pending. -/
theorem Stage.pending_pos (hl : Stage k l)
    (howed : counted l.tcp l.history < k * Wrkx.begun l.tcp l.history) : 1 ≤ l.c.pending := by
  cases hl with
  | connecting hfresh =>
    rw [counted_eq_zero hfresh, begun_eq_zero hfresh] at howed
    exact absurd howed (lt_irrefl 0)
  | sending hsending =>
    have := hsending.pending
    omega
  | resting hresting =>
    have := hresting.pending howed
    omega

theorem Stage.respond (hl : Stage k l) (hshape : Shape l)
    (hcalls : l.Calls fd false .socketReadable)
    (howed : counted l.tcp l.history < k * Wrkx.begun l.tcp l.history) :
    Stage k (respond S i l) := by
  obtain ⟨rfl, hreg, hread⟩ := hshape.readable_of_calls hcalls
  obtain ⟨hsum, hevent⟩ := respond_pending (S := S) (i := i) hreg hshape.kernel
    (hl.pending_pos howed)
  have hopened : .established l.tcp ∈ l.history → .established l.tcp ∈
      (Wrkx.respond S i l).history := fun h => suffix_respond.subset h
  have hbegun : Wrkx.begun l.tcp (Wrkx.respond S i l).history =
      Wrkx.begun l.tcp l.history := begun_respond
  cases hl with
  | connecting hfresh =>
    rw [counted_eq_zero hfresh, begun_eq_zero hfresh] at howed
    exact absurd howed (lt_irrefl 0)
  | sending hsending =>
    refine .sending ⟨?_, ?_, ?_, ?_, fun id h => hsending.calm id (live_respond h)⟩
    · rw [respond_tcp]
      exact hopened hsending.opened
    · rw [respond_written]
      exact hsending.written
    · rw [respond_written, respond_request]
      exact hsending.length
    · rw [respond_tcp, hsum, hbegun]
      exact hsending.pending
  | resting hresting =>
    have hpending := hresting.pending howed
    have hcalm : ∀ id, ¬ Live (Wrkx.respond S i l) id := fun id h =>
      absurd (hresting.live id (live_respond h)).2.1 howed.ne
    refine .resting ⟨?_, ?_, ?_, fun _ => ?_, fun h => ?_, fun id h => absurd h (hcalm id),
      fun _ _ _ h => absurd h head_respond⟩
    · rw [respond_tcp]
      exact hopened hresting.opened
    · rw [respond_written, hresting.unwritten]
    · rw [respond_tcp, hbegun]
      omega
    · rw [respond_tcp, hbegun, hsum, hpending]
    · rw [respond_tcp, hbegun] at h
      rw [hevent (by omega)]
      exact hresting.waits howed

end Respond

/-! ## The acts -/

/-- What an act does to the turns. -/
inductive Turn (S : Setting) (l : Local) : Local → Prop
  | aside {l' : Local} (noted : List Obs) (h : Aside l l' noted) : Turn S l l'
  | connect {again : Bool} {down up l' : Local} (noted : List Obs) (hdown : Down down)
      (hconnects : Local.Connects again down up) (hhistory : down.history = noted ++ l.history)
      (huntagged : ∀ o ∈ noted, o.tcp = none) (htcp : down.tcp = l.tcp)
      (hrequest : down.c.request = l.c.request) (hfirst : l.tcp = 0 ∨ .closed ∈ noted)
      (h : Aside up l' []) : Turn S l l'
  | established (fd : Fd) (writable : Bool) (hcalls : l.Calls fd writable .socketConnected) :
      Turn S l (openSocket fd l)
  | park (fd : Fd) (writable : Bool) (armed : Micros) (wait : ℕ)
      (hcalls : l.Calls fd writable .socketWriteable) (hwritten : l.c.written = 0) :
      Turn S l (park fd armed wait l)
  | resume (id : ℕ) (harmed : l.thread.loop.Armed id (.delayRequest l.self)) :
      Turn S l (resume id l)
  | start (fd : Fd) (writable : Bool) (i : WriteInput)
      (hcalls : l.Calls fd writable .socketWriteable) (hwritten : l.c.written = 0) :
      Turn S l (startBatch S i l)
  | wrote (fd : Fd) (writable : Bool) (n : ℕ)
      (hcalls : l.Calls fd writable .socketWriteable) (hbatch : l.InBatch) :
      Turn S l (acceptBytes n fd l)
  | respond (fd : Fd) (i : CompleteInput) (hcalls : l.Calls fd false .socketReadable) :
      Turn S l (respond S i l)

theorem Aside.of_thread {noted : List Obs} (hhistory : l'.history = noted ++ l.history)
    (huntagged : ∀ o ∈ noted, o.tcp = none) (hself : l'.self = l.self) (htcp : l'.tcp = l.tcp)
    (hfd : l'.c.fd = l.c.fd) (hrequest : l'.c.request = l.c.request)
    (hwritten : l'.c.written = l.c.written) (hpending : l'.c.pending = l.c.pending)
    (hfiles : l'.files = l.files) (hthread : l'.thread = l.thread) : Aside l l' noted := by
  refine ⟨hhistory, huntagged, hself, htcp, hfd, hrequest, hwritten, hpending, ?_, ?_, ?_,
    fun id c h => ?_⟩
  · rw [hfiles]
  · rw [hthread]
  · rw [hthread]
  · rwa [hthread] at h

theorem Act.turn (hact : Act S l l') (halone : Alone l) : Turn S l l' := by
  cases hact with
  | tick now =>
    exact .aside [_] (.of_thread rfl (by simp [Obs.tcp]) rfl rfl rfl rfl rfl rfl rfl rfl)
  | fail | parser => exact .aside [] (.of_thread rfl (by simp) rfl rfl rfl rfl rfl rfl rfl rfl)
  | thread t hframe =>
    exact .aside [] ⟨rfl, by simp, rfl, rfl, rfl, rfl, rfl, rfl, rfl, hframe.events,
      hframe.setsize, hframe.delay⟩
  | initial id now i harmed =>
    have hfirst := (halone.first id _ harmed).2
    refine .connect [_] (halone.shape.down_begun halone.basic hfirst now)
      (Local.initialConnect_connects now i l) rfl (by simp [Obs.tcp]) rfl rfl (.inl hfirst) ?_
    exact ⟨rfl, by simp, rfl, rfl, rfl, rfl, rfl, rfl, rfl, rfl, rfl,
      fun id' c h => (EventLoop.armed_aeDeleteTimeEvent.mp h).1⟩
  | reconnect i hconnected =>
    exact .connect [_] halone.shape.down_dropped (Local.reconnectSocket_connects i l) rfl
      (by simp [Obs.tcp]) rfl rfl (.inr (by simp))
      (.of_thread rfl (by simp) rfl rfl rfl rfl rfl rfl rfl rfl)
  | paced now =>
    obtain ⟨noted, hhistory, hnoted⟩ := usecToNextSend_history S now l
    refine .aside (noted ++ [.clock now]) (.of_thread (by simp [hhistory]) ?_ (by simp) (by simp)
      ?_ ?_ ?_ ?_ (by simp) (by simp))
    · rcases hnoted with rfl | rfl | rfl <;> simp [Obs.tcp]
    all_goals rw [usecToNextSend_c]
  | refuse fd writable hcalls hbatch =>
    exact .aside [_] (.of_thread rfl (by simp [Obs.tcp]) rfl rfl rfl rfl rfl rfl rfl rfl)
  | field fd piece hcalls hwant =>
    refine .aside [_] (.of_thread rfl (by simp [Obs.tcp]) rfl rfl ?_ ?_ ?_ ?_ rfl rfl) <;>
      rw [headerField_c]
  | value fd piece hcalls hwant =>
    refine .aside [_] (.of_thread rfl (by simp [Obs.tcp]) rfl rfl ?_ ?_ ?_ ?_ rfl rfl) <;>
      rw [headerValue_c]
  | body fd piece hcalls hwant =>
    exact .aside [_] (.of_thread rfl (by simp [Obs.tcp]) rfl rfl rfl rfl rfl rfl rfl rfl)
  | established fd writable hcalls => exact .established fd writable hcalls
  | park fd writable armed wait hcalls hwritten =>
    exact .park fd writable armed wait hcalls hwritten
  | resume id harmed => exact .resume id harmed
  | start fd writable i hcalls hwritten hclock hpermits =>
    exact .start fd writable i hcalls hwritten
  | wrote fd writable n hcalls hbatch => exact .wrote fd writable n hcalls hbatch
  | respond fd i hcalls => exact .respond fd i hcalls

theorem Turns.of_same (hl : Turns k l) (hstage : Stage k l') (hsame : Same l'.history l.history) :
    Turns k l' := by
  refine ⟨hstage, fun n => ?_⟩
  rw [hsame.counted, hsame.answered]
  exact hl.counted_le n

/-- A time event that finds a send due was armed for the current TCP connection. -/
theorem parked_of_resume {id : ℕ} (hown : Each ResumesOwn (resume id l).history) :
    .parked id l.tcp ∈ l.history := by
  rw [resume_history] at hown
  exact hown.1 _ rfl

/-- Connecting notes nothing about a TCP connection. -/
theorem same_connect {again : Bool} {down up : Local} {noted : List Obs}
    (hconnects : Local.Connects again down up) (hhistory : down.history = noted ++ l.history)
    (huntagged : ∀ o ∈ noted, o.tcp = none) (h : Aside up l' []) : Same l'.history l.history := by
  obtain ⟨ok, hok⟩ := hconnects.history_eq
  have hup : l'.history = (.connect again ok :: noted) ++ l.history := by
    rw [h.history, hok, hhistory]
    rfl
  rw [hup]
  refine .of_silent fun o ho n => .of_untagged ?_
  rcases List.mem_cons.mp ho with rfl | ho
  · rfl
  · exact huntagged o ho

/-- Every act keeps the turns, when a response comes only for a batch that has begun. -/
theorem Act.turns (hact : Act S l l') (halone : Alone l) (hown : Each ResumesOwn l'.history)
    (hanswers : ∀ i, l' = Wrkx.respond S i l →
      answered l.tcp l.history < S.cfg.pipeline * begun l.tcp l.history)
    (hl : Turns S.cfg.pipeline l) : Turns S.cfg.pipeline l' := by
  cases hact.turn halone with
  | aside noted h => exact hl.of_same (hl.stage.of_aside h) h.same
  | connect noted hdown hconnects hhistory huntagged htcp hrequest hfirst h =>
    exact hl.of_same ((hdown.stage hconnects).of_aside h)
      (same_connect hconnects hhistory huntagged h)
  | established fd writable hcalls =>
    exact hl.of_same (hl.stage.openSocket halone.shape hcalls) openSocket_same
  | park fd writable armed wait hcalls hwritten =>
    exact hl.of_same (hl.stage.park halone.shape hcalls hwritten) park_same
  | resume id harmed =>
    exact hl.of_same (hl.stage.resume harmed (parked_of_resume hown)) resume_same
  | start fd writable i hcalls hwritten =>
    obtain ⟨noted, hhistory, huntagged⟩ := startBatch_noted S i l
    have hsame : Same (noted ++ l.history) l.history :=
      .of_silent fun o ho n => .of_untagged (huntagged o ho)
    refine ⟨hl.stage.startBatch halone.shape hcalls hwritten, fun n => ?_⟩
    have hle := hl.counted_le n
    rw [← hsame.counted, ← hsame.answered] at hle
    rw [hhistory]
    exact hle
  | wrote fd writable n hcalls hbatch =>
    refine ⟨hl.stage.acceptBytes halone.shape hcalls hbatch, fun n => ?_⟩
    rw [counted_acceptBytes, answered_acceptBytes]
    exact hl.counted_le n
  | respond fd i hcalls =>
    have howed := (hl.counted_le l.tcp).trans_lt (hanswers i rfl)
    refine ⟨hl.stage.respond halone.shape hcalls howed, fun n => ?_⟩
    have hle := hl.counted_le n
    rw [counted_respond, answered_respond]
    split_ifs with h h' h' <;> omega

theorem Start.turns (k : ℕ) (start : Start) : Turns k start.local where
  stage := by
    refine .connecting (fun o ho => absurd ho List.not_mem_nil) fun hreg => ?_
    exact absurd (by simp [Local.event, Start.local, startThread, aeCreateEventLoop]) hreg.mask_ne
  counted_le := fun _ => le_rfl

end Wrkx
