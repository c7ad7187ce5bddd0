import Wrkx.Process.Interleaved

/-!
# What a connection owns

A connection that has obtained a descriptor keeps it registered for reading until
`reconnect_socket` closes it. What `c->fd` names is then out of date until `connect_socket` has
stored a new descriptor. Here is what holds of one connection, its thread and the descriptor
table at each point of these functions, and what a turn of another connection leaves of it.

## Main results

- `Act.retains` — an act that does not connect takes no descriptor and gives none up
- `Piece.Leads.holding` — a piece keeps what the connection owns
- `Holding.beside` — and what belongs to the others
-/

namespace Wrkx

open Local

/-! ## What a connection owns -/

/-- `connect_socket` has registered a descriptor for the connection. -/
def Local.Obtained (l : Local) : Prop := ∃ again, .connect again true ∈ l.history

/-- The descriptor is open, the connection's own and registered for reading. -/
structure Attached (fd : Fd) (l : Local) : Prop where
  owner : l.files.owner fd = some (.conn l.self)
  setsize : fd < l.thread.loop.setsize
  clientData : (l.thread.loop.events fd).clientData = l.self
  readable : (l.thread.loop.events fd).mask.readable = true

/-- A first connect is armed until its handler has returned. -/
def Caller.Entered (l : Local) : Caller → Prop
  | .initial id => l.thread.loop.Armed id (.delayedInitialConnect l.self)
  | .reconnect => True

/-- What the connection has obtained at a point. -/
def Stands (l : Local) : Point → Prop
  | .outside => l.Obtained → Attached l.c.fd l
  | .deregistered => l.Obtained ∧ l.files.owner l.c.fd = some (.conn l.self)
  | .called caller => caller.Entered l ∧ (l.Obtained ↔ caller.again = true)
  | .obtained caller fd => caller.Entered l ∧ (l.Obtained ↔ caller.again = true) ∧ l.tcp ≠ 0 ∧
      l.files.owner fd = some (.conn l.self)
  | .registered caller fd => caller.Entered l ∧ l.Obtained ∧ Attached fd l ∧
      (caller.again = false → l.c.fd = 0)
  | .returned caller => caller.Entered l ∧ (l.Obtained → Attached l.c.fd l)

/-- The descriptor that handlers can be registered for. -/
def Point.place (c : Connection) : Point → Option Fd
  | .outside | .returned _ => some c.fd
  | .registered _ fd => some fd
  | _ => none

/-- The time event of the first connect that is under way. -/
def Point.first : Point → Option ℕ
  | .called (.initial id) | .obtained (.initial id) _ | .registered (.initial id) _
  | .returned (.initial id) => some id
  | _ => none

/-- What holds of a connection, its thread and the descriptor table between two turns. The
    process keeps the descriptors it held before, those that are `taken`. -/
structure Holding (taken : Fd → Prop) (point : Point) (l : Local) : Prop extends Basic l where
  distinct : l.thread.loop.Distinct
  uses : ∀ u ∈ l.files.uses, u.owner = some (.conn u.conn)
  registered : ∀ fd, (l.thread.loop.events fd).mask ≠ .none →
    l.files.owner fd = some (.conn (l.thread.loop.events fd).clientData) ∧
      (l.thread.loop.events fd).clientData.thread = l.self.thread
  process : ∀ fd, taken fd → l.files.owner fd = some .process
  own : ∀ fd, (l.thread.loop.events fd).mask ≠ .none →
    (l.thread.loop.events fd).clientData = l.self → point.place l.c = some fd
  first : ∀ id, l.thread.loop.Armed id (.delayedInitialConnect l.self) →
    id = l.self.slot ∧ (l.Obtained → point.first = some id)
  fresh : ¬ l.Obtained → l.c.fd = 0
  stands : Stands l point

/-- Every use of a descriptor since is by its owner. -/
def UsesOwn (l l' : Local) : Prop :=
  ∀ u ∈ l'.files.uses, u ∈ l.files.uses ∨ u.owner = some (.conn u.conn)

/-- An act that takes no descriptor and gives none up. -/
structure Retains (l l' : Local) : Prop where
  self : l'.self = l.self
  fd : l'.c.fd = l.c.fd
  obtained : l'.Obtained ↔ l.Obtained
  setsize : l'.thread.loop.setsize = l.thread.loop.setsize
  owner : l'.files.owner = l.files.owner
  uses : UsesOwn l l'
  events : ∀ fd, l'.thread.loop.events fd = l.thread.loop.events fd ∨
    fd = l.c.fd ∧ l.files.owner fd = some (.conn l.self) ∧
      (l'.thread.loop.events fd).clientData = l.self ∧
      (l'.thread.loop.events fd).mask.readable = true
  distinct : l.thread.loop.Distinct → l'.thread.loop.Distinct
  armed : l.thread.loop.Distinct → ∀ id proc, proc.conn ≠ none → proc ≠ .delayRequest l.self →
    (l'.thread.loop.Armed id proc ↔ l.thread.loop.Armed id proc)

section Retains

variable {S : Setting} {l l' l'' : Local}

theorem Retains.trans (h : Retains l l') (h' : Retains l' l'') : Retains l l'' where
  self := h'.self.trans h.self
  fd := h'.fd.trans h.fd
  obtained := h'.obtained.trans h.obtained
  setsize := h'.setsize.trans h.setsize
  owner := h'.owner.trans h.owner
  uses u hu := (h'.uses u hu).elim (h.uses u) .inr
  events fd := by
    rcases h'.events fd with heq | ⟨hfd, howner, hclient, hread⟩
    · rw [heq]
      exact h.events fd
    · exact .inr ⟨hfd.trans h.fd, by rw [← h.self, ← h.owner]; exact howner,
        hclient.trans h.self, hread⟩
  distinct hd := h'.distinct (h.distinct hd)
  armed hd id proc hconn hne :=
    (h'.armed (h.distinct hd) id proc hconn (h.self.symm ▸ hne)).trans
      (h.armed hd id proc hconn hne)

/-- An act that leaves the file events alone. -/
theorem Retains.of_timers (hself : l'.self = l.self) (hfd : l'.c.fd = l.c.fd)
    (hobtained : l'.Obtained ↔ l.Obtained) (hfiles : l'.files = l.files)
    (hevents : l'.thread.loop.events = l.thread.loop.events)
    (hsetsize : l'.thread.loop.setsize = l.thread.loop.setsize)
    (hdistinct : l.thread.loop.Distinct → l'.thread.loop.Distinct)
    (harmed : l.thread.loop.Distinct → ∀ id proc, proc.conn ≠ none → proc ≠ .delayRequest l.self →
      (l'.thread.loop.Armed id proc ↔ l.thread.loop.Armed id proc)) : Retains l l' where
  self := hself
  fd := hfd
  obtained := hobtained
  setsize := hsetsize
  owner := by rw [hfiles]
  uses u hu := .inl (hfiles ▸ hu)
  events fd := .inl (by rw [hevents])
  distinct := hdistinct
  armed := harmed

theorem Retains.of_loop (hself : l'.self = l.self) (hfd : l'.c.fd = l.c.fd)
    (hobtained : l'.Obtained ↔ l.Obtained) (hfiles : l'.files = l.files)
    (hloop : l'.thread.loop = l.thread.loop) : Retains l l' :=
  .of_timers hself hfd hobtained hfiles (by rw [hloop]) (by rw [hloop]) (by simp [hloop])
    (by simp [hloop])

theorem Retains.of_frame {t : Thread} (hframe : l.thread.Frame t) :
    Retains l { l with thread := t } := by
  refine .of_timers rfl rfl .rfl rfl hframe.events hframe.setsize hframe.distinct
    fun hd id proc hconn hne => ⟨fun harmed => ?_, hframe.kept hd id proc hconn⟩
  cases proc with
  | delayedInitialConnect c => exact hframe.initial id c harmed
  | delayRequest c => exact hframe.delay id c harmed
  | _ => exact absurd rfl hconn

/-- A registration for the connection's own descriptor. -/
theorem Retains.createFileEvent (hl : Attached l.c.fd l) (mask : Mask) (proc : FileProc) :
    Retains l (l.createFileEvent l.c.fd mask proc).2 := by
  rcases createFileEvent_cases l l.c.fd mask proc with h | ⟨-, -, h⟩ <;> rw [h]
  · exact .of_loop rfl rfl .rfl rfl rfl
  · refine ⟨rfl, rfl, .rfl, rfl, rfl, fun u hu => ?_, fun fd => ?_,
      fun hd => hd.of_armed (fun _ _ h => h) le_rfl, fun _ _ _ _ _ => .rfl⟩
    · rcases List.mem_cons.mp hu with rfl | hu
      · exact .inr hl.owner
      · exact .inl hu
    · by_cases hfd : fd = l.c.fd
      · subst hfd
        exact .inr ⟨rfl, hl.owner, by simp [register_clientData],
          by simp [register_mask, Mask.union, hl.readable]⟩
      · exact .inl (by simp [register_events, hfd])

/-- A deregistration of the write handler of the connection's own descriptor. -/
theorem Retains.deleteFileEvent (hl : Attached l.c.fd l) :
    Retains l (l.deleteFileEvent l.c.fd .write) := by
  refine ⟨rfl, rfl, .rfl, deleteFileEvent_setsize, rfl, fun u hu => ?_, fun fd => ?_,
    fun hd => hd.of_armed (fun _ _ h => armed_deleteFileEvent.mp h) (by simp),
    fun _ _ _ _ _ => armed_deleteFileEvent⟩
  · rcases List.mem_cons.mp hu with rfl | hu
    · exact .inr hl.owner
    · exact .inl hu
  · by_cases hfd : fd = l.c.fd
    · subst hfd
      exact .inr ⟨rfl, hl.owner, by simpa using hl.clientData,
        by simp [deleteFileEvent_mask, hl.setsize, Mask.diff, Mask.write, hl.readable]⟩
    · exact .inl (by simp [deleteFileEvent_events, hfd])

theorem Retains.attached (h : Retains l l') (hl : Attached l.c.fd l) : Attached l'.c.fd l' := by
  have hfd := h.fd
  obtain ⟨howner, hsetsize, hclient, hread⟩ := hl
  refine ⟨by rw [h.owner, hfd, h.self]; exact howner, by rw [h.setsize, hfd]; exact hsetsize,
    ?_, ?_⟩
  all_goals
    rw [hfd]
    rcases h.events l.c.fd with heq | ⟨-, -, hclient', hread'⟩
  · rw [heq, h.self]
    exact hclient
  · rw [h.self]
    exact hclient'
  · rw [heq]
    exact hread
  · exact hread'

/-! ## Acts that keep the descriptor -/

theorem obtained_iff (noted : List Obs) (h : l'.history = noted ++ l.history)
    (hnoted : ∀ again, .connect again true ∉ noted) : l'.Obtained ↔ l.Obtained := by
  simp only [Obtained, h, List.mem_append, hnoted, false_or]

theorem retains_tick {now : ℕ} : Retains l (l.note (.clock now)) :=
  .of_loop rfl rfl (obtained_iff [_] rfl (by simp)) rfl rfl

theorem retains_paced {now : Micros} : Retains l (usecToNextSend S now l).2 := by
  obtain ⟨noted, hhistory, hnoted⟩ := usecToNextSend_history S now l
  refine .of_loop (by simp) ?_ (obtained_iff (noted ++ [.clock now])
    (by simp [hhistory]) ?_) (by simp) (by simp)
  · rw [usecToNextSend_c]
  · rcases hnoted with rfl | rfl | rfl <;> simp

theorem retains_park {armed : Micros} {wait : ℕ} (hl : Attached l.c.fd l) :
    Retains l (park l.c.fd armed wait l) := by
  refine (Retains.deleteFileEvent hl).trans (.of_timers rfl rfl
    (obtained_iff [_, _] rfl (by simp)) rfl rfl rfl (fun hd => hd.aeCreateTimeEvent)
    fun _ id proc _ hne => ?_)
  rw [park_loop, EventLoop.armed_aeCreateTimeEvent, or_iff_right]
  rintro ⟨-, rfl⟩
  exact hne rfl

theorem retains_resume {id : ℕ} (hl : Attached l.c.fd l)
    (harmed : l.thread.loop.Armed id (.delayRequest l.self)) : Retains l (resume id l) := by
  refine (Retains.createFileEvent hl .write .socketWriteable).trans
    (.of_timers (by simp) (by simp) (obtained_iff [_] (by simp; rfl) (by simp))
      resume_files (by rw [resume_loop]; rfl) (by rw [resume_loop]; rfl) (fun hd => ?_)
      fun hd id' proc _ hne => ?_)
  · rw [resume_loop]
    exact hd.of_armed (fun _ _ h => (EventLoop.armed_aeDeleteTimeEvent.mp h).1) le_rfl
  · rw [resume_loop]
    exact hd.armed_delete (armed_createFileEvent.mpr harmed) (by simpa using hne)

theorem retains_wrote {n : ℕ} (hl : Attached l.c.fd l) : Retains l (acceptBytes n l.c.fd l) := by
  have hobtained : (acceptBytes n l.c.fd l).Obtained ↔ l.Obtained := by
    rw [Obtained, acceptBytes_history]
    split_ifs <;> simp [Obtained]
  have hloop : (acceptBytes n l.c.fd l).thread.loop = _ := acceptBytes_loop
  have hfiles : (acceptBytes n l.c.fd l).files = _ := acceptBytes_files
  split_ifs at hloop hfiles
  · exact (Retains.deleteFileEvent hl).trans
      (.of_loop (by simp) (by simp [acceptBytes_c]) hobtained hfiles hloop)
  · exact .of_loop (by simp) (by simp [acceptBytes_c]) hobtained hfiles hloop

theorem retains_established (hl : Attached l.c.fd l) : Retains l (openSocket l.c.fd l) := by
  have hread := Retains.createFileEvent hl .read .socketReadable
  have hwrite := Retains.createFileEvent (hread.attached hl) .write .socketWriteable
  rw [createFileEvent_c] at hwrite
  exact (hread.trans hwrite).trans (.of_loop (by simp) (by simp)
    (obtained_iff [_] (by simp; rfl) (by simp)) openSocket_files openSocket_loop)

theorem obtained_respond {i : CompleteInput} : (respond S i l).Obtained ↔ l.Obtained := by
  rw [Obtained, respond_history, deliver_history]
  simp only [measurement, delivery]
  split_ifs <;> simp [Obtained]

theorem retains_respond {i : CompleteInput} (hl : Attached l.c.fd l) :
    Retains l (respond S i l) := by
  have hfd : (respond S i l).c.fd = l.c.fd := by
    rw [respond_c]
    split_ifs <;> simp
  have hloop := respond_loop (S := S) (i := i) (l := l)
  have hfiles := respond_files (S := S) (i := i) (l := l)
  split_ifs at hloop hfiles
  · exact .of_timers respond_self hfd obtained_respond hfiles (by rw [hloop]; rfl)
      (by rw [hloop]; rfl) (fun hd => hloop ▸ ⟨hd.lt, hd.unique⟩)
      fun _ _ _ _ _ => by rw [hloop]; exact .rfl
  · exact (Retains.createFileEvent hl _ _).trans (.of_loop (by simp) (by simp [hfd])
      (obtained_respond.trans (by simp [Obtained])) hfiles hloop)
  · exact .of_loop respond_self hfd obtained_respond hfiles hloop

end Retains

/-- A turn leaves alone what belongs to the process and to other connections. -/
structure Spares (l l' : Local) : Prop where
  setsize : l'.thread.loop.setsize = l.thread.loop.setsize
  owner : ∀ fd o, o ≠ .conn l.self → (l'.files.owner fd = some o ↔ l.files.owner fd = some o)
  events : ∀ fd, (l.thread.loop.events fd).mask ≠ .none →
    (l.thread.loop.events fd).clientData ≠ l.self →
    l'.thread.loop.events fd = l.thread.loop.events fd
  armed : ∀ id proc, proc.conn ≠ none → proc.conn ≠ some l.self →
    (l'.thread.loop.Armed id proc ↔ l.thread.loop.Armed id proc)

section Holding

variable {S : Setting} {l l' m : Local} {taken : Fd → Prop} {point point' : Point}
  {piece : Piece} {caller : Caller} {fd id : ℕ}

/-! ### Acts -/

theorem Act.retains (h : Act S l l') (htcp : l'.tcp = l.tcp) (hl : Holding taken .outside l) :
    Retains l l' := by
  have hcalled : ∀ {fd : Fd} {writable : Bool} {proc : FileProc}, l.Calls fd writable proc →
      Attached l.c.fd l ∧ l.c.fd = fd := fun hcalls =>
    ⟨hl.stands (hl.calls _ _ _ hcalls).2,
      Option.some.inj (hl.own _ (FileEvent.mask_of_handler hcalls.1) hcalls.2)⟩
  cases h with
  | tick now => exact retains_tick
  | thread t hframe => exact .of_frame hframe
  | initial id now i harmed => simp [delayedInitialConnect] at htcp
  | reconnect i hconnected => simp [reconnectSocket] at htcp
  | paced now => exact retains_paced
  | park fd writable armed wait hcalls hwritten =>
    obtain ⟨hattached, rfl⟩ := hcalled hcalls
    exact retains_park hattached
  | resume id harmed => exact retains_resume (hl.stands (hl.timers id harmed).2) harmed
  | start fd writable i hcalls hwritten hclock hpermits =>
    refine .of_loop (by simp) (by simp [startBatch_c]) ?_ (by simp) (by simp)
    rw [Obtained, startBatch_history]
    split_ifs <;> simp [Obtained]
  | wrote fd writable n hcalls hbatch =>
    obtain ⟨hattached, rfl⟩ := hcalled hcalls
    exact retains_wrote hattached
  | established fd writable hcalls =>
    obtain ⟨hattached, rfl⟩ := hcalled hcalls
    exact retains_established hattached
  | respond fd i hcalls => exact retains_respond (hcalled hcalls).1
  | fail | parser => exact .of_loop rfl rfl .rfl rfl rfl
  | field fd piece hcalls hwant =>
    exact .of_loop rfl (by rw [headerField_c]) (obtained_iff [_] rfl (by simp)) rfl rfl
  | value fd piece hcalls hwant =>
    exact .of_loop rfl (by rw [headerValue_c]) (obtained_iff [_] rfl (by simp)) rfl rfl
  | refuse | body => exact .of_loop rfl rfl (obtained_iff [_] rfl (by simp)) rfl rfl

theorem Retains.spares (h : Retains l l') (hl : Holding taken point l) : Spares l l' where
  setsize := h.setsize
  owner fd o hne := by rw [h.owner]
  events fd hmask hclient := by
    refine (h.events fd).resolve_right ?_
    rintro ⟨-, howner, -⟩
    rw [(hl.registered fd hmask).1, Option.some.injEq, Owner.conn.injEq] at howner
    exact hclient howner
  armed id proc hconn hne := h.armed hl.distinct id proc hconn (by rintro rfl; exact hne rfl)

theorem Holding.of_retains (hl : Holding taken .outside l) (hb : Basic l') (h : Retains l l') :
    Holding taken .outside l' where
  toBasic := hb
  distinct := h.distinct hl.distinct
  uses u hu := (h.uses u hu).elim (hl.uses u) id
  registered fd hmask := by
    rw [h.owner, h.self]
    rcases h.events fd with heq | ⟨-, howner, hclient, -⟩
    · rw [heq] at hmask ⊢
      exact hl.registered fd hmask
    · rw [hclient]
      exact ⟨howner, rfl⟩
  process fd hfd := by
    rw [h.owner]
    exact hl.process fd hfd
  own fd hmask hclient := by
    rw [Point.place, h.fd]
    rcases h.events fd with heq | ⟨hfd, -⟩
    · rw [heq] at hmask hclient
      exact hl.own fd hmask (hclient.trans h.self)
    · exact congrArg some hfd.symm
  first id harmed := by
    rw [h.self] at harmed ⊢
    rw [h.obtained]
    exact hl.first id ((h.armed hl.distinct id _ (by simp [TimeProc.conn]) (by simp)).mp harmed)
  fresh hobtained := h.fd.trans (hl.fresh (mt h.obtained.mpr hobtained))
  stands hobtained := h.attached (hl.stands (h.obtained.mp hobtained))

/-! ### Pieces -/

theorem Holding.none_of_place (hl : Holding taken point l) (hplace : point.place l.c = none)
    {fd : Fd} (hmask : (l.thread.loop.events fd).mask ≠ .none) :
    (l.thread.loop.events fd).clientData ≠ l.self := by
  intro hself
  have hown := hl.own fd hmask hself
  simp [hplace] at hown

/-- A piece that leaves the event loop and the table alone. -/
theorem Spares.of_loop (hloop : l'.thread.loop = l.thread.loop)
    (howner : l'.files.owner = l.files.owner) : Spares l l' :=
  ⟨by rw [hloop], fun _ _ _ => by rw [howner], fun _ _ _ => by rw [hloop],
    fun _ _ _ _ => by rw [hloop]⟩

/-- A piece in which the owner of one descriptor changes. -/
theorem Spares.of_owner {fd : Fd} {o : Option Owner} (hloop : l'.thread.loop = l.thread.loop)
    (howner : l'.files.owner = Function.update l.files.owner fd o)
    (hbefore : ∀ o, l.files.owner fd = some o → o = .conn l.self)
    (hafter : ∀ o', o = some o' → o' = .conn l.self) : Spares l l' := by
  refine ⟨by rw [hloop], fun fd' o' hne => ?_, fun _ _ _ => by rw [hloop],
    fun _ _ _ _ => by rw [hloop]⟩
  rw [howner]
  by_cases hfd : fd' = fd
  · subst hfd
    rw [Function.update_self]
    exact ⟨fun h => absurd (hafter o' h) hne, fun h => absurd (hbefore o' h) hne⟩
  · rw [Function.update_of_ne hfd]

theorem Holding.initial (hl : Holding taken .outside l) (id : ℕ) (now : Micros)
    (harmed : l.thread.loop.Armed id (.delayedInitialConnect l.self)) :
    Holding taken (.called (.initial id)) (l.begun now) ∧ Spares l (l.begun now) := by
  have hfirst : ¬ l.Obtained := fun h => by simpa [Point.first] using (hl.first id harmed).2 h
  have hobtained : (l.begun now).Obtained ↔ l.Obtained := obtained_iff [_] rfl (by simp)
  refine ⟨⟨hl.toBasic.of_loop rfl le_rfl (List.suffix_cons _ _) rfl, hl.distinct, hl.uses,
    hl.registered, hl.process, fun fd hmask hself => ?_, fun id' h => ⟨(hl.first id' h).1, ?_⟩,
    fun _ => hl.fresh hfirst, harmed, ?_⟩, .of_loop rfl rfl⟩
  · exact absurd (hl.toBasic.of_events hmask hself).2 hfirst
  · exact fun h => absurd (hobtained.mp h) hfirst
  · simpa [hobtained, Caller.again] using hfirst

/-- Nothing is armed for the first connect of a connection that has obtained a descriptor. -/
theorem Holding.not_armed (hl : Holding taken point l) (hpoint : point.first = none)
    (hobtained : l.Obtained) {id : ℕ} :
    ¬ l.thread.loop.Armed id (.delayedInitialConnect l.self) := fun h => by
  simpa [hpoint] using (hl.first id h).2 hobtained

theorem Holding.deregister (hl : Holding taken .outside l) (hconnected : l.Connected) :
    Holding taken .deregistered ((l.deleteFileEvent l.c.fd .both).note .closed) ∧
      Spares l ((l.deleteFileEvent l.c.fd .both).note .closed) := by
  have hattached : Attached l.c.fd l := hl.stands hconnected.2
  -- Of the connection's only descriptor no handler is left.
  have hevents : ∀ fd, ((l.deleteFileEvent l.c.fd .both).thread.loop.events fd).mask ≠ .none →
      fd ≠ l.c.fd ∧ (l.deleteFileEvent l.c.fd .both).thread.loop.events fd =
        l.thread.loop.events fd := by
    intro fd hmask
    by_cases hfd : fd = l.c.fd
    · subst hfd
      rw [deleteFileEvent_mask, if_pos ⟨rfl, hattached.setsize⟩] at hmask
      exact absurd (by simp [Mask.diff, Mask.both, Mask.none]) hmask
    · exact ⟨hfd, by simp [deleteFileEvent_events, hfd]⟩
  have hconnected' : ((l.deleteFileEvent l.c.fd .both).note .closed).Connected :=
    hconnected.mono le_rfl (List.suffix_cons _ _)
  refine ⟨⟨.of_connected hconnected' (writeSide_deleteFileEvent hl.writeSide),
    hl.distinct.of_armed (fun _ _ h => armed_deleteFileEvent.mp h) (by simp),
    fun u hu => ?_, fun fd hmask => ?_, hl.process, fun fd hmask hself => ?_, fun id harmed => ?_,
    fun h => absurd hconnected'.2 h, hconnected'.2, hattached.owner⟩,
    by simp, fun _ _ _ => .rfl, fun fd hmask hclient => ?_, fun _ _ _ _ => armed_deleteFileEvent⟩
  · rcases List.mem_cons.mp hu with rfl | hu
    · exact hattached.owner
    · exact hl.uses u hu
  · obtain ⟨-, heq⟩ := hevents fd hmask
    rw [note_thread, heq] at hmask ⊢
    exact hl.registered fd hmask
  · obtain ⟨hne, heq⟩ := hevents fd hmask
    rw [note_thread, heq] at hmask hself
    exact absurd (Option.some.inj (hl.own fd hmask hself)).symm hne
  · exact absurd (armed_deleteFileEvent.mp harmed) (hl.not_armed rfl hconnected.2)
  · have hfd : fd ≠ l.c.fd := by
      rintro rfl
      exact hclient hattached.clientData
    simp [deleteFileEvent_events, hfd]

/-- What is registered or taken is not a descriptor that the connection holds unregistered. -/
theorem Holding.ne_own (hl : Holding taken point l) (hplace : point.place l.c = none)
    (howner : l.files.owner fd = some (.conn l.self)) :
    (∀ fd', (l.thread.loop.events fd').mask ≠ .none → fd' ≠ fd) ∧ ∀ fd', taken fd' → fd' ≠ fd := by
  constructor
  · rintro fd' hmask rfl
    have heq := (hl.registered fd' hmask).1
    rw [howner, Option.some.injEq, Owner.conn.injEq] at heq
    exact hl.none_of_place hplace hmask heq.symm
  · rintro fd' hfd rfl
    simpa [howner] using hl.process fd' hfd

/-- Such a descriptor can be closed. -/
theorem Holding.given_back (hl : Holding taken point l) (hplace : point.place l.c = none)
    (howner : l.files.owner fd = some (.conn l.self)) :
    (∀ u ∈ (l.close fd).files.uses, u.owner = some (.conn u.conn)) ∧
      (∀ fd', (l.thread.loop.events fd').mask ≠ .none →
        (l.close fd).files.owner fd' = some (.conn (l.thread.loop.events fd').clientData) ∧
          (l.thread.loop.events fd').clientData.thread = l.self.thread) ∧
      ∀ fd', taken fd' → (l.close fd).files.owner fd' = some .process := by
  obtain ⟨hregistered, htaken⟩ := hl.ne_own hplace howner
  refine ⟨fun u hu => ?_, fun fd' hmask => ?_, fun fd' hfd => ?_⟩
  · rcases List.mem_cons.mp hu with rfl | hu
    · exact howner
    · exact hl.uses u hu
  · obtain ⟨howner', hthread⟩ := hl.registered fd' hmask
    exact ⟨(Function.update_of_ne (hregistered fd' hmask) ..).trans howner', hthread⟩
  · exact (Function.update_of_ne (htaken fd' hfd) ..).trans (hl.process fd' hfd)

theorem Holding.close (hl : Holding taken .deregistered l) :
    Holding taken (.called .reconnect) (l.close l.c.fd) ∧ Spares l (l.close l.c.fd) := by
  obtain ⟨hobtained, howner⟩ := hl.stands
  obtain ⟨huses, hregistered, htaken⟩ := hl.given_back rfl howner
  exact ⟨⟨hl.toBasic.of_loop rfl le_rfl List.suffix_rfl rfl, hl.distinct, huses, hregistered,
    htaken, fun fd hmask hself => absurd hself (hl.none_of_place rfl hmask), hl.first, hl.fresh,
    trivial, iff_of_true hobtained rfl⟩, .of_owner rfl rfl (by simp [howner]) (by simp)⟩

theorem Holding.obtain (hl : Holding taken (.called caller) l) (hfree : l.files.owner fd = none) :
    Holding taken (.obtained caller fd) (l.obtain fd) ∧ Spares l (l.obtain fd) := by
  obtain ⟨hentered, hagain⟩ := hl.stands
  have hother : ∀ fd' o, l.files.owner fd' = some o → (l.obtain fd).files.owner fd' = some o := by
    intro fd' o howner
    have hne : fd' ≠ fd := by
      rintro rfl
      simp [hfree] at howner
    exact (Function.update_of_ne hne ..).trans howner
  refine ⟨⟨hl.toBasic.of_loop rfl (Nat.le_succ _) List.suffix_rfl rfl, hl.distinct, hl.uses,
    fun fd' hmask => ?_, fun fd' hfd => hother fd' _ (hl.process fd' hfd),
    fun fd' hmask hself => absurd hself (hl.none_of_place rfl hmask), fun id harmed => ?_, hl.fresh,
    ?_, hagain, Nat.succ_ne_zero _, Function.update_self ..⟩,
    .of_owner rfl rfl (by simp [hfree]) (by simp [eq_comm])⟩
  · obtain ⟨howner, hthread⟩ := hl.registered fd' hmask
    exact ⟨hother fd' _ howner, hthread⟩
  · cases caller <;> exact hl.first id harmed
  · cases caller <;> exact hentered

/-- The error exit gives the descriptor back. -/
theorem Holding.failed (hl : Holding taken (.obtained (.initial id) fd) l) :
    Holding taken (.returned (.initial id)) ((connectFailed false l).close fd) ∧
      Spares l ((connectFailed false l).close fd) := by
  obtain ⟨hentered, hagain, -, howner⟩ := hl.stands
  have hfirst : ¬ l.Obtained := by simpa [Caller.again] using hagain
  have hobtained : ((connectFailed false l).close fd).Obtained ↔ l.Obtained :=
    obtained_iff [_] rfl (by simp)
  obtain ⟨huses, hregistered, htaken⟩ := hl.given_back rfl howner
  exact ⟨⟨hl.toBasic.of_loop rfl le_rfl (List.suffix_cons _ _) rfl, hl.distinct, huses,
    hregistered, htaken, fun fd' hmask hself => absurd hself (hl.none_of_place rfl hmask),
    fun id' harmed => ⟨(hl.first id' harmed).1, fun h => absurd (hobtained.mp h) hfirst⟩,
    fun _ => hl.fresh hfirst, hentered, fun h => absurd (hobtained.mp h) hfirst⟩,
    .of_owner rfl rfl (by simp [howner]) (by simp)⟩

theorem Holding.register (hl : Holding taken (.obtained caller fd) l)
    (hfd : fd < l.thread.loop.setsize) :
    Holding taken (.registered caller fd) ({ l.register fd .both .socketConnected with
        kernel := l.kernel }.note (.connect caller.again true)) ∧
      Spares l ({ l.register fd .both .socketConnected with
        kernel := l.kernel }.note (.connect caller.again true)) := by
  obtain ⟨hentered, hagain, htcp, howner⟩ := hl.stands
  obtain ⟨hregistered, -⟩ := hl.ne_own rfl howner
  set l' := ({ l.register fd .both .socketConnected with
    kernel := l.kernel }.note (.connect caller.again true)) with hl'
  have hobtained : l'.Obtained := ⟨caller.again, List.mem_cons_self⟩
  have hother : ∀ fd' ≠ fd, l'.thread.loop.events fd' = l.thread.loop.events fd' :=
    fun fd' hne => (register_events fd').trans (if_neg hne)
  have hself : l'.thread.loop.events fd = _ := (register_events fd).trans (if_pos rfl)
  refine ⟨⟨.of_connected ⟨htcp, hobtained⟩ (writeSide_register hl.writeSide (by simp)),
    hl.distinct.of_armed (fun _ _ h => h) le_rfl, fun u hu => ?_, fun fd' hmask => ?_, hl.process,
    fun fd' hmask hclient => ?_,
    fun id harmed => ⟨(hl.first id harmed).1, fun _ => ?_⟩, fun h => absurd hobtained h, ?_,
    hobtained, ⟨howner, hfd, ?_, ?_⟩, fun h => ?_⟩,
    rfl, fun _ _ _ => .rfl, fun fd' hmask _ => hother fd' (hregistered fd' hmask),
    fun _ _ _ _ => .rfl⟩
  · rcases List.mem_cons.mp hu with rfl | hu
    · exact howner
    · exact hl.uses u hu
  · by_cases heq : fd' = fd
    · subst heq
      rw [hself]
      exact ⟨howner, rfl⟩
    · rw [hother fd' heq] at hmask ⊢
      exact hl.registered fd' hmask
  · by_contra hne
    have heq : fd' ≠ fd := fun h => hne (congrArg some h.symm)
    rw [hother fd' heq] at hmask hclient
    exact hl.none_of_place rfl hmask hclient
  · cases caller with
    | initial id' => rw [(hl.first id harmed).1, ← (hl.first id' hentered).1]; rfl
    | reconnect => exact absurd harmed (hl.not_armed rfl (hagain.mpr rfl))
  · cases caller <;> exact hentered
  · rw [hself]
    rfl
  · rw [hself]
    simp [Mask.union, Mask.both]
  · refine hl.fresh ?_
    simp [hagain, h]

theorem Holding.store (hl : Holding taken (.registered caller fd) l) :
    Holding taken (.returned caller) { l with c := { l.c with fd } } ∧
      Spares l { l with c := { l.c with fd } } := by
  obtain ⟨hentered, hobtained, ⟨howner, hsetsize, hclient, hread⟩, -⟩ := hl.stands
  refine ⟨⟨hl.toBasic.of_loop rfl le_rfl List.suffix_rfl rfl, hl.distinct, hl.uses, hl.registered,
    hl.process, hl.own, fun id harmed => ?_, fun h => absurd hobtained h, ?_,
    fun _ => ⟨howner, hsetsize, hclient, hread⟩⟩, .of_loop rfl rfl⟩
  · cases caller <;> exact hl.first id harmed
  · cases caller <;> exact hentered

theorem Holding.finish (hl : Holding taken (.returned caller) l) :
    Holding taken .outside (caller.finish l) ∧ Spares l (caller.finish l) := by
  obtain ⟨hentered, hattached⟩ := hl.stands
  cases caller with
  | reconnect => exact ⟨⟨hl.toBasic, hl.distinct, hl.uses, hl.registered, hl.process, hl.own,
      hl.first, hl.fresh, hattached⟩, .of_loop rfl rfl⟩
  | initial id =>
    have hdelete : ∀ id' proc, (aeDeleteTimeEvent l.thread.loop id).Armed id' proc →
        l.thread.loop.Armed id' proc := fun _ _ h => (EventLoop.armed_aeDeleteTimeEvent.mp h).1
    refine ⟨⟨⟨hl.writeSide, hl.calls, fun id' h => hl.timers id' (hdelete id' _ h)⟩,
      hl.distinct.of_armed hdelete le_rfl, hl.uses, hl.registered, hl.process, hl.own,
      fun id' harmed => ?_, hl.fresh, fun hobtained => ?_⟩, rfl, fun _ _ _ => .rfl,
      fun _ _ _ => rfl, fun id' proc hconn hne => ?_⟩
    · -- There was only one first connect, whose time event is gone.
      obtain ⟨harmed, hne⟩ := EventLoop.armed_aeDeleteTimeEvent.mp harmed
      exact absurd ((hl.first id' harmed).1.trans (hl.first id hentered).1.symm) hne
    · obtain ⟨howner, hsetsize, hclient, hread⟩ := hattached hobtained
      exact ⟨howner, hsetsize, hclient, hread⟩
    · refine hl.distinct.armed_delete hentered ?_
      rintro rfl
      exact hne rfl

/-- A piece keeps what its connection owns and spares what belongs to others, as long as
    `socket` returns a number and a reconnect does not fail. -/
theorem Piece.Leads.holding (h : piece.Leads l point point' l') (hcalled : piece.Called l)
    (hsocket : piece ≠ .socket none) (hreconnect : ∀ fd, point = .obtained .reconnect fd →
      piece.Succeeds l.thread.loop.setsize point) (hl : Holding taken point l) :
    Holding taken point' l' ∧ Spares l l' := by
  cases h with
  | initial id now => exact hl.initial id now hcalled
  | deregister => exact hl.deregister hcalled
  | close => exact hl.close
  | noSocket caller => exact absurd rfl hsocket
  | socket caller fd hfree => exact hl.obtain hfree
  | failed caller fd refused added hfailed =>
    cases caller with
    | initial id => exact hl.failed
    | reconnect =>
      obtain ⟨rfl, rfl, hfd⟩ := hreconnect fd rfl
      have hopen : l.files.isOpen fd = true := by
        simp [Files.isOpen, hl.stands.2.2.2]
      simp [hfd, hopen] at hfailed
  | registered caller fd added hfd => exact hl.register hfd
  | store caller fd => exact hl.store
  | finish caller => exact hl.finish

end Holding

/-! ## Beside -/

section Beside

variable {S : Setting} {l l' m m' : Local} {taken : Fd → Prop} {point point' : Point}

/-- What a connection has obtained depends on what it has for itself and on a few facts about
    its thread and the table. -/
theorem Stands.congr (hfd : m'.c.fd = m.c.fd) (hobtained : m'.Obtained ↔ m.Obtained)
    (htcp : m'.tcp = m.tcp) (hself : m'.self = m.self)
    (howner : ∀ fd, m.files.owner fd = some (.conn m.self) →
      m'.files.owner fd = some (.conn m.self))
    (harmed : ∀ id, m.thread.loop.Armed id (.delayedInitialConnect m.self) →
      m'.thread.loop.Armed id (.delayedInitialConnect m.self))
    (hattached : ∀ fd, Attached fd m → Attached fd m') (hm : Stands m point) :
    Stands m' point := by
  have hentered : ∀ caller : Caller, caller.Entered m → caller.Entered m' := by
    rintro (id | -) h
    · rw [Caller.Entered, hself]
      exact harmed id h
    · trivial
  cases point with
  | outside => exact fun h => hfd ▸ hattached _ (hm (hobtained.mp h))
  | deregistered => exact ⟨hobtained.mpr hm.1, by rw [hself, hfd]; exact howner _ hm.2⟩
  | called caller => exact ⟨hentered caller hm.1, hobtained.trans hm.2⟩
  | obtained caller fd =>
    obtain ⟨hin, hagain, htcp', howner'⟩ := hm
    exact ⟨hentered caller hin, hobtained.trans hagain, htcp ▸ htcp', hself ▸ howner fd howner'⟩
  | registered caller fd =>
    obtain ⟨hin, hobtained', hattached', hzero⟩ := hm
    exact ⟨hentered caller hin, hobtained.mpr hobtained', hattached fd hattached', hfd ▸ hzero⟩
  | returned caller =>
    exact ⟨hentered caller hm.1, fun h => hfd ▸ hattached _ (hm.2 (hobtained.mp h))⟩

theorem armed_beside (hself : l'.self = l.self) (hspares : Spares l l') (hne : m.self ≠ l.self)
    (hthread : m.self.thread = l.self.thread → m.thread = l.thread) {id : ℕ} {proc : TimeProc}
    (hconn : proc.conn = some m.self) :
    (l'.beside m).thread.loop.Armed id proc ↔ m.thread.loop.Armed id proc := by
  by_cases hk : m.self.thread = l.self.thread
  · simp only [Local.beside, hself, hk, if_true, hthread hk]
    exact hspares.armed id proc (by simp [hconn]) (by simpa [hconn] using hne)
  · simp only [Local.beside, hself, hk, if_false]

theorem attached_beside {fd : Fd} (hself : l'.self = l.self) (hspares : Spares l l')
    (hne : m.self ≠ l.self) (hfiles : m.files = l.files)
    (hthread : m.self.thread = l.self.thread → m.thread = l.thread) (hm : Attached fd m) :
    Attached fd (l'.beside m) := by
  obtain ⟨howner, hsetsize, hclient, hread⟩ := hm
  have howner' : l'.files.owner fd = some (.conn m.self) :=
    (hspares.owner fd (.conn m.self) (by simpa using hne)).mpr (hfiles ▸ howner)
  by_cases hk : m.self.thread = l.self.thread
  · have hshared : (l'.beside m).thread = l'.thread := by simp [Local.beside, hself, hk]
    rw [hthread hk] at hsetsize hclient hread
    have hevent := hspares.events fd (by rintro h; simp [h, Mask.none] at hread) (hclient ▸ hne)
    refine ⟨howner', ?_, ?_, ?_⟩ <;> rw [hshared]
    · rw [hspares.setsize]
      exact hsetsize
    · exact hevent ▸ hclient
    · exact hevent ▸ hread
  · have hapart : (l'.beside m).thread = m.thread := by simp [Local.beside, hself, hk]
    exact ⟨howner', hapart ▸ hsetsize, hapart ▸ hclient, hapart ▸ hread⟩

theorem basic_beside (hself : l'.self = l.self) (hforeign : l.Foreign l') (hspares : Spares l l')
    (hne : m.self ≠ l.self) (hthread : m.self.thread = l.self.thread → m.thread = l.thread)
    (hl' : Basic l') (hm : Basic m) : Basic (l'.beside m) := by
  refine ⟨fun fd => ?_, fun fd writable proc hcalls => ?_, fun id harmed => ?_⟩
  · by_cases hk : m.self.thread = l.self.thread
    · simpa [Local.beside, hself, hk] using hl'.writeSide fd
    · simpa [Local.beside, hself, hk] using hm.writeSide fd
  · by_cases hk : m.self.thread = l.self.thread
    · -- The handler was registered for `m` before, in some direction.
      have hshared : (l'.beside m).thread = l'.thread := by simp [Local.beside, hself, hk]
      rw [Local.Calls, hshared] at hcalls
      obtain ⟨hmask, heq⟩ := hforeign fd (FileEvent.mask_of_handler hcalls.1) (hcalls.2 ▸ hne)
      rw [← hthread hk] at hmask heq
      exact hm.of_events hmask (heq ▸ hcalls.2)
    · have hapart : (l'.beside m).thread = m.thread := by simp [Local.beside, hself, hk]
      rw [Local.Calls, hapart] at hcalls
      exact hm.calls fd writable proc hcalls
  · exact hm.timers id ((armed_beside hself hspares hne hthread rfl).mp harmed)

theorem Holding.beside (hl' : Holding taken point' l') (hself : l'.self = l.self)
    (hforeign : l.Foreign l') (hspares : Spares l l') (hne : m.self ≠ l.self)
    (hfiles : m.files = l.files) (hthread : m.self.thread = l.self.thread → m.thread = l.thread)
    (hm : Holding taken point m) : Holding taken point (l'.beside m) := by
  have howner : ∀ fd c, c ≠ l.self →
      (l'.files.owner fd = some (.conn c) ↔ m.files.owner fd = some (.conn c)) := by
    intro fd c hc
    rw [hfiles]
    exact hspares.owner fd (.conn c) (by simpa using hc)
  have harmed : ∀ {id proc}, proc.conn = some m.self →
      ((l'.beside m).thread.loop.Armed id proc ↔ m.thread.loop.Armed id proc) :=
    fun hconn => armed_beside hself hspares hne hthread hconn
  have hstands : Stands (l'.beside m) point :=
    Stands.congr (m := m) rfl .rfl rfl rfl (fun fd h => (howner fd _ hne).mpr h)
      (fun id h => (harmed rfl).mpr h)
      (fun fd => attached_beside hself hspares hne hfiles hthread) hm.stands
  have hbasic := basic_beside hself hforeign hspares hne hthread hl'.toBasic hm.toBasic
  have hfirst : ∀ id, (l'.beside m).thread.loop.Armed id (.delayedInitialConnect m.self) →
      id = m.self.slot ∧ (m.Obtained → point.first = some id) :=
    fun id h => hm.first id ((harmed rfl).mp h)
  by_cases hk : m.self.thread = l.self.thread
  · have hshared : (l'.beside m).thread = l'.thread := by simp [Local.beside, hself, hk]
    refine ⟨hbasic, hshared ▸ hl'.distinct, hl'.uses, fun fd hmask => ?_, hl'.process,
      fun fd hmask hclient => ?_, hfirst, hm.fresh, hstands⟩
    · rw [hshared] at hmask ⊢
      have hregistered := hl'.registered fd hmask
      rw [hself, ← hk] at hregistered
      exact hregistered
    · rw [hshared] at hmask hclient
      obtain ⟨hmask', heq⟩ := hforeign fd hmask (hclient ▸ hne)
      rw [← hthread hk] at hmask' heq
      exact hm.own fd hmask' (heq ▸ hclient)
  · have hapart : (l'.beside m).thread = m.thread := by simp [Local.beside, hself, hk]
    refine ⟨hbasic, hapart ▸ hm.distinct, hl'.uses, fun fd hmask => ?_, hl'.process,
      fun fd hmask hclient => ?_, hfirst, hm.fresh, hstands⟩
    · rw [hapart] at hmask ⊢
      obtain ⟨hconn, hclient⟩ := hm.registered fd hmask
      refine ⟨(howner fd _ ?_).mpr hconn, hclient⟩
      intro heq
      exact hk (hclient ▸ congrArg ConnId.thread heq)
    · rw [hapart] at hmask hclient
      exact hm.own fd hmask hclient

end Beside

end Wrkx
