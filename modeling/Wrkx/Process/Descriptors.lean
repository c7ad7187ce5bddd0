import Wrkx.Process.Holding

/-!
# Descriptors and their owners

The threads share the descriptor table and take turns act by act and piece by piece. Between
the `close` of a `reconnect_socket` and the end of its `connect_socket` another thread can
obtain, register and store the number that `c->fd` still names.

## Main results

- `Interleaves.owned` — a turn keeps what holds of all connections together
- `descriptors_owned` — every descriptor is used by its owner only
- `connections_kept` — no connection is left without a source of events
-/

namespace Wrkx

open Relation

/-! ## All connections of the process -/

/-- The condition on a piece under which descriptors stay with their owners. -/
structure Smooth (q : Interleaving) (i : ConnId) (piece : Piece) : Prop where
  /-- `socket` does not return -1 -/
  socket : piece ≠ .socket none
  /-- the `connect_socket` of a `reconnect_socket` does not fail -/
  reconnect : ∀ fd, q.point i = .obtained .reconnect fd →
    piece.Succeeds (q.process.threads i.thread).loop.setsize (q.point i)
  /-- no descriptor is registered whose number another connection, which `reconnect_socket` is
      about to give a new one, still has in `c->fd` -/
  order : ∀ caller fd added, q.point i = .obtained caller fd → piece = .connect false added →
    ∀ j ≠ i, (q.point j).stale → (q.process.peers j).c.fd ≠ fd

/-- The connection has the descriptor in `c->fd`, or `connect_socket` is about to store it. -/
def Interleaving.Holds (q : Interleaving) (i : ConnId) (fd : Fd) : Prop :=
  (q.process.peers i).c.fd = fd ∨ (q.point i).place (q.process.peers i).c = some fd

/-- What holds of all connections together. -/
structure Owned (taken : Fd → Prop) (q : Interleaving) : Prop where
  holding : ∀ i, Holding taken (q.point i) (q.view i [])
  apart : ∀ i j fd, q.Holds i fd → q.Holds j fd → i = j ∨ taken fd

section Process

variable {S : Setting} {l l' : Local} {point point' : Point} {p : Process}
  {q q' : Interleaving} {taken : Fd → Prop} {start : ProcessStart} {moves : List ProcessMove}
  {C : Piece → Prop} {fd : Fd}

theorem Holding.of_shared (hl : Holding taken point l) (kernel : List Bool) (aborted : Bool) :
    Holding taken point { l with kernel := kernel, aborted := aborted } :=
  ⟨⟨hl.writeSide, hl.calls, hl.timers⟩, hl.distinct, hl.uses, hl.registered, hl.process, hl.own,
    hl.first, hl.fresh, Stands.congr (m := l) rfl .rfl rfl rfl (fun _ h => h) (fun _ h => h)
      (fun _ ⟨howner, hsetsize, hclient, hread⟩ => ⟨howner, hsetsize, hclient, hread⟩) hl.stands⟩

theorem Holding.of_frame {t : Thread} (hframe : l.thread.Frame t)
    (hl : Holding taken .outside l) : Holding taken .outside { l with thread := t } := by
  refine hl.of_retains ⟨fun fd => hframe.events ▸ hl.writeSide fd, fun fd writable proc h => ?_,
    fun id h => hl.timers id (hframe.delay id _ h)⟩ (.of_frame hframe)
  exact hl.calls fd writable proc (calls_of_thread h rfl hframe.events.symm)

theorem Slice.holding (h : Slice S C l point point' l')
    (hC : ∀ piece, C piece → piece ≠ .socket none ∧ ∀ fd, point = .obtained .reconnect fd →
      piece.Succeeds l.thread.loop.setsize point) (hl : Holding taken point l) :
    Holding taken point' l' ∧ Spares l l' := by
  cases h with
  | act l' hact htcp =>
    have hretains := hact.retains htcp hl
    exact ⟨hl.of_retains (hact.basic hl.toBasic) hretains, hretains.spares hl⟩
  | piece piece l' hcalled hc hpiece =>
    exact (Local.piece_leads hpiece).holding hcalled (hC piece hc).1 (hC piece hc).2 hl

/-- A connection gets hold of a descriptor only by registering it. -/
theorem Slice.holds (h : Slice S C l point point' l') (hl : Holding taken point l)
    (hfd : l'.c.fd = fd ∨ point'.place l'.c = some fd) :
    (l.c.fd = fd ∨ point.place l.c = some fd) ∨
      ∃ caller added, point = .obtained caller fd ∧ C (.connect false added) := by
  cases h with
  | act l' hact htcp =>
    rw [Point.place, (hact.retains htcp hl).fd] at hfd
    exact .inl hfd
  | piece piece l' hcalled hc hpiece =>
    cases Local.piece_leads hpiece with
    | registered caller fd' added hsetsize =>
      rcases hfd with hfd | hfd
      · exact .inl (.inl hfd)
      · obtain rfl := Option.some.inj hfd
        exact .inr ⟨caller, added, rfl, hc⟩
    | store caller fd' => exact .inl (.inr (hfd.elim (congrArg some) id))
    | finish caller => cases caller <;> exact .inl hfd
    | initial | deregister | noSocket | failed =>
      rcases hfd with hfd | hfd
      · exact .inl (.inl hfd)
      · first
        | exact .inl (.inl (Option.some.inj hfd))
        | cases hfd
    | close | socket => exact .inl (.inl (hfd.elim id (by simp [Point.place])))

/-- A descriptor that a connection has in its hands is its own, unless `c->fd` is stale. -/
theorem Holding.holds (hl : Holding taken point l) (hzero : taken 0)
    (hfd : l.c.fd = fd ∨ point.place l.c = some fd) :
    l.files.owner fd = some (.conn l.self) ∨ taken fd ∨ point.stale ∧ l.c.fd = fd := by
  have hfresh : l.c.fd = 0 → l.c.fd = fd → taken fd := fun h heq => heq ▸ h ▸ hzero
  have hstands := hl.stands
  have hattached : (l.Obtained → Attached l.c.fd l) → l.c.fd = fd →
      l.files.owner fd = some (.conn l.self) ∨ taken fd ∨ point.stale ∧ l.c.fd = fd := by
    intro hattached heq
    by_cases hobtained : l.Obtained
    · exact .inl (heq ▸ (hattached hobtained).owner)
    · exact .inr (.inl (hfresh (hl.fresh hobtained) heq))
  have hcaller : ∀ {caller : Caller}, (caller.again = false → l.c.fd = 0) → l.c.fd = fd →
      l.files.owner fd = some (.conn l.self) ∨ taken fd ∨ caller.again ∧ l.c.fd = fd := by
    rintro (id | -) hzero' heq
    · exact .inr (.inl (hfresh (hzero' rfl) heq))
    · exact .inr (.inr ⟨rfl, heq⟩)
  have hagain : ∀ {caller : Caller}, (l.Obtained ↔ caller.again = true) →
      caller.again = false → l.c.fd = 0 := fun hiff h => hl.fresh (by simp [hiff, h])
  cases point with
  | outside => exact hattached hstands (hfd.elim id Option.some.inj)
  | deregistered => exact .inl (hfd.elim (fun heq => heq ▸ hstands.2) (by simp [Point.place]))
  | called caller =>
    exact hcaller (hagain hstands.2) (hfd.elim id (by simp [Point.place]))
  | obtained caller fd' =>
    exact hcaller (hagain hstands.2.1) (hfd.elim id (by simp [Point.place]))
  | registered caller fd' =>
    rcases hfd with heq | heq
    · exact hcaller hstands.2.2.2 heq
    · exact .inl (Option.some.inj heq ▸ hstands.2.2.1.owner)
  | returned caller => exact hattached hstands.2 (hfd.elim id Option.some.inj)

theorem Interleaves.owned (h : Interleaves S Smooth q q') (hzero : taken 0)
    (hq : Owned taken q) : Owned taken q' := by
  refine ⟨h.preserves (fun _ l kernel hl => hl.of_shared kernel l.aborted)
    (fun _ l hl => hl.of_shared l.kernel true) (fun _ _ hframe hl => hl.of_frame hframe)
    (fun i kernel point l' hslice hl => ?_) hq.holding, ?_⟩
  · obtain ⟨hl', hspares⟩ := hslice.holding (fun _ hc => ⟨hc.socket, hc.reconnect⟩) hl
    exact ⟨hl', fun _ m hm => hl'.beside hslice.self_eq hslice.foreign hspares hm.ne hm.files
      hm.thread⟩
  · cases h with
    | slice i kernel point l' hturns hslice =>
      have hl := (hq.holding i).of_shared kernel q.process.aborted
      have hother : ∀ {j fd}, j ≠ i → (q.put i point l').Holds j fd → q.Holds j fd := by
        intro j fd hne hj
        simpa [Interleaving.Holds, Interleaving.put, Process.put, hne] using hj
      -- What the connection `i` gets hold of is in no other hands.
      have hself : ∀ {j fd}, j ≠ i → (q.put i point l').Holds i fd → q.Holds j fd → taken fd := by
        intro j fd hne hi hj
        rw [Interleaving.Holds, Interleaving.put_point] at hi
        simp only [Interleaving.put, Process.put, Function.update_self] at hi
        rcases hslice.holds hl hi with hi | ⟨caller, added, hpoint, hc⟩
        · exact (hq.apart i j fd hi hj).resolve_left hne.symm
        · have hstands := (hq.holding i).stands
          rw [hpoint] at hstands
          have howner : q.process.files.owner fd = some (.conn i) := hstands.2.2.2
          rcases (hq.holding j).holds hzero hj with hown | htaken | ⟨hstale, hfd⟩
          · have heq := howner.symm.trans hown
            exact absurd (Owner.conn.inj (Option.some.inj heq)).symm hne
          · exact htaken
          · exact absurd hfd (hc.order caller fd added hpoint rfl j hne hstale)
      intro j j' fd hj hj'
      by_cases hji : j = i <;> by_cases hji' : j' = i
      · exact .inl (hji.trans hji'.symm)
      · exact .inr (hself hji' (hji ▸ hj) (hother hji' hj'))
      · exact .inr (hself hji (hji' ▸ hj') (hother hji hj))
      · exact hq.apart j j' fd (hother hji hj) (hother hji' hj')
    | timer | fail => exact hq.apart

/-! ### Start -/

theorem ProcessStart.holding (i : ConnId) :
    Holding (fun fd => start.files.files.owner fd ≠ none) .outside (start.process.view i []) := by
  have hnone : ∀ fd, ((start.process.view i []).thread.loop.events fd).mask = .none :=
    fun _ => ProcessStart.events
  have hfresh : ¬ (start.process.view i []).Obtained := by
    rintro ⟨again, hmem⟩
    simp [Process.view, ProcessStart.process] at hmem
  refine ⟨ProcessStart.basic i, distinct_startLoop, ?_, fun fd h => absurd (hnone fd) h,
    fun fd h => ?_, fun fd h => absurd (hnone fd) h,
    fun id h => ⟨?_, fun hobtained => absurd hobtained hfresh⟩, fun _ => rfl,
    fun hobtained => absurd hobtained hfresh⟩
  · simp [Process.view, ProcessStart.process, start.files.unused]
  · obtain ⟨owner, howner⟩ := Option.ne_none_iff_exists'.mp h
    exact howner.trans (start.files.ofProcess fd owner howner ▸ rfl)
  · rcases ProcessStart.armed.mp h with ⟨slot, -, rfl, hproc⟩ | ⟨-, hproc⟩ | ⟨-, hproc⟩
    · exact congrArg ConnId.slot (TimeProc.delayedInitialConnect.inj hproc)
    · cases hproc
    · cases hproc

theorem ProcessStart.owned (hzero : start.files.files.owner 0 ≠ none) :
    Owned (fun fd => start.files.files.owner fd ≠ none) start.process.settled := by
  refine ⟨ProcessStart.holding, fun i j fd hi _ => .inr ?_⟩
  obtain rfl : 0 = fd := hi.elim id Option.some.inj
  exact hzero

/-! ### Runs -/

/-- The connection has the descriptor in `c->fd`, or one of its handlers is registered for it. -/
def Process.Names (p : Process) (i : ConnId) (fd : Fd) : Prop :=
  (p.peers i).c.fd = fd ∨ ∃ k, ((p.threads k).loop.events fd).mask ≠ .none ∧
    ((p.threads k).loop.events fd).clientData = i

/-- Every use of a descriptor was by the connection that had obtained it and not closed it, a
    handler is registered for an open descriptor of its connection, and of the descriptors that
    connections have obtained no two connections name the same. -/
structure Ownership (p : Process) : Prop where
  uses : ∀ u ∈ p.files.uses, u.owner = some (.conn u.conn)
  registered : ∀ k fd, ((p.threads k).loop.events fd).mask ≠ .none →
    p.files.owner fd = some (.conn ((p.threads k).loop.events fd).clientData)
  apart : ∀ fd owner, p.files.owner fd = some (.conn owner) →
    ∀ i j, p.Names i fd → p.Names j fd → i = j

theorem Owned.ownership (hq : Owned taken q) : Ownership q.process := by
  have hregistered : ∀ k fd, ((q.process.threads k).loop.events fd).mask ≠ .none → _ :=
    fun k fd hmask => (hq.holding ⟨k, 0⟩).registered fd hmask
  refine ⟨(hq.holding ⟨0, 0⟩).uses, fun k fd hmask => (hregistered k fd hmask).1,
    fun fd owner howner i j hi hj => ?_⟩
  have hholds : ∀ i, q.process.Names i fd → q.Holds i fd := by
    rintro i (hfd | ⟨k, hmask, hclient⟩)
    · exact .inl hfd
    · have hthread : i.thread = k := hclient ▸ (hregistered k fd hmask).2
      subst hthread
      exact .inr ((hq.holding i).own fd hmask hclient)
  refine (hq.apart i j fd (hholds i hi) (hholds j hj)).resolve_right fun htaken => ?_
  exact absurd (howner.symm.trans ((hq.holding i).process fd htaken)) (by simp)

/-- However the threads take turns, every descriptor is used by its owner only as long as the
    pieces meet the condition. -/
theorem descriptors_owned (hzero : start.files.files.owner 0 ≠ none)
    (h : ReflTransGen (Interleaves S Smooth) start.process.settled q) : Ownership q.process :=
  (Run.preserves_of_reflTransGen (fun _ _ hstep => hstep.owned hzero) h
    (ProcessStart.owned hzero)).ownership

theorem Sequential.smooth {i : ConnId} {piece : Piece} (h : Sequential p q i piece)
    (hc : ∀ again, .connect again false ∉ (p.peers i).history) : Smooth q i piece := by
  refine ⟨?_, fun fd _ => h.2 hc, fun _ _ _ _ _ j hne hstale => ?_⟩
  · rintro rfl
    exact h.2 hc rfl
  · simp [h.1 j hne, Point.stale] at hstale

theorem ProcessStart.run_any (h : start.run S moves = some p) :
    ReflTransGen (Interleaves S fun _ _ _ => True) start.process.settled p.settled :=
  (ProcessStart.run_interleaves h).lift id fun _ _ hstep => hstep.mono fun _ _ _ _ => trivial

/-- A run of whole handlers in which no `connect_socket` fails. -/
theorem ProcessStart.run_smooth (h : start.run S moves = some p)
    (hc : ∀ i again, .connect again false ∉ (p.peers i).history) :
    ReflTransGen (Interleaves S Smooth) start.process.settled p.settled :=
  (ProcessStart.run_interleaves h).lift id fun _ _ hstep =>
    hstep.mono fun _ i _ hseq => hseq.smooth (hc i)

/-! ### Sources of events -/

/-- A connection that waits for its first connect, or has obtained a descriptor. -/
def Sourced (point : Point) (l : Local) : Prop :=
  (∃ id, l.thread.loop.Armed id (.delayedInitialConnect l.self)) ∧
    (∀ caller, point ≠ .returned caller) ∨ l.Obtained

theorem Sourced.of_retains (h : Retains l l') (hl : Holding taken .outside l)
    (hs : Sourced .outside l) : Sourced .outside l' := by
  rcases hs with ⟨⟨id, harmed⟩, -⟩ | hobtained
  · refine .inl ⟨⟨id, ?_⟩, by simp⟩
    rw [h.self]
    exact (h.armed hl.distinct id _ (by simp [TimeProc.conn]) (by simp)).mpr harmed
  · exact .inr (h.obtained.mpr hobtained)

/-- A piece whose calls succeed leaves no connection without a source of events. -/
theorem Piece.Leads.sourced {piece : Piece} (h : piece.Leads l point point' l')
    (hcalled : piece.Called l) (hsucceeds : piece.Succeeds l.thread.loop.setsize point)
    (hl : Holding taken point l) (hs : Sourced point l) : Sourced point' l' := by
  have hmono : ∀ {m : Local}, l.Obtained → l.history <:+ m.history → m.Obtained :=
    fun ⟨again, hmem⟩ hsuffix => ⟨again, hsuffix.subset hmem⟩
  cases h with
  | initial id now =>
    exact hs.imp (fun h => ⟨h.1, by simp⟩) fun h => hmono h (List.suffix_cons _ _)
  | deregister => exact .inr (hmono hcalled.2 (List.suffix_cons _ _))
  | close => exact .inr hl.stands.1
  | noSocket caller => exact absurd rfl hsucceeds
  | socket caller fd hfree => exact hs.imp_left fun h => ⟨h.1, by simp⟩
  | failed caller fd refused added hfailed =>
    obtain ⟨rfl, rfl, hfd⟩ := hsucceeds
    have hopen : l.files.isOpen fd = true := by simp [Files.isOpen, hl.stands.2.2.2]
    simp [hfd, hopen] at hfailed
  | registered caller fd added hfd => exact .inr ⟨caller.again, List.mem_cons_self⟩
  | store caller fd => exact .inr hl.stands.2.1
  | finish caller =>
    have hobtained : l.Obtained := hs.resolve_left fun h => h.2 caller rfl
    cases caller <;> exact .inr hobtained

theorem Slice.sourced (h : Slice S C l point point' l')
    (hC : ∀ piece, C piece → piece.Succeeds l.thread.loop.setsize point)
    (hl : Holding taken point l) (hs : Sourced point l) : Sourced point' l' := by
  cases h with
  | act l' hact htcp => exact .of_retains (hact.retains htcp hl) hl hs
  | piece piece l' hcalled hc hpiece =>
    exact (Local.piece_leads hpiece).sourced hcalled (hC piece hc) hl hs

/-- Every call of a piece succeeds. -/
def Succeeding (q : Interleaving) (i : ConnId) (piece : Piece) : Prop :=
  piece.Succeeds (q.process.threads i.thread).loop.setsize (q.point i)

theorem Interleaves.sourced {M : ConnId → Prop} (h : Interleaves S Succeeding q q')
    (hq : ∀ i, Holding taken (q.point i) (q.view i []) ∧
      (M i → Sourced (q.point i) (q.view i []))) :
    ∀ i, Holding taken (q'.point i) (q'.view i []) ∧
      (M i → Sourced (q'.point i) (q'.view i [])) := by
  refine h.preserves (I := fun point l => Holding taken point l ∧ (M l.self → Sourced point l))
    (fun _ l kernel hl => ⟨hl.1.of_shared kernel l.aborted, hl.2⟩)
    (fun _ l hl => ⟨hl.1.of_shared l.kernel true, hl.2⟩)
    (fun _ _ hframe hl => ⟨hl.1.of_frame hframe, fun hM =>
      .of_retains (.of_frame hframe) hl.1 (hl.2 hM)⟩)
    (fun i kernel point l' hslice hl => ?_) hq
  have hsocket : ∀ piece, Succeeding q i piece → piece ≠ .socket none := by
    rintro piece hc rfl
    exact hc rfl
  obtain ⟨hl', hspares⟩ := hslice.holding (fun piece hc => ⟨hsocket piece hc, fun _ _ => hc⟩) hl.1
  refine ⟨⟨hl', fun hM => hslice.sourced (fun _ hc => hc) hl.1 (hl.2 (hslice.self_eq ▸ hM))⟩,
    fun point' m hm hI => ⟨hl'.beside hslice.self_eq hslice.foreign hspares hm.ne hm.files
      hm.thread hI.1, fun hM => (hI.2 hM).imp_left fun ⟨⟨id, harmed⟩, hpoint⟩ => ?_⟩⟩
  exact ⟨⟨id, (armed_beside hslice.self_eq hspares hm.ne hm.thread rfl).mpr harmed⟩, hpoint⟩

/-- A connection waits for its first connect or for its next send, or its own open descriptor
    is registered. -/
def Process.Source (p : Process) (i : ConnId) : Prop :=
  (∃ id, (p.threads i.thread).loop.Armed id (.delayedInitialConnect i)) ∨
    (∃ id, (p.threads i.thread).loop.Armed id (.delayRequest i)) ∨
    ((p.threads i.thread).loop.events (p.peers i).c.fd).mask ≠ .none ∧
      ((p.threads i.thread).loop.events (p.peers i).c.fd).clientData = i ∧
      p.files.owner (p.peers i).c.fd = some (.conn i)

theorem ProcessStart.sourced {i : ConnId}
    (hi : i.thread < start.threads ∧ i.slot < start.connections) :
    Sourced .outside (start.process.view i []) :=
  .inl ⟨⟨i.slot, ProcessStart.armed.mpr (.inl ⟨i.slot, by simp [hi.1, hi.2], rfl, rfl⟩)⟩, by simp⟩

/-- As long as every call of `connect_socket` succeeds, no connection is ever left without a
    source of events. -/
theorem connections_kept (h : start.run S moves = some p)
    (hc : ∀ i again, .connect again false ∉ (p.peers i).history) {i : ConnId}
    (hi : i.thread < start.threads ∧ i.slot < start.connections) : p.Source i := by
  have hchain : ReflTransGen (Interleaves S Succeeding) start.process.settled p.settled :=
    (ProcessStart.run_interleaves h).lift id fun _ _ hstep =>
      hstep.mono fun _ j _ hseq => hseq.2 (hc j)
  obtain ⟨hholding, hsourced⟩ := Run.preserves_of_reflTransGen
    (P := fun q : Interleaving => ∀ i, Holding (fun fd => start.files.files.owner fd ≠ none)
      (q.point i) (q.view i []) ∧ (i.thread < start.threads ∧ i.slot < start.connections →
        Sourced (q.point i) (q.view i [])))
    (fun _ _ hstep hq => hstep.sourced hq) hchain
    (fun i => ⟨ProcessStart.holding i, ProcessStart.sourced⟩) i
  rcases hsourced hi with ⟨harmed, -⟩ | hobtained
  · exact .inl harmed
  · obtain ⟨howner, -, hclient, hread⟩ := hholding.stands hobtained
    refine .inr (.inr ⟨fun hnone => ?_, hclient, howner⟩)
    exact absurd hread (by simp [Process.settled, Interleaving.view, Process.view, hnone,
      Mask.none])

end Process

/-! ## Examples -/

section Examples

open Example

/-! ### Turns of two connections -/

/-- Only the two connections of `twoThreads` can be in the functions that connect. -/
def Example.TwoOnly (q : Interleaving) : Prop :=
  ∀ j, j ≠ ⟨0, 0⟩ → j ≠ ⟨1, 0⟩ → q.point j = .outside

/-- `Smooth`, checked for the two connections. -/
def Example.smoothCheck (q : Interleaving) (i : ConnId) (piece : Piece) : Bool :=
  match q.point i, piece with
  | _, .socket fd => fd.isSome
  | .obtained _ fd, .connect refused added =>
    !refused && added && decide (fd < (q.process.threads i.thread).loop.setsize) &&
      [⟨0, 0⟩, ⟨1, 0⟩].all fun j => decide (j = i) || !(q.point j).stale ||
        decide ((q.process.peers j).c.fd ≠ fd)
  | _, _ => true

theorem Example.smooth_of_check {q : Interleaving} {i : ConnId} {piece : Piece}
    (h : smoothCheck q i piece = true) (hq : TwoOnly q) : Smooth q i piece := by
  refine ⟨?_, fun fd hpoint => ?_, fun caller fd added hpoint heq j hne hstale => ?_⟩
  · rintro rfl
    simp [smoothCheck] at h
  · cases piece with
    | connect refused added =>
      simp only [smoothCheck, hpoint, Bool.and_eq_true, Bool.not_eq_true', decide_eq_true_eq] at h
      rw [hpoint]
      exact ⟨h.1.1.1, h.1.1.2, h.1.2⟩
    | socket fd' =>
      rw [hpoint]
      simpa [smoothCheck, hpoint, Piece.Succeeds, Option.ne_none_iff_isSome] using h
    | _ => rw [hpoint]; trivial
  · subst heq
    simp only [smoothCheck, hpoint, Bool.and_eq_true, List.all_cons, List.all_nil] at h
    have hj : j = ⟨0, 0⟩ ∨ j = ⟨1, 0⟩ := by
      by_contra hother
      push Not at hother
      simp [hq j hother.1 hother.2, Point.stale] at hstale
    rcases hj with rfl | rfl
    · simpa [hne, hstale] using h.2.1
    · simpa [hne, hstale] using h.2.2.1

/-- A checked piece of the connection of the thread `k`. -/
def Example.goOn (check : Interleaving → ConnId → Piece → Bool) (move : Fin 2 × Piece)
    (q : Interleaving) : Option Interleaving :=
  if check q ⟨move.1, 0⟩ move.2 then q.step ⟨move.1, 0⟩ move.2 else none

/-- Checked pieces are turns of the two threads. -/
theorem Example.goOn_interleaves {check : Interleaving → ConnId → Piece → Bool}
    {C : Interleaving → ConnId → Piece → Prop} {moves : List (Fin 2 × Piece)}
    {q q' : Interleaving} (hcheck : ∀ q i piece, check q i piece → TwoOnly q → C q i piece)
    (h : Run.run (goOn check) moves q = some q') (hq : TwoOnly q) :
    ReflTransGen (Interleaves (setting 1 false) C) q q' := by
  have hconn : ∀ (k : Fin 2) (j : ConnId), j ≠ ⟨k, 0⟩ → j.thread = k → j ≠ ⟨0, 0⟩ ∧ j ≠ ⟨1, 0⟩ := by
    rintro k j hne hthread
    constructor <;> rintro rfl <;> exact hne (by rw [← hthread])
  induction moves generalizing q with
  | nil =>
    obtain rfl : q = q' := Option.some.inj h
    exact .refl
  | cons move rest ih =>
    obtain ⟨t, hfirst, hrest⟩ := Run.run_cons h
    simp only [goOn, Option.ite_none_right_eq_some] at hfirst
    obtain ⟨hc, hstep⟩ := hfirst
    have hturns : q.Turns ⟨move.1, 0⟩ := fun j hne hthread =>
      hq j (hconn move.1 j hne hthread).1 (hconn move.1 j hne hthread).2
    refine .head (Interleaving.step_interleaves hstep hturns (hcheck _ _ _ hc hq)) (ih hrest ?_)
    simp only [Interleaving.step, Option.ite_none_right_eq_some] at hstep
    obtain ⟨-, hstep⟩ := hstep
    obtain ⟨⟨point, l⟩, -, rfl⟩ := Option.map_eq_some_iff.mp hstep
    intro j h0 h1
    have hne : ∀ k : Fin 2, j ≠ ⟨k, 0⟩ := Fin.forall_fin_two.mpr ⟨h0, h1⟩
    rw [Interleaving.put_point_of_ne (hne move.1)]
    exact hq j h0 h1

/-- Both connections are open. -/
def Example.bothOpen : Option Process :=
  twoThreads.run (setting 1 false)
    [on 0 (connect 0 5), on 1 (connect 0 6), on 0 (opens 5), on 1 (opens 6)]

/-- Both connections come to `reconnect_socket` and get new descriptors with turns of the other
    thread in between. The second one gets the number that the first one has closed, and
    registers it once the first one has stored another. -/
def Example.bothReconnect (p : Process) : Option Interleaving :=
  Run.run (goOn smoothCheck)
    [(0, .deregister), (1, .deregister), (0, .close), (1, .close), (0, .socket (some 7)),
      (0, .connect false true), (1, .socket (some 5)), (0, .store), (1, .connect false true),
      (0, .finish), (1, .store), (1, .finish)] p.settled

theorem untouched {moves : List ProcessMove} {p : Process} {i : ConnId}
    (h : twoThreads.run (setting 1 false) moves = some p)
    (hi : ∀ move ∈ moves, move.peer ≠ some i) : (p.peers i).history = [] := by
  rw [peers_of_run h hi]
  rfl

theorem descriptors_owned_reused : ∃ p q, Example.bothOpen = some p ∧
    Example.bothReconnect p = some q ∧ (q.process.peers ⟨0, 0⟩).c.fd = 7 ∧
    (q.process.peers ⟨1, 0⟩).c.fd = 5 ∧ Ownership q.process := by
  obtain ⟨p, hp, h0, h1, hq⟩ : ∃ p, Example.bothOpen = some p ∧
      (∀ again, .connect again false ∉ (p.peers ⟨0, 0⟩).history) ∧
      (∀ again, .connect again false ∉ (p.peers ⟨1, 0⟩).history) ∧
      (Example.bothReconnect p).any (fun q => decide ((q.process.peers ⟨0, 0⟩).c.fd = 7 ∧
        (q.process.peers ⟨1, 0⟩).c.fd = 5)) = true :=
    exists_of_any (by decide +kernel)
  obtain ⟨q, hq, hfd0, hfd1⟩ := exists_of_any hq
  refine ⟨p, q, hp, hq, hfd0, hfd1, descriptors_owned (by decide)
    ((ProcessStart.run_smooth hp fun i again => ?_).trans
      (goOn_interleaves (fun _ _ _ => smooth_of_check) hq fun _ _ _ => rfl))⟩
  by_cases hi0 : i = ⟨0, 0⟩
  · exact hi0 ▸ h0 again
  · by_cases hi1 : i = ⟨1, 0⟩
    · exact hi1 ▸ h1 again
    · rw [untouched hp (by simp [on, connect, opens, ProcessMove.peer, Ne.symm hi0, Ne.symm hi1])]
      simp

/-! ### Descriptors of others -/

/-- The connection of the first thread waits for its next send when its peer closes and
    `connect` fails. The one of the second thread gets the same descriptor number, and then the
    time event of the first fires. -/
def Example.staleDescriptor : Option Process :=
  twoThreads.run (setting 1 false)
    [on 0 (connect 0 5), on 0 (opens 5), on 0 (write 5 0 [] (.ok 3)),
      on 0 (read 5 [completed 1 true (connects 5)]), on 0 (write 5 2 [] (.ok 3)),
      on 0 (.event (.file 5 false (.readable (refuses 6) [.error]))), on 1 (connect 0 5),
      on 0 (timer 3 1000)]

/-- A connection whose reconnect failed registers a handler for the descriptor of another one. -/
theorem stale_descriptor_registers : ∃ p : Process, Example.staleDescriptor = some p ∧
    ReflTransGen (Interleaves (setting 1 false) fun _ _ _ => True) twoThreads.process.settled
      p.settled ∧
    ⟨⟨0, 0⟩, some 5, some (.conn ⟨1, 0⟩)⟩ ∈ p.files.uses ∧ ¬ Ownership p := by
  obtain ⟨p, hp, huse⟩ : ∃ p, Example.staleDescriptor = some p ∧
      (⟨⟨0, 0⟩, some 5, some (.conn ⟨1, 0⟩)⟩ : Use) ∈ p.files.uses :=
    exists_of_any (by decide +kernel)
  exact ⟨p, hp, ProcessStart.run_any hp, huse, fun h => by simpa using h.uses _ huse⟩

/-- A response that is not keep-alive, with more bytes behind it, and `connect` fails. -/
def Example.closesTwice : Option Process :=
  twoThreads.run (setting 1 false)
    [on 0 (connect 0 5), on 0 (opens 5), on 0 (write 5 0 [] (.ok 3)),
      on 0 (.event (.file 5 false (.readable (connects 5)
        [.ok 9 [completed 1 false (refuses 6)] .dead false false])))]

/-- `response_complete` and `socket_readable` both close the same descriptor. -/
theorem failed_reconnect_closes_twice : ∃ p : Process, Example.closesTwice = some p ∧
    (⟨⟨0, 0⟩, some 5, none⟩ : Use) ∈ p.files.uses ∧ ¬ Ownership p := by
  obtain ⟨p, hp, huse⟩ : ∃ p, Example.closesTwice = some p ∧
      (⟨⟨0, 0⟩, some 5, none⟩ : Use) ∈ p.files.uses :=
    exists_of_any (by decide +kernel)
  exact ⟨p, hp, huse, fun h => by simpa using h.uses _ huse⟩

/-- `socket` returns -1 for the first connect of a connection. -/
def Example.noDescriptor : Option Process :=
  twoThreads.run (setting 1 false)
    [on 0 (.event (.initialConnect 0 0 0 { socket := none, refused := true, added := true }))]

/-- `connect_socket` closes the number -1. -/
theorem no_descriptor_closed : ∃ p : Process, Example.noDescriptor = some p ∧
    (⟨⟨0, 0⟩, none, none⟩ : Use) ∈ p.files.uses ∧ ¬ Ownership p := by
  obtain ⟨p, hp, huse⟩ : ∃ p, Example.noDescriptor = some p ∧
      (⟨⟨0, 0⟩, none, none⟩ : Use) ∈ p.files.uses :=
    exists_of_any (by decide +kernel)
  exact ⟨p, hp, huse, fun h => by simpa using h.uses _ huse⟩

/-- The peer of the first connection has closed, and `socket_readable` counts the error. -/
def Example.hangsUp : Option Process :=
  (twoThreads.run (setting 1 false) [on 0 (connect 0 5), on 0 (opens 5)]).map fun p =>
    p.put ⟨0, 0⟩ ((p.view ⟨0, 0⟩ []).setErrors fun e => { e with read := e.read.add 1 })

/-- While the first thread is between `close(c->fd)` and `c->fd = fd`, the first connect of the
    second thread gets the number that was closed. -/
def Example.window (p : Process) : Option Interleaving :=
  Run.run (goOn fun _ _ _ => true)
    [(0, .deregister), (0, .close), (1, .initial 0 0), (1, .socket (some 5)),
      (1, .connect false true), (1, .store)] p.settled

/-- No call has failed, and both connections have the descriptor of the second one in
    `c->fd`. -/
theorem window_shares_descriptor : ∃ p q, Example.hangsUp = some p ∧ Example.window p = some q ∧
    ReflTransGen (Interleaves (setting 1 false) fun _ _ _ => True) twoThreads.process.settled q ∧
    (∀ again, .connect again false ∉ (q.process.peers ⟨0, 0⟩).history) ∧
    (∀ again, .connect again false ∉ (q.process.peers ⟨1, 0⟩).history) ∧
    q.process.Names ⟨0, 0⟩ 5 ∧ q.process.Names ⟨1, 0⟩ 5 ∧ ¬ Ownership q.process := by
  obtain ⟨p, hp, hq⟩ : ∃ p, Example.hangsUp = some p ∧
      (Example.window p).any (fun q => decide (
        (∀ again, .connect again false ∉ (q.process.peers ⟨0, 0⟩).history) ∧
        (∀ again, .connect again false ∉ (q.process.peers ⟨1, 0⟩).history) ∧
        (q.process.peers ⟨0, 0⟩).c.fd = 5 ∧ (q.process.peers ⟨1, 0⟩).c.fd = 5 ∧
        q.process.files.owner 5 = some (.conn ⟨1, 0⟩))) = true :=
    exists_of_any (by decide +kernel)
  obtain ⟨q, hq, h0, h1, hfd0, hfd1, howner⟩ := exists_of_any hq
  refine ⟨p, q, hp, hq, ?_, h0, h1, .inl hfd0, .inl hfd1, fun h => ?_⟩
  · obtain ⟨p₀, hp₀, rfl⟩ := Option.map_eq_some_iff.mp hp
    have hnoted := (ProcessAct.peer p₀ ⟨0, 0⟩ [] _ (setErrors_act (S := setting 1 false)
      fun e => { e with read := e.read.add 1 })).interleaves
    exact ((ProcessStart.run_any hp₀).trans (hnoted.lift id fun _ _ hstep =>
      hstep.mono fun _ _ _ _ => trivial)).trans
        (goOn_interleaves (fun _ _ _ _ _ => trivial) hq fun _ _ _ => rfl)
  · exact absurd (h.apart 5 _ howner ⟨0, 0⟩ ⟨1, 0⟩ (.inl hfd0) (.inl hfd1)) (by decide)

/-! ### Sources -/

/-- Both connections are closed by their peers, and each gets a descriptor that was in use
    before, the second one that of the first. -/
def Example.reuses : Option Process :=
  twoThreads.run (setting 1 false)
    [on 0 (connect 0 5), on 1 (connect 0 6), on 0 (opens 5), on 1 (opens 6), on 0 (hangUp 5 7),
      on 1 (hangUp 6 5)]

theorem connections_kept_reused : ∃ p : Process, Example.reuses = some p ∧
    (p.peers ⟨1, 0⟩).c.fd = 5 ∧ p.Source ⟨1, 0⟩ := by
  obtain ⟨p, hp, h0, h1, hfd⟩ : ∃ p, Example.reuses = some p ∧
      (∀ again, .connect again false ∉ (p.peers ⟨0, 0⟩).history) ∧
      (∀ again, .connect again false ∉ (p.peers ⟨1, 0⟩).history) ∧
      (p.peers ⟨1, 0⟩).c.fd = 5 :=
    exists_of_any (by decide +kernel)
  refine ⟨p, hp, hfd, connections_kept hp (fun i again => ?_) (by decide)⟩
  by_cases hi0 : i = ⟨0, 0⟩
  · exact hi0 ▸ h0 again
  · by_cases hi1 : i = ⟨1, 0⟩
    · exact hi1 ▸ h1 again
    · rw [untouched hp (by simp [on, connect, opens, hangUp, ProcessMove.peer, Ne.symm hi0,
        Ne.symm hi1])]
      simp

/-- The first `connect` of a connection fails at once. -/
def Example.refused : Option Process :=
  twoThreads.run (setting 1 false)
    [on 0 (.event (.initialConnect 0 0 0 (refuses 5)))]

/-- Nothing is left that could make the connection try again. -/
theorem refused_connect_loses : ∃ p : Process, Example.refused = some p ∧
    p.aborted = false ∧ ¬ p.Source ⟨0, 0⟩ := by
  obtain ⟨p, hp, habort, htimers, hevents⟩ : ∃ p, Example.refused = some p ∧ p.aborted = false ∧
      (∀ te ∈ (p.threads 0).loop.timeEvents, te.timeProc.conn ≠ some ⟨0, 0⟩) ∧
      ((p.threads 0).loop.events (p.peers ⟨0, 0⟩).c.fd).mask = .none :=
    exists_of_any (by decide +kernel)
  refine ⟨p, hp, habort, ?_⟩
  rintro (⟨id, te, hte, -, hproc⟩ | ⟨id, te, hte, -, hproc⟩ | ⟨hmask, -⟩)
  · exact htimers te hte (hproc ▸ rfl)
  · exact htimers te hte (hproc ▸ rfl)
  · exact hmask hevents

end Examples

end Wrkx
