import Wrkx.Connection.Acts

/-!
# Events are chains of acts

Each handler is taken apart into the acts it performs, with what it has made sure of before
each of them.

## Main results

- `step_acts` — an event of a connection is a chain of acts
- `machine_acts` — so is a move of a thread with one connection
-/

namespace Wrkx

open Relation

variable {S : Setting} {l l' : Local} {fd : Fd}

/-! ## The thread -/

theorem Thread.Frame.of_loop {t t' : Thread} (hloop : t'.loop = t.loop)
    (hstop : t'.stopAt = t.stopAt) (htally : t.Tally t') : t.Frame t' where
  events := by rw [hloop]
  setsize := by rw [hloop]
  nextId := by rw [hloop]
  delay := by simp [hloop]
  initial := by simp [hloop]
  distinct := by simp [hloop]
  kept := by simp [hloop]
  stopAt := hstop
  tally := htally

theorem setErrors_act (f : Errors → Errors) : Act S l (l.setErrors f) :=
  .thread l _ (.of_loop rfl rfl (.quiet rfl rfl rfl rfl rfl))

theorem addBytes_act (n : ℕ) : Act S l (addBytes n l) :=
  .thread l _ (.of_loop rfl rfl (.quiet rfl rfl rfl rfl rfl))

theorem rearm_frame (t : Thread) (id now : ℕ) (ms : ℤ) :
    t.Frame { t with loop := aeRearmTimeEvent t.loop id now ms } where
  events := rfl
  setsize := rfl
  nextId := le_rfl
  delay := by simp
  initial := by simp
  distinct h := h.of_armed (by simp) le_rfl
  kept := by simp
  stopAt := rfl
  tally := .quiet rfl rfl rfl rfl rfl

/-! ## Calls -/

theorem calls_of_thread {writable : Bool} {proc : FileProc} (h : l.Calls fd writable proc)
    (hself : l'.self = l.self) (hevents : l'.thread.loop.events = l.thread.loop.events) :
    l'.Calls fd writable proc := by
  simpa only [Local.Calls, hself, hevents] using h

/-- A descriptor that is read stays so when the write handler is registered. -/
theorem calls_createFileEvent {fd' : Fd} (h : l.Calls fd false .socketReadable) :
    (l.createFileEvent fd' .write .socketWriteable).2.Calls fd false .socketReadable := by
  rcases Local.createFileEvent_cases l fd' .write .socketWriteable with heq | ⟨-, -, heq⟩ <;>
    rw [heq]
  · exact h
  · obtain ⟨hhandler, hself⟩ := h
    have hread : (l.thread.loop.events fd).mask.readable = true ∧
        (l.thread.loop.events fd).rfileProc = .socketReadable := by
      simpa [FileEvent.handler] using hhandler
    refine ⟨?_, ?_⟩
    · simp only [FileEvent.handler, Local.register_mask, Local.register_rfileProc]
      split_ifs <;> simp_all [Mask.union, Mask.write]
    · rw [Local.register_clientData]
      split_ifs
      · rfl
      · exact hself

theorem calls_respond {i : CompleteInput} (h : l.Calls fd false .socketReadable) :
    (respond S i l).Calls fd false .socketReadable := by
  have hloop := respond_loop (S := S) (i := i) (l := l)
  split_ifs at hloop
  · exact calls_of_thread h respond_self (by rw [hloop]; rfl)
  · exact calls_of_thread (calls_createFileEvent h) (by simp) (by rw [hloop])
  · exact calls_of_thread h respond_self (by rw [hloop])

/-! ## Reading -/

/-- The calls of `socket_readable` may go on: a callback finds the handler registered, unless
    the parser makes none any more. -/
def Attending (fd : Fd) (l : Local) : Prop :=
  l.aborted = true ∨ l.c.parser = .dead ∨ l.Calls fd false .socketReadable

theorem Attending.of_not_dead (h : Attending fd l) (habort : l.aborted = false)
    (hdead : l.c.parser ≠ .dead) : l.Calls fd false .socketReadable := by
  rcases h with h | h | h
  · simp [habort] at h
  · exact absurd h hdead
  · exact h

theorem reconnectSocket_parserState {i : ConnectInput} :
    (reconnectSocket i l).c.parser = l.c.parser := by
  cases Local.reconnectSocket_connects i l with
  | failed hself hc => rw [hc]; rfl
  | opened newFd hself hc => rw [hc]; rfl

/-- What `response_complete` does past its early exit. -/
theorem responseComplete_eq {i : CompleteInput} : responseComplete S i l =
    if l.thread.stopAt ≤ i.now then respond S i l
    else if (respond S i l).aborted then respond S i l
    else if !i.keepAlive then reconnectSocket i.reconnect (respond S i l)
    else { respond S i l with c := { (respond S i l).c with parser := .start } } := by
  by_cases hstop : l.thread.stopAt ≤ i.now <;> simp [responseComplete, respond, hstop]

/-- `response_complete`, entered with the parser dead if it is to reconnect. -/
theorem responseComplete_acts {i : CompleteInput} (hb : Basic l)
    (hcalls : l.Calls fd false .socketReadable) :
    ReflTransGen (Act S) l (responseComplete S i l) ∧
      (i.keepAlive = true ∨ l.c.parser = .dead → Attending fd (responseComplete S i l)) := by
  have hrespond : Act S l (respond S i l) := .respond l fd i hcalls
  have hreading := calls_respond (S := S) (i := i) hcalls
  have hconnected := hrespond.connected (hb.calls _ _ _ hcalls)
  have hparser : (respond S i l).c.parser = l.c.parser := by
    rw [respond_c]
    split_ifs <;> simp
  rw [responseComplete_eq]
  split_ifs with hstop habort hkeep
  · exact ⟨.single hrespond, fun _ => .inr (.inr hreading)⟩
  · exact ⟨.single hrespond, fun _ => .inl habort⟩
  · refine ⟨.tail (.single hrespond) (.reconnect _ _ hconnected), fun h => .inr (.inl ?_)⟩
    rw [reconnectSocket_parserState, hparser]
    exact h.resolve_left (by simpa using hkeep)
  · exact ⟨.tail (.single hrespond) (.parser _ _), fun _ => .inr (.inr hreading)⟩

theorem runCallback_acts (callback : Callback) (hb : Basic l)
    (hcalls : l.Calls fd false .socketReadable) :
    ReflTransGen (Act S) l (runCallback S callback l) ∧
      Attending fd (runCallback S callback l) := by
  cases callback with
  | headerField piece =>
    by_cases hwant : S.cfg.wantResponse = true
    · simp only [runCallback, hwant, if_true]
      exact ⟨.single (.field l fd piece hcalls hwant), .inr (.inr hcalls)⟩
    · simp only [runCallback, hwant]
      exact ⟨.refl, .inr (.inr hcalls)⟩
  | headerValue piece =>
    by_cases hwant : S.cfg.wantResponse = true
    · simp only [runCallback, hwant, if_true]
      exact ⟨.single (.value l fd piece hcalls hwant), .inr (.inr hcalls)⟩
    · simp only [runCallback, hwant]
      exact ⟨.refl, .inr (.inr hcalls)⟩
  | body piece =>
    by_cases hwant : S.cfg.wantResponse = true
    · simp only [runCallback, hwant, if_true]
      exact ⟨.single (.body l fd piece hcalls hwant), .inr (.inr hcalls)⟩
    · simp only [runCallback, hwant]
      exact ⟨.refl, .inr (.inr hcalls)⟩
  | messageComplete i =>
    have hparser := Act.parser (S := S) l (if i.keepAlive then .start else .dead)
    obtain ⟨hchain, hattend⟩ := responseComplete_acts (S := S) (i := i) (hparser.basic hb) hcalls
    refine ⟨.head hparser hchain, hattend ?_⟩
    by_cases hkeep : i.keepAlive = true
    · exact .inl hkeep
    · exact .inr (by simp [hkeep])

theorem httpParserExecute_acts (callbacks : List Callback) (hb : Basic l) (h : Attending fd l) :
    ReflTransGen (Act S) l (httpParserExecute S callbacks l) ∧
      Attending fd (httpParserExecute S callbacks l) := by
  induction callbacks generalizing l with
  | nil => exact ⟨.refl, h⟩
  | cons callback rest ih =>
    rw [httpParserExecute]
    split_ifs with hdone
    · exact ⟨.refl, h⟩
    · simp only [not_or, Bool.not_eq_true] at hdone
      obtain ⟨hfirst, hattend⟩ :=
        runCallback_acts (S := S) callback hb (h.of_not_dead hdone.1 hdone.2)
      have hb' := Run.preserves_of_reflTransGen (fun _ _ h hl => h.basic hl) hfirst hb
      obtain ⟨hchain, hattend'⟩ := ih hb' hattend
      exact ⟨hfirst.trans hchain, hattend'⟩

theorem connected_of_acts (h : ReflTransGen (Act S) l l') (hl : l.Connected) : l'.Connected :=
  Run.preserves_of_reflTransGen (fun _ _ h hl => h.connected hl) h hl

theorem readError_acts {i : ConnectInput} (hl : l.Connected) :
    ReflTransGen (Act S) l (readError i l) :=
  .tail (.single (setErrors_act _)) (.reconnect _ i hl)

/-- The loop of `socket_readable`, in any of its rounds. -/
theorem socketReadable_acts {reconnect : ConnectInput} {rounds : List ReadInput} (fd : Fd)
    (hb : Basic l) (habort : l.aborted = false) (hl : l.Connected) (h : Attending fd l) :
    ReflTransGen (Act S) l (socketReadable S reconnect rounds l) := by
  induction rounds generalizing l with
  | nil => exact .refl
  | cons round rest ih =>
    cases round with
    | ok n callbacks left parsed more =>
      obtain ⟨hexecute, hattend⟩ :=
        httpParserExecute_acts (S := S) callbacks hb h
      rw [socketReadable]
      generalize httpParserExecute S callbacks l = executed at hexecute hattend ⊢
      have hleft := hexecute.tail (.parser executed
        (if executed.c.parser = .dead then .dead else left))
      split_ifs with habort' hparsed hmore
      · exact hexecute
      · exact hleft.trans (readError_acts (connected_of_acts hleft hl))
      · have hbytes := hleft.tail (addBytes_act (l := leaveParser left executed) n)
        have hb' := Run.preserves_of_reflTransGen (fun _ _ h hl => h.basic hl) hbytes hb
        refine hbytes.trans (ih hb' (by simpa [addBytes, leaveParser] using habort')
          (connected_of_acts hbytes hl) ?_)
        rcases hattend with h | h | h
        · exact absurd h habort'
        · exact .inr (.inl (by simp [addBytes, leaveParser, h]))
        · exact .inr (.inr h)
      · exact hleft.tail (addBytes_act (l := leaveParser left executed) n)
    | eof i =>
      have heof : ReflTransGen (Act S) l (executeEof S i l) := by
        rw [executeEof]
        split_ifs with hparser
        · exact (responseComplete_acts hb (h.of_not_dead habort (by simp [hparser]))).1
        · exact .refl
      rw [socketReadable]
      split_ifs
      · exact heof
      · exact heof.trans (readError_acts (connected_of_acts heof hl))
    | error =>
      rw [socketReadable]
      exact readError_acts hl
    | retry => exact .refl

/-! ## Writing and connecting -/

theorem sendRequest_acts {i : WriteInput} (writable : Bool) (hl : l.Connected)
    (hcalls : l.Calls fd writable .socketWriteable) (hbatch : l.InBatch) :
    ReflTransGen (Act S) l (sendRequest i fd l) := by
  rw [sendRequest]
  cases i.result with
  | ok n => exact .single (.wrote l fd writable n hcalls hbatch)
  | error =>
    exact .tail (.tail (.single (.refuse l fd writable hcalls hbatch)) (setErrors_act _))
      (.reconnect _ _ (hl.mono le_rfl (List.suffix_cons _ _)))
  | retry => exact .single (.refuse l fd writable hcalls hbatch)

theorem socketWriteable_acts {i : WriteInput} {writable : Bool} (hl : l.Connected)
    (hcalls : l.Calls fd writable .socketWriteable) :
    ReflTransGen (Act S) l (socketWriteable S i fd l) := by
  rw [socketWriteable]
  split_ifs with hwritten
  · have hpaced := Act.paced (S := S) l i.now
    have hwritten' : (usecToNextSend S i.now l).2.c.written = 0 := by
      rw [usecToNextSend_written, hwritten]
    have hcalls' : (usecToNextSend S i.now l).2.Calls fd writable .socketWriteable :=
      calls_of_thread hcalls (by simp) (by simp)
    have hpermits := usecToNextSend_eq_zero_iff S i.now l
    have hclock := lastClock_usecToNextSend S i.now l
    have hpaced' := hpaced.connected hl
    generalize usecToNextSend S i.now l = paced at *
    obtain ⟨wait, paced⟩ := paced
    simp only at *
    split_ifs with hwait
    · exact .tail (.single hpaced) (.park paced fd writable i.armed wait hcalls' hwritten')
    · have hstart := Act.start paced fd writable i hcalls' hwritten' hclock
        (hpermits.mp (not_not.mp hwait))
      refine .head hpaced (.head hstart (sendRequest_acts writable ?_ ?_ ?_))
      · exact hstart.connected hpaced'
      · exact calls_of_thread hcalls' (by simp) (by simp)
      · intro _
        rw [startBatch_history, startBatch_tcp]
        split_ifs
        · exact ⟨_, _, _, rfl⟩
        · exact ⟨_, _, _, rfl⟩
  · exact sendRequest_acts writable hl hcalls fun h => absurd h hwritten

theorem socketConnected_acts {status : Status} {reconnect : ConnectInput} {writable : Bool}
    (hl : l.Connected) (hcalls : l.Calls fd writable .socketConnected) :
    ReflTransGen (Act S) l (socketConnected status reconnect fd l) := by
  cases status with
  | ok => exact .single (.established l fd writable hcalls)
  | error => exact .tail (.single (setErrors_act _)) (.reconnect _ reconnect hl)
  | retry => exact .refl

/-! ## Events -/

/-- `socket_readable` is never called for a writable descriptor. -/
theorem Basic.calls_read {writable : Bool} (hb : Basic l)
    (hcalls : l.Calls fd writable .socketReadable) : l.Calls fd false .socketReadable := by
  cases writable with
  | false => exact hcalls
  | true =>
    have hproc := hcalls.1
    simp only [FileEvent.handler, if_true] at hproc
    split_ifs at hproc
    exact absurd (Option.some.inj hproc) (hb.writeSide fd)

theorem delay_acts {id : ℕ} {send rearm : Micros}
    (harmed : l.thread.loop.Armed id (.delayRequest l.self)) :
    ReflTransGen (Act S) l (l.delay S id send rearm) := by
  have hpaced := Act.paced (S := S) l send
  have harmed' : (usecToNextSend S send l).2.thread.loop.Armed id
      (.delayRequest (usecToNextSend S send l).2.self) := by
    rw [usecToNextSend_thread, usecToNextSend_self]
    exact harmed
  rw [Local.delay, delayRequest]
  generalize usecToNextSend S send l = paced at *
  obtain ⟨wait, paced⟩ := paced
  simp only at *
  split_ifs with hwait
  · exact .tail (.tail (.single hpaced) (.tick paced rearm))
      (.thread _ _ (rearm_frame _ id rearm (msecToWait wait)))
  · exact .tail (.single hpaced) (.resume paced id harmed')

/-- An event of a connection is a chain of acts. -/
theorem step_acts {event : Event} (h : l.step S event = some l') (hb : Basic l) :
    ReflTransGen (Act S) l l' := by
  simp only [Local.step] at h
  split_ifs at h with habort
  cases event with
  | initialConnect id now start connect =>
    simp only at h
    split_ifs at h with hdue
    obtain rfl := Option.some.inj h
    exact .tail (.single (.tick l now)) (.initial _ id start connect hdue.armed)
  | delay id now send rearm =>
    simp only at h
    split_ifs at h with hdue
    obtain rfl := Option.some.inj h
    exact .head (.tick l now) (delay_acts hdue.armed)
  | file fd writable call =>
    simp only at h
    split_ifs at h with hcalls
    obtain rfl := Option.some.inj h
    have hconnected := hb.calls _ _ _ hcalls
    cases call with
    | connected status reconnect => exact socketConnected_acts hconnected hcalls
    | readable reconnect rounds =>
      exact socketReadable_acts fd hb (by simpa using habort) hconnected
        (.inr (.inr (hb.calls_read hcalls)))
    | writeable i => exact socketWriteable_acts hconnected hcalls

/-- What `processTimeEvents` does after a timer of the thread. -/
theorem Thread.Frame.finish {t t' : Thread} (h : t.Frame t') {id : ℕ} {proc : TimeProc}
    (harmed : t'.loop.Armed id proc) (hproc : proc.conn = none) (rearm : Micros)
    (returned : Option ℕ) :
    t.Frame { t' with loop := aeFinishTimeEvent t'.loop id rearm returned } := by
  have htally : t.Tally { t' with loop := aeFinishTimeEvent t'.loop id rearm returned } := by
    cases h.tally with
    | quiet h1 h2 h3 h4 h5 => exact .quiet h1 h2 h3 h4 h5
    | calibrated h1 h2 h3 h4 h5 => exact .calibrated h1 h2 h3 h4 h5
    | sampled h1 h2 h3 h4 h5 => exact .sampled h1 h2 h3 h4 h5
  cases returned with
  | none =>
    refine ⟨h.events, h.setsize, h.nextId,
      fun id' c harmed => h.delay id' c (EventLoop.armed_aeDeleteTimeEvent.mp harmed).1,
      fun id' c harmed => h.initial id' c (EventLoop.armed_aeDeleteTimeEvent.mp harmed).1,
      fun hd => (h.distinct hd).of_armed
        (fun id' proc' h => (EventLoop.armed_aeDeleteTimeEvent.mp h).1) le_rfl,
      fun hd id' proc' hconn h' => ?_, h.stopAt, htally⟩
    refine ((h.distinct hd).armed_delete harmed ?_).mpr (h.kept hd id' proc' hconn h')
    rintro rfl
    exact hconn hproc
  | some ms =>
    exact ⟨h.events, h.setsize, h.nextId,
      fun id' c harmed => h.delay id' c (EventLoop.armed_aeRearmTimeEvent.mp harmed),
      fun id' c harmed => h.initial id' c (EventLoop.armed_aeRearmTimeEvent.mp harmed),
      fun hd => (h.distinct hd).of_armed
        (fun id' proc' h => EventLoop.armed_aeRearmTimeEvent.mp h) le_rfl,
      fun hd id' proc' hconn h' =>
        EventLoop.armed_aeRearmTimeEvent.mpr (h.kept hd id' proc' hconn h'), h.stopAt, htally⟩

theorem calibrate_frame {started armed : Micros} {t t' : Thread} {returned : Option ℕ}
    (h : calibrate S started armed t = some (returned, t')) : t.Frame t' := by
  simp only [calibrate, Option.bind_eq_bind, Option.bind_eq_some_iff] at h
  obtain ⟨mean, -, percentile, -, h⟩ := h
  split_ifs at h
  · obtain ⟨-, rfl⟩ := Prod.mk.inj (Option.some.inj h)
    exact .of_loop rfl rfl (.quiet rfl rfl rfl rfl rfl)
  · obtain ⟨-, rfl⟩ := Prod.mk.inj (Option.some.inj h)
    exact ⟨rfl, rfl, Nat.le_succ _, by simp, by simp, fun hd => hd.aeCreateTimeEvent,
      fun _ _ _ _ h => EventLoop.armed_aeCreateTimeEvent.mpr (.inr h), rfl,
      .calibrated rfl rfl rfl rfl rfl⟩

theorem timer_frame {timer : TimerCall} {starts : List ℕ} {t t' : Thread} {returned : Option ℕ}
    (h : timer.call S starts t = some (returned, t')) : t.Frame t' := by
  cases timer with
  | calibrate started armed => exact calibrate_frame h
  | checkTimeouts now interrupted =>
    simp only [TimerCall.call, checkTimeouts, Option.some.injEq, Prod.mk.injEq] at h
    obtain ⟨-, rfl⟩ := h
    split_ifs
    · exact ⟨rfl, rfl, le_rfl, fun _ _ h => h, fun _ _ h => h, fun hd => ⟨hd.lt, hd.unique⟩,
        fun _ _ _ _ h => h, rfl, .quiet rfl rfl rfl rfl rfl⟩
    · exact .of_loop rfl rfl (.quiet rfl rfl rfl rfl rfl)
  | sampleRate now started =>
    simp only [TimerCall.call, sampleRate, Option.some.injEq, Prod.mk.injEq] at h
    obtain ⟨-, rfl⟩ := h
    exact .of_loop rfl rfl (.sampled rfl rfl rfl rfl rfl)

/-- A timer of the thread keeps the time event that it was called for. -/
theorem timer_armed {timer : TimerCall} {starts : List ℕ} {t t' : Thread} {returned : Option ℕ}
    (h : timer.call S starts t = some (returned, t')) {id : ℕ} {proc : TimeProc}
    (harmed : t.loop.Armed id proc) : t'.loop.Armed id proc := by
  cases timer with
  | calibrate started armed =>
    simp only [TimerCall.call, calibrate, Option.bind_eq_bind, Option.bind_eq_some_iff] at h
    obtain ⟨mean, -, percentile, -, h⟩ := h
    split_ifs at h <;> obtain ⟨-, rfl⟩ := Prod.mk.inj (Option.some.inj h)
    · exact harmed
    · exact EventLoop.armed_aeCreateTimeEvent.mpr (.inr harmed)
  | checkTimeouts now interrupted =>
    simp only [TimerCall.call, checkTimeouts, Option.some.injEq, Prod.mk.injEq] at h
    obtain ⟨-, rfl⟩ := h
    split_ifs <;> exact harmed
  | sampleRate now started =>
    simp only [TimerCall.call, sampleRate, Option.some.injEq, Prod.mk.injEq] at h
    obtain ⟨-, rfl⟩ := h
    exact harmed

theorem TimerCall.conn_proc {timer : TimerCall} : timer.proc.conn = none := by
  cases timer <;> rfl

/-- A move of a thread with one connection is a chain of acts. -/
theorem machine_acts {move : Move} (h : Local.machine S move l = some l') (hb : Basic l) :
    ReflTransGen (Act S) l l' := by
  cases move with
  | event event => exact step_acts h hb
  | timer id now rearm timer =>
    simp only [Local.machine, Local.fire] at h
    split_ifs at h with habort hdue
    cases hcall : timer.call S [l.c.start] l.thread with
    | none =>
      obtain rfl := Option.some.inj (hcall ▸ h : some _ = some l')
      cases timer with
      | calibrate started armed => exact .single (.fail l started armed hcall)
      | checkTimeouts now interrupted => simp [TimerCall.call] at hcall
      | sampleRate now started => simp [TimerCall.call] at hcall
    | some result =>
      obtain ⟨returned, thread⟩ := result
      rw [hcall] at h
      obtain rfl := Option.some.inj h
      exact .single (.thread l _ ((timer_frame hcall).finish (timer_armed hcall hdue.armed)
        TimerCall.conn_proc rearm returned))

/-! ## Runs -/

section Start

variable {setsize thread connections id slot : ℕ} {now : Micros} {proc : TimeProc}
  {loop : EventLoop}

@[simp]
theorem staggerConnects_events :
    (staggerConnects thread now connections loop).events = loop.events := by
  induction connections with
  | zero => rfl
  | succ n ih => simpa [staggerConnects, aeCreateTimeEvent] using ih

@[simp]
theorem staggerConnects_nextId : (staggerConnects thread now connections loop).timeEventNextId =
    loop.timeEventNextId + connections := by
  induction connections with
  | zero => rfl
  | succ n ih => simp [staggerConnects, aeCreateTimeEvent, ih, Nat.add_assoc]

/-- One time event is created for each connection. -/
theorem armed_staggerConnects :
    (staggerConnects thread now connections loop).Armed id proc ↔
      loop.Armed id proc ∨ ∃ slot < connections, loop.timeEventNextId + slot = id ∧
        .delayedInitialConnect ⟨thread, slot⟩ = proc := by
  induction connections with
  | zero => simp [staggerConnects]
  | succ n ih =>
    rw [staggerConnects, EventLoop.armed_aeCreateTimeEvent, ih, staggerConnects_nextId]
    constructor
    · rintro (⟨hid, hproc⟩ | h | ⟨slot, hslot, hid, hproc⟩)
      · exact .inr ⟨n, Nat.lt_succ_self n, hid, hproc⟩
      · exact .inl h
      · exact .inr ⟨slot, hslot.trans (Nat.lt_succ_self n), hid, hproc⟩
    · rintro (h | ⟨slot, hslot, hid, hproc⟩)
      · exact .inr (.inl h)
      · rcases Nat.lt_succ_iff_lt_or_eq.mp hslot with hlt | rfl
        · exact .inr (.inr ⟨slot, hlt, hid, hproc⟩)
        · exact .inl ⟨hid, hproc⟩

@[simp]
theorem startLoop_events : (startLoop setsize thread connections now).events =
    (aeCreateEventLoop setsize).events := by
  simp [startLoop, aeCreateTimeEvent]

/-- The time events of a connection at the start: its first connect. -/
theorem armed_startLoop : (startLoop setsize thread connections now).Armed id proc ↔
    (∃ slot < connections, slot = id ∧ .delayedInitialConnect ⟨thread, slot⟩ = proc) ∨
      (id = connections ∧ proc = .calibrate) ∨ (id = connections + 1 ∧ proc = .checkTimeouts) := by
  have hempty : ¬ (aeCreateEventLoop setsize).Armed id proc := by
    simp [EventLoop.Armed, aeCreateEventLoop]
  simp only [startLoop, EventLoop.armed_aeCreateTimeEvent, armed_staggerConnects, hempty,
    false_or]
  simp only [aeCreateTimeEvent, staggerConnects_nextId, aeCreateEventLoop, Nat.zero_add]
  constructor
  · rintro (⟨rfl, rfl⟩ | ⟨rfl, rfl⟩ | h)
    · exact .inr (.inr ⟨rfl, rfl⟩)
    · exact .inr (.inl ⟨rfl, rfl⟩)
    · exact .inl h
  · rintro (h | ⟨rfl, rfl⟩ | ⟨rfl, rfl⟩)
    · exact .inr (.inr h)
    · exact .inr (.inl ⟨rfl, rfl⟩)
    · exact .inl ⟨rfl, rfl⟩

theorem distinct_startLoop : (startLoop setsize thread connections now).Distinct := by
  have hempty : (aeCreateEventLoop setsize).Distinct :=
    ⟨by simp [EventLoop.Armed, aeCreateEventLoop], by simp [EventLoop.Armed, aeCreateEventLoop]⟩
  have hconnects :
      (staggerConnects thread now connections (aeCreateEventLoop setsize)).Distinct := by
    induction connections with
    | zero => exact hempty
    | succ n ih => exact ih.aeCreateTimeEvent
  exact hconnects.aeCreateTimeEvent.aeCreateTimeEvent

end Start

theorem Start.basic (start : Start) : Basic start.local := by
  refine ⟨fun fd => ?_, fun fd writable proc h => ?_, fun id h => ?_⟩
  · simp [Start.local, startThread, aeCreateEventLoop]
  · simp [Local.Calls, FileEvent.handler, Start.local, startThread, aeCreateEventLoop,
      Mask.none] at h
  · simp [Start.local, startThread, armed_startLoop] at h

/-- A run of a thread with one connection is a chain of acts. -/
theorem Start.run_acts {start : Start} {moves : List Move} (h : start.run S moves = some l) :
    ReflTransGen (Act S) start.local l :=
  Run.reflTransGen_of_run (fun _ _ _ => machine_acts) (fun _ _ => Act.basic) h start.basic

/-- What every act preserves under a condition on the history holds after every run whose
    history meets the condition. -/
theorem Start.run_preserves_under {start : Start} {moves : List Move} {C : List Obs → Prop}
    {I : Local → Prop} (hC : History.Backward C)
    (hact : ∀ l l', Act S l l' → C l'.history → I l → I l') (h : start.run S moves = some l)
    (hc : C l.history) (hstart : I start.local) : I l :=
  have hgrow : ∀ l l', Act S l l' → l.history <:+ l'.history := fun _ _ h => h.history_suffix
  History.preserves_under hgrow hC hact (Start.run_acts h) hc hstart

end Wrkx
