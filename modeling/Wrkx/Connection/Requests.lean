import Wrkx.Base.Blocks
import Wrkx.Connection.Growth
import Wrkx.Connection.Turns

/-!
# The requests on the wire

What `sock.write` puts on a TCP connection: whole requests, and of the last one perhaps only a
part. `c->written` says how far the last one is, and `socket_connected` sets it back for the
next TCP connection. With a dynamic script each request that `script_request` returns is put on
the wire once.

Both can fail. A `delay_request` that outlived its TCP connection registers the write handler
before `socket_connected` ran for the next one. And a request whose first `sock.write` accepts
nothing is thrown away, since `c->written` still reads as if none had been generated.

## Main results

- `Act.onWire` — every act keeps the stream of each TCP connection in step with `c->written`
- `requests_wellFormed` — the requests on the wire in every run without these two events
- `early_resume_splits`, `stalled_write_skips` — what each of them does
-/

namespace Wrkx

open History Blocks

/-! ## What holds of the requests -/

/-- Bytes are accepted of a request that begins on the TCP connection, or from where the last
    bytes of that request on the same TCP connection stopped. -/
def Continues (o : Obs) (older : List Obs) : Prop :=
  ∀ w ∈ o.writes, Emitted (starts w.tcp older) w.request w.offset (stream w.tcp older) ∧
    w.accepted <+: w.request.drop w.offset

/-- The request that an entry says was begun, on any TCP connection. -/
def Obs.beginning : Obs → Option Bytes
  | .wrote _ offset r bytes => if offset = 0 ∧ bytes ≠ [] then some r else none
  | _ => none

/-- The requests of a connection are well formed. -/
structure WellFormed (S : Setting) (script : Bytes) (h : List Obs) : Prop where
  streams : ∀ n, ∃ r offset, Emitted (starts n h) r offset (stream n h)
  continues : Each Continues h
  static : S.cfg.dynamic = false → ∀ n, ∀ r ∈ starts n h, r = script
  generated : S.cfg.dynamic = true → h.filterMap Obs.requested = h.filterMap Obs.beginning

/-! ## Assumptions on a run -/

/-- The send of a time event finds the connection still connecting. -/
def Obs.resumesEarly : Obs → Bool
  | .resumed _ _ connecting => connecting
  | _ => false

/-- No write handler is registered for a connection that is still connecting. -/
def Timely (o : Obs) (_ : List Obs) : Prop := o.resumesEarly = false

/-- The first `sock.write` of a request accepts nothing. -/
def Obs.stalls : Obs → Bool
  | .wrote _ offset _ bytes => decide (offset = 0 ∧ bytes = [])
  | .refused offset => decide (offset = 0)
  | _ => false

/-- The first `sock.write` of a request accepts at least one byte. -/
def Unstalled (o : Obs) (_ : List Obs) : Prop := o.stalls = false

instance (o : Obs) (older : List Obs) : Decidable (Timely o older) :=
  inferInstanceAs (Decidable (o.resumesEarly = false))

instance (o : Obs) (older : List Obs) : Decidable (Unstalled o older) :=
  inferInstanceAs (Decidable (o.stalls = false))

/-! ## The invariant -/

variable {S : Setting} {script : Bytes} {l l' : Local} {fd : Fd} {writable : Bool}

/-- How far the current TCP connection is. -/
inductive Wire (l : Local) : Prop
  | connecting (hnew : .established l.tcp ∉ l.history) (hstarts : starts l.tcp l.history = [])
      (hstream : stream l.tcp l.history = [])
      (hwrite : Registered l → l.event.wfileProc = .socketConnected)
  | opened (hopened : .established l.tcp ∈ l.history)
      (hemitted : Emitted (starts l.tcp l.history) l.c.request l.c.written
        (stream l.tcp l.history))

/-- The invariant behind the streams of a `WellFormed` history. -/
structure OnWire (S : Setting) (script : Bytes) (l : Local) : Prop where
  current : Wire l
  past : ∀ n, n ≠ l.tcp → ∃ r offset, Emitted (starts n l.history) r offset (stream n l.history)
  continues : Each Continues l.history
  request : S.cfg.dynamic = false → l.c.request = script
  static : S.cfg.dynamic = false → ∀ n, ∀ r ∈ starts n l.history, r = script

theorem Wire.emitted (hl : Wire l) :
    ∃ r offset, Emitted (starts l.tcp l.history) r offset (stream l.tcp l.history) := by
  cases hl with
  | connecting hnew hstarts hstream =>
    rw [hstarts, hstream]
    exact ⟨[], 0, .nil []⟩
  | opened hopened hemitted => exact ⟨_, _, hemitted⟩

theorem OnWire.streams (hl : OnWire S script l) (n : ℕ) :
    ∃ r offset, Emitted (starts n l.history) r offset (stream n l.history) := by
  by_cases hn : n = l.tcp
  · rw [hn]
    exact hl.current.emitted
  · exact hl.past n hn

/-- `socket_writeable` is called on a TCP connection that is open. -/
theorem Wire.of_writeable (hl : Wire l) (hshape : Shape l)
    (hcalls : l.Calls fd writable .socketWriteable) : .established l.tcp ∈ l.history ∧
      Emitted (starts l.tcp l.history) l.c.request l.c.written (stream l.tcp l.history) := by
  obtain ⟨rfl, hreg, -, hwrite⟩ := hshape.writeable_of_calls hcalls
  cases hl with
  | connecting hnew hstarts hstream hconnecting =>
    rw [hconnecting hreg] at hwrite
    cases hwrite
  | opened hopened hemitted => exact ⟨hopened, hemitted⟩

/-- `socket_readable` is called on a TCP connection that is open. -/
theorem Wire.of_readable (hl : Wire l) (hshape : Shape l)
    (hcalls : l.Calls fd false .socketReadable) : .established l.tcp ∈ l.history ∧
      Emitted (starts l.tcp l.history) l.c.request l.c.written (stream l.tcp l.history) := by
  obtain ⟨rfl, hreg, hread⟩ := hshape.readable_of_calls hcalls
  have hopened := (hshape.established hreg).mp hread
  cases hl with
  | connecting hnew => exact absurd hopened hnew
  | opened hopened hemitted => exact ⟨hopened, hemitted⟩

/-! ## The acts -/

theorem continues_append {noted h : List Obs} (hh : Each Continues h)
    (hnoted : ∀ o ∈ noted, o.writes = none) : Each Continues (noted ++ h) :=
  hh.append fun o ho _ w hw => by
    rw [hnoted o ho] at hw
    cases hw

/-- An act that writes nothing and stays on its TCP connection. -/
theorem OnWire.of_same (hl : OnWire S script l) (hcurrent : Wire l')
    (hsame : Same l'.history l.history) (htcp : l'.tcp = l.tcp)
    (hrequest : l'.c.request = l.c.request) : OnWire S script l' := by
  obtain ⟨noted, hhistory, hnoted⟩ := hsame.silent
  refine ⟨hcurrent, fun n hn => ?_, ?_, ?_, fun hstatic n => ?_⟩
  · rw [hsame.starts, hsame.stream]
    exact hl.past n (htcp ▸ hn)
  · rw [hhistory]
    exact continues_append hl.continues fun o ho => (hnoted o ho).2.2
  · rw [hrequest]
    exact hl.request
  · rw [hsame.starts]
    exact hl.static hstatic n

theorem Wire.of_same (hl : Wire l) (hsame : Same l'.history l.history) (htcp : l'.tcp = l.tcp)
    (hopened : .established l.tcp ∈ l'.history ↔ .established l.tcp ∈ l.history)
    (hrequest : l'.c.request = l.c.request) (hwritten : l'.c.written = l.c.written)
    (hwrite : .established l.tcp ∉ l.history →
      (Registered l → l.event.wfileProc = .socketConnected) →
      Registered l' → l'.event.wfileProc = .socketConnected) : Wire l' := by
  cases hl with
  | connecting hnew hstarts hstream hconnecting =>
    refine .connecting ?_ ?_ ?_ (hwrite hnew hconnecting)
    · rwa [htcp, hopened]
    · rw [htcp, hsame.starts, hstarts]
    · rw [htcp, hsame.stream, hstream]
  | opened hopen hemitted =>
    refine .opened ?_ ?_
    · rwa [htcp, hopened]
    · rw [htcp, hsame.starts, hsame.stream, hrequest, hwritten]
      exact hemitted

theorem Wire.of_aside {noted : List Obs} (hl : Wire l) (h : Aside l l' noted) : Wire l' :=
  hl.of_same h.same h.tcp (h.mem_iff (by simp [Obs.tcp])) h.request h.written
    fun _ hwrite hreg => h.event ▸ hwrite (h.registered hreg)

/-- A new TCP connection carries nothing, and the last one nothing more. -/
theorem OnWire.connect {again : Bool} {down up : Local} {noted : List Obs}
    (hl : OnWire S script l) (hdown : Down down) (hconnects : Local.Connects again down up)
    (hhistory : down.history = noted ++ l.history) (huntagged : ∀ o ∈ noted, o.tcp = none)
    (hrequest : down.c.request = l.c.request) (h : Aside up l' []) : OnWire S script l' := by
  have hsame := same_connect hconnects hhistory huntagged h
  have hfresh : ∀ o ∈ l'.history, Elsewhere l'.tcp o := by
    rw [h.history, h.tcp]
    exact hdown.fresh hconnects
  obtain ⟨noted, hhistory, hnoted⟩ := hsame.silent
  refine ⟨.connecting (fun hmem => hfresh _ hmem rfl) (starts_eq_nil hfresh)
    (stream_eq_nil hfresh) fun hreg => ?_, fun n _ => ?_, ?_, ?_, fun hstatic n => ?_⟩
  · rw [h.event]
    exact hdown.wfileProc hconnects (h.registered hreg)
  · rw [hsame.starts, hsame.stream]
    exact hl.streams n
  · rw [hhistory]
    exact continues_append hl.continues fun o ho => (hnoted o ho).2.2
  · rw [h.request, hconnects.c_eq, hrequest]
    exact hl.request
  · rw [hsame.starts]
    exact hl.static hstatic n

/-- `socket_connected` finds a TCP connection that carried nothing. -/
theorem Wire.openSocket (hl : Wire l) (hshape : Shape l)
    (hcalls : l.Calls fd writable .socketConnected) : Wire (openSocket fd l) := by
  obtain ⟨rfl, hreg, hread⟩ := hshape.connected_of_calls hcalls
  have hnew : .established l.tcp ∉ l.history := fun h => by
    rw [(hshape.established hreg).mpr h] at hread
    cases hread
  have hsame : Same (Wrkx.openSocket l.c.fd l).history l.history := openSocket_same
  cases hl with
  | connecting _ hstarts hstream =>
    refine .opened ?_ ?_
    · simp
    · rw [openSocket_tcp, hsame.starts, hsame.stream, hstarts, hstream, openSocket_c]
      exact .nil _
  | opened hopened => exact absurd hopened hnew

/-- A connection that is still connecting registers no write handler in time. -/
theorem Wire.resume {id : ℕ} (hl : Wire l) (hshape : Shape l)
    (harmed : l.thread.loop.Armed id (.delayRequest l.self)) (htimely : l.connecting = false) :
    Wire (resume id l) := by
  refine hl.of_same resume_same resume_tcp (by simp) (by simp) (by simp) fun hnew _ hreg => ?_
  rcases hshape.phase with hnone | hreg'
  · -- The descriptor is closed, and nothing can be registered for it.
    have hclosed := hshape.closed hnone id harmed
    have hopen : (Wrkx.resume id l).files.isOpen (Wrkx.resume id l).c.fd = true := hreg.isOpen
    rw [Files.isOpen, resume_owner, resume_c] at hopen
    rw [Files.isOpen] at hclosed
    rw [hclosed] at hopen
    cases hopen
  · have hread : l.event.rfileProc = .socketConnected := hreg'.handlers.resolve_right
      fun h => hnew ((hshape.established hreg').mp h.1)
    have hconnecting : l.connecting = true := by
      have hmask := hreg'.readable
      rw [Local.event] at hread hmask
      simp [Local.connecting, hread, hmask]
    rw [hconnecting] at htimely
    cases htimely

theorem OnWire.startBatch {i : WriteInput} (hl : OnWire S script l) (hshape : Shape l)
    (hcalls : l.Calls fd writable .socketWriteable) (hwritten : l.c.written = 0) :
    OnWire S script (startBatch S i l) := by
  obtain ⟨hopened, hemitted⟩ := hl.current.of_writeable hshape hcalls
  obtain ⟨noted, hhistory, huntagged⟩ := startBatch_noted S i l
  have hsame : Same (noted ++ l.history) l.history :=
    .of_silent fun o ho n => .of_untagged (huntagged o ho)
  have hstarts : ∀ n, starts n (Wrkx.startBatch S i l).history = starts n l.history := fun n => by
    rw [hhistory]
    exact (List.append_nil _).trans (hsame.starts n)
  have hstream : ∀ n, stream n (Wrkx.startBatch S i l).history = stream n l.history := fun n => by
    rw [hhistory]
    exact (List.append_nil _).trans (hsame.stream n)
  refine ⟨.opened ?_ ?_, fun n hn => ?_, ?_, fun hstatic => ?_, fun hstatic n => ?_⟩
  · rw [startBatch_tcp, hhistory]
    exact List.mem_cons_of_mem _ (List.mem_append_right _ hopened)
  · rw [startBatch_tcp, hstarts, hstream, startBatch_c]
    rw [hwritten] at hemitted ⊢
    exact hemitted.switch _
  · rw [hstarts, hstream]
    exact hl.past n (startBatch_tcp ▸ hn)
  · obtain ⟨noted', hnoted', hsilent⟩ := hsame.silent
    rw [hhistory, hnoted']
    refine ⟨fun w hw => ?_, continues_append hl.continues fun o ho => (hsilent o ho).2.2⟩
    cases hw
  · rw [startBatch_c, hstatic]
    exact hl.request hstatic
  · rw [hstarts]
    exact hl.static hstatic n

theorem starts_acceptBytes {n tcp : ℕ} : starts tcp (acceptBytes n fd l).history =
    starts tcp l.history ++
      if l.tcp = tcp ∧ l.c.written = 0 ∧ accepted n l.c ≠ [] then [l.c.request] else [] := by
  obtain ⟨noted, hhistory, rfl | rfl⟩ := acceptBytes_noted n fd l <;>
    simp [hhistory, starts, Obs.startsOn]

/-- The bytes that `sock.write` accepts go on from where the request stopped. -/
theorem OnWire.acceptBytes {n : ℕ} (hl : OnWire S script l) (hshape : Shape l)
    (hcalls : l.Calls fd writable .socketWriteable) : OnWire S script (acceptBytes n fd l) := by
  obtain ⟨hopened, hemitted⟩ := hl.current.of_writeable hshape hcalls
  have hpiece : accepted n l.c <+: l.c.request.drop l.c.written := List.take_prefix _ _
  have hc : (Wrkx.acceptBytes n fd l).c = _ := acceptBytes_c
  obtain ⟨noted, hhistory, hnoted⟩ := acceptBytes_noted n fd l
  refine ⟨.opened ?_ ?_, fun tcp htcp => ?_, ?_, fun hstatic => ?_, fun hstatic tcp r hr => ?_⟩
  · rw [hhistory, acceptBytes_tcp]
    exact List.mem_append_right _ (List.mem_cons_of_mem _ hopened)
  · rw [acceptBytes_tcp, starts_acceptBytes, stream_acceptBytes, hc, if_pos rfl]
    by_cases hempty : accepted n l.c = []
    · rw [if_neg fun h => h.2.2 hempty, hempty, List.append_nil, List.append_nil]
      by_cases hdone : l.c.written = l.c.request.length
      · have hwritten : l.c.written = 0 := by
          by_contra hne
          exact absurd (hemitted.lt_length hne) (by omega)
        simpa [hdone, ← hwritten] using hemitted
      · simpa [hdone] using hemitted
    · have hnext := hemitted.emit hpiece hempty
      by_cases hwritten : l.c.written = 0
      · simpa [hwritten, hempty] using hnext
      · simpa [hwritten] using hnext
  · rw [starts_acceptBytes, stream_acceptBytes]
    rw [acceptBytes_tcp] at htcp
    rw [if_neg fun h => htcp h.1.symm, if_neg fun h => htcp h.symm, List.append_nil,
      List.append_nil]
    exact hl.past tcp htcp
  · have hwrote : Each Continues
        (.wrote l.tcp l.c.written l.c.request (accepted n l.c) :: l.history) := by
      refine ⟨fun w hw => ?_, hl.continues⟩
      obtain rfl := Option.some.inj hw
      exact ⟨hemitted, hpiece⟩
    rw [hhistory]
    rcases hnoted with rfl | rfl
    · exact hwrote
    · exact continues_append hwrote fun o ho => List.mem_singleton.mp ho ▸ rfl
  · rw [hc]
    exact hl.request hstatic
  · rw [starts_acceptBytes] at hr
    rcases List.mem_append.mp hr with hr | hr
    · exact hl.static hstatic tcp r hr
    · split_ifs at hr
      · rw [List.mem_singleton.mp hr]
        exact hl.request hstatic
      · cases hr

theorem OnWire.respond {i : CompleteInput} (hl : OnWire S script l) (hshape : Shape l)
    (hcalls : l.Calls fd false .socketReadable) : OnWire S script (respond S i l) := by
  obtain ⟨hopened, hemitted⟩ := hl.current.of_readable hshape hcalls
  refine ⟨.opened ?_ ?_, fun n hn => ?_, ?_, ?_, fun hstatic n => ?_⟩
  · rw [respond_tcp]
    exact suffix_respond.subset hopened
  · rw [respond_tcp, starts_respond, stream_respond, respond_request, respond_written]
    exact hemitted
  · rw [starts_respond, stream_respond]
    exact hl.past n (respond_tcp ▸ hn)
  · obtain ⟨delivered, measured, hhistory, hdelivered, hmeasured⟩ := respond_noted S i l
    have hnone : ∀ o : Obs, o.tcp = none → o.writes = none := fun o ho =>
      (Silent.of_untagged (n := 0) ho).writes
    have hfirst : ∀ o ∈ [Obs.complete l.tcp i.now i.status, .clock i.now], o.writes = none := by
      simp [Obs.writes]
    have hreceived : Each Continues
        (delivered ++ .complete l.tcp i.now i.status :: .clock i.now :: l.history) :=
      continues_append (continues_append hl.continues hfirst)
        fun o ho => hnone o (hdelivered o ho)
    rw [hhistory]
    rcases hmeasured with ⟨-, rfl⟩ | ⟨-, recorded, latency, rfl, hrecorded, hlatency⟩
    · exact hreceived
    · rw [List.append_assoc]
      refine continues_append (continues_append hreceived fun o ho => ?_)
        fun o ho => hnone o (hrecorded o ho)
      rcases List.mem_cons.mp ho with rfl | ho
      · rfl
      · exact hnone _ (List.mem_singleton.mp ho ▸ hlatency)
  · rw [respond_request]
    exact hl.request
  · rw [starts_respond]
    exact hl.static hstatic n

/-- Every act keeps the stream of each TCP connection in step with `c->written`, when no time
    event registers the write handler of a connection that is still connecting. -/
theorem Act.onWire (hact : Act S l l') (halone : Alone l) (htimely : Each Timely l'.history)
    (hl : OnWire S script l) : OnWire S script l' := by
  cases hact.turn halone with
  | aside noted h => exact hl.of_same (hl.current.of_aside h) h.same h.tcp h.request
  | connect noted hdown hconnects hhistory huntagged htcp hrequest hfirst h =>
    exact hl.connect hdown hconnects hhistory huntagged hrequest h
  | established fd writable hcalls =>
    exact hl.of_same (hl.current.openSocket halone.shape hcalls) openSocket_same (by simp) (by simp)
  | park fd writable armed wait hcalls hwritten =>
    obtain ⟨hopened, hemitted⟩ := hl.current.of_writeable halone.shape hcalls
    refine hl.of_same (hl.current.of_same park_same rfl ?_ rfl rfl fun hnew => ?_) park_same rfl rfl
    · simp [park_history]
    · exact absurd hopened hnew
  | resume id harmed =>
    rw [resume_history] at htimely
    exact hl.of_same (hl.current.resume halone.shape harmed htimely.1) resume_same (by simp)
      (by simp)
  | start fd writable i hcalls hwritten => exact hl.startBatch halone.shape hcalls hwritten
  | wrote fd writable n hcalls hbatch => exact hl.acceptBytes halone.shape hcalls
  | respond fd i hcalls => exact hl.respond halone.shape hcalls

/-! ## Generated requests

The request that `script_request` returns and its first `sock.write` belong to one call of
`socket_writeable`, so these are compared after whole events. -/

/-- The requests that were generated, and those that were begun. -/
def requests (h : List Obs) : List Bytes × List Bytes :=
  (h.filterMap Obs.requested, h.filterMap Obs.beginning)

theorem requests_of_grows (h : Grows l l') : requests l'.history = requests l.history := by
  obtain ⟨noted, hhistory, hnoted⟩ := h
  have hnone : ∀ o ∈ noted, o.requested = none ∧ o.beginning = none := by
    intro o ho
    have := hnoted o ho
    cases o with
    | request | wrote => cases this
    | _ => exact ⟨rfl, rfl⟩
  have hrequested : noted.filterMap Obs.requested = [] :=
    List.filterMap_eq_nil_iff.mpr fun o ho => (hnone o ho).1
  have hbeginning : noted.filterMap Obs.beginning = [] :=
    List.filterMap_eq_nil_iff.mpr fun o ho => (hnone o ho).2
  rw [requests, hhistory, List.filterMap_append, List.filterMap_append, hrequested, hbeginning]
  rfl

section Written

variable {i : WriteInput}

/-- The rest of a request begins none. -/
theorem requests_sendRequest (hwritten : l.c.written ≠ 0) :
    requests (sendRequest i fd l).history = requests l.history := by
  rw [sendRequest]
  cases i.result with
  | ok n =>
    obtain ⟨noted, hhistory, rfl | rfl⟩ := acceptBytes_noted n fd l <;>
      simp [requests, hhistory, List.filterMap_cons, Obs.requested, Obs.beginning, hwritten]
  | error =>
    have hcounted : Grows l ((l.note (.refused l.c.written)).setErrors fun e =>
        { e with write := e.write.add 1 }) := .of_cons rfl rfl
    exact requests_of_grows (hcounted.trans (grows_reconnectSocket _ _))
  | retry => rfl

/-- A request of which the first `sock.write` accepts a byte has begun. -/
theorem requests_sendRequest_first (hwritten : l.c.written = 0)
    (hprompt : Each Unstalled (sendRequest i fd l).history) :
    requests (sendRequest i fd l).history =
      ((requests l.history).1, l.c.request :: (requests l.history).2) := by
  have hrefused : ∀ h, .refused l.c.written :: l.history <:+ h → ¬ Each Unstalled h := by
    intro h hsuffix hprompt
    have hstalls := hprompt.at_entry hsuffix
    simp [Unstalled, Obs.stalls, hwritten] at hstalls
  rw [sendRequest] at hprompt ⊢
  cases hresult : i.result with
  | ok n =>
    rw [hresult] at hprompt
    obtain ⟨noted, hhistory, hnoted⟩ := acceptBytes_noted n fd l
    have hempty : accepted n l.c ≠ [] := by
      intro hempty
      have hstalls := hprompt.at_entry ⟨noted, hhistory.symm⟩
      simp [Unstalled, Obs.stalls, hwritten, hempty] at hstalls
    rcases hnoted with rfl | rfl <;>
      simp [requests, hhistory, List.filterMap_cons, Obs.requested, Obs.beginning, hwritten, hempty]
  | error =>
    simp only [hresult] at hprompt
    exact absurd hprompt (hrefused _ (Local.suffix_reconnectSocket
      (l := (l.note (.refused l.c.written)).setErrors fun e => { e with write := e.write.add 1 })))
  | retry =>
    rw [hresult] at hprompt
    exact absurd hprompt (hrefused _ (List.suffix_refl _))

/-- What `script_request` returned is what was begun. -/
def Generated (S : Setting) (l : Local) : Prop :=
  S.cfg.dynamic = true → (requests l.history).1 = (requests l.history).2

theorem Generated.of_grows (hl : Generated S l) (h : Grows l l') : Generated S l' := by
  rw [Generated, requests_of_grows h]
  exact hl

theorem requests_startBatch (hdynamic : S.cfg.dynamic = true) :
    requests (startBatch S i l).history =
      (i.request :: (requests l.history).1, (requests l.history).2) := by
  rw [startBatch_history, if_pos hdynamic]
  rfl

theorem Generated.socketWriteable (hl : Generated S l)
    (hprompt : S.cfg.dynamic = true → Each Unstalled (socketWriteable S i fd l).history) :
    Generated S (socketWriteable S i fd l) := by
  intro hdynamic
  replace hprompt := hprompt hdynamic
  replace hl := hl hdynamic
  have hpaced := requests_of_grows (grows_usecToNextSend S i.now l)
  rw [Wrkx.socketWriteable] at hprompt ⊢
  split_ifs at hprompt ⊢ with hwritten
  · have hwritten' : (usecToNextSend S i.now l).2.c.written = 0 := by
      rw [usecToNextSend_written, hwritten]
    generalize usecToNextSend S i.now l = paced at *
    obtain ⟨wait, paced⟩ := paced
    simp only at *
    split_ifs at hprompt ⊢ with hwait
    · rw [requests_of_grows grows_park, hpaced, hl]
    · have hfirst : (startBatch S i paced).c.written = 0 := by
        rw [startBatch_c]
        exact hwritten'
      rw [requests_sendRequest_first hfirst hprompt, requests_startBatch hdynamic, hpaced, hl,
        startBatch_c, hdynamic]
      rfl
  · rw [requests_sendRequest hwritten, hl]

end Written

/-- Every move of a thread keeps what is begun in step with what is generated, when the first
    `sock.write` of a generated request accepts a byte. -/
theorem Generated.machine {move : Move} (hl : Generated S l)
    (hmove : Local.machine S move l = some l')
    (hprompt : S.cfg.dynamic = true → Each Unstalled l'.history) : Generated S l' := by
  cases move with
  | event event =>
    simp only [Local.machine, Local.step] at hmove
    split_ifs at hmove
    cases event with
    | initialConnect id now start connect =>
      simp only at hmove
      split_ifs at hmove
      obtain rfl := Option.some.inj hmove
      exact hl.of_grows ((Grows.of_cons rfl rfl).trans grows_delayedInitialConnect)
    | delay id now send rearm =>
      simp only at hmove
      split_ifs at hmove
      obtain rfl := Option.some.inj hmove
      exact hl.of_grows ((Grows.of_cons rfl rfl).trans grows_delay)
    | file fd writable call =>
      simp only at hmove
      split_ifs at hmove
      obtain rfl := Option.some.inj hmove
      cases call with
      | connected => exact hl.of_grows grows_socketConnected
      | readable => exact hl.of_grows grows_socketReadable
      | writeable i => exact hl.socketWriteable hprompt
  | timer id now rearm timer =>
    simp only [Local.machine, Local.fire] at hmove
    split_ifs at hmove
    split at hmove <;> obtain rfl := Option.some.inj hmove <;> exact hl.of_grows (.of_eq rfl)

/-! ## Runs -/

theorem Start.onWire (start : Start) (hscript : start.request = script) :
    OnWire S script start.local where
  current := by
    refine .connecting List.not_mem_nil rfl rfl fun hreg => ?_
    exact absurd (by simp [Local.event, Start.local, startThread, aeCreateEventLoop]) hreg.mask_ne
  past := fun _ _ => ⟨[], 0, .nil []⟩
  continues := trivial
  request := fun _ => hscript
  static := fun _ _ _ hr => absurd hr List.not_mem_nil

theorem Start.run_generated {start : Start} {moves : List Move} (h : start.run S moves = some l)
    (hprompt : S.cfg.dynamic = true → Each Unstalled l.history) : Generated S l := by
  refine Run.run_preserves_under (C := fun l => S.cfg.dynamic = true → Each Unstalled l.history)
    (fun move l l' hmove hc hdynamic => (hc hdynamic).of_suffix ?_)
    (fun move l l' hmove hc hl => hl.machine hmove hc) h hprompt fun _ => rfl
  cases move with
  | event event => exact suffix_step hmove
  | timer id now rearm timer =>
    simp only [Local.machine, Local.fire] at hmove
    split_ifs at hmove
    split at hmove <;> obtain rfl := Option.some.inj hmove <;> exact List.suffix_refl _

/-- In a run in which no time event registers the write handler of a connection that is still
    connecting, each TCP connection carries whole requests and at most a part of one more, in
    order and from the start. If the first `sock.write` of every generated request accepts a
    byte, they are the requests that `script_request` returned, each of them once. -/
theorem requests_wellFormed {start : Start} {moves : List Move} (h : start.run S moves = some l)
    (htimely : Each Timely l.history)
    (hprompt : S.cfg.dynamic = true → Each Unstalled l.history) :
    WellFormed S start.request l.history := by
  have hinv := (Start.run_alone (I := OnWire S start.request) backward_each
    (fun _ _ hact halone htimely hl => hact.onWire halone htimely hl) h htimely
    (start.onWire rfl)).2
  exact ⟨hinv.streams, hinv.continues, hinv.static, Start.run_generated h hprompt⟩

/-- A script that generates requests. The first is written in two parts, and the peer hangs up
    inside the second. -/
def Example.cut : Option Local :=
  (start [] 10000).run (setting 1 true)
    [connect 5 3, opens 3, write 3 10 [1, 2, 3] (.ok 2), write 3 20 [] .retry,
      write 3 30 [] (.ok 2), read 3 [completed 50 true (connects 3)], write 3 200 [4, 5] (.ok 1),
      hangUp 3 4, opens 4, write 4 300 [6, 7] (.ok 2)]

theorem requests_wellFormed_cut : ∃ l : Local, Example.cut = some l ∧
    (stream 1 l.history = [1, 2, 3, 4] ∧ stream 2 l.history = [6, 7]) ∧
    WellFormed (Example.setting 1 true) [] l.history := by
  have hrun : ∃ l : Local, Example.cut = some l ∧
      (Each Timely l.history ∧ Each Unstalled l.history) ∧
      stream 1 l.history = [1, 2, 3, 4] ∧ stream 2 l.history = [6, 7] :=
    exists_of_any (by decide +kernel)
  obtain ⟨l, hl, ⟨htimely, hunstalled⟩, hstreams⟩ := hrun
  exact ⟨l, hl, hstreams, requests_wellFormed hl htimely fun _ => hunstalled⟩

/-- The first `sock.write` of a generated request returns `RETRY`. -/
def Example.stalled : Option Local :=
  (start [] 10000).run (setting 1 true)
    [connect 5 3, opens 3, write 3 10 [1, 2, 3] .retry, write 3 20 [4, 5, 6] (.ok 3)]

/-- `script_request` is called again for a request that was not accepted at once, and the first
    one is lost. -/
theorem stalled_write_skips : ∃ l : Local, Example.stalled = some l ∧ Each Timely l.history ∧
    ¬ WellFormed (Example.setting 1 true) [] l.history := by
  have hrun : ∃ l : Local, Example.stalled = some l ∧ Each Timely l.history ∧
      l.history.filterMap Obs.requested = [[4, 5, 6], [1, 2, 3]] ∧
      l.history.filterMap Obs.beginning = [[4, 5, 6]] :=
    exists_of_any (by decide +kernel)
  obtain ⟨l, hl, htimely, hrequested, hbeginning⟩ := hrun
  refine ⟨l, hl, htimely, fun h => ?_⟩
  have hgenerated := h.generated rfl
  rw [hrequested, hbeginning] at hgenerated
  cases hgenerated

/-- The peer hangs up while a time event is armed, and once more inside the next request. The
    time event fires while the third TCP connection is connecting. -/
def Example.earlyResume : Option Local :=
  (start [71, 69, 84] 10000).run (setting 1 false)
    [connect 5 3, opens 3, write 3 10 [] (.ok 3), read 3 [completed 50 true (connects 3)],
      write 3 60 [] (.ok 3), hangUp 3 4, opens 4, write 4 1000 [] (.ok 1), hangUp 4 5,
      timer 3 1100, write 5 1200 [] (.ok 2)]

/-- With a write handler that is registered before `socket_connected` ran, the rest of a request
    goes over another TCP connection than its beginning. -/
theorem early_resume_splits : ∃ l : Local, Example.earlyResume = some l ∧
    (stream 2 l.history = [71] ∧ stream 3 l.history = [69, 84]) ∧
    ¬ WellFormed (Example.setting 1 false) [71, 69, 84] l.history := by
  have hrun : ∃ l : Local, Example.earlyResume = some l ∧
      (stream 2 l.history = [71] ∧ stream 3 l.history = [69, 84]) ∧ starts 3 l.history = [] :=
    exists_of_any (by decide +kernel)
  obtain ⟨l, hl, hstreams, hstarts⟩ := hrun
  refine ⟨l, hl, hstreams, fun h => ?_⟩
  obtain ⟨r, offset, hemitted⟩ := h.streams 3
  have hprefix := hemitted.prefix_flatten
  rw [hstreams.2, hstarts] at hprefix
  cases List.prefix_nil.mp hprefix

end Wrkx
