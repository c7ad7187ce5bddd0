import Wrkx.Connection.Chains

/-!
# What a handler adds to the history

Every handler only adds to the history of its connection, and only `socket_writeable` adds
entries about requests.

## Main results

- `grows_socketReadable`, `grows_socketConnected`, `grows_delay` — the handlers that send nothing
- `suffix_step` — an event of a connection adds to its history
-/

namespace Wrkx

/-- An entry about a request that was generated or sent. -/
def Obs.sends : Obs → Bool
  | .request _ | .wrote _ _ _ _ => true
  | _ => false

/-- The history grew, but not by entries about requests. -/
def Grows (l l' : Local) : Prop :=
  ∃ noted, l'.history = noted ++ l.history ∧ ∀ o ∈ noted, o.sends = false

section Grows

variable {S : Setting} {l l' l'' : Local} {fd : Fd} {reconnect : ConnectInput}

theorem Grows.of_eq (h : l'.history = l.history) : Grows l l' := ⟨[], h, by simp⟩

theorem Grows.refl (l : Local) : Grows l l := .of_eq rfl

theorem Grows.trans (h : Grows l l') (h' : Grows l' l'') : Grows l l'' := by
  obtain ⟨noted, hhistory, hnoted⟩ := h
  obtain ⟨noted', hhistory', hnoted'⟩ := h'
  refine ⟨noted' ++ noted, by rw [hhistory', hhistory, List.append_assoc], fun o ho => ?_⟩
  exact (List.mem_append.mp ho).elim (hnoted' o) (hnoted o)

theorem Grows.of_cons {o : Obs} (h : l'.history = o :: l.history) (ho : o.sends = false) :
    Grows l l' :=
  ⟨[o], h, by simpa using ho⟩

theorem Grows.suffix (h : Grows l l') : l.history <:+ l'.history := by
  obtain ⟨noted, hhistory, -⟩ := h
  exact ⟨noted, hhistory.symm⟩

/-! ## Connecting and pacing -/

theorem Local.Connects.grows {again : Bool} (h : Local.Connects again l l') : Grows l l' := by
  obtain ⟨ok, hhistory⟩ := h.history_eq
  exact .of_cons hhistory rfl

theorem grows_reconnectSocket (reconnect : ConnectInput) (l : Local) :
    Grows l (reconnectSocket reconnect l) :=
  have hdropped : Grows l l.dropped := .of_cons rfl rfl
  hdropped.trans (Local.reconnectSocket_connects reconnect l).grows

theorem grows_delayedInitialConnect {now : Micros} {i : ConnectInput} :
    Grows l (delayedInitialConnect now i l) :=
  have hbegun : Grows l (l.begun now) := .of_cons rfl rfl
  hbegun.trans (Local.initialConnect_connects now i l).grows

theorem grows_usecToNextSend (S : Setting) (now : Micros) (l : Local) :
    Grows l (usecToNextSend S now l).2 := by
  obtain ⟨noted, hhistory, hnoted⟩ := usecToNextSend_history S now l
  refine ⟨noted ++ [.clock now], by simp [hhistory], ?_⟩
  rcases hnoted with rfl | rfl | rfl <;> simp [Obs.sends]

theorem grows_park {armed : Micros} {wait : ℕ} : Grows l (park fd armed wait l) :=
  ⟨[_, _], park_history, by simp [Obs.sends]⟩

theorem grows_delay {id : ℕ} {send rearm : Micros} : Grows l (l.delay S id send rearm) := by
  have hpaced := grows_usecToNextSend S send l
  rw [Local.delay, delayRequest]
  generalize usecToNextSend S send l = paced at *
  obtain ⟨wait, paced⟩ := paced
  simp only at *
  split_ifs
  · exact hpaced.trans (.of_cons rfl rfl)
  · exact hpaced.trans (.of_cons resume_history rfl)

/-! ## Reading -/

theorem grows_respond {i : CompleteInput} : Grows l (respond S i l) := by
  refine ⟨responded S i l, respond_responded, fun o ho => ?_⟩
  have := ofResponse_of_mem ho
  cases o <;> simp_all [Obs.ofResponse, Obs.sends]

theorem grows_responseComplete {i : CompleteInput} : Grows l (responseComplete S i l) := by
  rw [responseComplete_eq]
  split_ifs
  · exact grows_respond
  · exact grows_respond
  · exact grows_respond.trans (grows_reconnectSocket _ _)
  · exact grows_respond.trans (.of_eq rfl)

theorem grows_runCallback {callback : Callback} : Grows l (runCallback S callback l) := by
  cases callback with
  | headerField | headerValue | body =>
    rw [runCallback]
    split_ifs
    · exact .of_cons rfl rfl
    · exact .refl l
  | messageComplete i =>
    exact (Grows.of_eq rfl).trans (grows_responseComplete (S := S) (i := i))

theorem grows_httpParserExecute {callbacks : List Callback} :
    Grows l (httpParserExecute S callbacks l) := by
  induction callbacks generalizing l with
  | nil => exact .refl l
  | cons callback rest ih =>
    rw [httpParserExecute]
    split_ifs
    · exact .refl l
    · exact grows_runCallback.trans ih

theorem grows_readError : Grows l (readError reconnect l) :=
  (Grows.of_eq rfl).trans (grows_reconnectSocket reconnect _)

theorem grows_executeEof {i : CompleteInput} : Grows l (executeEof S i l) := by
  rw [executeEof]
  split_ifs
  · exact grows_responseComplete
  · exact .refl l

theorem grows_socketReadable {rounds : List ReadInput} :
    Grows l (socketReadable S reconnect rounds l) := by
  induction rounds generalizing l with
  | nil => exact .refl l
  | cons round rest ih =>
    cases round with
    | ok n callbacks left parsed more =>
      have hexecute : Grows l (httpParserExecute S callbacks l) := grows_httpParserExecute
      rw [socketReadable]
      generalize httpParserExecute S callbacks l = executed at *
      have hleft : Grows l (leaveParser left executed) := hexecute.trans (.of_eq rfl)
      split_ifs
      · exact hexecute
      · exact hleft.trans grows_readError
      · exact (hleft.trans (.of_eq rfl)).trans ih
      · exact hleft.trans (.of_eq rfl)
    | eof i =>
      rw [socketReadable]
      split_ifs
      · exact grows_executeEof
      · exact grows_executeEof.trans grows_readError
    | error => exact grows_readError
    | retry => exact .refl l

/-! ## Opening and writing -/

theorem grows_socketConnected {status : Status} :
    Grows l (socketConnected status reconnect fd l) := by
  cases status with
  | ok => exact .of_cons openSocket_history rfl
  | error => exact (Grows.of_eq rfl).trans (grows_reconnectSocket reconnect _)
  | retry => exact .refl l

theorem suffix_sendRequest {i : WriteInput} : l.history <:+ (sendRequest i fd l).history := by
  rw [sendRequest]
  cases i.result with
  | ok n =>
    rw [acceptBytes_history]
    split_ifs
    · exact ⟨[_, _], rfl⟩
    · exact List.suffix_cons _ _
  | error =>
    exact (List.suffix_cons _ _).trans (Local.suffix_reconnectSocket
      (l := (l.note (.refused l.c.written)).setErrors fun e => { e with write := e.write.add 1 }))
  | retry => exact List.suffix_cons _ _

theorem suffix_startBatch {i : WriteInput} : l.history <:+ (startBatch S i l).history := by
  rw [startBatch_history]
  split_ifs
  · exact ⟨[_, _, _], rfl⟩
  · exact ⟨[_, _], rfl⟩

theorem suffix_socketWriteable {i : WriteInput} :
    l.history <:+ (socketWriteable S i fd l).history := by
  have hpaced := (grows_usecToNextSend S i.now l).suffix
  rw [socketWriteable]
  split_ifs
  · generalize usecToNextSend S i.now l = paced at *
    obtain ⟨wait, paced⟩ := paced
    simp only at *
    split_ifs
    · exact hpaced.trans grows_park.suffix
    · exact hpaced.trans (suffix_startBatch.trans suffix_sendRequest)
  · exact suffix_sendRequest

/-- An event of a connection adds to its history. -/
theorem suffix_step {event : Event} (h : l.step S event = some l') :
    l.history <:+ l'.history := by
  simp only [Local.step] at h
  split_ifs at h
  cases event with
  | initialConnect id now start connect =>
    simp only at h
    split_ifs at h
    obtain rfl := Option.some.inj h
    exact ((Grows.of_cons rfl rfl).trans grows_delayedInitialConnect).suffix
  | delay id now send rearm =>
    simp only at h
    split_ifs at h
    obtain rfl := Option.some.inj h
    exact ((Grows.of_cons rfl rfl).trans grows_delay).suffix
  | file fd writable call =>
    simp only at h
    split_ifs at h
    obtain rfl := Option.some.inj h
    cases call with
    | connected => exact grows_socketConnected.suffix
    | readable => exact grows_socketReadable.suffix
    | writeable => exact suffix_socketWriteable

end Grows

end Wrkx
