import Wrkx.Connection.Backend
import Wrkx.Connection.Sample

/-!
# Reading a stream of responses

What reading leaves of a connection while each of the responses is kept alive: the TCP
connection, unless a latency out of range ends the process. Which latencies are recorded is
known from the responses and the state before the first of them.

## Main results

- `readTo_httpParserExecute` — the callbacks of one buffer
- `readTo_round` — one round of `socket_readable`
- `serveEach_kept` — the responses that are kept alive, however they are cut into parts
-/

namespace Wrkx

open Word

/-! ## Responses to come -/

def Callback.completes : Callback → Option CompleteInput
  | .messageComplete i => some i
  | _ => none

/-- The responses that these callbacks complete. -/
def completions (callbacks : List Callback) : List CompleteInput :=
  callbacks.filterMap Callback.completes

/-- The responses that will be recorded, of those to come while no batch is started. -/
def toRecord (S : Setting) (stopAt : ℕ) : ℕ → Bool → List CompleteInput → List CompleteInput
  | _, _, [] => []
  | pending, hasPending, i :: rest =>
    if stopAt ≤ i.now then
      toRecord S stopAt pending hasPending rest
    else
      let left := sub64 pending 1
      let hasPending := if left = 0 then false else hasPending
      let later := toRecord S stopAt left hasPending rest
      if S.cfg.recordAllResponses || !hasPending then i :: later else later

/-- The latencies that will be recorded have their slots. -/
def Recordable (S : Setting) (is : List CompleteInput) (l : Local) : Prop :=
  ∀ i ∈ toRecord S l.thread.stopAt l.c.pending l.c.hasPending is, Fits S i.now l

instance (S : Setting) (is : List CompleteInput) (l : Local) : Decidable (Recordable S is l) :=
  inferInstanceAs (Decidable (∀ _ ∈ _, _))

/-- `reconnect_socket` gave up the TCP connection. -/
def Obs.isClosed : Obs → Bool
  | .closed => true
  | _ => false

/-- The calls of `reconnect_socket`. -/
def reconnects (history : List Obs) : ℕ := history.countP Obs.isClosed

section Recordable

variable {S : Setting} {l m n : Local} {i : CompleteInput} {is js : List CompleteInput}
  {reconnect : ConnectInput}

@[simp]
theorem recordable_nil : Recordable S [] l := by
  simp [Recordable, toRecord]

theorem Fits.congr (hslots : l.thread.SameSlots m.thread)
    (hexpected : expectedLatencyStart S m.c = expectedLatencyStart S l.c)
    (hactual : m.c.actualLatencyStart = l.c.actualLatencyStart) {now : ℕ} :
    Fits S now m ↔ Fits S now l := by
  rw [Fits, Fits, hslots.1, hslots.2, hexpected, hactual]

/-- A response leaves what decides about the slots of the later ones. -/
theorem fits_respond {now : ℕ} : Fits S now (respond S i l) ↔ Fits S now l := by
  refine Fits.congr respond_sameSlots ?_ ?_ <;> rw [respond_c] <;> split_ifs <;>
    simp [expectedLatencyStart]

/-- The first of the responses to come. -/
theorem recordable_cons : Recordable S (i :: is) l ↔
    (Sampled S i l → Fits S i.now l) ∧ Recordable S is (respond S i l) := by
  have hc := respond_c (S := S) (i := i) (l := l)
  simp only [Recordable, fits_respond, respond_stopAt, toRecord, Sampled]
  by_cases hstop : l.thread.stopAt ≤ i.now
  · rw [if_pos hstop] at hc
    simp [hstop, hc, not_lt.mpr hstop]
  · rw [if_neg hstop] at hc
    rw [if_neg hstop, hc]
    by_cases hlast : sub64 l.c.pending 1 = 0 <;>
      by_cases hall : S.cfg.recordAllResponses = true <;>
      by_cases hpending : l.c.hasPending = true <;>
      simp [hlast, hall, hpending, not_le.mp hstop]

/-! ## Reading on -/

/-- Bytes went through the parser and completed no response. -/
structure Fed (l m : Local) : Prop where
  c : ∃ parser state headers body, m.c = { l.c with parser, state, headers, body }
  thread : ∃ bytes, m.thread = { l.thread with bytes }
  tcp : m.tcp = l.tcp
  aborted : m.aborted = l.aborted
  reconnects : reconnects m.history = reconnects l.history

theorem Fed.recordable (h : Fed l m) : Recordable S is m ↔ Recordable S is l := by
  obtain ⟨parser, state, headers, body, hc⟩ := h.c
  obtain ⟨bytes, hthread⟩ := h.thread
  have hfits : ∀ now, Fits S now m ↔ Fits S now l := fun now =>
    Fits.congr (by rw [hthread]; exact ⟨rfl, rfl⟩) (by rw [hc]; rfl) (by rw [hc])
  rw [Recordable, Recordable, hc, hthread]
  simp only [hfits]

/-- The responses `is`, all kept alive, are read from `l` on; `m` is what they leave. -/
structure ReadOn (S : Setting) (l : Local) (is : List CompleteInput) (m : Local) : Prop where
  alive : m.aborted = false
  parser : m.c.parser ≠ .dead
  tcp : m.tcp = l.tcp
  stopAt : m.thread.stopAt = l.thread.stopAt
  complete : m.thread.complete = l.thread.complete + is.length
  recordable : ∀ js, Recordable S (is ++ js) l ↔ Recordable S js m

/-- The same, unless a latency without slot ends the process on the way. -/
structure ReadTo (S : Setting) (l : Local) (is : List CompleteInput) (m : Local) : Prop where
  reconnects : reconnects m.history = reconnects l.history
  read : m.thread.errors.read = l.thread.errors.read
  outcome : (m.aborted = true ∧ ∀ js, ¬ Recordable S (is ++ js) l) ∨ ReadOn S l is m

theorem ReadTo.on (h : ReadTo S l is m) (halive : m.aborted = false) : ReadOn S l is m :=
  h.outcome.resolve_left fun hfail => by simp [halive] at hfail

theorem ReadTo.aborted_iff (h : ReadTo S l is m) :
    m.aborted = false ↔ Recordable S is l := by
  rcases h.outcome with ⟨hfail, hnot⟩ | hon
  · have := hnot []
    simp_all
  · have := hon.recordable []
    simp_all [hon.alive]

theorem ReadTo.refl (halive : l.aborted = false) (hparser : l.c.parser ≠ .dead) :
    ReadTo S l [] l :=
  ⟨rfl, rfl, .inr ⟨halive, hparser, rfl, rfl, rfl, fun _ => .rfl⟩⟩

theorem ReadTo.trans (h : ReadTo S l is m) (halive : m.aborted = false) (h' : ReadTo S m js n) :
    ReadTo S l (is ++ js) n := by
  have hon := h.on halive
  refine ⟨h'.reconnects.trans h.reconnects, h'.read.trans h.read, ?_⟩
  rcases h'.outcome with ⟨hfail, hnot⟩ | hon'
  · refine .inl ⟨hfail, fun ks => ?_⟩
    rw [List.append_assoc, hon.recordable]
    exact hnot ks
  · refine .inr ⟨hon'.alive, hon'.parser, hon'.tcp.trans hon.tcp, hon'.stopAt.trans hon.stopAt,
      ?_, fun ks => ?_⟩
    · rw [hon'.complete, hon.complete, List.length_append, add_assoc]
    · rw [List.append_assoc, hon.recordable, hon'.recordable]

/-- Nothing is read once the process is aborted. -/
theorem ReadTo.append (h : ReadTo S l is m) (hfail : m.aborted = true) :
    ReadTo S l (is ++ js) m := by
  refine ⟨h.reconnects, h.read, .inl ⟨hfail, fun ks => ?_⟩⟩
  rcases h.outcome with ⟨-, hnot⟩ | hon
  · rw [List.append_assoc]
    exact hnot _
  · simp [hon.alive] at hfail

theorem ReadTo.fed (h : ReadTo S l is m) (hfed : Fed m n)
    (hparser : m.aborted = false → n.c.parser ≠ .dead) : ReadTo S l is n := by
  obtain ⟨bytes, hthread⟩ := hfed.thread
  refine ⟨hfed.reconnects.trans h.reconnects, by rw [hthread]; exact h.read, ?_⟩
  rcases h.outcome with ⟨hfail, hnot⟩ | hon
  · exact .inl ⟨hfed.aborted.trans hfail, hnot⟩
  · refine .inr ⟨hfed.aborted.trans hon.alive, hparser hon.alive, hfed.tcp.trans hon.tcp, ?_, ?_,
      fun js => (hon.recordable js).trans hfed.recordable.symm⟩
    · rw [hthread]
      exact hon.stopAt
    · rw [hthread]
      exact hon.complete

/-! ## Callbacks -/

theorem reconnects_respond : reconnects (respond S i l).history = reconnects l.history := by
  have hnone : (responded S i l).countP Obs.isClosed = 0 := by
    refine List.countP_eq_zero.mpr fun o ho hclosed => ?_
    have hresponse := ofResponse_of_mem ho
    cases o <;> simp [Obs.isClosed, Obs.ofResponse] at hclosed hresponse
  rw [respond_responded, reconnects, List.countP_append, hnone, zero_add, reconnects]

theorem readTo_respond (halive : l.aborted = false) (hparser : l.c.parser ≠ .dead) :
    ReadTo S l [i] (respond S i l) := by
  have haborted := respond_aborted_iff (S := S) (i := i) halive
  refine ⟨reconnects_respond, read_of_charges charges_respond, ?_⟩
  by_cases hfail : (respond S i l).aborted = true
  · obtain ⟨hsampled, hnot⟩ := haborted.mp hfail
    exact .inl ⟨hfail, fun js hrecordable => hnot ((recordable_cons.mp hrecordable).1 hsampled)⟩
  · have halive' : (respond S i l).aborted = false := by simpa using hfail
    have hfits : Sampled S i l → Fits S i.now l := by simpa [haborted] using hfail
    refine .inr ⟨halive', ?_, respond_tcp, respond_stopAt, (respond_counts halive').complete,
      fun js => recordable_cons.trans (and_iff_right hfits)⟩
    rw [respond_c]
    split_ifs <;> simpa using hparser

theorem fed_setParser (parser : ParserState) :
    Fed l { l with c := { l.c with parser } } :=
  ⟨⟨_, _, _, _, rfl⟩, ⟨_, rfl⟩, rfl, rfl, rfl⟩

theorem readTo_runCallback {callback : Callback} (halive : l.aborted = false)
    (hparser : l.c.parser ≠ .dead) (hkeep : ∀ i ∈ callback.completes, i.keepAlive = true) :
    ReadTo S l callback.completes.toList (runCallback S callback l) := by
  have hhere := ReadTo.refl (S := S) halive hparser
  cases callback with
  | headerField piece =>
    rw [runCallback]
    split_ifs
    · refine hhere.fed ⟨⟨l.c.parser, _, _, l.c.body, headerField_c⟩, ⟨_, rfl⟩, rfl, rfl, rfl⟩ ?_
      rw [headerField_c]
      exact fun _ => hparser
    · exact hhere
  | headerValue piece =>
    rw [runCallback]
    split_ifs
    · refine hhere.fed ⟨⟨l.c.parser, _, _, l.c.body, headerValue_c⟩, ⟨_, rfl⟩, rfl, rfl, rfl⟩ ?_
      rw [headerValue_c]
      exact fun _ => hparser
    · exact hhere
  | body piece =>
    rw [runCallback]
    split_ifs
    · exact hhere.fed ⟨⟨_, _, _, _, rfl⟩, ⟨_, rfl⟩, rfl, rfl, rfl⟩ fun _ => hparser
    · exact hhere
  | messageComplete i =>
    have hkeep : i.keepAlive = true := hkeep i rfl
    have hstarted : ReadTo S l [] { l with c := { l.c with parser := .start } } :=
      hhere.fed (fed_setParser _) fun _ => by simp
    have hresponse : ReadTo S l [i] (respond S i { l with c := { l.c with parser := .start } }) :=
      hstarted.trans halive (readTo_respond halive (by simp))
    rw [runCallback, responseComplete_eq]
    simp only [hkeep, if_true]
    split_ifs
    · exact hresponse
    · exact hresponse
    · simp at *
    · exact hresponse.fed (fed_setParser _) fun _ => by simp

theorem httpParserExecute_of_done {callbacks : List Callback}
    (hdone : l.aborted = true ∨ l.c.parser = .dead) : httpParserExecute S callbacks l = l := by
  cases callbacks with
  | nil => rfl
  | cons callback rest => rw [httpParserExecute, if_pos hdone]

theorem httpParserExecute_append {callbacks callbacks' : List Callback} :
    httpParserExecute S (callbacks ++ callbacks') l =
      httpParserExecute S callbacks' (httpParserExecute S callbacks l) := by
  induction callbacks generalizing l with
  | nil => rfl
  | cons callback rest ih =>
    rw [List.cons_append, httpParserExecute, httpParserExecute]
    split_ifs with hdone
    · exact (httpParserExecute_of_done hdone).symm
    · exact ih

/-- The callbacks of one buffer, none of which closes the connection. -/
theorem readTo_httpParserExecute {callbacks : List Callback} (halive : l.aborted = false)
    (hparser : l.c.parser ≠ .dead) (hkeep : ∀ i ∈ completions callbacks, i.keepAlive = true) :
    ReadTo S l (completions callbacks) (httpParserExecute S callbacks l) := by
  induction callbacks generalizing l with
  | nil => exact .refl halive hparser
  | cons callback rest ih =>
    have hsplit : completions (callback :: rest) =
        callback.completes.toList ++ completions rest := by
      cases callback <;> rfl
    rw [hsplit] at hkeep
    have hfirst : ReadTo S l callback.completes.toList (runCallback S callback l) :=
      readTo_runCallback halive hparser fun i hi => hkeep i (by simp_all)
    rw [hsplit, httpParserExecute, if_neg (by simp [halive, hparser])]
    cases haborted : (runCallback S callback l).aborted with
    | true =>
      rw [httpParserExecute_of_done (.inl haborted)]
      exact hfirst.append haborted
    | false =>
      exact hfirst.trans haborted (ih haborted (hfirst.on haborted).parser
        fun i hi => hkeep i (List.mem_append_right _ hi))

/-- A response that closes the connection leaves the parser dead. -/
theorem runCallback_dead (hkeep : i.keepAlive = false) :
    (runCallback S (.messageComplete i) l).c.parser = .dead := by
  rw [runCallback, responseComplete_eq]
  simp only [hkeep, Bool.false_eq_true, if_false, Bool.not_false, if_true]
  split_ifs <;> simp only [reconnectSocket_parserState, respond_c] <;> split_ifs <;> simp

/-- A parser that is not dead has kept the connection alive. -/
theorem keepAlive_of_open {callbacks : List Callback}
    (halive : (httpParserExecute S callbacks l).aborted = false)
    (hparser : (httpParserExecute S callbacks l).c.parser ≠ .dead) :
    l.c.parser ≠ .dead ∧ ∀ i ∈ completions callbacks, i.keepAlive = true := by
  induction callbacks generalizing l with
  | nil => exact ⟨hparser, by simp [completions]⟩
  | cons callback rest ih =>
    rw [httpParserExecute] at halive hparser
    split_ifs at halive hparser with hdone
    · rcases hdone with habort | hdead
      · simp [habort] at halive
      · exact absurd hdead hparser
    · obtain ⟨hnext, hrest⟩ := ih halive hparser
      refine ⟨fun hdead => hdone (.inr hdead), fun i hi => ?_⟩
      cases callback with
      | messageComplete j =>
        rcases List.mem_cons.mp (show i ∈ j :: completions rest from hi) with rfl | hi
        · by_contra hclose
          exact hnext (runCallback_dead (by simpa using hclose))
        · exact hrest i hi
      | headerField | headerValue | body => exact hrest i hi

/-- The parser never goes back to an earlier TCP connection. -/
theorem le_tcp_httpParserExecute (callbacks : List Callback) :
    l.tcp ≤ (httpParserExecute S callbacks l).tcp := by
  have hresponse : ∀ (i : CompleteInput) (l : Local), l.tcp ≤ (responseComplete S i l).tcp := by
    intro i l
    rw [responseComplete_eq]
    split_ifs
    · exact respond_tcp.ge
    · exact respond_tcp.ge
    · rw [(Local.reconnectSocket_connects _ _).tcp_eq, Local.dropped_tcp, respond_tcp]
      exact Nat.le_succ _
    · exact respond_tcp.ge
  induction callbacks generalizing l with
  | nil => exact le_rfl
  | cons callback rest ih =>
    rw [httpParserExecute]
    split_ifs
    · exact le_rfl
    · refine le_trans ?_ ih
      cases callback with
      | messageComplete i =>
        exact hresponse i
          { l with c := { l.c with parser := if i.keepAlive then .start else .dead } }
      | headerField | headerValue | body => rw [runCallback]; split_ifs <;> exact le_rfl

/-! ## Rounds -/

/-- The bytes are accepted and complete only responses that are kept alive. -/
structure Chunk.Kept (chunk : Chunk) : Prop where
  parsed : chunk.parsed = true
  left : chunk.left ≠ .dead
  keepAlive : ∀ i ∈ completions chunk.callbacks, i.keepAlive = true

variable {chunk : Chunk} {readable : ℕ}

theorem socketReadable_chunk : socketReadable S reconnect [chunk.round readable] l =
    if (httpParserExecute S chunk.callbacks l).aborted then
      httpParserExecute S chunk.callbacks l
    else if !chunk.parsed then
      readError reconnect (leaveParser chunk.left (httpParserExecute S chunk.callbacks l))
    else
      addBytes chunk.n (leaveParser chunk.left (httpParserExecute S chunk.callbacks l)) := by
  simp only [Chunk.round, socketReadable]
  split_ifs <;> rfl

/-- One round of `socket_readable`. -/
theorem readTo_round (halive : l.aborted = false) (hparser : l.c.parser ≠ .dead)
    (hkept : chunk.Kept) : ReadTo S l (completions chunk.callbacks)
      (socketReadable S reconnect [chunk.round readable] l) := by
  have hread := readTo_httpParserExecute (S := S) halive hparser hkept.keepAlive
  rw [socketReadable_chunk]
  split_ifs with habort hparsed
  · exact hread
  · simp [hkept.parsed] at hparsed
  · have hdead := (hread.on (by simpa using habort)).parser
    refine hread.fed ⟨⟨_, _, _, _, rfl⟩, ⟨_, rfl⟩, rfl, rfl, rfl⟩ fun _ => ?_
    simpa [addBytes, leaveParser, hdead] using hkept.left

theorem parser_round (halive : l.aborted = false) (hparser : l.c.parser ≠ .dead)
    (hkept : chunk.Kept)
    (halive' : (socketReadable S reconnect [chunk.round readable] l).aborted = false) :
    (socketReadable S reconnect [chunk.round readable] l).c.parser = chunk.left := by
  have hread := readTo_httpParserExecute (S := S) halive hparser hkept.keepAlive
  rw [socketReadable_chunk] at halive' ⊢
  split_ifs at halive' ⊢ with habort hparsed
  · simp [habort] at halive'
  · simp [hkept.parsed] at hparsed
  · simp [addBytes, leaveParser, (hread.on (by simpa using habort)).parser]

theorem serveEach_round {rest : List ReadInput} (halive : l.aborted = false)
    (hparser : l.c.parser ≠ .dead) (hkept : chunk.Kept) :
    serveEach S reconnect (chunk.round readable :: rest) l =
      serveEach S reconnect rest (socketReadable S reconnect [chunk.round readable] l) := by
  have hread : ReadTo S l (completions chunk.callbacks)
      (socketReadable S reconnect [chunk.round readable] l) := readTo_round halive hparser hkept
  rw [serveEach_cons halive]
  cases haborted : (socketReadable S reconnect [chunk.round readable] l).aborted with
  | true => simp [haborted]
  | false => rw [if_pos (hread.on haborted).tcp]

/-- The responses that a stream of these chunks completes. -/
def streamed (chunks : List Chunk) : List CompleteInput :=
  chunks.flatMap fun chunk => completions chunk.callbacks

/-- A stream is read up to any point before which the connection is kept alive. -/
theorem serveEach_kept (S : Setting) (reconnect : ConnectInput) {chunks : List Chunk}
    (halive : l.aborted = false)
    (hparser : l.c.parser ≠ .dead) (hkept : ∀ chunk ∈ chunks, chunk.Kept) :
    ∃ m, ReadTo S l (streamed chunks) m ∧
      (m.aborted = false → m.c.parser = (chunks.map Chunk.left).getLastD l.c.parser) ∧
      ∀ rest, serveEach S reconnect (chunks.map (·.round 0) ++ rest) l =
        serveEach S reconnect rest m := by
  induction chunks generalizing l with
  | nil => exact ⟨l, .refl halive hparser, fun _ => rfl, fun rest => rfl⟩
  | cons chunk chunks ih =>
    have hchunk := hkept chunk (by simp)
    have hnext : ∀ rest, serveEach S reconnect ((chunk :: chunks).map (·.round 0) ++ rest) l = _ :=
      fun rest => serveEach_round halive hparser hchunk
    have hfirst : ReadTo S l (completions chunk.callbacks)
        (socketReadable S reconnect [chunk.round 0] l) := readTo_round halive hparser hchunk
    have hleft : (socketReadable S reconnect [chunk.round 0] l).aborted = false →
        (socketReadable S reconnect [chunk.round 0] l).c.parser = chunk.left :=
      parser_round halive hparser hchunk
    generalize socketReadable S reconnect [chunk.round 0] l = next at *
    cases haborted : next.aborted with
    | true =>
      refine ⟨next, hfirst.append haborted, fun h => by simp [haborted] at h, fun rest => ?_⟩
      rw [hnext, serveEach_of_aborted haborted, serveEach_of_aborted haborted]
    | false =>
      obtain ⟨m, hread, hm, hrest⟩ := ih haborted (hfirst.on haborted).parser
        fun chunk hchunk => hkept chunk (List.mem_cons_of_mem _ hchunk)
      refine ⟨m, hfirst.trans haborted hread, fun h => ?_, fun rest => (hnext rest).trans (hrest _)⟩
      rw [hm h, hleft haborted, List.map_cons, List.getLastD_cons]

end Recordable

end Wrkx
