import Wrkx.Connection.Reading

/-!
# A close after the last response

A server sends responses, of which only the last is not kept alive, and closes the connection.
Where the last response has an end of its own, its `message_complete` makes `response_complete`
reconnect, and the close is never read. Where the close itself is the end, `response_complete`
reconnects from the parser that was given the end of the stream, and `socket_readable`, which sees
an end of the stream as an error, does so again. Bytes that the parser does not accept are an error
as well.

## Main results

- `takenApart` — the responses that are read before the connection is given up
- `clean_iff` — which streams are counted without an error and with one reconnect
-/

namespace Wrkx

open Word

/-! ## Streams -/

/-- The responses up to the first that closes the connection, and that one. -/
def firstClose : List CompleteInput → Option (List CompleteInput × CompleteInput)
  | [] => none
  | i :: is =>
    if i.keepAlive then (firstClose is).map fun (kept, last) => (i :: kept, last) else some ([], i)

/-- The responses up to the first that closes the connection, when all bytes of the chunks up to
    its end are accepted. -/
def takenApart : List Chunk → Option (List CompleteInput × CompleteInput)
  | [] => none
  | chunk :: rest =>
    if chunk.parsed then
      match firstClose (completions chunk.callbacks) with
      | some taken => some taken
      | none =>
        (takenApart rest).map fun (kept, last) => (completions chunk.callbacks ++ kept, last)
    else
      none

/-- The parser is dead only after a response that closes the connection, or when it accepts nothing
    more. -/
def LivesOn : List Chunk → Prop
  | [] => True
  | chunk :: rest => chunk.parsed = true → firstClose (completions chunk.callbacks) = none →
      (chunk.left = .dead → takenApart rest = none) ∧ LivesOn rest

/-- There is no read error, and one reconnect. -/
structure ClosedOnce (l m : Local) : Prop where
  read : m.thread.errors.read = l.thread.errors.read
  reconnects : reconnects m.history = reconnects l.history + 1

/-- Every response is counted once, there is no read error, and one reconnect. -/
structure CleanlyClosed (responses : ℕ) (l m : Local) : Prop extends ClosedOnce l m where
  complete : m.thread.complete = l.thread.complete + responses

/-- What the responses that are taken out of a stream come to. -/
def Outcome (S : Setting) (l m : Local) : Option (List CompleteInput × CompleteInput) → Prop
  | none => ¬ ClosedOnce l m
  | some (kept, last) =>
    if last.now < l.thread.stopAt ∧ Recordable S (kept ++ [last]) l then
      CleanlyClosed (kept.length + 1) l m
    else
      ¬ ClosedOnce l m

section Streams

variable {S : Setting} {l m : Local} {reconnect : ConnectInput} {i j : CompleteInput}
  {chunk : Chunk} {chunks : List Chunk} {is : List CompleteInput} {callbacks : List Callback}

theorem completions_append {callbacks callbacks' : List Callback} :
    completions (callbacks ++ callbacks') = completions callbacks ++ completions callbacks' :=
  List.filterMap_append

theorem firstClose_eq_none : firstClose is = none ↔ ∀ i ∈ is, i.keepAlive = true := by
  induction is with
  | nil => simp [firstClose]
  | cons i is ih =>
    rw [firstClose]
    split_ifs with hkeep
    · simp [ih, hkeep]
    · simp [hkeep]

/-- The first response that closes the connection comes after some that keep it. -/
theorem firstClose_eq_some {kept : List CompleteInput} (h : firstClose is = some (kept, j)) :
    (∀ i ∈ kept, i.keepAlive = true) ∧ j.keepAlive = false ∧ ∃ later, is = kept ++ j :: later := by
  induction is generalizing kept with
  | nil => cases h
  | cons i is ih =>
    rw [firstClose] at h
    split_ifs at h with hkeep
    · obtain ⟨⟨kept', last⟩, hfirst, heq⟩ := Option.map_eq_some_iff.mp h
      obtain ⟨rfl, rfl⟩ := Prod.mk.inj heq
      obtain ⟨hkept, hlast, later, rfl⟩ := ih hfirst
      exact ⟨List.forall_mem_cons.mpr ⟨hkeep, hkept⟩, hlast, later, rfl⟩
    · obtain ⟨rfl, rfl⟩ := Prod.mk.inj (Option.some.inj h)
      exact ⟨List.forall_mem_nil _, eq_false_of_ne_true hkeep, is, rfl⟩

/-- The callback of a completion, and the callbacks around it. -/
theorem callbacks_of_completions {kept later : List CompleteInput}
    (h : completions callbacks = kept ++ j :: later) : ∃ before after,
      callbacks = before ++ .messageComplete j :: after ∧ completions before = kept := by
  induction callbacks generalizing kept with
  | nil => exact absurd h (by simp [completions])
  | cons callback callbacks ih =>
    cases callback with
    | messageComplete i =>
      have hcons : i :: completions callbacks = kept ++ j :: later := h
      cases kept with
      | nil =>
        obtain ⟨rfl, -⟩ := List.cons.inj hcons
        exact ⟨[], callbacks, rfl, rfl⟩
      | cons i' kept =>
        obtain ⟨rfl, hrest⟩ := List.cons.inj hcons
        obtain ⟨before, after, rfl, rfl⟩ := ih hrest
        exact ⟨.messageComplete i :: before, after, rfl, rfl⟩
    | headerField piece | headerValue piece | body piece =>
      obtain ⟨before, after, rfl, hbefore⟩ := ih h
      exact ⟨_ :: before, after, rfl, hbefore⟩

/-! ## What is read before the last response -/

theorem ReadTo.not_closed (h : ReadTo S l is m) : ¬ ClosedOnce l m := by
  intro hclosed
  have hreconnects := hclosed.reconnects
  rw [h.reconnects] at hreconnects
  exact absurd hreconnects (Nat.lt_succ_self _).ne

/-- What is read before the last response changes nothing but the count. -/
theorem ReadTo.outcome_of {final : Local} {taken : Option (List CompleteInput × CompleteInput)}
    (h : ReadTo S l is m) (hon : ReadOn S l is m) (houtcome : Outcome S m final taken) :
    Outcome S l final (taken.map fun (kept, last) => (is ++ kept, last)) := by
  have hclosed : ClosedOnce l final ↔ ClosedOnce m final := by
    refine ⟨fun hclosed => ⟨?_, ?_⟩, fun hclosed => ⟨?_, ?_⟩⟩
    · exact hclosed.read.trans h.read.symm
    · rw [hclosed.reconnects, h.reconnects]
    · exact hclosed.read.trans h.read
    · rw [hclosed.reconnects, h.reconnects]
  cases taken with
  | none => exact fun hl => houtcome (hclosed.mp hl)
  | some taken =>
    obtain ⟨kept, last⟩ := taken
    simp only [Outcome, Option.map_some, List.append_assoc, hon.recordable, ← hon.stopAt]
      at houtcome ⊢
    split_ifs at houtcome ⊢ with hgood
    · refine ⟨hclosed.mpr houtcome.toClosedOnce, ?_⟩
      rw [houtcome.complete, hon.complete, List.length_append]
      ring
    · exact fun hl => houtcome (hclosed.mp hl)

/-- Nothing comes of a stream on which the process ends early. -/
theorem ReadTo.outcome_aborted {taken : Option (List CompleteInput × CompleteInput)}
    (h : ReadTo S l is m) (haborted : m.aborted = true) :
    Outcome S l m (taken.map fun (kept, last) => (is ++ kept, last)) := by
  cases taken with
  | none => exact h.not_closed
  | some taken =>
    obtain ⟨kept, last⟩ := taken
    have hall : ReadTo S l (is ++ (kept ++ [last])) m := h.append haborted
    simp only [Outcome, Option.map_some, List.append_assoc]
    rw [if_neg fun hgood => ?_]
    · exact h.not_closed
    · simp [hall.aborted_iff.mpr hgood.2] at haborted

/-! ## Errors -/

theorem readError_read : (readError reconnect l).thread.errors.read =
    l.thread.errors.read.add 1 := ErrorCounter.ext (congrArg Charges.read charges_readError)

theorem readError_tcp : (readError reconnect l).tcp = l.tcp + 1 :=
  (Local.reconnectSocket_connects reconnect _).tcp_eq

theorem not_closed_of_read (h : m.thread.errors.read = l.thread.errors.read.add 1) :
    ¬ ClosedOnce l m := fun hclosed =>
  absurd (congrArg ErrorCounter.increments (hclosed.read.symm.trans h)) (Nat.lt_succ_self _).ne

/-- After the last response, the close is an error if it is read. -/
theorem read_of_dead (halive : l.aborted = false) (hdead : l.c.parser = .dead) :
    (serveEach S reconnect (chunks.map (·.round 0) ++ [.eof i]) l).thread.errors.read =
      l.thread.errors.read.add 1 := by
  induction chunks generalizing l with
  | nil =>
    rw [List.map_nil, List.nil_append, serveEach_singleton halive, socketReadable]
    have hexecute : executeEof S i l = l := by simp [executeEof, hdead]
    rw [hexecute, if_neg (by simp [halive])]
    exact readError_read
  | cons chunk chunks ih =>
    have hround : socketReadable S reconnect [chunk.round 0] l =
        if !chunk.parsed then readError reconnect (leaveParser chunk.left l)
        else addBytes chunk.n (leaveParser chunk.left l) := by
      rw [socketReadable_chunk, httpParserExecute_of_done (.inr hdead), if_neg (by simp [halive])]
    rw [List.map_cons, List.cons_append, serveEach_cons halive, hround]
    split_ifs with hparsed htcp htcp
    · exact absurd (readError_tcp.symm.trans htcp) (Nat.succ_ne_self _)
    · exact readError_read
    · exact ih (l := addBytes chunk.n (leaveParser chunk.left l)) halive
        (by simp [addBytes, leaveParser, hdead])
    · exact absurd rfl htcp

/-- The end of the stream is an error, also where it completes a response. -/
theorem not_closed_eof : ¬ ClosedOnce l (socketReadable S reconnect [.eof i] l) := by
  rw [socketReadable]
  split_ifs with habort
  · -- A latency without slot ended the process before the reconnect.
    intro hclosed
    have hsame : reconnects (executeEof S i l).history = reconnects l.history := by
      rw [executeEof] at habort ⊢
      split_ifs at habort ⊢
      · rw [responseComplete_eq] at habort ⊢
        split_ifs at habort ⊢ with hstop hfail
        · exact reconnects_respond
        · exact reconnects_respond
        · rw [(Local.reconnectSocket_connects _ _).aborted_eq] at habort
          exact absurd habort hfail
        · exact absurd habort hfail
      · rfl
    exact absurd (hsame.symm.trans hclosed.reconnects) (Nat.lt_succ_self _).ne
  · refine not_closed_of_read (readError_read.trans ?_)
    exact congrArg (ErrorCounter.add 1) (read_of_charges charges_executeEof)

/-! ## The end of the last response -/

/-- The connection as `response_complete` finds it at the end of the last response. -/
def Local.deadened (l : Local) : Local := { l with c := { l.c with parser := .dead } }

theorem runCallback_last (hj : j.keepAlive = false) : runCallback S (.messageComplete j) l =
    if l.thread.stopAt ≤ j.now ∨ (respond S j l.deadened).aborted = true then
      respond S j l.deadened
    else
      reconnectSocket j.reconnect (respond S j l.deadened) := by
  have hrun : runCallback S (.messageComplete j) l = responseComplete S j l.deadened := by
    rw [runCallback]
    simp [hj, Local.deadened]
  have hstopAt : l.deadened.thread.stopAt = l.thread.stopAt := rfl
  rw [hrun, responseComplete_eq, hstopAt]
  by_cases hstop : l.thread.stopAt ≤ j.now <;>
    by_cases hfail : (respond S j l.deadened).aborted = true <;> simp [hstop, hfail, hj]

/-- The last response ends the process when it is recorded and a latency has no slot. -/
theorem aborted_last (halive : l.aborted = false) :
    (respond S j l.deadened).aborted = true ↔
      j.now < l.thread.stopAt ∧ ¬ Recordable S [j] l := by
  rw [respond_aborted_iff (l := l.deadened) halive, ← (fed_setParser (l := l) .dead).recordable,
    recordable_cons, and_iff_left recordable_nil, Classical.not_imp]
  exact ⟨fun h => ⟨h.1.1, h⟩, fun h => h.2⟩

/-- The last response is counted, and the connection given up, if nothing else happens. -/
theorem clean_reconnect (halive : (respond S j l.deadened).aborted = false) :
    CleanlyClosed 1 l (reconnectSocket reconnect (respond S j l.deadened)) := by
  have hconnects := Local.reconnectSocket_connects reconnect (respond S j l.deadened)
  obtain ⟨ok, hhistory⟩ := hconnects.history_eq
  have hcomplete := (Local.quiet_deleteFileEvent.trans hconnects.quiet).counts.2.1
  have hreconnects : reconnects (respond S j l.deadened).history = reconnects l.history :=
    reconnects_respond
  refine ⟨⟨?_, ?_⟩, hcomplete.trans (respond_counts halive).complete⟩
  · exact read_of_charges (charges_reconnectSocket.trans charges_respond)
  · rw [hhistory, Local.dropped_history, ← hreconnects]
    simp [reconnects, Obs.isClosed, List.countP_cons]

/-- Without a reconnect after the last response, the close is read. -/
theorem not_closed_of_open (halive : (respond S j l.deadened).aborted = false) :
    ¬ ClosedOnce l (serveEach S reconnect (chunks.map (·.round 0) ++ [.eof i])
      (addBytes chunk.n (leaveParser chunk.left (respond S j l.deadened)))) := by
  generalize hleft : addBytes chunk.n (leaveParser chunk.left (respond S j l.deadened)) = m at *
  have hdead : m.c.parser = .dead := by
    rw [← hleft]
    simp only [addBytes, leaveParser, respond_c]
    split_ifs <;> simp_all [Local.deadened]
  have halive' : m.aborted = false := hleft ▸ halive
  have hsame : m.thread.errors.read = l.thread.errors.read := by
    rw [← hleft]
    exact read_of_charges charges_respond
  refine not_closed_of_read ((read_of_dead halive' hdead).trans ?_)
  exact congrArg (ErrorCounter.add 1) hsame

/-- A response that ends the process makes no reconnect. -/
theorem not_closed_aborted : ¬ ClosedOnce l (respond S j l.deadened) := by
  intro hclosed
  have hreconnects : reconnects (respond S j l.deadened).history = reconnects l.history :=
    reconnects_respond
  exact absurd (hreconnects.symm.trans hclosed.reconnects) (Nat.lt_succ_self _).ne

/-- What follows the last response, which is the only one left. -/
theorem outcome_last (chunk : Chunk) (halive : l.aborted = false) (hparser : l.c.parser ≠ .dead)
    (hj : j.keepAlive = false) {m : Local}
    (hm : m = let executed := httpParserExecute S [.messageComplete j] l
      if executed.aborted then executed else addBytes chunk.n (leaveParser chunk.left executed)) :
    Outcome S l (if m.tcp = l.tcp then
        serveEach S reconnect (chunks.map (·.round 0) ++ [.eof i]) m
      else
        m) (some ([], j)) := by
  have hlast : httpParserExecute S [.messageComplete j] l =
      runCallback S (.messageComplete j) l := by
    simp [httpParserExecute, halive, hparser]
  have hfail := aborted_last (S := S) (j := j) halive
  rw [hlast, runCallback_last hj] at hm
  unfold Outcome
  dsimp only
  by_cases habort : (respond S j l.deadened).aborted = true
  · -- A latency out of range ends the process.
    simp only [habort, or_true, if_true] at hm
    rw [hm, serveEach_of_aborted habort, ite_self, if_neg fun h => (hfail.mp habort).2 h.2]
    exact not_closed_aborted
  · have halive' : (respond S j l.deadened).aborted = false := by simpa using habort
    by_cases hstop : l.thread.stopAt ≤ j.now
    · -- Past `stop_at` there is no reconnect.
      have htcp : m.tcp = l.tcp := by
        rw [hm, if_pos (Or.inl hstop), if_neg habort]
        exact respond_tcp
      rw [if_pos htcp, hm, if_pos (Or.inl hstop), if_neg habort,
        if_neg fun h => absurd h.1 (not_lt.mpr hstop)]
      exact not_closed_of_open halive'
    · -- The reconnect opens another TCP connection, so that the close is not read.
      have hconnects := Local.reconnectSocket_connects j.reconnect (respond S j l.deadened)
      have hopened : (reconnectSocket j.reconnect (respond S j l.deadened)).aborted = false :=
        hconnects.aborted_eq.trans halive'
      have hclosed : CleanlyClosed 1 l (reconnectSocket j.reconnect (respond S j l.deadened)) :=
        clean_reconnect halive'
      have htcp : m.tcp ≠ l.tcp := by
        rw [hm, if_neg (not_or.mpr ⟨hstop, habort⟩), if_neg (by simp [hopened])]
        refine fun h => absurd (hconnects.tcp_eq.symm.trans h) ?_
        rw [Local.dropped_tcp, respond_tcp]
        exact (Nat.lt_succ_self _).ne'
      have hrecordable : Recordable S [j] l := by
        by_contra hnot
        exact habort (hfail.mpr ⟨not_le.mp hstop, hnot⟩)
      rw [if_neg htcp, if_pos ⟨not_le.mp hstop, hrecordable⟩, hm,
        if_neg (not_or.mpr ⟨hstop, habort⟩), if_neg (by simp [hopened])]
      exact ⟨⟨hclosed.read, hclosed.reconnects⟩, hclosed.complete⟩

/-- No callback comes after a response that closes the connection. -/
theorem httpParserExecute_last {later : List Callback} (hj : j.keepAlive = false) :
    httpParserExecute S (.messageComplete j :: later) l =
      httpParserExecute S [.messageComplete j] l := by
  rw [httpParserExecute, httpParserExecute]
  split_ifs
  · rfl
  · rw [httpParserExecute_of_done (.inr (runCallback_dead hj)),
      httpParserExecute_of_done (.inr (runCallback_dead hj))]

/-! ## Chunks -/

/-- The chunk that holds the end of the last response. -/
theorem outcome_firstClose {kept : List CompleteInput} (halive : l.aborted = false)
    (hparser : l.c.parser ≠ .dead) (hparsed : chunk.parsed = true)
    (hfirst : firstClose (completions chunk.callbacks) = some (kept, j)) :
    Outcome S l (serveEach S reconnect ((chunk :: chunks).map (·.round 0) ++ [.eof i]) l)
      (some (kept, j)) := by
  obtain ⟨hkept, hj, later, hcompletions⟩ := firstClose_eq_some hfirst
  obtain ⟨before, after, hcallbacks, rfl⟩ := callbacks_of_completions hcompletions
  have hread := readTo_httpParserExecute (S := S) halive hparser hkept
  have hround : socketReadable S reconnect [chunk.round 0] l = _ := socketReadable_chunk
  rw [hcallbacks, httpParserExecute_append, httpParserExecute_last hj, hparsed] at hround
  rw [List.map_cons, List.cons_append, serveEach_cons halive]
  have hmap : some (completions before, j) =
      (some (([] : List CompleteInput), j)).map fun (kept, last) =>
        (completions before ++ kept, last) := by simp
  rw [hmap]
  generalize httpParserExecute S before l = m at *
  cases haborted : m.aborted with
  | true =>
    -- A response before the last one ended the process.
    have hdone : httpParserExecute S [.messageComplete j] m = m :=
      httpParserExecute_of_done (.inl haborted)
    rw [hdone, if_pos haborted] at hround
    rw [hround, serveEach_of_aborted haborted, ite_self]
    exact hread.outcome_aborted haborted
  | false =>
    have hon := hread.on haborted
    refine hread.outcome_of hon ?_
    rw [← hon.tcp]
    exact outcome_last chunk haborted hon.parser hj (by rw [hround]; simp)

/-- A chunk without an end of the connection, after which the parser goes on. -/
theorem outcome_kept {taken : Option (List CompleteInput × CompleteInput)} {rest : List ReadInput}
    (halive : l.aborted = false) (hparser : l.c.parser ≠ .dead) (hkept : chunk.Kept)
    (hrest : ∀ m : Local, m.aborted = false → m.c.parser ≠ .dead →
      Outcome S m (serveEach S reconnect rest m) taken) :
    Outcome S l (serveEach S reconnect (chunk.round 0 :: rest) l)
      (taken.map fun (kept, last) => (completions chunk.callbacks ++ kept, last)) := by
  have hread : ReadTo S l (completions chunk.callbacks)
      (socketReadable S reconnect [chunk.round 0] l) := readTo_round halive hparser hkept
  rw [serveEach_round halive hparser hkept]
  generalize socketReadable S reconnect [chunk.round 0] l = m at *
  cases haborted : m.aborted with
  | true =>
    rw [serveEach_of_aborted haborted]
    exact hread.outcome_aborted haborted
  | false =>
    have hon := hread.on haborted
    exact hread.outcome_of hon (hrest m haborted hon.parser)

/-- A parser that is dead without such an end makes the close an error. -/
theorem not_closed_of_dead (halive : l.aborted = false) (hparser : l.c.parser ≠ .dead)
    (hparsed : chunk.parsed = true)
    (hkeep : ∀ i ∈ completions chunk.callbacks, i.keepAlive = true) (hleft : chunk.left = .dead) :
    ¬ ClosedOnce l (serveEach S reconnect ((chunk :: chunks).map (·.round 0) ++ [.eof i]) l) := by
  have hread := readTo_httpParserExecute (S := S) halive hparser hkeep
  have hround : socketReadable S reconnect [chunk.round 0] l = _ := socketReadable_chunk
  rw [hparsed] at hround
  rw [List.map_cons, List.cons_append, serveEach_cons halive, hround]
  generalize httpParserExecute S chunk.callbacks l = m at *
  cases haborted : m.aborted with
  | true =>
    rw [if_pos rfl, serveEach_of_aborted haborted, ite_self]
    exact hread.not_closed
  | false =>
    have hon := hread.on haborted
    have htcp : (addBytes chunk.n (leaveParser chunk.left m)).tcp = l.tcp := hon.tcp
    simp only [Bool.false_eq_true, if_false, Bool.not_true]
    rw [if_pos htcp]
    refine not_closed_of_read ((read_of_dead (l := addBytes chunk.n (leaveParser chunk.left m))
      haborted ?_).trans (congrArg (ErrorCounter.add 1) hread.read))
    simp [addBytes, leaveParser, hleft]

/-- A process that ends on the way, or goes on reading, has not reconnected. -/
theorem reconnects_httpParserExecute (halive : l.aborted = false) (hparser : l.c.parser ≠ .dead)
    (haborted : (httpParserExecute S callbacks l).aborted = true) :
    reconnects (httpParserExecute S callbacks l).history = reconnects l.history := by
  cases hfirst : firstClose (completions callbacks) with
  | none =>
    exact (readTo_httpParserExecute halive hparser (firstClose_eq_none.mp hfirst)).reconnects
  | some taken =>
    obtain ⟨kept, j⟩ := taken
    obtain ⟨hkept, hj, later, hcompletions⟩ := firstClose_eq_some hfirst
    obtain ⟨before, after, rfl, rfl⟩ := callbacks_of_completions hcompletions
    have hread := readTo_httpParserExecute (S := S) halive hparser hkept
    rw [httpParserExecute_append, httpParserExecute_last hj] at haborted ⊢
    generalize httpParserExecute S before l = m at *
    by_cases hdone : m.aborted = true ∨ m.c.parser = .dead
    · rw [httpParserExecute_of_done hdone]
      exact hread.reconnects
    · rw [httpParserExecute, if_neg hdone, httpParserExecute, runCallback_last hj] at haborted ⊢
      split_ifs at haborted ⊢ with hopen
      · exact reconnects_respond.trans hread.reconnects
      · rw [(Local.reconnectSocket_connects _ _).aborted_eq] at haborted
        exact absurd (.inr haborted) hopen

/-- Bytes that the parser does not accept are an error. -/
theorem not_closed_unparsed {rest : List ReadInput} (halive : l.aborted = false)
    (hparser : l.c.parser ≠ .dead) (hparsed : chunk.parsed = false) :
    ¬ ClosedOnce l (serveEach S reconnect (chunk.round 0 :: rest) l) := by
  have hround : socketReadable S reconnect [chunk.round 0] l = _ := socketReadable_chunk
  have htcp : l.tcp ≤ (httpParserExecute S chunk.callbacks l).tcp := le_tcp_httpParserExecute _
  rw [hparsed] at hround
  rw [serveEach_cons halive, hround]
  cases haborted : (httpParserExecute S chunk.callbacks l).aborted with
  | true =>
    rw [if_pos rfl, serveEach_of_aborted haborted, ite_self]
    intro hclosed
    have hsame := reconnects_httpParserExecute halive hparser haborted
    exact absurd (hsame.symm.trans hclosed.reconnects) (Nat.lt_succ_self _).ne
  | false =>
    simp only [Bool.false_eq_true, if_false, Bool.not_false, if_true]
    rw [if_neg]
    · refine not_closed_of_read (readError_read.trans ?_)
      exact congrArg (ErrorCounter.add 1) (read_of_charges charges_httpParserExecute)
    · rw [readError_tcp]
      exact (Nat.lt_succ_of_le htcp).ne'

/-! ## The whole stream -/

/-- What comes of a stream that ends with an orderly close. -/
theorem outcome_stream (S : Setting) (reconnect : ConnectInput) (i : CompleteInput)
    (halive : l.aborted = false) (hparser : l.c.parser ≠ .dead) (hlives : LivesOn chunks) :
    Outcome S l (serveEach S reconnect (chunks.map (·.round 0) ++ [.eof i]) l)
      (takenApart chunks) := by
  induction chunks generalizing l with
  | nil =>
    rw [List.map_nil, List.nil_append, serveEach_singleton halive]
    exact not_closed_eof
  | cons chunk chunks ih =>
    rw [takenApart]
    by_cases hparsed : chunk.parsed = true
    · rw [if_pos hparsed]
      cases hfirst : firstClose (completions chunk.callbacks) with
      | some taken => exact outcome_firstClose halive hparser hparsed hfirst
      | none =>
        obtain ⟨hdead, hlater⟩ := hlives hparsed hfirst
        have hkeep := firstClose_eq_none.mp hfirst
        by_cases hleft : chunk.left = .dead
        · rw [hdead hleft]
          exact not_closed_of_dead halive hparser hparsed hkeep hleft
        · exact outcome_kept halive hparser ⟨hparsed, hleft, hkeep⟩
            fun m halive' hparser' => ih halive' hparser' hlater
    · rw [if_neg hparsed]
      exact not_closed_unparsed halive hparser (eq_false_of_ne_true hparsed)

/-- A stream that ends with an orderly close is counted without a read error and with one reconnect,
    exactly if its responses are taken apart up to one that closes the connection, this one comes
    before `stop_at`, and the latencies that are recorded have their slots. -/
theorem clean_iff (S : Setting) (reconnect : ConnectInput) {reads : List (Chunk × Option ℕ)}
    (i : CompleteInput) (halive : l.aborted = false) (hparser : l.c.parser ≠ .dead)
    (hlives : LivesOn (reads.map Prod.fst)) (n : ℕ) :
    CleanlyClosed n l (serve S reconnect ((sockStream reads i).map sockRead) l) ↔
      ∃ kept last, takenApart (reads.map Prod.fst) = some (kept, last) ∧ kept.length + 1 = n ∧
        last.now < l.thread.stopAt ∧ Recordable S (kept ++ [last]) l := by
  have houtcome := outcome_stream S reconnect i halive hparser hlives
  rw [serve_eq_serveEach, serveEach_sockStream]
  generalize serveEach S reconnect _ l = m at houtcome ⊢
  cases htaken : takenApart (reads.map Prod.fst) with
  | none =>
    rw [htaken] at houtcome
    exact iff_of_false (fun hclean => houtcome hclean.toClosedOnce) (by simp)
  | some taken =>
    obtain ⟨kept, last⟩ := taken
    rw [htaken] at houtcome
    simp only [Outcome] at houtcome
    split_ifs at houtcome with hgood
    · refine ⟨fun hclean => ⟨kept, last, rfl, ?_, hgood⟩, ?_⟩
      · exact Nat.add_left_cancel (houtcome.complete.symm.trans hclean.complete)
      · rintro ⟨kept', last', heq, rfl, -⟩
        obtain ⟨rfl, rfl⟩ := Prod.mk.inj (Option.some.inj heq)
        exact houtcome
    · refine iff_of_false (fun hclean => houtcome hclean.toClosedOnce) ?_
      rintro ⟨kept', last', heq, -, hgood'⟩
      obtain ⟨rfl, rfl⟩ := Prod.mk.inj (Option.some.inj heq)
      exact hgood hgood'

end Streams

end Wrkx
