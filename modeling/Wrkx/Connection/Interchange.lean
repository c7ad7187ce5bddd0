import Wrkx.Connection.Reading

/-!
# The same stream over the two backends

A server's stream, cut into reads and followed by an orderly close, is read by
`socket_readable` with `sock_read` and with `ssl_read`. The two part when the stream ends in a
body that only the close delimits: `sock_read` reports the close as `READ_EOF`, and
`http_parser_execute` completes the response before the error exit is taken; `ssl_read` makes
an error of the close, and the response is lost.

## Main results

- `serveEach_close` — up to any other end the two leave the same state
- `backends_agree_iff` — the two agree on a stream unless it ends in such a body
-/

namespace Wrkx

/-! ## Streams -/

/-- `SSL_read` is to be called again. -/
inductive Wait
  | read
  | write

def Wait.error : Wait → SslError
  | .read => .wantRead
  | .write => .wantWrite

/-- A chunk of the stream with what the backends answer on the way: `FIONREAD` after it, how
    often `SSL_read` waits before it, and `SSL_pending` after it. -/
structure Cut where
  chunk : Chunk
  fionread : Option ℕ
  waits : List Wait
  pending : ℕ

def Cut.sslReads (cut : Cut) : List SslRead :=
  cut.waits.map (fun wait => .none wait.error) ++ [.bytes cut.chunk cut.pending]

/-- What `SSL_read` finds of the stream, and how often it waits for the close. -/
def sslStream (cuts : List Cut) (waits : List Wait) : List SslRead :=
  cuts.flatMap Cut.sslReads ++ waits.map (fun wait => .none wait.error) ++ [.none .zeroReturn]

/-- Reading the stream with `sock_read` and `sock_readable`. -/
def servePlain (S : Setting) (reconnect : ConnectInput) (cuts : List Cut) (i : CompleteInput)
    (l : Local) : Local :=
  serve S reconnect
    ((sockStream (cuts.map fun cut => (cut.chunk, cut.fionread)) i).map sockRead) l

/-- Reading the stream with `ssl_read` and `ssl_readable`. -/
def serveTls (S : Setting) (reconnect : ConnectInput) (cuts : List Cut) (waits : List Wait)
    (l : Local) : Local :=
  serve S reconnect ((sslStream cuts waits).map sslRead) l

/-! ## Agreement -/

/-- The status code of a call of `response_complete`. -/
def Obs.completedStatus : Obs → Option ℕ
  | .complete _ _ status => some status
  | _ => none

/-- The calls of `response_complete`, by their status codes. -/
def completedStatuses (history : List Obs) : List ℕ := history.filterMap Obs.completedStatus

/-- The same calls of `response_complete`, and the same counters of the thread. -/
structure Agree (l m : Local) : Prop where
  statuses : completedStatuses l.history = completedStatuses m.history
  complete : l.thread.complete = m.thread.complete
  requests : l.thread.requests = m.thread.requests
  bytes : l.thread.bytes = m.thread.bytes
  errors : l.thread.errors = m.thread.errors

/-- The close finds the parser in a body that nothing else delimits: no response closed the
    connection before, all bytes were accepted, and no latency ended the process. -/
structure EndsAtClose (S : Setting) (chunks : List Chunk) (l : Local) : Prop where
  alive : l.aborted = false
  parser : l.c.parser ≠ .dead
  kept : ∀ chunk ∈ chunks, chunk.Kept
  recordable : Recordable S (streamed chunks) l
  untilEof : (chunks.map Chunk.left).getLastD l.c.parser = .untilEof

section Streams

variable {S : Setting} {l : Local} {reconnect : ConnectInput} {i : CompleteInput}
  {chunk : Chunk} {chunks : List Chunk} {rest : List ReadInput}

/-! ## Reading the streams -/

theorem serveEach_retry :
    serveEach S reconnect (.retry :: rest) l = serveEach S reconnect rest l := by
  cases habort : l.aborted with
  | true => rw [serveEach_of_aborted habort, serveEach_of_aborted habort]
  | false => rw [serveEach_cons habort, socketReadable, if_pos rfl]

theorem serveEach_waits {waits : List Wait} :
    serveEach S reconnect ((waits.map fun wait => sslRead (.none wait.error)) ++ rest) l =
      serveEach S reconnect rest l := by
  induction waits with
  | nil => rfl
  | cons wait waits ih => cases wait <;> exact serveEach_retry.trans ih

theorem servePlain_eq {cuts : List Cut} : servePlain S reconnect cuts i l =
    serveEach S reconnect ((cuts.map Cut.chunk).map (·.round 0) ++ [.eof i]) l := by
  rw [servePlain, serve_eq_serveEach, serveEach_sockStream, List.map_map, List.map_map,
    List.map_map]
  rfl

theorem serveTls_eq {cuts : List Cut} {waits : List Wait} : serveTls S reconnect cuts waits l =
    serveEach S reconnect ((cuts.map Cut.chunk).map (·.round 0) ++ [.error]) l := by
  rw [serveTls, serve_eq_serveEach]
  induction cuts generalizing l with
  | nil =>
    simp only [sslStream, List.flatMap_nil, List.nil_append, List.map_append, List.map_map]
    exact serveEach_waits
  | cons cut cuts ih =>
    have hreads : (sslStream (cut :: cuts) waits).map sslRead =
        (cut.waits.map fun wait => sslRead (.none wait.error)) ++
          cut.chunk.round (sslReadable cut.pending) :: (sslStream cuts waits).map sslRead := by
      simp [sslStream, Cut.sslReads, sslRead]
    rw [hreads, serveEach_waits]
    exact serveEach_chunk fun l => ih

/-! ## The close -/

/-- A round that leaves the connection open had all its responses kept alive. -/
theorem kept_of_round (htcp : (socketReadable S reconnect [chunk.round 0] l).tcp = l.tcp)
    (halive : (socketReadable S reconnect [chunk.round 0] l).aborted = false)
    (hparser : (socketReadable S reconnect [chunk.round 0] l).c.parser ≠ .dead) :
    l.c.parser ≠ .dead ∧ chunk.Kept := by
  rw [socketReadable_chunk] at htcp halive hparser
  split_ifs at htcp halive hparser with habort hparsed
  · simp [habort] at halive
  · -- The error exit opens another TCP connection.
    have hle := le_tcp_httpParserExecute (S := S) (l := l) chunk.callbacks
    rw [readError, (Local.reconnectSocket_connects _ _).tcp_eq] at htcp
    exact absurd (htcp ▸ hle) (Nat.not_succ_le_self _)
  · have hdead : (httpParserExecute S chunk.callbacks l).c.parser ≠ .dead := fun hdead =>
      hparser (by simp [addBytes, leaveParser, hdead])
    obtain ⟨hopen, hkeep⟩ := keepAlive_of_open (by simpa using habort) hdead
    refine ⟨hopen, by simpa using hparsed, fun hleft => hparser ?_, hkeep⟩
    simp [addBytes, leaveParser, hdead, hleft]

theorem EndsAtClose.cons (halive : l.aborted = false)
    (htcp : (socketReadable S reconnect [chunk.round 0] l).tcp = l.tcp)
    (h : EndsAtClose S chunks (socketReadable S reconnect [chunk.round 0] l)) :
    EndsAtClose S (chunk :: chunks) l := by
  obtain ⟨hopen, hkept⟩ := kept_of_round htcp h.alive h.parser
  have hread : ReadTo S l (completions chunk.callbacks)
      (socketReadable S reconnect [chunk.round 0] l) := readTo_round halive hopen hkept
  have huntil := h.untilEof
  rw [parser_round halive hopen hkept h.alive] at huntil
  refine ⟨halive, hopen, ?_, ?_, ?_⟩
  · intro next hnext
    rcases List.mem_cons.mp hnext with rfl | hnext
    · exact hkept
    · exact h.kept next hnext
  · exact ((hread.on h.alive).recordable _).mpr h.recordable
  · rwa [List.map_cons, List.getLastD_cons]

/-- Before any other end the close finds the same connection, or none. -/
theorem serveEach_close (h : ¬ EndsAtClose S chunks l) :
    serveEach S reconnect (chunks.map (·.round 0) ++ [.eof i]) l =
      serveEach S reconnect (chunks.map (·.round 0) ++ [.error]) l := by
  induction chunks generalizing l with
  | nil =>
    cases halive : l.aborted with
    | true => rw [serveEach_of_aborted halive, serveEach_of_aborted halive]
    | false =>
      have hparser : l.c.parser ≠ .untilEof := fun hparser =>
        h ⟨halive, by simp [hparser], by simp, by simp [streamed], hparser⟩
      have hclose : socketReadable S reconnect [.eof i] l =
          socketReadable S reconnect [.error] l := by
        simp [socketReadable, executeEof, hparser, halive]
      simp only [List.map_nil, List.nil_append]
      rw [serveEach_cons halive, serveEach_cons halive, hclose]
  | cons chunk chunks ih =>
    simp only [List.map_cons, List.cons_append]
    cases halive : l.aborted with
    | true => rw [serveEach_of_aborted halive, serveEach_of_aborted halive]
    | false =>
      rw [serveEach_cons halive, serveEach_cons halive]
      by_cases htcp : (socketReadable S reconnect [chunk.round 0] l).tcp = l.tcp
      · rw [if_pos htcp, if_pos htcp, ih fun hnext => h (hnext.cons halive htcp)]
      · rw [if_neg htcp, if_neg htcp]

/-! ## A body that the close delimits -/

theorem length_completedStatuses_le {h h' : List Obs} (hsuffix : h <:+ h') :
    (completedStatuses h).length ≤ (completedStatuses h').length :=
  (hsuffix.filterMap Obs.completedStatus).length_le

theorem suffix_readError {reconnect : ConnectInput} :
    l.history <:+ (readError reconnect l).history :=
  Local.suffix_reconnectSocket (l := l.setErrors _)

theorem completedStatuses_readError :
    completedStatuses (readError reconnect l).history = completedStatuses l.history := by
  obtain ⟨ok, hhistory⟩ := (Local.reconnectSocket_connects reconnect
    (l.setErrors fun e => { e with read := e.read.add 1 })).history_eq
  rw [readError, hhistory]
  rfl

theorem suffix_responseComplete :
    (respond S i l).history <:+ (responseComplete S i l).history := by
  rw [responseComplete_eq]
  split_ifs
  · exact List.suffix_rfl
  · exact List.suffix_rfl
  · exact Local.suffix_reconnectSocket
  · exact List.suffix_rfl

/-- `sock_read` lets the parser complete the response at the close. -/
theorem lt_completedStatuses_eof (S : Setting) (reconnect : ConnectInput) (i : CompleteInput)
    (hparser : l.c.parser = .untilEof) :
    (completedStatuses l.history).length <
      (completedStatuses (socketReadable S reconnect [.eof i] l).history).length := by
  have hcomplete : (completedStatuses l.history).length <
      (completedStatuses (executeEof S i l).history).length := by
    rw [executeEof, if_pos hparser]
    refine lt_of_lt_of_le ?_ (length_completedStatuses_le
      ((suffix_received S { i with keepAlive := false } l).trans suffix_responseComplete))
    exact Nat.lt_succ_self _
  simp only [socketReadable]
  split_ifs
  · exact hcomplete
  · exact hcomplete.trans_le (length_completedStatuses_le suffix_readError)

/-- The two backends agree on a stream unless it ends in a body that only the close delimits,
    and the close finds its connection open. -/
theorem backends_agree_iff (S : Setting) (reconnect : ConnectInput) (cuts : List Cut)
    (waits : List Wait) (i : CompleteInput) (l : Local) :
    Agree (servePlain S reconnect cuts i l) (serveTls S reconnect cuts waits l) ↔
      ¬ EndsAtClose S (cuts.map Cut.chunk) l := by
  rw [servePlain_eq, serveTls_eq]
  refine ⟨fun hagree hends => ?_, fun hends => ?_⟩
  · obtain ⟨m, hread, hm, hrest⟩ := serveEach_kept S reconnect hends.alive hends.parser
      hends.kept
    have halive : m.aborted = false := hread.aborted_iff.mpr hends.recordable
    have huntil : m.c.parser = .untilEof := (hm halive).trans hends.untilEof
    have hstatuses := hagree.statuses
    have hlt := lt_completedStatuses_eof S reconnect i huntil
    rw [hrest, hrest, serveEach_singleton halive, serveEach_singleton halive] at hstatuses
    rw [hstatuses, socketReadable, completedStatuses_readError] at hlt
    exact absurd hlt (lt_irrefl _)
  · rw [serveEach_close hends]
    exact ⟨rfl, rfl, rfl, rfl, rfl⟩

end Streams

/-- The stream whose only bytes these are. -/
def Example.headAndBytes : Cut where
  chunk := untilClose
  fionread := some 0
  waits := []
  pending := 0

/-- A response that the close delimits is counted on the plain connection and lost on the TLS
    connection. -/
theorem close_delimited_differs : ∃ l : Local, Example.asked = some l ∧
    (servePlain (Example.setting 1 false) (Example.connects 5) [Example.headAndBytes] Example.close
      l).thread.complete = 1 ∧
    (serveTls (Example.setting 1 false) (Example.connects 5) [Example.headAndBytes] []
      l).thread.complete = 0 ∧
    ¬ Agree (servePlain (Example.setting 1 false) (Example.connects 5) [Example.headAndBytes]
        Example.close l)
      (serveTls (Example.setting 1 false) (Example.connects 5) [Example.headAndBytes] [] l) := by
  have hrun : ∃ l : Local, Example.asked = some l ∧
      (serveEach (Example.setting 1 false) (Example.connects 5)
        [Example.untilClose.round 0, .eof Example.close] l).thread.complete = 1 ∧
      (serveEach (Example.setting 1 false) (Example.connects 5)
        [Example.untilClose.round 0, .error] l).thread.complete = 0 :=
    exists_of_any (by decide +kernel)
  obtain ⟨l, hl, hplain, htls⟩ := hrun
  refine ⟨l, hl, ?_, ?_, fun hagree => ?_⟩
  · rw [servePlain_eq]
    exact hplain
  · rw [serveTls_eq]
    exact htls
  · have hcomplete := hagree.complete
    rw [servePlain_eq, serveTls_eq] at hcomplete
    exact absurd (hplain.symm.trans (hcomplete.trans htls)) (by decide)

end Wrkx
