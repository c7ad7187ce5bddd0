import Wrkx.Connection.Errors

/-!
# The two backends of `socket_readable`

`sock_read` and `sock_readable` of `net.c`, `ssl_read` and `ssl_readable` of `ssl.c`, and the
calls of `socket_readable` in which a TCP connection is read to its end.

## Main results

- `serve_eq_serveEach` — which reads share a call of `socket_readable` makes no difference
-/

namespace Wrkx

/-! ## Reads -/

/-- Bytes in the buffer of the connection: how many, and what `http_parser_execute` makes of
    them. -/
structure Chunk where
  n : ℕ
  callbacks : List Callback
  left : ParserState
  parsed : Bool

/-- The round of `socket_readable` on these bytes, if `sock.readable` then answers `readable`. -/
def Chunk.round (chunk : Chunk) (readable : ℕ) : ReadInput :=
  .ok chunk.n chunk.callbacks chunk.left chunk.parsed (decide (0 < readable))

/-- What `read` made of the descriptor, and `ioctl` with `FIONREAD` after it (`none` for `-1`).
    With the end of the stream comes the response it may complete. -/
inductive SockRead
  | bytes (chunk : Chunk) (fionread : Option ℕ)
  | zero (i : CompleteInput)
  | minusOne

/-- `sock_readable`. -/
def sockReadable (fionread : Option ℕ) : ℕ := fionread.getD 0

/-- `sock_read`. -/
def sockRead : SockRead → ReadInput
  | .bytes chunk fionread => chunk.round (sockReadable fionread)
  | .zero i => .eof i
  | .minusOne => .error

/-- What `read` finds of a stream that is cut into these chunks and ends with an orderly close. -/
def sockStream (reads : List (Chunk × Option ℕ)) (i : CompleteInput) : List SockRead :=
  reads.map (fun (chunk, fionread) => .bytes chunk fionread) ++ [.zero i]

/-- What `SSL_get_error` says of an `SSL_read` that returned no bytes. -/
inductive SslError
  | wantRead
  | wantWrite
  | zeroReturn
  | other

/-- What `SSL_read` returned, with `SSL_pending` after bytes. -/
inductive SslRead
  | bytes (chunk : Chunk) (pending : ℕ)
  | none (error : SslError)

/-- `ssl_readable`. -/
def sslReadable (pending : ℕ) : ℕ := pending

/-- `ssl_read`. -/
def sslRead : SslRead → ReadInput
  | .bytes chunk pending => chunk.round (sslReadable pending)
  | .none .wantRead => .retry
  | .none .wantWrite => .retry
  | .none _ => .error

/-! ## Calls -/

/-- The rounds of the next call of `socket_readable`. It reads on after a full buffer while
    `sock.readable` answers more, and on a TCP connection that a callback has just opened it
    answers nothing. -/
def rounds (S : Setting) : List ReadInput → Local → List ReadInput
  | .ok n callbacks left parsed more :: rest, l =>
    let executed := httpParserExecute S callbacks l
    let more := more && decide (executed.tcp = l.tcp)
    let round := .ok n callbacks left parsed more
    if executed.aborted = false ∧ parsed = true ∧ n = recvbuf ∧ more = true then
      round :: rounds S rest (addBytes n (leaveParser left executed))
    else
      [round]
  | reads, _ => reads.take 1

theorem rounds_length_pos (S : Setting) (read : ReadInput) (rest : List ReadInput) (l : Local) :
    0 < (rounds S (read :: rest) l).length := by
  cases read with
  | ok n callbacks left parsed more =>
    rw [rounds]
    split_ifs <;> simp
  | eof | error | retry => simp [rounds]

/-- The calls of `socket_readable` on what the TCP connection of `l` delivers: the event loop
    makes them until there is nothing left, the process is aborted, or the TCP connection was
    given up. -/
def serve (S : Setting) (reconnect : ConnectInput) (reads : List ReadInput) (l : Local) : Local :=
  match reads with
  | [] => l
  | read :: rest =>
    if l.aborted then
      l
    else
      let called := rounds S (read :: rest) l
      let l' := socketReadable S reconnect called l
      if l'.tcp = l.tcp then serve S reconnect ((read :: rest).drop called.length) l' else l'
termination_by reads.length
decreasing_by
  have hpos := rounds_length_pos S read rest l
  simp only [List.length_drop, List.length_cons]
  omega

/-- The same with a call for each read. -/
def serveEach (S : Setting) (reconnect : ConnectInput) : List ReadInput → Local → Local
  | [], l => l
  | read :: rest, l =>
    if l.aborted then
      l
    else
      let l' := socketReadable S reconnect [read] l
      if l'.tcp = l.tcp then serveEach S reconnect rest l' else l'

section Serve

variable {S : Setting} {l : Local} {reconnect : ConnectInput} {reads rest : List ReadInput}

@[simp]
theorem serveEach_of_aborted (habort : l.aborted = true) : serveEach S reconnect reads l = l := by
  cases reads with
  | nil => rfl
  | cons read rest => rw [serveEach, if_pos habort]

theorem serveEach_cons {read : ReadInput} (habort : l.aborted = false) :
    serveEach S reconnect (read :: rest) l =
      if (socketReadable S reconnect [read] l).tcp = l.tcp then
        serveEach S reconnect rest (socketReadable S reconnect [read] l)
      else
        socketReadable S reconnect [read] l := by
  rw [serveEach, if_neg (by simp [habort])]

theorem serveEach_singleton {read : ReadInput} (habort : l.aborted = false) :
    serveEach S reconnect [read] l = socketReadable S reconnect [read] l := by
  rw [serveEach_cons habort]
  split_ifs <;> rfl

/-- The answer of `sock.readable` does not matter to the round itself. -/
theorem socketReadable_round {n : ℕ} {callbacks : List Callback} {left : ParserState}
    {parsed more more' : Bool} :
    socketReadable S reconnect [.ok n callbacks left parsed more] l =
      socketReadable S reconnect [.ok n callbacks left parsed more'] l := by
  simp [socketReadable]

/-- So it does not matter to what follows. -/
theorem serveEach_chunk {chunk : Chunk} {readable : ℕ}
    {next next' : List ReadInput}
    (h : ∀ l, serveEach S reconnect next l = serveEach S reconnect next' l) :
    serveEach S reconnect (chunk.round readable :: next) l =
      serveEach S reconnect (chunk.round 0 :: next') l := by
  cases habort : l.aborted with
  | true => rw [serveEach_of_aborted habort, serveEach_of_aborted habort]
  | false =>
    have hround : socketReadable S reconnect [chunk.round readable] l =
        socketReadable S reconnect [chunk.round 0] l := socketReadable_round
    rw [serveEach_cons habort, serveEach_cons habort, hround, h]

theorem serveEach_sockStream {stream : List (Chunk × Option ℕ)} {i : CompleteInput} :
    serveEach S reconnect ((sockStream stream i).map sockRead) l =
      serveEach S reconnect ((stream.map Prod.fst).map (·.round 0) ++ [.eof i]) l := by
  induction stream generalizing l with
  | nil => rfl
  | cons read stream ih => exact serveEach_chunk fun l => ih

/-- A call ends with its first read, or reads on with the state that read leaves. -/
theorem rounds_cases (S : Setting) (reconnect : ConnectInput) (read : ReadInput)
    (rest : List ReadInput) (l : Local) :
    (∃ round, rounds S (read :: rest) l = [round] ∧
      socketReadable S reconnect [round] l = socketReadable S reconnect [read] l) ∨
    ∃ round l', rounds S (read :: rest) l = round :: rounds S rest l' ∧
      socketReadable S reconnect [read] l = l' ∧ l'.aborted = false ∧ l'.tcp = l.tcp ∧
      ∀ called, socketReadable S reconnect (round :: called) l =
        socketReadable S reconnect called l' := by
  cases read with
  | ok n callbacks left parsed more =>
    rw [rounds]
    split_ifs with hgo
    · obtain ⟨hexecuted, hparsed, hn, hmore⟩ := hgo
      refine .inr ⟨_, _, rfl, ?_, hexecuted, ?_, fun called => ?_⟩
      · simp [socketReadable, hexecuted, hparsed]
      · simp only [Bool.and_eq_true, decide_eq_true_eq] at hmore
        exact hmore.2
      · rw [socketReadable, if_neg (by simp [hexecuted]), if_neg (by simp [hparsed]),
          if_pos ⟨hn, hmore⟩]
    · exact .inl ⟨_, rfl, socketReadable_round⟩
  | eof | error | retry => exact .inl ⟨_, rfl, rfl⟩

/-- One call and what follows it. -/
theorem serveEach_of_call (S : Setting) (reconnect : ConnectInput) (reads : List ReadInput)
    (habort : l.aborted = false) :
    (let l' := socketReadable S reconnect (rounds S reads l) l
     if l'.tcp = l.tcp then serveEach S reconnect (reads.drop (rounds S reads l).length) l'
     else l') = serveEach S reconnect reads l := by
  induction reads generalizing l with
  | nil => simp [rounds, socketReadable, serveEach]
  | cons read rest ih =>
    rw [serveEach_cons habort]
    rcases rounds_cases S reconnect read rest l with
      ⟨round, hrounds, hsame⟩ | ⟨round, l', hrounds, hread, habort', htcp, hnext⟩
    · rw [hrounds, hsame]
      rfl
    · rw [hrounds, hnext, hread, if_pos htcp, ← ih habort', htcp]
      rfl

/-- Which reads share a call of `socket_readable` makes no difference. -/
theorem serve_eq_serveEach : serve S reconnect reads l = serveEach S reconnect reads l := by
  induction reads, l using serve.induct S reconnect with
  | case1 l => rw [serve, serveEach]
  | case2 l read rest habort => rw [serve, if_pos habort, serveEach_of_aborted habort]
  | case3 l read rest habort called l' htcp ih =>
    have hcall := serveEach_of_call S reconnect (read :: rest) (by simpa using habort)
    rw [serve, if_neg habort, ← hcall]
    simp only
    rw [if_pos htcp, if_pos htcp]
    exact ih
  | case4 l read rest habort called l' htcp =>
    have hcall := serveEach_of_call S reconnect (read :: rest) (by simpa using habort)
    rw [serve, if_neg habort, ← hcall]
    simp only
    rw [if_neg htcp, if_neg htcp]

end Serve

/-- An open connection that has sent its first request and waits for the response. -/
def Example.asked : Option Local :=
  (start [71, 69, 84] 10000).run (setting 1 false)
    [connect 10 3, opens 3, write 3 20 [] (.ok 3)]

/-- The bytes of a response without a length: its body goes on until the close. -/
def Example.untilClose : Chunk where
  n := 60
  callbacks := [.body [104, 105]]
  left := .untilEof
  parsed := true

/-- The end of a response that closes the connection. -/
def Example.close : CompleteInput where
  now := 50
  status := 200
  keepAlive := false
  reconnect := connects 4

end Wrkx
