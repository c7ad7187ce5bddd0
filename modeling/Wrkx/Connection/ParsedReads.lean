import Wrkx.Connection.Callbacks
import Wrkx.Connection.CleanClose

/-!
# Streams of bytes

What `http_parser_execute` makes of the reads of a connection: the callbacks of each read, the
state in which it leaves the parser, and whether its length is returned. A server that sends
complete responses and closes the connection is met with these.

## Main results

- `parseReads_livesOn` — the parser goes on up to a response that closes the connection
- `clean_close_iff` — which streams are counted without an error and with one reconnect
-/

namespace Wrkx

/-! ## The callbacks of the reads -/

section Settings

variable (stopAt : ℕ) (now : ℕ → Micros) (reconnect : ℕ → ConnectInput)

/-- The parser after a response, as `response_complete` leaves it: it goes on with a new one, except
    past its early exits. -/
def restarted (n : ℕ) (parser : HttpParser) : HttpParser :=
  if now n < stopAt ∧ parser.shouldKeepAlive then .init .response else parser

/-- The callbacks of a connection, which are noted as they are made. The clock and the reconnections
    are asked for at the end of each response. -/
def noteCallbacks : HttpParserSettings (List Callback) where
  maxHeaderSize := httpMaxHeaderSize
  onHeaderField piece log := log ++ [.headerField piece]
  onHeaderValue piece log := log ++ [.headerValue piece]
  onBody piece log := log ++ [.body piece]
  onMessageComplete parser log :=
    (restarted stopAt now (completions log).length parser,
      log ++ [.messageComplete (completeInput now reconnect parser (completions log).length)])

/-- The same, with the ends of the responses only. -/
def noteCompletions : HttpParserSettings (List CompleteInput) where
  maxHeaderSize := httpMaxHeaderSize
  onHeaderField _ is := is
  onHeaderValue _ is := is
  onBody _ is := is
  onMessageComplete parser is :=
    (restarted stopAt now is.length parser, is ++ [completeInput now reconnect parser is.length])

/-- The reads of a connection, with what `FIONREAD` answers after each, as `http_parser_execute`
    takes them from a parser and the callbacks so far. -/
def parseReads : HttpParser → List Callback → List (Bytes × Option ℕ) → List (Chunk × Option ℕ)
  | _, _, [] => []
  | parser, log, (data, fionread) :: reads =>
    let r := parser.execute (noteCallbacks stopAt now reconnect) data log
    ({ n := data.length, callbacks := r.user.drop log.length,
       left := r.parser.state.parserState, parsed := r.parsed = data.length }, fionread) ::
      parseReads r.parser r.user reads

end Settings

variable {stopAt : ℕ} {now : ℕ → Micros} {reconnect : ℕ → ConnectInput} {parser : HttpParser}
  {old log : List Callback} {is kept : List CompleteInput} {last : CompleteInput}
  {reads : List (Bytes × Option ℕ)} {data : Bytes} {fionread : Option ℕ} {phase : Phase}
  {r : HttpResponse}

theorem restarted_cases (n : ℕ) (parser : HttpParser) : restarted stopAt now n parser = parser ∨
    parser.shouldKeepAlive = true ∧ restarted stopAt now n parser = .init .response := by
  unfold restarted
  split_ifs with hgoes
  · exact .inr ⟨hgoes.2, rfl⟩
  · exact .inl rfl

theorem restarted_restarts (n : ℕ) (parser : HttpParser) :
    restarted stopAt now n parser = parser ∨ ∃ t, restarted stopAt now n parser = .init t :=
  (restarted_cases n parser).imp_right fun h => ⟨_, h.2⟩

theorem noteCallbacks_restarts : (noteCallbacks stopAt now reconnect).Restarts where
  complete parser _ := restarted_restarts _ parser

theorem noteCompletions_regular : (noteCompletions stopAt now reconnect).Regular where
  complete parser _ := restarted_restarts _ parser
  blind parser is := by
    have hkeep : (parser.withNread 0).shouldKeepAlive = parser.shouldKeepAlive := rfl
    simp only [noteCompletions, restarted, hkeep]
    split_ifs <;> rfl
  field _ _ _ := rfl
  value _ _ _ := rfl
  body _ _ _ := rfl

theorem noteCompletions_answers : (noteCompletions stopAt now reconnect).Answers
    fun status keepAlive is =>
      is ++ [⟨now is.length, status, keepAlive, reconnect is.length⟩] where
  parser parser _ := restarted_cases _ parser
  user _ _ := rfl

/-- What is noted in the two ways. After the last message a response has closed the connection. -/
structure NotedFrom (old : List Callback) (phase : Phase) (log : List Callback)
    (is : List CompleteInput) : Prop where
  old : old <+: log
  completions : completions log = is
  closed : phase = .over → ∃ i ∈ is, i.keepAlive = false

theorem NotedFrom.piece {callback : Callback} {phase' : Phase} (h : NotedFrom old phase log is)
    (hcallback : callback.completes = none) (hphase : phase' ≠ .over) :
    NotedFrom old phase' (log ++ [callback]) is where
  old := h.old.trans (List.prefix_append _ _)
  completions := by
    rw [completions_append, h.completions]
    simp [Wrkx.completions, hcallback]
  closed hover := absurd hover hphase

theorem mirrors_noteCallbacks (old : List Callback) :
    (noteCallbacks stopAt now reconnect).Mirrors (noteCompletions stopAt now reconnect)
      (NotedFrom old) where
  maxHeaderSize := rfl
  field piece log is := by
    rintro (hl | hl) <;> exact hl.piece rfl nofun
  value piece log is := by
    rintro (hl | hl) <;> exact hl.piece rfl nofun
  valued log is hl := ⟨hl.old, hl.completions, nofun⟩
  body piece log is hl := hl.piece rfl nofun
  complete parser log is hdead hl := by
    have hlength : (completions log).length = is.length := congrArg List.length hl.completions
    simp only [noteCallbacks, noteCompletions, hlength, true_and]
    refine ⟨hl.old.trans (List.prefix_append _ _), ?_, fun hover => ?_⟩
    · rw [completions_append, hl.completions]
      rfl
    -- a parser that starts again is not dead
    have hstate : (restarted stopAt now is.length parser).state = .dead := by
      by_contra hnot
      rw [if_neg hnot] at hover
      cases hover
    rcases restarted_cases is.length parser with hsame | ⟨-, hinit⟩
    · rw [hsame] at hstate
      exact ⟨completeInput now reconnect parser is.length, by simp, hdead hstate⟩
    · rw [hinit] at hstate
      cases hstate

/-! ## The chunks of the reads -/

theorem State.Tells.mono {s : State} {I J : Phase → Prop} (h : s.Tells I)
    (himp : ∀ phase, I phase → J phase) : s.Tells J := by
  cases s
  case headerField | headerValueStart | headerValue => exact h.imp (himp _) (himp _)
  all_goals exact himp _ h

theorem parserState_dead {s : State} : s.parserState = .dead ↔ s = .dead := by
  cases s <;> simp [State.parserState]

/-- What is known of a parser between two reads, and of what is noted. -/
structure Noting (parser : HttpParser) (log : List Callback) (is : List CompleteInput) : Prop where
  rests : parser.Rests
  completions : completions log = is
  tells : parser.httpErrno = .ok → parser.state.Tells fun phase => NotedFrom log phase log is

theorem noting_init : Noting (.init .response) [] [] where
  rests := rests_init .response
  completions := rfl
  tells _ := ⟨List.prefix_rfl, rfl, nofun⟩

theorem Noting.notedFrom (h : Noting parser log is) : NotedFrom log .outside log is :=
  ⟨List.prefix_rfl, h.completions, nofun⟩

/-- A parser that is dead has seen a response that closes the connection. -/
theorem Noting.closed (h : Noting parser log is) (hok : parser.httpErrno = .ok)
    (hdead : parser.state = .dead) : ∃ i ∈ is, i.keepAlive = false := by
  have htells := h.tells hok
  rw [hdead] at htells
  exact htells.closed rfl

section Execute

variable (stopAt) (now) (reconnect)

/-- One read, in the two ways of noting. -/
theorem Noting.mirrors (h : Noting parser log is) (data : Bytes) :
    (parser.execute (noteCallbacks stopAt now reconnect) data log).Mirrors (NotedFrom log)
      (parser.execute (noteCompletions stopAt now reconnect) data is) :=
  execute_mirrors noteCallbacks_restarts (mirrors_noteCallbacks log) data h.rests
    ⟨_, h.notedFrom⟩ h.tells

theorem Noting.execute (h : Noting parser log is) (data : Bytes) :
    Noting (parser.execute (noteCallbacks stopAt now reconnect) data log).parser
      (parser.execute (noteCallbacks stopAt now reconnect) data log).user
      (parser.execute (noteCompletions stopAt now reconnect) data is).user := by
  have hmirrors := h.mirrors stopAt now reconnect data
  obtain ⟨phase, hphase⟩ := hmirrors.related
  refine ⟨execute_rests noteCallbacks_restarts data log h.rests, hphase.completions, fun hok => ?_⟩
  exact (hmirrors.tells hok).mono fun phase hphase =>
    ⟨List.prefix_rfl, hphase.completions, hphase.closed⟩

/-- The responses that a read completes. -/
theorem Noting.completed (h : Noting parser log is) (data : Bytes) :
    is ++ Wrkx.completions ((parser.execute (noteCallbacks stopAt now reconnect) data log).user.drop
        log.length) =
      (parser.execute (noteCompletions stopAt now reconnect) data is).user := by
  obtain ⟨phase, hphase⟩ := (h.mirrors stopAt now reconnect data).related
  obtain ⟨added, hadded⟩ := hphase.old
  rw [← hphase.completions, ← hadded, List.drop_left, completions_append, h.completions]

end Execute

/-- A parser that has failed accepts nothing more. -/
theorem takenApart_of_errno (herrno : parser.httpErrno ≠ .ok)
    (hreads : ∀ read ∈ reads, read.1 ≠ []) :
    takenApart ((parseReads stopAt now reconnect parser log reads).map Prod.fst) = none := by
  cases reads with
  | nil => rfl
  | cons read reads =>
    obtain ⟨data, fionread⟩ := read
    have hdata : data ≠ [] := hreads _ List.mem_cons_self
    have hfirst : parser.execute (noteCallbacks stopAt now reconnect) data log =
        ⟨0, parser, log, false⟩ := if_pos herrno
    have hzero : ¬(0 : ℤ) = data.length := fun h =>
      hdata (List.length_eq_zero_iff.mp (Int.natCast_eq_zero.mp h.symm))
    rw [parseReads, hfirst, List.map_cons, takenApart, if_neg]
    simpa using hzero

/-- The parser goes on up to a response that closes the connection. -/
theorem parseReads_livesOn (h : Noting parser log is) (hkeep : ∀ i ∈ is, i.keepAlive = true)
    (hreads : ∀ read ∈ reads, read.1 ≠ []) :
    LivesOn ((parseReads stopAt now reconnect parser log reads).map Prod.fst) := by
  induction reads generalizing parser log is with
  | nil => trivial
  | cons read reads ih =>
    obtain ⟨data, fionread⟩ := read
    have hnext := h.execute stopAt now reconnect data
    have hcompleted := h.completed stopAt now reconnect data
    have hrest : ∀ read ∈ reads, read.1 ≠ [] := fun read hread =>
      hreads read (List.mem_cons_of_mem _ hread)
    rw [parseReads, List.map_cons]
    intro _ hfirst
    have hkept := firstClose_eq_none.mp hfirst
    have hall : ∀ i ∈ (parser.execute (noteCompletions stopAt now reconnect) data is).user,
        i.keepAlive = true := by
      rw [← hcompleted]
      exact fun i hi => (List.mem_append.mp hi).elim (hkeep i) (hkept i)
    refine ⟨fun hleft => ?_, ih hnext hall hrest⟩
    refine takenApart_of_errno (fun hok => ?_) hrest
    obtain ⟨i, hi, hclose⟩ := hnext.closed hok (parserState_dead.mp hleft)
    exact absurd (hall i hi) (by simp [hclose])

/-! ## Streams of responses -/

theorem firstClose_append (is js : List CompleteInput) : firstClose (is ++ js) =
    match firstClose is with
    | some taken => some taken
    | none => (firstClose js).map fun (kept, last) => (is ++ kept, last) := by
  induction is with
  | nil => cases hjs : firstClose js <;> simp [firstClose, hjs]
  | cons i is ih =>
    rw [List.cons_append, firstClose, firstClose, ih]
    split_ifs
    · cases firstClose is with
      | none => cases firstClose js <;> rfl
      | some taken => rfl
    · rfl

theorem takenApart_of_parsed {chunks : List Chunk}
    (hparsed : ∀ chunk ∈ chunks, chunk.parsed = true) :
    takenApart chunks = firstClose (streamed chunks) := by
  induction chunks with
  | nil => rfl
  | cons chunk chunks ih =>
    have hrest := ih fun next hnext => hparsed next (List.mem_cons_of_mem _ hnext)
    rw [takenApart, if_pos (hparsed chunk List.mem_cons_self), streamed, List.flatMap_cons,
      firstClose_append, hrest]
    rfl

/-- Reads without an error and without an upgrade. -/
theorem parseReads_parsed (h : Noting parser log is)
    (hok : (parser.executeUntil (noteCompletions stopAt now reconnect) (reads.map Prod.fst)
      is).parser.httpErrno = .ok)
    (hupgrade : (parser.executeUntil (noteCompletions stopAt now reconnect) (reads.map Prod.fst)
      is).upgrade = false) :
    (∀ chunk ∈ (parseReads stopAt now reconnect parser log reads).map Prod.fst,
        chunk.parsed = true) ∧
      is ++ streamed ((parseReads stopAt now reconnect parser log reads).map Prod.fst) =
        (parser.executeUntil (noteCompletions stopAt now reconnect) (reads.map Prod.fst)
          is).user := by
  induction reads generalizing parser log is with
  | nil => exact ⟨by simp [parseReads], List.append_nil is⟩
  | cons read reads ih =>
    obtain ⟨data, fionread⟩ := read
    have hmirrors := h.mirrors stopAt now reconnect data
    have hnext := h.execute stopAt now reconnect data
    have hcompleted := h.completed stopAt now reconnect data
    have hwhole : (parser.execute (noteCompletions stopAt now reconnect) data is).parser.httpErrno =
        .ok → (parser.execute (noteCompletions stopAt now reconnect) data is).upgrade = false →
        (parser.execute (noteCompletions stopAt now reconnect) data is).parsed = data.length :=
      execute_whole data
    rw [List.map_cons, HttpParser.executeUntil] at hok hupgrade ⊢
    rw [parseReads, List.map_cons]
    generalize parser.execute (noteCallbacks stopAt now reconnect) data log = r at *
    generalize parser.execute (noteCompletions stopAt now reconnect) data is = r' at *
    by_cases hgoes : r'.parser.httpErrno = .ok ∧ r'.upgrade = false
    · rw [Executed.andThen_of_ok hgoes, ← hmirrors.parser] at hok hupgrade ⊢
      obtain ⟨hparsed, hstreamed⟩ := ih hnext hok hupgrade
      have hlength : r.parsed = data.length := hmirrors.parsed.trans (hwhole hgoes.1 hgoes.2)
      refine ⟨List.forall_mem_cons.mpr ⟨by simp [hlength], hparsed⟩, ?_⟩
      rw [streamed, List.flatMap_cons, ← List.append_assoc, hcompleted]
      exact hstreamed
    · rw [Executed.andThen_of_not hgoes] at hok hupgrade
      exact absurd ⟨hok, hupgrade⟩ hgoes

theorem told_noteCompletions (lines : List HeaderLine) (is : List CompleteInput) :
    HeaderLine.told (noteCompletions stopAt now reconnect) lines is = is := by
  induction lines with
  | nil => rfl
  | cons line lines ih => exact ih

theorem toldBody_noteCompletions (r : HttpResponse) (is : List CompleteInput) :
    r.toldBody (noteCompletions stopAt now reconnect) is = is := by
  have hbody : bodyTold (noteCompletions stopAt now reconnect) r.body.data is = is := by
    unfold bodyTold
    split_ifs <;> rfl
  rw [HttpResponse.toldBody, told_noteCompletions, told_noteCompletions, hbody]

/-- What is noted of some responses. -/
def noted (now : ℕ → Micros) (reconnect : ℕ → ConnectInput) (responses : List HttpResponse)
    (is : List CompleteInput) : List CompleteInput :=
  responses.foldl (fun is r => is ++ [⟨now is.length, r.statusCode, r.keepAlive,
    reconnect is.length⟩]) is

theorem noted_eq (responses : List HttpResponse) (is : List CompleteInput) :
    responses.foldl (fun is r => r.told (noteCompletions stopAt now reconnect)
      (fun status keepAlive is => is ++ [⟨now is.length, status, keepAlive, reconnect is.length⟩])
      is) is = noted now reconnect responses is := by
  unfold noted
  refine congrArg (fun f => responses.foldl f is) (funext fun is => funext fun r => ?_)
  rw [HttpResponse.told, toldBody_noteCompletions]

theorem noted_keepAlive (responses : List HttpResponse) (is : List CompleteInput) :
    (noted now reconnect responses is).map CompleteInput.keepAlive =
      is.map CompleteInput.keepAlive ++ responses.map HttpResponse.keepAlive := by
  induction responses generalizing is with
  | nil => simp [noted]
  | cons r responses ih =>
    rw [noted, List.foldl_cons, ← noted, ih]
    simp

theorem noted_length (responses : List HttpResponse) :
    (noted now reconnect responses []).length = responses.length := by
  simpa using congrArg List.length (noted_keepAlive responses [])

/-- A read of the connection fits. -/
theorem noteCompletions_fits {length : ℕ} (h : length ≤ recvbuf) :
    (noteCompletions stopAt now reconnect).Fits length := recorder_fits h

/-- The responses of a stream that has an end of its own are taken apart, and no others, unless the
    limit on the headers is exceeded. -/
theorem takenApart_stream {kept : List HttpResponse} {last : HttpResponse}
    (hkept : ∀ r ∈ kept, r.WellFormed ∧ r.keepAlive = true) (hlast : last.WellFormed)
    (hclose : last.keepAlive = false)
    (hreads : ∀ read ∈ reads, read.1 ≠ [] ∧ read.1.length ≤ recvbuf)
    (hbytes : (reads.map Prod.fst).flatten = (kept ++ [last]).flatMap HttpResponse.text) :
    ((HttpParser.init .response).executeAll (noteCallbacks stopAt now reconnect)
        (reads.map Prod.fst) []).Overflows (noteCallbacks stopAt now reconnect) ∨
      (∀ data, last.body = .untilEof data → takenApart
        ((parseReads stopAt now reconnect (.init .response) [] reads).map Prod.fst) = none) ∧
      ((∀ data, last.body ≠ .untilEof data) → takenApart
        ((parseReads stopAt now reconnect (.init .response) [] reads).map Prod.fst) =
          some (noted now reconnect kept [],
            ⟨now kept.length, last.statusCode, false, reconnect kept.length⟩)) := by
  have htakes : Takes (noteCompletions stopAt now reconnect) _
      (At (HttpParser.init .response).head .startRes []) _ :=
    takes_stream noteCompletions_regular noteCompletions_answers hkept hlast
  have hfits : ∀ data ∈ reads.map Prod.fst,
      data ≠ [] ∧ (noteCompletions stopAt now reconnect).Fits data.length := by
    intro data hdata
    obtain ⟨read, hread, rfl⟩ := List.mem_map.mp hdata
    exact ⟨(hreads read hread).1, noteCompletions_fits (hreads read hread).2⟩
  have hcut := htakes.reads noteCompletions_regular ((rests_init .response).valid rfl)
    ⟨⟨rfl, rfl, rfl, rfl⟩, rfl⟩ hfits hbytes
  rcases hcut with hover | ⟨final, is, hfinal, hend, halike⟩
  · -- the limit is exceeded in the same way where all callbacks are noted
    have hmirrors : ((HttpParser.init .response).executeAll (noteCallbacks stopAt now reconnect)
        (reads.map Prod.fst) []).Mirrors (NotedFrom []) ((HttpParser.init .response).executeAll
          (noteCompletions stopAt now reconnect) (reads.map Prod.fst) []) :=
      executeAll_mirrors noteCallbacks_restarts (mirrors_noteCallbacks []) (reads.map Prod.fst)
        (rests_init .response) ⟨_, noting_init.notedFrom⟩ noting_init.tells
    rw [← executeAll_eq _ hover.upgrade] at hover
    exact .inl ⟨hover.limit, hmirrors.parser ▸ hover.errno, hmirrors.upgrade.trans hover.upgrade⟩
  have hok := halike.parser.httpErrno.symm.trans hfinal.ok
  obtain ⟨hparsed, hstreamed⟩ := parseReads_parsed noting_init hok halike.upgrade
  have huser := halike.user hok
  dsimp only at huser
  have hkeep : ∀ i ∈ noted now reconnect kept [], i.keepAlive = true := by
    have hflags : ∀ flag ∈ (noted now reconnect kept []).map CompleteInput.keepAlive,
        flag = true := by
      rw [noted_keepAlive]
      simpa using fun r hr => (hkept r hr).2
    exact fun i hi => hflags _ (List.mem_map_of_mem hi)
  rw [takenApart_of_parsed hparsed, ← List.nil_append (streamed _), hstreamed, huser]
  rw [noted_eq] at hend
  refine .inr ⟨fun data hbody => ?_, fun hbody => ?_⟩
  · rw [user_of_untilEof hbody hend, toldBody_noteCompletions]
    exact firstClose_eq_none.mpr hkeep
  · rw [user_of_completed hbody hend, HttpResponse.told, toldBody_noteCompletions,
      firstClose_append, firstClose_eq_none.mpr hkeep, noted_length, hclose]
    simp [firstClose]

/-- A stream that ends with an orderly close is counted without a read error and with one reconnect,
    exactly if `http_parser_execute` accepts all bytes of the reads up to the end of a response that
    closes the connection, this one comes before `stop_at`, and the latencies that are recorded have
    their slots. Where the stream is written as responses that do not change the protocol, and the
    limit on the headers is not exceeded, the first means that the close is not the end of the
    last response. -/
theorem clean_close_iff (S : Setting) (retry : ConnectInput) (now : ℕ → Micros)
    (reconnect : ℕ → ConnectInput) (i : CompleteInput)
    (hreads : ∀ read ∈ reads, read.1 ≠ [] ∧ read.1.length ≤ recvbuf) {l : Local}
    (halive : l.aborted = false) (hparser : l.c.parser = .start) :
    let chunks := parseReads l.thread.stopAt now reconnect (.init .response) [] reads
    let closed := serve S retry ((sockStream chunks i).map sockRead) l
    (∀ n, CleanlyClosed n l closed ↔
      ∃ kept last, takenApart (chunks.map Prod.fst) = some (kept, last) ∧ kept.length + 1 = n ∧
        last.now < l.thread.stopAt ∧ Recordable S (kept ++ [last]) l) ∧
    ∀ (kept : List HttpResponse) (last : HttpResponse),
      (∀ r ∈ kept, r.WellFormed ∧ r.keepAlive = true) → last.WellFormed →
      last.keepAlive = false →
      (reads.map Prod.fst).flatten = (kept ++ [last]).flatMap HttpResponse.text →
      ((HttpParser.init .response).executeAll (noteCallbacks l.thread.stopAt now reconnect)
          (reads.map Prod.fst) []).Overflows (noteCallbacks l.thread.stopAt now reconnect) ∨
        (CleanlyClosed (kept.length + 1) l closed ↔
          (∀ data, last.body ≠ .untilEof data) ∧ now kept.length < l.thread.stopAt ∧
            Recordable S (noted now reconnect (kept ++ [last]) []) l) := by
  intro chunks closed
  have hlives : LivesOn (chunks.map Prod.fst) :=
    parseReads_livesOn noting_init (List.forall_mem_nil _) fun read hread => (hreads read hread).1
  have hclean : ∀ n, CleanlyClosed n l closed ↔ _ :=
    clean_iff S retry i halive (by simp [hparser]) hlives
  refine ⟨hclean, fun kept last hkept hlast hclose hbytes => ?_⟩
  refine (takenApart_stream hkept hlast hclose hreads hbytes).imp id fun htaken => ?_
  have hnoted : noted now reconnect (kept ++ [last]) [] = noted now reconnect kept [] ++
      [⟨now kept.length, last.statusCode, false, reconnect kept.length⟩] := by
    have hlength : (noted now reconnect kept []).length = kept.length := noted_length kept
    rw [← hlength, ← hclose]
    exact List.foldl_concat _ _ _ _
  rw [hclean, hnoted]
  by_cases hbody : ∀ data, last.body ≠ .untilEof data
  · rw [htaken.2 hbody, and_iff_right hbody]
    constructor
    · rintro ⟨_, _, heq, -, hgood⟩
      obtain ⟨rfl, rfl⟩ := Prod.mk.inj (Option.some.inj heq)
      exact hgood
    · exact fun hgood => ⟨_, _, rfl, by rw [noted_length], hgood⟩
  · obtain ⟨data, hdata⟩ := not_forall.mp hbody
    rw [htaken.1 data (not_not.mp hdata)]
    exact iff_of_false (by simp) fun h => hbody h.1

/-- A response of HTTP/1.0 with a length. -/
def Example.closing : HttpResponse :=
  ⟨1, 0, 200, ['O', 'K'].map byte, [⟨.contentLength contentLengthWord [byte '2'], [byte ' ']⟩],
    .sized [104, 105]⟩

theorem Example.closing_wellFormed : Example.closing.WellFormed := by
  have hlength : (Header.contentLength contentLengthWord [byte '2']).WellFormed :=
    ⟨by decide +kernel, by decide +kernel, by decide +kernel, by decide +kernel,
      by decide +kernel, by decide +kernel, by decide +kernel⟩
  exact ⟨by decide +kernel, by decide +kernel, by decide +kernel, by decide +kernel,
    List.forall_mem_singleton.mpr ⟨hlength, by decide +kernel⟩, by decide +kernel,
    by decide +kernel, by decide +kernel, by decide +kernel⟩

/-- Its bytes, cut in the header. -/
def Example.closingReads : List (Bytes × Option ℕ) :=
  [(Example.closing.text.take 20, some 60), (Example.closing.text.drop 20, none)]

theorem clean_close_iff_cut : ∃ l : Local, Example.asked = some l ∧
    CleanlyClosed 1 l (serve (Example.setting 1 false) (Example.connects 5)
      ((sockStream (parseReads l.thread.stopAt (fun _ => 50) (fun _ => Example.connects 4)
        (.init .response) [] Example.closingReads) Example.close).map sockRead) l) := by
  have hrun : ∃ l : Local, Example.asked = some l ∧ l.aborted = false ∧ l.c.parser = .start ∧
      50 < l.thread.stopAt ∧ Recordable (Example.setting 1 false)
        (noted (fun _ => 50) (fun _ => Example.connects 4) [Example.closing] []) l ∧
      ((HttpParser.init .response).executeAll (noteCallbacks l.thread.stopAt (fun _ => 50)
        fun _ => Example.connects 4) (Example.closingReads.map Prod.fst) []).parser.httpErrno =
          .ok :=
    exists_of_any (by decide +kernel)
  obtain ⟨l, hl, halive, hparser, hstop, hrecordable, hok⟩ := hrun
  have hclean := (clean_close_iff (Example.setting 1 false) (Example.connects 5) (fun _ => 50)
    (fun _ => Example.connects 4) Example.close (by decide +kernel : ∀ read ∈ Example.closingReads,
      read.1 ≠ [] ∧ read.1.length ≤ recvbuf) halive hparser).2 [] Example.closing
    (List.forall_mem_nil _) Example.closing_wellFormed (by decide +kernel) (by decide +kernel)
  rcases hclean with hover | hclean
  · exact absurd (hok.symm.trans hover.errno) nofun
  · exact ⟨l, hl, hclean.mpr ⟨nofun, hstop, hrecordable⟩⟩

/-- A response whose body goes on until the close. -/
def Example.delimited : HttpResponse := ⟨1, 1, 200, ['O', 'K'].map byte, [], .untilEof [104, 105]⟩

/-- The end of a body that the close delimits is counted as a read error, and the connection is
    reconnected twice. -/
theorem delimiting_close_is_error : ∃ l : Local, Example.asked = some l ∧
    Example.delimited.WellFormed ∧ Example.delimited.keepAlive = false ∧
    (let l' := serve (Example.setting 1 false) (Example.connects 5)
      ((sockStream (parseReads l.thread.stopAt (fun _ => 50) (fun _ => Example.connects 4)
        (.init .response) [] [(Example.delimited.text, some 0)]) Example.close).map sockRead) l
    l'.thread.complete = 1 ∧ l'.thread.errors.read.value = 1 ∧ reconnects l'.history = 2 ∧
      ¬ CleanlyClosed 1 l l') := by
  have hrun : ∃ l : Local, Example.asked = some l ∧ l.thread.errors.read.value = 0 ∧
      (let l' := serveEach (Example.setting 1 false) (Example.connects 5)
        (((parseReads l.thread.stopAt (fun _ => 50) (fun _ => Example.connects 4)
          (.init .response) [] [(Example.delimited.text, some 0)]).map Prod.fst).map (·.round 0) ++
            [.eof Example.close]) l
      l'.thread.complete = 1 ∧ l'.thread.errors.read.value = 1 ∧ reconnects l'.history = 2) :=
    exists_of_any (by decide +kernel)
  obtain ⟨l, hl, hnone, hcomplete, hread, hreconnects⟩ := hrun
  have hbody : Example.delimited.head.bodyKind = .untilEof := by decide +kernel
  refine ⟨l, hl, ⟨by decide +kernel, by decide +kernel, by decide +kernel, by decide +kernel,
    List.forall_mem_nil _, by decide +kernel, hbody⟩, by decide +kernel, ?_⟩
  rw [serve_eq_serveEach, serveEach_sockStream]
  refine ⟨hcomplete, hread, hreconnects, fun hclean => ?_⟩
  exact absurd (hread.symm.trans ((congrArg ErrorCounter.value hclean.read).trans hnone))
    (by decide)

/-- A response that changes the protocol, with a length. -/
def Example.upgrading : HttpResponse :=
  ⟨1, 1, 200, ['O', 'K'].map byte, [⟨.connection connectionWord [upgradeWord, closeWord], []⟩,
    ⟨.upgrade upgradeWord [byte 'x'], []⟩, ⟨.contentLength contentLengthWord [byte '2'], []⟩],
    .sized [104, 105]⟩

/-- It ends with its headers, and the bytes behind them are an error, after which the connection is
    reconnected again. -/
theorem upgrading_response_is_error : ∃ l : Local, Example.asked = some l ∧
    (let l' := serve (Example.setting 1 false) (Example.connects 5)
      ((sockStream (parseReads l.thread.stopAt (fun _ => 50) (fun _ => Example.connects 4)
        (.init .response) [] [(Example.upgrading.text, some 0)]) Example.close).map sockRead) l
    l'.thread.complete = 1 ∧ l'.thread.errors.read.value = 1 ∧ reconnects l'.history = 2) := by
  have hrun : ∃ l : Local, Example.asked = some l ∧
      (let l' := serveEach (Example.setting 1 false) (Example.connects 5)
        (((parseReads l.thread.stopAt (fun _ => 50) (fun _ => Example.connects 4)
          (.init .response) [] [(Example.upgrading.text, some 0)]).map Prod.fst).map (·.round 0) ++
            [.eof Example.close]) l
      l'.thread.complete = 1 ∧ l'.thread.errors.read.value = 1 ∧ reconnects l'.history = 2) :=
    exists_of_any (by decide +kernel)
  obtain ⟨l, hl, hend⟩ := hrun
  refine ⟨l, hl, ?_⟩
  rw [serve_eq_serveEach, serveEach_sockStream]
  exact hend

end Wrkx
