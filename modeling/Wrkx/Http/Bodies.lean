import Wrkx.Http.Headers

/-!
# The body of a response

The end of the headers, which tells how long the body is, and the body: none, as many bytes as a
header says, chunks with trailing headers, or everything up to the end of the connection.

## Main results

- `takes_headersEnd` — the empty line after the headers
- `takes_chunks` — the chunks of a body
-/

namespace Wrkx

variable {σ : Type*} {S : HttpParserSettings σ} {user u : σ} {h : Head} {s : State}
  {parser : HttpParser} {ch c : UInt8} {run body : Bytes} {done : ℕ → Bool → σ → σ}

/-! ## The end of a message -/

/-- A parser with what the lines have told. -/
def Head.toParser (h : Head) : HttpParser :=
  { HttpParser.init .response with
    httpMajor := h.httpMajor
    httpMinor := h.httpMinor
    statusCode := h.statusCode
    flags := h.flags
    contentLength := h.contentLength }

/-- The connection goes on after the response. -/
def Head.keepAlive (h : Head) : Bool := h.toParser.shouldKeepAlive

/-- The response goes on to the end of the connection. -/
def Head.needsEof (h : Head) : Bool := h.toParser.messageNeedsEof

/-- The connection changes to another protocol. -/
def Head.upgrade (h : Head) : Bool := h.flags.upgrade && h.flags.connectionUpgrade

theorem HttpParser.Reading.messageNeedsEof (hr : parser.Reading h s) :
    parser.messageNeedsEof = h.needsEof := by
  rw [← hr.head, Head.needsEof]
  unfold HttpParser.messageNeedsEof
  rw [hr.type]
  rfl

theorem HttpParser.Reading.shouldKeepAlive (hr : parser.Reading h s) :
    parser.shouldKeepAlive = h.keepAlive := by
  rw [Head.keepAlive]
  unfold HttpParser.shouldKeepAlive
  rw [hr.messageNeedsEof, ← hr.head]
  rfl

theorem HttpParser.Reading.chunked (hr : parser.Reading h s) :
    parser.flags.chunked = h.flags.chunked := congrArg (·.flags.chunked) hr.head

/-- `response_complete` may start the parser again after a response that keeps the connection, and
    looks at its status. -/
structure HttpParserSettings.Answers (S : HttpParserSettings σ) (done : ℕ → Bool → σ → σ) :
    Prop where
  parser : ∀ parser u, (S.onMessageComplete parser u).1 = parser ∨
    parser.shouldKeepAlive = true ∧ (S.onMessageComplete parser u).1 = .init .response
  user : ∀ parser u,
    (S.onMessageComplete parser u).2 = done parser.statusCode parser.shouldKeepAlive u

/-- After a response: the parser begins the next one, or it is dead. -/
def Completed (done : ℕ → Bool → σ → σ) (h : Head) (user : σ) (parser : HttpParser) (u : σ) :
    Prop :=
  ∃ head, At head (if h.keepAlive then .startRes else .dead) (done h.statusCode h.keepAlive user)
    parser u

/-- The callback on a complete response. -/
theorem completed_messageComplete (hanswers : S.Answers done) (hr : parser.Reading h s)
    (n : ℕ) : Completed done h user
      ((Exec.messageComplete S ⟨parser, user, none, none, none, false, false⟩).parser.withNread n)
      (Exec.messageComplete S ⟨parser, user, none, none, none, false, false⟩).user := by
  have hgoto : (parser.goto parser.newMessage).Reading h parser.newMessage :=
    ⟨rfl, hr.head, hr.type, hr.method⟩
  have hnew : parser.newMessage = if h.keepAlive then .startRes else .dead := by
    rw [HttpParser.newMessage, hr.shouldKeepAlive, HttpParser.startState, hr.type]
    rfl
  have hstatus : (parser.goto parser.newMessage).statusCode = h.statusCode :=
    congrArg Head.statusCode hr.head
  have huser := hanswers.user (parser.goto parser.newMessage) user
  rw [hgoto.shouldKeepAlive, hstatus] at huser
  rw [hnew] at hgoto
  rcases hanswers.parser (parser.goto parser.newMessage) user with hsame | ⟨hkeep, hinit⟩
  · refine ⟨h, ?_, huser⟩
    have hparser : (Exec.messageComplete S ⟨parser, user, none, none, none, false, false⟩).parser =
        parser.goto (if h.keepAlive then .startRes else .dead) := hsame.trans (by rw [hnew])
    rw [hparser]
    exact hgoto.withNread n
  · refine ⟨(HttpParser.init .response).head, ?_, huser⟩
    have hparser : (Exec.messageComplete S ⟨parser, user, none, none, none, false, false⟩).parser =
        .init .response := hinit
    rw [hnew, hgoto.shouldKeepAlive] at hkeep
    rw [hparser, hkeep]
    exact ⟨rfl, rfl, rfl, rfl⟩

/-! ## The end of the headers -/

/-- The `CR` of the empty line. -/
theorem takes_emptyLine (hS : S.Tame) :
    Takes S [cr] (AtLine S h user) (At h .headersAlmostDone user) := by
  intro parser u hvalid hline
  refine feeds_byte hS hvalid fun n _ => ?_
  obtain ⟨q, ⟨hr, -⟩, hround⟩ := line_round hline hvalid.ok
    (by decide : ¬(cr = byte ' ' ∨ cr = 9)) n
  rw [hround, headerFieldStart, if_pos rfl]
  exact ⟨_, rfl, ⟨rfl, hr.head, hr.type, hr.method⟩, rfl⟩

/-- The `LF` of the empty line after the trailing headers. -/
theorem takes_trailersEnd (hS : S.Tame) (hanswers : S.Answers done)
    (htrailing : h.flags.trailing = true) :
    Takes S [lf] (At h .headersAlmostDone user) (Completed done h user) := by
  rintro parser u hvalid ⟨hr, rfl⟩
  refine feeds_byte hS hvalid fun n _ => ?_
  rw [begin_onParser (by rw [hr.state]; rfl), switch]
  simp only [HttpParser.withNread_state, hr.state]
  have hflags : parser.flags.trailing = true := by
    rw [← htrailing, ← hr.head]
    rfl
  refine ⟨_, ((if_neg (by decide)).trans (if_pos hflags)).trans (notifyComplete_eq hvalid.ok), ?_⟩
  exact completed_messageComplete hanswers (hr.withNread n) 0

/-- The `LF` of the empty line after the headers, up to the choice of a body. -/
theorem headersEnd_round (hr : parser.Reading h .headersAlmostDone) (hok : parser.httpErrno = .ok)
    (htrailing : h.flags.trailing = false) (n : ℕ) :
    ∃ q : HttpParser, q.Reading h .headersDone ∧ q.httpErrno = .ok ∧ q.upgrade = h.upgrade ∧
      switch S.unlimited lf [] ((Exec.begin parser u).onParser (·.withNread n)) =
        headersDone S.unlimited lf ⟨q, u, none, none, none, false, false⟩ := by
  have hflags : parser.flags = h.flags := congrArg Head.flags hr.head
  have hupgrade : ((parser.flags.upgrade && parser.flags.connectionUpgrade) ||
      decide (parser.method = .connect)) = h.upgrade := by
    rw [hr.method, hflags]
    exact Bool.or_false _
  have hnot : ¬parser.flags.trailing = true := by
    rw [hflags, htrailing]
    nofun
  have hhead : ∃ m, ∀ case : Exec σ → Step σ, loopHead S.unlimited case
      ⟨{ parser.withNread n with state := .headersDone, upgrade := h.upgrade }, u, none, none,
        none, false, false⟩ =
      case ⟨({ parser with state := .headersDone, upgrade := h.upgrade } : HttpParser).withNread m,
        u, none, none, none, false, false⟩ := loopHead_unlimited hok
  obtain ⟨m, hm⟩ := hhead
  refine ⟨({ parser with state := .headersDone, upgrade := h.upgrade } : HttpParser).withNread m,
    ⟨rfl, hr.head, hr.type, hr.method⟩, hok, rfl, ?_⟩
  rw [begin_onParser (by rw [hr.state]; rfl), switch]
  simp only [HttpParser.withNread_state, hr.state]
  refine ((if_neg (by decide)).trans (if_neg hnot)).trans (Eq.trans ?_ (hm _))
  rw [← hupgrade]
  rfl

/-- What the parser does after the headers. -/
inductive BodyKind
  | none
  | sized
  | chunked
  | untilEof
deriving DecidableEq

/-- How the body is told from the lines of a response. -/
def Head.bodyKind (h : Head) : BodyKind :=
  if h.flags.chunked then .chunked
  else if h.contentLength = 0 then .none
  else if h.contentLength ≠ ullongMax then .sized
  else if h.needsEof then .untilEof
  else .none

/-- The state in which a body begins. -/
def BodyKind.state : BodyKind → State
  | .none => .headersDone
  | .sized => .bodyIdentity
  | .chunked => .chunkSizeStart
  | .untilEof => .bodyIdentityEof

/-- The `LF` of the empty line after the headers. -/
theorem takes_headersEnd (hS : S.Tame) (hanswers : S.Answers done)
    (htrailing : h.flags.trailing = false) (hupgrade : h.upgrade = false) :
    Takes S [lf] (At h .headersAlmostDone user)
      (if h.bodyKind = .none then Completed done h user else At h h.bodyKind.state user) := by
  rintro parser u hvalid ⟨hr, rfl⟩
  refine feeds_byte hS hvalid fun n _ => ?_
  obtain ⟨q, hq, hqok, hqupgrade, hround⟩ :=
    headersEnd_round (S := S) (u := u) hr hvalid.ok htrailing n
  have hflag := hq.chunked
  have hlength : q.contentLength = h.contentLength := congrArg Head.contentLength hq.head
  have heof : (q.withNread 0).messageNeedsEof = h.needsEof := (hq.withNread 0).messageNeedsEof
  have hnot : ¬(q.withNread 0).upgrade = true := by
    rw [HttpParser.withNread, hqupgrade, hupgrade]
    nofun
  have hnone : Completed done h u _ _ :=
    completed_messageComplete hanswers (hq.withNread 0) 0
  have hnotify : ∀ e : Exec σ, e.parser = q.withNread 0 →
      notifyComplete S.unlimited (.next 0) e = .next 0 (e.messageComplete S.unlimited) :=
    fun e he => notifyComplete_eq (he ▸ hqok)
  rw [hround]
  -- The cases of `s_headers_done` in its order, against those of `bodyKind`.
  unfold Head.bodyKind
  by_cases hchunked : h.flags.chunked = true
  · rw [if_pos hchunked, if_neg nofun]
    exact ⟨_, (if_neg (by decide)).trans ((if_neg hnot).trans (if_pos (hflag.trans hchunked))),
      ⟨rfl, hq.head, hq.type, hq.method⟩, rfl⟩
  have hflag' : ¬(q.withNread 0).flags.chunked = true := fun h' => hchunked (hflag.symm.trans h')
  rw [if_neg hchunked]
  by_cases hzero : h.contentLength = 0
  · rw [if_pos hzero, if_pos rfl]
    exact ⟨_, (if_neg (by decide)).trans ((if_neg hnot).trans ((if_neg hflag').trans
      ((if_pos (hlength.trans hzero)).trans (hnotify _ rfl)))), hnone⟩
  have hlength' : ¬(q.withNread 0).contentLength = 0 := fun h' => hzero (hlength.symm.trans h')
  rw [if_neg hzero]
  by_cases hmax : h.contentLength = ullongMax
  · have hmax' : ¬(q.withNread 0).contentLength ≠ ullongMax := not_not.mpr (hlength.trans hmax)
    rw [if_neg (not_not.mpr hmax)]
    by_cases hneeds : h.needsEof = true
    · have hgoes : ¬((q.withNread 0).type = .request ∨
          (!(q.withNread 0).messageNeedsEof) = true) := by
        rw [(hq.withNread 0).type, heof, hneeds]
        simp
      rw [if_pos hneeds, if_neg nofun]
      exact ⟨_, (if_neg (by decide)).trans ((if_neg hnot).trans ((if_neg hflag').trans
        ((if_neg hlength').trans ((if_neg hmax').trans (if_neg hgoes))))),
        ⟨rfl, hq.head, hq.type, hq.method⟩, rfl⟩
    · have hgoes : (q.withNread 0).type = .request ∨
          (!(q.withNread 0).messageNeedsEof) = true := by
        rw [heof, eq_false_of_ne_true hneeds]
        exact .inr rfl
      rw [if_neg hneeds, if_pos rfl]
      exact ⟨_, (if_neg (by decide)).trans ((if_neg hnot).trans ((if_neg hflag').trans
        ((if_neg hlength').trans ((if_neg hmax').trans
          ((if_pos hgoes).trans (hnotify _ rfl)))))), hnone⟩
  · have hmax' : (q.withNread 0).contentLength ≠ ullongMax := fun h' =>
      hmax (hlength.symm.trans h')
    rw [if_pos hmax, if_neg nofun]
    exact ⟨_, (if_neg (by decide)).trans ((if_neg hnot).trans ((if_neg hflag').trans
      ((if_neg hlength').trans (if_pos hmax')))), ⟨rfl, hq.head, hq.type, hq.method⟩, rfl⟩

/-! ## Bodies -/

/-- The body callback on the bytes of a text, if there are any. -/
def bodyTold (S : HttpParserSettings σ) (body : Bytes) (user : σ) : σ :=
  if body = [] then user else S.onBody body user

theorem bodyTold_cons (hS : S.Regular) (c : UInt8) (body : Bytes) :
    bodyTold S (c :: body) user = bodyTold S body (S.onBody [c] user) := by
  rw [bodyTold, if_neg (List.cons_ne_nil _ _), bodyTold]
  split_ifs with h
  · rw [h]
  · exact hS.body [c] body user

/-- A byte of a body whose length is known. -/
theorem takes_identityByte (hS : S.Tame) (hanswers : S.Answers done) {k : ℕ}
    (hlength : h.contentLength = k + 1) (hmax : k + 1 ≠ ullongMax) :
    Takes S [c] (At h .bodyIdentity user)
      (if k = 0 then Completed done { h with contentLength := k } (S.onBody [c] user)
        else At { h with contentLength := k } .bodyIdentity (S.onBody [c] user)) := by
  rintro parser u hvalid ⟨hr, rfl⟩
  refine feeds_byte hS hvalid fun n _ => ?_
  rw [begin_onParser (by rw [hr.state]; rfl), switch]
  simp only [HttpParser.withNread_state, hr.state]
  have hparser : (parser.withNread n).contentLength = k + 1 :=
    (congrArg Head.contentLength hr.head).trans hlength
  have hzero : (parser.withNread n).contentLength ≠ 0 := hparser ▸ Nat.succ_ne_zero k
  have hmax' : (parser.withNread n).contentLength ≠ ullongMax := hparser ▸ hmax
  have htaken : ({ parser.withNread n with contentLength :=
      (parser.withNread n).contentLength - 1 } : HttpParser).Reading
        { h with contentLength := k } .bodyIdentity :=
    ⟨hr.state, by rw [hparser, ← hr.head]; rfl, hr.type, hr.method⟩
  by_cases hk : k = 0
  · rw [if_pos hk]
    have hone : (parser.withNread n).contentLength = 1 := by rw [hparser, hk]
    have hdone := bodyIdentity_done (S := S.unlimited) (p := [c])
      (e := ⟨parser.withNread n, u, none, none, none, false, false⟩) hzero hmax' hvalid.ok hone.le
    dsimp only at hdone
    rw [hone] at hdone
    refine ⟨_, hdone, ?_⟩
    have hgoto : (HttpParser.goto .messageDone { parser.withNread n with
        contentLength := (parser.withNread n).contentLength - 1 }).Reading
          { h with contentLength := k } .messageDone :=
      ⟨rfl, htaken.head, htaken.type, htaken.method⟩
    exact completed_messageComplete hanswers hgoto 0
  · rw [if_neg hk]
    have hmore := bodyIdentity_more (S := S.unlimited) (p := [c])
      (e := ⟨parser.withNread n, u, none, none, none, false, false⟩) hzero hmax' (by
        change 1 < _
        rw [hparser]
        omega)
    exact ⟨_, hmore, htaken.withNread 0, rfl⟩

/-- A body whose length is known. -/
theorem takes_identity (hS : S.Regular) (hanswers : S.Answers done) (hbody : body ≠ [])
    (hlength : h.contentLength = body.length) (hmax : body.length < ullongMax) :
    Takes S body (At h .bodyIdentity user)
      (Completed done { h with contentLength := 0 } (S.onBody body user)) := by
  induction body generalizing h user with
  | nil => exact absurd rfl hbody
  | cons c body ih =>
    have hbyte : Takes S [c] (At h .bodyIdentity user) _ :=
      takes_identityByte hS.toTame hanswers hlength hmax.ne
    by_cases hnil : body = []
    · subst hnil
      exact hbyte
    · rw [if_neg fun h => hnil (List.length_eq_zero_iff.mp h)] at hbyte
      have hrest : Takes S body (At { h with contentLength := body.length } .bodyIdentity
          (S.onBody [c] user)) _ := ih hnil rfl ((Nat.lt_succ_self _).trans hmax)
      rw [← hS.body [c] body user] at hrest
      exact hbyte.cons hS.toTame hrest

/-- A body that ends with the connection. -/
theorem takes_untilEof (hS : S.Regular) :
    Takes S body (At h .bodyIdentityEof user) (At h .bodyIdentityEof (bodyTold S body user)) := by
  induction body generalizing user with
  | nil => exact .nil fun _ _ _ h => h
  | cons c body ih =>
    have hbyte : Takes S [c] (At h .bodyIdentityEof user)
        (At h .bodyIdentityEof (S.onBody [c] user)) := by
      rintro parser u hvalid ⟨hr, rfl⟩
      refine feeds_byte hS.toTame hvalid fun n _ => ?_
      rw [begin_onParser (by rw [hr.state]; rfl), switch]
      simp only [HttpParser.withNread_state, hr.state]
      exact ⟨_, rfl, (hr.withNread n).withNread 0, rfl⟩
    rw [bodyTold_cons hS]
    exact hbyte.cons hS.toTame ih

/-! ## Chunks -/

/-- The line before a chunk: its size in hexadecimal digits, and what may follow it. -/
structure ChunkLine where
  size : Bytes
  extension : Bytes

namespace ChunkLine

/-- The size of the chunk. -/
def value (line : ChunkLine) : ℕ := CString.value 16 line.size

def text (line : ChunkLine) : Bytes := line.size ++ (line.extension ++ [cr, lf])

/-- A line before a chunk that the parser accepts. -/
structure WellFormed (line : ChunkLine) : Prop where
  ne_nil : line.size ≠ []
  digits : ∀ c ∈ line.size, CString.isDigitIn 16 c = true
  bound : line.value / 16 ≤ (ullongMax - 16) / 16
  first : ∀ c ∈ line.extension.head?, c = byte ';' ∨ c = byte ' '
  extension : cr ∉ line.extension

end ChunkLine

theorem unhex_of_isDigitIn (hc : CString.isDigitIn 16 c = true) :
    unhex c = some (CString.digitValue c) := by
  have hlt := of_decide_eq_true hc
  have hlower := CString.toLower_toNat c
  unfold CString.digitValue at hlt ⊢
  unfold unhex
  simp only [CString.isDigit, CString.isAlpha, Bool.and_eq_true, Bool.or_eq_true,
    decide_eq_true_eq] at hlt ⊢
  split_ifs at hlt hlower ⊢ <;> first
    | rfl
    | (rw [Option.some.injEq]; omega)
    | omega

theorem ne_cr_of_isDigitIn (hc : CString.isDigitIn 16 c = true) : c ≠ cr := by
  rintro rfl
  exact absurd hc (by decide)

/-- Before the line of a chunk. -/
def AtChunk (h : Head) (user : σ) (parser : HttpParser) (u : σ) : Prop :=
  ∃ n, At { h with contentLength := n } .chunkSizeStart user parser u

/-- The first digit of a size. -/
theorem takes_sizeStart (hS : S.Tame) (hchunked : h.flags.chunked = true)
    (hc : CString.isDigitIn 16 c = true) :
    Takes S [c] (AtChunk h user)
      (At { h with contentLength := CString.digitValue c } .chunkSize user) := by
  rintro parser u hvalid ⟨m, hr, rfl⟩
  refine feeds_byte hS hvalid fun n hn => ?_
  have hflag : parser.flags.chunked = true := hr.chunked.trans hchunked
  have hcase : (parser.withNread n).plainCase c = { parser.withNread n with
      contentLength := CString.digitValue c, state := .chunkSize } := by
    rw [HttpParser.plainCase, HttpParser.withNread_state, hr.state]
    dsimp only [HttpParser.chunkSizeStart]
    rw [if_neg (not_not.mpr ⟨hn hr.state, hflag⟩), unhex_of_isDigitIn hc]
  have hmark : (Exec.mk (parser.withNread n) u none none none false false).markLine c =
      ⟨parser.withNread n, u, none, none, none, false, false⟩ := by
    rw [Exec.markLine, HttpParser.withNread_state, hr.state]
  rw [begin_onParser (by rw [hr.state]; rfl),
    switch_plain (by rw [HttpParser.withNread_state, hr.state]; rfl), plain, hmark, Exec.onParser,
    hcase]
  refine ⟨_, if_pos hvalid.ok, ⟨rfl, ?_, hr.type, hr.method⟩, rfl⟩
  exact congrArg (fun h : Head => { h with contentLength := CString.digitValue c }) hr.head

/-- The other digits of a size. -/
theorem takes_sizeDigit (hS : S.Tame) (hchunked : h.flags.chunked = true) {n : ℕ}
    (hc : CString.isDigitIn 16 c = true) (hn : n ≤ (ullongMax - 16) / 16) :
    Takes S [c] (At { h with contentLength := n } .chunkSize user)
      (At { h with contentLength := n * 16 + CString.digitValue c } .chunkSize user) := by
  refine takes_plain hS fun parser hr hok => ?_
  have hflag : parser.flags.chunked = true := hr.chunked.trans hchunked
  have hlength : parser.contentLength = n := congrArg Head.contentLength hr.head
  have hcase : parser.plainCase c =
      { parser with contentLength := n * 16 + CString.digitValue c } := by
    rw [HttpParser.plainCase, hr.state]
    dsimp only [HttpParser.chunkSize]
    rw [if_neg (by simp [hflag]), if_neg (ne_cr_of_isDigitIn hc), unhex_of_isDigitIn hc, hlength]
    exact (if_neg (not_lt.mpr hn)).trans (by rw [← hr.state])
  rw [hcase]
  refine ⟨⟨hr.state, ?_, hr.type, hr.method⟩, hok⟩
  exact congrArg (fun h : Head => { h with contentLength := n * 16 + CString.digitValue c }) hr.head

theorem takes_size (hS : S.Tame) (hchunked : h.flags.chunked = true) {line : ChunkLine}
    (hline : line.WellFormed) :
    Takes S line.size (AtChunk h user)
      (At { h with contentLength := line.value } .chunkSize user) := by
  have hbound := hline.bound
  exact takes_number (P := AtChunk h user)
    (A := fun n => At { h with contentLength := n } .chunkSize user)
    (D := fun d => CString.isDigitIn 16 d = true) hS (by decide : 0 < 16)
    (fun d hd => takes_sizeStart hS hchunked hd)
    (fun n d hd hmax => takes_sizeDigit hS hchunked hd (by omega)) hline.digits hline.ne_nil
    (by omega : line.value ≤ (ullongMax - 16) / 16 * 16 + 15)

/-- What follows the size, up to the end of the line. -/
theorem takes_extension (hS : S.Tame) (hchunked : h.flags.chunked = true) {extension : Bytes}
    (hfirst : ∀ c ∈ extension.head?, c = byte ';' ∨ c = byte ' ') (hcr : cr ∉ extension) :
    Takes S (extension ++ [cr]) (At h .chunkSize user) (At h .chunkSizeAlmostDone user) := by
  have hflag : ∀ {parser : HttpParser} {s}, parser.Reading h s → ¬(!parser.flags.chunked) = true :=
    fun hr => by
      rw [hr.chunked, hchunked]
      nofun
  cases extension with
  | nil =>
    refine takes_plain hS fun parser hr hok => ?_
    rw [HttpParser.plainCase, hr.state]
    dsimp only [HttpParser.chunkSize]
    rw [if_neg (hflag hr), if_pos rfl]
    exact ⟨⟨rfl, hr.head, hr.type, hr.method⟩, hok⟩
  | cons c extension =>
    have hc := hfirst c rfl
    have hstart : Takes S [c] (At h .chunkSize user) (At h .chunkParameters user) := by
      refine takes_plain hS fun parser hr hok => ?_
      have hunhex : unhex c = none ∧ c ≠ cr := by
        rcases hc with rfl | rfl <;> decide
      rw [HttpParser.plainCase, hr.state]
      dsimp only [HttpParser.chunkSize]
      rw [if_neg (hflag hr), if_neg hunhex.2, hunhex.1]
      dsimp only
      rw [if_pos hc]
      exact ⟨⟨rfl, hr.head, hr.type, hr.method⟩, hok⟩
    -- Whatever comes after the size is skipped up to the end of the line.
    have hrest : Takes S extension (At h .chunkParameters user) (At h .chunkParameters user) :=
      Takes.each (A := fun _ => At h .chunkParameters user) hS [] fun _ d hd => by
        refine takes_plain hS fun parser hr hok => ?_
        have hne : d ≠ cr := fun h => hcr (h ▸ List.mem_cons_of_mem _ hd)
        rw [HttpParser.plainCase, hr.state]
        dsimp only [HttpParser.chunkParameters]
        rw [if_neg (hflag hr), if_neg hne]
        exact ⟨hr, hok⟩
    have hend : Takes S [cr] (At h .chunkParameters user) (At h .chunkSizeAlmostDone user) := by
      refine takes_plain hS fun parser hr hok => ?_
      rw [HttpParser.plainCase, hr.state]
      dsimp only [HttpParser.chunkParameters]
      rw [if_neg (hflag hr), if_pos rfl]
      exact ⟨⟨rfl, hr.head, hr.type, hr.method⟩, hok⟩
    exact hstart.cons hS (hrest.append hS hend)

/-- The line before a chunk, or before the trailing headers. -/
theorem takes_chunkLine (hS : S.Tame) (hchunked : h.flags.chunked = true) {line : ChunkLine}
    (hline : line.WellFormed) : Takes S line.text (AtChunk h user)
      (if line.value = 0 then At { h with
          contentLength := 0, flags := { h.flags with trailing := true } } .headerFieldStart user
        else At { h with contentLength := line.value } .chunkData user) := by
  have hend : Takes S [lf] (At { h with contentLength := line.value } .chunkSizeAlmostDone user)
      (if line.value = 0 then At { h with
          contentLength := 0, flags := { h.flags with trailing := true } } .headerFieldStart user
        else At { h with contentLength := line.value } .chunkData user) := by
    rintro parser u hvalid ⟨hr, rfl⟩
    have hflag : parser.flags.chunked = true := hr.chunked.trans hchunked
    have hlength : parser.contentLength = line.value := congrArg Head.contentLength hr.head
    have hcase : parser.plainCase lf = if line.value = 0 then { parser.withNread 0 with
        flags := { parser.flags with trailing := true }, state := .headerFieldStart }
        else (parser.withNread 0).goto .chunkData := by
      rw [HttpParser.plainCase, hr.state]
      dsimp only [HttpParser.chunkSizeAlmostDone, HttpParser.withNread_contentLength]
      rw [if_neg (by simp [hflag]), if_neg (by decide)]
      simp only [hlength]
      rfl
    refine feeds_plain hS hvalid (by rw [hr.state]; rfl) (by rw [hr.state]; decide) ?_ ?_
    · rw [hcase]
      split_ifs <;> exact hvalid.ok
    · rw [hcase]
      split_ifs with hzero
      · refine ⟨⟨rfl, ?_, hr.type, hr.method⟩, rfl⟩
        have hhead := hr.head
        rw [hzero] at hhead
        exact congrArg (fun h : Head => { h with flags := { h.flags with trailing := true } }) hhead
      · exact ⟨⟨rfl, hr.head, hr.type, hr.method⟩, rfl⟩
  have hrest := (takes_extension (h := { h with contentLength := line.value }) hS hchunked
    hline.first hline.extension).append hS hend
  rw [List.append_assoc] at hrest
  exact (takes_size hS hchunked hline).append hS hrest

/-- A byte of a chunk. -/
theorem takes_chunkByte (hS : S.Tame) (hchunked : h.flags.chunked = true) {k : ℕ}
    (hlength : h.contentLength = k + 1) (hmax : k + 1 ≠ ullongMax) :
    Takes S [c] (At h .chunkData user) (At { h with contentLength := k }
      (if k = 0 then .chunkDataAlmostDone else .chunkData) (S.onBody [c] user)) := by
  rintro parser u hvalid ⟨hr, rfl⟩
  refine feeds_byte hS hvalid fun n _ => ?_
  rw [begin_onParser (by rw [hr.state]; rfl), switch]
  simp only [HttpParser.withNread_state, hr.state]
  have hflag : (parser.withNread n).flags.chunked = true := hr.chunked.trans hchunked
  have hparser : (parser.withNread n).contentLength = k + 1 :=
    (congrArg Head.contentLength hr.head).trans hlength
  have hzero : (parser.withNread n).contentLength ≠ 0 := hparser ▸ Nat.succ_ne_zero k
  have hmax' : (parser.withNread n).contentLength ≠ ullongMax := hparser ▸ hmax
  have htaken : ({ parser.withNread n with contentLength :=
      (parser.withNread n).contentLength - 1 } : HttpParser).Reading
        { h with contentLength := k } .chunkData :=
    ⟨hr.state, by rw [hparser, ← hr.head]; rfl, hr.type, hr.method⟩
  by_cases hk : k = 0
  · rw [if_pos hk]
    have hone : (parser.withNread n).contentLength = 1 := by rw [hparser, hk]
    have hdone := chunkData_done (p := [c])
      (e := ⟨parser.withNread n, u, none, none, none, false, false⟩) hzero hmax' hflag hone.le
    dsimp only at hdone
    rw [hone] at hdone
    exact ⟨_, hdone, ⟨rfl, htaken.head, htaken.type, htaken.method⟩, rfl⟩
  · rw [if_neg hk]
    have hmore := chunkData_more (p := [c])
      (e := ⟨parser.withNread n, u, none, none, none, false, false⟩) hzero hmax' hflag (by
        change 1 < _
        rw [hparser]
        omega)
    exact ⟨_, hmore, htaken.withNread 0, rfl⟩

/-- The bytes of a chunk. -/
theorem takes_chunkBytes (hS : S.Regular) (hchunked : h.flags.chunked = true) (hbody : body ≠ [])
    (hlength : h.contentLength = body.length) (hmax : body.length < ullongMax) :
    Takes S body (At h .chunkData user)
      (At { h with contentLength := 0 } .chunkDataAlmostDone (S.onBody body user)) := by
  induction body generalizing h user with
  | nil => exact absurd rfl hbody
  | cons c body ih =>
    have hbyte : Takes S [c] (At h .chunkData user) _ :=
      takes_chunkByte hS.toTame hchunked hlength hmax.ne
    by_cases hnil : body = []
    · subst hnil
      exact hbyte
    · rw [if_neg fun h => hnil (List.length_eq_zero_iff.mp h)] at hbyte
      have hrest : Takes S body (At { h with contentLength := body.length } .chunkData
          (S.onBody [c] user)) _ := ih hchunked hnil rfl ((Nat.lt_succ_self _).trans hmax)
      rw [← hS.body [c] body user] at hrest
      exact hbyte.cons hS.toTame hrest

/-- A chunk of a body. -/
structure BodyChunk where
  line : ChunkLine
  data : Bytes

namespace BodyChunk

def text (chunk : BodyChunk) : Bytes := chunk.line.text ++ (chunk.data ++ [cr, lf])

/-- A chunk that the parser accepts. -/
structure WellFormed (chunk : BodyChunk) : Prop where
  line : chunk.line.WellFormed
  ne_nil : chunk.data ≠ []
  size : chunk.line.value = chunk.data.length

end BodyChunk

/-- The end of the line after a chunk. -/
theorem takes_chunkEnd (hS : S.Tame) (hchunked : h.flags.chunked = true)
    (hlength : h.contentLength = 0) :
    Takes S [cr, lf] (At h .chunkDataAlmostDone user) (At h .chunkSizeStart user) := by
  have hcr : Takes S [cr] (At h .chunkDataAlmostDone user) (At h .chunkDataDone user) := by
    rintro parser u hvalid ⟨hr, rfl⟩
    refine feeds_byte hS hvalid fun n _ => ?_
    rw [begin_onParser (by rw [hr.state]; rfl), switch]
    simp only [HttpParser.withNread_state, hr.state]
    have hexpected : (parser.withNread n).flags.chunked = true ∧
        (parser.withNread n).contentLength = 0 :=
      ⟨hr.chunked.trans hchunked, (congrArg Head.contentLength hr.head).trans hlength⟩
    rw [chunkDataAlmostDone, if_neg (not_not.mpr hexpected), if_neg (by decide)]
    exact ⟨_, if_pos hvalid.ok,
      ⟨rfl, hr.head, hr.type, hr.method⟩, rfl⟩
  have hlf : Takes S [lf] (At h .chunkDataDone user) (At h .chunkSizeStart user) :=
    takes_plain hS fun parser hr hok => by
      rw [HttpParser.plainCase, hr.state]
      dsimp only [HttpParser.chunkDataDone]
      rw [if_neg (by rw [hr.chunked, hchunked]; decide), if_neg (by decide)]
      exact ⟨⟨rfl, hr.head, hr.type, hr.method⟩, hok⟩
  exact hcr.cons hS hlf

theorem takes_chunk (hS : S.Regular) (hchunked : h.flags.chunked = true) {chunk : BodyChunk}
    (hchunk : chunk.WellFormed) :
    Takes S chunk.text (AtChunk h user) (AtChunk h (S.onBody chunk.data user)) := by
  have hlength : chunk.data.length ≠ 0 := fun h => hchunk.ne_nil (List.length_eq_zero_iff.mp h)
  have hbound : chunk.data.length < ullongMax := by
    have := hchunk.line.bound
    rw [hchunk.size] at this
    simp only [ullongMax] at this ⊢
    omega
  have hline : Takes S chunk.line.text (AtChunk h user) _ :=
    takes_chunkLine hS.toTame hchunked hchunk.line
  rw [hchunk.size, if_neg hlength] at hline
  have hend : Takes S [cr, lf] (At { h with contentLength := 0 } .chunkDataAlmostDone
      (S.onBody chunk.data user)) (AtChunk h (S.onBody chunk.data user)) :=
    (takes_chunkEnd (h := { h with contentLength := 0 }) hS.toTame hchunked rfl).mono
      fun _ _ _ hat => ⟨0, hat⟩
  exact hline.append hS.toTame
    ((takes_chunkBytes (h := { h with contentLength := chunk.data.length }) hS hchunked
      hchunk.ne_nil rfl hbound).append hS.toTame hend)

/-- Chunks one after the other. -/
theorem takes_chunks (hS : S.Regular) (hchunked : h.flags.chunked = true) {chunks : List BodyChunk}
    (hchunks : ∀ chunk ∈ chunks, chunk.WellFormed) :
    Takes S (chunks.flatMap BodyChunk.text) (AtChunk h user)
      (AtChunk h (bodyTold S (chunks.flatMap BodyChunk.data) user)) := by
  induction chunks generalizing user with
  | nil => exact .nil fun _ _ _ h => h
  | cons chunk chunks ih =>
    have hchunk := hchunks chunk List.mem_cons_self
    have htold : bodyTold S ((chunk :: chunks).flatMap BodyChunk.data) user =
        bodyTold S (chunks.flatMap BodyChunk.data) (S.onBody chunk.data user) := by
      rw [List.flatMap_cons, bodyTold,
        if_neg fun h => hchunk.ne_nil (List.append_eq_nil_iff.mp h).1, bodyTold]
      split_ifs with h
      · rw [h, List.append_nil]
      · exact hS.body _ _ _
    rw [htold]
    exact (takes_chunk hS hchunked hchunk).append hS.toTame
      (ih fun c hc => hchunks c (List.mem_cons_of_mem _ hc))

end Wrkx
