import Wrkx.Http.Cases

/-!
# `http_parser_execute`

The cases for headers and bodies, which make the callbacks, and the loop over the data.

## Design notes

`REEXECUTE` is a call of the case that the loop continues with, on the byte at hand.
-/

namespace Wrkx

/-! ## Header names -/

/-- The literals that the parser looks for, in lower case. -/
def connectionWord : Bytes := ['c', 'o', 'n', 'n', 'e', 'c', 't', 'i', 'o', 'n'].map byte

def proxyConnectionWord : Bytes := ['p', 'r', 'o', 'x', 'y', '-'].map byte ++ connectionWord

def contentLengthWord : Bytes :=
  ['c', 'o', 'n', 't', 'e', 'n', 't', '-', 'l', 'e', 'n', 'g', 't', 'h'].map byte

def transferEncodingWord : Bytes :=
  ['t', 'r', 'a', 'n', 's', 'f', 'e', 'r', '-', 'e', 'n', 'c', 'o', 'd', 'i', 'n', 'g'].map byte

def upgradeWord : Bytes := ['u', 'p', 'g', 'r', 'a', 'd', 'e'].map byte

def chunkedWord : Bytes := ['c', 'h', 'u', 'n', 'k', 'e', 'd'].map byte

def keepAliveWord : Bytes := ['k', 'e', 'e', 'p', '-', 'a', 'l', 'i', 'v', 'e'].map byte

def closeWord : Bytes := ['c', 'l', 'o', 's', 'e'].map byte

namespace HttpParser

/-- One more byte of a word that is being matched: the word is `found` at its last byte. -/
def matchWord (word : Bytes) (found miss : HeaderStates) (c : UInt8) (parser : HttpParser) :
    HttpParser :=
  let index := parser.index + 1
  -- Behind the word stands the zero that ends the literal.
  let headerState :=
    if word.length < index ∨ c ≠ word.getD index 0 then miss
    else if index = word.length - 1 then found
    else parser.headerState
  { parser with index, headerState }

/-- The state in which the first byte of a header name leaves the matcher. -/
def firstFieldByte (c : UInt8) : HeaderStates :=
  if c = byte 'c' then .c
  else if c = byte 'p' then .matchingProxyConnection
  else if c = byte 't' then .matchingTransferEncoding
  else if c = byte 'u' then .matchingUpgrade
  else .general

/-- The body of the loop of `s_header_field`, for the byte `ch` and its token `c`. -/
def fieldByte (ch c : UInt8) (parser : HttpParser) : HttpParser :=
  match parser.headerState with
  | .general => parser
  | .c =>
    { parser with
      index := parser.index + 1
      headerState := if c = byte 'o' then .co else .general }
  | .co =>
    { parser with
      index := parser.index + 1
      headerState := if c = byte 'n' then .con else .general }
  | .con =>
    { parser with
      index := parser.index + 1
      headerState :=
        if c = byte 'n' then .matchingConnection
        else if c = byte 't' then .matchingContentLength
        else .general }
  | .matchingConnection => parser.matchWord connectionWord .connection .general c
  | .matchingProxyConnection => parser.matchWord proxyConnectionWord .connection .general c
  | .matchingContentLength => parser.matchWord contentLengthWord .contentLength .general c
  | .matchingTransferEncoding =>
    parser.matchWord transferEncodingWord .transferEncoding .general c
  | .matchingUpgrade => parser.matchWord upgradeWord .upgrade .general c
  -- The name is over, unless a letter makes it another one.
  | .connection | .contentLength | .transferEncoding | .upgrade =>
    if ch ≠ byte ' ' then { parser with headerState := .general } else parser
  | _ => parser.fail .aborted

/-- The bytes of a token at the start of the data. -/
def tokenRun (p : Bytes) : Bytes := p.takeWhile (token · ≠ 0)

/-- The loop of `s_header_field` over the bytes of a token. -/
def fieldRun (run : Bytes) (parser : HttpParser) : HttpParser :=
  run.foldl (fun parser ch => parser.fieldByte ch (token ch)) parser

/-! ## Header values -/

/-- `s_header_value_start`, from its first line to the end of the case. -/
def valueStart (ch : UInt8) (parser : HttpParser) : HttpParser :=
  let c := lower ch
  let parser := { parser with state := .headerValue, index := 0 }
  match parser.headerState with
  | .upgrade =>
    { parser with flags := { parser.flags with upgrade := true }, headerState := .general }
  | .transferEncoding =>
    { parser with
      headerState := if c = byte 'c' then .matchingTransferEncodingChunked else .general }
  | .contentLength =>
    if !CString.isDigit ch then parser.fail .invalidContentLength
    else { parser with contentLength := digit ch }
  | .connection =>
    { parser with
      headerState :=
        if c = byte 'k' then .matchingConnectionKeepAlive
        else if c = byte 'c' then .matchingConnectionClose
        else if c = byte 'u' then .matchingConnectionUpgrade
        else .matchingConnectionToken }
  | .matchingConnectionTokenStart => parser
  | _ => { parser with headerState := .general }

/-- A member of a `Connection` header is complete, at a comma or at the end of the value. -/
def connectionFlag (parser : HttpParser) : HttpParser :=
  match parser.headerState with
  | .connectionKeepAlive =>
    { parser with flags := { parser.flags with connectionKeepAlive := true } }
  | .connectionClose => { parser with flags := { parser.flags with connectionClose := true } }
  | .connectionUpgrade =>
    { parser with flags := { parser.flags with connectionUpgrade := true } }
  | _ => parser

/-- The body of the loop of `s_header_value`, for a byte that does not end the line. -/
def valueByte (ch : UInt8) (parser : HttpParser) : HttpParser :=
  let c := lower ch
  match parser.headerState with
  | .connection | .transferEncoding => parser.fail .aborted
  | .contentLength =>
    if ch = byte ' ' then parser
    else if !CString.isDigit ch then parser.fail .invalidContentLength
    -- The source multiplies first, but stores the product only behind this test.
    else if (ullongMax - 10) / 10 < parser.contentLength then parser.fail .invalidContentLength
    else { parser with contentLength := parser.contentLength * 10 + digit ch }
  | .matchingTransferEncodingChunked =>
    parser.matchWord chunkedWord .transferEncodingChunked .general c
  | .matchingConnectionTokenStart =>
    { parser with
      headerState :=
        if c = byte 'k' then .matchingConnectionKeepAlive
        else if c = byte 'c' then .matchingConnectionClose
        else if c = byte 'u' then .matchingConnectionUpgrade
        else if token c ≠ 0 then .matchingConnectionToken
        else if c = byte ' ' ∨ c = 9 then .matchingConnectionTokenStart
        else .general }
  | .matchingConnectionKeepAlive =>
    parser.matchWord keepAliveWord .connectionKeepAlive .matchingConnectionToken c
  | .matchingConnectionClose =>
    parser.matchWord closeWord .connectionClose .matchingConnectionToken c
  | .matchingConnectionUpgrade =>
    parser.matchWord upgradeWord .connectionUpgrade .matchingConnectionToken c
  | .matchingConnectionToken =>
    if ch = byte ',' then
      { parser with headerState := .matchingConnectionTokenStart, index := 0 }
    else
      parser
  | .transferEncodingChunked =>
    if ch ≠ byte ' ' then { parser with headerState := .general } else parser
  | .connectionKeepAlive | .connectionClose | .connectionUpgrade =>
    if ch = byte ',' then
      { parser.connectionFlag with headerState := .matchingConnectionTokenStart, index := 0 }
    else if ch ≠ byte ' ' then
      { parser with headerState := .matchingConnectionToken }
    else
      parser
  | _ => { parser with state := .headerValue, headerState := .general }

/-- The byte ends a line. -/
def isEol (ch : UInt8) : Bool := ch = cr || ch = lf

/-- How far `memchr` takes the loop of `s_header_value` when the value does not matter. It looks
    at `max` bytes; when no line ends among them, all of the data is passed. -/
def generalRun (max : ℕ) (p : Bytes) : ℕ :=
  let run := (p.take max).takeWhile (!isEol ·)
  if run.length < (p.take max).length then run.length else p.length

/-- The loop of `s_header_value`: how many bytes it passes before the end of the line, the end of
    the data or an error. -/
def valueRun (max : ℕ) : Bytes → HttpParser → ℕ × HttpParser
  | [], parser => (0, parser)
  | ch :: rest, parser =>
    if isEol ch then (0, parser)
    -- From here on `memchr` looks for the end of the line.
    else if parser.headerState = .general then (generalRun max (ch :: rest), parser)
    else
      let parser := parser.valueByte ch
      if parser.httpErrno ≠ .ok then (0, parser)
      else
        let r := valueRun max rest parser
        (r.1 + 1, r.2)

/-- The flags that a finished header sets. -/
def finishHeader (parser : HttpParser) : HttpParser :=
  match parser.headerState with
  | .transferEncodingChunked => { parser with flags := { parser.flags with chunked := true } }
  | _ => parser.connectionFlag

end HttpParser

/-! ## The cases that make callbacks -/

section Cases

variable {σ : Type*} (S : HttpParserSettings σ)

/-- `COUNT_HEADER_SIZE` before the rest of a case that has passed `k` bytes. -/
def count (v : ℤ) (k : ℤ) (case : Exec σ → Step σ) (e : Exec σ) : Step σ :=
  let e := e.onParser (·.countHeaderSize S.maxHeaderSize v)
  if e.parser.httpErrno ≠ .ok then .stop k false e else case e

/-- The head of the loop, before a case. -/
def loopHead (case : Exec σ → Step σ) (e : Exec σ) : Step σ :=
  if e.parser.state.parsingHeader then count S 1 0 case e else case e

/-- The cases without a callback. -/
def plain (ch : UInt8) (e : Exec σ) : Step σ :=
  ((e.markLine ch).onParser (·.plainCase ch)).endCase

/-- `CALLBACK_NOTIFY (message_complete)`, before the rest of a case. -/
def notifyComplete (case : Exec σ → Step σ) : Exec σ → Step σ :=
  Exec.callback fun e => case (e.messageComplete S)

/-- `s_headers_done`. -/
def headersDone (ch : UInt8) (e : Exec σ) : Step σ :=
  if ch ≠ lf then .stop 0 false (e.onParser (·.fail .strict))
  else
    let e := e.onParser (·.withNread 0)
    if e.parser.upgrade then notifyComplete S (.stop 1 true) e
    -- The length that a header may have given is ignored.
    else if e.parser.flags.chunked then .next 0 (e.onParser (·.goto .chunkSizeStart))
    else if e.parser.contentLength = 0 then notifyComplete S (.next 0) e
    else if e.parser.contentLength ≠ ullongMax then .next 0 (e.onParser (·.goto .bodyIdentity))
    else if e.parser.type = .request ∨ !e.parser.messageNeedsEof then
      notifyComplete S (.next 0) e
    else .next 0 (e.onParser (·.goto .bodyIdentityEof))

/-- `s_headers_almost_done`. -/
def headersAlmostDone (ch : UInt8) (e : Exec σ) : Step σ :=
  if ch ≠ lf then .stop 0 false (e.onParser (·.fail .strict))
  else if e.parser.flags.trailing then notifyComplete S (.next 0) e
  else
    let upgrade :=
      (e.parser.flags.upgrade && e.parser.flags.connectionUpgrade) ||
        decide (e.parser.method = .connect)
    loopHead S (headersDone S ch)
      (e.onParser fun parser => { parser with state := .headersDone, upgrade })

/-- `s_header_field_start`. -/
def headerFieldStart (ch : UInt8) (e : Exec σ) : Step σ :=
  if ch = cr then .next 0 (e.onParser (·.goto .headersAlmostDone))
  else if ch = lf then
    loopHead S (headersAlmostDone S ch) (e.onParser (·.goto .headersAlmostDone))
  else if token ch = 0 then .stop 0 false (e.onParser (·.fail .invalidHeaderToken))
  else
    .next 0 <| e.markHeaderField.onParser fun parser =>
      { parser with
        index := 0
        state := .headerField
        headerState := HttpParser.firstFieldByte (token ch) }

/-- The end of the loop of `s_header_field` over `run`, before the data `p`. -/
def fieldEnd (run p : Bytes) (e : Exec σ) : Step σ :=
  match p with
  -- The pointer steps back from the end of the data.
  | [] => .next (run.length - 1) e
  | c :: _ =>
    if c = byte ':' then
      Exec.callback (fun e => .next run.length (e.dataHeaderField S run))
        (e.onParser (·.goto .headerValueDiscardWs))
    else
      .stop run.length false (e.onParser (·.fail .invalidHeaderToken))

/-- `s_header_field`, with the data from the byte at hand on. -/
def headerFieldCase (p : Bytes) (e : Exec σ) : Step σ :=
  let run := HttpParser.tokenRun p
  count S run.length run.length (fieldEnd S run (p.drop run.length))
    (e.onParser (·.fieldRun run))

/-- `s_header_value_start`. -/
def headerValueStart (ch : UInt8) (e : Exec σ) : Step σ :=
  (e.markHeaderValue.onParser (·.valueStart ch)).endCase

/-- `s_header_value_discard_ws`. -/
def headerValueDiscardWs (ch : UInt8) (e : Exec σ) : Step σ :=
  if ch = byte ' ' ∨ ch = 9 then .next 0 e
  else if ch = cr then .next 0 (e.onParser (·.goto .headerValueDiscardWsAlmostDone))
  else if ch = lf then .next 0 (e.onParser (·.goto .headerValueDiscardLws))
  else headerValueStart ch e

/-- `s_header_value` at the `CR` after a part of a value. -/
def valueCr (passed : Bytes) (e : Exec σ) : Step σ :=
  Exec.callback (fun e =>
      count S passed.length passed.length (.next passed.length) (e.dataHeaderValue S passed))
    (e.onParser (·.goto .headerAlmostDone))

/-- `s_header_value` at the `LF` after a part of a value. The state of the matcher is stored after
    the first count, and the line end is stepped back over before the second. -/
def valueLf (matched : HeaderStates) (passed : Bytes) (e : Exec σ) : Step σ :=
  count S passed.length passed.length
    (fun e =>
      Exec.callback (fun e =>
          count S (passed.length - 1) (passed.length - 1)
            (fun e => (loopHead S (plain lf) e).after passed.length) (e.dataHeaderValue S passed))
        (e.onParser fun parser => { parser with headerState := matched }))
    (e.onParser (·.goto .headerAlmostDone))

/-- The end of the loop of `s_header_value` after `k` bytes of the data `p`, where it leaves
    `parser`. -/
def valueEnd (p : Bytes) (k : ℕ) (parser : HttpParser) (e : Exec σ) : Step σ :=
  if parser.httpErrno ≠ .ok then .stop k false (e.onParser fun _ => parser)
  else
    match p.drop k with
    | [] => count S k k (.next (k - 1)) (e.onParser fun _ => parser)
    | c :: _ =>
      if c = cr then valueCr S (p.take k) (e.onParser fun _ => parser)
      else
        valueLf S parser.headerState (p.take k)
          (e.onParser fun before => { parser with headerState := before.headerState })

/-- `s_header_value`, with the data from the byte at hand on. -/
def headerValueCase (p : Bytes) (e : Exec σ) : Step σ :=
  let r := e.parser.valueRun S.maxHeaderSize p
  valueEnd S p r.1 r.2 e

/-- `s_header_value_lws`. -/
def headerValueLws (ch : UInt8) (e : Exec σ) : Step σ :=
  if ch = byte ' ' ∨ ch = 9 then
    loopHead S (headerValueStart ch) (e.onParser (·.goto .headerValueStart))
  else
    loopHead S (headerFieldStart S ch)
      (e.onParser fun parser => parser.finishHeader.goto .headerFieldStart)

/-- `s_header_value_discard_lws`. -/
def headerValueDiscardLws (ch : UInt8) (e : Exec σ) : Step σ :=
  if ch = byte ' ' ∨ ch = 9 then .next 0 (e.onParser (·.goto .headerValueDiscardWs))
  else
    -- The value is empty.
    let e := (e.onParser fun parser => parser.finishHeader.goto .headerFieldStart).markHeaderValue
    Exec.callback (fun e => loopHead S (headerFieldStart S ch) (e.dataHeaderValue S [])) e

/-- `s_message_done`. -/
def messageDone (e : Exec σ) : Step σ := notifyComplete S (.next 0) e

/-- What `s_body_identity` and `s_chunk_data` do first: take the body, up to its end or to the end
    of the data. -/
def takeBody (toRead : ℕ) (e : Exec σ) : Exec σ :=
  e.markBody.onParser fun parser => { parser with contentLength := parser.contentLength - toRead }

/-- `s_body_identity`. The last byte of the body is read a second time, in `s_message_done`. -/
def bodyIdentity (p : Bytes) (e : Exec σ) : Step σ :=
  if ¬(e.parser.contentLength ≠ 0 ∧ e.parser.contentLength ≠ ullongMax) then
    .stop 0 false (e.onParser (·.fail .aborted))
  else
    let toRead := min e.parser.contentLength p.length
    let e := takeBody toRead e
    if e.parser.contentLength = 0 then
      Exec.callback (fun e =>
          (messageDone S (e.dataBody S (p.take toRead))).after (toRead - 1))
        (e.onParser (·.goto .messageDone))
    else
      .next (toRead - 1) e

/-- `s_body_identity_eof`. -/
def bodyIdentityEof (p : Bytes) (e : Exec σ) : Step σ := .next (p.length - 1) e.markBody

/-- `s_chunk_data`. -/
def chunkData (p : Bytes) (e : Exec σ) : Step σ :=
  if ¬(e.parser.flags.chunked ∧ e.parser.contentLength ≠ 0 ∧
      e.parser.contentLength ≠ ullongMax) then
    .stop 0 false (e.onParser (·.fail .aborted))
  else
    let toRead := min e.parser.contentLength p.length
    let e := takeBody toRead e
    if e.parser.contentLength = 0 then
      -- The end of the chunk is told with the end of its line.
      .next (toRead - 1) (e.onParser (·.goto .chunkDataAlmostDone))
    else
      .next (toRead - 1) e

/-- `s_chunk_data_almost_done`. -/
def chunkDataAlmostDone (ch : UInt8) (e : Exec σ) : Step σ :=
  if ¬(e.parser.flags.chunked ∧ e.parser.contentLength = 0) then
    .stop 0 false (e.onParser (·.fail .aborted))
  else if ch ≠ cr then .stop 0 false (e.onParser (·.fail .strict))
  else Exec.callback (fun e => .next 0 (e.dataBody S [])) (e.onParser (·.goto .chunkDataDone))

/-- `s_start_req_or_res`. -/
def startReqOrRes (ch : UInt8) (e : Exec σ) : Step σ :=
  if ch = cr ∨ ch = lf then .next 0 e
  else
    let e := e.onParser (·.beginMessage)
    if ch = byte 'H' then (e.onParser fun parser => (parser.goto .resOrRespH).assertOk).endCase
    else
      loopHead S (plain ch)
        (e.onParser fun parser => { parser with type := .request, state := .startReq })

/-- The switch of `http_parser_execute`, with the data from the byte `ch` on. -/
def switch (ch : UInt8) (rest : Bytes) (e : Exec σ) : Step σ :=
  match e.parser.state with
  | .startReqOrRes => startReqOrRes S ch e
  | .headerFieldStart => headerFieldStart S ch e
  | .headerField => headerFieldCase S (ch :: rest) e
  | .headerValueDiscardWs => headerValueDiscardWs ch e
  | .headerValueStart => headerValueStart ch e
  | .headerValue => headerValueCase S (ch :: rest) e
  | .headerValueLws => headerValueLws S ch e
  | .headerValueDiscardLws => headerValueDiscardLws S ch e
  | .headersAlmostDone => headersAlmostDone S ch e
  | .headersDone => headersDone S ch e
  | .bodyIdentity => bodyIdentity S (ch :: rest) e
  | .bodyIdentityEof => bodyIdentityEof (ch :: rest) e
  | .messageDone => messageDone S e
  | .chunkData => chunkData (ch :: rest) e
  | .chunkDataAlmostDone => chunkDataAlmostDone S ch e
  | _ => plain ch e

end Cases

/-! ## The loop -/

/-- What `http_parser_execute` leaves: the number of bytes it returns, the parser and what the
    callbacks worked on. `upgrade` tells that it returned after a message that changes the
    protocol. The number is a difference of pointers that the source returns as a `size_t`. -/
structure Executed (σ : Type*) where
  parsed : ℤ
  parser : HttpParser
  user : σ
  upgrade : Bool

/-- What is left when `k` bytes were read before. -/
def Executed.after {σ : Type*} (k : ℤ) (r : Executed σ) : Executed σ :=
  { r with parsed := k + r.parsed }

section Loop

variable {σ : Type*} (S : HttpParserSettings σ)

/-- The marks that are set when the data begins in the middle of a text. -/
def Exec.begin (parser : HttpParser) (user : σ) : Exec σ where
  parser := parser
  user := user
  headerFieldMark := if parser.state = .headerField then some [] else none
  headerValueMark := if parser.state = .headerValue then some [] else none
  bodyMark := none
  urlMark := parser.state.inUrl
  statusMark := decide (parser.state = .resStatus)

/-- The callbacks for the marks that are left at the end of the data, at most one of them, with
    their assertions. -/
def Exec.flush (e : Exec σ) : Exec σ :=
  let marks := [e.headerFieldMark.isSome, e.headerValueMark.isSome, e.urlMark,
    e.bodyMark.isSome, e.statusMark].count true
  if 1 < marks ∨ e.parser.httpErrno ≠ .ok then e.onParser (·.fail .aborted)
  else ((e.dataHeaderField S []).dataHeaderValue S []).dataBody S []

/-- The loop of `http_parser_execute`, which goes on after the next `more` bytes. -/
def execLoop : Bytes → ℕ → Exec σ → Executed σ
  | [], _, e =>
    let e := e.flush S
    ⟨0, e.parser, e.user, false⟩
  -- The last case has read this byte.
  | _ :: rest, more + 1, e => (execLoop rest more e).after 1
  | ch :: rest, 0, e =>
    match loopHead S (switch S ch rest) e with
    | .next more e => (execLoop rest more (e.advance (ch :: rest.take more))).after 1
    | .stop parsed upgrade e => ⟨parsed, e.parser, e.user, upgrade⟩

/-- `http_parser_execute` without data, at the end of the connection. -/
def executeEnd (parser : HttpParser) (user : σ) : Executed σ :=
  match parser.state with
  | .bodyIdentityEof =>
    let after := S.onMessageComplete parser user
    ⟨0, after.1, after.2, false⟩
  | .dead | .startReqOrRes | .startRes | .startReq => ⟨0, parser, user, false⟩
  | _ => ⟨1, parser.fail .invalidEofState, user, false⟩

/-- `http_parser_execute`. -/
def HttpParser.execute (data : Bytes) (parser : HttpParser) (user : σ) : Executed σ :=
  if parser.httpErrno ≠ .ok then ⟨0, parser, user, false⟩
  else if data = [] then executeEnd S parser user
  else execLoop S data 0 (.begin parser user)

/-- The reads of a connection one after the other, as `socket_readable` makes them: it goes on when
    the length of what it read is returned. `upgrade` tells of any of them. -/
def HttpParser.executeAll : List Bytes → HttpParser → σ → Executed σ
  | [], parser, user => ⟨0, parser, user, false⟩
  | data :: reads, parser, user =>
    let r := parser.execute S data user
    if r.parsed = data.length then
      let next := executeAll reads r.parser r.user
      ⟨r.parsed + next.parsed, next.parser, next.user, r.upgrade || next.upgrade⟩
    else r

end Loop

/-! ## Settings -/

/-- `HTTP_MAX_HEADER_SIZE`. -/
def httpMaxHeaderSize : ℕ := 80 * 1024

/-- The settings of `script_verify_request`: `verify_request` counts the messages. -/
def verifySettings : HttpParserSettings ℕ where
  maxHeaderSize := httpMaxHeaderSize
  onHeaderField _ count := count
  onHeaderValue _ count := count
  onBody _ count := count
  onMessageComplete parser count := (parser, count + 1)

end Wrkx
