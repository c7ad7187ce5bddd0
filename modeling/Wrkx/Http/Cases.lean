import Wrkx.Base.Word
import Wrkx.Http.Parser

/-!
# The cases of `http_parser_execute`

The macros of `http_parser.c` and the cases of its switch that read one byte and change
nothing but the parser: the first line of a message and the lines between chunks.

## Design notes

A mark is kept as the text from it on up to the byte at hand, which is all that a callback
gets of it. `p_state` and `parser->state` are one field, since the only callback before which
they differ is `on_headers_complete`. That one, `on_message_begin`, `on_url` and `on_status`
are never installed by this program, and the callbacks that it does install return zero. What
the macros for the others still do is their assertion, and to clear the mark.
-/

namespace Wrkx

/-- The callbacks of `http_parser_settings` that this program installs, with the
    `HTTP_MAX_HEADER_SIZE` of the build. -/
structure HttpParserSettings (σ : Type*) where
  maxHeaderSize : ℕ
  onHeaderField : Bytes → σ → σ
  onHeaderValue : Bytes → σ → σ
  onBody : Bytes → σ → σ
  onMessageComplete : HttpParser → σ → HttpParser × σ

/-- The local variables of `http_parser_execute`, and what the callbacks work on. The texts of
    an URL and of a status go nowhere. -/
structure Exec (σ : Type*) where
  parser : HttpParser
  user : σ
  headerFieldMark : Option Bytes
  headerValueMark : Option Bytes
  bodyMark : Option Bytes
  urlMark : Bool
  statusMark : Bool

/-- How a case ends: at the next byte, after some more that it has read, or with a `return` of
    the difference between two pointers. `upgrade` tells the return after a message that changes
    the protocol from an error. -/
inductive Step (σ : Type*)
  | next (more : ℕ) (e : Exec σ)
  | stop (parsed : ℤ) (upgrade : Bool) (e : Exec σ)

/-! ## The macros -/

namespace HttpParser

/-- `UPDATE_STATE`. -/
def goto (s : State) (parser : HttpParser) : HttpParser := { parser with state := s }

/-- `SET_ERRNO` before `goto error`, or an `assert` that fails. -/
def fail (e : HttpErrno) (parser : HttpParser) : HttpParser := { parser with httpErrno := e }

/-- `assert (HTTP_PARSER_ERRNO (parser) == HPE_OK)`, with which every macro for a callback
    begins. -/
def assertOk (parser : HttpParser) : HttpParser :=
  if parser.httpErrno = .ok then parser else parser.fail .aborted

/-- `COUNT_HEADER_SIZE`, in an `uint32_t`. -/
def countHeaderSize (max : ℕ) (v : ℤ) (parser : HttpParser) : HttpParser :=
  let nread := ((parser.nread + v) % 2 ^ 32).toNat
  if parser.httpErrno = .ok ∧ max < nread then
    { parser with nread, httpErrno := .headerOverflow }
  else
    { parser with nread }

/-- `nread = n`. -/
def withNread (n : ℕ) (parser : HttpParser) : HttpParser := { parser with nread := n }

/-- A case that lets one byte through, `STRICT_CHECK (ch != c)`. -/
def strictByte (c : UInt8) (s : State) (ch : UInt8) (parser : HttpParser) : HttpParser :=
  if ch = c then parser.goto s else parser.fail .strict

end HttpParser

namespace Exec

variable {σ : Type*} (S : HttpParserSettings σ)

def onParser (f : HttpParser → HttpParser) (e : Exec σ) : Exec σ :=
  { e with parser := f e.parser }

/-- `MARK (header_field)`. -/
def markHeaderField (e : Exec σ) : Exec σ :=
  { e with headerFieldMark := e.headerFieldMark.or (some []) }

/-- `MARK (header_value)`. -/
def markHeaderValue (e : Exec σ) : Exec σ :=
  { e with headerValueMark := e.headerValueMark.or (some []) }

/-- `MARK (body)`. -/
def markBody (e : Exec σ) : Exec σ := { e with bodyMark := e.bodyMark.or (some []) }

/-- The pointer moves on over some bytes. -/
def advance (passed : Bytes) (e : Exec σ) : Exec σ :=
  { e with
    headerFieldMark := e.headerFieldMark.map (· ++ passed)
    headerValueMark := e.headerValueMark.map (· ++ passed)
    bodyMark := e.bodyMark.map (· ++ passed) }

/-- The marks of the URL and of the status, in a case that reads one byte. -/
def markLine (ch : UInt8) (e : Exec σ) : Exec σ :=
  match e.parser.state with
  | .reqSpacesBeforeUrl => if ch = byte ' ' then e else { e with urlMark := true }
  | .reqServer | .reqServerWithAt | .reqPath | .reqQueryStringStart | .reqQueryString
  | .reqFragmentStart | .reqFragment =>
    if ch = byte ' ' ∨ ch = cr ∨ ch = lf then { e with urlMark := false } else e
  | .resStatusStart => if ch = cr ∨ ch = lf then e else { e with statusMark := true }
  | .resStatus => if ch = cr ∨ ch = lf then { e with statusMark := false } else e
  | _ => e

/-- The assertion of a macro for a callback, before the rest of the case. -/
def callback (case : Exec σ → Step σ) (e : Exec σ) : Step σ :=
  if e.parser.httpErrno = .ok then case e else .stop 0 false (e.onParser (·.fail .aborted))

/-- `CALLBACK_DATA (header_field)` behind its assertion, when the case has passed some bytes. -/
def dataHeaderField (passed : Bytes) (e : Exec σ) : Exec σ :=
  match e.headerFieldMark with
  | none => e
  | some text => { e with user := S.onHeaderField (text ++ passed) e.user, headerFieldMark := none }

/-- `CALLBACK_DATA (header_value)` behind its assertion. -/
def dataHeaderValue (passed : Bytes) (e : Exec σ) : Exec σ :=
  match e.headerValueMark with
  | none => e
  | some text => { e with user := S.onHeaderValue (text ++ passed) e.user, headerValueMark := none }

/-- `CALLBACK_DATA (body)` behind its assertion. -/
def dataBody (passed : Bytes) (e : Exec σ) : Exec σ :=
  match e.bodyMark with
  | none => e
  | some text => { e with user := S.onBody (text ++ passed) e.user, bodyMark := none }

/-- `UPDATE_STATE (NEW_MESSAGE ())` and `CALLBACK_NOTIFY (message_complete)` behind its
    assertion. -/
def messageComplete (e : Exec σ) : Exec σ :=
  let after := S.onMessageComplete (e.parser.goto e.parser.newMessage) e.user
  { e with parser := after.1, user := after.2 }

/-- The end of a case of one byte: `goto error` if an error is set. -/
def endCase (e : Exec σ) : Step σ :=
  if e.parser.httpErrno = .ok then .next 0 e else .stop 0 false e

end Exec

/-- A case that begins after `k` more bytes. -/
def Step.after {σ : Type*} (k : ℕ) : Step σ → Step σ
  | .next more e => .next (k + more) e
  | .stop parsed upgrade e => .stop (k + parsed) upgrade e

/-! ## Cases that change the parser only -/

namespace HttpParser

/-- The value of a digit. -/
def digit (ch : UInt8) : ℕ := ch.toNat - 48

/-- `s_res_first_http_major`. -/
def resFirstHttpMajor (ch : UInt8) (parser : HttpParser) : HttpParser :=
  if CString.isDigit ch then { parser with httpMajor := digit ch, state := .resHttpMajor }
  else parser.fail .invalidVersion

/-- `s_req_first_http_major`, which wants a digit other than `0`. -/
def reqFirstHttpMajor (ch : UInt8) (parser : HttpParser) : HttpParser :=
  if CString.isDigit ch ∧ ch ≠ byte '0' then
    { parser with httpMajor := digit ch, state := .reqHttpMajor }
  else
    parser.fail .invalidVersion

/-- `s_res_http_major` and `s_req_http_major`. -/
def httpMajorByte (dot : State) (ch : UInt8) (parser : HttpParser) : HttpParser :=
  if ch = byte '.' then parser.goto dot
  else if !CString.isDigit ch then parser.fail .invalidVersion
  else
    let parser := { parser with httpMajor := parser.httpMajor * 10 + digit ch }
    if 999 < parser.httpMajor then parser.fail .invalidVersion else parser

/-- `s_res_first_http_minor` and `s_req_first_http_minor`. -/
def firstHttpMinor (rest : State) (ch : UInt8) (parser : HttpParser) : HttpParser :=
  if CString.isDigit ch then { parser with httpMinor := digit ch, state := rest }
  else parser.fail .invalidVersion

/-- A digit of the minor version after the first. -/
def httpMinorDigit (ch : UInt8) (parser : HttpParser) : HttpParser :=
  if !CString.isDigit ch then parser.fail .invalidVersion
  else
    let parser := { parser with httpMinor := parser.httpMinor * 10 + digit ch }
    if 999 < parser.httpMinor then parser.fail .invalidVersion else parser

/-- `s_res_http_minor`. -/
def resHttpMinor (ch : UInt8) (parser : HttpParser) : HttpParser :=
  if ch = byte ' ' then parser.goto .resFirstStatusCode else parser.httpMinorDigit ch

/-- `s_req_http_minor`. -/
def reqHttpMinor (ch : UInt8) (parser : HttpParser) : HttpParser :=
  if ch = cr then parser.goto .reqLineAlmostDone
  else if ch = lf then parser.goto .headerFieldStart
  else parser.httpMinorDigit ch

/-- `s_res_first_status_code`. -/
def resFirstStatusCode (ch : UInt8) (parser : HttpParser) : HttpParser :=
  if CString.isDigit ch then { parser with statusCode := digit ch, state := .resStatusCode }
  else if ch = byte ' ' then parser
  else parser.fail .invalidStatus

/-- `s_res_status_code`. -/
def resStatusCode (ch : UInt8) (parser : HttpParser) : HttpParser :=
  if !CString.isDigit ch then
    if ch = byte ' ' then parser.goto .resStatusStart
    else if ch = cr then parser.goto .resLineAlmostDone
    else if ch = lf then parser.goto .headerFieldStart
    else parser.fail .invalidStatus
  else
    let parser := { parser with statusCode := parser.statusCode * 10 + digit ch }
    if 999 < parser.statusCode then parser.fail .invalidStatus else parser

/-- `s_res_status_start`. -/
def resStatusStart (ch : UInt8) (parser : HttpParser) : HttpParser :=
  if ch = cr then parser.goto .resLineAlmostDone
  else if ch = lf then parser.goto .headerFieldStart
  else { parser with state := .resStatus, index := 0 }

/-- `s_res_status`. -/
def resStatus (ch : UInt8) (parser : HttpParser) : HttpParser :=
  if ch = cr then (parser.goto .resLineAlmostDone).assertOk
  else if ch = lf then (parser.goto .headerFieldStart).assertOk
  else parser

/-- `flags = 0; content_length = ULLONG_MAX`. -/
def beginMessage (parser : HttpParser) : HttpParser :=
  { parser with flags := .none, contentLength := ullongMax }

/-- `s_start_res`. -/
def startRes (ch : UInt8) (parser : HttpParser) : HttpParser :=
  let parser := parser.beginMessage
  if ch = byte 'H' then (parser.goto .resH).assertOk
  else if ch = cr ∨ ch = lf then parser.assertOk
  else parser.fail .invalidConstant

/-- The method that the first letter of a request stands for, until the second one. -/
def firstMethod (ch : UInt8) : Option HttpMethod :=
  if ch = byte 'C' then some .connect
  else if ch = byte 'D' then some .delete
  else if ch = byte 'G' then some .get
  else if ch = byte 'H' then some .head
  else if ch = byte 'L' then some .lock
  else if ch = byte 'M' then some .mkcol
  else if ch = byte 'N' then some .notify
  else if ch = byte 'O' then some .options
  else if ch = byte 'P' then some .post
  else if ch = byte 'R' then some .report
  else if ch = byte 'S' then some .subscribe
  else if ch = byte 'T' then some .trace
  else if ch = byte 'U' then some .unlock
  else none

/-- `s_start_req`. -/
def startReq (ch : UInt8) (parser : HttpParser) : HttpParser :=
  if ch = cr ∨ ch = lf then parser
  else
    let parser := parser.beginMessage
    if !isLetter ch then parser.fail .invalidMethod
    else
      match firstMethod ch with
      | none => { parser with method := .delete, index := 1 }.fail .invalidMethod
      | some method => { parser with method, index := 1, state := .reqMethod }.assertOk

/-- The method that the byte `ch` changes the current one to, after `index` bytes. -/
def changeMethod (method : HttpMethod) (index : ℕ) (ch : UInt8) : Option HttpMethod :=
  if method = .connect then
    if index = 1 ∧ ch = byte 'H' then some .checkout
    else if index = 2 ∧ ch = byte 'P' then some .copy
    else none
  else if method = .mkcol then
    if index = 1 ∧ ch = byte 'O' then some .move
    else if index = 1 ∧ ch = byte 'E' then some .merge
    else if index = 1 ∧ ch = byte '-' then some .msearch
    else if index = 2 ∧ ch = byte 'A' then some .mkactivity
    else if index = 3 ∧ ch = byte 'A' then some .mkcalendar
    else none
  else if method = .subscribe then
    if index = 1 ∧ ch = byte 'E' then some .search else none
  else if index = 1 ∧ method = .post then
    if ch = byte 'R' then some .propfind
    else if ch = byte 'U' then some .put
    else if ch = byte 'A' then some .patch
    else none
  else if index = 2 then
    if method = .put then
      if ch = byte 'R' then some .purge else none
    else if method = .unlock then
      if ch = byte 'S' then some .unsubscribe else none
    else none
  else if index = 4 ∧ method = .propfind ∧ ch = byte 'P' then some .proppatch
  else none

/-- `s_req_method`. -/
def reqMethod (ch : UInt8) (parser : HttpParser) : HttpParser :=
  let c := parser.method.string.getD parser.index 0
  -- `c` is zero behind the last letter of the method.
  if ch = 0 then parser.fail .invalidMethod
  else if ch = byte ' ' ∧ c = 0 then
    { parser with state := .reqSpacesBeforeUrl, index := parser.index + 1 }
  else if ch = c then { parser with index := parser.index + 1 }
  else
    match changeMethod parser.method parser.index ch with
    | none => parser.fail .invalidMethod
    | some method => { parser with method, index := parser.index + 1 }

end HttpParser

/-- `parse_url_char`. -/
def parseUrlChar (s : State) (ch : UInt8) : State :=
  if ch = byte ' ' ∨ ch = cr ∨ ch = lf ∨ ch = 9 ∨ ch = 12 then .dead
  else
    match s with
    | .reqSpacesBeforeUrl =>
      if ch = byte '/' ∨ ch = byte '*' then .reqPath
      else if isLetter ch then .reqSchema
      else .dead
    | .reqSchema =>
      if isLetter ch then .reqSchema
      else if ch = byte ':' then .reqSchemaSlash
      else .dead
    | .reqSchemaSlash => if ch = byte '/' then .reqSchemaSlashSlash else .dead
    | .reqSchemaSlashSlash => if ch = byte '/' then .reqServerStart else .dead
    | .reqServerWithAt | .reqServerStart | .reqServer =>
      -- The three cases fall through to the last of them.
      if s = .reqServerWithAt ∧ ch = byte '@' then .dead
      else if ch = byte '/' then .reqPath
      else if ch = byte '?' then .reqQueryStringStart
      else if ch = byte '@' then .reqServerWithAt
      else if isUserinfoChar ch ∨ ch = byte '[' ∨ ch = byte ']' then .reqServer
      else .dead
    | .reqPath =>
      if isUrlChar ch then .reqPath
      else if ch = byte '?' then .reqQueryStringStart
      else if ch = byte '#' then .reqFragmentStart
      else .dead
    | .reqQueryStringStart | .reqQueryString =>
      if isUrlChar ch then .reqQueryString
      else if ch = byte '?' then .reqQueryString
      else if ch = byte '#' then .reqFragmentStart
      else .dead
    | .reqFragmentStart =>
      if isUrlChar ch then .reqFragment
      else if ch = byte '?' then .reqFragment
      else if ch = byte '#' then .reqFragmentStart
      else .dead
    | .reqFragment =>
      if isUrlChar ch ∨ ch = byte '?' ∨ ch = byte '#' then .reqFragment else .dead
    | _ => .dead

namespace HttpParser

/-- A byte of an URL. -/
def urlByte (ch : UInt8) (parser : HttpParser) : HttpParser :=
  let parser := parser.goto (parseUrlChar parser.state ch)
  if parser.state = .dead then parser.fail .invalidUrl else parser

/-- `s_req_spaces_before_url`. -/
def reqSpacesBeforeUrl (ch : UInt8) (parser : HttpParser) : HttpParser :=
  if ch = byte ' ' then parser
  -- `CONNECT` is followed by an authority.
  else if parser.method = .connect then (parser.goto .reqServerStart).urlByte ch
  else parser.urlByte ch

/-- The cases from `s_req_schema` to `s_req_server_start`. -/
def reqSchema (ch : UInt8) (parser : HttpParser) : HttpParser :=
  if ch = byte ' ' ∨ ch = cr ∨ ch = lf then parser.fail .invalidUrl else parser.urlByte ch

/-- The cases from `s_req_server` to `s_req_fragment`. -/
def reqUrl (ch : UInt8) (parser : HttpParser) : HttpParser :=
  if ch = byte ' ' then (parser.goto .reqHttpStart).assertOk
  else if ch = cr then
    { parser with httpMajor := 0, httpMinor := 9, state := .reqLineAlmostDone }.assertOk
  else if ch = lf then
    { parser with httpMajor := 0, httpMinor := 9, state := .headerFieldStart }.assertOk
  else parser.urlByte ch

/-- `s_req_http_start`. -/
def reqHttpStart (ch : UInt8) (parser : HttpParser) : HttpParser :=
  if ch = byte 'H' then parser.goto .reqHttpH
  else if ch = byte ' ' then parser
  else parser.fail .invalidConstant

/-- `s_chunk_size_start`. -/
def chunkSizeStart (ch : UInt8) (parser : HttpParser) : HttpParser :=
  if ¬(parser.nread = 1 ∧ parser.flags.chunked) then parser.fail .aborted
  else
    match unhex ch with
    | none => parser.fail .invalidChunkSize
    | some v => { parser with contentLength := v, state := .chunkSize }

/-- `s_chunk_size`. -/
def chunkSize (ch : UInt8) (parser : HttpParser) : HttpParser :=
  if !parser.flags.chunked then parser.fail .aborted
  else if ch = cr then parser.goto .chunkSizeAlmostDone
  else
    match unhex ch with
    | none =>
      if ch = byte ';' ∨ ch = byte ' ' then parser.goto .chunkParameters
      else parser.fail .invalidChunkSize
    | some v =>
      if (ullongMax - 16) / 16 < parser.contentLength then parser.fail .invalidContentLength
      else { parser with contentLength := parser.contentLength * 16 + v }

/-- `s_chunk_parameters`. -/
def chunkParameters (ch : UInt8) (parser : HttpParser) : HttpParser :=
  if !parser.flags.chunked then parser.fail .aborted
  else if ch = cr then parser.goto .chunkSizeAlmostDone
  else parser

/-- `s_chunk_size_almost_done`. The last chunk is followed by the trailing headers. -/
def chunkSizeAlmostDone (ch : UInt8) (parser : HttpParser) : HttpParser :=
  if !parser.flags.chunked then parser.fail .aborted
  else if ch ≠ lf then parser.fail .strict
  else
    let parser := parser.withNread 0
    if parser.contentLength = 0 then
      { parser with flags := { parser.flags with trailing := true }, state := .headerFieldStart }
    else
      parser.goto .chunkData

/-- `s_chunk_data_done`. -/
def chunkDataDone (ch : UInt8) (parser : HttpParser) : HttpParser :=
  if !parser.flags.chunked then parser.fail .aborted
  else if ch ≠ lf then parser.fail .strict
  else (parser.withNread 0).goto .chunkSizeStart

/-- The cases of the switch that read one byte and change the parser only. -/
def plainCase (ch : UInt8) (parser : HttpParser) : HttpParser :=
  match parser.state with
  -- After the last message of a connection only empty lines may come.
  | .dead => if ch = cr ∨ ch = lf then parser else parser.fail .closedConnection
  | .resOrRespH =>
    if ch = byte 'T' then { parser with type := .response, state := .resHT }
    else if ch ≠ byte 'E' then parser.fail .invalidConstant
    else { parser with type := .request, method := .head, index := 2, state := .reqMethod }
  | .startRes => parser.startRes ch
  | .resH => parser.strictByte (byte 'T') .resHT ch
  | .resHT => parser.strictByte (byte 'T') .resHTT ch
  | .resHTT => parser.strictByte (byte 'P') .resHTTP ch
  | .resHTTP => parser.strictByte (byte '/') .resFirstHttpMajor ch
  | .resFirstHttpMajor => parser.resFirstHttpMajor ch
  | .resHttpMajor => parser.httpMajorByte .resFirstHttpMinor ch
  | .resFirstHttpMinor => parser.firstHttpMinor .resHttpMinor ch
  | .resHttpMinor => parser.resHttpMinor ch
  | .resFirstStatusCode => parser.resFirstStatusCode ch
  | .resStatusCode => parser.resStatusCode ch
  | .resStatusStart => parser.resStatusStart ch
  | .resStatus => parser.resStatus ch
  | .resLineAlmostDone => parser.strictByte lf .headerFieldStart ch
  | .startReq => parser.startReq ch
  | .reqMethod => parser.reqMethod ch
  | .reqSpacesBeforeUrl => parser.reqSpacesBeforeUrl ch
  | .reqSchema | .reqSchemaSlash | .reqSchemaSlashSlash | .reqServerStart => parser.reqSchema ch
  | .reqServer | .reqServerWithAt | .reqPath | .reqQueryStringStart | .reqQueryString
  | .reqFragmentStart | .reqFragment => parser.reqUrl ch
  | .reqHttpStart => parser.reqHttpStart ch
  | .reqHttpH => parser.strictByte (byte 'T') .reqHttpHT ch
  | .reqHttpHT => parser.strictByte (byte 'T') .reqHttpHTT ch
  | .reqHttpHTT => parser.strictByte (byte 'P') .reqHttpHTTP ch
  | .reqHttpHTTP => parser.strictByte (byte '/') .reqFirstHttpMajor ch
  | .reqFirstHttpMajor => parser.reqFirstHttpMajor ch
  | .reqHttpMajor => parser.httpMajorByte .reqFirstHttpMinor ch
  | .reqFirstHttpMinor => parser.firstHttpMinor .reqHttpMinor ch
  | .reqHttpMinor => parser.reqHttpMinor ch
  | .reqLineAlmostDone =>
    if ch ≠ lf then parser.fail .lfExpected else parser.goto .headerFieldStart
  | .headerValueDiscardWsAlmostDone => parser.strictByte lf .headerValueDiscardLws ch
  | .headerAlmostDone => parser.strictByte lf .headerValueLws ch
  | .chunkSizeStart => parser.chunkSizeStart ch
  | .chunkSize => parser.chunkSize ch
  | .chunkParameters => parser.chunkParameters ch
  | .chunkSizeAlmostDone => parser.chunkSizeAlmostDone ch
  | .chunkDataDone => parser.chunkDataDone ch
  | _ => parser

end HttpParser

end Wrkx
