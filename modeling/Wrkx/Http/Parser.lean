import Wrkx.Base.CString
import Wrkx.Connection.Buffer

/-!
# The state of `http_parser`

The structure `http_parser`, the enumerations it is made of, the tables of characters of
`http_parser.c` and the functions that read a parser without running it.

## Design notes

The build is the strict one. `s_dead` and the other members of the enumerations keep their
names without the prefix. `F_SKIPBODY` has no flag: it does not fit into the six bits of the
field, and only a callback that this program never installs would set it.
-/

namespace Wrkx

/-- The byte of a character. -/
abbrev byte (c : Char) : UInt8 := UInt8.ofNat c.toNat

/-- `CR`. -/
abbrev cr : UInt8 := 13

/-- `LF`. -/
abbrev lf : UInt8 := 10

/-! ## Classes of characters -/

/-- `LOWER`. -/
def lower (c : UInt8) : UInt8 := c ||| 32

/-- `IS_ALPHA`. -/
def isLetter (c : UInt8) : Bool := 97 ≤ (lower c).toNat && (lower c).toNat ≤ 122

/-- `IS_MARK`. -/
def isMark (c : UInt8) : Bool :=
  decide (c ∈ ['-', '_', '.', '!', '~', '*', '(', ')'].map byte ++ [39])

/-- `IS_USERINFO_CHAR`. -/
def isUserinfoChar (c : UInt8) : Bool :=
  isLetter c || CString.isDigit c || isMark c ||
    decide (c ∈ ['%', ';', ':', '&', '=', '+', '$', ','].map byte)

/-- `IS_URL_CHAR`, with the bits that are set in `normal_url_char`. -/
def isUrlChar (c : UInt8) : Bool :=
  33 ≤ c.toNat && c.toNat ≤ 126 && c ≠ byte '#' && c ≠ byte '?'

/-- The symbols of the table `tokens`. -/
def tokenSymbols : List UInt8 :=
  ['!', '#', '$', '%', '&', '*', '+', '-', '.', '^', '_', '|', '~'].map byte ++ [39, 96]

/-- `TOKEN`: the table `tokens`, which holds zero for the bytes that are not in a token. -/
def token (c : UInt8) : UInt8 :=
  if CString.isAlpha c then CString.toLower c
  else if CString.isDigit c ∨ c ∈ tokenSymbols then c
  else 0

/-- `unhex`, with `none` for `-1`. The table gives values for the bytes below 128 only, so that
    the others are hexadecimal zeros. -/
def unhex (c : UInt8) : Option ℕ :=
  if 48 ≤ c.toNat ∧ c.toNat ≤ 57 then some (c.toNat - 48)
  else if 65 ≤ c.toNat ∧ c.toNat ≤ 70 then some (c.toNat - 55)
  else if 97 ≤ c.toNat ∧ c.toNat ≤ 102 then some (c.toNat - 87)
  else if 128 ≤ c.toNat then some 0
  else none

/-! ## Enumerations -/

/-- `enum http_parser_type`. -/
inductive HttpParserType
  | request
  | response
  | both
deriving DecidableEq

/-- `enum state`. -/
inductive State
  | dead
  | startReqOrRes | resOrRespH | startRes
  | resH | resHT | resHTT | resHTTP
  | resFirstHttpMajor | resHttpMajor | resFirstHttpMinor | resHttpMinor
  | resFirstStatusCode | resStatusCode | resStatusStart | resStatus | resLineAlmostDone
  | startReq
  | reqMethod | reqSpacesBeforeUrl
  | reqSchema | reqSchemaSlash | reqSchemaSlashSlash
  | reqServerStart | reqServer | reqServerWithAt | reqPath
  | reqQueryStringStart | reqQueryString | reqFragmentStart | reqFragment
  | reqHttpStart | reqHttpH | reqHttpHT | reqHttpHTT | reqHttpHTTP
  | reqFirstHttpMajor | reqHttpMajor | reqFirstHttpMinor | reqHttpMinor | reqLineAlmostDone
  | headerFieldStart | headerField
  | headerValueDiscardWs | headerValueDiscardWsAlmostDone | headerValueDiscardLws
  | headerValueStart | headerValue | headerValueLws | headerAlmostDone
  | chunkSizeStart | chunkSize | chunkParameters | chunkSizeAlmostDone
  | headersAlmostDone | headersDone
  | chunkData | chunkDataAlmostDone | chunkDataDone
  | bodyIdentity | bodyIdentityEof | messageDone
deriving DecidableEq

/-- `PARSING_HEADER`: the states of a body come last. -/
def State.parsingHeader : State → Bool
  | chunkData | chunkDataAlmostDone | chunkDataDone | bodyIdentity | bodyIdentityEof
  | messageDone => false
  | _ => true

/-- The states in which an URL is at hand. -/
def State.inUrl : State → Bool
  | reqPath | reqSchema | reqSchemaSlash | reqSchemaSlashSlash | reqServerStart | reqServer
  | reqServerWithAt | reqQueryStringStart | reqQueryString | reqFragmentStart
  | reqFragment => true
  | _ => false

/-- `enum header_states`. -/
inductive HeaderStates
  | general
  | c | co | con
  | matchingConnection | matchingProxyConnection | matchingContentLength
  | matchingTransferEncoding | matchingUpgrade
  | connection | contentLength | transferEncoding | upgrade
  | matchingTransferEncodingChunked
  | matchingConnectionTokenStart | matchingConnectionKeepAlive | matchingConnectionClose
  | matchingConnectionUpgrade | matchingConnectionToken
  | transferEncodingChunked | connectionKeepAlive | connectionClose | connectionUpgrade
deriving DecidableEq

/-- `enum http_errno`, as far as the parser sets it. `aborted` is not a member in the source: it
    says that an `assert` failed and the process is gone. -/
inductive HttpErrno
  | ok
  | invalidEofState
  | headerOverflow
  | closedConnection
  | invalidVersion
  | invalidStatus
  | invalidMethod
  | invalidUrl
  | lfExpected
  | invalidHeaderToken
  | invalidContentLength
  | invalidChunkSize
  | invalidConstant
  | strict
  | aborted
deriving DecidableEq

/-- `enum http_method`. -/
inductive HttpMethod
  | delete | get | head | post | put
  | connect | options | trace
  | copy | lock | mkcol | move | propfind | proppatch | search | unlock
  | report | mkactivity | checkout | merge
  | msearch | notify | subscribe | unsubscribe
  | patch | purge
  | mkcalendar
deriving DecidableEq

/-- `method_strings`. -/
def HttpMethod.string : HttpMethod → Bytes
  | delete => ['D', 'E', 'L', 'E', 'T', 'E'].map byte
  | get => ['G', 'E', 'T'].map byte
  | head => ['H', 'E', 'A', 'D'].map byte
  | post => ['P', 'O', 'S', 'T'].map byte
  | put => ['P', 'U', 'T'].map byte
  | connect => ['C', 'O', 'N', 'N', 'E', 'C', 'T'].map byte
  | options => ['O', 'P', 'T', 'I', 'O', 'N', 'S'].map byte
  | trace => ['T', 'R', 'A', 'C', 'E'].map byte
  | copy => ['C', 'O', 'P', 'Y'].map byte
  | lock => ['L', 'O', 'C', 'K'].map byte
  | mkcol => ['M', 'K', 'C', 'O', 'L'].map byte
  | move => ['M', 'O', 'V', 'E'].map byte
  | propfind => ['P', 'R', 'O', 'P', 'F', 'I', 'N', 'D'].map byte
  | proppatch => ['P', 'R', 'O', 'P', 'P', 'A', 'T', 'C', 'H'].map byte
  | search => ['S', 'E', 'A', 'R', 'C', 'H'].map byte
  | unlock => ['U', 'N', 'L', 'O', 'C', 'K'].map byte
  | report => ['R', 'E', 'P', 'O', 'R', 'T'].map byte
  | mkactivity => ['M', 'K', 'A', 'C', 'T', 'I', 'V', 'I', 'T', 'Y'].map byte
  | checkout => ['C', 'H', 'E', 'C', 'K', 'O', 'U', 'T'].map byte
  | merge => ['M', 'E', 'R', 'G', 'E'].map byte
  | msearch => ['M', '-', 'S', 'E', 'A', 'R', 'C', 'H'].map byte
  | notify => ['N', 'O', 'T', 'I', 'F', 'Y'].map byte
  | subscribe => ['S', 'U', 'B', 'S', 'C', 'R', 'I', 'B', 'E'].map byte
  | unsubscribe => ['U', 'N', 'S', 'U', 'B', 'S', 'C', 'R', 'I', 'B', 'E'].map byte
  | patch => ['P', 'A', 'T', 'C', 'H'].map byte
  | purge => ['P', 'U', 'R', 'G', 'E'].map byte
  | mkcalendar => ['M', 'K', 'C', 'A', 'L', 'E', 'N', 'D', 'A', 'R'].map byte

/-! ## The parser -/

/-- The bits of `http_parser.flags`. -/
structure Flags where
  chunked : Bool
  connectionKeepAlive : Bool
  connectionClose : Bool
  connectionUpgrade : Bool
  trailing : Bool
  upgrade : Bool
deriving DecidableEq

/-- `flags = 0`. -/
def Flags.none : Flags := ⟨false, false, false, false, false, false⟩

/-- `ULLONG_MAX`, the value of `content_length` while no header has given one. -/
def ullongMax : ℕ := 2 ^ 64 - 1

/-- `struct http_parser`. -/
structure HttpParser where
  type : HttpParserType
  flags : Flags
  state : State
  headerState : HeaderStates
  index : ℕ
  nread : ℕ
  contentLength : ℕ
  httpMajor : ℕ
  httpMinor : ℕ
  statusCode : ℕ
  method : HttpMethod
  httpErrno : HttpErrno
  upgrade : Bool
deriving DecidableEq

namespace HttpParser

/-- `start_state`. -/
def startState (t : HttpParserType) : State := if t = .request then .startReq else .startRes

/-- `http_parser_init`: everything but the type and the state is zero. -/
def init (t : HttpParserType) : HttpParser where
  type := t
  flags := .none
  state := match t with
    | .request => .startReq
    | .response => .startRes
    | .both => .startReqOrRes
  headerState := .general
  index := 0
  nread := 0
  contentLength := 0
  httpMajor := 0
  httpMinor := 0
  statusCode := 0
  method := .delete
  httpErrno := .ok
  upgrade := false

/-- `http_message_needs_eof`. -/
def messageNeedsEof (parser : HttpParser) : Bool :=
  if parser.type = .request then false
  else if parser.statusCode / 100 = 1 ∨ parser.statusCode = 204 ∨ parser.statusCode = 304 then
    false
  else if parser.flags.chunked ∨ parser.contentLength ≠ ullongMax then false
  else true

/-- `http_should_keep_alive`. -/
def shouldKeepAlive (parser : HttpParser) : Bool :=
  if 0 < parser.httpMajor ∧ 0 < parser.httpMinor then
    if parser.flags.connectionClose then false else !parser.messageNeedsEof
  else
    if !parser.flags.connectionKeepAlive then false else !parser.messageNeedsEof

/-- `NEW_MESSAGE`. -/
def newMessage (parser : HttpParser) : State :=
  if parser.shouldKeepAlive then startState parser.type else .dead

end HttpParser

end Wrkx
