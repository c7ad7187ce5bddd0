import Wrkx.Base.HttpText
import Wrkx.Lua.Api

/-!
# Formatting requests

The requests of `wrk.lua`: the step of `wrk.init` that sets the header `Host`, and
`wrk.format`, which sets `Host` and `Content-Length` in the table of headers it is given. The
tables are kept by address, since a table can be given to several calls, and `wrk.headers` is
one of them. The headers of the command line come from `script_create`.
-/

namespace Wrkx

open CString HttpText

/-- The fields of `wrk` that requests are made of. -/
structure WrkTable where
  host : List UInt8
  port : Option (List UInt8)
  method : List UInt8
  path : List UInt8
  /-- the address of `wrk.headers` -/
  headers : ℕ
  body : Option (List UInt8)

/-- The state of a script: `wrk`, and its tables by address. -/
structure ScriptState where
  wrk : WrkTable
  tables : List LuaTable

def hostName : List UInt8 := ascii ['H', 'o', 's', 't']

def hostKey : LuaValue := .string hostName

def contentLengthKey : LuaValue := .string contentLength

/-- What `if` and `or` take for true. -/
def truthy (v : LuaValue) : Bool := v ≠ .nil && v ≠ .boolean false

/-! ## Setting up the headers -/

/-- `tostring` of a string or of the length of one. The length of a string fits an `int`, so
    that all of its digits are written. -/
def luaToString : LuaValue → Option (List UInt8)
  | .string s => some s
  | .number (.rational x) => if x.den = 1 ∧ 0 ≤ x.num then some (decimal x.num.toNat) else none
  | _ => none

/-- `%s` of `string.format`: below 100 bytes the string goes through `sprintf`, which ends at a
    `NUL`; longer ones are kept as they are. -/
def formatString (s : List UInt8) : List UInt8 :=
  if 100 ≤ s.length then s else LuaState.cString s

/-- `string.format ("%s %s HTTP/1.1", method, path)`. -/
def requestLine (method path : List UInt8) : List UInt8 :=
  formatString method ++ [32] ++ formatString path ++
    ascii [' ', 'H', 'T', 'T', 'P', '/', '1', '.', '1']

/-- `string.format ("%s: %s", name, value)`. -/
def headerLine (e : LuaEntry) : Option (List UInt8) := do
  let name ← luaToString e.1
  let value ← luaToString e.2
  some (formatString name ++ [58, 32] ++ formatString value)

/-- A call of `wrk.format`, with the arguments that are not `nil`, and the order in which `pairs`
    goes through a table in this call. -/
structure FormatCall where
  method : Option (List UInt8)
  path : Option (List UInt8)
  headers : Option ℕ
  body : Option (List UInt8)
  pairs : LuaTable → List LuaEntry

namespace FormatCall

variable (call : FormatCall) (st : ScriptState)

def usedMethod : List UInt8 := call.method.getD st.wrk.method

def usedPath : List UInt8 := call.path.getD st.wrk.path

def usedHeaders : ℕ := call.headers.getD st.wrk.headers

def usedBody : Option (List UInt8) := call.body.orElse fun _ => st.wrk.body

end FormatCall

/-- The assignments of `wrk.format` to the table of headers. -/
def setHeaders (wrkHeaders headers : LuaTable) (body : Option (List UInt8)) : LuaTable :=
  let headers :=
    if truthy (rawGet headers hostKey) then headers
    else rawSet headers hostKey (rawGet wrkHeaders hostKey)
  match body with
  | some b => rawSet headers contentLengthKey (.number (.rational b.length))
  | none => rawSet headers contentLengthKey .nil

/-- `wrk.format`: the state afterwards and the request. -/
def wrkFormat (st : ScriptState) (call : FormatCall) : Option (ScriptState × List UInt8) := do
  let headers ← st.tables[call.usedHeaders st]?
  let wrkHeaders ← st.tables[st.wrk.headers]?
  let headers := setHeaders wrkHeaders headers (call.usedBody st)
  let lines ← (call.pairs headers).mapM headerLine
  some ({ st with tables := st.tables.set (call.usedHeaders st) headers },
    List.intercalate crlf
      (requestLine (call.usedMethod st) (call.usedPath st) :: lines ++
        [[], (call.usedBody st).getD []]))

/-- A call in a run: the state before it, the state after it and the request. -/
structure FormatStep where
  before : ScriptState
  call : FormatCall
  after : ScriptState
  request : List UInt8

/-- Calls of `wrk.format` one after another. -/
def formatRun : ScriptState → List FormatCall → Option (List FormatStep)
  | _, [] => some []
  | st, call :: calls => do
    let (st', request) ← wrkFormat st call
    let steps ← formatRun st' calls
    some (⟨st, call, st', request⟩ :: steps)

end Wrkx
