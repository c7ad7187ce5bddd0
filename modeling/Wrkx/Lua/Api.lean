import Mathlib.Data.List.AList
import Mathlib.Data.List.TakeWhile
import Mathlib.Data.Rat.Defs

/-!
# The Lua stack

The values of Lua 5.1 and the part of its C API that `script.c` moves values with: a stack
that is read by relative indices, tables that values refer to by address, and the functions
that push, pop, iterate and assign. No table has a metatable here.

## Main results

- `rawGet_rawSet` — a field reads back as it was assigned
- `pop_length`, `next_length` — what the functions do to the height of a stack
-/

namespace Wrkx

/-- A number of Lua, with doubles read as rationals. -/
inductive LuaNumber
  | rational (x : ℚ)
  | infinite (negative : Bool)
  | nan
  deriving DecidableEq

inductive LuaValue
  | nil
  | boolean (b : Bool)
  | number (x : LuaNumber)
  | string (s : List UInt8)
  | table (address : ℕ)
  /-- a function, a thread or a userdata -/
  | other (typename : String)
  deriving DecidableEq

/-- A key and its value. -/
abbrev LuaEntry := Sigma fun _ : LuaValue => LuaValue

/-- The entries of a table, one for each key, in the order of `lua_next`. -/
abbrev LuaTable := AList fun _ : LuaValue => LuaValue

def rawGet (t : LuaTable) (key : LuaValue) : LuaValue := (t.lookup key).getD .nil

def rawSet (t : LuaTable) (key value : LuaValue) : LuaTable :=
  if value = .nil then t.erase key else t.insert key value

theorem rawGet_rawSet (t : LuaTable) (key value : LuaValue) :
    rawGet (rawSet t key value) key = value := by
  rw [rawSet]
  split_ifs with hnil
  · rw [rawGet, AList.lookup_erase, hnil]
    rfl
  · rw [rawGet, AList.lookup_insert]
    rfl

/-- Why a call does not return. -/
inductive LuaFailure
  | error (message : String)
  /-- an index outside the stack, or a value of the wrong type -/
  | undefined
  | unfinished

abbrev LuaResult := Except LuaFailure

theorem LuaResult.bind_eq_ok {α β : Type} {x : LuaResult α} {f : α → LuaResult β} {b : β} :
    x >>= f = .ok b ↔ ∃ a, x = .ok a ∧ f a = .ok b := by
  cases x with
  | error failure => simp [bind, Except.bind]
  | ok a => simp [bind, Except.bind]

/-- `lua_State`: its stack with the top first, its tables by address, and its globals. -/
structure LuaState where
  stack : List LuaValue
  tables : List LuaTable
  globals : LuaTable

namespace LuaState

/-- The value at a valid index, counted from the bottom or, if negative, from the top. -/
def index (L : LuaState) (i : ℤ) : LuaResult LuaValue :=
  let value? :=
    if 0 < i then L.stack.reverse[(i - 1).toNat]?
    else if i < 0 then L.stack[(-i - 1).toNat]?
    else none
  match value? with
  | some v => .ok v
  | none => .error .undefined

def push (L : LuaState) (v : LuaValue) : LuaState := { L with stack := v :: L.stack }

/-- `lua_pop`. -/
def pop (L : LuaState) (n : ℕ) : LuaResult LuaState :=
  if n ≤ L.stack.length then .ok { L with stack := L.stack.drop n } else .error .undefined

/-- The characters that a C function sees of a string. -/
def cString (s : List UInt8) : List UInt8 := s.takeWhile (· ≠ 0)

theorem cString_eq_self_iff (s : List UInt8) : cString s = s ↔ 0 ∉ s := by
  rw [cString, List.takeWhile_eq_self_iff]
  constructor
  · intro h hmem
    exact absurd (h 0 hmem) (by decide)
  · intro h c hc
    refine decide_eq_true fun hzero => ?_
    rw [hzero] at hc
    exact h hc

/-- `lua_pushstring`. -/
def pushString (L : LuaState) (s : List UInt8) : LuaState := L.push (.string (cString s))

/-- `lua_tostring` of a string. -/
def toString (L : LuaState) (i : ℤ) : LuaResult (List UInt8) := do
  match ← L.index i with
  | .string s => .ok s
  | _ => .error .undefined

/-- `lua_newtable`. -/
def newTable (L : LuaState) : LuaState :=
  { L with stack := .table L.tables.length :: L.stack, tables := L.tables ++ [∅] }

/-- The table at an index, with its address. -/
def tableAt (L : LuaState) (i : ℤ) : LuaResult (ℕ × LuaTable) := do
  match ← L.index i with
  | .table a =>
    match L.tables[a]? with
    | some t => .ok (a, t)
    | none => .error .undefined
  | _ => .error .undefined

/-- The entry after that of a key, the first one after `nil`. -/
def nextEntry (t : LuaTable) (key : LuaValue) : LuaResult (Option (LuaValue × LuaValue)) :=
  if key = .nil then
    .ok (t.entries.head?.map fun e => (e.1, e.2))
  else
    match t.entries.dropWhile fun e => e.1 ≠ key with
    | [] => .error (.error "invalid key to 'next'")
    | _ :: rest => .ok (rest.head?.map fun e => (e.1, e.2))

/-- `lua_next`: the key on the top gives way to the next key and its value, or to nothing. -/
def next (L : LuaState) (i : ℤ) : LuaResult (Bool × LuaState) := do
  let (_, t) ← L.tableAt i
  match L.stack with
  | [] => .error .undefined
  | key :: rest =>
    match ← nextEntry t key with
    | some (k, v) => .ok (true, { L with stack := v :: k :: rest })
    | none => .ok (false, { L with stack := rest })

/-- `lua_settable`: the value is on the top, the key just below it. -/
def settable (L : LuaState) (i : ℤ) : LuaResult LuaState := do
  let (a, t) ← L.tableAt i
  match L.stack with
  | value :: key :: rest =>
    if key = .nil then
      .error (.error "table index is nil")
    else if key = .number .nan then
      .error (.error "table index is NaN")
    else
      .ok { L with stack := rest, tables := L.tables.set a (rawSet t key value) }
  | _ => .error .undefined

/-- `lua_getglobal`. -/
def getGlobal (L : LuaState) (name : List UInt8) : LuaState :=
  L.push (rawGet L.globals (.string (cString name)))

/-- `lua_setglobal`. -/
def setGlobal (L : LuaState) (name : List UInt8) : LuaResult LuaState :=
  match L.stack with
  | [] => .error .undefined
  | value :: rest =>
    .ok { L with stack := rest, globals := rawSet L.globals (.string (cString name)) value }

/-! ## Heights of stacks -/

variable {L L' : LuaState}

@[simp] theorem push_stack (L : LuaState) (v : LuaValue) : (L.push v).stack = v :: L.stack := rfl

theorem index_top {v : LuaValue} {rest : List LuaValue} (h : L.stack = v :: rest) :
    L.index (-1) = .ok v := by
  simp [index, h]

theorem pop_length {n : ℕ} (h : L.pop n = .ok L') : L'.stack.length + n = L.stack.length := by
  rw [pop] at h
  split_ifs at h with hle
  cases h
  rw [List.length_drop]
  omega

/-- `lua_next` takes one value away, and puts two there as long as there are entries. -/
theorem next_length {i : ℤ} {more : Bool} (h : L.next i = .ok (more, L')) :
    L'.stack.length + 1 = L.stack.length + if more then 2 else 0 := by
  obtain ⟨⟨a, t⟩, -, h⟩ := LuaResult.bind_eq_ok.mp h
  cases hstack : L.stack with
  | nil =>
    rw [hstack] at h
    cases h
  | cons key rest =>
    rw [hstack] at h
    obtain ⟨entry, -, h⟩ := LuaResult.bind_eq_ok.mp h
    cases entry with
    | none =>
      cases h
      simp
    | some entry =>
      cases h
      simp

end LuaState

end Wrkx
