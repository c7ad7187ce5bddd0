import Mathlib.Data.Nat.Notation
import Mathlib.Order.Basic
import Wrkx.Base.Separated

/-!
# Header and body buffers

The `buffer` of `wrk.h` with `buffer_append`, `buffer_reset` and `buffer_pushlstring` of
`script.c`, and the loop of `script_response` that reads the headers back. The allocated
bytes are kept also past the cursor, since the reading loop can run into them.

## Main results

- `contents_bufferAppend`, `contents_bufferTerminate` — what is written is what was appended
- `headerPairs_eq` — the reading loop reads back what was written, and nothing else
-/

namespace Wrkx

abbrev Bytes := List UInt8

/-- `buffer`: the allocated bytes, `length` of them, and the cursor as an offset. A buffer
    that was never allocated is `NULL`, here without bytes. -/
structure Buffer where
  mem : Bytes
  cursor : ℕ

namespace Buffer

/-- The zeroed buffer. -/
def null : Buffer := ⟨[], 0⟩

def length (b : Buffer) : ℕ := b.mem.length

/-- The test `if (b->buffer)`. -/
def allocated (b : Buffer) : Bool := !b.mem.isEmpty

/-- What was written since the last reset. -/
def contents (b : Buffer) : Bytes := b.mem.take b.cursor

end Buffer

/-- The growth loop of `buffer_append`: 1024 bytes at a time until `need` lies inside. -/
def grownLength (need : ℕ) : ℕ → ℕ → ℕ
  | 0, length => length
  | fuel + 1, length => if length ≤ need then grownLength need fuel (length + 1024) else length

/-- `buffer_append`. What `realloc` leaves in new bytes is given by `junk`. -/
def bufferAppend (junk : ℕ → UInt8) (b : Buffer) (data : Bytes) : Buffer :=
  let used := b.cursor
  let need := used + data.length + 1
  let length := grownLength need (need + 1) b.length
  let mem := b.mem ++ (List.range' b.length (length - b.length)).map junk
  { mem := mem.take used ++ data ++ mem.drop (used + data.length)
    cursor := used + data.length }

/-- `*b->cursor++ = '\0'`. -/
def bufferTerminate (b : Buffer) : Buffer :=
  { mem := b.mem.set b.cursor 0, cursor := b.cursor + 1 }

def bufferReset (b : Buffer) : Buffer := { b with cursor := 0 }

/-- `buffer_pushlstring`: the string from `start` to the next NUL and the offset after that;
    `none` when the allocated bytes hold no further NUL. -/
def bufferPushlstring (b : Buffer) (start : ℕ) : Option (Bytes × ℕ) :=
  let rest := b.mem.drop start
  let str := rest.takeWhile (· ≠ 0)
  if str.length < rest.length then some (str, start + str.length + 1) else none

/-- The loop of `script_response` over the headers: the pairs set in the table, and whether
    a string was read past the cursor. -/
def headerPairs (b : Buffer) : ℕ → ℕ → List (Bytes × Bytes) × Bool
  | 0, _ => ([], false)
  | fuel + 1, c =>
    if c < b.cursor then
      match bufferPushlstring b c with
      | none => ([], true)
      | some (name, c) =>
        match bufferPushlstring b c with
        | none => ([], true)
        | some (value, c) =>
          let rest := headerPairs b fuel c
          ((name, value) :: rest.1, decide (b.cursor < c) || rest.2)
    else
      ([], false)

/-! ## Writing -/

section Write

variable {junk : ℕ → UInt8} {b : Buffer} {data : Bytes} {need fuel length : ℕ}

theorem le_grownLength : length ≤ grownLength need fuel length := by
  induction fuel generalizing length with
  | zero => exact Nat.le_refl _
  | succ fuel ih =>
    rw [grownLength]
    split
    · exact Nat.le_trans (Nat.le_add_right _ _) ih
    · exact Nat.le_refl _

/-- The growth loop leaves room, also for a terminator. -/
theorem lt_grownLength (h : need < length + 1024 * fuel) : need < grownLength need fuel length := by
  induction fuel generalizing length with
  | zero => exact h
  | succ fuel ih =>
    rw [grownLength]
    split
    · exact ih (by omega)
    · omega

theorem length_bufferAppend (h : b.cursor ≤ b.length) : (bufferAppend junk b data).length =
    grownLength (b.cursor + data.length + 1) (b.cursor + data.length + 1 + 1) b.length := by
  have hle : b.length ≤ grownLength (b.cursor + data.length + 1)
      (b.cursor + data.length + 1 + 1) b.length := le_grownLength
  have hlt : b.cursor + data.length + 1 < grownLength (b.cursor + data.length + 1)
      (b.cursor + data.length + 1 + 1) b.length := lt_grownLength (by omega)
  simp only [bufferAppend, Buffer.length] at *
  generalize grownLength _ _ _ = grown at *
  simp only [List.length_append, List.length_take, List.length_drop, List.length_map,
    List.length_range']
  omega

theorem cursor_bufferAppend : (bufferAppend junk b data).cursor = b.cursor + data.length := rfl

theorem cursor_lt_bufferAppend (h : b.cursor ≤ b.length) :
    (bufferAppend junk b data).cursor < (bufferAppend junk b data).length := by
  rw [length_bufferAppend h, cursor_bufferAppend]
  exact Nat.lt_trans (Nat.lt_succ_self _) (lt_grownLength (by omega))

theorem contents_bufferAppend (h : b.cursor ≤ b.length) :
    (bufferAppend junk b data).contents = b.contents ++ data := by
  simp only [Buffer.length] at h
  simp only [Buffer.contents, bufferAppend]
  have hroom : b.cursor + data.length ≤ (b.mem.take b.cursor ++ data).length := by
    rw [List.length_append, List.length_take]
    omega
  have hall : (b.mem.take b.cursor ++ data).length ≤ b.cursor + data.length := by
    rw [List.length_append, List.length_take]
    omega
  rw [List.take_append_of_le_length h, List.take_append_of_le_length hroom,
    List.take_of_length_le hall]

theorem contents_bufferTerminate (h : b.cursor < b.length) :
    (bufferTerminate b).contents = b.contents ++ [0] := by
  simp only [Buffer.length] at h
  simp only [Buffer.contents, bufferTerminate]
  rw [List.set_eq_take_append_cons_drop, if_pos h]
  simp [List.take_append, List.take_take, Nat.min_eq_left (Nat.le_of_lt h)]

theorem cursor_bufferTerminate_le (h : b.cursor < b.length) :
    (bufferTerminate b).cursor ≤ (bufferTerminate b).length := by
  simpa [bufferTerminate, Buffer.length] using Nat.succ_le_of_lt h

end Write

/-! ## Reading -/

section Read

open Separated

/-- A string that is followed by its terminator is read whole. -/
theorem bufferPushlstring_eq {b : Buffer} {pre str rest : Bytes}
    (hmem : b.mem = pre ++ str ++ 0 :: rest)
    (hstr : (0 : UInt8) ∉ str) :
    bufferPushlstring b pre.length = some (str, pre.length + str.length + 1) := by
  have hdrop : b.mem.drop pre.length = str ++ 0 :: rest := by
    rw [hmem, List.append_assoc, List.drop_left]
  simp only [bufferPushlstring, hdrop, takeWhile_terminated hstr]
  rw [if_pos (by simp)]

/-- The strings of a list of headers. -/
def headerStrings (headers : List (Bytes × Bytes)) : List Bytes :=
  headers.flatMap fun h => [h.1, h.2]

/-- The reading loop, from the point where the given headers are left to read. -/
theorem headerPairs_rest {b : Buffer} {headers : List (Bytes × Bytes)} {pre rest : Bytes}
    {fuel : ℕ} (hmem : b.mem = pre ++ terminated 0 (headerStrings headers) ++ rest)
    (hcursor : b.cursor = pre.length + (terminated 0 (headerStrings headers)).length)
    (hstrings : ∀ s ∈ headerStrings headers, (0 : UInt8) ∉ s) (hfuel : headers.length ≤ fuel) :
    headerPairs b fuel pre.length = (headers, false) := by
  induction headers generalizing pre fuel with
  | nil =>
    cases fuel with
    | zero => rfl
    | succ fuel =>
      rw [headerPairs, if_neg]
      simp [hcursor, headerStrings]
  | cons header headers ih =>
    obtain ⟨name, value⟩ := header
    cases fuel with
    | zero => simp at hfuel
    | succ fuel =>
      simp only [headerStrings, List.flatMap_cons, List.cons_append, List.nil_append,
        terminated_cons, List.mem_cons, forall_eq_or_imp] at hmem hcursor hstrings
      obtain ⟨hname, hvalue, hstrings⟩ := hstrings
      have hfirst : bufferPushlstring b pre.length =
          some (name, pre.length + name.length + 1) :=
        bufferPushlstring_eq (by simpa using hmem) hname
      have hmem' : b.mem = pre ++ name ++ [0] ++ value ++
          0 :: (terminated 0 (headerStrings headers) ++ rest) := by
        simpa [headerStrings] using hmem
      have hsecond : bufferPushlstring b (pre ++ name ++ [0]).length =
          some (value, (pre ++ name ++ [0]).length + value.length + 1) :=
        bufferPushlstring_eq hmem' hvalue
      have hrest := @ih (pre ++ name ++ [0] ++ value ++ [0]) fuel
        (by simpa [headerStrings] using hmem)
        (by simp only [hcursor, headerStrings, List.length_append, List.length_cons,
          List.length_nil]; omega) hstrings (by simpa using hfuel)
      simp only [List.length_append, List.length_cons, List.length_nil, Nat.zero_add]
        at hsecond hrest
      simp only [headerPairs, hfirst, hsecond, hrest]
      simp only [List.length_append, List.length_cons] at hcursor
      rw [if_pos (by omega)]
      simp
      omega

/-- The reading loop reads back the headers that were written, and nothing past the cursor. -/
theorem headerPairs_eq {b : Buffer} {headers : List (Bytes × Bytes)}
    (hcontents : b.contents = terminated 0 (headerStrings headers)) (hle : b.cursor ≤ b.length)
    (hstrings : ∀ s ∈ headerStrings headers, (0 : UInt8) ∉ s) :
    headerPairs b b.cursor 0 = (headers, false) := by
  have hcursor : b.cursor = (terminated 0 (headerStrings headers)).length := by
    rw [← hcontents, Buffer.contents, List.length_take]
    exact (Nat.min_eq_left hle).symm
  have hmem : b.mem = [] ++ terminated 0 (headerStrings headers) ++ b.mem.drop b.cursor := by
    rw [List.nil_append, ← hcontents, Buffer.contents, List.take_append_drop]
  refine headerPairs_rest hmem (by simpa using hcursor) hstrings ?_
  · have hstrings : (headerStrings headers).length ≤
        (terminated (0 : UInt8) (headerStrings headers)).length := length_le_length_terminated
    have hlength : (headerStrings headers).length = 2 * headers.length := by
      simp [headerStrings, List.length_flatMap, Nat.mul_comm]
    omega

end Read

end Wrkx
