import Wrkx.Base.Bounded
import Wrkx.Connection.Delivery

/-!
# The buffers do not overflow

The separators between header names and values are written without a check for room. Here each
write into a buffer is checked: the functions of `Checked` are those of the connection once
more, byte by byte, and have no result when a byte would lie outside the allocated length or a
loop would not end. Every call of `buffer_append` leaves room for a separator, and no two
separators come without a call between them, so that there is a result for every order of
callbacks in which a header value comes after a name.

## Main results

- `Checked.bufferAppend_eq` — `buffer_append` ends and stays inside
- `buffers_hold_appended` — nothing is written outside of the buffers, and they hold what was
  appended since they were last reset
- `Start.checked` — the checked functions and the handlers agree along every run
-/

namespace Wrkx

open History

/-! ## Checked writes -/

/-- What the callbacks of a response work on. -/
structure ResponseBuffers where
  headers : Buffer
  body : Buffer
  state : HeaderState

/-- The buffers of a connection in zeroed memory. -/
def ResponseBuffers.zeroed : ResponseBuffers := ⟨.null, .null, .field⟩

namespace Checked

/-- `*b->cursor++ = '\0'`. -/
def bufferTerminate (b : Buffer) : Option Buffer := do
  let mem ← Bounded.write b.mem b.cursor 0
  return { mem, cursor := b.cursor + 1 }

/-- The growth loop of `buffer_append`; `none` when it does not end in so many rounds. -/
def grow (junk : ℕ → UInt8) (need : ℕ) : ℕ → Bytes → Option Bytes
  | 0, _ => none
  | rounds + 1, mem =>
    if mem.length ≤ need then
      grow junk need rounds (mem ++ (List.range' mem.length 1024).map junk)
    else
      some mem

/-- `buffer_append`. -/
def bufferAppend (junk : ℕ → UInt8) (b : Buffer) (data : Bytes) : Option Buffer := do
  let used := b.cursor
  let need := used + data.length + 1
  -- realloc may move the bytes; the cursor keeps its offset
  let mem ← grow junk need (need + 2) b.mem
  let mem ← Bounded.copy data used mem
  return { mem, cursor := used + data.length }

/-- `header_field`; `junk` is what `realloc` leaves in new bytes of the buffer. -/
def headerField (junk : ℕ → UInt8) (piece : Bytes) (c : ResponseBuffers) :
    Option ResponseBuffers := do
  let headers ← if c.state = .value then bufferTerminate c.headers else some c.headers
  let headers ← bufferAppend junk headers piece
  return { c with headers, state := .field }

/-- `header_value`. -/
def headerValue (junk : ℕ → UInt8) (piece : Bytes) (c : ResponseBuffers) :
    Option ResponseBuffers := do
  let headers ← if c.state = .field then bufferTerminate c.headers else some c.headers
  let headers ← bufferAppend junk headers piece
  return { c with headers, state := .value }

/-- `response_body`. -/
def responseBody (junk : ℕ → UInt8) (piece : Bytes) (c : ResponseBuffers) :
    Option ResponseBuffers := do
  let body ← bufferAppend junk c.body piece
  return { c with body }

/-- What `response_complete` writes; `script_response` resets both buffers. -/
def responseComplete (c : ResponseBuffers) : Option ResponseBuffers :=
  if c.headers.allocated then do
    let headers ← bufferTerminate c.headers
    -- script_response only reads the bytes up to the cursors before it resets both
    return { headers := bufferReset headers, body := bufferReset c.body, state := .field }
  else
    some c

end Checked

/-- A callback that writes to the buffers, or a call of `reconnect_socket`, which leaves them as
    they are. -/
inductive BufferEvent
  | headerField (piece : Bytes)
  | headerValue (piece : Bytes)
  | responseBody (piece : Bytes)
  | responseComplete
  | reconnect
deriving DecidableEq

/-- One event; `junk` and `junk'` belong to the header and the body buffer. -/
def BufferEvent.run (junk junk' : ℕ → UInt8) (c : ResponseBuffers) :
    BufferEvent → Option ResponseBuffers
  | headerField piece => Checked.headerField junk piece c
  | headerValue piece => Checked.headerValue junk piece c
  | responseBody piece => Checked.responseBody junk' piece c
  | responseComplete => Checked.responseComplete c
  | reconnect => some c

/-- The buffers after the events of a history, which has the newest event first. -/
def written (junk junk' : ℕ → UInt8) : List BufferEvent → Option ResponseBuffers
  | [] => some .zeroed
  | event :: older => do event.run junk junk' (← written junk junk' older)

/-! ## What was appended -/

/-- The pieces and separators appended to either buffer since it was last reset, `state`, and
    whether the header buffer was ever allocated. -/
structure Appended where
  headers : List Bytes
  body : List Bytes
  state : HeaderState
  allocated : Bool

/-- What the events of a history appended. -/
def appended : List BufferEvent → Appended
  | [] => ⟨[], [], .field, false⟩
  | .headerField piece :: older =>
    let a := appended older
    { a with
      headers := a.headers ++ (if a.state = .value then [[0]] else []) ++ [piece]
      state := .field
      allocated := true }
  | .headerValue piece :: older =>
    let a := appended older
    { a with
      headers := a.headers ++ (if a.state = .field then [[0]] else []) ++ [piece]
      state := .value
      allocated := true }
  | .responseBody piece :: older =>
    let a := appended older
    { a with body := a.body ++ [piece] }
  | .responseComplete :: older =>
    let a := appended older
    -- without a header buffer the body is not reset either
    if a.allocated then { headers := [], body := [], state := .field, allocated := true } else a
  | .reconnect :: older => appended older

/-- A header name was begun in the message that the parser is in. -/
def named : List BufferEvent → Bool
  | [] => false
  | .headerField _ :: _ => true
  | .headerValue _ :: older | .responseBody _ :: older => named older
  | .responseComplete :: _ | .reconnect :: _ => false

def BufferEvent.isValue : BufferEvent → Bool
  | headerValue _ => true
  | _ => false

/-- What is known of the order of the callbacks: the parser gives a value to a name of the same
    message. -/
def Producible (event : BufferEvent) (older : List BufferEvent) : Prop :=
  event.isValue = true → named older = true

instance (event : BufferEvent) (older : List BufferEvent) : Decidable (Producible event older) :=
  inferInstanceAs (Decidable (event.isValue = true → named older = true))

/-- The buffers hold what was appended, and a separator still fits into an allocated header
    buffer. -/
structure HoldsAppended (a : Appended) (c : ResponseBuffers) : Prop where
  headers_eq : c.headers.contents = a.headers.flatten
  body_eq : c.body.contents = a.body.flatten
  state_eq : c.state = a.state
  allocated_eq : c.headers.allocated = a.allocated
  headers_lt : a.allocated = true → c.headers.cursor < c.headers.length
  headers_le : c.headers.cursor ≤ c.headers.length
  body_le : c.body.cursor ≤ c.body.length

/-! ## Appending inside the buffer -/

section Append

variable {junk : ℕ → UInt8} {b : Buffer} {mem data piece : Bytes} {need rounds : ℕ}

theorem Checked.bufferTerminate_eq (h : b.cursor < b.length) :
    bufferTerminate b = some (Wrkx.bufferTerminate b) := by
  rw [bufferTerminate, Bounded.write_eq_some h]
  rfl

/-- The growth loop ends, and each of its rounds adds as many bytes as it counts. -/
theorem Checked.grow_eq (junk : ℕ → UInt8) (mem : Bytes)
    (h : need < mem.length + 1024 * rounds) :
    grow junk need (rounds + 1) mem = some (mem ++ (List.range' mem.length
      (grownLength need rounds mem.length - mem.length)).map junk) := by
  induction rounds generalizing mem with
  | zero =>
    rw [grow, if_neg (by omega), grownLength]
    simp
  | succ rounds ih =>
    rw [grow, grownLength]
    split_ifs with hshort
    · have hlonger : (mem ++ (List.range' mem.length 1024).map junk).length =
          mem.length + 1024 := by
        simp
      have hle : mem.length + 1024 ≤ grownLength need rounds (mem.length + 1024) := le_grownLength
      have hsplit : grownLength need rounds (mem.length + 1024) - mem.length =
          1024 + (grownLength need rounds (mem.length + 1024) - (mem.length + 1024)) := by
        omega
      rw [ih _ (by omega), hlonger, hsplit, ← List.range'_append_1, List.map_append,
        List.append_assoc]
    · simp

/-- `buffer_append` ends and writes inside the grown buffer. -/
theorem Checked.bufferAppend_eq (junk : ℕ → UInt8) (b : Buffer) (data : Bytes) :
    bufferAppend junk b data = some (Wrkx.bufferAppend junk b data) := by
  have hrounds : b.cursor + data.length + 1 <
      b.mem.length + 1024 * (b.cursor + data.length + 1 + 1) := by
    omega
  have hroom : b.cursor + data.length + 1 < grownLength (b.cursor + data.length + 1)
      (b.cursor + data.length + 1 + 1) b.mem.length := lt_grownLength hrounds
  simp only [bufferAppend, grow_eq junk b.mem hrounds, Option.bind_eq_bind, Option.bind_some]
  rw [Bounded.copy_eq_some]
  · rfl
  · rw [List.length_append, List.length_map, List.length_range']
    omega

theorem allocated_of_lt (h : b.cursor < b.length) : b.allocated = true := by
  cases hmem : b.mem with
  | nil => simp [Buffer.length, hmem] at h
  | cons => simp [Buffer.allocated, hmem]

/-! ### A piece after a separator -/

variable {p : Prop} [Decidable p]

theorem separated_le (hroom : p → b.cursor < b.length) (h : b.cursor ≤ b.length) :
    (if p then bufferTerminate b else b).cursor ≤
      (if p then bufferTerminate b else b).length := by
  split_ifs with hp
  · exact cursor_bufferTerminate_le (hroom hp)
  · exact h

theorem contents_separated (hroom : p → b.cursor < b.length) :
    (if p then bufferTerminate b else b).contents = b.contents ++ if p then [0] else [] := by
  split_ifs with hp
  · exact contents_bufferTerminate (hroom hp)
  · exact (List.append_nil _).symm

/-- A piece, with a separator before it or not. -/
structure Extended (p : Prop) [Decidable p] (piece : Bytes) (b b' : Buffer) : Prop where
  contents_eq : b'.contents = b.contents ++ (if p then [0] else []) ++ piece
  lt_length : b'.cursor < b'.length

theorem extended_bufferAppend (hroom : p → b.cursor < b.length) (h : b.cursor ≤ b.length) :
    Extended p piece b (bufferAppend junk (if p then bufferTerminate b else b) piece) where
  contents_eq := by
    rw [contents_bufferAppend (separated_le hroom h), contents_separated hroom]
  lt_length := cursor_lt_bufferAppend (separated_le hroom h)

end Append

/-! ## One event -/

section Events

variable {junk junk' : ℕ → UInt8} {piece : Bytes} {c c' : ResponseBuffers} {a : Appended}
  {event : BufferEvent} {older h : List BufferEvent}

/-- The buffers after an event whose writes are not checked. -/
def BufferEvent.result (junk junk' : ℕ → UInt8) (c : ResponseBuffers) :
    BufferEvent → ResponseBuffers
  | headerField piece =>
    { c with
      headers := bufferAppend junk
        (if c.state = .value then bufferTerminate c.headers else c.headers) piece
      state := .field }
  | headerValue piece =>
    { c with
      headers := bufferAppend junk
        (if c.state = .field then bufferTerminate c.headers else c.headers) piece
      state := .value }
  | responseBody piece => { c with body := bufferAppend junk' c.body piece }
  | responseComplete =>
    if c.headers.allocated then
      { headers := bufferReset (bufferTerminate c.headers)
        body := bufferReset c.body
        state := .field }
    else
      c
  | reconnect => c

theorem Checked.headerField_eq (hroom : c.state = .value → c.headers.cursor < c.headers.length) :
    headerField junk piece c = some ((BufferEvent.headerField piece).result junk junk' c) := by
  by_cases hstate : c.state = .value
  · simp [headerField, BufferEvent.result, hstate, bufferTerminate_eq (hroom hstate),
      bufferAppend_eq]
  · simp [headerField, BufferEvent.result, hstate, bufferAppend_eq]

theorem Checked.headerValue_eq (hroom : c.state = .field → c.headers.cursor < c.headers.length) :
    headerValue junk piece c = some ((BufferEvent.headerValue piece).result junk junk' c) := by
  by_cases hstate : c.state = .field
  · simp [headerValue, BufferEvent.result, hstate, bufferTerminate_eq (hroom hstate),
      bufferAppend_eq]
  · simp [headerValue, BufferEvent.result, hstate, bufferAppend_eq]

theorem Checked.responseBody_eq :
    responseBody junk' piece c = some ((BufferEvent.responseBody piece).result junk junk' c) := by
  simp [responseBody, BufferEvent.result, bufferAppend_eq]

theorem Checked.responseComplete_eq
    (hroom : c.headers.allocated = true → c.headers.cursor < c.headers.length) :
    responseComplete c = some (BufferEvent.responseComplete.result junk junk' c) := by
  rw [responseComplete, BufferEvent.result]
  split_ifs with halloc
  · rw [bufferTerminate_eq (hroom halloc)]
    rfl
  · rfl

/-- A piece of a header; a separator comes before it when the last piece was of the other
    kind. -/
theorem HoldsAppended.extend (hc : HoldsAppended a c) (piece : Bytes) (kind other : HeaderState)
    (hroom : a.state = other → a.allocated = true) :
    HoldsAppended
      { a with
        headers := a.headers ++ (if a.state = other then [[0]] else []) ++ [piece]
        state := kind
        allocated := true }
      { c with
        headers := bufferAppend junk
          (if c.state = other then bufferTerminate c.headers else c.headers) piece
        state := kind } := by
  have hroom' : c.state = other → c.headers.cursor < c.headers.length := fun hstate =>
    hc.headers_lt (hroom (hc.state_eq ▸ hstate))
  have hextended : Extended (c.state = other) piece c.headers (bufferAppend junk
      (if c.state = other then bufferTerminate c.headers else c.headers) piece) :=
    extended_bufferAppend hroom' hc.headers_le
  refine ⟨?_, hc.body_eq, rfl, allocated_of_lt hextended.lt_length,
    fun _ => hextended.lt_length, hextended.lt_length.le, hc.body_le⟩
  refine hextended.contents_eq.trans ?_
  rw [hc.headers_eq, hc.state_eq]
  split_ifs <;> simp

theorem HoldsAppended.responseBody (hc : HoldsAppended a c) (piece : Bytes) :
    HoldsAppended { a with body := a.body ++ [piece] }
      { c with body := bufferAppend junk c.body piece } where
  headers_eq := hc.headers_eq
  body_eq := by
    rw [contents_bufferAppend hc.body_le, hc.body_eq]
    simp
  state_eq := hc.state_eq
  allocated_eq := hc.allocated_eq
  headers_lt := hc.headers_lt
  headers_le := hc.headers_le
  body_le := (cursor_lt_bufferAppend hc.body_le).le

theorem HoldsAppended.reset (hc : HoldsAppended a c) (halloc : a.allocated = true) :
    HoldsAppended ⟨[], [], .field, true⟩
      ⟨bufferReset (bufferTerminate c.headers), bufferReset c.body, .field⟩ := by
  have hroom : 0 < (bufferReset (bufferTerminate c.headers)).length := by
    have hlt := hc.headers_lt halloc
    simp only [bufferReset, bufferTerminate, Buffer.length, List.length_set] at hlt ⊢
    omega
  exact ⟨rfl, rfl, rfl, allocated_of_lt hroom, fun _ => hroom, Nat.zero_le _, Nat.zero_le _⟩

/-! ### What the order of the callbacks gives -/

/-- After a piece of a value the header buffer is allocated. -/
theorem allocated_of_value (hstate : (appended h).state = .value) :
    (appended h).allocated = true := by
  induction h with
  | nil => cases hstate
  | cons event older ih =>
    cases event with
    | headerField piece => rfl
    | headerValue piece => rfl
    | responseBody piece => exact ih hstate
    | responseComplete =>
      by_cases halloc : (appended older).allocated = true
      · simp [appended, halloc]
      · simp only [appended, halloc] at hstate ⊢
        exact absurd (ih hstate) halloc
    | reconnect => exact ih hstate

/-- After a name the header buffer is allocated. -/
theorem allocated_of_named (hnamed : named h = true) : (appended h).allocated = true := by
  induction h with
  | nil => cases hnamed
  | cons event older ih =>
    cases event with
    | headerField piece => rfl
    | headerValue piece => rfl
    | responseBody piece => exact ih hnamed
    | responseComplete => cases hnamed
    | reconnect => cases hnamed

/-- In every order that the parser can produce, the checks of an event succeed. -/
theorem HoldsAppended.run_eq (hc : HoldsAppended (appended older) c)
    (hproducible : Producible event older) :
    event.run junk junk' c = some (event.result junk junk' c) := by
  cases event with
  | headerField piece =>
    refine Checked.headerField_eq fun hstate => hc.headers_lt (allocated_of_value ?_)
    exact hc.state_eq ▸ hstate
  | headerValue piece =>
    -- a value that came first would have its separator written through NULL
    have halloc := allocated_of_named (hproducible rfl)
    exact Checked.headerValue_eq fun _ => hc.headers_lt halloc
  | responseBody piece => exact Checked.responseBody_eq
  | responseComplete =>
    exact Checked.responseComplete_eq fun halloc => hc.headers_lt (hc.allocated_eq ▸ halloc)
  | reconnect => rfl

theorem HoldsAppended.result (junk junk' : ℕ → UInt8) (hc : HoldsAppended (appended older) c)
    (hproducible : Producible event older) :
    HoldsAppended (appended (event :: older)) (event.result junk junk' c) := by
  cases event with
  | headerField piece => exact hc.extend piece .field .value allocated_of_value
  | headerValue piece =>
    have halloc := allocated_of_named (hproducible rfl)
    exact hc.extend piece .value .field fun _ => halloc
  | responseBody piece => exact hc.responseBody piece
  | responseComplete =>
    rw [appended, BufferEvent.result, ← hc.allocated_eq]
    split_ifs with halloc
    · exact hc.reset (hc.allocated_eq ▸ halloc)
    · exact hc
  | reconnect => exact hc

end Events

/-! ## Every history -/

section Histories

variable {h : List BufferEvent}

theorem holdsAppended_zeroed : HoldsAppended (appended []) .zeroed :=
  ⟨rfl, rfl, rfl, rfl, fun halloc => (by cases halloc), le_rfl, le_rfl⟩

theorem written_holdsAppended (junk junk' : ℕ → UInt8) (hproducible : Each Producible h) :
    ∃ c, written junk junk' h = some c ∧ HoldsAppended (appended h) c := by
  induction h with
  | nil => exact ⟨.zeroed, rfl, holdsAppended_zeroed⟩
  | cons event older ih =>
    obtain ⟨c, hc, hholds⟩ := ih hproducible.2
    refine ⟨event.result junk junk' c, ?_, hholds.result junk junk' hproducible.1⟩
    rw [written, hc]
    exact hholds.run_eq hproducible.1

/-- After every history that the parser can produce, with pieces of any length and responses
    dropped anywhere, no byte was written outside of the buffers and both hold what was appended
    since they were last reset, and so does the header buffer with the separator that
    `response_complete` appends. -/
theorem buffers_hold_appended (junk junk' : ℕ → UInt8) (h : List BufferEvent)
    (hproducible : Each Producible h) :
    ∃ c, written junk junk' h = some c ∧ HoldsAppended (appended h) c ∧
      (c.headers.allocated = true → ∃ headers, Checked.bufferTerminate c.headers = some headers ∧
        headers.contents = ((appended h).headers ++ [[0]]).flatten) := by
  obtain ⟨c, hc, hholds⟩ := written_holdsAppended junk junk' hproducible
  refine ⟨c, hc, hholds, fun halloc => ?_⟩
  have hroom := hholds.headers_lt (hholds.allocated_eq ▸ halloc)
  refine ⟨bufferTerminate c.headers, Checked.bufferTerminate_eq hroom, ?_⟩
  rw [contents_bufferTerminate hroom, hholds.headers_eq]
  simp

/-- A response cut by a reconnection, and another one. -/
def Example.droppedResponse : List BufferEvent :=
  [.responseBody [8], .responseBody [7], .headerValue [50], .headerField [66], .reconnect,
    .headerValue [49], .headerField [], .headerField [65], .responseComplete, .headerValue [],
    .headerField [67]]

theorem buffers_hold_appended_dropped : ∃ c, written (fun _ => 1) (fun _ => 2)
      Example.droppedResponse = some c ∧
    c.headers.contents = [65, 0, 49, 0, 66, 0, 50] ∧ c.body.contents = [7, 8] ∧
    ∃ headers, Checked.bufferTerminate c.headers = some headers ∧
      headers.contents = [65, 0, 49, 0, 66, 0, 50, 0] := by
  obtain ⟨c, hc, hholds, hterminate⟩ :=
    buffers_hold_appended (fun _ => 1) (fun _ => 2) Example.droppedResponse (by decide)
  have halloc : c.headers.allocated = true := hholds.allocated_eq
  obtain ⟨headers, hheaders, hcontents⟩ := hterminate halloc
  exact ⟨c, hc, hholds.headers_eq, hholds.body_eq, headers, hheaders, hcontents⟩

end Histories

/-! ## Along the runs of the handlers -/

section Runs

variable {S : Setting} {l l' : Local} {noted h : List Obs} {o : Obs}

/-- The event that an entry of the history of a connection stands for. -/
def Obs.bufferEvent : Obs → Option BufferEvent
  | .field piece => some (.headerField piece)
  | .value piece => some (.headerValue piece)
  | .body piece => some (.responseBody piece)
  | .complete _ _ _ => some .responseComplete
  | .closed => some .reconnect
  | _ => none

def Connection.buffers (c : Connection) : ResponseBuffers := ⟨c.headers, c.body, c.state⟩

/-- The checked functions made the buffers of the connection what they are. -/
def CheckedSoFar (S : Setting) (l : Local) : Prop :=
  written S.junk S.junk (l.history.filterMap Obs.bufferEvent) = some l.c.buffers

/-! ### The order of the callbacks -/

theorem Message.strings_of_addValue {m : Message} {piece : Bytes}
    (hstrings : (m.addValue piece).strings ≠ []) : m.strings ≠ [] := by
  intro hnil
  have hempty : m.name = none ∧ m.fields = [] := by
    by_contra hne
    exact Message.strings_ne_nil.mpr (by tauto) hnil
  refine hstrings ?_
  rw [Message.addValue, hempty.1, hempty.2]
  exact hnil

/-- A response in progress with a header has a name. -/
theorem named_of_strings (hstrings : (unfinished h).strings ≠ []) :
    named (h.filterMap Obs.bufferEvent) = true := by
  induction h with
  | nil => exact absurd rfl hstrings
  | cons o older ih =>
    cases o with
    | field piece => rfl
    | value piece => exact ih (Message.strings_of_addValue hstrings)
    | body piece => exact ih hstrings
    | complete tcp now status => exact absurd rfl hstrings
    | closed => exact absurd rfl hstrings
    | _ => exact ih hstrings

theorem isValue_of_bufferEvent {event : BufferEvent} (hevent : o.bufferEvent = some event)
    (hvalue : event.isValue = true) : o.isValue = true := by
  cases o with
  | value piece => rfl
  | field | body | complete | closed =>
    obtain rfl := Option.some.inj hevent
    cases hvalue
  | _ => cases hevent

/-- The order that is assumed of a history is that of the callbacks. -/
theorem producible_of_ordered (hordered : Each Ordered h) :
    Each Producible (h.filterMap Obs.bufferEvent) := by
  induction h with
  | nil => trivial
  | cons o older ih =>
    cases hevent : o.bufferEvent with
    | none =>
      rw [List.filterMap_cons_none hevent]
      exact ih hordered.2
    | some event =>
      rw [List.filterMap_cons_some hevent]
      exact ⟨fun hvalue => named_of_strings
        (hordered.1.1 (isValue_of_bufferEvent hevent hvalue)), ih hordered.2⟩

/-! ### The acts -/

theorem bufferEvent_of_silent (ho : o.silent = true) : o.bufferEvent = none := by
  cases o with
  | field | value | body | complete | closed | scriptResponse => cases ho
  | _ => rfl

theorem bufferEvents_append (hnoted : ∀ o ∈ noted, o.bufferEvent = none) :
    (noted ++ h).filterMap Obs.bufferEvent = h.filterMap Obs.bufferEvent := by
  rw [List.filterMap_append, List.filterMap_eq_nil_iff.mpr hnoted, List.nil_append]

/-- An event of the connection, checked. -/
theorem CheckedSoFar.next (event : BufferEvent) (hl : CheckedSoFar S l)
    (hproducible : Each Producible (event :: l.history.filterMap Obs.bufferEvent))
    (hevents : l'.history.filterMap Obs.bufferEvent =
      event :: l.history.filterMap Obs.bufferEvent)
    (hresult : event.result S.junk S.junk l.c.buffers = l'.c.buffers) : CheckedSoFar S l' := by
  obtain ⟨c, hc, hholds⟩ := written_holdsAppended S.junk S.junk hproducible.2
  obtain rfl := Option.some.inj (hl.symm.trans hc)
  rw [CheckedSoFar, hevents, written, hl, ← hresult]
  exact hholds.run_eq hproducible.1

theorem Act.checkedSoFar (hact : Act S l l') (hordered : Each Ordered l'.history)
    (hl : CheckedSoFar S l) : CheckedSoFar S l' := by
  have hproducible := producible_of_ordered hordered
  cases hact.copies with
  | silent _ noted hhistory hnoted hheaders hbody hstate =>
    have hevents : l'.history.filterMap Obs.bufferEvent = l.history.filterMap Obs.bufferEvent := by
      rw [hhistory]
      exact bufferEvents_append fun o ho => bufferEvent_of_silent (hnoted o ho)
    have hbuffers : l'.c.buffers = l.c.buffers := by
      rw [Connection.buffers, hheaders, hbody, hstate]
      rfl
    rw [CheckedSoFar, hevents, hbuffers]
    exact hl
  | reconnect i =>
    have hconnects := Local.reconnectSocket_connects i l
    obtain ⟨ok, hhistory⟩ := hconnects.history_eq
    have hevents : (reconnectSocket i l).history.filterMap Obs.bufferEvent =
        .reconnect :: l.history.filterMap Obs.bufferEvent := by
      rw [hhistory]
      rfl
    refine hl.next .reconnect (hevents ▸ hproducible) hevents ?_
    rw [Connection.buffers, Connection.buffers, hconnects.c_eq]
    rfl
  | field piece =>
    refine hl.next (.headerField piece) hproducible rfl ?_
    rw [Connection.buffers, headerField_c]
    rfl
  | value piece =>
    refine hl.next (.headerValue piece) hproducible rfl ?_
    rw [Connection.buffers, headerValue_c]
    rfl
  | body piece => exact hl.next (.responseBody piece) hproducible rfl rfl
  | respond i =>
    obtain ⟨noted, hhistory, hnoted⟩ := respond_silent S i l
    obtain ⟨hheaders, hbody, hstate⟩ := respond_buffers (S := S) (l := l) (i := i)
    have hevents : (Wrkx.respond S i l).history.filterMap Obs.bufferEvent =
        .responseComplete :: l.history.filterMap Obs.bufferEvent := by
      rw [hhistory, bufferEvents_append fun o ho => bufferEvent_of_silent (hnoted o ho),
        bufferEvents_append (forall_delivery fun _ _ _ _ => rfl)]
      rfl
    refine hl.next .responseComplete (hevents ▸ hproducible) hevents ?_
    -- whether the run ends at stop_at makes no difference to the buffers
    rw [Connection.buffers, Connection.buffers, hheaders, hbody, hstate, BufferEvent.result,
      Connection.delivered]
    split_ifs <;> rfl

/-! ### Runs -/

/-- In every run of the connection the handlers write what the checked functions write. -/
theorem Start.checked {start : Start} {moves : List Move} (h : start.run S moves = some l)
    (hordered : Each Ordered l.history) :
    written S.junk S.junk (l.history.filterMap Obs.bufferEvent) = some l.c.buffers :=
  Start.run_preserves_under (I := CheckedSoFar S) backward_each
    (fun _ _ hact hordered hl => hact.checkedSoFar hordered hl) h hordered rfl

end Runs

end Wrkx
