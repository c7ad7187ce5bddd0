import Wrkx.Connection.Shape

/-!
# What the script is told

With a `response` function the callbacks of the parser copy header names, header values and body
into the two buffers of the connection, and `response_complete` has `script_response` hand them
over. Header names and values share one buffer and are told apart by NUL bytes only.

The copy fails in three ways. `reconnect_socket` does not reset the buffers, so what an
unfinished response left there is taken for a part of the next one. A response without any
header is not delivered at all before a header was ever seen, and afterwards the loop of
`script_response` reads a header that is not there. And a NUL byte in a value ends it.

## Main results

- `Act.encoded` — the buffers hold the response in progress
- `responses_delivered` — in every run without these events each response is delivered once,
  exactly as it came
- `unfinished_response_leaks`, `bare_response_overreads`, `nul_cuts_value` — what each of them
  does
-/

namespace Wrkx

open History Separated Relation

/-! ## The response in progress -/

/-- What the callbacks have told of a response: its header fields, the last one first, the name
    of a header whose value has not come yet, and the body. -/
structure Message where
  fields : List (Bytes × Bytes)
  name : Option Bytes
  body : Bytes
deriving DecidableEq

namespace Message

def empty : Message := ⟨[], none, []⟩

/-- A piece of a header name. -/
def addName (piece : Bytes) (m : Message) : Message :=
  { m with name := some (m.name.getD [] ++ piece) }

/-- A piece of a header value. -/
def addValue (piece : Bytes) (m : Message) : Message :=
  match m.name, m.fields with
  | some name, fields => { m with fields := (name, piece) :: fields, name := none }
  | none, (name, value) :: fields => { m with fields := (name, value ++ piece) :: fields }
  | none, [] => m

/-- A piece of the body. -/
def addBody (piece : Bytes) (m : Message) : Message := { m with body := m.body ++ piece }

/-- The names and values so far. -/
def strings (m : Message) : List Bytes := headerStrings m.fields.reverse ++ m.name.toList

end Message

/-- The response in progress. It ends with `response_complete` and is dropped with its TCP
    connection. -/
def unfinished : List Obs → Message
  | [] => .empty
  | .field piece :: older => (unfinished older).addName piece
  | .value piece :: older => (unfinished older).addValue piece
  | .body piece :: older => (unfinished older).addBody piece
  | .complete _ _ _ :: _ => .empty
  | .closed :: _ => .empty
  | _ :: older => unfinished older

/-! ## Exact delivery -/

/-- A call of `script_response`: the status, the headers in the order in which they are set in
    the table, the body, and whether a string was read past the cursor. -/
structure Delivery where
  status : ℕ
  headers : List (Bytes × Bytes)
  body : Bytes
  overread : Bool
deriving DecidableEq

def Obs.delivered : Obs → Option Delivery
  | .scriptResponse status headers text overread => some ⟨status, headers, text, overread⟩
  | _ => none

/-- The call of `script_response` that has to come next. -/
def awaited : List Obs → Option Delivery
  | .complete _ _ status :: older =>
    some ⟨status, (unfinished older).fields.reverse, (unfinished older).body, false⟩
  | _ => none

/-- `script_response` is called when a response is complete, and with that response. -/
def Delivers (o : Obs) (older : List Obs) : Prop := o.delivered = awaited older

instance (o : Obs) (older : List Obs) : Decidable (Delivers o older) :=
  inferInstanceAs (Decidable (o.delivered = awaited older))

/-- Each response is delivered once, exactly as it came. -/
structure ExactDelivery (h : List Obs) : Prop where
  each : Each Delivers h
  settled : awaited h = none

/-! ## Assumptions on a run -/

def Obs.isValue : Obs → Bool
  | .value _ => true
  | _ => false

def Obs.isComplete : Obs → Bool
  | .complete _ _ _ => true
  | _ => false

def Obs.drops : Obs → Bool
  | .closed => true
  | _ => false

/-- A piece of a header. -/
def Obs.headerPiece : Obs → Option Bytes
  | .field piece | .value piece => some piece
  | _ => none

/-- The order in which the parser makes its callbacks: a value belongs to a name, and every name
    gets its value before the message is complete. -/
def Ordered (o : Obs) (older : List Obs) : Prop :=
  (o.isValue = true → (unfinished older).strings ≠ []) ∧
    (o.isComplete = true → (unfinished older).name = none)

/-- No reconnection cuts a response in two, every response has a header, and no header holds a
    NUL byte. -/
def Plainly (o : Obs) (older : List Obs) : Prop :=
  (o.drops = true → unfinished older = .empty) ∧
    (o.isComplete = true → (unfinished older).fields ≠ []) ∧ ∀ piece ∈ o.headerPiece, 0 ∉ piece

instance (o : Obs) (older : List Obs) : Decidable (Ordered o older) :=
  inferInstanceAs (Decidable ((o.isValue = true → (unfinished older).strings ≠ []) ∧
    (o.isComplete = true → (unfinished older).name = none)))

instance (o : Obs) (older : List Obs) : Decidable (Plainly o older) :=
  inferInstanceAs (Decidable ((o.drops = true → unfinished older = .empty) ∧
    (o.isComplete = true → (unfinished older).fields ≠ []) ∧
      ∀ piece ∈ o.headerPiece, 0 ∉ piece))

/-! ## The strings of a response -/

section Strings

variable {m : Message} {piece : Bytes}

theorem headerStrings_append {headers headers' : List (Bytes × Bytes)} :
    headerStrings (headers ++ headers') = headerStrings headers ++ headerStrings headers' := by
  simp [headerStrings]

theorem Message.strings_ne_nil : m.strings ≠ [] ↔ m.name ≠ none ∨ m.fields ≠ [] := by
  cases hname : m.name <;> cases hfields : m.fields <;>
    simp [Message.strings, headerStrings, hname, hfields]

theorem Message.strings_addName_of_some {name : Bytes} (piece : Bytes)
    (hname : m.name = some name) :
    ∃ init, m.strings = init ++ [name] ∧ (m.addName piece).strings = init ++ [name ++ piece] :=
  ⟨headerStrings m.fields.reverse, by simp [Message.strings, hname],
    by simp [Message.strings, Message.addName, hname]⟩

theorem Message.strings_addName_of_none (hname : m.name = none) :
    (m.addName piece).strings = m.strings ++ [piece] := by
  simp [Message.strings, Message.addName, hname]

theorem Message.strings_addValue_of_some {name : Bytes} (piece : Bytes)
    (hname : m.name = some name) :
    (m.addValue piece).strings = m.strings ++ [piece] := by
  simp [Message.strings, Message.addValue, hname, headerStrings_append]
  simp [headerStrings]

theorem Message.strings_addValue_of_none {name value : Bytes} {fields : List (Bytes × Bytes)}
    (piece : Bytes) (hname : m.name = none) (hfields : m.fields = (name, value) :: fields) :
    ∃ init, m.strings = init ++ [value] ∧
      (m.addValue piece).strings = init ++ [value ++ piece] := by
  refine ⟨headerStrings fields.reverse ++ [name], ?_, ?_⟩
  · simp [Message.strings, hname, hfields, headerStrings_append]
    simp [headerStrings]
  · simp [Message.strings, Message.addValue, hname, hfields, headerStrings_append]
    simp [headerStrings]

@[simp]
theorem Message.body_addValue : (m.addValue piece).body = m.body := by
  rw [Message.addValue]
  split <;> rfl

end Strings

/-! ## The invariant -/

variable {S : Setting} {l l' : Local} {piece : Bytes}

/-- A header buffer that holds the names and values of a message. -/
structure HeadersOf (m : Message) (state : HeaderState) (b : Buffer) : Prop where
  holds : Holds 0 m.strings b.contents
  le_length : b.cursor ≤ b.length
  lt_length : m.strings ≠ [] → b.cursor < b.length
  state_eq : m.strings ≠ [] → (state = .value ↔ m.name = none)
  start : m.strings = [] → state = .field

/-- The buffers of a connection hold the response in progress, and each one before was
    delivered. -/
structure Encoded (l : Local) : Prop where
  headers : HeadersOf (unfinished l.history) l.c.state l.c.headers
  body : l.c.body.contents = (unfinished l.history).body
  body_le : l.c.body.cursor ≤ l.c.body.length
  plain : ∀ s ∈ (unfinished l.history).strings, (0 : UInt8) ∉ s
  delivered : ExactDelivery l.history

theorem headersOf_reset {b : Buffer} : HeadersOf .empty .field (bufferReset b) where
  holds := by
    rw [Buffer.contents, bufferReset, List.take_zero]
    exact .none
  le_length := Nat.zero_le _
  lt_length := fun h => absurd rfl h
  state_eq := fun h => absurd rfl h
  start := fun _ => rfl

/-! ### Pieces -/

section Pieces

variable {m : Message} {b : Buffer} {state : HeaderState} {junk : ℕ → UInt8}

/-- A piece of a name goes on with the name, or it begins one after a value. -/
theorem HeadersOf.addName (h : HeadersOf m state b) : HeadersOf (m.addName piece) .field
    (bufferAppend junk (if state = .value then bufferTerminate b else b) piece) := by
  have hne : (m.addName piece).strings ≠ [] := by
    rw [Message.strings_ne_nil]
    exact .inl (by simp [Message.addName])
  have happend : ∀ b' : Buffer, b'.cursor ≤ b'.length →
      Holds 0 (m.addName piece).strings (b'.contents ++ piece) →
      HeadersOf (m.addName piece) .field (bufferAppend junk b' piece) := fun b' hle hholds =>
    ⟨by rwa [contents_bufferAppend hle], (cursor_lt_bufferAppend hle).le,
      fun _ => cursor_lt_bufferAppend hle, fun _ => by simp [Message.addName],
      fun h => absurd h hne⟩
  by_cases hstate : state = .value
  · -- the value before it is terminated first
    have hstrings : m.strings ≠ [] := fun hnil => by
      rw [h.start hnil] at hstate
      cases hstate
    have hroom := h.lt_length hstrings
    rw [if_pos hstate]
    refine happend _ (cursor_bufferTerminate_le hroom) ?_
    rw [contents_bufferTerminate hroom,
      Message.strings_addName_of_none ((h.state_eq hstrings).mp hstate)]
    exact h.holds.next hstrings
  · rw [if_neg hstate]
    refine happend b h.le_length ?_
    have hholds := h.holds
    cases hname : m.name with
    | none =>
      -- the first name of the message
      have hnil : m.strings = [] := by
        by_contra hstrings
        exact hstate ((h.state_eq hstrings).mpr hname)
      rw [Message.strings_addName_of_none hname, hnil]
      rw [hnil] at hholds
      rw [hholds.eq_nil]
      exact .first
    | some name =>
      obtain ⟨init, hstrings, hnext⟩ := Message.strings_addName_of_some piece hname
      rw [hnext]
      rw [hstrings] at hholds
      exact hholds.extend

/-- A piece of a value goes on with the value, or it begins one after a name. -/
theorem HeadersOf.addValue (h : HeadersOf m state b) (hstrings : m.strings ≠ []) :
    HeadersOf (m.addValue piece) .value
      (bufferAppend junk (if state = .field then bufferTerminate b else b) piece) := by
  have hroom := h.lt_length hstrings
  have hname' : (m.addValue piece).name = none := by
    rw [Message.addValue]
    split <;> simp_all
  have happend : ∀ b' : Buffer, b'.cursor ≤ b'.length →
      Holds 0 (m.addValue piece).strings (b'.contents ++ piece) →
      (m.addValue piece).strings ≠ [] →
      HeadersOf (m.addValue piece) .value (bufferAppend junk b' piece) := fun b' hle hholds hne =>
    ⟨by rwa [contents_bufferAppend hle], (cursor_lt_bufferAppend hle).le,
      fun _ => cursor_lt_bufferAppend hle, fun _ => by simp [hname'], fun h => absurd h hne⟩
  cases hname : m.name with
  | some name =>
    -- the name before it is terminated first
    have hstate : state = .field := by
      cases state with
      | field => rfl
      | value =>
        have := (h.state_eq hstrings).mp rfl
        rw [hname] at this
        cases this
    have hnext := Message.strings_addValue_of_some piece hname
    rw [if_pos hstate]
    refine happend _ (cursor_bufferTerminate_le hroom) ?_ ?_
    · rw [contents_bufferTerminate hroom, hnext]
      exact h.holds.next hstrings
    · simp [hnext]
  | none =>
    have hfields := (Message.strings_ne_nil.mp hstrings).resolve_left (not_not.mpr hname)
    obtain ⟨⟨name, value⟩, fields, hfields⟩ := List.exists_cons_of_ne_nil hfields
    obtain ⟨init, hinit, hnext⟩ := Message.strings_addValue_of_none piece hname hfields
    rw [if_neg (by rw [(h.state_eq hstrings).mpr hname]; simp)]
    refine happend b h.le_length ?_ ?_
    · have hholds := h.holds
      rw [hinit] at hholds
      rw [hnext]
      exact hholds.extend
    · simp [hnext]

end Pieces

/-! ### Strings without NUL -/

/-- A piece without NUL goes on with a string or begins one. -/
theorem plain_extend {ss init : List Bytes} {s : Bytes} (hss : ∀ s ∈ ss, (0 : UInt8) ∉ s)
    (hinit : ss = init ++ [s]) (hpiece : (0 : UInt8) ∉ piece) :
    ∀ s' ∈ init ++ [s ++ piece], (0 : UInt8) ∉ s' := by
  subst hinit
  intro s' hs'
  rcases List.mem_append.mp hs' with hs' | hs'
  · exact hss s' (List.mem_append_left _ hs')
  · rw [List.mem_singleton.mp hs', List.mem_append, not_or]
    exact ⟨hss s (by simp), hpiece⟩

theorem plain_next {ss : List Bytes} (hss : ∀ s ∈ ss, (0 : UInt8) ∉ s)
    (hpiece : (0 : UInt8) ∉ piece) : ∀ s ∈ ss ++ [piece], (0 : UInt8) ∉ s := by
  intro s hs
  rcases List.mem_append.mp hs with hs | hs
  · exact hss s hs
  · rwa [List.mem_singleton.mp hs]

theorem plain_addName {m : Message} (hm : ∀ s ∈ m.strings, (0 : UInt8) ∉ s)
    (hpiece : (0 : UInt8) ∉ piece) : ∀ s ∈ (m.addName piece).strings, (0 : UInt8) ∉ s := by
  cases hname : m.name with
  | none =>
    rw [Message.strings_addName_of_none hname]
    exact plain_next hm hpiece
  | some name =>
    obtain ⟨init, hstrings, hnext⟩ := Message.strings_addName_of_some piece hname
    rw [hnext]
    exact plain_extend hm hstrings hpiece

theorem plain_addValue {m : Message} (hm : ∀ s ∈ m.strings, (0 : UInt8) ∉ s)
    (hpiece : (0 : UInt8) ∉ piece) : ∀ s ∈ (m.addValue piece).strings, (0 : UInt8) ∉ s := by
  cases hname : m.name with
  | some name =>
    rw [Message.strings_addValue_of_some piece hname]
    exact plain_next hm hpiece
  | none =>
    cases hfields : m.fields with
    | nil =>
      rw [Message.addValue, hname, hfields]
      exact hm
    | cons field fields =>
      obtain ⟨init, hstrings, hnext⟩ :=
        Message.strings_addValue_of_none piece hname hfields
      rw [hnext]
      exact plain_extend hm hstrings hpiece

/-! ## The acts -/

/-- An entry that tells nothing of a response. -/
def Obs.silent : Obs → Bool
  | .field _ | .value _ | .body _ | .complete _ _ _ | .closed | .scriptResponse _ _ _ _ => false
  | _ => true

section Silent

variable {noted h : List Obs} {o : Obs}

theorem delivered_of_silent (ho : o.silent = true) : o.delivered = none := by
  cases o with
  | scriptResponse => cases ho
  | _ => rfl

theorem awaited_of_silent (ho : o.silent = true) : awaited (o :: h) = none := by
  cases o with
  | complete => cases ho
  | _ => rfl

theorem unfinished_of_silent (ho : o.silent = true) : unfinished (o :: h) = unfinished h := by
  cases o with
  | field | value | body | complete | closed | scriptResponse => cases ho
  | _ => rfl

theorem unfinished_append (hnoted : ∀ o ∈ noted, o.silent = true) :
    unfinished (noted ++ h) = unfinished h := by
  induction noted with
  | nil => rfl
  | cons o noted ih =>
    rw [List.cons_append, unfinished_of_silent (hnoted o (by simp))]
    exact ih fun o ho => hnoted o (by simp [ho])

/-- An entry that does not complete a response keeps what was delivered. -/
theorem ExactDelivery.cons (hh : ExactDelivery h) (hdelivered : o.delivered = none)
    (hawaited : awaited (o :: h) = none) : ExactDelivery (o :: h) :=
  ⟨⟨hdelivered.trans hh.settled.symm, hh.each⟩, hawaited⟩

theorem ExactDelivery.append (hh : ExactDelivery h) (hnoted : ∀ o ∈ noted, o.silent = true) :
    ExactDelivery (noted ++ h) := by
  induction noted with
  | nil => exact hh
  | cons o noted ih =>
    have ho := hnoted o (by simp)
    exact (ih fun o ho => hnoted o (by simp [ho])).cons (delivered_of_silent ho)
      (awaited_of_silent ho)

end Silent

/-! ### What an act does to the buffers -/

/-- An act writes to the buffers in one of the callbacks, it gives up the TCP connection, or it
    has nothing to do with responses. -/
inductive Copies (S : Setting) (l : Local) : Local → Prop
  | silent (l' : Local) (noted : List Obs) (hhistory : l'.history = noted ++ l.history)
      (hnoted : ∀ o ∈ noted, o.silent = true) (hheaders : l'.c.headers = l.c.headers)
      (hbody : l'.c.body = l.c.body) (hstate : l'.c.state = l.c.state) : Copies S l l'
  | reconnect (i : ConnectInput) : Copies S l (reconnectSocket i l)
  | field (piece : Bytes) : Copies S l (headerField S piece l)
  | value (piece : Bytes) : Copies S l (headerValue S piece l)
  | body (piece : Bytes) : Copies S l (responseBody S piece l)
  | respond (i : CompleteInput) : Copies S l (respond S i l)

theorem Act.copies (hact : Act S l l') : Copies S l l' := by
  cases hact with
  | tick now => exact .silent _ [_] rfl (by simp [Obs.silent]) rfl rfl rfl
  | thread | fail | parser => exact .silent _ [] rfl (by simp) rfl rfl rfl
  | initial id now i harmed =>
    have hconnects := Local.initialConnect_connects now i l
    obtain ⟨ok, hhistory⟩ := hconnects.history_eq
    refine .silent _ [.connect false ok, .clock now] hhistory (by simp [Obs.silent]) ?_ ?_ ?_ <;>
      rw [setLoop_c, hconnects.c_eq] <;> rfl
  | reconnect i hconnected => exact .reconnect i
  | paced now =>
    obtain ⟨noted, hhistory, hnoted⟩ := usecToNextSend_history S now l
    refine .silent _ (noted ++ [.clock now]) (by simp [hhistory]) ?_ ?_ ?_ ?_
    · rcases hnoted with rfl | rfl | rfl <;> simp [Obs.silent]
    all_goals rw [usecToNextSend_c]
  | park fd writable armed wait hcalls hwritten =>
    exact .silent _ [_, _] park_history (by simp [Obs.silent]) rfl rfl rfl
  | resume id harmed =>
    exact .silent _ [_] resume_history (by simp [Obs.silent]) (by simp) (by simp) (by simp)
  | start fd writable i hcalls hwritten hclock hpermits =>
    have hhistory := startBatch_history (S := S) (i := i) (l := l)
    split_ifs at hhistory
    · exact .silent _ [_, _, _] hhistory (by simp [Obs.silent]) (by rw [startBatch_c])
        (by rw [startBatch_c]) (by rw [startBatch_c])
    · exact .silent _ [_, _] hhistory (by simp [Obs.silent]) (by rw [startBatch_c])
        (by rw [startBatch_c]) (by rw [startBatch_c])
  | wrote fd writable n hcalls hbatch =>
    have hhistory : (acceptBytes n fd l).history = _ := acceptBytes_history
    split_ifs at hhistory
    · exact .silent _ [_, _] hhistory (by simp [Obs.silent]) (by rw [acceptBytes_c])
        (by rw [acceptBytes_c]) (by rw [acceptBytes_c])
    · exact .silent _ [_] hhistory (by simp [Obs.silent]) (by rw [acceptBytes_c])
        (by rw [acceptBytes_c]) (by rw [acceptBytes_c])
  | refuse fd writable hcalls hbatch =>
    exact .silent _ [_] rfl (by simp [Obs.silent]) rfl rfl rfl
  | established fd writable hcalls =>
    exact .silent _ [_] openSocket_history (by simp [Obs.silent]) (by simp) (by simp) (by simp)
  | field fd piece hcalls hwant => exact .field piece
  | value fd piece hcalls hwant => exact .value piece
  | body fd piece hcalls hwant => exact .body piece
  | respond fd i hcalls => exact .respond i

/-- What is measured after the delivery says nothing about responses. -/
theorem respond_silent (S : Setting) (i : CompleteInput) (l : Local) :
    ∃ noted : List Obs, (respond S i l).history =
      noted ++ (delivery i l.c ++ .complete l.tcp i.now i.status :: .clock i.now :: l.history) ∧
      ∀ o ∈ noted, o.silent = true := by
  rw [respond_history, deliver_history]
  split_ifs
  · exact ⟨[], rfl, by simp⟩
  · exact ⟨_, rfl, forall_measurement (fun _ _ => rfl) rfl fun _ _ _ => rfl⟩

theorem respond_buffers {i : CompleteInput} : (respond S i l).c.headers = l.c.delivered.headers ∧
    (respond S i l).c.body = l.c.delivered.body ∧
    (respond S i l).c.state = l.c.delivered.state := by
  rw [respond_c]
  split_ifs <;> exact ⟨rfl, rfl, rfl⟩

/-! ### The response in progress stays in the buffers -/

/-- An act that has nothing to do with responses. -/
theorem Encoded.of_silent (hl : Encoded l) (noted : List Obs)
    (hhistory : l'.history = noted ++ l.history) (hnoted : ∀ o ∈ noted, o.silent = true)
    (hheaders : l'.c.headers = l.c.headers) (hbody : l'.c.body = l.c.body)
    (hstate : l'.c.state = l.c.state) : Encoded l' := by
  have hunfinished : unfinished l'.history = unfinished l.history := by
    rw [hhistory]
    exact unfinished_append hnoted
  refine ⟨?_, ?_, ?_, ?_, ?_⟩
  · rw [hunfinished, hstate, hheaders]
    exact hl.headers
  · rw [hunfinished, hbody]
    exact hl.body
  · rw [hbody]
    exact hl.body_le
  · rw [hunfinished]
    exact hl.plain
  · rw [hhistory]
    exact hl.delivered.append hnoted

/-- A reconnection between two responses. -/
theorem Encoded.reconnect {i : ConnectInput} (hl : Encoded l)
    (hclean : unfinished l.history = .empty) : Encoded (reconnectSocket i l) := by
  have hconnects := Local.reconnectSocket_connects i l
  obtain ⟨ok, hhistory⟩ := hconnects.history_eq
  have hc := hconnects.c_eq
  have hunfinished : unfinished (reconnectSocket i l).history = unfinished l.history := by
    rw [hhistory, hclean]
    rfl
  refine ⟨?_, ?_, ?_, ?_, ?_⟩
  · rw [hunfinished, hc]
    exact hl.headers
  · rw [hunfinished, hc]
    exact hl.body
  · rw [hc]
    exact hl.body_le
  · rw [hunfinished]
    exact hl.plain
  · rw [hhistory]
    exact (hl.delivered.cons (o := .closed) rfl rfl).cons rfl rfl

theorem Encoded.headerField (hl : Encoded l) (hpiece : (0 : UInt8) ∉ piece) :
    Encoded (headerField S piece l) := by
  refine ⟨?_, ?_, ?_, plain_addName hl.plain hpiece, hl.delivered.cons rfl rfl⟩
  · rw [headerField_c]
    exact hl.headers.addName
  · rw [headerField_c]
    exact hl.body
  · rw [headerField_c]
    exact hl.body_le

theorem Encoded.headerValue (hl : Encoded l) (hpiece : (0 : UInt8) ∉ piece)
    (hordered : (unfinished l.history).strings ≠ []) : Encoded (headerValue S piece l) := by
  refine ⟨?_, ?_, ?_, plain_addValue hl.plain hpiece, hl.delivered.cons rfl rfl⟩
  · rw [headerValue_c]
    exact hl.headers.addValue hordered
  · rw [headerValue_c]
    exact hl.body.trans Message.body_addValue.symm
  · rw [headerValue_c]
    exact hl.body_le

theorem Encoded.responseBody (hl : Encoded l) : Encoded (responseBody S piece l) := by
  refine ⟨?_, ?_, (cursor_lt_bufferAppend hl.body_le).le, hl.plain, hl.delivered.cons rfl rfl⟩
  · exact ⟨hl.headers.holds, hl.headers.le_length, hl.headers.lt_length, hl.headers.state_eq,
      hl.headers.start⟩
  · exact (contents_bufferAppend hl.body_le).trans (congrArg (· ++ piece) hl.body)

/-- A response with a header is handed over as it came. -/
theorem Encoded.delivery_eq {i : CompleteInput} (hl : Encoded l)
    (hname : (unfinished l.history).name = none) (hfields : (unfinished l.history).fields ≠ []) :
    l.c.headers.allocated = true ∧ delivery i l.c = [.scriptResponse i.status
      (unfinished l.history).fields.reverse (unfinished l.history).body false] := by
  have hstrings : (unfinished l.history).strings ≠ [] :=
    Message.strings_ne_nil.mpr (.inr hfields)
  have hroom := hl.headers.lt_length hstrings
  have halloc : l.c.headers.allocated = true := by
    cases hmem : l.c.headers.mem with
    | nil => simp [Buffer.length, hmem] at hroom
    | cons => simp [Buffer.allocated, hmem]
  have hheaders : (unfinished l.history).strings =
      headerStrings (unfinished l.history).fields.reverse := by
    simp [Message.strings, hname]
  have hcontents : (bufferTerminate l.c.headers).contents =
      terminated 0 (headerStrings (unfinished l.history).fields.reverse) := by
    rw [contents_bufferTerminate hroom, hl.headers.holds.close hstrings, hheaders]
  have hread := headerPairs_eq hcontents
    (cursor_bufferTerminate_le hroom) (hheaders ▸ hl.plain)
  exact ⟨halloc, by simp [delivery, halloc, hread, hl.body]⟩

theorem Encoded.respond {i : CompleteInput} (hl : Encoded l)
    (hname : (unfinished l.history).name = none) (hfields : (unfinished l.history).fields ≠ []) :
    Encoded (respond S i l) := by
  obtain ⟨halloc, hdelivery⟩ := hl.delivery_eq (i := i) hname hfields
  have hc : (Wrkx.respond S i l).c.headers = bufferReset (bufferTerminate l.c.headers) ∧
      (Wrkx.respond S i l).c.body = bufferReset l.c.body ∧
      (Wrkx.respond S i l).c.state = .field := by
    simpa [Connection.delivered, halloc] using respond_buffers (S := S) (l := l) (i := i)
  have hreceived : ExactDelivery (delivery i l.c ++
      .complete l.tcp i.now i.status :: .clock i.now :: l.history) := by
    have hclock := hl.delivered.cons (o := .clock i.now) rfl rfl
    rw [hdelivery]
    exact ⟨⟨rfl, hclock.settled.symm, hclock.each⟩, rfl⟩
  have hunfinished : unfinished (delivery i l.c ++
      .complete l.tcp i.now i.status :: .clock i.now :: l.history) = .empty := by
    rw [hdelivery]
    rfl
  obtain ⟨noted, hhistory, hnoted⟩ := respond_silent S i l
  have hempty : unfinished (Wrkx.respond S i l).history = .empty := by
    rw [hhistory, unfinished_append hnoted, hunfinished]
  refine ⟨?_, ?_, ?_, ?_, ?_⟩
  · rw [hempty, hc.1, hc.2.2]
    exact headersOf_reset
  · rw [hempty, hc.2.1]
    rfl
  · rw [hc.2.1]
    exact Nat.zero_le _
  · rw [hempty]
    exact fun s hs => absurd hs List.not_mem_nil
  · rw [hhistory]
    exact hreceived.append hnoted

/-- What is assumed of a history. -/
def Tame (h : List Obs) : Prop := Each Ordered h ∧ Each Plainly h

theorem backward_tame : Backward Tame := backward_each.and backward_each

/-- Every act keeps the response in progress in the buffers. -/
theorem Act.encoded (hact : Act S l l') (htame : Tame l'.history) (hl : Encoded l) :
    Encoded l' := by
  obtain ⟨hordered, hplainly⟩ := htame
  cases hact.copies with
  | silent _ noted hhistory hnoted hheaders hbody hstate =>
    exact hl.of_silent noted hhistory hnoted hheaders hbody hstate
  | reconnect i =>
    have hclosed : .closed :: l.history <:+ (reconnectSocket i l).history := by
      obtain ⟨ok, hhistory⟩ := (Local.reconnectSocket_connects i l).history_eq
      rw [hhistory]
      exact ⟨[.connect true ok], rfl⟩
    -- by assumption no response was in progress when the TCP connection was closed
    exact hl.reconnect ((hplainly.at_entry hclosed).1 rfl)
  | field piece => exact hl.headerField (hplainly.1.2.2 piece rfl)
  | value piece => exact hl.headerValue (hplainly.1.2.2 piece rfl) (hordered.1.1 rfl)
  | body piece => exact hl.responseBody
  | respond i =>
    have hreceived := suffix_received S i l
    exact hl.respond ((hordered.at_entry hreceived).2 rfl) ((hplainly.at_entry hreceived).2.1 rfl)

/-! ## Runs -/

theorem Start.encoded (start : Start) : Encoded start.local where
  headers := headersOf_reset (b := .null)
  body := rfl
  body_le := le_rfl
  plain := fun _ hs => absurd hs List.not_mem_nil
  delivered := ⟨trivial, rfl⟩

/-- In every run whose responses have headers, hold no NUL byte in them and are not cut by a
    reconnection, `script_response` is called once for each response that is complete, right
    then, with its headers and its body, and reads nothing past the cursor. -/
theorem responses_delivered {start : Start} {moves : List Move} (h : start.run S moves = some l)
    (hordered : Each Ordered l.history) (hplainly : Each Plainly l.history) :
    ExactDelivery l.history :=
  (Start.run_preserves_under (I := Encoded) backward_tame
    (fun _ _ hact htame hl => hact.encoded htame hl) h ⟨hordered, hplainly⟩ start.encoded).delivered

/-- A read that makes the given callbacks and leaves the parser inside a message. -/
def Example.readPart (fd : Fd) (callbacks : List Callback) : Move :=
  .event (.file fd false (.readable (connects fd) [.ok 1 callbacks .message true false]))

/-- Two responses in pieces, with an empty value, a header after the body and a reconnection
    between the two. -/
def Example.pieces : Option Local :=
  (start [71] 10000).run (setting 1 false)
    [connect 5 3, opens 3, write 3 10 [] (.ok 1),
      readPart 3 [.headerField [65], .headerField [66], .headerValue [49]],
      readPart 3 [.headerValue [50], .headerField [67], .headerValue [], .body [7]],
      read 3 [.body [8], .headerField [65], .headerValue [51], completed 50 true (connects 3)],
      hangUp 3 4, opens 4, write 4 1000 [] (.ok 1),
      read 4 [.headerField [65], .headerValue [52], completed 1050 false (connects 5)]]

theorem responses_delivered_pieces : ∃ l : Local, Example.pieces = some l ∧
    l.history.filterMap Obs.delivered = [⟨200, [([65], [52])], [], false⟩,
      ⟨200, [([65, 66], [49, 50]), ([67], []), ([65], [51])], [7, 8], false⟩] ∧
    ExactDelivery l.history := by
  have hrun : ∃ l : Local, Example.pieces = some l ∧
      (Each Ordered l.history ∧ Each Plainly l.history) ∧
      l.history.filterMap Obs.delivered = [⟨200, [([65], [52])], [], false⟩,
        ⟨200, [([65, 66], [49, 50]), ([67], []), ([65], [51])], [7, 8], false⟩] :=
    exists_of_any (by decide +kernel)
  obtain ⟨l, hl, ⟨hordered, hplainly⟩, hdelivered⟩ := hrun
  exact ⟨l, hl, hdelivered, responses_delivered hl hordered hplainly⟩

/-- The peer hangs up inside a response; the next one comes whole. -/
def Example.cutResponse : Option Local :=
  (start [71] 10000).run (setting 1 false)
    [connect 5 3, opens 3, write 3 10 [] (.ok 1),
      readPart 3 [.headerField [65], .headerValue [49]], hangUp 3 4, opens 4,
      write 4 20 [] (.ok 1),
      read 4 [.headerField [66], .headerValue [50], completed 50 true (connects 4)]]

/-- What an unfinished response left in the buffers is delivered with the next one. -/
theorem unfinished_response_leaks : ∃ l : Local, Example.cutResponse = some l ∧
    Each Ordered l.history ∧
    l.history.filterMap Obs.delivered = [⟨200, [([65], [49]), ([66], [50])], [], false⟩] ∧
    ¬ ExactDelivery l.history := by
  have hrun : ∃ l : Local, Example.cutResponse = some l ∧ (Each Ordered l.history ∧
      l.history.filterMap Obs.delivered = [⟨200, [([65], [49]), ([66], [50])], [], false⟩]) ∧
      ¬ Each Delivers l.history :=
    exists_of_any (by decide +kernel)
  obtain ⟨l, hl, ⟨hordered, hdelivered⟩, hnot⟩ := hrun
  exact ⟨l, hl, hordered, hdelivered, fun h => hnot h.each⟩

/-- A response without headers after one with headers. -/
def Example.bareResponse : Option Local :=
  (start [71] 10000).run (setting 1 false)
    [connect 5 3, opens 3, write 3 10 [] (.ok 1),
      read 3 [.headerField [65], .headerValue [49], completed 50 true (connects 3)],
      write 3 1000 [] (.ok 1), read 3 [.body [7], completed 1050 true (connects 3)]]

/-- For a response without headers one is read past the cursor. -/
theorem bare_response_overreads : ∃ l : Local, Example.bareResponse = some l ∧
    Each Ordered l.history ∧ l.history.filterMap Obs.delivered =
      [⟨200, [([], [])], [7], true⟩, ⟨200, [([65], [49])], [], false⟩] ∧
    ¬ ExactDelivery l.history := by
  have hrun : ∃ l : Local, Example.bareResponse = some l ∧
      (Each Ordered l.history ∧ l.history.filterMap Obs.delivered =
        [⟨200, [([], [])], [7], true⟩, ⟨200, [([65], [49])], [], false⟩]) ∧
      ¬ Each Delivers l.history :=
    exists_of_any (by decide +kernel)
  obtain ⟨l, hl, ⟨hordered, hdelivered⟩, hnot⟩ := hrun
  exact ⟨l, hl, hordered, hdelivered, fun h => hnot h.each⟩

/-- A response with a NUL byte in a value. -/
def Example.nulValue : Option Local :=
  (start [71] 10000).run (setting 1 false)
    [connect 5 3, opens 3, write 3 10 [] (.ok 1),
      read 3 [.headerField [65], .headerValue [49, 0, 50], .headerField [66], .headerValue [51],
        completed 50 true (connects 3)]]

/-- A value ends at its first NUL byte, and what comes after it is taken for names and values. -/
theorem nul_cuts_value : ∃ l : Local, Example.nulValue = some l ∧
    Each Ordered l.history ∧
    l.history.filterMap Obs.delivered = [⟨200, [([65], [49]), ([50], [66])], [], true⟩] ∧
    ¬ ExactDelivery l.history := by
  have hrun : ∃ l : Local, Example.nulValue = some l ∧ (Each Ordered l.history ∧
      l.history.filterMap Obs.delivered = [⟨200, [([65], [49]), ([50], [66])], [], true⟩]) ∧
      ¬ Each Delivers l.history :=
    exists_of_any (by decide +kernel)
  obtain ⟨l, hl, ⟨hordered, hdelivered⟩, hnot⟩ := hrun
  exact ⟨l, hl, hordered, hdelivered, fun h => hnot h.each⟩

end Wrkx
