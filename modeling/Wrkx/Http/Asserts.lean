import Wrkx.Base.Run
import Wrkx.Http.Quiet

/-!
# The assertions of the parser

Every `assert` of `http_parser_execute` holds in every run: whatever the data and however it
is cut, no case is entered in a state of the matcher, with a length or with a mark that it
does not expect.

## Main results

- `Valid` — what a parser keeps of its state
- `switch_keeps` — every round of the loop keeps it, and no assertion fails
-/

namespace Wrkx

variable {σ : Type*} {S : HttpParserSettings σ} {e : Exec σ} {parser : HttpParser}
  {ch c : UInt8} {p rest passed : Bytes} {more : ℕ}

/-! ## Callbacks -/

/-- What `on_message_complete` may do: a message that is complete leaves the parser as it is or
    starts it again. -/
structure HttpParserSettings.Restarts (S : HttpParserSettings σ) : Prop where
  complete : ∀ parser u, (S.onMessageComplete parser u).1 = parser ∨
    ∃ t, (S.onMessageComplete parser u).1 = .init t

/-- The same, and the count of the header size makes no difference to it. -/
structure HttpParserSettings.Tame (S : HttpParserSettings σ) : Prop extends S.Restarts where
  blind : ∀ parser u, S.onMessageComplete (parser.withNread 0) u =
    ((S.onMessageComplete parser u).1.withNread 0, (S.onMessageComplete parser u).2)

/-- What the callbacks of this program have in common: a text may also come in pieces. -/
structure HttpParserSettings.Regular (S : HttpParserSettings σ) : Prop extends S.Tame where
  field : ∀ s t u, S.onHeaderField (s ++ t) u = S.onHeaderField t (S.onHeaderField s u)
  value : ∀ s t u, S.onHeaderValue (s ++ t) u = S.onHeaderValue t (S.onHeaderValue s u)
  body : ∀ s t u, S.onBody (s ++ t) u = S.onBody t (S.onBody s u)

theorem verifySettings_regular : verifySettings.Regular where
  complete _ _ := .inl rfl
  blind _ _ := rfl
  field _ _ _ := rfl
  value _ _ _ := rfl
  body _ _ _ := rfl

/-! ## The invariant -/

/-- The states of the matcher in a header name. -/
def HeaderStates.inField : HeaderStates → Bool
  | .general | .c | .co | .con | .matchingConnection | .matchingProxyConnection
  | .matchingContentLength | .matchingTransferEncoding | .matchingUpgrade | .connection
  | .contentLength | .transferEncoding | .upgrade => true
  | _ => false

/-- The states of the matcher in a header value. -/
def HeaderStates.inValue : HeaderStates → Bool
  | .connection | .transferEncoding => false
  | _ => true

/-- The states between the headers and the trailing headers of a chunked message. -/
def State.inChunks : State → Bool
  | chunkSizeStart | chunkSize | chunkParameters | chunkSizeAlmostDone | chunkData
  | chunkDataAlmostDone | chunkDataDone => true
  | _ => false

/-- The states in which a text of the lines of a message is at hand. -/
def State.inText (s : State) : Bool :=
  s.inUrl || s = .headerField || s = .headerValue || s = .resStatus

/-- The states in which a part of a body may be at hand. -/
def State.inBody : State → Bool
  | bodyIdentity | bodyIdentityEof | chunkData | chunkDataAlmostDone => true
  | _ => false

/-- What the cases of the switch expect of the parser. -/
structure HttpParser.Valid (parser : HttpParser) : Prop where
  ok : parser.httpErrno = .ok
  bound : parser.contentLength ≤ ullongMax
  field : parser.state = .headerField → parser.headerState.inField = true
  value : parser.state = .headerValue → parser.headerState.inValue = true
  chunked : parser.state.inChunks = true → parser.flags.chunked = true
  nread : parser.state = .chunkSizeStart → parser.nread = 0
  size : parser.state ∈ [.chunkSize, .chunkParameters, .chunkSizeAlmostDone] →
    parser.contentLength < ullongMax
  length : parser.state = .bodyIdentity ∨ parser.state = .chunkData →
    parser.contentLength ≠ 0 ∧ parser.contentLength ≠ ullongMax
  ended : parser.state = .chunkDataAlmostDone → parser.contentLength = 0

/-- Which marks are set. -/
structure Exec.Marked (e : Exec σ) : Prop where
  field : e.headerFieldMark.isSome = true ↔ e.parser.state = .headerField
  value : e.headerValueMark.isSome = true ↔ e.parser.state = .headerValue
  body : e.bodyMark.isSome = true → e.parser.state.inBody = true
  url : e.urlMark = e.parser.state.inUrl
  status : e.statusMark = decide (e.parser.state = .resStatus)

/-- A calm state expects nothing. -/
theorem HttpParser.valid_of_calm (hok : parser.httpErrno = .ok)
    (hbound : parser.contentLength ≤ ullongMax) (h : parser.state.calm = true) :
    parser.Valid where
  ok := hok
  bound := hbound
  field hs := by rw [hs] at h; cases h
  value hs := by rw [hs] at h; cases h
  chunked hs := by
    revert h hs
    cases parser.state <;> simp [State.calm, State.inChunks]
  nread hs := by rw [hs] at h; cases h
  size hs := by
    revert h hs
    cases parser.state <;> simp [State.calm]
  length hs := by rcases hs with hs | hs <;> (rw [hs] at h; cases h)
  ended hs := by rw [hs] at h; cases h

theorem State.quiet_iff {s : State} :
    s.quiet = true ↔ s.calm = true ∧ s.inUrl = false ∧ s ≠ .resStatus := by
  simp [State.quiet, and_assoc]

namespace Exec

/-- No text is at hand. -/
def unmarked (e : Exec σ) : Prop :=
  e.headerFieldMark = none ∧ e.headerValueMark = none ∧ e.bodyMark = none ∧
    e.urlMark = false ∧ e.statusMark = false

theorem marked_of_unmarked (h : e.unmarked) (hs : e.parser.state.inText = false) : e.Marked := by
  obtain ⟨hfield, hvalue, hbody, hurl, hstatus⟩ := h
  simp only [State.inText, Bool.or_eq_false_iff, decide_eq_false_iff_not] at hs
  obtain ⟨⟨⟨hsurl, hsfield⟩, hsvalue⟩, hsstatus⟩ := hs
  refine ⟨?_, ?_, ?_, hurl.trans hsurl.symm, hstatus.trans (decide_eq_false hsstatus).symm⟩
  · simp [hfield, hsfield]
  · simp [hvalue, hsvalue]
  · simp [hbody]

theorem Marked.fieldMark (h : e.Marked) (hs : e.parser.state ≠ .headerField) :
    e.headerFieldMark = none := by
  by_contra hne
  exact hs (h.field.mp (Option.isSome_iff_ne_none.mpr hne))

theorem Marked.valueMark (h : e.Marked) (hs : e.parser.state ≠ .headerValue) :
    e.headerValueMark = none := by
  by_contra hne
  exact hs (h.value.mp (Option.isSome_iff_ne_none.mpr hne))

theorem Marked.noBody (h : e.Marked) (hs : e.parser.state.inBody = false) :
    e.bodyMark = none := by
  by_contra hne
  have := h.body (Option.isSome_iff_ne_none.mpr hne)
  rw [hs] at this
  cases this

theorem Marked.noUrl (h : e.Marked) (hs : e.parser.state.inUrl = false) : e.urlMark = false :=
  h.url.trans hs

theorem Marked.noStatus (h : e.Marked) (hs : e.parser.state ≠ .resStatus) :
    e.statusMark = false := h.status.trans (decide_eq_false hs)

theorem Marked.headerField (h : e.Marked) (hs : e.parser.state = .headerField) :
    ∃ text, e.headerFieldMark = some text ∧ e.headerValueMark = none ∧ e.bodyMark = none ∧
      e.urlMark = false ∧ e.statusMark = false := by
  obtain ⟨text, htext⟩ := Option.isSome_iff_exists.mp (h.field.mpr hs)
  exact ⟨text, htext, h.valueMark (by rw [hs]; decide), h.noBody (by rw [hs]; rfl),
    h.noUrl (by rw [hs]; rfl), h.noStatus (by rw [hs]; decide)⟩

theorem Marked.headerValue (h : e.Marked) (hs : e.parser.state = .headerValue) :
    ∃ text, e.headerValueMark = some text ∧ e.headerFieldMark = none ∧ e.bodyMark = none ∧
      e.urlMark = false ∧ e.statusMark = false := by
  obtain ⟨text, htext⟩ := Option.isSome_iff_exists.mp (h.value.mpr hs)
  exact ⟨text, htext, h.fieldMark (by rw [hs]; decide), h.noBody (by rw [hs]; rfl),
    h.noUrl (by rw [hs]; rfl), h.noStatus (by rw [hs]; decide)⟩

theorem Marked.inBody (h : e.Marked) (hs : e.parser.state.inBody = true) :
    e.headerFieldMark = none ∧ e.headerValueMark = none ∧ e.urlMark = false ∧
      e.statusMark = false := by
  refine ⟨h.fieldMark ?_, h.valueMark ?_, h.noUrl ?_, h.noStatus ?_⟩
  · intro hs'
    rw [hs'] at hs
    cases hs
  · intro hs'
    rw [hs'] at hs
    cases hs
  · revert hs
    cases e.parser.state <;> simp [State.inBody, State.inUrl]
  · intro hs'
    rw [hs'] at hs
    cases hs

/-- In a calm state there is no text for a callback. -/
theorem Marked.calm (h : e.Marked) (hcalm : e.parser.state.calm = true) :
    e.headerFieldMark = none ∧ e.headerValueMark = none ∧ e.bodyMark = none := by
  refine ⟨h.fieldMark ?_, h.valueMark ?_, h.noBody ?_⟩
  · rintro hs
    rw [hs] at hcalm
    cases hcalm
  · rintro hs
    rw [hs] at hcalm
    cases hcalm
  · revert hcalm
    cases e.parser.state <;> simp [State.calm, State.inBody]

theorem Marked.unmarked (h : e.Marked) (hquiet : e.parser.state.quiet = true) : e.unmarked := by
  obtain ⟨hcalm, hurl, hstatus⟩ := State.quiet_iff.mp hquiet
  obtain ⟨hfield, hvalue, hbody⟩ := h.calm hcalm
  exact ⟨hfield, hvalue, hbody, h.noUrl hurl, h.noStatus hstatus⟩

end Exec

/-- The state of the loop between two rounds. -/
structure Exec.Ready (e : Exec σ) : Prop where
  valid : e.parser.Valid
  marked : e.Marked

/-- Between two rounds, in a state that expects nothing. -/
structure Exec.Idle (e : Exec σ) : Prop where
  ok : e.parser.httpErrno = .ok
  bound : e.parser.contentLength ≤ ullongMax
  quiet : e.parser.state.quiet = true
  unmarked : e.unmarked

theorem State.inText_of_quiet {s : State} (h : s.quiet = true) : s.inText = false := by
  revert h
  cases s <;> decide

theorem Exec.Idle.ready (h : e.Idle) : e.Ready :=
  ⟨HttpParser.valid_of_calm h.ok h.bound (State.calm_of_quiet h.quiet),
    Exec.marked_of_unmarked h.unmarked (State.inText_of_quiet h.quiet)⟩

theorem HttpParser.newMessage_quiet : parser.newMessage.quiet = true := by
  unfold newMessage startState
  split_ifs <;> rfl

theorem HttpParser.init_quiet (t : HttpParserType) : (HttpParser.init t).state.quiet = true := by
  cases t <;> rfl

/-- After a message the parser is ready for the next one. -/
theorem idle_messageComplete (hS : S.Restarts) (hok : e.parser.httpErrno = .ok)
    (hbound : e.parser.contentLength ≤ ullongMax) (hmarks : e.unmarked) :
    (e.messageComplete S).Idle := by
  rcases hS.complete (e.parser.goto e.parser.newMessage) e.user with h | ⟨t, h⟩
  · refine ⟨?_, ?_, ?_, hmarks⟩ <;> simp only [Exec.messageComplete, h]
    exacts [hok, hbound, HttpParser.newMessage_quiet]
  · refine ⟨?_, ?_, ?_, hmarks⟩ <;> simp only [Exec.messageComplete, h]
    exacts [rfl, Nat.zero_le _, HttpParser.init_quiet t]

/-! ## Rules -/

/-- The parser after a return: no assertion failed, and without an error it is ready for more. -/
structure HttpParser.Rests (parser : HttpParser) : Prop where
  errno : parser.httpErrno ≠ .aborted
  valid : parser.httpErrno = .ok → parser.Valid

theorem HttpParser.rests_of_errno {errno : HttpErrno} (h : parser.httpErrno = errno)
    (hok : errno ≠ .ok) (haborted : errno ≠ .aborted) : parser.Rests :=
  ⟨h ▸ haborted, fun h' => absurd (h.symm.trans h') hok⟩

/-- A round ends with `P`, or it returns without a failed assertion. -/
def Step.Keeps (P : Exec σ → Prop) : Step σ → Prop
  | .next _ e => P e
  | .stop _ _ e => e.parser.Rests

variable {P : Exec σ → Prop} {case : Exec σ → Step σ}

theorem keeps_endCase (h : e.parser.httpErrno = .ok → P e)
    (herrno : e.parser.httpErrno ≠ .aborted) : e.endCase.Keeps P := by
  rw [Exec.endCase]
  split_ifs with hok
  exacts [h hok, ⟨herrno, fun h => absurd h hok⟩]

theorem keeps_after {k : ℕ} {s : Step σ} (h : s.Keeps P) : (s.after k).Keeps P := by
  cases s <;> exact h

theorem keeps_count {v k : ℤ} (hok : e.parser.httpErrno = .ok)
    (h : ∀ n, (case (e.onParser (·.withNread n))).Keeps P) : (count S v k case e).Keeps P := by
  rcases count_cases (S := S) case v k hok with ⟨-, e', hstop, herrno⟩ | ⟨-, hcase⟩
  · rw [hstop]
    exact HttpParser.rests_of_errno herrno (by decide) (by decide)
  · rw [hcase]
    exact h _

theorem keeps_loopHead (hok : e.parser.httpErrno = .ok)
    (h : ∀ n, (e.parser.state.parsingHeader = true → n = (e.parser.nread + 1) % 2 ^ 32) →
      (case (e.onParser (·.withNread n))).Keeps P) : (loopHead S case e).Keeps P := by
  rcases loopHead_cases (S := S) case hok with ⟨-, e', hstop, herrno⟩ | ⟨n, hcase, hn⟩
  · rw [hstop]
    exact HttpParser.rests_of_errno herrno (by decide) (by decide)
  · rw [hcase]
    exact h n fun hs => (hn hs).1

theorem Exec.Idle.onParser {f : HttpParser → HttpParser} (h : e.Idle)
    (hok : (f e.parser).httpErrno = .ok) (hbound : (f e.parser).contentLength ≤ ullongMax)
    (hs : (f e.parser).state.quiet = true) : (e.onParser f).Idle := ⟨hok, hbound, hs, h.unmarked⟩

theorem Exec.Idle.goto {s : State} (h : e.Idle) (hs : s.quiet = true) :
    (e.onParser (·.goto s)).Idle := ⟨h.ok, h.bound, hs, h.unmarked⟩

/-- In a quiet state the count does not matter. -/
theorem keeps_loopHead_of_idle (h : e.Idle) (hcase : ∀ e : Exec σ, e.Idle → (case e).Keeps P) :
    (loopHead S case e).Keeps P :=
  keeps_loopHead h.ok fun _ _ => hcase _ ⟨h.ok, h.bound, h.quiet, h.unmarked⟩

theorem Exec.callback_eq (hok : e.parser.httpErrno = .ok) : e.callback case = case e :=
  if_pos hok

theorem notifyComplete_eq (hok : e.parser.httpErrno = .ok) :
    notifyComplete S case e = case (e.messageComplete S) := if_pos hok

theorem keeps_callback (hok : e.parser.httpErrno = .ok) (h : (case e).Keeps P) :
    (e.callback case).Keeps P := by
  rwa [Exec.callback_eq hok]

/-! ## Lines -/

@[simp] theorem Exec.markLine_parser : (e.markLine ch).parser = e.parser := by
  unfold Exec.markLine
  repeat' split
  all_goals rfl

/-- The marks for the callbacks are not touched. -/
theorem Exec.markLine_marks (e : Exec σ) (ch : UInt8) :
    (e.markLine ch).headerFieldMark = e.headerFieldMark ∧
      (e.markLine ch).headerValueMark = e.headerValueMark ∧
      (e.markLine ch).bodyMark = e.bodyMark := by
  unfold Exec.markLine
  repeat' split
  all_goals exact ⟨rfl, rfl, rfl⟩

@[simp] theorem Exec.markLine_user (e : Exec σ) (ch : UInt8) : (e.markLine ch).user = e.user := by
  unfold Exec.markLine
  repeat' split
  all_goals rfl

theorem Exec.markLine_onParser {f : HttpParser → HttpParser}
    (hf : (f e.parser).state = e.parser.state) :
    (e.onParser f).markLine ch = (e.markLine ch).onParser f := by
  unfold Exec.markLine
  rw [Exec.parser_onParser, hf]
  cases e.parser.state <;> dsimp only
  all_goals
    try split_ifs
  all_goals rfl

theorem parseUrlChar_inUrl (s : State) (ch : UInt8) :
    parseUrlChar s ch = .dead ∨ (parseUrlChar s ch).inUrl = true := by
  unfold parseUrlChar
  repeat' split
  all_goals first
    | exact .inl rfl
    | exact .inr rfl

namespace HttpParser

/-- The marks of an URL and of a status are those of the state, unless an error is set. -/
def HasMarks (parser : HttpParser) (url status : Bool) : Prop :=
  parser.httpErrno = .ok →
    url = parser.state.inUrl ∧ status = decide (parser.state = .resStatus)

variable {url status : Bool} {s : State}

theorem hasMarks_of_state (hs : parser.state = s) :
    parser.HasMarks s.inUrl (decide (s = .resStatus)) := fun _ => hs ▸ ⟨rfl, rfl⟩

theorem hasMarks_fail {errno : HttpErrno} (herrno : errno ≠ .ok) :
    (parser.fail errno).HasMarks url status := fun h => absurd h herrno

theorem hasMarks_assertOk (h : parser.HasMarks url status) :
    parser.assertOk.HasMarks url status := by
  unfold assertOk
  split_ifs
  exacts [h, hasMarks_fail (by decide)]

theorem hasMarks_urlByte : (parser.urlByte ch).HasMarks true false := by
  unfold urlByte
  dsimp only
  split_ifs with hdead
  · exact hasMarks_fail (by decide)
  · intro _
    have hurl : (parser.goto (parseUrlChar parser.state ch)).state.inUrl = true :=
      (parseUrlChar_inUrl _ _).resolve_left hdead
    refine ⟨hurl.symm, (decide_eq_false fun hs => ?_).symm⟩
    rw [hs] at hurl
    cases hurl

end HttpParser

section Lines

open HttpParser

variable {url status : Bool} {s : State}

theorem hasMarks_reqUrl :
    (parser.reqUrl ch).HasMarks (decide ¬(ch = byte ' ' ∨ ch = cr ∨ ch = lf)) false := by
  unfold reqUrl
  split_ifs with hspace hcr hlf
  · exact hasMarks_assertOk fun _ => ⟨decide_eq_false (not_not.mpr (.inl hspace)), rfl⟩
  · exact hasMarks_assertOk fun _ => ⟨decide_eq_false (not_not.mpr (.inr (.inl hcr))), rfl⟩
  · exact hasMarks_assertOk fun _ => ⟨decide_eq_false (not_not.mpr (.inr (.inr hlf))), rfl⟩
  · rw [decide_eq_true (not_or.mpr ⟨hspace, not_or.mpr ⟨hcr, hlf⟩⟩)]
    exact hasMarks_urlByte

theorem hasMarks_resStatusStart :
    (parser.resStatusStart ch).HasMarks false (decide ¬(ch = cr ∨ ch = lf)) := by
  unfold resStatusStart
  split_ifs with hcr hlf
  · exact fun _ => ⟨rfl, decide_eq_false (not_not.mpr (.inl hcr))⟩
  · exact fun _ => ⟨rfl, decide_eq_false (not_not.mpr (.inr hlf))⟩
  · exact fun _ => ⟨rfl, decide_eq_true (not_or.mpr ⟨hcr, hlf⟩)⟩

theorem hasMarks_resStatus (hs : parser.state = .resStatus) :
    (parser.resStatus ch).HasMarks false (decide ¬(ch = cr ∨ ch = lf)) := by
  unfold resStatus
  split_ifs with hcr hlf
  · exact hasMarks_assertOk fun _ => ⟨rfl, decide_eq_false (not_not.mpr (.inl hcr))⟩
  · exact hasMarks_assertOk fun _ => ⟨rfl, decide_eq_false (not_not.mpr (.inr hlf))⟩
  · rw [decide_eq_true (not_or.mpr ⟨hcr, hlf⟩)]
    exact hasMarks_of_state hs

theorem hasMarks_reqSchema : (parser.reqSchema ch).HasMarks true false := by
  unfold reqSchema
  split_ifs
  exacts [hasMarks_fail (by decide), hasMarks_urlByte]

theorem hasMarks_reqSpacesBeforeUrl (hs : parser.state = .reqSpacesBeforeUrl) :
    (parser.reqSpacesBeforeUrl ch).HasMarks (decide (ch ≠ byte ' ')) false := by
  unfold reqSpacesBeforeUrl
  split_ifs with hspace
  · rw [decide_eq_false (not_not.mpr hspace)]
    exact hasMarks_of_state hs
  all_goals
    rw [decide_eq_true hspace]
    exact hasMarks_urlByte

/-- The cases that neither begin nor end an URL or a status. -/
theorem hasMarks_plainCase (hcalm : parser.state.calm = true) (hurl : parser.state.inUrl = false)
    (hs : parser.state ∉ [.reqSpacesBeforeUrl, .resStatusStart, .resStatus]) :
    (parser.plainCase ch).HasMarks false false := by
  cases hcase : parser.state <;> rw [hcase] at hcalm hurl hs <;>
    simp only [plainCase, hcase, strictByte, startRes, startReq, reqMethod, resFirstHttpMajor,
      reqFirstHttpMajor, httpMajorByte, firstHttpMinor, httpMinorDigit, resHttpMinor, reqHttpMinor,
      resFirstStatusCode, resStatusCode, reqHttpStart]
  all_goals
    repeat' split
  all_goals first
    | exact hasMarks_fail (by decide)
    | exact hasMarks_of_state hcase
    | exact fun _ => ⟨rfl, rfl⟩
    | exact hasMarks_assertOk (hasMarks_of_state hcase)
    | exact hasMarks_assertOk fun _ => ⟨rfl, rfl⟩
    | exact absurd hurl (by decide)
    | exact absurd hs (by decide)
    | cases hcalm

/-- A line of a message sets the marks of the state that it leads to. -/
theorem markLine_hasMarks (hcalm : e.parser.state.calm = true) (hmarked : e.Marked) :
    (e.parser.plainCase ch).HasMarks (e.markLine ch).urlMark (e.markLine ch).statusMark := by
  have hurl := hmarked.url
  have hstatus := hmarked.status
  by_cases hline : e.parser.state.inUrl = false ∧
      e.parser.state ∉ [.reqSpacesBeforeUrl, .resStatusStart, .resStatus]
  · have hsame : e.markLine ch = e := by
      unfold Exec.markLine
      cases hs : e.parser.state <;> rw [hs] at hline <;> first
        | rfl
        | exact absurd hline (by decide)
    rw [hsame, hurl, hstatus, hline.1, decide_eq_false fun hs => by simp [hs] at hline]
    exact hasMarks_plainCase hcalm hline.1 hline.2
  -- a case that begins or ends an URL or a status, or is in one
  cases hs : e.parser.state <;> rw [hs] at hline hurl hstatus <;>
    simp only [plainCase, Exec.markLine, hs]
  case reqSpacesBeforeUrl =>
    have hmarks : (e.parser.reqSpacesBeforeUrl ch).HasMarks _ _ := hasMarks_reqSpacesBeforeUrl hs
    by_cases hspace : ch = byte ' '
    · rw [decide_eq_false (not_not.mpr hspace)] at hmarks
      rwa [if_pos hspace, hurl, hstatus]
    · rw [decide_eq_true hspace] at hmarks
      rwa [if_neg hspace, hstatus]
  case resStatusStart =>
    have hmarks : (e.parser.resStatusStart ch).HasMarks _ _ := hasMarks_resStatusStart
    by_cases hend : ch = cr ∨ ch = lf
    · rw [decide_eq_false (not_not.mpr hend)] at hmarks
      rwa [if_pos hend, hurl, hstatus]
    · rw [decide_eq_true hend] at hmarks
      rwa [if_neg hend, hurl]
  case resStatus =>
    have hmarks : (e.parser.resStatus ch).HasMarks _ _ := hasMarks_resStatus hs
    by_cases hend : ch = cr ∨ ch = lf
    · rw [decide_eq_false (not_not.mpr hend)] at hmarks
      rwa [if_pos hend, hurl]
    · rw [decide_eq_true hend] at hmarks
      rwa [if_neg hend, hurl, hstatus]
  case reqSchema | reqSchemaSlash | reqSchemaSlashSlash | reqServerStart =>
    rw [hurl, hstatus]
    exact hasMarks_reqSchema
  case reqServer | reqServerWithAt | reqPath | reqQueryStringStart | reqQueryString
      | reqFragmentStart | reqFragment =>
    have hmarks : (e.parser.reqUrl ch).HasMarks _ _ := hasMarks_reqUrl
    by_cases hend : ch = byte ' ' ∨ ch = cr ∨ ch = lf
    · rw [decide_eq_false (not_not.mpr hend)] at hmarks
      rwa [if_pos hend, hstatus]
    · rw [decide_eq_true hend] at hmarks
      rwa [if_neg hend, hurl, hstatus]
  all_goals exact absurd ⟨rfl, by decide⟩ hline

end Lines

/-! ## Quiet cases -/

theorem keeps_plain (h : e.Ready) (hs : e.parser.state.calm = true) :
    (plain ch e).Keeps Exec.Ready := by
  have hcalm : (e.parser.plainCase ch).Calm :=
    HttpParser.Calm.plainCase ⟨hs, by rw [h.valid.ok]; decide, h.valid.bound⟩ h.valid.ok
  have hparser : ((e.markLine ch).onParser (·.plainCase ch)).parser = e.parser.plainCase ch :=
    congrArg (·.plainCase ch) Exec.markLine_parser
  rw [plain]
  refine keeps_endCase (fun hok => ?_) (by rw [hparser]; exact hcalm.2.1)
  rw [hparser] at hok
  have hnone := h.marked.calm hs
  obtain ⟨hfield, hvalue, hbody⟩ := e.markLine_marks ch
  rw [hnone.1] at hfield
  rw [hnone.2.1] at hvalue
  rw [hnone.2.2] at hbody
  have hvalid := HttpParser.valid_of_calm hok hcalm.2.2 hcalm.1
  have hstate : (e.parser.plainCase ch).state ≠ .headerField ∧
      (e.parser.plainCase ch).state ≠ .headerValue := by
    constructor <;>
      · intro hs'
        have := hcalm.1
        rw [hs'] at this
        cases this
  obtain ⟨hurl, hstatus⟩ := markLine_hasMarks hs h.marked hok
  exact ⟨hparser.symm ▸ hvalid, by simp [hfield, hstate.1],
    by simp [hvalue, hstate.2], by simp [hbody], by rw [hparser]; exact hurl,
    by rw [hparser]; exact hstatus⟩

/-- After a message the loop goes on. -/
theorem keeps_notifyComplete (hS : S.Restarts) (hok : e.parser.httpErrno = .ok)
    (hbound : e.parser.contentLength ≤ ullongMax) (hmarks : e.unmarked) :
    (notifyComplete S (.next 0) e).Keeps Exec.Ready := by
  have hcomplete := idle_messageComplete hS hok hbound hmarks
  exact keeps_callback hok hcomplete.ready

theorem keeps_headersDone (hS : S.Restarts) (h : e.Idle) :
    (headersDone S ch e).Keeps Exec.Ready := by
  have hcomplete : ((e.onParser (·.withNread 0)).messageComplete S).Idle :=
    idle_messageComplete hS h.ok h.bound h.unmarked
  unfold headersDone
  dsimp only
  split_ifs with hlf hupgrade hchunked hzero hmax hneeds
  · exact ⟨nofun, nofun⟩
  · exact keeps_callback h.ok ⟨by rw [hcomplete.ok]; decide, fun _ => hcomplete.ready.valid⟩
  · -- a chunked body begins with a fresh count
    exact ⟨⟨h.ok, h.bound, nofun, nofun, fun _ => hchunked, fun _ => rfl, nofun, nofun, nofun⟩,
      Exec.marked_of_unmarked h.unmarked rfl⟩
  · exact keeps_notifyComplete hS h.ok h.bound h.unmarked
  · exact ⟨⟨h.ok, h.bound, nofun, nofun, nofun, nofun, nofun, fun _ => ⟨hzero, hmax⟩, nofun⟩,
      Exec.marked_of_unmarked h.unmarked rfl⟩
  · exact keeps_notifyComplete hS h.ok h.bound h.unmarked
  · exact ⟨⟨h.ok, h.bound, nofun, nofun, nofun, nofun, nofun, nofun, nofun⟩,
      Exec.marked_of_unmarked h.unmarked rfl⟩

theorem keeps_headersAlmostDone (hS : S.Restarts) (h : e.Idle) :
    (headersAlmostDone S ch e).Keeps Exec.Ready := by
  unfold headersAlmostDone
  dsimp only
  split_ifs with hlf htrailing
  · exact ⟨nofun, nofun⟩
  · exact keeps_notifyComplete hS h.ok h.bound h.unmarked
  · exact keeps_loopHead_of_idle (h.onParser h.ok h.bound rfl) fun _ => keeps_headersDone hS

theorem keeps_headerFieldStart (hS : S.Restarts) (h : e.Idle) :
    (headerFieldStart S ch e).Keeps Exec.Ready := by
  unfold headerFieldStart
  split_ifs with hcr hlf htoken
  · exact (h.goto (s := .headersAlmostDone) rfl).ready
  · exact keeps_loopHead_of_idle (h.goto rfl) fun _ => keeps_headersAlmostDone hS
  · exact ⟨nofun, nofun⟩
  · obtain ⟨hfield, hvalue, hbody, hurl, hstatus⟩ := h.unmarked
    refine ⟨⟨h.ok, h.bound, fun _ => ?_, nofun, nofun, nofun, nofun, nofun, nofun⟩,
      ?_, ?_, ?_, ?_, ?_⟩
    · simp only [Exec.onParser, HttpParser.firstFieldByte]
      split_ifs <;> rfl
    all_goals simp [Exec.markHeaderField, hfield, hvalue, hbody, hurl, hstatus, State.inUrl]

/-- The length that the digits of a `Content-Length` give fits its type. -/
theorem digit_le (hch : CString.isDigit ch = true) : HttpParser.digit ch ≤ 9 := by
  simp only [CString.isDigit, Bool.and_eq_true, decide_eq_true_iff] at hch
  rw [HttpParser.digit]
  omega

/-- The first byte of a value leaves the matcher in a state for values. -/
theorem valueStart_spec (ch : UInt8) (hbound : parser.contentLength ≤ ullongMax) :
    (parser.valueStart ch).state = .headerValue ∧
      (parser.valueStart ch).headerState.inValue = true ∧
      (parser.valueStart ch).contentLength ≤ ullongMax ∧
      ((parser.valueStart ch).httpErrno = parser.httpErrno ∨
        (parser.valueStart ch).httpErrno = .invalidContentLength) := by
  unfold HttpParser.valueStart
  dsimp only
  split
  case h_1 => exact ⟨rfl, rfl, hbound, .inl rfl⟩
  case h_2 => split_ifs <;> exact ⟨rfl, rfl, hbound, .inl rfl⟩
  case h_3 hstate =>
    have hvalue : parser.headerState.inValue = true := by rw [hstate]; rfl
    split_ifs with hdigit
    · exact ⟨rfl, hvalue, hbound, .inr rfl⟩
    · have := digit_le (by simpa using hdigit)
      exact ⟨rfl, hvalue, this.trans (by decide), .inl rfl⟩
  case h_4 => split_ifs <;> exact ⟨rfl, rfl, hbound, .inl rfl⟩
  case h_5 hstate => exact ⟨rfl, by rw [hstate]; rfl, hbound, .inl rfl⟩
  case h_6 => exact ⟨rfl, rfl, hbound, .inl rfl⟩

/-- Two errors that are not a failed assertion. -/
theorem ne_aborted_of {errno errno' before : HttpErrno} (hok : before = .ok)
    (h : errno = before ∨ errno = errno') (herrno : errno' ≠ .aborted) : errno ≠ .aborted := by
  rcases h with h | h
  · rw [h, hok]
    decide
  · rwa [h]

theorem keeps_headerValueStart (h : e.Idle) : (headerValueStart ch e).Keeps Exec.Ready := by
  obtain ⟨hstate, hvalue, hbound, herrno⟩ := valueStart_spec ch h.bound
  obtain ⟨hfieldMark, hvalueMark, hbodyMark, hurlMark, hstatusMark⟩ := h.unmarked
  refine keeps_endCase
    (fun hok => ⟨⟨hok, hbound, ?_, fun _ => hvalue, ?_, ?_, ?_, ?_, ?_⟩, ?_, ?_, ?_, ?_, ?_⟩)
    (ne_aborted_of h.ok herrno (by decide))
  all_goals simp [Exec.markHeaderValue, hstate, hfieldMark, hvalueMark, hbodyMark, hurlMark,
    hstatusMark, State.inChunks, State.inUrl]

theorem keeps_headerValueDiscardWs (h : e.Idle) :
    (headerValueDiscardWs ch e).Keeps Exec.Ready := by
  unfold headerValueDiscardWs
  split_ifs
  · exact h.ready
  · exact (h.goto (s := .headerValueDiscardWsAlmostDone) rfl).ready
  · exact (h.goto (s := .headerValueDiscardLws) rfl).ready
  · exact keeps_headerValueStart h

/-- What a byte of a name or of a value does to the parser, but for the matcher. -/
structure HttpParser.Matches (before after : HttpParser) : Prop where
  state : after.state = before.state
  nread : after.nread = before.nread
  length : after.contentLength = before.contentLength
  errno : after.httpErrno = before.httpErrno

theorem HttpParser.Matches.refl (parser : HttpParser) : parser.Matches parser :=
  ⟨rfl, rfl, rfl, rfl⟩

theorem HttpParser.Matches.trans {a b d : HttpParser} (h : a.Matches b) (h' : b.Matches d) :
    a.Matches d :=
  ⟨h'.state.trans h.state, h'.nread.trans h.nread, h'.length.trans h.length,
    h'.errno.trans h.errno⟩

theorem connectionFlag_matches (parser : HttpParser) : parser.Matches parser.connectionFlag := by
  unfold HttpParser.connectionFlag
  split <;> exact ⟨rfl, rfl, rfl, rfl⟩

theorem finishHeader_matches (parser : HttpParser) : parser.Matches parser.finishHeader := by
  unfold HttpParser.finishHeader
  split
  exacts [⟨rfl, rfl, rfl, rfl⟩, connectionFlag_matches parser]

/-- A header that is complete leads on to the next one. -/
theorem idle_finishHeader (h : e.Idle) :
    (e.onParser fun parser => parser.finishHeader.goto .headerFieldStart).Idle :=
  have hmatch := finishHeader_matches e.parser
  h.onParser (hmatch.errno.trans h.ok) (hmatch.length.symm ▸ h.bound) rfl

theorem keeps_headerValueLws (hS : S.Restarts) (h : e.Idle) :
    (headerValueLws S ch e).Keeps Exec.Ready := by
  unfold headerValueLws
  split_ifs
  · exact keeps_loopHead_of_idle (h.goto rfl) fun _ => keeps_headerValueStart
  · exact keeps_loopHead_of_idle (idle_finishHeader h) fun _ => keeps_headerFieldStart hS

theorem keeps_headerValueDiscardLws (hS : S.Restarts) (h : e.Idle) :
    (headerValueDiscardLws S ch e).Keeps Exec.Ready := by
  have hidle := idle_finishHeader h
  obtain ⟨hfieldMark, hvalueMark, hbodyMark, hline⟩ := h.unmarked
  unfold headerValueDiscardLws
  split_ifs
  · exact (h.goto (s := .headerValueDiscardWs) rfl).ready
  · refine keeps_callback hidle.ok (keeps_loopHead_of_idle ?_ fun _ => keeps_headerFieldStart hS)
    simp only [Exec.dataHeaderValue, Exec.markHeaderValue, Exec.onParser_headerValueMark,
      hvalueMark, Option.none_or]
    exact ⟨hidle.ok, hidle.bound, rfl, hfieldMark, rfl, hbodyMark, hline⟩

theorem keeps_startReqOrRes (h : e.Idle) : (startReqOrRes S ch e).Keeps Exec.Ready := by
  unfold startReqOrRes
  dsimp only
  split_ifs
  · exact h.ready
  · have hidle : (e.onParser fun parser => parser.beginMessage.goto .resOrRespH).Idle :=
      h.onParser h.ok le_rfl rfl
    have hparser : (e.parser.beginMessage.goto .resOrRespH).assertOk =
        e.parser.beginMessage.goto .resOrRespH := if_pos h.ok
    have herrno : e.parser.beginMessage.httpErrno = .ok := h.ok
    exact keeps_endCase (fun _ => by simpa only [Exec.onParser, hparser] using hidle.ready)
      (by simp [Exec.onParser, hparser, HttpParser.goto_errno, herrno])
  · exact keeps_loopHead_of_idle (h.onParser
      (f := fun parser => { parser.beginMessage with type := .request, state := .startReq })
      h.ok le_rfl rfl) fun _ hidle => keeps_plain hidle.ready (State.calm_of_quiet hidle.quiet)

/-! ## Header names -/

theorem matchWord_matches (word : Bytes) (found miss : HeaderStates) (c : UInt8) :
    parser.Matches (parser.matchWord word found miss c) := ⟨rfl, rfl, rfl, rfl⟩

theorem matchWord_headerState (parser : HttpParser) (word : Bytes) (found miss : HeaderStates)
    (c : UInt8) :
    (parser.matchWord word found miss c).headerState = found ∨
      (parser.matchWord word found miss c).headerState = miss ∨
      (parser.matchWord word found miss c).headerState = parser.headerState := by
  simp only [HttpParser.matchWord]
  split_ifs <;> simp

theorem matchWord_keeps {Q : HeaderStates → Bool} {word : Bytes} {found miss : HeaderStates}
    (hfound : Q found = true) (hmiss : Q miss = true) (h : Q parser.headerState = true) :
    Q (parser.matchWord word found miss c).headerState = true := by
  rcases matchWord_headerState parser word found miss c with h' | h' | h' <;>
    rwa [h']

/-- A byte of a name keeps the matcher in its states. -/
theorem fieldByte_spec (ch c : UInt8) (h : parser.headerState.inField = true) :
    parser.Matches (parser.fieldByte ch c) ∧
      (parser.fieldByte ch c).headerState.inField = true := by
  unfold HttpParser.fieldByte
  split
  case h_1 => exact ⟨.refl _, h⟩
  case h_2 => exact ⟨⟨rfl, rfl, rfl, rfl⟩, by dsimp only; split_ifs <;> rfl⟩
  case h_3 => exact ⟨⟨rfl, rfl, rfl, rfl⟩, by dsimp only; split_ifs <;> rfl⟩
  case h_4 => exact ⟨⟨rfl, rfl, rfl, rfl⟩, by dsimp only; split_ifs <;> rfl⟩
  case h_14 =>
    -- the matcher has left its states for names
    exfalso
    revert h
    cases hstate : parser.headerState <;> simp_all [HeaderStates.inField]
  all_goals first
    | exact ⟨matchWord_matches .., matchWord_keeps rfl rfl h⟩
    | (split_ifs; exacts [⟨⟨rfl, rfl, rfl, rfl⟩, rfl⟩, ⟨.refl _, h⟩])

theorem fieldRun_spec (run : Bytes) (h : parser.headerState.inField = true) :
    parser.Matches (parser.fieldRun run) ∧ (parser.fieldRun run).headerState.inField = true := by
  induction run generalizing parser with
  | nil => exact ⟨.refl _, h⟩
  | cons ch run ih =>
    obtain ⟨hfirst, hstate⟩ := fieldByte_spec ch (token ch) h
    obtain ⟨hrest, hin⟩ := ih hstate
    exact ⟨hfirst.trans hrest, hin⟩

/-- The count matters at the start of a chunk only. -/
theorem Exec.Ready.withNread (h : e.Ready) (hs : e.parser.state ≠ .chunkSizeStart) (n : ℕ) :
    (e.onParser (·.withNread n)).Ready :=
  ⟨{ h.valid with nread := fun h => absurd h hs },
    ⟨h.marked.field, h.marked.value, h.marked.body, h.marked.url, h.marked.status⟩⟩

theorem keeps_headerFieldCase (h : e.Ready) (hs : e.parser.state = .headerField) :
    (headerFieldCase S p e).Keeps Exec.Ready := by
  obtain ⟨hmatch, hin⟩ := fieldRun_spec (HttpParser.tokenRun p) (h.valid.field hs)
  have hok := hmatch.errno.trans h.valid.ok
  have hbound := hmatch.length.symm ▸ h.valid.bound
  obtain ⟨text, hmark, hvalueMark, hbodyMark, hurlMark, hstatusMark⟩ := h.marked.headerField hs
  refine keeps_count hok fun n => ?_
  unfold fieldEnd
  split
  · refine ⟨⟨hok, hbound, fun _ => hin, ?_, ?_, ?_, ?_, ?_, ?_⟩, ?_, ?_, ?_, ?_, ?_⟩
    all_goals simp [hmatch.state, hs, hmark, hvalueMark, hbodyMark, hurlMark, hstatusMark,
      State.inChunks, State.inUrl]
  · split_ifs
    · refine keeps_callback hok (Exec.Idle.ready ⟨?_, ?_, ?_, ?_⟩)
      all_goals simp only [Exec.dataHeaderField, Exec.onParser_headerFieldMark, hmark]
      exacts [hok, hbound, rfl, ⟨rfl, hvalueMark, hbodyMark, hurlMark, hstatusMark⟩]
    · exact ⟨nofun, nofun⟩

/-! ## Header values -/

/-- What a byte of a value does. The digits of a `Content-Length` may be wrong. -/
structure HttpParser.Values (before after : HttpParser) : Prop where
  state : after.state = before.state
  nread : after.nread = before.nread
  bound : after.contentLength ≤ ullongMax
  errno : after.httpErrno = before.httpErrno ∨ after.httpErrno = .invalidContentLength

theorem HttpParser.Matches.values {before after : HttpParser} (h : before.Matches after)
    (hbound : before.contentLength ≤ ullongMax) : before.Values after :=
  ⟨h.state, h.nread, h.length.symm ▸ hbound, .inl h.errno⟩

/-- A byte of a value keeps the matcher in its states. -/
theorem valueByte_spec (ch : UInt8) (hs : parser.state = .headerValue)
    (h : parser.headerState.inValue = true) (hbound : parser.contentLength ≤ ullongMax) :
    parser.Values (parser.valueByte ch) ∧ (parser.valueByte ch).headerState.inValue = true := by
  have hflag := (connectionFlag_matches parser).values hbound
  have hsame := (HttpParser.Matches.refl parser).values hbound
  unfold HttpParser.valueByte
  dsimp only
  split
  case h_1 hstate => rw [hstate] at h; cases h
  case h_2 hstate => rw [hstate] at h; cases h
  case h_3 =>
    split_ifs with hspace hdigit hlarge
    · exact ⟨hsame, h⟩
    · exact ⟨⟨rfl, rfl, hbound, .inr rfl⟩, h⟩
    · exact ⟨⟨rfl, rfl, hbound, .inr rfl⟩, h⟩
    -- The test for an overflow leaves room for one more digit.
    · have := digit_le (by simpa using hdigit)
      refine ⟨⟨rfl, rfl, ?_, .inl rfl⟩, h⟩
      simp only [ullongMax] at hlarge ⊢
      omega
  case h_5 => exact ⟨⟨rfl, rfl, hbound, .inl rfl⟩, by dsimp only; split_ifs <;> rfl⟩
  case h_9 => split_ifs; exacts [⟨⟨rfl, rfl, hbound, .inl rfl⟩, rfl⟩, ⟨hsame, h⟩]
  case h_10 => split_ifs; exacts [⟨⟨rfl, rfl, hbound, .inl rfl⟩, rfl⟩, ⟨hsame, h⟩]
  case h_14 => exact ⟨⟨hs.symm, rfl, hbound, .inl rfl⟩, rfl⟩
  -- What is left matches a word, or ends a member of a list.
  all_goals first
    | exact ⟨(matchWord_matches ..).values hbound, matchWord_keeps rfl rfl h⟩
    | (split_ifs
       exacts [⟨⟨hflag.state, hflag.nread, hflag.bound, hflag.errno⟩, rfl⟩,
         ⟨⟨rfl, rfl, hbound, .inl rfl⟩, rfl⟩, ⟨hsame, h⟩])

theorem valueRun_spec (max : ℕ) (p : Bytes) (hok : parser.httpErrno = .ok)
    (hs : parser.state = .headerValue) (h : parser.headerState.inValue = true)
    (hbound : parser.contentLength ≤ ullongMax) :
    parser.Values (parser.valueRun max p).2 ∧
      (parser.valueRun max p).2.headerState.inValue = true := by
  have hsame := (HttpParser.Matches.refl parser).values hbound
  induction p generalizing parser with
  | nil => exact ⟨hsame, h⟩
  | cons ch p ih =>
    obtain ⟨hfirst, hstate⟩ := valueByte_spec ch hs h hbound
    unfold HttpParser.valueRun
    dsimp only
    split_ifs with heol hgeneral herrno
    · exact ⟨hsame, h⟩
    · exact ⟨hsame, h⟩
    · exact ⟨hfirst, hstate⟩
    · have hok' := not_not.mp herrno
      obtain ⟨hrest, hin⟩ := ih hok' (hfirst.state.trans hs) hstate hfirst.bound
        ((HttpParser.Matches.refl _).values hfirst.bound)
      refine ⟨⟨hrest.state.trans hfirst.state, hrest.nread.trans hfirst.nread, hrest.bound, ?_⟩,
        hin⟩
      rw [hok, ← hok']
      exact hrest.errno

theorem idle_dataHeaderValue (passed : Bytes) (hok : e.parser.httpErrno = .ok)
    (hbound : e.parser.contentLength ≤ ullongMax) (hquiet : e.parser.state.quiet = true)
    (hfield : e.headerFieldMark = none) (hbody : e.bodyMark = none ∧ e.urlMark = false ∧
      e.statusMark = false) : (e.dataHeaderValue S passed).Idle := by
  cases hmark : e.headerValueMark with
  | none =>
    simp only [Exec.dataHeaderValue, hmark]
    exact ⟨hok, hbound, hquiet, hfield, hmark, hbody⟩
  | some text =>
    simp only [Exec.dataHeaderValue, hmark]
    exact ⟨hok, hbound, hquiet, hfield, rfl, hbody⟩

theorem keeps_valueCr (hok : e.parser.httpErrno = .ok)
    (hbound : e.parser.contentLength ≤ ullongMax) (hfield : e.headerFieldMark = none)
    (hbody : e.bodyMark = none ∧ e.urlMark = false ∧ e.statusMark = false) :
    (valueCr S passed e).Keeps Exec.Ready := by
  have hidle : ((e.onParser (·.goto .headerAlmostDone)).dataHeaderValue S passed).Idle :=
    idle_dataHeaderValue passed hok hbound rfl hfield hbody
  exact keeps_callback hok (keeps_count hidle.ok fun _ =>
    Exec.Idle.ready ⟨hidle.ok, hidle.bound, hidle.quiet, hidle.unmarked⟩)

theorem keeps_valueLf {matched : HeaderStates} (hok : e.parser.httpErrno = .ok)
    (hbound : e.parser.contentLength ≤ ullongMax) (hfield : e.headerFieldMark = none)
    (hbody : e.bodyMark = none ∧ e.urlMark = false ∧ e.statusMark = false) :
    (valueLf S matched passed e).Keeps Exec.Ready := by
  refine keeps_count hok fun n => ?_
  have hidle := idle_dataHeaderValue (S := S) passed
    (e := ((e.onParser (·.goto .headerAlmostDone)).onParser (·.withNread n)).onParser
      fun parser => { parser with headerState := matched }) hok hbound rfl hfield hbody
  exact keeps_callback hok <| keeps_count hidle.ok fun _ => keeps_after <|
    keeps_loopHead_of_idle ⟨hidle.ok, hidle.bound, hidle.quiet, hidle.unmarked⟩
      fun _ hidle => keeps_plain hidle.ready (State.calm_of_quiet hidle.quiet)

theorem keeps_headerValueCase (h : e.Ready) (hs : e.parser.state = .headerValue) :
    (headerValueCase S p e).Keeps Exec.Ready := by
  obtain ⟨hvalues, hin⟩ :=
    valueRun_spec S.maxHeaderSize p h.valid.ok hs (h.valid.value hs) h.valid.bound
  obtain ⟨text, hmark, hfieldMark, hrest⟩ := h.marked.headerValue hs
  unfold headerValueCase valueEnd
  dsimp only
  split_ifs with herrno
  · exact ⟨ne_aborted_of h.valid.ok hvalues.errno (by decide), fun h => absurd h herrno⟩
  have hok : (e.parser.valueRun S.maxHeaderSize p).2.httpErrno = .ok := not_not.mp herrno
  split
  · -- the data ends in the value
    refine keeps_count hok fun n =>
      ⟨⟨hok, hvalues.bound, ?_, fun _ => hin, ?_, ?_, ?_, ?_, ?_⟩, ?_, ?_, ?_, ?_, ?_⟩
    all_goals simp [hvalues.state, hs, hmark, hfieldMark, hrest, State.inChunks, State.inUrl]
  · split_ifs
    · exact keeps_valueCr hok hvalues.bound hfieldMark hrest
    · exact keeps_valueLf hok hvalues.bound hfieldMark hrest

/-! ## Bodies -/

theorem keeps_bodyIdentity (hS : S.Restarts) (h : e.Ready) (hs : e.parser.state = .bodyIdentity) :
    (bodyIdentity S p e).Keeps Exec.Ready := by
  have hlength := h.valid.length (.inl hs)
  have hbound := h.valid.bound
  obtain ⟨hfield, hvalue, hurl, hstatus⟩ := h.marked.inBody (by rw [hs]; rfl)
  unfold bodyIdentity
  dsimp only
  rw [if_neg (not_not.mpr hlength)]
  split_ifs with hzero
  · refine keeps_callback h.valid.ok
      (keeps_after (keeps_notifyComplete hS ?_ ?_ ?_))
    all_goals cases hbody : e.bodyMark <;>
      simp [Exec.dataBody, takeBody, Exec.markBody, Exec.unmarked, hbody, hfield, hvalue, hurl,
        hstatus, h.valid.ok]
    all_goals omega
  · have hless : e.parser.contentLength - min e.parser.contentLength p.length ≤ ullongMax :=
      (Nat.sub_le _ _).trans hbound
    refine ⟨⟨h.valid.ok, hless, ?_, ?_, ?_, ?_, ?_, fun _ => ⟨hzero, ?_⟩, ?_⟩,
      ?_, ?_, ?_, ?_, ?_⟩
    case refine_6 =>
      exact ((Nat.sub_le _ _).trans_lt (lt_of_le_of_ne hbound hlength.2)).ne
    all_goals simp [takeBody, Exec.markBody, hs, hfield, hvalue, hurl, hstatus, State.inChunks,
      State.inBody, State.inUrl]

theorem keeps_bodyIdentityEof (h : e.Ready) (hs : e.parser.state = .bodyIdentityEof) :
    (bodyIdentityEof p e).Keeps Exec.Ready :=
  ⟨h.valid, h.marked.field, h.marked.value, fun _ => by rw [Exec.markBody, hs]; rfl,
    h.marked.url, h.marked.status⟩

theorem keeps_chunkData (h : e.Ready) (hs : e.parser.state = .chunkData) :
    (chunkData p e).Keeps Exec.Ready := by
  have hlength := h.valid.length (.inr hs)
  have hbound := h.valid.bound
  have hchunked := h.valid.chunked (by rw [hs]; rfl)
  obtain ⟨hfield, hvalue, hurl, hstatus⟩ := h.marked.inBody (by rw [hs]; rfl)
  have hless : e.parser.contentLength - min e.parser.contentLength p.length ≤ ullongMax :=
    (Nat.sub_le _ _).trans hbound
  unfold chunkData
  dsimp only
  rw [if_neg (not_not.mpr ⟨hchunked, hlength⟩)]
  split_ifs with hzero
  · refine ⟨⟨h.valid.ok, hless, nofun, nofun, fun _ => hchunked, nofun, nofun, nofun,
      fun _ => hzero⟩, ?_, ?_, ?_, ?_, ?_⟩
    all_goals simp [takeBody, Exec.markBody, hfield, hvalue, hurl, hstatus, State.inBody,
      State.inUrl]
  · refine ⟨⟨h.valid.ok, hless, ?_, ?_, fun _ => hchunked, ?_, ?_, fun _ => ⟨hzero, ?_⟩, ?_⟩,
      ?_, ?_, ?_, ?_, ?_⟩
    case refine_5 =>
      exact ((Nat.sub_le _ _).trans_lt (lt_of_le_of_ne hbound hlength.2)).ne
    all_goals simp [takeBody, Exec.markBody, hs, hfield, hvalue, hurl, hstatus, State.inBody,
      State.inUrl]

theorem keeps_chunkDataAlmostDone (h : e.Ready) (hs : e.parser.state = .chunkDataAlmostDone) :
    (chunkDataAlmostDone S ch e).Keeps Exec.Ready := by
  have hchunked := h.valid.chunked (by rw [hs]; rfl)
  obtain ⟨hfield, hvalue, hurl, hstatus⟩ := h.marked.inBody (by rw [hs]; rfl)
  unfold chunkDataAlmostDone
  rw [if_neg (not_not.mpr ⟨hchunked, h.valid.ended hs⟩)]
  split_ifs
  · exact ⟨nofun, nofun⟩
  · refine keeps_callback h.valid.ok ?_
    cases hbody : e.bodyMark <;> simp only [Exec.dataBody, Exec.onParser_bodyMark, hbody] <;>
      refine ⟨⟨h.valid.ok, h.valid.bound, nofun, nofun, fun _ => hchunked, nofun, nofun, nofun,
        nofun⟩, ?_, ?_, ?_, ?_, ?_⟩ <;> simp [hfield, hvalue, hbody, hurl, hstatus, State.inUrl]

/-! ## Chunks -/

/-- Where a line between two chunks leads. -/
structure HttpParser.Lands (parser : HttpParser) : Prop where
  valid : parser.httpErrno = .ok → parser.Valid
  text : parser.state.inText = false
  errno : parser.httpErrno ≠ .aborted

theorem keeps_plain_of_lands (hmarks : e.unmarked) (hline : e.markLine ch = e)
    (h : (e.parser.plainCase ch).Lands) : (plain ch e).Keeps Exec.Ready := by
  rw [plain, hline]
  exact keeps_endCase (fun hok => ⟨h.valid hok, Exec.marked_of_unmarked hmarks h.text⟩) h.errno

theorem unhex_lt {v : ℕ} (h : unhex ch = some v) : v < 16 := by
  unfold unhex at h
  split_ifs at h <;> simp only [Option.some.injEq] at h <;> omega

section Lines

variable (hok : parser.httpErrno = .ok) (hchunked : parser.flags.chunked = true)
  (hbound : parser.contentLength ≤ ullongMax)
include hok hchunked hbound

omit hbound in
theorem lands_chunkSizeStart (hs : parser.state = .chunkSizeStart) (hn : parser.nread = 1) :
    (parser.chunkSizeStart ch).Lands := by
  unfold HttpParser.chunkSizeStart
  rw [if_neg (not_not.mpr ⟨hn, hchunked⟩)]
  cases hv : unhex ch with
  | none => exact ⟨nofun, congrArg State.inText hs, nofun⟩
  | some v =>
    have hlt : v < ullongMax := (unhex_lt hv).trans (by decide)
    exact ⟨fun _ => ⟨hok, hlt.le, nofun, nofun, fun _ => hchunked, nofun, fun _ => hlt, nofun,
      nofun⟩, rfl, by rw [hok]; decide⟩

theorem lands_chunkSize (hs : parser.state = .chunkSize)
    (hsize : parser.contentLength < ullongMax) :
    (parser.chunkSize ch).Lands := by
  have hline : ∀ s, s = .chunkParameters ∨ s = .chunkSizeAlmostDone → (parser.goto s).Lands := by
    rintro s (rfl | rfl) <;> exact ⟨fun _ => ⟨hok, hbound, nofun, nofun, fun _ => hchunked, nofun,
      fun _ => hsize, nofun, nofun⟩, rfl, by rw [HttpParser.goto_errno, hok]; decide⟩
  unfold HttpParser.chunkSize
  rw [if_neg (by simp [hchunked])]
  by_cases hcr : ch = cr
  · rw [if_pos hcr]
    exact hline _ (.inr rfl)
  rw [if_neg hcr]
  cases hv : unhex ch with
  | none =>
    dsimp only
    split_ifs
    exacts [hline _ (.inl rfl), ⟨nofun, congrArg State.inText hs, nofun⟩]
  | some v =>
    dsimp only
    split_ifs with hlarge
    · exact ⟨nofun, congrArg State.inText hs, nofun⟩
    · -- the limit leaves room for one more digit
      have hlt : parser.contentLength * 16 + v < ullongMax := by
        have := unhex_lt hv
        simp only [ullongMax] at hlarge ⊢
        omega
      refine ⟨fun _ => ⟨hok, hlt.le, ?_, ?_, fun _ => hchunked, ?_, fun _ => hlt, ?_, ?_⟩,
        ?_, ?_⟩ <;> simp [hs, hok, State.inText, State.inUrl]

theorem lands_chunkParameters (hs : parser.state = .chunkParameters)
    (hsize : parser.contentLength < ullongMax) : (parser.chunkParameters ch).Lands := by
  unfold HttpParser.chunkParameters
  rw [if_neg (by simp [hchunked])]
  split_ifs
  · exact ⟨fun _ => ⟨hok, hbound, nofun, nofun, fun _ => hchunked, nofun, fun _ => hsize, nofun,
      nofun⟩, rfl, by rw [HttpParser.goto_errno, hok]; decide⟩
  · refine ⟨fun _ => ⟨hok, hbound, ?_, ?_, fun _ => hchunked, ?_, fun _ => hsize, ?_, ?_⟩,
      ?_, ?_⟩ <;> simp [hs, hok, State.inText, State.inUrl]

theorem lands_chunkSizeAlmostDone (hs : parser.state = .chunkSizeAlmostDone)
    (hsize : parser.contentLength < ullongMax) : (parser.chunkSizeAlmostDone ch).Lands := by
  unfold HttpParser.chunkSizeAlmostDone
  rw [if_neg (by simp [hchunked])]
  dsimp only
  split_ifs with hlf hzero
  · exact ⟨nofun, congrArg State.inText hs, nofun⟩
  · exact ⟨fun _ => HttpParser.valid_of_calm hok hbound rfl, rfl,
      by rw [HttpParser.withNread_errno, hok]; decide⟩
  · exact ⟨fun _ => ⟨hok, hbound, nofun, nofun, fun _ => hchunked, nofun, nofun,
      fun _ => ⟨hzero, hsize.ne⟩, nofun⟩, rfl,
      by rw [HttpParser.goto_errno, HttpParser.withNread_errno, hok]; decide⟩

theorem lands_chunkDataDone (hs : parser.state = .chunkDataDone) :
    (parser.chunkDataDone ch).Lands := by
  unfold HttpParser.chunkDataDone
  rw [if_neg (by simp [hchunked])]
  split_ifs
  · exact ⟨nofun, congrArg State.inText hs, nofun⟩
  · exact ⟨fun _ => ⟨hok, hbound, nofun, nofun, fun _ => hchunked, fun _ => rfl, nofun, nofun,
      nofun⟩, rfl, by rw [HttpParser.goto_errno, HttpParser.withNread_errno, hok]; decide⟩

end Lines

/-! ## A round of the loop -/

/-- The lines between chunks, after the count of their byte. -/
theorem keeps_chunkLine (h : e.Ready) {n : ℕ} (hmarks : e.unmarked)
    (hs : e.parser.state ∈
      [.chunkSizeStart, .chunkSize, .chunkParameters, .chunkSizeAlmostDone, .chunkDataDone])
    (hn : e.parser.state = .chunkSizeStart → n = (e.parser.nread + 1) % 2 ^ 32) :
    (plain ch (e.onParser (·.withNread n))).Keeps Exec.Ready := by
  have hline : (e.onParser (·.withNread n)).markLine ch = e.onParser (·.withNread n) := by
    simp only [List.mem_cons, List.not_mem_nil, or_false] at hs
    unfold Exec.markLine
    rcases hs with hs | hs | hs | hs | hs <;>
      simp only [Exec.parser_onParser, HttpParser.withNread_state, hs]
  refine keeps_plain_of_lands hmarks hline ?_
  have hok := h.valid.ok
  have hbound := h.valid.bound
  simp only [List.mem_cons, List.not_mem_nil, or_false] at hs
  rcases hs with hs | hs | hs | hs | hs <;>
    simp only [HttpParser.plainCase, Exec.parser_onParser, HttpParser.withNread_state, hs] <;>
    have hchunked := h.valid.chunked (by rw [hs]; rfl)
  · have hn : n = 1 := by rw [hn hs, h.valid.nread hs]; rfl
    exact lands_chunkSizeStart hok hchunked hs hn
  · exact lands_chunkSize hok hchunked hbound hs (h.valid.size (by simp [hs]))
  · exact lands_chunkParameters hok hchunked hbound hs (h.valid.size (by simp [hs]))
  · exact lands_chunkSizeAlmostDone hok hchunked hbound hs (h.valid.size (by simp [hs]))
  · exact lands_chunkDataDone hok hchunked hbound hs

/-- Every round of the loop keeps what the cases expect, and no assertion fails in it. -/
theorem switch_keeps (ch : UInt8) (rest : Bytes) (hS : S.Restarts) (h : e.Ready) :
    (loopHead S (switch S ch rest) e).Keeps Exec.Ready := by
  refine keeps_loopHead h.valid.ok fun n hn => ?_
  by_cases hquiet : e.parser.state.quiet = true
  · have hidle : (e.onParser (·.withNread n)).Idle :=
      ⟨h.valid.ok, h.valid.bound, hquiet, h.marked.unmarked hquiet⟩
    unfold switch
    split
    case h_1 => exact keeps_startReqOrRes hidle
    case h_2 => exact keeps_headerFieldStart hS hidle
    case h_4 => exact keeps_headerValueDiscardWs hidle
    case h_5 => exact keeps_headerValueStart hidle
    case h_7 => exact keeps_headerValueLws hS hidle
    case h_8 => exact keeps_headerValueDiscardLws hS hidle
    case h_9 => exact keeps_headersAlmostDone hS hidle
    case h_10 => exact keeps_headersDone hS hidle
    case h_13 => exact keeps_notifyComplete hS hidle.ok hidle.bound hidle.unmarked
    case h_16 => exact keeps_plain hidle.ready (State.calm_of_quiet hquiet)
    all_goals simp_all [State.quiet, State.calm]
  · have hready : e.parser.state ≠ .chunkSizeStart → (e.onParser (·.withNread n)).Ready :=
      fun hs => h.withNread hs n
    cases hs : e.parser.state <;> simp only [hs] at hquiet hready <;>
      simp only [switch, Exec.parser_onParser, HttpParser.withNread_state, hs]
    case headerField => exact keeps_headerFieldCase (hready (by decide)) hs
    case headerValue => exact keeps_headerValueCase (hready (by decide)) hs
    case bodyIdentity => exact keeps_bodyIdentity hS (hready (by decide)) hs
    case bodyIdentityEof => exact keeps_bodyIdentityEof (hready (by decide)) hs
    case chunkData => exact keeps_chunkData (hready (by decide)) hs
    case chunkDataAlmostDone => exact keeps_chunkDataAlmostDone (hready (by decide)) hs
    case chunkSizeStart | chunkSize | chunkParameters | chunkSizeAlmostDone | chunkDataDone =>
      have hmarks : e.unmarked := ⟨h.marked.fieldMark (by rw [hs]; decide),
        h.marked.valueMark (by rw [hs]; decide), h.marked.noBody (by rw [hs]; rfl),
        h.marked.noUrl (by rw [hs]; rfl), h.marked.noStatus (by rw [hs]; decide)⟩
      exact keeps_chunkLine h hmarks (by simp [hs]) fun hs => hn (by rw [hs]; rfl)
    -- an URL or a status is at hand, or the state is quiet
    all_goals first
      | exact keeps_plain (hready (by decide)) (congrArg State.calm hs)
      | exact absurd rfl hquiet

/-! ## Runs -/

@[simp] theorem Exec.parser_dataHeaderField : (e.dataHeaderField S passed).parser = e.parser := by
  rw [Exec.dataHeaderField]
  split <;> rfl

@[simp] theorem Exec.parser_dataHeaderValue : (e.dataHeaderValue S passed).parser = e.parser := by
  rw [Exec.dataHeaderValue]
  split <;> rfl

@[simp] theorem Exec.parser_dataBody : (e.dataBody S passed).parser = e.parser := by
  rw [Exec.dataBody]
  split <;> rfl

/-- At most one text is at hand. -/
theorem Exec.Ready.flush_eq (h : e.Ready) : e.flush S =
    ((e.dataHeaderField S []).dataHeaderValue S []).dataBody S [] := by
  unfold Exec.flush
  refine if_neg (not_or.mpr ⟨?_, not_not.mpr h.valid.ok⟩)
  have hmarked := h.marked
  rw [hmarked.url, hmarked.status]
  by_cases hfield : e.parser.state = .headerField
  · obtain ⟨text, hmark, hvalue, hbody, -⟩ := hmarked.headerField hfield
    simp [hfield, hmark, hvalue, hbody, State.inUrl]
  rw [hmarked.fieldMark hfield]
  by_cases hvalue : e.parser.state = .headerValue
  · obtain ⟨text, hmark, -, hbody, -⟩ := hmarked.headerValue hvalue
    simp [hvalue, hmark, hbody, State.inUrl]
  rw [hmarked.valueMark hvalue]
  -- in a body there is neither an URL nor a status
  by_cases hbody : e.parser.state.inBody = true
  · obtain ⟨-, -, hurl, hstatus⟩ := hmarked.inBody hbody
    rw [← hmarked.url, ← hmarked.status, hurl, hstatus]
    cases e.bodyMark <;> simp
  · rw [hmarked.noBody (by simpa using hbody)]
    cases e.parser.state <;> decide

theorem Exec.Ready.advance (h : e.Ready) (passed : Bytes) : (e.advance passed).Ready :=
  ⟨h.valid, by simpa [Exec.advance] using h.marked.field,
    by simpa [Exec.advance] using h.marked.value, by simpa [Exec.advance] using h.marked.body,
    h.marked.url, h.marked.status⟩

theorem execLoop_rests (hS : S.Restarts) (data : Bytes) (more : ℕ) (h : e.Ready) :
    (execLoop S data more e).parser.Rests := by
  induction data generalizing more e with
  | nil =>
    simp only [execLoop, h.flush_eq, Exec.parser_dataBody, Exec.parser_dataHeaderValue,
      Exec.parser_dataHeaderField]
    exact ⟨by rw [h.valid.ok]; decide, fun _ => h.valid⟩
  | cons ch rest ih =>
    -- A byte that a case has read already changes nothing.
    cases more with
    | succ more => exact ih more h
    | zero =>
      have hkeeps := switch_keeps ch rest hS h
      rw [execLoop]
      cases hstep : loopHead S (switch S ch rest) e with
      | next more e' =>
        rw [hstep] at hkeeps
        exact ih more (Exec.Ready.advance hkeeps _)
      | stop parsed upgrade e' =>
        rw [hstep] at hkeeps
        exact hkeeps

theorem Exec.ready_begin (h : parser.Valid) (user : σ) : (Exec.begin parser user).Ready :=
  ⟨h, by simp [Exec.begin], by simp [Exec.begin], by simp [Exec.begin], rfl, rfl⟩

theorem rests_init (t : HttpParserType) : (HttpParser.init t).Rests :=
  ⟨nofun, fun _ =>
    HttpParser.valid_of_calm rfl (Nat.zero_le _) (State.calm_of_quiet (HttpParser.init_quiet t))⟩

/-- No data fails an assertion. -/
theorem execute_rests (hS : S.Restarts) (data : Bytes) (user : σ) (h : parser.Rests) :
    (parser.execute S data user).parser.Rests := by
  unfold HttpParser.execute
  split_ifs with hok hdata
  · exact h
  · have hvalid := h.valid (not_not.mp hok)
    unfold executeEnd
    split
    · change (S.onMessageComplete parser user).1.Rests
      rcases hS.complete parser user with hsame | ⟨t, hinit⟩
      · rwa [hsame]
      · rw [hinit]
        exact rests_init t
    all_goals first
      | exact h
      | exact ⟨nofun, nofun⟩
  · exact execLoop_rests hS data 0 (Exec.ready_begin (h.valid (not_not.mp hok)) user)

/-- A use of a parser. -/
inductive ParserEvent
  | init (t : HttpParserType)
  | execute (data : Bytes)

/-- The parser and what its callbacks work on, use by use. -/
def parserStep (S : HttpParserSettings σ) : ParserEvent → HttpParser × σ → Option (HttpParser × σ)
  | .init t, s => some (.init t, s.2)
  | .execute data, s =>
    let r := s.1.execute S data s.2
    some (r.parser, r.user)

/-- Whatever data a parser is given, however it is cut and even after errors, no assertion of
    `http_parser_execute` ever fails. -/
theorem assertions_hold (hS : S.Restarts) {events : List ParserEvent} {t : HttpParserType}
    {user : σ} {s : HttpParser × σ}
    (h : Run.run (parserStep S) events (.init t, user) = some s) : s.1.httpErrno ≠ .aborted := by
  have hrests : s.1.Rests := by
    refine Run.run_preserves (P := fun s => s.1.Rests) (fun event s s' hstep hs => ?_) h
      (rests_init t)
    cases event with
    | init t =>
      obtain rfl : _ = s' := Option.some.inj hstep
      exact rests_init t
    | execute data =>
      obtain rfl : _ = s' := Option.some.inj hstep
      exact execute_rests hS data s.2 hs
  exact hrests.errno

/-- A response with a header and a body in one chunk. -/
def Example.chunked : Bytes :=
  ['H', 'T', 'T', 'P', '/', '1', '.', '1', ' ', '2', '0', '0', ' ', 'O', 'K'].map byte ++
    [cr, lf] ++ transferEncodingWord ++ [byte ':'] ++ chunkedWord ++ [cr, lf, cr, lf] ++
    [byte '2', cr, lf, 0, 1, cr, lf, byte '0', cr, lf, cr, lf]

/-- Bytes that are no response, a new start, and a response that is cut in its status, in its
    header and in its chunk. -/
theorem assertions_hold_restarted : ∃ s, Run.run (parserStep verifySettings)
      [.execute [72, 84, 0], .execute [10], .init .response, .execute (Example.chunked.take 14),
        .execute ((Example.chunked.take 25).drop 14), .execute ((Example.chunked.take 50).drop 25),
        .execute (Example.chunked.drop 50), .execute []] (.init .request, 0) = some s ∧
    s.2 = 1 ∧ s.1.httpErrno ≠ .aborted := by
  obtain ⟨s, hs, hcount⟩ : ∃ s, Run.run (parserStep verifySettings)
      [.execute [72, 84, 0], .execute [10], .init .response, .execute (Example.chunked.take 14),
        .execute ((Example.chunked.take 25).drop 14), .execute ((Example.chunked.take 50).drop 25),
        .execute (Example.chunked.drop 50), .execute []] (.init .request, 0) = some s ∧
      s.2 = 1 := ⟨_, rfl, by decide +kernel⟩
  exact ⟨s, hs, hcount, assertions_hold verifySettings_regular.toRestarts hs⟩

end Wrkx
