import Wrkx.Http.Cuts

/-!
# The order of the callbacks

The parser tells of a header by pieces of its name and then by pieces of its value, of a body only
outside a header, and of nothing after the last message of a connection. Two programs that use the
parser and that are related step by step in this order stay related over any data.

## Main results

- `plainCase_tells` — the lines of a message keep to the order
- `execute_mirrors`, `executeAll_mirrors` — the rule for a relation between two programs
-/

namespace Wrkx

/-! ## Phases -/

/-- How far the callbacks have come: outside a header, in its name, in its value, or after the last
    message of a connection. -/
inductive Phase
  | outside
  | naming
  | valuing
  | over
deriving DecidableEq

/-- What holds in a state, when `I` holds phase by phase. -/
def State.Tells (s : State) (I : Phase → Prop) : Prop :=
  match s with
  | .dead => I .over
  | .headerField => I .outside ∨ I .naming
  | .headerValueDiscardWs | .headerValueDiscardWsAlmostDone | .headerValueDiscardLws => I .naming
  | .headerValueStart | .headerValue => I .naming ∨ I .valuing
  | .headerAlmostDone | .headerValueLws => I .valuing
  | _ => I .outside

/-- The states outside a header. -/
def State.outside : State → Bool
  | dead | headerField | headerValueDiscardWs | headerValueDiscardWsAlmostDone
  | headerValueDiscardLws | headerValueStart | headerValue | headerAlmostDone
  | headerValueLws => false
  | _ => true

section States

variable {s : State} {I : Phase → Prop} {parser : HttpParser} {ch : UInt8}

theorem State.tells_of_outside (hs : s.outside = true) : s.Tells I ↔ I .outside := by
  cases s <;> first
    | exact Iff.rfl
    | cases hs

theorem State.Tells.exists (h : s.Tells I) : ∃ phase, I phase := by
  cases s
  case headerField | headerValueStart | headerValue => exact h.elim (⟨_, ·⟩) (⟨_, ·⟩)
  all_goals exact ⟨_, h⟩

theorem parseUrlChar_outside (s : State) (ch : UInt8) :
    parseUrlChar s ch = .dead ∨ (parseUrlChar s ch).outside = true := by
  unfold parseUrlChar
  repeat' split
  all_goals first
    | exact .inl rfl
    | exact .inr rfl

namespace HttpParser

/-- An error is set, or the parser is outside a header. -/
def Passing (parser : HttpParser) : Prop :=
  parser.httpErrno = .ok → parser.state.outside = true

theorem passing_fail {errno : HttpErrno} (herrno : errno ≠ .ok) : (parser.fail errno).Passing :=
  fun h => absurd h herrno

theorem Passing.assertOk (h : parser.Passing) : parser.assertOk.Passing := by
  unfold HttpParser.assertOk
  split_ifs
  exacts [h, passing_fail (by decide)]

theorem passing_urlByte : (parser.urlByte ch).Passing := by
  unfold urlByte
  dsimp only
  split_ifs with hdead
  · exact passing_fail (by decide)
  · exact fun _ => (parseUrlChar_outside _ _).resolve_left hdead

theorem passing_plainCase (hs : parser.state.outside = true) :
    (parser.plainCase ch).Passing := by
  cases hcase : parser.state <;> rw [hcase] at hs <;>
    simp only [plainCase, hcase, startRes, startReq, reqMethod, resFirstHttpMajor,
      reqFirstHttpMajor, httpMajorByte, firstHttpMinor, httpMinorDigit, resHttpMinor, reqHttpMinor,
      resFirstStatusCode, resStatusCode, resStatusStart, resStatus, reqSpacesBeforeUrl, reqSchema,
      reqUrl, reqHttpStart, chunkSizeStart, chunkSize, chunkParameters, chunkSizeAlmostDone,
      chunkDataDone, strictByte]
  all_goals
    repeat' split
  all_goals first
    | exact passing_fail (by decide)
    | exact passing_urlByte
    | exact fun _ => rfl
    | exact fun _ => (congrArg State.outside hcase).trans rfl
    | exact Passing.assertOk fun _ => rfl
    | exact Passing.assertOk fun _ => (congrArg State.outside hcase).trans rfl
    | cases hs

/-- A line of a message keeps to the order of the callbacks. -/
theorem plainCase_tells (hplain : parser.state.plain = true) (h : parser.state.Tells I)
    (hok : (parser.plainCase ch).httpErrno = .ok) : (parser.plainCase ch).state.Tells I := by
  by_cases hs : parser.state.outside = true
  · exact (State.tells_of_outside (passing_plainCase hs hok)).mpr
      ((State.tells_of_outside hs).mp h)
  -- the other plain states let one byte through
  cases hcase : parser.state <;> rw [hcase] at hs hplain h <;>
    simp only [plainCase, hcase, strictByte] at hok ⊢
  case dead =>
    split_ifs at hok ⊢
    · rwa [hcase]
    · cases hok
  case headerValueDiscardWsAlmostDone | headerAlmostDone =>
    split_ifs at hok ⊢
    · exact h
    · cases hok
  all_goals first
    | exact absurd hplain (by decide)
    | exact absurd rfl hs

end HttpParser

end States

/-! ## Two programs -/

variable {σ τ : Type*} {S : HttpParserSettings σ} {T : HttpParserSettings τ}
  {I : Phase → σ → τ → Prop} {e : Exec σ} {u : σ} {v : τ} {parser : HttpParser}
  {ch : UInt8} {p rest run passed : Bytes} {s : Step σ} {t : Step τ}

/-- The callbacks of two programs keep a relation, phase by phase, and they restart the parser
    alike. -/
structure HttpParserSettings.Mirrors (S : HttpParserSettings σ) (T : HttpParserSettings τ)
    (I : Phase → σ → τ → Prop) : Prop where
  maxHeaderSize : S.maxHeaderSize = T.maxHeaderSize
  field : ∀ piece u v, I .outside u v ∨ I .naming u v →
    I .naming (S.onHeaderField piece u) (T.onHeaderField piece v)
  value : ∀ piece u v, I .naming u v ∨ I .valuing u v →
    I .valuing (S.onHeaderValue piece u) (T.onHeaderValue piece v)
  valued : ∀ u v, I .valuing u v → I .outside u v
  body : ∀ piece u v, I .outside u v → I .outside (S.onBody piece u) (T.onBody piece v)
  complete : ∀ parser u v, (parser.state = .dead → parser.shouldKeepAlive = false) →
    I .outside u v → (S.onMessageComplete parser u).1 = (T.onMessageComplete parser v).1 ∧
      I (if (S.onMessageComplete parser u).1.state = .dead then .over else .outside)
        (S.onMessageComplete parser u).2 (T.onMessageComplete parser v).2

/-- The same local variables over what another program works on. -/
def Exec.over (e : Exec σ) (v : τ) : Exec τ :=
  ⟨e.parser, v, e.headerFieldMark, e.headerValueMark, e.bodyMark, e.urlMark, e.statusMark⟩

theorem Exec.markLine_over : (e.over v).markLine ch = (e.markLine ch).over v := by
  unfold Exec.markLine
  rw [show (e.over v).parser = e.parser from rfl]
  cases e.parser.state <;> dsimp only
  all_goals
    try split_ifs
  all_goals rfl

/-- The relation of two programs in the phase of the parser. -/
def Exec.Tells (I : Phase → σ → τ → Prop) (e : Exec σ) (v : τ) : Prop :=
  e.parser.state.Tells (I · e.user v)

/-- Two programs come to related ends of a case. After an error the phase is not known. -/
inductive Step.Mirrors (I : Phase → σ → τ → Prop) : Step σ → Step τ → Prop
  | next {more : ℕ} {e : Exec σ} {v : τ} (h : e.Tells I v) :
    Mirrors I (.next more e) (.next more (e.over v))
  | stop {parsed : ℤ} {upgrade : Bool} {e : Exec σ} {v : τ} (hI : ∃ phase, I phase e.user v)
    (h : e.parser.httpErrno = .ok → e.Tells I v) :
    Mirrors I (.stop parsed upgrade e) (.stop parsed upgrade (e.over v))

variable {case : Exec σ → Step σ} {case' : Exec τ → Step τ}

/-! ### Rules -/

theorem mirrors_after {k : ℕ} (h : s.Mirrors I t) : (s.after k).Mirrors I (t.after k) := by
  cases h with
  | next h => exact .next h
  | stop hI h => exact .stop hI h

theorem mirrors_ite {q : Prop} [Decidable q] {s' : Step σ} {t' : Step τ}
    (hs : q → s.Mirrors I t) (hs' : ¬q → s'.Mirrors I t') :
    (if q then s else s').Mirrors I (if q then t else t') := by
  split_ifs with h
  exacts [hs h, hs' h]

theorem mirrors_fail {parsed : ℤ} {errno : HttpErrno} (hI : ∃ phase, I phase e.user v)
    (herrno : errno ≠ .ok) : (Step.stop parsed false (e.onParser (·.fail errno))).Mirrors I
      (.stop parsed false ((e.over v).onParser (·.fail errno))) :=
  .stop hI fun h => absurd h herrno

theorem mirrors_callback (hI : ∃ phase, I phase e.user v)
    (h : (case e).Mirrors I (case' (e.over v))) :
    (e.callback case).Mirrors I ((e.over v).callback case') :=
  mirrors_ite (fun _ => h) fun _ => mirrors_fail hI (by decide)

theorem mirrors_endCase (hI : ∃ phase, I phase e.user v)
    (h : e.parser.httpErrno = .ok → e.Tells I v) : e.endCase.Mirrors I (e.over v).endCase :=
  mirrors_ite (fun hok => .next (h hok)) fun _ => .stop hI h

section Counts

variable (hmax : S.maxHeaderSize = T.maxHeaderSize) (hI : ∃ phase, I phase e.user v)
  (hok : e.parser.httpErrno = .ok)
  (h : ∀ n, (case (e.onParser (·.withNread n))).Mirrors I
    (case' ((e.over v).onParser (·.withNread n))))
include hmax hI hok h

theorem mirrors_count {n k : ℤ} :
    (count S n k case e).Mirrors I (count T n k case' (e.over v)) := by
  unfold count
  dsimp only
  rw [← hmax]
  refine mirrors_ite (fun herrno => .stop hI fun hok => absurd hok herrno) fun hcount => ?_
  obtain ⟨-, hnread⟩ := HttpParser.countHeaderSize_ok hok (not_not.mp hcount)
  have hnread' : (e.over v).parser.countHeaderSize S.maxHeaderSize n = _ := hnread
  rw [Exec.onParser, Exec.onParser, hnread, hnread']
  exact h _

theorem mirrors_loopHead :
    (loopHead S case e).Mirrors I (loopHead T case' (e.over v)) := by
  unfold loopHead
  exact mirrors_ite (fun _ => mirrors_count hmax hI hok h) fun _ => h e.parser.nread

end Counts

/-! ### Callbacks -/

section Callbacks

variable (hS : S.Restarts) (hsim : S.Mirrors T I) (case : Exec σ → Step σ) (case' : Exec τ → Step τ)
include hsim

theorem mirrors_dataHeaderField {text : Bytes} (hmark : e.headerFieldMark = some text)
    (h : I .outside e.user v ∨ I .naming e.user v)
    (hcase : ∀ (e' : Exec σ) v, e'.parser = e.parser → I .naming e'.user v →
      (case e').Mirrors I (case' (e'.over v))) :
    (case (e.dataHeaderField S passed)).Mirrors I
      (case' ((e.over v).dataHeaderField T passed)) := by
  obtain ⟨parser, user, fieldMark, valueMark, bodyMark, urlMark, statusMark⟩ := e
  obtain rfl : fieldMark = some text := hmark
  exact hcase ⟨parser, _, none, valueMark, bodyMark, urlMark, statusMark⟩ _ rfl (hsim.field _ _ _ h)

theorem mirrors_dataHeaderValue {text : Bytes} (hmark : e.headerValueMark = some text)
    (h : I .naming e.user v ∨ I .valuing e.user v)
    (hcase : ∀ (e' : Exec σ) v, e'.parser = e.parser → I .valuing e'.user v →
      (case e').Mirrors I (case' (e'.over v))) :
    (case (e.dataHeaderValue S passed)).Mirrors I
      (case' ((e.over v).dataHeaderValue T passed)) := by
  obtain ⟨parser, user, fieldMark, valueMark, bodyMark, urlMark, statusMark⟩ := e
  obtain rfl : valueMark = some text := hmark
  exact hcase ⟨parser, _, fieldMark, none, bodyMark, urlMark, statusMark⟩ _ rfl (hsim.value _ _ _ h)

theorem mirrors_dataBody (h : I .outside e.user v)
    (hcase : ∀ (e' : Exec σ) v, e'.parser = e.parser → I .outside e'.user v →
      (case e').Mirrors I (case' (e'.over v))) :
    (case (e.dataBody S passed)).Mirrors I (case' ((e.over v).dataBody T passed)) := by
  obtain ⟨parser, user, fieldMark, valueMark, bodyMark, urlMark, statusMark⟩ := e
  cases bodyMark with
  | none => exact hcase ⟨parser, user, fieldMark, valueMark, none, urlMark, statusMark⟩ v rfl h
  | some text =>
    exact hcase ⟨parser, _, fieldMark, valueMark, none, urlMark, statusMark⟩ _ rfl
      (hsim.body _ _ _ h)

include hS in
/-- After `on_message_complete` the parser is outside a header, or the connection is over. -/
theorem tells_complete (hs : parser.state = .dead ∨ parser.state.outside = true)
    (hkeep : parser.state = .dead → parser.shouldKeepAlive = false) (h : I .outside u v) :
    (S.onMessageComplete parser u).1 = (T.onMessageComplete parser v).1 ∧
      (S.onMessageComplete parser u).1.state.Tells
        (I · (S.onMessageComplete parser u).2 (T.onMessageComplete parser v).2) := by
  obtain ⟨hparser, hI⟩ := hsim.complete parser u v hkeep h
  refine ⟨hparser, ?_⟩
  have hstate : (S.onMessageComplete parser u).1.state = .dead ∨
      (S.onMessageComplete parser u).1.state.outside = true := by
    rcases hS.complete parser u with hsame | ⟨type, hinit⟩
    · rwa [hsame]
    · rw [hinit]
      cases type <;> exact .inr rfl
  rcases hstate with hdead | houtside
  · rw [if_pos hdead] at hI
    rw [hdead]
    exact hI
  · rw [if_neg fun hdead => by rw [hdead] at houtside; cases houtside] at hI
    exact (State.tells_of_outside houtside).mpr hI

include hS in
theorem tells_messageComplete (h : I .outside e.user v) :
    ∃ v', (e.over v).messageComplete T = (e.messageComplete S).over v' ∧
      (e.messageComplete S).Tells I v' := by
  have hs : (e.parser.goto e.parser.newMessage).state = .dead ∨
      (e.parser.goto e.parser.newMessage).state.outside = true := by
    rw [HttpParser.goto_state, HttpParser.newMessage, HttpParser.startState]
    split_ifs <;> simp [State.outside]
  have hkeep : e.parser.newMessage = .dead → e.parser.shouldKeepAlive = false := by
    rw [HttpParser.newMessage, HttpParser.startState]
    split_ifs <;> simp_all
  obtain ⟨hparser, htell⟩ := tells_complete hS hsim hs hkeep h
  refine ⟨(T.onMessageComplete (e.parser.goto e.parser.newMessage) v).2, ?_, htell⟩
  unfold Exec.messageComplete Exec.over
  dsimp only
  rw [hparser]

end Callbacks

/-! ### Cases -/

theorem mirrors_plain (hplain : e.parser.state.plain = true) (h : e.Tells I v) :
    (plain ch e).Mirrors I (plain ch (e.over v)) := by
  have hparser : ((e.markLine ch).onParser (·.plainCase ch)).parser = e.parser.plainCase ch :=
    congrArg (·.plainCase ch) Exec.markLine_parser
  have huser : (e.markLine ch).user = e.user := e.markLine_user ch
  have htell : (e.parser.plainCase ch).httpErrno = .ok →
      (e.parser.plainCase ch).state.Tells (I · e.user v) :=
    HttpParser.plainCase_tells hplain h
  rw [plain, plain, Exec.markLine_over]
  refine mirrors_endCase (e := (e.markLine ch).onParser (·.plainCase ch)) ?_ fun hok => ?_
  · rw [Exec.onParser, huser]
    exact h.exists
  · rw [Exec.Tells, hparser, Exec.onParser, huser]
    rw [hparser] at hok
    exact htell hok

theorem mirrors_outside {more : ℕ} (hs : e.parser.state.outside = true)
    (h : I .outside e.user v) : (Step.next more e).Mirrors I (.next more (e.over v)) :=
  .next ((State.tells_of_outside hs).mpr h)

section Cases

variable (hS : S.Restarts) (hsim : S.Mirrors T I) (hok : e.parser.httpErrno = .ok)
include hsim

section Outside

variable (h : I .outside e.user v)
include hS h

theorem mirrors_notifyComplete : (notifyComplete S (.next 0) e).Mirrors I
    (notifyComplete T (.next 0) (e.over v)) := by
  obtain ⟨v', hover, htell⟩ := tells_messageComplete hS hsim h
  refine mirrors_callback ⟨_, h⟩ ?_
  rw [hover]
  exact .next htell

theorem mirrors_upgraded : (notifyComplete S (.stop 1 true) e).Mirrors I
    (notifyComplete T (.stop 1 true) (e.over v)) := by
  obtain ⟨v', hover, htell⟩ := tells_messageComplete hS hsim h
  refine mirrors_callback ⟨_, h⟩ ?_
  rw [hover]
  exact .stop htell.exists fun _ => htell

theorem mirrors_headersDone : (headersDone S ch e).Mirrors I (headersDone T ch (e.over v)) := by
  refine mirrors_ite (fun _ => mirrors_fail ⟨_, h⟩ (by decide)) fun _ => ?_
  have hcomplete : (notifyComplete S (.next 0) (e.onParser (·.withNread 0))).Mirrors I
      (notifyComplete T (.next 0) ((e.over v).onParser (·.withNread 0))) :=
    mirrors_notifyComplete (e := e.onParser (·.withNread 0)) hS hsim h
  refine mirrors_ite
    (fun _ => mirrors_upgraded (e := e.onParser (·.withNread 0)) hS hsim h) fun _ => ?_
  refine mirrors_ite (fun _ => mirrors_outside rfl h) fun _ => ?_
  refine mirrors_ite (fun _ => hcomplete) fun _ => ?_
  refine mirrors_ite (fun _ => mirrors_outside rfl h) fun _ => ?_
  exact mirrors_ite (fun _ => hcomplete) fun _ => mirrors_outside rfl h

include hok

theorem mirrors_headersAlmostDone :
    (headersAlmostDone S ch e).Mirrors I (headersAlmostDone T ch (e.over v)) := by
  refine mirrors_ite (fun _ => mirrors_fail ⟨_, h⟩ (by decide)) fun _ => ?_
  refine mirrors_ite (fun _ => mirrors_notifyComplete hS hsim h) fun _ => ?_
  exact mirrors_loopHead hsim.maxHeaderSize ⟨_, h⟩ hok fun n => mirrors_headersDone hS hsim h

theorem mirrors_headerFieldStart :
    (headerFieldStart S ch e).Mirrors I (headerFieldStart T ch (e.over v)) := by
  refine mirrors_ite (fun _ => mirrors_outside rfl h) fun _ => ?_
  refine mirrors_ite (fun _ => mirrors_loopHead hsim.maxHeaderSize ⟨_, h⟩ hok fun n =>
    mirrors_headersAlmostDone hS hsim hok h) fun _ => ?_
  exact mirrors_ite (fun _ => mirrors_fail ⟨_, h⟩ (by decide)) fun _ => .next (.inl h)

omit hS in
theorem mirrors_startReqOrRes (hs : e.parser.state = .startReqOrRes) :
    (startReqOrRes S ch e).Mirrors I (startReqOrRes T ch (e.over v)) := by
  refine mirrors_ite (fun _ => mirrors_outside (by rw [hs]; rfl) h) fun _ => ?_
  refine mirrors_ite (fun _ => ?_) fun _ => ?_
  · have hparser : (e.parser.beginMessage.goto .resOrRespH).assertOk =
        e.parser.beginMessage.goto .resOrRespH := if_pos hok
    have htell : (e.onParser fun parser =>
        (parser.beginMessage.goto .resOrRespH).assertOk).Tells I v := by
      rw [Exec.Tells, Exec.parser_onParser, hparser]
      exact h
    exact mirrors_endCase htell.exists fun _ => htell
  exact mirrors_loopHead hsim.maxHeaderSize ⟨_, h⟩ hok fun n => mirrors_plain rfl h

end Outside

/-! ### Headers -/

theorem mirrors_fieldEnd (hs : e.parser.state = .headerField) {text : Bytes}
    (hmark : e.headerFieldMark = some text) (h : e.Tells I v) :
    (fieldEnd S run p e).Mirrors I (fieldEnd T run p (e.over v)) := by
  cases p with
  | nil => exact .next h
  | cons c p =>
    refine mirrors_ite (fun _ => ?_) fun _ => mirrors_fail h.exists (by decide)
    rw [Exec.Tells, hs] at h
    refine mirrors_callback (e := e.onParser (·.goto .headerValueDiscardWs))
      (h.elim (⟨_, ·⟩) (⟨_, ·⟩)) ?_
    refine mirrors_dataHeaderField (e := e.onParser (·.goto .headerValueDiscardWs)) hsim
      (.next run.length) (.next run.length) hmark h fun e' v hparser hnaming => .next ?_
    rw [Exec.Tells, hparser]
    exact hnaming

theorem mirrors_headerFieldCase (hready : e.Ready) (hs : e.parser.state = .headerField)
    (h : e.Tells I v) : (headerFieldCase S p e).Mirrors I (headerFieldCase T p (e.over v)) := by
  obtain ⟨hmatch, -⟩ := fieldRun_spec (HttpParser.tokenRun p) (hready.valid.field hs)
  obtain ⟨text, hmark, -, -⟩ := hready.marked.headerField hs
  have hs' := hmatch.state.trans hs
  have htell : (e.onParser (·.fieldRun (HttpParser.tokenRun p))).Tells I v := by
    rw [Exec.Tells, hs] at h
    rw [Exec.Tells, Exec.parser_onParser, hs']
    exact h
  exact mirrors_count (e := e.onParser (·.fieldRun (HttpParser.tokenRun p))) hsim.maxHeaderSize
    htell.exists (hmatch.errno.trans hready.valid.ok) fun n => mirrors_fieldEnd hsim hs' hmark htell

omit hsim in
theorem mirrors_headerValueStart (h : I .naming e.user v ∨ I .valuing e.user v) :
    (headerValueStart ch e).Mirrors I (headerValueStart ch (e.over v)) := by
  refine mirrors_endCase (e := e.markHeaderValue.onParser (·.valueStart ch))
    (h.elim (⟨_, ·⟩) (⟨_, ·⟩)) fun _ => ?_
  have hstate : (e.parser.valueStart ch).state = .headerValue := by
    unfold HttpParser.valueStart
    dsimp only
    repeat' split
    all_goals rfl
  rw [Exec.Tells, Exec.parser_onParser, Exec.markHeaderValue, hstate]
  exact h

omit hsim in
theorem mirrors_headerValueDiscardWs (hs : e.parser.state = .headerValueDiscardWs)
    (h : I .naming e.user v) :
    (headerValueDiscardWs ch e).Mirrors I (headerValueDiscardWs ch (e.over v)) := by
  refine mirrors_ite (fun _ => .next ?_) fun _ => ?_
  · rw [Exec.Tells, hs]
    exact h
  refine mirrors_ite (fun _ => .next h) fun _ => mirrors_ite (fun _ => .next h) fun _ => ?_
  exact mirrors_headerValueStart (.inl h)

section Values

variable {text : Bytes} (hok : e.parser.httpErrno = .ok) (hmark : e.headerValueMark = some text)
  (h : I .naming e.user v ∨ I .valuing e.user v)
include hok hmark h

theorem mirrors_valueCr : (valueCr S passed e).Mirrors I (valueCr T passed (e.over v)) := by
  refine mirrors_callback (e := e.onParser (·.goto .headerAlmostDone))
    (h.elim (⟨_, ·⟩) (⟨_, ·⟩)) ?_
  refine mirrors_dataHeaderValue (e := e.onParser (·.goto .headerAlmostDone)) hsim
    (count S passed.length passed.length (.next passed.length))
    (count T passed.length passed.length (.next passed.length)) hmark h
    fun e' v hparser hvaluing => ?_
  refine mirrors_count hsim.maxHeaderSize ⟨_, hvaluing⟩ (hparser ▸ hok) fun n => .next ?_
  rw [Exec.Tells, Exec.parser_onParser, hparser]
  exact hvaluing

theorem mirrors_valueLf {matched : HeaderStates} :
    (valueLf S matched passed e).Mirrors I (valueLf T matched passed (e.over v)) := by
  refine mirrors_count (e := e.onParser (·.goto .headerAlmostDone)) hsim.maxHeaderSize
    (h.elim (⟨_, ·⟩) (⟨_, ·⟩)) hok fun n => ?_
  -- The callback stands between two counts, each of which may stop the case.
  refine mirrors_callback (e := ((e.onParser (·.goto .headerAlmostDone)).onParser
      (·.withNread n)).onParser fun parser => { parser with headerState := matched })
    (h.elim (⟨_, ·⟩) (⟨_, ·⟩)) ?_
  refine mirrors_dataHeaderValue (e := ((e.onParser (·.goto .headerAlmostDone)).onParser
      (·.withNread n)).onParser fun parser => { parser with headerState := matched })
    hsim (count S (passed.length - 1) (passed.length - 1) fun e =>
      (loopHead S (plain lf) e).after passed.length)
    (count T (passed.length - 1) (passed.length - 1) fun e =>
      (loopHead T (plain lf) e).after passed.length) hmark h fun e' v hparser hvaluing => ?_
  have hok' : e'.parser.httpErrno = .ok := hparser ▸ hok
  refine mirrors_count hsim.maxHeaderSize ⟨_, hvaluing⟩ hok' fun n => mirrors_after ?_
  refine mirrors_loopHead (e := e'.onParser (·.withNread n)) hsim.maxHeaderSize ⟨_, hvaluing⟩ hok'
    fun n' => mirrors_plain (e := (e'.onParser (·.withNread n)).onParser (·.withNread n')) ?_ ?_
  · rw [Exec.parser_onParser, Exec.parser_onParser, hparser]
    rfl
  · rw [Exec.Tells, Exec.parser_onParser, Exec.parser_onParser, hparser]
    exact hvaluing

end Values

theorem mirrors_headerValueCase (hready : e.Ready) (hs : e.parser.state = .headerValue)
    (h : I .naming e.user v ∨ I .valuing e.user v) :
    (headerValueCase S p e).Mirrors I (headerValueCase T p (e.over v)) := by
  obtain ⟨text, hmark, -, -⟩ := hready.marked.headerValue hs
  obtain ⟨hvalues, -⟩ := valueRun_spec S.maxHeaderSize p hready.valid.ok hs
    (hready.valid.value hs) hready.valid.bound
  have hstate := hvalues.state.trans hs
  unfold headerValueCase valueEnd
  rw [← hsim.maxHeaderSize]
  dsimp only [Exec.over]
  generalize e.parser.valueRun S.maxHeaderSize p = r at hstate
  refine mirrors_ite (fun herrno => .stop (h.elim (⟨_, ·⟩) (⟨_, ·⟩)) fun h => absurd h herrno)
    fun herrno => ?_
  have hok : r.2.httpErrno = .ok := not_not.mp herrno
  cases hdrop : p.drop r.1 with
  | nil =>
    refine mirrors_count (e := e.onParser fun _ => r.2) hsim.maxHeaderSize
      (h.elim (⟨_, ·⟩) (⟨_, ·⟩)) hok fun n => .next ?_
    rw [Exec.Tells, Exec.parser_onParser, HttpParser.withNread_state, Exec.parser_onParser, hstate]
    exact h
  | cons c rest =>
    exact mirrors_ite
      (fun _ => mirrors_valueCr (e := e.onParser fun _ => r.2) hsim hok hmark h)
      fun _ => mirrors_valueLf (e := e.onParser fun before =>
        { r.2 with headerState := before.headerState }) hsim hok hmark h

section Lines

variable (hok : e.parser.httpErrno = .ok)
include hS hok

theorem mirrors_headerValueLws (h : I .valuing e.user v) :
    (headerValueLws S ch e).Mirrors I (headerValueLws T ch (e.over v)) := by
  refine mirrors_ite (fun _ => ?_) fun _ => ?_
  · exact mirrors_loopHead (e := e.onParser (·.goto .headerValueStart)) hsim.maxHeaderSize ⟨_, h⟩
      hok fun n => mirrors_headerValueStart (.inr h)
  · have hfinish : e.parser.finishHeader.httpErrno = .ok :=
      (finishHeader_matches e.parser).errno.trans hok
    exact mirrors_loopHead (e := e.onParser fun parser => parser.finishHeader.goto
      .headerFieldStart) hsim.maxHeaderSize ⟨_, h⟩ hfinish fun n =>
        mirrors_headerFieldStart hS hsim hfinish (hsim.valued _ _ h)

theorem mirrors_headerValueDiscardLws (hvalue : e.headerValueMark = none)
    (h : I .naming e.user v) :
    (headerValueDiscardLws S ch e).Mirrors I (headerValueDiscardLws T ch (e.over v)) := by
  refine mirrors_ite (fun _ => .next h) fun _ => ?_
  have hfinish : e.parser.finishHeader.httpErrno = .ok :=
    (finishHeader_matches e.parser).errno.trans hok
  have hmark : (e.onParser fun parser =>
      parser.finishHeader.goto .headerFieldStart).markHeaderValue.headerValueMark = some [] := by
    rw [Exec.markHeaderValue, Exec.onParser_headerValueMark, hvalue]
    rfl
  dsimp only
  refine mirrors_callback (e := (e.onParser fun parser =>
      parser.finishHeader.goto .headerFieldStart).markHeaderValue) ⟨_, h⟩ ?_
  refine mirrors_dataHeaderValue (e := (e.onParser fun parser =>
      parser.finishHeader.goto .headerFieldStart).markHeaderValue) hsim
    (loopHead S (headerFieldStart S ch)) (loopHead T (headerFieldStart T ch)) hmark (.inl h)
    fun e' v hparser hvaluing => ?_
  have hok' : e'.parser.httpErrno = .ok := hparser ▸ hfinish
  exact mirrors_loopHead hsim.maxHeaderSize ⟨_, hvaluing⟩ hok' fun n =>
    mirrors_headerFieldStart hS hsim hok' (hsim.valued _ _ hvaluing)

end Lines

/-! ### Bodies -/

section Bodies

variable (h : I .outside e.user v)
include h

include hS in
theorem mirrors_bodyIdentity (hs : e.parser.state = .bodyIdentity) :
    (bodyIdentity S p e).Mirrors I (bodyIdentity T p (e.over v)) := by
  refine mirrors_ite (fun _ => mirrors_fail ⟨_, h⟩ (by decide)) fun _ => mirrors_ite (fun _ => ?_)
    fun _ => mirrors_outside (by rw [takeBody, Exec.parser_onParser, Exec.markBody, hs]; rfl) h
  refine mirrors_callback (e := (takeBody (min e.parser.contentLength p.length) e).onParser
    (·.goto .messageDone)) ⟨_, h⟩ ?_
  exact mirrors_dataBody (e := (takeBody (min e.parser.contentLength p.length) e).onParser
    (·.goto .messageDone)) hsim (fun e => (messageDone S e).after _)
    (fun e => (messageDone T e).after _) h fun e' v _ houtside =>
      mirrors_after (mirrors_notifyComplete hS hsim houtside)

omit hsim in
theorem mirrors_bodyIdentityEof (hs : e.parser.state = .bodyIdentityEof) :
    (bodyIdentityEof p e).Mirrors I (bodyIdentityEof p (e.over v)) :=
  mirrors_outside (e := e.markBody) (by rw [Exec.markBody, hs]; rfl) h

omit hsim in
theorem mirrors_chunkData (hs : e.parser.state = .chunkData) :
    (chunkData p e).Mirrors I (chunkData p (e.over v)) :=
  mirrors_ite (fun _ => mirrors_fail ⟨_, h⟩ (by decide)) fun _ => mirrors_ite
    (fun _ => mirrors_outside rfl h) fun _ =>
      mirrors_outside (by rw [takeBody, Exec.parser_onParser, Exec.markBody, hs]; rfl) h

theorem mirrors_chunkDataAlmostDone :
    (chunkDataAlmostDone S ch e).Mirrors I (chunkDataAlmostDone T ch (e.over v)) := by
  refine mirrors_ite (fun _ => mirrors_fail ⟨_, h⟩ (by decide)) fun _ => mirrors_ite
    (fun _ => mirrors_fail ⟨_, h⟩ (by decide)) fun _ =>
      mirrors_callback (e := e.onParser (·.goto .chunkDataDone)) ⟨_, h⟩ ?_
  exact mirrors_dataBody (e := e.onParser (·.goto .chunkDataDone)) hsim (.next 0) (.next 0) h
    fun e' v hparser houtside => mirrors_outside (by rw [hparser]; rfl) houtside

end Bodies

end Cases

/-! ## The loop -/

section Loop

variable (hS : S.Restarts) (hsim : S.Mirrors T I)
include hS hsim

/-- A round of the loop keeps the relation. -/
theorem switch_mirrors (ch : UInt8) (rest : Bytes) (hready : e.Ready) (h : e.Tells I v) :
    (loopHead S (switch S ch rest) e).Mirrors I (loopHead T (switch T ch rest) (e.over v)) := by
  refine mirrors_loopHead hsim.maxHeaderSize h.exists hready.valid.ok fun n => ?_
  have hok : (e.onParser (·.withNread n)).parser.httpErrno = .ok := hready.valid.ok
  have hplain : (e.onParser (·.withNread n)).parser.state.plain = true →
      (plain ch (e.onParser (·.withNread n))).Mirrors I
        (plain ch ((e.over v).onParser (·.withNread n))) := fun hs => mirrors_plain hs h
  have hready' : e.parser.state ≠ .chunkSizeStart → (e.onParser (·.withNread n)).Ready :=
    fun hs => hready.withNread hs n
  have htell : (e.onParser (·.withNread n)).Tells I v := h
  rw [Exec.Tells] at h
  unfold switch
  rw [show ((e.over v).onParser _).parser.state = e.parser.state from rfl]
  cases hs : e.parser.state <;> rw [hs] at h hready' <;>
    simp only [Exec.parser_onParser, HttpParser.withNread_state, hs]
  case startReqOrRes => exact mirrors_startReqOrRes hsim hok h hs
  case headerFieldStart => exact mirrors_headerFieldStart hS hsim hok h
  case headerField => exact mirrors_headerFieldCase hsim (hready' (by decide)) hs htell
  case headerValueDiscardWs => exact mirrors_headerValueDiscardWs hs h
  case headerValueStart => exact mirrors_headerValueStart h
  case headerValue => exact mirrors_headerValueCase hsim (hready' (by decide)) hs h
  case headerValueLws => exact mirrors_headerValueLws hS hsim hok h
  case headerValueDiscardLws =>
    exact mirrors_headerValueDiscardLws hS hsim hok (hready.marked.valueMark (by rw [hs]; decide)) h
  case headersAlmostDone => exact mirrors_headersAlmostDone hS hsim hok h
  case headersDone => exact mirrors_headersDone hS hsim h
  case bodyIdentity => exact mirrors_bodyIdentity hS hsim h hs
  case bodyIdentityEof => exact mirrors_bodyIdentityEof h hs
  case messageDone =>
    exact mirrors_notifyComplete (e := e.onParser (·.withNread n)) hS hsim h
  case chunkData => exact mirrors_chunkData h hs
  case chunkDataAlmostDone => exact mirrors_chunkDataAlmostDone hsim h
  all_goals exact hplain (by rw [Exec.parser_onParser, HttpParser.withNread_state, hs]; rfl)

omit hS in
/-- What is told at the end of the data. -/
theorem tells_flush (hready : e.Ready) (h : e.Tells I v) :
    ∃ v', (e.over v).flush T = (e.flush S).over v' ∧ (e.flush S).Tells I v' := by
  have hmarked := hready.marked
  have hmarked' : (e.over v).Marked :=
    ⟨hmarked.field, hmarked.value, hmarked.body, hmarked.url, hmarked.status⟩
  have hready' : (e.over v).Ready := ⟨hready.valid, hmarked'⟩
  rw [hready.flush_eq, hready'.flush_eq]
  rw [Exec.Tells] at h
  by_cases hfield : e.parser.state = .headerField
  · obtain ⟨text, hmark, hnoValue, hbody, -⟩ := hmarked.headerField hfield
    rw [hfield] at h
    obtain ⟨parser, user, fieldMark, valueMark, bodyMark, urlMark, statusMark⟩ := e
    dsimp only at hmark hnoValue hbody
    subst hmark hnoValue hbody
    refine ⟨_, rfl, ?_⟩
    simp only [Exec.Tells, Exec.dataHeaderField, Exec.dataHeaderValue, Exec.dataBody]
    rw [hfield]
    exact .inr (hsim.field _ _ _ h)
  by_cases hvalue : e.parser.state = .headerValue
  · obtain ⟨text, hmark, hnoField, hbody, -⟩ := hmarked.headerValue hvalue
    rw [hvalue] at h
    obtain ⟨parser, user, fieldMark, valueMark, bodyMark, urlMark, statusMark⟩ := e
    dsimp only at hmark hnoField hbody
    subst hmark hnoField hbody
    refine ⟨_, rfl, ?_⟩
    simp only [Exec.Tells, Exec.dataHeaderField, Exec.dataHeaderValue, Exec.dataBody]
    rw [hvalue]
    exact .inr (hsim.value _ _ _ h)
  -- Outside a header only a part of a body can be at hand.
  have hnoField := hmarked.fieldMark hfield
  have hnoValue := hmarked.valueMark hvalue
  have hinBody := hmarked.body
  obtain ⟨parser, user, fieldMark, valueMark, bodyMark, urlMark, statusMark⟩ := e
  dsimp only at hnoField hnoValue hinBody
  subst hnoField hnoValue
  cases bodyMark with
  | none => exact ⟨v, rfl, h⟩
  | some text =>
    have houtside : parser.state.outside = true := by
      have := hinBody rfl
      revert this
      cases parser.state <;> simp [State.inBody, State.outside]
    exact ⟨_, rfl, (State.tells_of_outside houtside).mpr
      (hsim.body _ _ _ ((State.tells_of_outside houtside).mp h))⟩

end Loop

/-- Two executions leave the same but for what the callbacks work on, and that is related. -/
structure Executed.Mirrors (I : Phase → σ → τ → Prop) (r : Executed σ) (r' : Executed τ) :
    Prop where
  parsed : r.parsed = r'.parsed
  parser : r.parser = r'.parser
  upgrade : r.upgrade = r'.upgrade
  related : ∃ phase, I phase r.user r'.user
  tells : r.parser.httpErrno = .ok → r.parser.state.Tells (I · r.user r'.user)

theorem Executed.Mirrors.after {r : Executed σ} {r' : Executed τ} (h : r.Mirrors I r') (k : ℤ) :
    (r.after k).Mirrors I (r'.after k) :=
  ⟨congrArg (k + ·) h.parsed, h.parser, h.upgrade, h.related, h.tells⟩

section Execute

variable (hS : S.Restarts) (hsim : S.Mirrors T I)
include hS hsim

theorem execLoop_mirrors (data : Bytes) (more : ℕ) (hready : e.Ready) (h : e.Tells I v) :
    (execLoop S data more e).Mirrors I (execLoop T data more (e.over v)) := by
  induction data generalizing more e v with
  | nil =>
    obtain ⟨v', hover, htell⟩ := tells_flush hsim hready h
    simp only [execLoop, hover]
    exact ⟨rfl, rfl, rfl, htell.exists, fun _ => htell⟩
  | cons ch rest ih =>
    cases more with
    | succ more => exact (ih more hready h).after 1
    | zero =>
      have hround := switch_mirrors hS hsim ch rest hready h
      have hkeeps := switch_keeps ch rest hS hready
      rw [execLoop, execLoop]
      generalize loopHead S (switch S ch rest) e = s at hround hkeeps
      generalize loopHead T (switch T ch rest) (e.over v) = t at hround
      cases hround with
      | next htell => exact (ih _ (Exec.Ready.advance hkeeps _) htell).after 1
      | stop hI htell => exact ⟨rfl, rfl, rfl, hI, htell⟩

/-- Two programs that are related stay related over any data, with the same parser. -/
theorem execute_mirrors (data : Bytes) (hrests : parser.Rests) (hI : ∃ phase, I phase u v)
    (h : parser.httpErrno = .ok → parser.state.Tells (I · u v)) :
    (parser.execute S data u).Mirrors I (parser.execute T data v) := by
  unfold HttpParser.execute
  split_ifs with hok hdata
  · exact ⟨rfl, rfl, rfl, hI, h⟩
  · have htell := h (not_not.mp hok)
    unfold executeEnd
    cases hs : parser.state
    case bodyIdentityEof =>
      rw [hs] at htell
      have houtside : parser.state.outside = true := by
        rw [hs]
        rfl
      obtain ⟨hparser, htell⟩ := tells_complete hS hsim (.inr houtside)
        (fun hdead => by rw [hs] at hdead; cases hdead) htell
      exact ⟨rfl, hparser, rfl, htell.exists, fun _ => htell⟩
    all_goals exact ⟨rfl, rfl, rfl, hI, fun h' => by first | exact h h' | cases h'⟩
  · exact execLoop_mirrors hS hsim data 0 (Exec.ready_begin (hrests.valid (not_not.mp hok)) u)
      (h (not_not.mp hok))

/-- Two programs that are related stay related over all reads of a connection. -/
theorem executeAll_mirrors (reads : List Bytes) (hrests : parser.Rests) (hI : ∃ phase, I phase u v)
    (h : parser.httpErrno = .ok → parser.state.Tells (I · u v)) :
    (parser.executeAll S reads u).Mirrors I (parser.executeAll T reads v) := by
  induction reads generalizing parser u v with
  | nil => exact ⟨rfl, rfl, rfl, hI, h⟩
  | cons data reads ih =>
    have hround := execute_mirrors hS hsim data hrests hI h
    have hrests' := execute_rests hS data u hrests
    rw [HttpParser.executeAll, HttpParser.executeAll]
    dsimp only
    rw [← hround.parser, ← hround.upgrade, ← hround.parsed]
    split_ifs
    · have hrest := ih hrests' hround.related hround.tells
      exact ⟨congrArg (_ + ·) hrest.parsed, hrest.parser, congrArg (_ || ·) hrest.upgrade,
        hrest.related, hrest.tells⟩
    · exact hround

end Execute

end Wrkx
