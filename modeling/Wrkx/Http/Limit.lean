import Wrkx.Http.Restart

/-!
# The limit on the headers

`nread` counts the bytes of a message for the limit on its headers, and apart from an assertion
at the start of a chunk nothing else depends on it. An execution that stays below the limit is
the one without a limit, whatever the count began with.

## Main results

- `execute_within` — an execution fails at the limit, or it ends as if there were none
-/

namespace Wrkx

variable {σ : Type*} {S : HttpParserSettings σ} {e e' : Exec σ} {parser parser' : HttpParser}
  {ch : UInt8} {p rest passed : Bytes} {n m : ℕ}

/-- The same callbacks with the largest limit, which no `uint32_t` exceeds. -/
def HttpParserSettings.unlimited (S : HttpParserSettings σ) : HttpParserSettings σ :=
  { S with maxHeaderSize := 2 ^ 32 - 1 }

theorem HttpParserSettings.Tame.unlimited (hS : S.Tame) : S.unlimited.Tame :=
  ⟨⟨hS.complete⟩, hS.blind⟩

theorem HttpParserSettings.Regular.unlimited (hS : S.Regular) : S.unlimited.Regular :=
  ⟨hS.toTame.unlimited, hS.field, hS.value, hS.body⟩

/-- The count of the headers does not wrap around within some bytes of data. -/
def HttpParserSettings.Fits (S : HttpParserSettings σ) (length : ℕ) : Prop :=
  length < 2 ^ 32 ∧ (S.maxHeaderSize < length → S.maxHeaderSize + length < 2 ^ 32)

instance HttpParserSettings.decidableFits (length : ℕ) : Decidable (S.Fits length) :=
  inferInstanceAs (Decidable (length < 2 ^ 32 ∧
    (S.maxHeaderSize < length → S.maxHeaderSize + length < 2 ^ 32)))

theorem HttpParserSettings.Fits.mono {length length' : ℕ} (h : S.Fits length)
    (hle : length' ≤ length) : S.Fits length' :=
  ⟨hle.trans_lt h.1, fun hmax =>
    (Nat.add_le_add_left hle _).trans_lt (h.2 (hmax.trans_le hle))⟩

/-! ## Parsers -/

namespace HttpParser

/-- The parsers differ in the count only. -/
def Near (parser parser' : HttpParser) : Prop := ∃ n, parser' = parser.withNread n

theorem Near.refl (parser : HttpParser) : parser.Near parser := ⟨parser.nread, rfl⟩

theorem Near.symm (h : parser.Near parser') : parser'.Near parser := by
  obtain ⟨n, rfl⟩ := h
  exact ⟨parser.nread, rfl⟩

theorem Near.trans {parser'' : HttpParser} (h : parser.Near parser') (h' : parser'.Near parser'') :
    parser.Near parser'' := by
  obtain ⟨n, rfl⟩ := h
  obtain ⟨m, rfl⟩ := h'
  exact ⟨m, rfl⟩

theorem Near.httpErrno (h : parser.Near parser') : parser'.httpErrno = parser.httpErrno := by
  obtain ⟨n, rfl⟩ := h
  rfl

theorem near_ite {p p' : Prop} [Decidable p] [Decidable p'] {a b a' b' : HttpParser}
    (hp : p ↔ p') (ha : a.Near a') (hb : b.Near b') :
    (if p then a else b).Near (if p' then a' else b') := by
  by_cases h : p
  · rwa [if_pos h, if_pos (hp.mp h)]
  · rwa [if_neg h, if_neg (hp.not.mp h)]

theorem withNread_ite {p : Prop} [Decidable p] (a b : HttpParser) :
    (if p then a else b).withNread n = if p then a.withNread n else b.withNread n :=
  apply_ite _ _ _ _

theorem assertOk_withNread :
    (parser.withNread n).assertOk = parser.assertOk.withNread n := by
  unfold assertOk
  rw [withNread_ite]
  rfl

theorem startReq_withNread :
    (parser.withNread n).startReq ch = (parser.startReq ch).withNread n := by
  unfold startReq
  dsimp only
  rw [withNread_ite, withNread_ite]
  congr 2
  split
  · rfl
  · simp only [assertOk, withNread_ite]
    rfl

theorem reqMethod_withNread :
    (parser.withNread n).reqMethod ch = (parser.reqMethod ch).withNread n := by
  unfold reqMethod
  simp only [withNread_ite]
  dsimp only [withNread]
  congr
  split <;> rfl

theorem chunkSize_withNread :
    (parser.withNread n).chunkSize ch = (parser.chunkSize ch).withNread n := by
  unfold chunkSize
  simp only [withNread_ite]
  cases unhex ch <;> simp only [withNread_ite] <;> rfl

/-- The cases that change the parser only make nothing of the count, except at the start of a
    chunk. -/
theorem near_plainCase (ch : UInt8) (h : parser.state = .chunkSizeStart → parser.nread = n) :
    (parser.plainCase ch).Near ((parser.withNread n).plainCase ch) := by
  unfold plainCase
  rw [withNread_state]
  cases hs : parser.state <;> dsimp only
  case startReq => exact ⟨n, startReq_withNread⟩
  case reqMethod => exact ⟨n, reqMethod_withNread⟩
  case chunkSize => exact ⟨n, chunkSize_withNread⟩
  case chunkSizeStart =>
    obtain rfl := h hs
    exact .refl _
  case chunkSizeAlmostDone =>
    exact near_ite Iff.rfl ⟨n, rfl⟩ (near_ite Iff.rfl ⟨n, rfl⟩ (.refl _))
  case chunkDataDone => exact near_ite Iff.rfl ⟨n, rfl⟩ (near_ite Iff.rfl ⟨n, rfl⟩ (.refl _))
  all_goals
    refine ⟨n, ?_⟩
    try simp only [withNread_ite, ← assertOk_withNread, resFirstHttpMajor, reqFirstHttpMajor,
      httpMajorByte, firstHttpMinor, resHttpMinor, reqHttpMinor, httpMinorDigit,
      resFirstStatusCode, resStatusCode, resStatusStart, resStatus, startRes, reqSpacesBeforeUrl,
      reqSchema, reqUrl, urlByte, reqHttpStart, strictByte, chunkParameters]
    try rfl

theorem fieldByte_withNread (ch c : UInt8) :
    (parser.withNread n).fieldByte ch c = (parser.fieldByte ch c).withNread n := by
  unfold fieldByte
  simp only [withNread_headerState]
  split <;> first | rfl | (simp only [withNread_ite]; rfl)

theorem fieldRun_withNread (run : Bytes) :
    (parser.withNread n).fieldRun run = (parser.fieldRun run).withNread n := by
  induction run generalizing parser with
  | nil => rfl
  | cons ch run ih => simp only [fieldRun, List.foldl_cons, fieldByte_withNread] at ih ⊢; exact ih

theorem connectionFlag_withNread :
    (parser.withNread n).connectionFlag = parser.connectionFlag.withNread n := by
  unfold connectionFlag
  simp only [withNread_headerState]
  split <;> rfl

theorem valueByte_withNread :
    (parser.withNread n).valueByte ch = (parser.valueByte ch).withNread n := by
  unfold valueByte
  simp only [withNread_headerState, connectionFlag_withNread]
  split <;> first | rfl | (simp only [withNread_ite]; rfl)

theorem valueRun_withNread (max : ℕ) (p : Bytes) : (parser.withNread n).valueRun max p =
    ((parser.valueRun max p).1, (parser.valueRun max p).2.withNread n) := by
  induction p generalizing parser with
  | nil => rfl
  | cons ch p ih =>
    unfold valueRun
    simp only [valueByte_withNread, ih, withNread_headerState, withNread_errno]
    split_ifs <;> rfl

theorem valueRun_nread (max : ℕ) (p : Bytes) :
    (parser.valueRun max p).2.nread = parser.nread :=
  congrArg (·.2.nread) (valueRun_withNread (n := parser.nread) max p)

theorem valueStart_withNread :
    (parser.withNread n).valueStart ch = (parser.valueStart ch).withNread n := by
  unfold valueStart
  dsimp only
  rw [withNread_headerState]
  split <;> first | rfl | (simp only [withNread_ite]; rfl)

theorem finishHeader_withNread :
    (parser.withNread n).finishHeader = parser.finishHeader.withNread n := by
  unfold finishHeader
  simp only [withNread_headerState, connectionFlag_withNread]
  split <;> rfl

/-- The limit cuts the search for the end of a line short only where it is exceeded. -/
theorem generalRun_cases (max : ℕ) (p : Bytes) :
    generalRun max p = (p.takeWhile (!isEol ·)).length ∨
      max < p.length ∧ generalRun max p = p.length := by
  have hsplit : p.takeWhile (!isEol ·) = _ :=
    (congrArg (List.takeWhile (!isEol ·)) (List.take_append_drop max p).symm).trans
      List.takeWhile_append
  have hle := (List.takeWhile_sublist (!isEol ·) (l := p.take max)).length_le
  unfold generalRun
  dsimp only
  split_ifs with hrun
  · rw [if_neg hrun.ne] at hsplit
    exact .inl (congrArg List.length hsplit.symm)
  · by_cases hmax : max < p.length
    · exact .inr ⟨hmax, rfl⟩
    · -- the whole line is in the data, and nothing ends it
      rw [List.take_of_length_le (not_lt.mp hmax)] at hrun hle
      exact .inl (le_antisymm (not_lt.mp hrun) hle)

theorem generalRun_of_le {max : ℕ} (h : p.length ≤ max) :
    generalRun max p = (p.takeWhile (!isEol ·)).length :=
  (generalRun_cases max p).resolve_right fun h' => absurd h'.1 (not_lt.mpr h)

/-- So does the loop over a value, which then passes all of the data. -/
theorem valueRun_cases (max : ℕ) (hp : p.length ≤ 2 ^ 32 - 1) (hok : parser.httpErrno = .ok) :
    parser.valueRun max p = parser.valueRun (2 ^ 32 - 1) p ∨
      max < p.length ∧ (parser.valueRun max p).1 = p.length ∧
        (parser.valueRun max p).2.httpErrno = .ok := by
  induction p generalizing parser with
  | nil => exact .inl rfl
  | cons ch p ih =>
    unfold valueRun
    dsimp only
    split_ifs with heol hgeneral herrno
    · exact .inl rfl
    -- Only here does the limit matter: the line may end behind it.
    · rw [generalRun_of_le hp]
      rcases generalRun_cases max (ch :: p) with h | ⟨hmax, h⟩
      · exact .inl (by rw [h])
      · exact .inr ⟨hmax, h, hok⟩
    · exact .inl rfl
    · have hp' : p.length ≤ 2 ^ 32 - 1 := (Nat.le_succ _).trans hp
      rcases ih hp' (not_not.mp herrno) with h | ⟨hmax, h, hok'⟩
      · exact .inl (by rw [h])
      · exact .inr ⟨hmax.trans (Nat.lt_succ_self _), by rw [h, List.length_cons], hok'⟩

end HttpParser

/-- A message is complete for the callbacks whatever the count is. -/
theorem HttpParserSettings.Tame.near (hS : S.Tame) (parser : HttpParser) (n : ℕ)
    (user : σ) :
    (S.onMessageComplete parser user).1.Near (S.onMessageComplete (parser.withNread n) user).1 ∧
      (S.onMessageComplete parser user).2 = (S.onMessageComplete (parser.withNread n) user).2 := by
  have heq := (hS.blind (parser.withNread n) user).symm.trans (hS.blind parser user)
  simp only [Prod.mk.injEq] at heq
  have hparser := congrArg
    (HttpParser.withNread (S.onMessageComplete (parser.withNread n) user).1.nread) heq.1
  exact ⟨⟨_, hparser⟩, heq.2.symm⟩

/-! ## Rules -/

/-- The executions differ in the count only. -/
def Exec.Near (e e' : Exec σ) : Prop := ∃ n, e' = e.onParser (·.withNread n)

theorem Exec.near_withNread (n m : ℕ) :
    (e.onParser (·.withNread n)).Near (e.onParser (·.withNread m)) := ⟨m, rfl⟩

/-- The first round fails at the limit, or both end alike but for the count. -/
inductive Step.Within (S : HttpParserSettings σ) : Step σ → Step σ → Prop
  | next {more : ℕ} {e e' : Exec σ} (h : e.Near e') : Within S (.next more e) (.next more e')
  | stop {parsed : ℤ} {upgrade : Bool} {e e' : Exec σ} (h : e.Near e') :
    Within S (.stop parsed upgrade e) (.stop parsed upgrade e')
  | overflow {parsed : ℤ} {e : Exec σ} {s : Step σ} (hmax : S.maxHeaderSize < 2 ^ 32 - 1)
    (h : e.parser.httpErrno = .headerOverflow) : Within S (.stop parsed false e) s

variable {case case' : Exec σ → Step σ}

theorem within_after {k : ℕ} {s s' : Step σ} (h : s.Within S s') :
    (s.after k).Within S (s'.after k) := by
  cases h with
  | next h => exact .next h
  | stop h => exact .stop h
  | overflow hmax h => exact .overflow hmax h

theorem within_ite {p p' : Prop} [Decidable p] [Decidable p'] {s t s' t' : Step σ} (hp : p ↔ p')
    (hs : p → s.Within S s') (ht : ¬p → t.Within S t') :
    (if p then s else t).Within S (if p' then s' else t') := by
  by_cases h : p
  · rw [if_pos h, if_pos (hp.mp h)]
    exact hs h
  · rw [if_neg h, if_neg (hp.not.mp h)]
    exact ht h

theorem within_endCase (h : e.Near e') : e.endCase.Within S e'.endCase := by
  obtain ⟨n, rfl⟩ := h
  exact within_ite Iff.rfl (fun _ => .next ⟨n, rfl⟩) fun _ => .stop ⟨n, rfl⟩

theorem within_callback (hnear : e.Near e') (h : (case e).Within S (case' e')) :
    (e.callback case).Within S (e'.callback case') := by
  obtain ⟨n, rfl⟩ := hnear
  exact within_ite Iff.rfl (fun _ => h) fun _ => .stop ⟨n, rfl⟩

theorem within_count {v k : ℤ} (hnear : e.Near e') (hok : e.parser.httpErrno = .ok)
    (h : ∀ n m, (case (e.onParser (·.withNread n))).Within S
      (case' (e.onParser (·.withNread m)))) :
    (count S v k case e).Within S (count S.unlimited v k case' e') := by
  obtain ⟨n, rfl⟩ := hnear
  rcases count_cases (S := S.unlimited) (e := e.onParser (·.withNread n)) case' v k hok with
    ⟨hmax, -⟩ | ⟨-, hcase'⟩
  · exact absurd hmax (lt_irrefl _)
  rw [hcase']
  rcases count_cases (S := S) case v k hok with ⟨hmax, e', hstop, herrno⟩ | ⟨-, hcase⟩
  · rw [hstop]
    exact .overflow hmax herrno
  · rw [hcase]
    exact h _ _

theorem within_loopHead (hnear : e.Near e') (hok : e.parser.httpErrno = .ok)
    (h : ∀ n m, (e.parser.state.parsingHeader = true →
        n = (e.parser.nread + 1) % 2 ^ 32 ∧ n ≤ S.maxHeaderSize ∧
          m = (e'.parser.nread + 1) % 2 ^ 32) →
      (case (e.onParser (·.withNread n))).Within S (case' (e.onParser (·.withNread m)))) :
    (loopHead S case e).Within S (loopHead S.unlimited case' e') := by
  obtain ⟨n, rfl⟩ := hnear
  rcases loopHead_cases (S := S.unlimited) (e := e.onParser (·.withNread n)) case' hok with
    ⟨hmax, -⟩ | ⟨m', hcase', hm'⟩
  · exact absurd hmax (lt_irrefl _)
  rw [hcase']
  rcases loopHead_cases (S := S) case hok with ⟨hmax, e', hstop, herrno⟩ | ⟨m, hcase, hm⟩
  · rw [hstop]
    exact .overflow hmax herrno
  · rw [hcase]
    exact h m m' fun hs => ⟨(hm hs).1, (hm hs).2, (hm' hs).1⟩

/-! ## Cases -/

section Near

variable (h : e.Near e')
include h

theorem Exec.Near.onParser {f : HttpParser → HttpParser}
    (hf : ∀ {parser : HttpParser} {n : ℕ}, f (parser.withNread n) = (f parser).withNread n) :
    (e.onParser f).Near (e'.onParser f) := by
  obtain ⟨n, rfl⟩ := h
  exact ⟨n, congrArg (fun parser => { e with parser }) hf⟩

theorem Exec.Near.goto (s : State) : (e.onParser (·.goto s)).Near (e'.onParser (·.goto s)) :=
  h.onParser rfl

theorem Exec.Near.fail (errno : HttpErrno) :
    (e.onParser (·.fail errno)).Near (e'.onParser (·.fail errno)) :=
  h.onParser rfl

theorem Exec.Near.dataHeaderField (passed : Bytes) :
    (e.dataHeaderField S passed).Near (e'.dataHeaderField S.unlimited passed) := by
  obtain ⟨n, rfl⟩ := h
  refine ⟨n, ?_⟩
  unfold Exec.dataHeaderField
  cases hmark : e.headerFieldMark <;> simp only [Exec.onParser_headerFieldMark, hmark]
  rfl

theorem Exec.Near.dataHeaderValue (passed : Bytes) :
    (e.dataHeaderValue S passed).Near (e'.dataHeaderValue S.unlimited passed) := by
  obtain ⟨n, rfl⟩ := h
  refine ⟨n, ?_⟩
  unfold Exec.dataHeaderValue
  cases hmark : e.headerValueMark <;> simp only [Exec.onParser_headerValueMark, hmark]
  rfl

theorem Exec.Near.dataBody (passed : Bytes) :
    (e.dataBody S passed).Near (e'.dataBody S.unlimited passed) := by
  obtain ⟨n, rfl⟩ := h
  refine ⟨n, ?_⟩
  unfold Exec.dataBody
  cases hmark : e.bodyMark <;> simp only [Exec.onParser_bodyMark, hmark]
  rfl

theorem Exec.Near.messageComplete (hS : S.Tame) :
    (e.messageComplete S).Near (e'.messageComplete S.unlimited) := by
  obtain ⟨n, rfl⟩ := h
  obtain ⟨⟨m, hparser⟩, huser⟩ := hS.near (e.parser.goto e.parser.newMessage) n e.user
  exact ⟨m, congrArg₂ (fun parser user => { e with parser, user }) hparser huser.symm⟩

theorem within_notifyComplete (hS : S.Tame) : (notifyComplete S (.next 0) e).Within S
    (notifyComplete S.unlimited (.next 0) e') :=
  within_callback h (.next (h.messageComplete hS))

theorem within_plain (hn : e.parser.state = .chunkSizeStart → e.parser.nread = e'.parser.nread) :
    (plain ch e).Within S (plain ch e') := by
  obtain ⟨m, hm⟩ := HttpParser.near_plainCase ch (n := e'.parser.nread) hn
  obtain ⟨n, rfl⟩ := h
  refine within_endCase ⟨m, ?_⟩
  have hmark : (e.onParser (·.withNread n)).markLine ch =
      (e.markLine ch).onParser (·.withNread n) := Exec.markLine_onParser rfl
  rw [hmark]
  simp only [Exec.onParser, Exec.markLine_parser]
  exact congrArg (fun parser => { e.markLine ch with parser }) hm

theorem within_headerValueStart :
    (headerValueStart ch e).Within S (headerValueStart ch e') := by
  obtain ⟨n, rfl⟩ := h
  exact within_endCase ⟨n, congrArg (fun parser => { e.markHeaderValue with parser })
    HttpParser.valueStart_withNread⟩

theorem within_headerValueDiscardWs :
    (headerValueDiscardWs ch e).Within S (headerValueDiscardWs ch e') := by
  refine within_ite Iff.rfl (fun _ => .next h) fun _ => ?_
  refine within_ite Iff.rfl (fun _ => .next (h.goto _)) fun _ => ?_
  exact within_ite Iff.rfl (fun _ => .next (h.goto _)) fun _ => within_headerValueStart h

theorem within_headersDone (hS : S.Tame) :
    (headersDone S ch e).Within S (headersDone S.unlimited ch e') := by
  have hnread : (e.onParser (·.withNread 0)).Near (e'.onParser (·.withNread 0)) := by
    obtain ⟨n, rfl⟩ := h
    exact ⟨0, rfl⟩
  obtain ⟨n, rfl⟩ := h
  refine within_ite Iff.rfl (fun _ => .stop ⟨n, rfl⟩) fun _ => ?_
  refine within_ite Iff.rfl
    (fun _ => within_callback hnread (.stop (hnread.messageComplete hS))) fun _ => ?_
  refine within_ite Iff.rfl (fun _ => .next (hnread.goto _)) fun _ => ?_
  refine within_ite Iff.rfl (fun _ => within_notifyComplete hnread hS) fun _ => ?_
  refine within_ite Iff.rfl (fun _ => .next (hnread.goto _)) fun _ => ?_
  exact within_ite Iff.rfl (fun _ => within_notifyComplete hnread hS)
    fun _ => .next (hnread.goto _)

variable (hok : e.parser.httpErrno = .ok)
include hok

theorem within_headersAlmostDone (hS : S.Tame) :
    (headersAlmostDone S ch e).Within S (headersAlmostDone S.unlimited ch e') := by
  have hnear := h
  obtain ⟨n, rfl⟩ := h
  refine within_ite Iff.rfl (fun _ => .stop ⟨n, rfl⟩) fun _ => ?_
  refine within_ite Iff.rfl (fun _ => within_notifyComplete hnear hS) fun _ => ?_
  exact within_loopHead ⟨n, rfl⟩ hok fun m m' _ => within_headersDone ⟨m', rfl⟩ hS

theorem within_headerFieldStart (hS : S.Tame) :
    (headerFieldStart S ch e).Within S (headerFieldStart S.unlimited ch e') := by
  refine within_ite Iff.rfl (fun _ => .next (h.goto _)) fun _ => ?_
  refine within_ite Iff.rfl (fun _ => ?_) fun _ => ?_
  · exact within_loopHead (h.goto _) hok fun m m' _ =>
      within_headersAlmostDone ⟨m', rfl⟩ hok hS
  · refine within_ite Iff.rfl (fun _ => .stop (h.fail _)) fun _ => .next ?_
    obtain ⟨n, rfl⟩ := h
    exact ⟨n, rfl⟩

theorem within_valueCr :
    (valueCr S passed e).Within S (valueCr S.unlimited passed e') := by
  refine within_callback (h.goto _)
    (within_count ((h.goto _).dataHeaderValue passed) ?_ fun n m => .next ⟨m, rfl⟩)
  rw [Exec.parser_dataHeaderValue]
  exact hok

theorem within_valueLf {matched : HeaderStates} :
    (valueLf S matched passed e).Within S (valueLf S.unlimited matched passed e') := by
  refine within_count (h.goto _) hok fun n m => ?_
  have hmatched : (((e.onParser (·.goto .headerAlmostDone)).onParser (·.withNread n)).onParser
      fun parser => { parser with headerState := matched }).Near
      (((e.onParser (·.goto .headerAlmostDone)).onParser (·.withNread m)).onParser
        fun parser => { parser with headerState := matched }) := ⟨m, rfl⟩
  refine within_callback hmatched
    (within_count (hmatched.dataHeaderValue passed) ?_ fun n' m' => within_after ?_)
  · rw [Exec.parser_dataHeaderValue]
    exact hok
  refine within_loopHead ⟨m', rfl⟩ ?_ fun n m _ => within_plain ⟨m, rfl⟩ ?_
  · simpa using hok
  · simp

end Near

section Bulk

variable (h : e.Near e')
include h

theorem within_headerFieldCase
    (hok : (e.parser.fieldRun (HttpParser.tokenRun p)).httpErrno = .ok) :
    (headerFieldCase S p e).Within S (headerFieldCase S.unlimited p e') := by
  refine within_count (h.onParser (HttpParser.fieldRun_withNread _)) hok fun n m => ?_
  unfold fieldEnd
  cases p.drop (HttpParser.tokenRun p).length with
  | nil => exact .next ⟨m, rfl⟩
  | cons c q =>
    have hnear := Exec.near_withNread (e := e.onParser (·.fieldRun (HttpParser.tokenRun p))) n m
    exact within_ite Iff.rfl
      (fun _ => within_callback (hnear.goto _) (.next ((hnear.goto _).dataHeaderField _)))
      fun _ => .stop (hnear.fail _)

theorem within_valueEnd (k n : ℕ) : (valueEnd S p k parser e).Within S
    (valueEnd S.unlimited p k (parser.withNread n) e') := by
  have hparser : (e.onParser fun _ => parser).Near (e'.onParser fun _ => parser.withNread n) := by
    obtain ⟨m, rfl⟩ := h
    exact ⟨n, rfl⟩
  refine within_ite Iff.rfl (fun _ => .stop hparser) fun hok => ?_
  have hok := not_not.mp hok
  cases p.drop k with
  | nil => exact within_count hparser hok fun n m => .next ⟨m, rfl⟩
  | cons c q =>
    refine within_ite Iff.rfl (fun _ => within_valueCr hparser hok) fun _ =>
      within_valueLf ?_ hok
    obtain ⟨m, rfl⟩ := h
    exact ⟨n, rfl⟩

/-- A value that is cut short at the limit exceeds it. -/
theorem within_headerValueCase (hok : e.parser.httpErrno = .ok)
    (hnread : e.parser.nread ≤ S.maxHeaderSize) (hfit : S.Fits p.length) :
    (headerValueCase S p e).Within S (headerValueCase S.unlimited p e') := by
  have hnear := h
  obtain ⟨n, rfl⟩ := h
  unfold headerValueCase
  dsimp only [Exec.parser_onParser]
  rw [HttpParser.valueRun_withNread]
  rcases HttpParser.valueRun_cases S.maxHeaderSize (p := p)
    (Nat.le_pred_of_lt hfit.1) hok with
    hrun | ⟨hmax, hlength, herrno⟩
  · rw [hrun]
    exact within_valueEnd hnear _ _
  · unfold valueEnd
    rw [if_neg (not_not.mpr herrno), hlength, List.drop_length]
    rcases count_cases (S := S) (e := e.onParser fun _ => (e.parser.valueRun S.maxHeaderSize p).2)
      (.next (p.length - 1)) p.length p.length herrno with ⟨hlimit, e', hstop, hfull⟩ | ⟨hle, -⟩
    · rw [hstop]
      exact .overflow hlimit hfull
    · -- the count would include all of the data
      have := hfit.2 hmax
      rw [Exec.parser_onParser, HttpParser.valueRun_nread] at hle
      omega

theorem Exec.Near.takeBody (toRead : ℕ) : (takeBody toRead e).Near (takeBody toRead e') := by
  obtain ⟨n, rfl⟩ := h
  exact ⟨n, rfl⟩

theorem within_bodyIdentity (hS : S.Tame) :
    (bodyIdentity S p e).Within S (bodyIdentity S.unlimited p e') := by
  have htake := h.takeBody (min e.parser.contentLength p.length)
  have hdata := (htake.goto .messageDone).dataBody (S := S)
    (p.take (min e.parser.contentLength p.length))
  obtain ⟨n, rfl⟩ := h
  refine within_ite Iff.rfl (fun _ => .stop ⟨n, rfl⟩) fun _ => ?_
  exact within_ite Iff.rfl (fun _ => within_callback (htake.goto _)
    (within_after (within_notifyComplete hdata hS))) fun _ => .next htake

theorem within_bodyIdentityEof : (bodyIdentityEof p e).Within S (bodyIdentityEof p e') := by
  obtain ⟨n, rfl⟩ := h
  exact .next ⟨n, rfl⟩

theorem within_chunkData : (chunkData p e).Within S (chunkData p e') := by
  have htake := h.takeBody (min e.parser.contentLength p.length)
  obtain ⟨n, rfl⟩ := h
  refine within_ite Iff.rfl (fun _ => .stop ⟨n, rfl⟩) fun _ => ?_
  exact within_ite Iff.rfl (fun _ => .next (htake.goto _)) fun _ => .next htake

theorem within_chunkDataAlmostDone :
    (chunkDataAlmostDone S ch e).Within S (chunkDataAlmostDone S.unlimited ch e') := by
  have hdata := (h.goto .chunkDataDone).dataBody (S := S) []
  obtain ⟨n, rfl⟩ := h
  refine within_ite Iff.rfl (fun _ => .stop ⟨n, rfl⟩) fun _ => ?_
  exact within_ite Iff.rfl (fun _ => .stop ⟨n, rfl⟩)
    fun _ => within_callback ⟨n, rfl⟩ (.next hdata)

end Bulk

section Lines

variable (h : e.Near e') (hok : e.parser.httpErrno = .ok)
include h

/-- A header that is complete. -/
theorem near_finishHeader :
    (e.onParser fun parser => parser.finishHeader.goto .headerFieldStart).Near
      (e'.onParser fun parser => parser.finishHeader.goto .headerFieldStart) :=
  h.onParser (congrArg (·.goto .headerFieldStart) HttpParser.finishHeader_withNread)

theorem Exec.Near.markHeaderValue : e.markHeaderValue.Near e'.markHeaderValue := by
  obtain ⟨n, rfl⟩ := h
  exact ⟨n, rfl⟩

include hok

theorem within_headerValueLws (hS : S.Tame) :
    (headerValueLws S ch e).Within S (headerValueLws S.unlimited ch e') := by
  have hmatch := finishHeader_matches e.parser
  refine within_ite Iff.rfl (fun _ => ?_) fun _ => ?_
  · exact within_loopHead (h.goto _) hok fun n m _ => within_headerValueStart ⟨m, rfl⟩
  · exact within_loopHead (near_finishHeader h) (hmatch.errno.trans hok) fun n m _ =>
      within_headerFieldStart ⟨m, rfl⟩ (hmatch.errno.trans hok) hS

theorem within_headerValueDiscardLws (hS : S.Tame) :
    (headerValueDiscardLws S ch e).Within S (headerValueDiscardLws S.unlimited ch e') := by
  have hmatch := finishHeader_matches e.parser
  refine within_ite Iff.rfl (fun _ => .next (h.goto _)) fun _ => ?_
  have hdata := (near_finishHeader h).markHeaderValue.dataHeaderValue (S := S) []
  refine within_callback (near_finishHeader h).markHeaderValue
    (within_loopHead hdata ?_ fun n m _ => within_headerFieldStart ⟨m, rfl⟩ ?_ hS) <;>
    simpa [Exec.markHeaderValue] using hmatch.errno.trans hok

theorem within_startReqOrRes :
    (startReqOrRes S ch e).Within S (startReqOrRes S.unlimited ch e') := by
  have hbegin : (e.onParser (·.beginMessage)).Near (e'.onParser (·.beginMessage)) :=
    h.onParser rfl
  refine within_ite Iff.rfl (fun _ => .next h) fun _ => ?_
  refine within_ite Iff.rfl (fun _ => within_endCase (hbegin.onParser ?_)) fun _ => ?_
  · intro parser n
    exact (congrArg HttpParser.assertOk rfl).trans
      (@HttpParser.assertOk_withNread (parser.goto .resOrRespH) n)
  exact within_loopHead (hbegin.onParser rfl) hok fun n m _ => within_plain ⟨m, rfl⟩ nofun

end Lines

/-! ## The loop -/

theorem switch_within (hS : S.Tame) (h : e.Near e') (hready : e.Ready) (hready' : e'.Ready)
    (ch : UInt8) (rest : Bytes) (hfit : S.Fits (ch :: rest).length) :
    (loopHead S (switch S ch rest) e).Within S
      (loopHead S.unlimited (switch S.unlimited ch rest) e') := by
  have hok := hready.valid.ok
  have hstate : e'.parser.state = e.parser.state := by
    obtain ⟨n, rfl⟩ := h
    rfl
  refine within_loopHead h hok fun n m hnm => ?_
  have hnear := Exec.near_withNread (e := e) n m
  cases hs : e.parser.state <;>
    simp only [switch, Exec.parser_onParser, HttpParser.withNread_state, hs]
  case startReqOrRes => exact within_startReqOrRes hnear hok
  case headerFieldStart => exact within_headerFieldStart hnear hok hS
  case headerField =>
    have hrun := (fieldRun_spec (HttpParser.tokenRun (ch :: rest)) (hready.valid.field hs)).1
    refine within_headerFieldCase hnear ?_
    rw [Exec.parser_onParser, HttpParser.fieldRun_withNread]
    exact hrun.errno.trans hok
  case headerValueDiscardWs => exact within_headerValueDiscardWs hnear
  case headerValueStart => exact within_headerValueStart hnear
  case headerValue => exact within_headerValueCase hnear hok (hnm (by rw [hs]; rfl)).2.1 hfit
  case headerValueLws => exact within_headerValueLws hnear hok hS
  case headerValueDiscardLws => exact within_headerValueDiscardLws hnear hok hS
  case headersAlmostDone => exact within_headersAlmostDone hnear hok hS
  case headersDone => exact within_headersDone hnear hS
  case bodyIdentity => exact within_bodyIdentity hnear hS
  case bodyIdentityEof => exact within_bodyIdentityEof hnear
  case messageDone => exact within_notifyComplete hnear hS
  case chunkData => exact within_chunkData hnear
  case chunkDataAlmostDone => exact within_chunkDataAlmostDone hnear
  case chunkSizeStart =>
    -- the count at the start of a chunk is fresh
    obtain ⟨rfl, -, rfl⟩ := hnm (by rw [hs]; rfl)
    refine within_plain hnear fun _ => ?_
    simp only [Exec.parser_onParser, HttpParser.withNread_nread, hready.valid.nread hs,
      hready'.valid.nread (hstate.trans hs)]
  all_goals exact within_plain hnear fun hs' => absurd (hs.symm.trans hs') (by decide)

/-- What is left differs in the count only. -/
structure Executed.Near (r r' : Executed σ) : Prop where
  parsed : r.parsed = r'.parsed
  parser : r.parser.Near r'.parser
  upgrade : r.upgrade = r'.upgrade
  user : r.user = r'.user

theorem Executed.Near.refl (r : Executed σ) : r.Near r := ⟨rfl, .refl _, rfl, rfl⟩

/-- The execution has failed at a limit. -/
structure Executed.Overflows (S : HttpParserSettings σ) (r : Executed σ) : Prop where
  limit : S.maxHeaderSize < 2 ^ 32 - 1
  errno : r.parser.httpErrno = .headerOverflow
  upgrade : r.upgrade = false

theorem Executed.Overflows.after {r : Executed σ} (h : r.Overflows S) (k : ℤ) :
    (r.after k).Overflows S := ⟨h.limit, h.errno, h.upgrade⟩

theorem Exec.Ready.near_flush (h : e.Near e') (hready : e.Ready) (hready' : e'.Ready) :
    (e.flush S).Near (e'.flush S.unlimited) := by
  rw [hready.flush_eq, hready'.flush_eq]
  exact ((h.dataHeaderField []).dataHeaderValue []).dataBody []

theorem Exec.Near.advance (h : e.Near e') (passed : Bytes) :
    (e.advance passed).Near (e'.advance passed) := by
  obtain ⟨n, rfl⟩ := h
  exact ⟨n, rfl⟩

theorem Executed.near_of_exec (h : e.Near e') (parsed : ℤ) (upgrade : Bool) :
    Executed.Near ⟨parsed, e.parser, e.user, upgrade⟩ ⟨parsed, e'.parser, e'.user, upgrade⟩ := by
  obtain ⟨n, rfl⟩ := h
  exact ⟨rfl, ⟨n, rfl⟩, rfl, rfl⟩

theorem execLoop_within (hS : S.Tame) (data : Bytes) (more : ℕ) (h : e.Near e')
    (hready : e.Ready) (hready' : e'.Ready) (hfit : S.Fits data.length) :
    (execLoop S data more e).Overflows S ∨
      (execLoop S data more e).Near (execLoop S.unlimited data more e') := by
  induction data generalizing more e e' with
  | nil => exact .inr (Executed.near_of_exec (hready.near_flush h hready') 0 false)
  | cons ch rest ih =>
    have hfit' : S.Fits rest.length := hfit.mono (Nat.le_succ _)
    have hafter : ∀ {more : ℕ} {e e' : Exec σ}, e.Near e' → e.Ready → e'.Ready →
        ((execLoop S rest more e).after 1).Overflows S ∨
          ((execLoop S rest more e).after 1).Near ((execLoop S.unlimited rest more e').after 1) :=
      fun h hready hready' => (ih _ h hready hready' hfit').imp (·.after 1) fun hnear =>
        ⟨congrArg (1 + ·) hnear.parsed, hnear.parser, hnear.upgrade, hnear.user⟩
    cases more with
    | succ more => exact hafter h hready hready'
    | zero =>
      have hround := switch_within hS h hready hready' ch rest hfit
      have hkeeps := switch_keeps ch rest hS.toRestarts hready
      have hkeeps' := switch_keeps ch rest hS.unlimited.toRestarts hready'
      rw [execLoop, execLoop]
      generalize loopHead S (switch S ch rest) e = s at hround hkeeps
      generalize loopHead S.unlimited (switch S.unlimited ch rest) e' = s' at hround hkeeps'
      -- The induction goes on from parsers that differ in the count again.
      cases hround with
      | next hnear =>
        exact hafter (hnear.advance _) (Exec.Ready.advance hkeeps _)
          (Exec.Ready.advance hkeeps' _)
      | stop hnear => exact .inr (Executed.near_of_exec hnear _ _)
      | overflow hmax herrno => exact .inl ⟨hmax, herrno, rfl⟩

/-- An execution fails at the limit on the headers, or it ends as if there were no limit, whatever
    the count began with. -/
theorem execute_within (hS : S.Tame) (data : Bytes) (user : σ) (h : parser.Near parser')
    (hrests : parser.Rests) (hrests' : parser'.Rests)
    (hfit : S.Fits data.length) :
    (parser.execute S data user).Overflows S ∨
      (parser.execute S data user).Near (parser'.execute S.unlimited data user) := by
  obtain ⟨n, rfl⟩ := h
  unfold HttpParser.execute
  rw [HttpParser.withNread_errno]
  split_ifs with hok hdata
  · exact .inr ⟨rfl, ⟨n, rfl⟩, rfl, rfl⟩
  · refine .inr ?_
    unfold executeEnd
    rw [HttpParser.withNread_state]
    split
    · obtain ⟨hnear, huser⟩ := hS.near parser n user
      exact ⟨rfl, hnear, rfl, huser⟩
    all_goals exact ⟨rfl, ⟨n, rfl⟩, rfl, rfl⟩
  · exact execLoop_within hS data 0 ⟨n, rfl⟩ (Exec.ready_begin (hrests.valid (not_not.mp hok)) user)
      (Exec.ready_begin (hrests'.valid (not_not.mp hok)) user) hfit

end Wrkx
