import Wrkx.Http.Reads

/-!
# Cuts between reads

The bytes of a connection arrive in reads of any size. Some cases of the parser pass many bytes at
once. They do what they would do byte by byte, so it makes no difference where the reads are cut.

## Main results

- `execLoop_peel` — the first byte of the data can be read alone
-/

namespace Wrkx

variable {σ : Type*} {S : HttpParserSettings σ} {e e' : Exec σ} {parser parser' : HttpParser}
  {user : σ} {ch c : UInt8} {p q rest passed : Bytes} {n k : ℕ}

/-! ## Without a limit -/

theorem count_unlimited (v : ℤ) (hok : e.parser.httpErrno = .ok) :
    ∃ n, ∀ (k : ℤ) (case : Exec σ → Step σ),
      count S.unlimited v k case e = case (e.onParser (·.withNread n)) :=
  ⟨_, fun k case => ((count_cases (S := S.unlimited) case v k hok).resolve_left fun h =>
    lt_irrefl _ h.1).2⟩

theorem loopHead_unlimited (hok : e.parser.httpErrno = .ok) :
    ∃ n, ∀ case : Exec σ → Step σ,
      loopHead S.unlimited case e = case (e.onParser (·.withNread n)) := by
  by_cases hs : e.parser.state.parsingHeader = true
  · obtain ⟨n, hn⟩ := count_unlimited (S := S) 1 hok
    exact ⟨n, fun case => (if_pos hs).trans (hn 0 case)⟩
  · exact ⟨e.parser.nread, fun case => if_neg hs⟩

theorem execLoop_near (hS : S.Tame) (data : Bytes) (more : ℕ) (h : e.Near e')
    (hready : e.Ready) (hready' : e'.Ready) (hdata : data.length < 2 ^ 32) :
    (execLoop S.unlimited data more e).Near (execLoop S.unlimited data more e') :=
  (execLoop_within hS.unlimited data more h hready hready'
    ⟨hdata, fun hmax => absurd hdata (not_lt.mpr (Nat.le_of_pred_lt hmax))⟩).resolve_left
    fun hover => lt_irrefl _ hover.limit

/-! ## The first byte -/

/-- What the loop does after a round for the first byte alone. -/
def afterByte (S : HttpParserSettings σ) (ch : UInt8) (rest : Bytes) : Step σ → Executed σ
  | .next _ e => (execLoop S rest 0 (e.advance [ch])).after 1
  | .stop parsed upgrade e => ⟨parsed, e.parser, e.user, upgrade⟩

/-- A case that does not look at the rest of the data reads one byte. -/
theorem peel_of_same
    (h : loopHead S (switch S ch rest) e = loopHead S (switch S ch []) e) :
    execLoop S (ch :: rest) 0 e = afterByte S ch rest (loopHead S (switch S ch []) e) := by
  have hreads := switch_reads (S := S) (e := e) ch []
  rw [execLoop, h]
  cases hstep : loopHead S (switch S ch []) e with
  | next more e' =>
    rw [hstep] at hreads
    obtain rfl : more = 0 := Nat.lt_one_iff.mp hreads
    rfl
  | stop parsed upgrade e' => rfl

/-- A round with the data `ch :: q` does what one with the data `q` does after the first byte. -/
inductive Step.Peels (ch : UInt8) (q : Bytes) : Step σ → Step σ → Prop
  | next {more : ℕ} {e e' : Exec σ}
    (h : (e.advance (ch :: q.take (more + 1))).Near (e'.advance (q.take (more + 1)))) :
    Peels ch q (.next (more + 1) e) (.next more e')
  | stop {parsed : ℤ} {upgrade : Bool} {e e' : Exec σ} (h : e.parser.Near e'.parser)
    (huser : e.user = e'.user) : Peels ch q (.stop (parsed + 1) upgrade e) (.stop parsed upgrade e')

theorem Step.Peels.of_eq {s s' t t' : Step σ} (h : t.Peels ch q t') (hs : s = t) (hs' : s' = t') :
    s.Peels ch q s' := by rwa [hs, hs']

theorem Step.Peels.stop_succ {k : ℕ} (h : e.parser.Near e'.parser) (huser : e.user = e'.user) :
    (Step.stop (k + 1 : ℕ) false e).Peels ch q (.stop k false e') := by
  rw [Nat.cast_succ]
  exact .stop h huser

/-- A round with all of the data is one with the first byte, or that one and then a round with the
    rest. -/
def Peelable (S : HttpParserSettings σ) (ch : UInt8) (rest : Bytes) (e : Exec σ) : Prop :=
  loopHead S (switch S ch rest) e = loopHead S (switch S ch []) e ∨
    ∃ e', loopHead S (switch S ch []) e = .next 0 e' ∧ ∀ c q, rest = c :: q →
      (e'.advance [ch]).Ready → (loopHead S (switch S ch (c :: q)) e).Peels ch (c :: q)
        (loopHead S (switch S c q) (e'.advance [ch]))

theorem peel_of_peelable (hS : S.Tame) (hready : e.Ready)
    (hdata : (ch :: rest).length < 2 ^ 32) (h : Peelable S.unlimited ch rest e) :
    (execLoop S.unlimited (ch :: rest) 0 e).Near
      (afterByte S.unlimited ch rest (loopHead S.unlimited (switch S.unlimited ch []) e)) := by
  rcases h with hsame | ⟨e', hbyte, hpeels⟩
  · rw [peel_of_same hsame]
    exact .refl _
  cases rest with
  | nil =>
    rw [peel_of_same rfl]
    exact .refl _
  | cons c q =>
    have hready' : (e'.advance [ch]).Ready := by
      have hkeeps := switch_keeps ch [] hS.unlimited.toRestarts hready
      rw [hbyte] at hkeeps
      exact Exec.Ready.advance hkeeps _
    -- Both sides go on at the rest after one more round each, and differ in the count only.
    have hround := hpeels c q rfl hready'
    have hkeeps := switch_keeps ch (c :: q) hS.unlimited.toRestarts hready
    have hkeeps' := switch_keeps c q hS.unlimited.toRestarts hready'
    rw [hbyte, afterByte, execLoop, execLoop]
    generalize loopHead S.unlimited (switch S.unlimited ch (c :: q)) e = s at hround hkeeps
    generalize loopHead S.unlimited (switch S.unlimited c q) (e'.advance [ch]) = s'
      at hround hkeeps'
    cases hround with
    | next hnear =>
      obtain ⟨hparsed, hparser, hupgrade, huser⟩ :=
        execLoop_near hS q _ hnear (Exec.Ready.advance hkeeps _)
          (Exec.Ready.advance hkeeps' _)
          ((Nat.lt_succ_self _).trans ((Nat.lt_succ_self _).trans hdata))
      exact ⟨congrArg (fun k => 1 + (1 + k)) hparsed, hparser, hupgrade, huser⟩
    | stop hnear huser => exact ⟨add_comm _ _, hnear, rfl, huser⟩

/-! ## Header names -/

theorem tokenRun_cons (h : token ch ≠ 0) :
    HttpParser.tokenRun (ch :: q) = ch :: HttpParser.tokenRun q :=
  List.takeWhile_cons_of_pos (by simpa using h)

theorem tokenRun_nil (h : token ch = 0) : HttpParser.tokenRun (ch :: q) = [] :=
  List.takeWhile_cons_of_neg (by simpa using h)

/-- A round in a header name. -/
theorem loopHead_headerField (hready : e.Ready) (hs : e.parser.state = .headerField)
    (ch : UInt8) (rest : Bytes) :
    ∃ n, loopHead S.unlimited (switch S.unlimited ch rest) e =
      fieldEnd S.unlimited (HttpParser.tokenRun (ch :: rest))
        ((ch :: rest).drop (HttpParser.tokenRun (ch :: rest)).length)
        (e.onParser fun parser =>
          (parser.fieldRun (HttpParser.tokenRun (ch :: rest))).withNread n) := by
  obtain ⟨m, hm⟩ := loopHead_unlimited (S := S) hready.valid.ok
  have hrun := (fieldRun_spec (HttpParser.tokenRun (ch :: rest)) (hready.valid.field hs)).1
  have hok : ((e.onParser (·.withNread m)).onParser
      (·.fieldRun (HttpParser.tokenRun (ch :: rest)))).parser.httpErrno = .ok := by
    simp only [Exec.parser_onParser, HttpParser.fieldRun_withNread]
    exact hrun.errno.trans hready.valid.ok
  obtain ⟨n, hn⟩ := count_unlimited (S := S) (HttpParser.tokenRun (ch :: rest)).length hok
  refine ⟨n, ?_⟩
  rw [hm, switch, Exec.parser_onParser, HttpParser.withNread_state, hs]
  refine (hn _ _).trans (congrArg _ ?_)
  simp only [Exec.onParser, HttpParser.fieldRun_withNread]
  rfl

theorem fieldEnd_peels {run text : Bytes} (hrest : rest ≠ []) (hparser : parser.Near parser')
    (hok : parser.httpErrno = .ok) :
    (fieldEnd S.unlimited (ch :: run) (rest.drop run.length)
      ⟨parser, user, some text, none, none, false, false⟩).Peels ch rest
      (fieldEnd S.unlimited run (rest.drop run.length)
        ⟨parser', user, some (text ++ [ch]), none, none, false, false⟩) := by
  obtain ⟨n, rfl⟩ := hparser
  unfold fieldEnd
  cases hdrop : rest.drop run.length with
  | nil =>
    obtain ⟨m, hm⟩ : ∃ m, run.length = m + 1 := by
      refine Nat.exists_eq_succ_of_ne_zero fun hzero => hrest ?_
      rwa [hzero] at hdrop
    simp only [List.length_cons, hm, Nat.add_sub_cancel]
    refine .next ⟨n, ?_⟩
    simp [Exec.advance, Exec.onParser]
  | cons c' _ =>
    dsimp only
    split_ifs with hcolon
    · rw [Exec.callback_eq hok, Exec.callback_eq hok]
      refine .next ⟨n, ?_⟩
      simp [Exec.advance, Exec.onParser, Exec.dataHeaderField]
      rfl
    · exact .stop_succ ⟨n, rfl⟩ rfl

theorem peelable_headerField (hready : e.Ready) (hs : e.parser.state = .headerField) :
    Peelable S.unlimited ch rest e := by
  by_cases htoken : token ch = 0
  · -- the name is over
    obtain ⟨n, hn⟩ := loopHead_unlimited (S := S) hready.valid.ok
    left
    rw [hn, hn, switch, switch, Exec.parser_onParser, HttpParser.withNread_state, hs]
    unfold headerFieldCase
    simp only [tokenRun_nil htoken]
    rfl
  obtain ⟨n, hbyte⟩ := loopHead_headerField (S := S) hready hs ch []
  rw [tokenRun_cons htoken] at hbyte
  refine .inr ⟨_, hbyte, ?_⟩
  rintro c q rfl hready'
  obtain ⟨m, hround⟩ := loopHead_headerField (S := S) hready hs ch (c :: q)
  have hfirst := (fieldByte_spec ch (token ch) (hready.valid.field hs)).1
  obtain ⟨m', hround'⟩ := loopHead_headerField (S := S) hready' (hfirst.state.trans hs) c q
  rw [hround, hround', tokenRun_cons htoken]
  have hrun := (fieldRun_spec (ch :: HttpParser.tokenRun (c :: q)) (hready.valid.field hs)).1
  have hok := hrun.errno.trans hready.valid.ok
  obtain ⟨text, hmark, hvalue, hbody, hurl, hstatus⟩ := hready.marked.headerField hs
  obtain ⟨parser, user, fieldMark, valueMark, bodyMark, urlMark, statusMark⟩ := e
  dsimp only at hmark hvalue hbody hurl hstatus
  subst hmark hvalue hbody hurl hstatus
  refine fieldEnd_peels (List.cons_ne_nil c q) ⟨m', ?_⟩ hok
  change HttpParser.withNread m' (HttpParser.fieldRun _ (HttpParser.withNread n _)) = _
  rw [HttpParser.fieldRun_withNread]
  rfl

/-! ## Header values -/

theorem valueRun_general {max : ℕ} (h : parser.headerState = .general) (hp : p.length ≤ max) :
    parser.valueRun max p = ((p.takeWhile (!HttpParser.isEol ·)).length, parser) := by
  cases p with
  | nil => rfl
  | cons ch p =>
    unfold HttpParser.valueRun
    dsimp only
    rw [if_pos h, HttpParser.generalRun_of_le hp]
    split_ifs with heol
    · rw [List.takeWhile_cons_of_neg (by simpa using heol)]
      rfl
    · rfl

/-- The bytes of a value one at a time. -/
theorem valueRun_cons {max : ℕ} (hs : parser.state = .headerValue)
    (heol : ¬HttpParser.isEol ch = true) (hok : (parser.valueByte ch).httpErrno = .ok)
    (hp : (ch :: p).length ≤ max) :
    parser.valueRun max (ch :: p) =
      (((parser.valueByte ch).valueRun max p).1 + 1, ((parser.valueByte ch).valueRun max p).2) := by
  by_cases hgeneral : parser.headerState = .general
  · have hsame : parser.valueByte ch = parser := by
      unfold HttpParser.valueByte
      rw [hgeneral]
      dsimp only
      rw [← hs, ← hgeneral]
    rw [hsame, valueRun_general hgeneral hp, valueRun_general hgeneral ((Nat.le_succ _).trans hp),
      List.takeWhile_cons_of_pos (by simpa using heol)]
    rfl
  · rw [HttpParser.valueRun]
    dsimp only
    rw [if_neg heol, if_neg hgeneral, if_neg (not_not.mpr hok)]

section Ends

variable (parser : HttpParser) (user : σ) (text passed : Bytes)
  (hok : parser.httpErrno = .ok)
include hok

/-- The end of a value at its `CR`. -/
theorem valueCr_unlimited : ∃ n,
    valueCr S.unlimited passed ⟨parser, user, none, some text, none, false, false⟩ =
      .next passed.length
        ⟨(parser.goto .headerAlmostDone).withNread n, S.onHeaderValue (text ++ passed) user,
          none, none, none, false, false⟩ := by
  obtain ⟨n, hn⟩ := count_unlimited (S := S) (e := ⟨parser.goto .headerAlmostDone,
    S.onHeaderValue (text ++ passed) user, none, none, none, false, false⟩) passed.length hok
  exact ⟨n, (Exec.callback_eq hok).trans (hn _ _)⟩

/-- The end of a value at its `LF`, which is read again. -/
theorem valueLf_unlimited (matched : HeaderStates) : ∃ n,
    valueLf S.unlimited matched passed ⟨parser, user, none, some text, none, false, false⟩ =
      .next passed.length
        ⟨({ parser with state := .headerValueLws, headerState := matched }).withNread n,
          S.onHeaderValue (text ++ passed) user, none, none, none, false, false⟩ := by
  obtain ⟨m, hm⟩ := count_unlimited (S := S) (e := ⟨parser.goto .headerAlmostDone,
    user, none, some text, none, false, false⟩) passed.length hok
  -- the matcher is stored, and the value is given to its callback
  have hcounted : ∀ m, ({ (parser.goto .headerAlmostDone).withNread m with
      headerState := matched } : HttpParser).httpErrno = .ok := fun _ => hok
  obtain ⟨m', hm'⟩ := count_unlimited (S := S)
    (e := ⟨_, S.onHeaderValue (text ++ passed) user, none, none, none, false, false⟩)
    ((passed.length : ℤ) - 1) (hcounted m)
  obtain ⟨n, hn⟩ := loopHead_unlimited (S := S)
    (e := ⟨_, S.onHeaderValue (text ++ passed) user, none, none, none, false, false⟩)
    (hcounted m')
  refine ⟨n, (hm _ _).trans ((if_pos (hcounted m)).trans ((hm' _ _).trans ?_))⟩
  exact (congrArg (Step.after passed.length) (hn _)).trans
    (congrArg (Step.after passed.length) (if_pos hok))

end Ends

theorem valueEnd_peels {text : Bytes} (hrest : rest ≠ []) (n : ℕ) (before before' : HttpParser) :
    (valueEnd S.unlimited (ch :: rest) (k + 1) parser
      ⟨before, user, none, some text, none, false, false⟩).Peels ch rest
      (valueEnd S.unlimited rest k (parser.withNread n)
        ⟨before', user, none, some (text ++ [ch]), none, false, false⟩) := by
  unfold valueEnd
  rw [HttpParser.withNread_errno, List.drop_succ_cons]
  split_ifs with hok
  · exact .stop_succ ⟨n, rfl⟩ rfl
  have hok := not_not.mp hok
  -- The loop over the value ends with the data, at a CR or at an LF.
  cases hdrop : rest.drop k with
  | nil =>
    obtain ⟨m, rfl⟩ : ∃ m, k = m + 1 := by
      refine Nat.exists_eq_succ_of_ne_zero fun hzero => hrest ?_
      rwa [hzero] at hdrop
    obtain ⟨m₁, hleft⟩ := count_unlimited (S := S)
      (e := ⟨parser, user, none, some text, none, false, false⟩) (m + 1 + 1 : ℕ) hok
    obtain ⟨m₂, hright⟩ := count_unlimited (S := S)
      (e := ⟨parser.withNread n, user, none, some (text ++ [ch]), none, false, false⟩)
      (m + 1 : ℕ) hok
    refine Step.Peels.of_eq (.next ⟨m₂, ?_⟩) (hleft _ _) (hright _ _)
    simp [Exec.advance, Exec.onParser]
    rfl
  | cons c _ =>
    dsimp only
    split_ifs with hcr
    · obtain ⟨m₁, hleft⟩ := valueCr_unlimited (S := S) parser user text
        (ch :: rest.take k) hok
      obtain ⟨m₂, hright⟩ := valueCr_unlimited (S := S) (parser.withNread n) user
        (text ++ [ch]) (rest.take k) hok
      refine Step.Peels.of_eq (.next ⟨m₂, ?_⟩) hleft hright
      simp [Exec.advance, Exec.onParser]
      rfl
    · obtain ⟨m₁, hleft⟩ := valueLf_unlimited (S := S)
        { parser with headerState := before.headerState } user text (ch :: rest.take k) hok
        parser.headerState
      obtain ⟨m₂, hright⟩ := valueLf_unlimited (S := S)
        { parser.withNread n with headerState := before'.headerState } user (text ++ [ch])
        (rest.take k) hok parser.headerState
      refine Step.Peels.of_eq (.next ⟨m₂, ?_⟩) hleft hright
      simp [Exec.advance, Exec.onParser]
      rfl

/-- A round in a value. -/
theorem loopHead_headerValue (parser : HttpParser) (hparser : parser.Near e.parser)
    (hok : e.parser.httpErrno = .ok) (hs : e.parser.state = .headerValue) (ch : UInt8) :
    ∃ n, ∀ rest, loopHead S.unlimited (switch S.unlimited ch rest) e =
      valueEnd S.unlimited (ch :: rest) (parser.valueRun (2 ^ 32 - 1) (ch :: rest)).1
        ((parser.valueRun (2 ^ 32 - 1) (ch :: rest)).2.withNread n)
        (e.onParser (·.withNread n)) := by
  obtain ⟨n, hn⟩ := loopHead_unlimited (S := S) hok
  obtain ⟨m, hm⟩ := hparser
  refine ⟨n, fun rest => ?_⟩
  rw [hn, switch, Exec.parser_onParser, HttpParser.withNread_state, hs]
  unfold headerValueCase
  dsimp only [Exec.parser_onParser]
  rw [HttpParser.valueRun_withNread, hm, HttpParser.valueRun_withNread]
  rfl

/-- A byte of a value that is read alone. -/
theorem loopHead_valueByte (hok : e.parser.httpErrno = .ok) (hs : e.parser.state = .headerValue)
    (heol : ¬HttpParser.isEol ch = true) (hbyte : (e.parser.valueByte ch).httpErrno = .ok) :
    ∃ m, loopHead S.unlimited (switch S.unlimited ch []) e =
      .next 0 (e.onParser fun _ => (e.parser.valueByte ch).withNread m) := by
  obtain ⟨n, hround⟩ := loopHead_headerValue (S := S) e.parser (.refl _) hok hs ch
  obtain ⟨m, hm⟩ := count_unlimited (S := S)
    (e := e.onParser fun _ => (e.parser.valueByte ch).withNread n) (1 : ℕ) hbyte
  refine ⟨m, (hround []).trans ?_⟩
  rw [valueRun_cons hs heol hbyte (by simp)]
  exact (if_neg (not_not.mpr hbyte)).trans (hm 1 (.next 0))

theorem peelable_headerValue (hready : e.Ready) (hs : e.parser.state = .headerValue)
    (hdata : (ch :: rest).length < 2 ^ 32) : Peelable S.unlimited ch rest e := by
  obtain ⟨n, hround⟩ := loopHead_headerValue (S := S) e.parser (.refl _) hready.valid.ok hs ch
  by_cases heol : HttpParser.isEol ch = true
  · -- the value is over
    have hrun : ∀ q, e.parser.valueRun (2 ^ 32 - 1) (ch :: q) = (0, e.parser) := fun q => by
      rw [HttpParser.valueRun, if_pos heol]
    left
    rw [hround, hround, hrun, hrun]
    rfl
  by_cases hok : (e.parser.valueByte ch).httpErrno = .ok
  · obtain ⟨hvalues, -⟩ := valueByte_spec ch hs (hready.valid.value hs) hready.valid.bound
    obtain ⟨m, hbyte⟩ := loopHead_valueByte (S := S) hready.valid.ok hs heol hok
    refine .inr ⟨_, hbyte, ?_⟩
    rintro c q rfl hready'
    obtain ⟨m', hround'⟩ := loopHead_headerValue (S := S) (e.parser.valueByte ch) ⟨m, rfl⟩
      hready'.valid.ok (hvalues.state.trans hs) c
    have hlength : (ch :: c :: q).length ≤ 2 ^ 32 - 1 := Nat.le_pred_of_lt hdata
    rw [hround, valueRun_cons hs heol hok hlength, hround']
    obtain ⟨text, hmark, hfield, hbody, hurl, hstatus⟩ := hready.marked.headerValue hs
    obtain ⟨parser, user, fieldMark, valueMark, bodyMark, urlMark, statusMark⟩ := e
    dsimp only at hmark hfield hbody hurl hstatus
    subst hmark hfield hbody hurl hstatus
    exact valueEnd_peels (List.cons_ne_nil c q) m' _ _
  · -- the value is wrong
    have hgeneral : e.parser.headerState ≠ .general := fun hgeneral => hok <| by
      unfold HttpParser.valueByte
      rw [hgeneral]
      exact hready.valid.ok
    have hrun : ∀ q, e.parser.valueRun (2 ^ 32 - 1) (ch :: q) = (0, e.parser.valueByte ch) :=
      fun q => by
        rw [HttpParser.valueRun]
        dsimp only
        rw [if_neg heol, if_neg hgeneral, if_pos hok]
    left
    rw [hround, hround, hrun, hrun]
    exact (if_pos hok).trans (if_pos hok).symm

/-! ## Bodies -/

section Body

variable (hzero : e.parser.contentLength ≠ 0) (hmax : e.parser.contentLength ≠ ullongMax)
include hzero hmax

/-- The data ends in a body. -/
theorem bodyIdentity_more (hp : p.length < e.parser.contentLength) :
    bodyIdentity S p e = .next (p.length - 1) (takeBody p.length e) := by
  unfold bodyIdentity
  dsimp only
  rw [if_neg (not_not.mpr ⟨hzero, hmax⟩), min_eq_right hp.le]
  exact if_neg (Nat.sub_ne_zero_of_lt hp)

/-- A body ends in the data. -/
theorem bodyIdentity_done (hok : e.parser.httpErrno = .ok)
    (hp : e.parser.contentLength ≤ p.length) :
    bodyIdentity S p e = .next (e.parser.contentLength - 1)
      ((((takeBody e.parser.contentLength e).onParser (·.goto .messageDone)).dataBody S
        (p.take e.parser.contentLength)).messageComplete S) := by
  unfold bodyIdentity
  dsimp only
  rw [if_neg (not_not.mpr ⟨hzero, hmax⟩), min_eq_left hp]
  have hdata : (((takeBody e.parser.contentLength e).onParser (·.goto .messageDone)).dataBody S
      (p.take e.parser.contentLength)).parser.httpErrno = .ok := by
    rw [Exec.parser_dataBody]
    exact hok
  refine (if_pos (Nat.sub_self _)).trans ((if_pos hok).trans ?_)
  exact congrArg (Step.after (e.parser.contentLength - 1)) (if_pos hdata)

/-- The data ends in a chunk. -/
theorem chunkData_more (hchunked : e.parser.flags.chunked = true)
    (hp : p.length < e.parser.contentLength) :
    chunkData p e = .next (p.length - 1) (takeBody p.length e) := by
  unfold chunkData
  dsimp only
  rw [if_neg (not_not.mpr ⟨hchunked, hzero, hmax⟩), min_eq_right hp.le]
  exact if_neg (Nat.sub_ne_zero_of_lt hp)

/-- A chunk ends in the data. -/
theorem chunkData_done (hchunked : e.parser.flags.chunked = true)
    (hp : e.parser.contentLength ≤ p.length) :
    chunkData p e = .next (e.parser.contentLength - 1)
      ((takeBody e.parser.contentLength e).onParser (·.goto .chunkDataAlmostDone)) := by
  unfold chunkData
  dsimp only
  rw [if_neg (not_not.mpr ⟨hchunked, hzero, hmax⟩), min_eq_left hp]
  exact if_pos (Nat.sub_self _)

end Body

/-- A part of a body can be taken byte by byte. -/
theorem takeBody_advance (hfield : e.headerFieldMark = none) (hvalue : e.headerValueMark = none)
    (k : ℕ) (t : Bytes) : (takeBody (k + 1) e).advance (ch :: t) =
      (takeBody k ((takeBody 1 e).advance [ch])).advance t := by
  obtain ⟨parser, user, fieldMark, valueMark, mark, urlMark, statusMark⟩ := e
  dsimp only at hfield hvalue
  subst hfield hvalue
  cases mark <;>
    simp [takeBody, Exec.markBody, Exec.advance, Exec.onParser, Nat.sub_sub, Nat.add_comm]

theorem takeBody_dataBody (hfield : e.headerFieldMark = none) (hvalue : e.headerValueMark = none)
    (k : ℕ) (s : State) (t : Bytes) :
    ((takeBody (k + 1) e).onParser (·.goto s)).dataBody S (ch :: t) =
      ((takeBody k ((takeBody 1 e).advance [ch])).onParser (·.goto s)).dataBody S t := by
  obtain ⟨parser, user, fieldMark, valueMark, mark, urlMark, statusMark⟩ := e
  dsimp only at hfield hvalue
  subst hfield hvalue
  cases mark <;>
    simp [takeBody, Exec.markBody, Exec.advance, Exec.onParser, Exec.dataBody, HttpParser.goto,
      Nat.sub_sub, Nat.add_comm]

/-- After a body no text is at hand. -/
theorem advance_messageComplete (hfield : e.headerFieldMark = none)
    (hvalue : e.headerValueMark = none) (k : ℕ) (s : State) (t : Bytes) :
    ((((takeBody k e).onParser (·.goto s)).dataBody S t).messageComplete S).advance passed =
      (((takeBody k e).onParser (·.goto s)).dataBody S t).messageComplete S := by
  obtain ⟨parser, user, fieldMark, valueMark, mark, urlMark, statusMark⟩ := e
  dsimp only at hfield hvalue
  subst hfield hvalue
  cases mark <;> rfl

/-- A body goes on after its first byte. -/
structure GoesOn (e : Exec σ) : Prop where
  length : 2 ≤ e.parser.contentLength
  max : e.parser.contentLength < ullongMax
  field : e.headerFieldMark = none
  value : e.headerValueMark = none
  ok : e.parser.httpErrno = .ok

/-- What is left of a body after its first byte. -/
def Exec.afterFirst (ch : UInt8) (n : ℕ) (e : Exec σ) : Exec σ :=
  ((takeBody 1 e).advance [ch]).onParser (·.withNread n)

section Peels

variable (h : GoesOn e) (n : ℕ)
include h

theorem bodyIdentity_peels (hS : S.Tame) :
    (bodyIdentity S.unlimited (ch :: c :: q) e).Peels ch (c :: q)
      (bodyIdentity S.unlimited (c :: q) (e.afterFirst ch n)) := by
  obtain ⟨t, ht⟩ := Nat.exists_eq_add_of_le' h.length
  have hmax := h.max
  have hleft : (e.afterFirst ch n).parser.contentLength = t + 1 := by
    change e.parser.contentLength - 1 = t + 1
    omega
  -- The body ends behind the data, or within it.
  by_cases hmore : (ch :: c :: q).length < e.parser.contentLength
  · refine Step.Peels.of_eq (.next ⟨n, ?_⟩) (bodyIdentity_more ?_ ?_ hmore)
      (bodyIdentity_more ?_ ?_ ?_)
    · exact congrArg (Exec.onParser (·.withNread n)) (takeBody_advance h.field h.value _ _).symm
    all_goals simp only [List.length_cons] at hmore ⊢; omega
  · have hdone := bodyIdentity_done (S := S.unlimited) (p := ch :: c :: q) (e := e) (by omega)
      (by omega) h.ok (not_lt.mp hmore)
    have hdone' := bodyIdentity_done (S := S.unlimited) (p := c :: q) (e := e.afterFirst ch n)
      (by omega) (by omega) h.ok (by simp only [List.length_cons] at hmore ⊢; omega)
    rw [ht, List.take_succ_cons, takeBody_dataBody h.field h.value] at hdone
    rw [hleft] at hdone'
    refine Step.Peels.of_eq (.next ?_) hdone hdone'
    have hfield : (e.afterFirst ch n).headerFieldMark = none :=
      congrArg (Option.map (· ++ [ch])) h.field
    have hvalue : (e.afterFirst ch n).headerValueMark = none :=
      congrArg (Option.map (· ++ [ch])) h.value
    rw [advance_messageComplete hfield hvalue,
      advance_messageComplete (e := (takeBody 1 e).advance [ch]) hfield hvalue]
    exact Exec.Near.messageComplete (.dataBody ⟨n, rfl⟩ _) hS.unlimited

theorem chunkData_peels (hchunked : e.parser.flags.chunked = true) :
    (chunkData (ch :: c :: q) e).Peels ch (c :: q) (chunkData (c :: q) (e.afterFirst ch n)) := by
  obtain ⟨t, ht⟩ := Nat.exists_eq_add_of_le' h.length
  have hmax := h.max
  have hleft : (e.afterFirst ch n).parser.contentLength = t + 1 := by
    change e.parser.contentLength - 1 = t + 1
    omega
  by_cases hmore : (ch :: c :: q).length < e.parser.contentLength
  · refine Step.Peels.of_eq (.next ⟨n, ?_⟩) (chunkData_more ?_ ?_ hchunked hmore)
      (chunkData_more ?_ ?_ hchunked ?_)
    · exact congrArg (Exec.onParser (·.withNread n)) (takeBody_advance h.field h.value _ _).symm
    all_goals simp only [List.length_cons] at hmore ⊢; omega
  · have hdone := chunkData_done (p := ch :: c :: q) (e := e) (by omega)
      (by omega) hchunked (not_lt.mp hmore)
    have hdone' := chunkData_done (p := c :: q) (e := e.afterFirst ch n)
      (by omega) (by omega) hchunked (by simp only [List.length_cons] at hmore ⊢; omega)
    rw [ht] at hdone
    rw [hleft] at hdone'
    refine Step.Peels.of_eq (.next ⟨n, ?_⟩) hdone hdone'
    exact congrArg (Exec.onParser fun parser => (parser.goto .chunkDataAlmostDone).withNread n)
      (takeBody_advance h.field h.value _ _).symm

end Peels

/-- In a body the round is the one of its case. -/
theorem loopHead_inBody {case : Bytes → Exec σ → Step σ} (hok : e.parser.httpErrno = .ok)
    (hcase : ∀ q (e' : Exec σ), e'.parser.state = e.parser.state →
      switch S.unlimited ch q e' = case (ch :: q) e') :
    ∃ n, ∀ q, loopHead S.unlimited (switch S.unlimited ch q) e =
      case (ch :: q) (e.onParser (·.withNread n)) := by
  obtain ⟨n, hn⟩ := loopHead_unlimited (S := S) hok
  exact ⟨n, fun q => (hn _).trans (hcase q _ rfl)⟩

theorem goesOn (hready : e.Ready)
    (hs : e.parser.state = .bodyIdentity ∨ e.parser.state = .chunkData)
    (hone : e.parser.contentLength ≠ 1) (n : ℕ) : GoesOn (e.onParser (·.withNread n)) := by
  obtain ⟨hzero, hmax⟩ := hready.valid.length hs
  obtain ⟨hfield, hvalue, -⟩ :=
    hready.marked.inBody (by rcases hs with hs | hs <;> rw [hs] <;> rfl)
  exact ⟨(Nat.two_le_iff _).mpr ⟨hzero, hone⟩, lt_of_le_of_ne hready.valid.bound hmax, hfield,
    hvalue, hready.valid.ok⟩

theorem peelable_bodyIdentity (hS : S.Tame) (hready : e.Ready)
    (hs : e.parser.state = .bodyIdentity) : Peelable S.unlimited ch rest e := by
  have hcase : ∀ ch q (e' : Exec σ), e'.parser.state = .bodyIdentity →
      switch S.unlimited ch q e' = bodyIdentity S.unlimited (ch :: q) e' := fun ch q e' he' => by
    rw [switch, he']
  obtain ⟨n, hround⟩ := loopHead_inBody hready.valid.ok fun q e' he' =>
    hcase ch q e' (he'.trans hs)
  by_cases hone : e.parser.contentLength = 1
  · left
    rw [hround, hround]
    simp [bodyIdentity, hone]
  have hgoes := goesOn hready (.inl hs) hone n
  have hbyte := bodyIdentity_more (S := S.unlimited) (p := [ch]) (e := e.onParser (·.withNread n))
    (Nat.ne_of_gt ((Nat.succ_pos 1).trans_le hgoes.length)) hgoes.max.ne hgoes.length
  refine .inr ⟨_, (hround []).trans hbyte, ?_⟩
  rintro c q rfl hready'
  obtain ⟨m, hround'⟩ := loopHead_inBody hready'.valid.ok fun q e' he' =>
    hcase c q e' (he'.trans hs)
  rw [hround, hround']
  exact bodyIdentity_peels hgoes m hS

theorem peelable_chunkData (hready : e.Ready)
    (hs : e.parser.state = .chunkData) : Peelable S.unlimited ch rest e := by
  have hcase : ∀ ch q (e' : Exec σ), e'.parser.state = .chunkData →
      switch S.unlimited ch q e' = chunkData (ch :: q) e' := fun ch q e' he' => by
    rw [switch, he']
  obtain ⟨n, hround⟩ := loopHead_inBody hready.valid.ok fun q e' he' =>
    hcase ch q e' (he'.trans hs)
  have hchunked := hready.valid.chunked (by rw [hs]; rfl)
  by_cases hone : e.parser.contentLength = 1
  · left
    rw [hround, hround]
    simp [chunkData, hone]
  have hgoes := goesOn hready (.inr hs) hone n
  have hbyte := chunkData_more (p := [ch]) (e := e.onParser (·.withNread n))
    (Nat.ne_of_gt ((Nat.succ_pos 1).trans_le hgoes.length)) hgoes.max.ne hchunked hgoes.length
  refine .inr ⟨_, (hround []).trans hbyte, ?_⟩
  rintro c q rfl hready'
  obtain ⟨m, hround'⟩ := loopHead_inBody hready'.valid.ok fun q e' he' =>
    hcase c q e' (he'.trans hs)
  rw [hround, hround']
  exact chunkData_peels hgoes m hchunked

theorem peelable_bodyIdentityEof (hready : e.Ready) (hs : e.parser.state = .bodyIdentityEof) :
    Peelable S.unlimited ch rest e := by
  have hcase : ∀ ch q (e' : Exec σ), e'.parser.state = .bodyIdentityEof →
      switch S.unlimited ch q e' = bodyIdentityEof (ch :: q) e' := fun ch q e' he' => by
    rw [switch, he']
  obtain ⟨n, hround⟩ := loopHead_inBody hready.valid.ok fun q e' he' =>
    hcase ch q e' (he'.trans hs)
  obtain ⟨hfield, hvalue, -⟩ := hready.marked.inBody (by rw [hs]; rfl)
  refine .inr ⟨_, hround [], ?_⟩
  rintro c q rfl hready'
  obtain ⟨m, hround'⟩ := loopHead_inBody hready'.valid.ok fun q e' he' =>
    hcase c q e' (he'.trans hs)
  rw [hround, hround']
  refine .next ⟨m, ?_⟩
  obtain ⟨parser, user, fieldMark, valueMark, mark, urlMark, statusMark⟩ := e
  dsimp only at hfield hvalue
  subst hfield hvalue
  cases mark <;> simp [Exec.markBody, Exec.advance, Exec.onParser]

/-! ## The loop -/

/-- The first byte of the data can be read alone. -/
theorem execLoop_peel (hS : S.Tame) (hready : e.Ready) (hdata : (ch :: rest).length < 2 ^ 32) :
    (execLoop S.unlimited (ch :: rest) 0 e).Near
      (afterByte S.unlimited ch rest (loopHead S.unlimited (switch S.unlimited ch []) e)) := by
  refine peel_of_peelable hS hready hdata ?_
  have hsame : (∀ e' : Exec σ, e'.parser.state = e.parser.state →
      switch S.unlimited ch rest e' = switch S.unlimited ch [] e') →
      Peelable S.unlimited ch rest e := fun h => .inl (loopHead_congr h)
  cases hs : e.parser.state
  case headerField => exact peelable_headerField hready hs
  case headerValue => exact peelable_headerValue hready hs hdata
  case bodyIdentity => exact peelable_bodyIdentity hS hready hs
  case bodyIdentityEof => exact peelable_bodyIdentityEof hready hs
  case chunkData => exact peelable_chunkData hready hs
  all_goals exact hsame fun e' he' => by simp only [switch, he', hs]

/-! ## Reads -/

/-- The next reads, unless there was an error or an upgrade. -/
def Executed.andThen (r : Executed σ) (next : HttpParser → σ → Executed σ) : Executed σ :=
  if r.parser.httpErrno = .ok ∧ r.upgrade = false then (next r.parser r.user).after r.parsed else r

/-- The reads of a connection one after the other, until one ends with an error or an upgrade. -/
def HttpParser.executeUntil (S : HttpParserSettings σ) :
    List Bytes → HttpParser → σ → Executed σ
  | [], parser, user => ⟨0, parser, user, false⟩
  | data :: reads, parser, user => (parser.execute S data user).andThen (executeUntil S reads)

/-- The same is left, but for the count and for a text that an error has lost. -/
structure Executed.Alike (r r' : Executed σ) : Prop where
  parsed : r.parsed = r'.parsed
  parser : r.parser.Near r'.parser
  upgrade : r.upgrade = r'.upgrade
  user : r.parser.httpErrno = .ok → r.user = r'.user

namespace Executed

variable {r r' r'' : Executed σ}

theorem Near.alike (h : r.Near r') : r.Alike r' :=
  ⟨h.parsed, h.parser, h.upgrade, fun _ => h.user⟩

theorem Agrees.alike (h : r.Agrees r') : r.Alike r' :=
  ⟨h.parsed, h.parser ▸ .refl _, h.upgrade, h.user⟩

theorem Alike.refl (r : Executed σ) : r.Alike r := (Near.refl r).alike

theorem Alike.symm (h : r.Alike r') : r'.Alike r :=
  ⟨h.parsed.symm, h.parser.symm, h.upgrade.symm,
    fun hok => (h.user (h.parser.httpErrno.symm.trans hok)).symm⟩

theorem Alike.trans (h : r.Alike r') (h' : r'.Alike r'') : r.Alike r'' :=
  ⟨h.parsed.trans h'.parsed, h.parser.trans h'.parser, h.upgrade.trans h'.upgrade,
    fun hok => (h.user hok).trans (h'.user (h.parser.httpErrno.trans hok))⟩

theorem Alike.after (h : r.Alike r') (k : ℤ) : (r.after k).Alike (r'.after k) :=
  ⟨congrArg (k + ·) h.parsed, h.parser, h.upgrade, h.user⟩

end Executed

namespace Executed

variable {r r' : Executed σ} {next next' : HttpParser → σ → Executed σ}

theorem andThen_of_ok (h : r.parser.httpErrno = .ok ∧ r.upgrade = false) :
    r.andThen next = (next r.parser r.user).after r.parsed := if_pos h

theorem andThen_of_not (h : ¬(r.parser.httpErrno = .ok ∧ r.upgrade = false)) :
    r.andThen next = r := if_neg h

theorem andThen_after (k : ℤ) : (r.after k).andThen next = (r.andThen next).after k := by
  by_cases h : r.parser.httpErrno = .ok ∧ r.upgrade = false
  · rw [andThen_of_ok h, andThen_of_ok (r := r.after k) h]
    simp [Executed.after, add_assoc]
  · rw [andThen_of_not h, andThen_of_not (r := r.after k) h]

theorem andThen_assoc : (r.andThen next).andThen next' =
    r.andThen fun parser user => (next parser user).andThen next' := by
  by_cases h : r.parser.httpErrno = .ok ∧ r.upgrade = false
  · rw [andThen_of_ok h, andThen_after, andThen_of_ok h]
  · rw [andThen_of_not h, andThen_of_not h, andThen_of_not h]

/-- What goes on alike ends alike. -/
theorem Alike.andThen (h : r.Alike r')
    (hnext : r.parser.httpErrno = .ok → (next r.parser r.user).Alike (next' r'.parser r.user)) :
    (r.andThen next).Alike (r'.andThen next') := by
  unfold Executed.andThen
  rw [h.parser.httpErrno, ← h.upgrade]
  split_ifs with hok
  · rw [← h.user hok.1, ← h.parsed]
    exact (hnext hok.1).after _
  · exact h

end Executed

theorem executeUntil_rests (hS : S.Tame) (reads : List Bytes) (h : parser.Rests) :
    (parser.executeUntil S reads user).parser.Rests := by
  induction reads generalizing parser user with
  | nil => exact h
  | cons data reads ih =>
    have hfirst := execute_rests hS.toRestarts data user h
    rw [HttpParser.executeUntil, Executed.andThen]
    split_ifs
    exacts [ih hfirst, hfirst]

theorem executeUntil_append (reads reads' : List Bytes) :
    parser.executeUntil S (reads ++ reads') user =
      (parser.executeUntil S reads user).andThen (HttpParser.executeUntil S reads') := by
  induction reads generalizing parser user with
  | nil =>
    rw [List.nil_append, HttpParser.executeUntil, Executed.andThen]
    split_ifs with h
    · exact (congrArg (fun k : ℤ => { parser.executeUntil S reads' user with parsed := k })
        (zero_add _)).symm
    · -- an execution that has failed fails again
      have hok : parser.httpErrno ≠ .ok := fun hok => h ⟨hok, rfl⟩
      cases reads' with
      | nil => rfl
      | cons data reads =>
        have hfirst : parser.execute S data user = ⟨0, parser, user, false⟩ := if_pos hok
        rw [HttpParser.executeUntil, hfirst, Executed.andThen, if_neg h]
  | cons data reads ih =>
    rw [List.cons_append, HttpParser.executeUntil, HttpParser.executeUntil, Executed.andThen_assoc]
    congr 1
    funext parser user
    exact ih

/-- Reads fail at the limit on the headers, or they end as if there were no limit. -/
theorem executeUntil_within (hS : S.Tame) (reads : List Bytes) (h : parser.Near parser')
    (hrests : parser.Rests) (hrests' : parser'.Rests)
    (hfits : ∀ data ∈ reads, S.Fits data.length) :
    (parser.executeUntil S reads user).Overflows S ∨
      (parser.executeUntil S reads user).Near (parser'.executeUntil S.unlimited reads user) := by
  induction reads generalizing parser parser' user with
  | nil => exact .inr ⟨rfl, h, rfl, rfl⟩
  | cons data reads ih =>
    have hround := execute_within hS data user h hrests hrests' (hfits data List.mem_cons_self)
    have hfirst := execute_rests hS.toRestarts data user hrests
    have hfirst' := execute_rests hS.unlimited.toRestarts data user hrests'
    rw [HttpParser.executeUntil, HttpParser.executeUntil, Executed.andThen, Executed.andThen]
    rcases hround with hover | ⟨hparsed, hparser, hupgrade, huser⟩
    · rw [if_neg fun hok => by rw [hover.errno] at hok; cases hok.1]
      exact .inl hover
    · rw [hparser.httpErrno, ← hupgrade]
      split_ifs with hok
      · rw [← hparsed, ← huser]
        refine (ih hparser hfirst hfirst' fun d hd => hfits d (List.mem_cons_of_mem _ hd)).imp
          (·.after _) ?_
        exact fun hnear => ⟨congrArg (_ + ·) hnear.parsed, hnear.parser, hnear.upgrade, hnear.user⟩
      · exact .inr ⟨hparsed, hparser, hupgrade, huser⟩

/-- Without a limit the count makes no difference. -/
theorem executeUntil_near (hS : S.Tame) (reads : List Bytes) (h : parser.Near parser')
    (hrests : parser.Rests) (hrests' : parser'.Rests)
    (hfits : ∀ data ∈ reads, data.length < 2 ^ 32) :
    (parser.executeUntil S.unlimited reads user).Near
      (parser'.executeUntil S.unlimited reads user) :=
  (executeUntil_within hS.unlimited reads h hrests hrests' fun data hdata =>
    ⟨hfits data hdata, fun hmax => absurd (hfits data hdata)
      (not_lt.mpr (Nat.le_of_pred_lt hmax))⟩).resolve_left fun hover => lt_irrefl _ hover.limit

/-! ## Byte by byte -/

theorem executeUntil_singleton (data : Bytes) :
    parser.executeUntil S [data] user = parser.execute S data user := by
  rw [HttpParser.executeUntil]
  by_cases h : (parser.execute S data user).parser.httpErrno = .ok ∧
      (parser.execute S data user).upgrade = false
  · rw [Executed.andThen_of_ok h, HttpParser.executeUntil, Executed.after, ← h.2]
    exact congrArg (fun k => { parser.execute S data user with parsed := k }) (add_zero _)
  · exact Executed.andThen_of_not h

theorem execute_of_ready (h : parser.httpErrno = .ok) (hdata : p ≠ []) :
    parser.execute S p user = execLoop S p 0 (.begin parser user) := by
  unfold HttpParser.execute
  rw [if_neg (not_not.mpr h), if_neg hdata]

/-- The first byte of a read can be a read of its own. -/
theorem execute_cons (hS : S.Regular) (h : parser.Valid) (hrest : rest ≠ [])
    (hdata : (ch :: rest).length < 2 ^ 32) :
    (parser.execute S.unlimited (ch :: rest) user).Alike
      ((parser.execute S.unlimited [ch] user).andThen fun parser user =>
        parser.execute S.unlimited rest user) := by
  have hready := Exec.ready_begin h user
  have hpeel := execLoop_peel hS.toTame hready hdata
  have hkeeps := switch_keeps ch [] hS.toTame.unlimited.toRestarts hready
  have hreads := switch_reads (S := S.unlimited) (e := Exec.begin parser user) ch []
  rw [execute_of_ready h.ok (List.cons_ne_nil _ _), execute_of_ready h.ok (List.cons_ne_nil _ _)]
  refine hpeel.alike.trans ?_
  rw [execLoop]
  -- A round over one byte alone leaves no more bytes to pass.
  cases hround : loopHead S.unlimited (switch S.unlimited ch []) (Exec.begin parser user) with
  | next more e =>
    rw [hround] at hkeeps hreads
    obtain rfl : more = 0 := Nat.lt_one_iff.mp hreads
    have hready' : (e.advance [ch]).Ready := Exec.Ready.advance hkeeps _
    have hok : (e.advance [ch]).parser.httpErrno = .ok := hready'.valid.ok
    have hbegin := (execLoop_begin hS.unlimited rest hready').alike.after 1
    rw [← execute_of_ready hok hrest] at hbegin
    refine hbegin.trans ?_
    change Executed.Alike _ (((execLoop S.unlimited [] 0 (e.advance [ch])).after 1).andThen _)
    rw [execLoop_nil hready', Executed.andThen_after, Executed.andThen_of_ok ⟨hok, rfl⟩]
    simp only [Executed.after, zero_add]
    exact .refl _
  | stop parsed upgrade e =>
    rw [hround] at hreads
    have hstop : ¬(e.parser.httpErrno = .ok ∧ upgrade = false) := fun h =>
      hreads.2.elim (· h.1) fun h' => by rw [h.2] at h'; cases h'
    rw [Executed.andThen_of_not hstop]
    exact .refl _

/-- The bytes of a read can be read one at a time. -/
theorem execute_bytes (hS : S.Regular) (h : parser.Rests) (data : Bytes) (user : σ)
    (hne : data ≠ []) (hdata : data.length < 2 ^ 32) :
    (parser.execute S.unlimited data user).Alike
      (parser.executeUntil S.unlimited (data.map ([·])) user) := by
  induction data generalizing parser user with
  | nil => exact absurd rfl hne
  | cons ch rest ih =>
    rw [List.map_cons, HttpParser.executeUntil]
    by_cases hok : parser.httpErrno = .ok
    · by_cases hrest : rest = []
      · rw [hrest, List.map_nil, ← HttpParser.executeUntil, executeUntil_singleton]
        exact .refl _
      · refine (execute_cons hS (h.valid hok) hrest hdata).trans ?_
        exact (Executed.Alike.refl _).andThen fun _ =>
          ih (execute_rests hS.toTame.unlimited.toRestarts [ch] user h) _ hrest
            ((Nat.lt_succ_self _).trans hdata)
    · -- an execution that has failed fails again
      have hfail : ∀ data, parser.execute S.unlimited data user = ⟨0, parser, user, false⟩ :=
        fun data => if_pos hok
      rw [hfail, hfail, Executed.andThen_of_not fun h => hok h.1]
      exact .refl _

/-- The bytes of all reads can be read one at a time. -/
theorem executeUntil_bytes (hS : S.Regular) (reads : List Bytes) (h : parser.Rests)
    (hreads : ∀ data ∈ reads, data ≠ [] ∧ data.length < 2 ^ 32) :
    (parser.executeUntil S.unlimited reads user).Alike
      (parser.executeUntil S.unlimited (reads.flatten.map ([·])) user) := by
  induction reads generalizing parser user with
  | nil => exact .refl _
  | cons data reads ih =>
    obtain ⟨hne, hdata⟩ := hreads data List.mem_cons_self
    have hfirst := execute_rests hS.toTame.unlimited.toRestarts data user h
    have hbytes := execute_bytes hS h data user hne hdata
    rw [List.flatten_cons, List.map_append, executeUntil_append, HttpParser.executeUntil]
    refine hbytes.andThen fun _ => ?_
    refine (ih hfirst fun d hd => hreads d (List.mem_cons_of_mem _ hd)).trans ?_
    refine (executeUntil_near hS.toTame _ hbytes.parser hfirst
      (executeUntil_rests hS.toTame.unlimited _ h) fun d hd => ?_).alike
    obtain ⟨c, -, rfl⟩ := List.mem_map.mp hd
    exact Nat.one_lt_two_pow (by decide)

/-- Reads fail at the limit on the headers, or they end as their bytes do one at a time. -/
theorem executeUntil_reads (hS : S.Regular) {reads : List Bytes} (h : parser.Rests)
    (hreads : ∀ data ∈ reads, data ≠ [] ∧ S.Fits data.length) :
    (parser.executeUntil S reads user).Overflows S ∨ (parser.executeUntil S reads user).Alike
      (parser.executeUntil S.unlimited (reads.flatten.map ([·])) user) :=
  (executeUntil_within hS.toTame reads (.refl _) h h fun d hd => (hreads d hd).2).imp_right
    fun hnear => hnear.alike.trans (executeUntil_bytes hS reads h fun d hd =>
      ⟨(hreads d hd).1, (hreads d hd).2.1⟩)

/-! ## The reads of a connection -/

/-- Without an error and without an upgrade the length of the data is returned. -/
theorem execute_whole (data : Bytes) (hok : (parser.execute S data user).parser.httpErrno = .ok)
    (hupgrade : (parser.execute S data user).upgrade = false) :
    (parser.execute S data user).parsed = data.length := by
  by_cases hdata : data = []
  · subst hdata
    revert hok
    rw [HttpParser.execute, if_pos rfl]
    split_ifs
    · exact fun _ => rfl
    · unfold executeEnd
      split
      case h_6 => nofun
      all_goals exact fun _ => rfl
  · rcases (execute_reads data user hdata).2 with hwhole | herrno | hupgrade'
    · exact hwhole
    · exact absurd hok herrno
    · exact absurd (hupgrade.symm.trans hupgrade') nofun

/-- An execution that has failed fails again. -/
theorem executeAll_of_errno (h : parser.httpErrno ≠ .ok) (reads : List Bytes) :
    parser.executeAll S reads user = ⟨0, parser, user, false⟩ := by
  induction reads with
  | nil => rfl
  | cons data reads ih =>
    have hfirst : parser.execute S data user = ⟨0, parser, user, false⟩ := if_pos h
    rw [HttpParser.executeAll, hfirst]
    dsimp only
    rw [ih]
    split_ifs <;> rfl

/-- Before an upgrade the reads go on up to the first error. -/
theorem executeAll_eq (reads : List Bytes)
    (h : (parser.executeUntil S reads user).upgrade = false) :
    parser.executeAll S reads user = parser.executeUntil S reads user := by
  induction reads generalizing parser user with
  | nil => rfl
  | cons data reads ih =>
    rw [HttpParser.executeUntil] at h ⊢
    rw [HttpParser.executeAll]
    dsimp only
    have hwhole : (parser.execute S data user).parser.httpErrno = .ok →
        (parser.execute S data user).upgrade = false →
        (parser.execute S data user).parsed = data.length := execute_whole data
    generalize parser.execute S data user = r at h hwhole ⊢
    by_cases hgoes : r.parser.httpErrno = .ok ∧ r.upgrade = false
    · rw [Executed.andThen_of_ok hgoes] at h ⊢
      rw [if_pos (hwhole hgoes.1 hgoes.2), ih h, hgoes.2]
      rfl
    · rw [Executed.andThen_of_not hgoes] at h ⊢
      have herrno : r.parser.httpErrno ≠ .ok := fun hok => hgoes ⟨hok, h⟩
      rw [executeAll_of_errno herrno]
      split_ifs
      · simp
      · rfl

theorem executeAll_upgrade (reads : List Bytes)
    (h : (parser.executeUntil S reads user).upgrade = true) :
    (parser.executeAll S reads user).upgrade = true := by
  induction reads generalizing parser user with
  | nil => exact absurd h nofun
  | cons data reads ih =>
    rw [HttpParser.executeUntil] at h
    rw [HttpParser.executeAll]
    dsimp only
    have hwhole : (parser.execute S data user).parser.httpErrno = .ok →
        (parser.execute S data user).upgrade = false →
        (parser.execute S data user).parsed = data.length := execute_whole data
    generalize parser.execute S data user = r at h hwhole ⊢
    by_cases hgoes : r.parser.httpErrno = .ok ∧ r.upgrade = false
    · rw [Executed.andThen_of_ok hgoes] at h
      rw [if_pos (hwhole hgoes.1 hgoes.2)]
      exact (congrArg (r.upgrade || ·) (ih h)).trans (Bool.or_true _)
    · rw [Executed.andThen_of_not hgoes] at h
      split_ifs
      · exact congrArg (· || _) h
      · exact h

/-- However the bytes of a connection are cut into reads, the parser ends in the same state and its
    callbacks have done the same, unless a limit on the headers is exceeded or a message changes
    the protocol. -/
theorem reads_cut (hS : S.Regular) {reads reads' : List Bytes} (h : parser.Rests)
    (hreads : ∀ data ∈ reads, data ≠ [] ∧ S.Fits data.length)
    (hreads' : ∀ data ∈ reads', data ≠ [] ∧ S.Fits data.length)
    (hbytes : reads.flatten = reads'.flatten) :
    (parser.executeAll S reads user).Overflows S ∨ (parser.executeAll S reads' user).Overflows S ∨
      ((parser.executeAll S reads user).upgrade = true ∧
        (parser.executeAll S reads' user).upgrade = true) ∨
      (parser.executeAll S reads user).Alike (parser.executeAll S reads' user) := by
  rcases executeUntil_reads hS h hreads with hover | halike
  · rw [← executeAll_eq reads hover.upgrade] at hover
    exact .inl hover
  rcases executeUntil_reads hS h hreads' with hover' | halike'
  · rw [← executeAll_eq reads' hover'.upgrade] at hover'
    exact .inr (.inl hover')
  rw [hbytes] at halike
  have hsame := halike.trans halike'.symm
  refine .inr (.inr ?_)
  cases hupgrade : (parser.executeUntil S reads user).upgrade with
  | true =>
    exact .inl ⟨executeAll_upgrade reads hupgrade,
      executeAll_upgrade reads' (hsame.upgrade.symm.trans hupgrade)⟩
  | false =>
    rw [executeAll_eq reads hupgrade, executeAll_eq reads' (hsame.upgrade.symm.trans hupgrade)]
    exact .inr hsame

/-- The response cut in its header, and in its chunk. -/
theorem reads_cut_chunked :
    ((HttpParser.init .response).executeAll verifySettings
        [Example.chunked.take 25, Example.chunked.drop 25] 0).Alike
      ((HttpParser.init .response).executeAll verifySettings
        [Example.chunked.take 50, Example.chunked.drop 50] 0) := by
  have hbytes : [Example.chunked.take 25, Example.chunked.drop 25].flatten =
      [Example.chunked.take 50, Example.chunked.drop 50].flatten := by
    simp only [List.flatten_cons, List.flatten_nil, List.append_nil, List.take_append_drop]
  have hcut := @reads_cut ℕ verifySettings _ 0 verifySettings_regular _ _ (rests_init .response)
    (by decide +kernel) (by decide +kernel) hbytes
  rcases hcut with hover | hover | ⟨hupgrade, -⟩ | halike
  · exact absurd hover.errno (by decide +kernel)
  · exact absurd hover.errno (by decide +kernel)
  · exact absurd hupgrade (by decide +kernel)
  · exact halike

end Wrkx
