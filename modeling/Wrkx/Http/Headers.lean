import Wrkx.Http.Lines

/-!
# The headers of a response

A header as it stands in a response and what it tells of the body and of the connection.

## Main results

- `finishHeader_reading` — what the parser has learnt at the end of a header
- `takes_headers` — headers one after the other
-/

namespace Wrkx

/-- A header, by what its name means to the parser. -/
inductive Header
  | general (name value : Bytes)
  | contentLength (name digits : Bytes)
  | transferEncoding (name value : Bytes)
  | connection (name : Bytes) (options : List Bytes)
  | upgrade (name value : Bytes)

namespace Header

def name : Header → Bytes
  | general name _ | contentLength name _ | transferEncoding name _ | connection name _
  | upgrade name _ => name

/-- The options of a connection, with commas between them. -/
def optionText : List Bytes → Bytes
  | [] => []
  | option :: options => option ++ moreOptions options

def value : Header → Bytes
  | general _ value | contentLength _ value | transferEncoding _ value | upgrade _ value => value
  | connection _ options => optionText options

/-- The state that stands for the name. -/
def kind : Header → HeaderStates
  | general _ _ => .general
  | contentLength _ _ => .contentLength
  | transferEncoding _ _ => .transferEncoding
  | connection _ _ => .connection
  | upgrade _ _ => .upgrade

/-- The parts of a header that its name asks for. -/
def Fits : Header → Prop
  | contentLength _ digits => (∀ ch ∈ digits, CString.isDigit ch = true) ∧
      CString.value 10 digits / 10 ≤ (ullongMax - 10) / 10
  | connection _ options => ∀ option ∈ options, IsOption option
  | _ => True

/-- A header that the parser accepts, on one line. -/
structure WellFormed (header : Header) : Prop where
  name_ne_nil : header.name ≠ []
  token : ∀ ch ∈ header.name, token ch ≠ 0
  kind : HttpParser.nameKind (header.name.map Wrkx.token) = header.kind
  line : ∀ ch ∈ header.value, HttpParser.isEol ch = false
  first : ∀ ch ∈ header.value.head?, ch ≠ byte ' ' ∧ ch ≠ 9
  fits : header.Fits

/-- What a header tells. -/
def tell : Header → Head → Head
  | general _ _, h => h
  | contentLength _ digits, h =>
    if digits = [] then h else { h with contentLength := CString.value 10 digits }
  | transferEncoding _ value, h =>
    if isChunked value then { h with flags := { h.flags with chunked := true } } else h
  | connection _ options, h => { h with flags := options.foldl Flags.option h.flags }
  | upgrade _ value, h =>
    if value = [] then h else { h with flags := { h.flags with upgrade := true } }

end Header

namespace HttpParser

variable {parser : HttpParser} {header : Header} {ch : UInt8} {w : Bytes}

theorem eq_of_special {h : HeaderStates} (h' : special parser.headerState = h)
    (hne : h ≠ .general) : parser.headerState = h := by
  subst h'
  revert hne
  cases parser.headerState <;> simp [special]

theorem valueStart_general (hin : parser.headerState.inField = true)
    (h : special parser.headerState = .general) : parser.valueStart ch =
      { parser with state := .headerValue, index := 0, headerState := .general } := by
  unfold valueStart
  cases hs : parser.headerState <;> rw [hs] at h hin <;> first
    | rfl
    | (cases hin; done)
    | cases h

theorem valueStart_upgrade (h : parser.headerState = .upgrade) : parser.valueStart ch =
    { parser with
      state := .headerValue, index := 0, headerState := .general,
      flags := { parser.flags with upgrade := true } } := by
  unfold valueStart
  rw [h]

/-- A byte of a name moves the matcher on. -/
theorem fieldByte_alters (ch c : UInt8) (h : parser.headerState.inField = true) :
    parser.Alters (parser.fieldByte ch c) := by
  unfold fieldByte
  split
  case h_14 =>
    exfalso
    revert h
    cases hs : parser.headerState <;> simp_all [HeaderStates.inField]
  all_goals first
    | exact .refl _
    | exact ⟨_, _, rfl⟩
    | (split_ifs; exacts [⟨_, _, rfl⟩, .refl _])

theorem Alters.reading {before after : HttpParser} {h : Head} {s : State} (h' : before.Alters after)
    (hr : before.Reading h s) : after.Reading h s := by
  obtain ⟨i, state, rfl⟩ := h'
  exact ⟨hr.state, hr.head, hr.type, hr.method⟩

theorem Reading.withNread {h : Head} {s : State} (hr : parser.Reading h s) (n : ℕ) :
    (parser.withNread n).Reading h s := ⟨hr.state, hr.head, hr.type, hr.method⟩

/-- The parser at the first byte of a value. -/
structure ReadsValue (header : Header) (h : Head) (parser : HttpParser) : Prop where
  head : parser.head = h
  type : parser.type = .response
  method : parser.method = .delete
  known : parser.headerState.inField = true
  kind : special parser.headerState = header.kind
  ok : parser.httpErrno = .ok

theorem ReadsValue.withNread {h : Head} (hq : parser.ReadsValue header h) (n : ℕ) :
    (parser.withNread n).ReadsValue header h :=
  ⟨hq.head, hq.type, hq.method, hq.known, hq.kind, hq.ok⟩

/-- What the parser has learnt at the end of a header. -/
theorem finishHeader_reading {h : Head} (hheader : header.WellFormed)
    (hq : parser.ReadsValue header h) (hvalue : header.value = ch :: w) :
    ((parser.valueStart ch).valueBytes w).httpErrno = .ok ∧
      ((parser.valueStart ch).valueBytes w).finishHeader.Reading (header.tell h) .headerValue := by
  obtain ⟨rfl, htype, hmethod, hin, hkind, hok⟩ := hq
  have hgeneral : Sets .general id := sets_id _ nofun nofun nofun nofun
  cases header with
  | general name value =>
    rw [valueStart_general hin hkind, valueBytes_general rfl rfl, hgeneral _ rfl]
    exact ⟨hok, rfl, rfl, htype, hmethod⟩
  | contentLength name digits =>
    obtain ⟨hdigits, hbound⟩ := hheader.fits
    obtain rfl : digits = ch :: w := hvalue
    have hstate := eq_of_special hkind nofun
    have hlength := sets_id .contentLength nofun nofun nofun nofun { parser with
      state := .headerValue, index := 0, contentLength := CString.value 10 (ch :: w) } hstate
    rw [length_read hstate hdigits hbound, hlength, Header.tell, if_neg (List.cons_ne_nil _ _)]
    exact ⟨hok, rfl, rfl, htype, hmethod⟩
  | transferEncoding name value =>
    obtain rfl : value = ch :: w := hvalue
    obtain ⟨i, h, heq, hsets⟩ := chunked_recognised (eq_of_special hkind nofun)
      (hheader.first ch rfl).1 w
    rw [heq, hsets _ rfl, Header.tell]
    exact ⟨hok, rfl, by split_ifs <;> rfl, htype, hmethod⟩
  | connection name options =>
    cases options with
    | nil => cases hvalue
    | cons option options =>
      obtain ⟨c, run, rfl⟩ := List.exists_cons_of_ne_nil
        (hheader.fits option List.mem_cons_self).ne_nil
      obtain ⟨rfl, rfl⟩ := List.cons.inj hvalue
      obtain ⟨i, last, flags, heq, hflags⟩ := options_read (eq_of_special hkind nofun) hheader.fits
      rw [List.append_eq, heq, sets_optionState last _ rfl, Header.tell]
      exact ⟨hok, rfl, congrArg (fun flags => (⟨_, _, _, flags, _⟩ : Head)) hflags, htype, hmethod⟩
  | upgrade name value =>
    obtain rfl : value = ch :: w := hvalue
    rw [valueStart_upgrade (eq_of_special hkind nofun), valueBytes_general rfl rfl, hgeneral _ rfl,
      Header.tell, if_neg (List.cons_ne_nil _ _)]
    exact ⟨hok, rfl, rfl, htype, hmethod⟩

/-- A header without a value tells nothing. -/
theorem tell_nil (h : header.value = []) (hheader : header.WellFormed) (head : Head) :
    header.tell head = head := by
  cases header with
  | general name value => rfl
  | contentLength name digits => exact if_pos h
  | transferEncoding name value =>
    obtain rfl : value = [] := h
    rw [Header.tell, if_neg (by decide)]
  | connection name options =>
    cases options with
    | nil => rfl
    | cons option options =>
      exact absurd (List.append_eq_nil_iff.mp h).1 (hheader.fits option List.mem_cons_self).ne_nil
  | upgrade name value => exact if_pos h

end HttpParser

variable {σ : Type*} {S : HttpParserSettings σ} {user u : σ} {h h' : Head} {parser : HttpParser}
  {header : Header} {ch : UInt8} {run w : Bytes} {e : Exec σ} {n : ℕ}

/-! ## Between two lines -/

/-- Between two lines of headers. The line before is finished at the next byte. -/
inductive AtLine (S : HttpParserSettings σ) (h : Head) (user : σ) (parser : HttpParser) (u : σ) :
    Prop
  | start (hr : parser.Reading h .headerFieldStart) (hu : u = user)
  | value (hr : parser.finishHeader.Reading h .headerValueLws) (hu : u = user)
  | empty (hr : parser.finishHeader.Reading h .headerValueDiscardLws)
    (hu : S.onHeaderValue [] u = user)

theorem begin_onParser (hs : parser.state.inText = false) (f : HttpParser → HttpParser) :
    (Exec.begin parser u).onParser f = ⟨f parser, u, none, none, none, false, false⟩ := by
  simp only [State.inText, Bool.or_eq_false_iff, decide_eq_false_iff_not] at hs
  obtain ⟨⟨⟨hurl, hfield⟩, hvalue⟩, hstatus⟩ := hs
  rw [Exec.begin, if_neg hfield, if_neg hvalue, hurl, decide_eq_false hstatus]
  rfl

/-- The parser at the next line. -/
theorem reading_finished {s : State} (hr : parser.finishHeader.Reading h s)
    (hok : parser.httpErrno = .ok) (m : ℕ) :
    ((parser.finishHeader.goto .headerFieldStart).withNread m).Reading h .headerFieldStart ∧
      ((parser.finishHeader.goto .headerFieldStart).withNread m).httpErrno = .ok :=
  ⟨⟨rfl, hr.head, hr.type, hr.method⟩, (finishHeader_matches parser).errno.trans hok⟩

/-- The next line begins. -/
theorem line_round (hline : AtLine S h user parser u) (hok : parser.httpErrno = .ok)
    (hch : ¬(ch = byte ' ' ∨ ch = 9)) (n : ℕ) :
    ∃ q : HttpParser, (q.Reading h .headerFieldStart ∧ q.httpErrno = .ok) ∧
      switch S.unlimited ch [] ((Exec.begin parser u).onParser (·.withNread n)) =
        headerFieldStart S.unlimited ch ⟨q, user, none, none, none, false, false⟩ := by
  have hfinish : (parser.withNread n).finishHeader.goto .headerFieldStart =
      (parser.finishHeader.goto .headerFieldStart).withNread n := by
    rw [HttpParser.finishHeader_withNread]
    rfl
  have hmatch := finishHeader_matches parser
  have hhead : ∃ m, ∀ case : Exec σ → Step σ, loopHead S.unlimited case
      ⟨(parser.finishHeader.goto .headerFieldStart).withNread n, user, none, none, none, false,
        false⟩ =
      case ⟨(parser.finishHeader.goto .headerFieldStart).withNread m, user, none, none, none,
        false, false⟩ :=
    loopHead_unlimited (hmatch.errno.trans hok)
  obtain ⟨m, hm⟩ := hhead
  -- The header before is finished in the round that begins the next line.
  cases hline with
  | start hr hu =>
    subst hu
    refine ⟨parser.withNread n, ⟨⟨hr.state, hr.head, hr.type, hr.method⟩, hok⟩, ?_⟩
    rw [begin_onParser (by rw [hr.state]; rfl), switch]
    simp only [HttpParser.withNread_state, hr.state]
  | value hr hu =>
    subst hu
    have hs : parser.state = .headerValueLws := hmatch.state.symm.trans hr.state
    refine ⟨_, reading_finished hr hok m, ?_⟩
    rw [begin_onParser (by rw [hs]; rfl), switch]
    simp only [HttpParser.withNread_state, hs]
    rw [headerValueLws, if_neg hch]
    refine Eq.trans ?_ (hm _)
    rw [← hfinish]
    rfl
  | empty hr hu =>
    subst hu
    have hs : parser.state = .headerValueDiscardLws := hmatch.state.symm.trans hr.state
    refine ⟨_, reading_finished hr hok m, ?_⟩
    rw [begin_onParser (by rw [hs]; rfl), switch]
    simp only [HttpParser.withNread_state, hs]
    have hok' : ((parser.withNread n).finishHeader.goto .headerFieldStart).httpErrno = .ok := by
      rw [hfinish]
      exact hmatch.errno.trans hok
    rw [headerValueDiscardLws, if_neg hch]
    refine Eq.trans ?_ (hm _)
    rw [← hfinish]
    exact if_pos hok'

/-! ## Names -/

/-- In a header name. -/
structure InName (S : HttpParserSettings σ) (h : Head) (user : σ) (ch : UInt8) (run : Bytes)
    (parser : HttpParser) (u : σ) : Prop where
  reading : parser.Reading h .headerField
  name : ∃ q : HttpParser, parser = (q.startField ch).fieldRun run
  told : u = S.onHeaderField (ch :: run) user

/-- After a header name. -/
structure Named (S : HttpParserSettings σ) (h : Head) (user : σ) (name : Bytes)
    (parser : HttpParser) (u : σ) : Prop where
  reading : parser.Reading h .headerValueDiscardWs
  known : parser.headerState.inField = true
  kind : HttpParser.special parser.headerState = HttpParser.nameKind (name.map token)
  told : u = S.onHeaderField name user

theorem ne_blank_of_token (hch : token ch ≠ 0) : ¬(ch = byte ' ' ∨ ch = 9) := by
  rintro (rfl | rfl) <;> exact hch (by decide)

/-- The first byte of a name. -/
theorem takes_firstByte (hS : S.Tame) (hch : token ch ≠ 0) :
    Takes S [ch] (AtLine S h user) (InName S h user ch []) := by
  intro parser u hvalid hline
  refine feeds_byte hS hvalid fun n _ => ?_
  obtain ⟨q, ⟨hr, hok⟩, hround⟩ := line_round hline hvalid.ok (ne_blank_of_token hch) n
  have hcr : ch ≠ cr := by rintro rfl; exact hch (by decide)
  have hlf : ch ≠ lf := by rintro rfl; exact hch (by decide)
  rw [hround, headerFieldStart, if_neg hcr, if_neg hlf, if_neg hch]
  exact ⟨_, rfl, ⟨rfl, hr.head, hr.type, hr.method⟩, ⟨q.withNread 0, rfl⟩, rfl⟩

theorem begin_headerField (hs : parser.state = .headerField) :
    Exec.begin parser u = ⟨parser, u, some [], none, none, false, false⟩ := by
  rw [Exec.begin, if_pos hs, if_neg (by rw [hs]; decide), hs]
  rfl

theorem begin_headerValue (hs : parser.state = .headerValue) :
    Exec.begin parser u = ⟨parser, u, none, some [], none, false, false⟩ := by
  rw [Exec.begin, if_neg (by rw [hs]; decide), if_pos hs, hs]
  rfl

/-- The other bytes of a name. -/
theorem takes_nameByte (hS : S.Regular) {c : UInt8} (hc : token c ≠ 0) :
    Takes S [c] (InName S h user ch run) (InName S h user ch (run ++ [c])) := by
  rintro parser u hvalid ⟨hr, ⟨q, hname⟩, rfl⟩
  refine feeds_round hS.toTame hvalid ?_
  obtain ⟨n, hround⟩ := loopHead_headerField (S := S)
    (Exec.ready_begin hvalid (S.onHeaderField (ch :: run) user)) hr.state c []
  have halters := HttpParser.fieldByte_alters c (token c) (hvalid.field hr.state)
  rw [tokenRun_cons hc, begin_headerField hr.state] at hround
  rw [begin_headerField hr.state]
  refine ⟨_, hround, ((halters.reading hr).withNread n).withNread 0, ⟨q.withNread 0, ?_⟩,
    (hS.field (ch :: run) [c] user).symm⟩
  have hrun : (((q.startField ch).fieldRun run).fieldRun [c]).withNread 0 =
      ((q.withNread 0).startField ch).fieldRun (run ++ [c]) := by
    rw [← HttpParser.fieldRun_withNread, ← HttpParser.fieldRun_withNread]
    exact List.foldl_append.symm
  rw [← hrun, ← hname]
  rfl

theorem fieldEnd_colon {e : Exec σ} (hok : e.parser.httpErrno = .ok) (run rest : Bytes) :
    fieldEnd S run (byte ':' :: rest) e = .next run.length
      ((e.onParser (·.goto .headerValueDiscardWs)).dataHeaderField S run) := by
  unfold fieldEnd
  dsimp only
  rw [if_pos rfl]
  exact if_pos hok

/-- The colon after a name. -/
theorem takes_colon (hS : S.Regular) (hname : ∀ a ∈ ch :: run, token a ≠ 0) :
    Takes S [byte ':'] (InName S h user ch run) (Named S h user (ch :: run)) := by
  rintro parser u hvalid ⟨hr, ⟨q, hparser⟩, rfl⟩
  refine feeds_round hS.toTame hvalid ?_
  obtain ⟨n, hround⟩ := loopHead_headerField (S := S)
    (Exec.ready_begin hvalid (S.onHeaderField (ch :: run) user)) hr.state (byte ':') []
  rw [tokenRun_nil (by decide), begin_headerField hr.state] at hround
  rw [begin_headerField hr.state]
  have hkind : HttpParser.special ((q.startField ch).fieldRun run).headerState = _ :=
    HttpParser.name_recognised hname
  rw [← hparser] at hkind
  refine ⟨_, hround.trans (fieldEnd_colon (hvalid.ok : (parser.withNread n).httpErrno = .ok) _ _),
    ⟨rfl, hr.head, hr.type, hr.method⟩, hvalid.field hr.state, hkind, ?_⟩
  exact (hS.field (ch :: run) [] user).symm.trans (by rw [List.append_nil])

/-- A header name. -/
theorem takes_name (hS : S.Regular) (hname : ∀ a ∈ ch :: run, token a ≠ 0) :
    Takes S (ch :: run ++ [byte ':']) (AtLine S h user) (Named S h user (ch :: run)) := by
  have hrun : Takes S run (InName S h user ch []) (InName S h user ch ([] ++ run)) :=
    Takes.each hS.toTame [] fun text c hc =>
      takes_nameByte hS (hname c (List.mem_cons_of_mem _ hc))
  exact (takes_firstByte hS.toTame (hname ch List.mem_cons_self)).cons hS.toTame
    (hrun.append hS.toTame (takes_colon hS hname))

/-- The blanks before a value. -/
theorem takes_blanks (hS : S.Tame) {name : Bytes} (hrun : ∀ c ∈ run, c = byte ' ' ∨ c = 9) :
    Takes S run (Named S h user name) (Named S h user name) :=
  Takes.each (A := fun _ => Named S h user name) hS [] fun _ c hc => by
    rintro parser u hvalid ⟨hr, hknown, hkind, rfl⟩
    refine feeds_byte hS hvalid fun n _ => ?_
    rw [begin_onParser (by rw [hr.state]; rfl), switch]
    simp only [HttpParser.withNread_state, hr.state]
    rw [headerValueDiscardWs, if_pos (hrun c hc)]
    exact ⟨_, rfl, ⟨hr.state, hr.head, hr.type, hr.method⟩, hknown, hkind, rfl⟩

/-! ## Values -/

namespace HttpParser

/-- An error in a value stays. -/
theorem valueByte_ok (h : (parser.valueByte ch).httpErrno = .ok) : parser.httpErrno = .ok := by
  unfold valueByte at h
  dsimp only at h
  split at h
  case h_11 | h_12 | h_13 =>
    split_ifs at h
    exacts [(connectionFlag_matches parser).errno.symm.trans h, h, h]
  all_goals first
    | exact h
    | cases h
    | (split_ifs at h <;> first | exact h | cases h)

theorem valueBytes_ok (h : (parser.valueBytes w).httpErrno = .ok) : parser.httpErrno = .ok := by
  induction w generalizing parser with
  | nil => exact h
  | cons ch w ih => exact valueByte_ok (ih h)

theorem valueBytes_withNread (n : ℕ) (w : Bytes) :
    (parser.withNread n).valueBytes w = (parser.valueBytes w).withNread n := by
  induction w generalizing parser with
  | nil => rfl
  | cons ch w ih => rw [valueBytes_cons, valueByte_withNread, ih, valueBytes_cons]

/-- After a name alone there is nothing to finish. -/
theorem finishHeader_of_inField (h : parser.headerState.inField = true) :
    parser.finishHeader = parser := by
  have hne : ∀ {state : HeaderStates}, state.inField = false → parser.headerState ≠ state :=
    fun hs heq => by
      rw [heq, hs] at h
      cases h
  exact sets_id _ (hne rfl) (hne rfl) (hne rfl) (hne rfl) parser rfl

theorem finishHeader_goto (s : State) :
    (parser.goto s).finishHeader = parser.finishHeader.goto s := by
  unfold finishHeader connectionFlag
  rw [goto_headerState]
  cases parser.headerState <;> rfl

end HttpParser

/-- What the callbacks are told of a header. -/
def Header.told (S : HttpParserSettings σ) (header : Header) (user : σ) : σ :=
  S.onHeaderValue header.value (S.onHeaderField header.name user)

/-- The parser after a part of a value. -/
structure InValue (S : HttpParserSettings σ) (header : Header) (h : Head) (user : σ) (ch : UInt8)
    (run : Bytes) (parser : HttpParser) (u : σ) : Prop where
  state : parser.state = .headerValue
  value : ∃ q : HttpParser, q.ReadsValue header h ∧ parser = (q.valueStart ch).valueBytes run
  told : u = S.onHeaderValue (ch :: run) (S.onHeaderField header.name user)

/-- A part of a value has no error. -/
theorem valueBytes_part {q : HttpParser} (hheader : header.WellFormed)
    (hq : q.ReadsValue header h) (hvalue : header.value = ch :: (run ++ w)) :
    ((q.valueStart ch).valueBytes run).httpErrno = .ok := by
  obtain ⟨hok, -⟩ := HttpParser.finishHeader_reading hheader hq hvalue
  rw [HttpParser.valueBytes_append] at hok
  exact HttpParser.valueBytes_ok hok

/-- The first byte of a value. -/
theorem takes_valueStart (hS : S.Tame) (hheader : header.WellFormed)
    (hvalue : header.value = ch :: w) :
    Takes S [ch] (Named S h user header.name) (InValue S header h user ch []) := by
  rintro parser u hvalid ⟨hr, hknown, hkind, rfl⟩
  refine feeds_byte hS hvalid fun n _ => ?_
  have hq : parser.ReadsValue header h :=
    ⟨hr.head, hr.type, hr.method, hknown, hkind.trans hheader.kind, hvalid.ok⟩
  have hok : ((parser.valueStart ch).valueBytes []).httpErrno = .ok :=
    valueBytes_part hheader hq hvalue
  obtain ⟨hspace, htab⟩ := hheader.first ch (by rw [hvalue]; rfl)
  obtain ⟨hcr, hlf⟩ : ch ≠ cr ∧ ch ≠ lf := by
    simpa [HttpParser.isEol] using hheader.line ch (by rw [hvalue]; exact List.mem_cons_self)
  rw [begin_onParser (by rw [hr.state]; rfl), switch]
  simp only [HttpParser.withNread_state, hr.state]
  rw [headerValueDiscardWs, if_neg (not_or.mpr ⟨hspace, htab⟩), if_neg hcr, if_neg hlf,
    headerValueStart]
  have hstart : (parser.withNread n).valueStart ch = (parser.valueStart ch).withNread n :=
    HttpParser.valueStart_withNread
  have hafter : ((parser.withNread n).valueStart ch).httpErrno = .ok := by rwa [hstart]
  refine ⟨⟨(parser.withNread n).valueStart ch, S.onHeaderField header.name user, none, some [],
    none, false, false⟩, if_pos hafter, ?_, ⟨parser.withNread 0, hq.withNread 0, ?_⟩, rfl⟩
  · rw [hstart]
    exact (valueStart_spec ch hvalid.bound).1
  · rw [hstart, HttpParser.valueStart_withNread]
    rfl

/-- The other bytes of a value. -/
theorem takes_valueByte (hS : S.Regular) (hheader : header.WellFormed) {c : UInt8}
    (hvalue : header.value = ch :: (run ++ c :: w)) :
    Takes S [c] (InValue S header h user ch run) (InValue S header h user ch (run ++ [c])) := by
  rintro parser u hvalid ⟨hs, ⟨q, hq, hparser⟩, rfl⟩
  have heol : ¬HttpParser.isEol c = true := by
    rw [hheader.line c (by rw [hvalue]; simp)]
    nofun
  have hbytes : (q.valueStart ch).valueBytes (run ++ [c]) = parser.valueByte c := by
    rw [HttpParser.valueBytes_append, hparser]
    rfl
  have hok : (parser.valueByte c).httpErrno = .ok := by
    rw [← hbytes]
    exact valueBytes_part (w := w) hheader hq (hvalue.trans (by simp))
  refine feeds_round hS.toTame hvalid ?_
  rw [begin_headerValue hs]
  obtain ⟨m, hround⟩ := loopHead_valueByte (S := S)
    (e := ⟨parser, S.onHeaderValue (ch :: run) (S.onHeaderField header.name user), none, some [],
      none, false, false⟩) hvalid.ok hs heol hok
  refine ⟨_, hround, ?_, ⟨q.withNread 0, hq.withNread 0, ?_⟩,
    (hS.value (ch :: run) [c] _).symm⟩
  · exact (valueByte_spec c hs (hvalid.value hs) hvalid.bound).1.state.trans hs
  · rw [HttpParser.valueStart_withNread, HttpParser.valueBytes_withNread, hbytes]
    rfl

theorem takes_valueBytes (hS : S.Regular) (hheader : header.WellFormed) (rest run : Bytes)
    (hvalue : header.value = ch :: (run ++ rest)) :
    Takes S rest (InValue S header h user ch run) (InValue S header h user ch (run ++ rest)) := by
  induction rest generalizing run with
  | nil =>
    rw [List.append_nil]
    exact .nil fun _ _ _ h => h
  | cons c rest ih =>
    have hrest := ih (run ++ [c]) (by rw [hvalue, List.append_cons])
    rw [← List.append_cons] at hrest
    exact (takes_valueByte hS hheader hvalue).cons hS.toTame hrest

/-- The parser at the `LF` after a header. -/
structure AtLf (S : HttpParserSettings σ) (h : Head) (user : σ) (parser : HttpParser) (u : σ) :
    Prop where
  reading : parser.finishHeader.Reading h .headerAlmostDone
  told : u = user

/-- The `CR` after a value. -/
theorem takes_cr (hS : S.Regular) (hheader : header.WellFormed) (hvalue : header.value = ch :: w) :
    Takes S [cr] (InValue S header h user ch w) (AtLf S (header.tell h) (header.told S user)) := by
  rintro parser u hvalid ⟨hs, ⟨q, hq, hparser⟩, rfl⟩
  refine feeds_round hS.toTame hvalid ?_
  rw [begin_headerValue hs]
  obtain ⟨n, hround⟩ := loopHead_headerValue (S := S) (e := ⟨parser, S.onHeaderValue (ch :: w)
    (S.onHeaderField header.name user), none, some [], none, false, false⟩) parser (.refl _)
    hvalid.ok hs cr
  obtain ⟨m, hend⟩ := valueCr_unlimited (S := S) (parser.withNread n)
    (S.onHeaderValue (ch :: w) (S.onHeaderField header.name user)) [] [] hvalid.ok
  obtain ⟨-, hreading⟩ := HttpParser.finishHeader_reading hheader hq hvalue
  rw [← hparser] at hreading
  have hrun : parser.valueRun (2 ^ 32 - 1) [cr] = (0, parser) := by
    rw [HttpParser.valueRun]
    exact if_pos rfl
  have hcr := hround []
  rw [hrun] at hcr
  refine ⟨_, hcr.trans (Eq.trans ?_ hend), ?_, ?_⟩
  · exact (if_neg (not_not.mpr hvalid.ok)).trans (if_pos rfl)
  · simp only [HttpParser.finishHeader_withNread, HttpParser.finishHeader_goto]
    exact ⟨rfl, hreading.head, hreading.type, hreading.method⟩
  · refine (hS.value (ch :: w) [] _).symm.trans ?_
    rw [List.append_nil, ← hvalue]
    rfl

/-- The `LF` after a value. -/
theorem takes_lf (hS : S.Tame) : Takes S [lf] (AtLf S h user) (AtLine S h user) := by
  rintro parser u hvalid ⟨hr, rfl⟩
  have hs : parser.state = .headerAlmostDone :=
    (finishHeader_matches parser).state.symm.trans hr.state
  have hcase : parser.plainCase lf = parser.goto .headerValueLws := by
    rw [HttpParser.plainCase, hs]
    rfl
  refine feeds_plain hS hvalid (by rw [hs]; rfl) (by rw [hs]; decide)
    (by rw [hcase]; exact hvalid.ok) (.value ?_ rfl)
  rw [hcase]
  simp only [HttpParser.finishHeader_withNread, HttpParser.finishHeader_goto]
  exact ⟨rfl, hr.head, hr.type, hr.method⟩

/-- A value and the end of its line. -/
theorem takes_value (hS : S.Regular) (hheader : header.WellFormed) (hvalue : header.value ≠ []) :
    Takes S (header.value ++ [cr, lf]) (Named S h user header.name)
      (AtLine S (header.tell h) (header.told S user)) := by
  obtain ⟨ch, w, hvalue⟩ := List.exists_cons_of_ne_nil hvalue
  have hbytes : Takes S w (InValue S header h user ch []) (InValue S header h user ch w) :=
    takes_valueBytes hS hheader w [] hvalue
  rw [hvalue]
  exact (takes_valueStart hS.toTame hheader hvalue).cons hS.toTame
    (hbytes.append hS.toTame ((takes_cr hS hheader hvalue).cons hS.toTame (takes_lf hS.toTame)))

/-- The parser in the line of an empty value. -/
structure NoValue (S : HttpParserSettings σ) (s : State) (h : Head) (user : σ) (name : Bytes)
    (parser : HttpParser) (u : σ) : Prop where
  reading : parser.Reading h s
  known : parser.headerState.inField = true
  told : u = S.onHeaderField name user

/-- The end of a line without a value. -/
theorem takes_emptyValue (hS : S.Tame) (hheader : header.WellFormed) (hvalue : header.value = []) :
    Takes S [cr, lf] (Named S h user header.name)
      (AtLine S (header.tell h) (header.told S user)) := by
  have hcr : Takes S [cr] (Named S h user header.name)
      (NoValue S .headerValueDiscardWsAlmostDone h user header.name) := by
    rintro parser u hvalid ⟨hr, hknown, hkind, rfl⟩
    refine feeds_byte hS hvalid fun n _ => ?_
    rw [begin_onParser (by rw [hr.state]; rfl), switch]
    simp only [HttpParser.withNread_state, hr.state]
    exact ⟨_, (if_neg (by decide)).trans (if_pos rfl), ⟨rfl, hr.head, hr.type, hr.method⟩, hknown,
      rfl⟩
  refine hcr.cons hS ?_
  rintro parser u hvalid ⟨hr, hknown, rfl⟩
  have hcase : parser.plainCase lf = parser.goto .headerValueDiscardLws := by
    rw [HttpParser.plainCase, hr.state]
    rfl
  refine feeds_plain hS hvalid (by rw [hr.state]; rfl) (by rw [hr.state]; decide)
    (by rw [hcase]; exact hvalid.ok) (.empty ?_ (by rw [Header.told, hvalue]))
  rw [hcase, HttpParser.tell_nil hvalue hheader]
  simp only [HttpParser.finishHeader_withNread, HttpParser.finishHeader_goto,
    HttpParser.finishHeader_of_inField hknown]
  exact ⟨rfl, hr.head, hr.type, hr.method⟩

/-- A header on its line, with blanks before its value. -/
structure HeaderLine where
  header : Header
  blanks : Bytes

namespace HeaderLine

def text (line : HeaderLine) : Bytes :=
  line.header.name ++ [byte ':'] ++ (line.blanks ++ (line.header.value ++ [cr, lf]))

/-- A header line that the parser accepts. -/
structure WellFormed (line : HeaderLine) : Prop where
  header : line.header.WellFormed
  blanks : ∀ c ∈ line.blanks, c = byte ' ' ∨ c = 9

/-- What the lines of some headers tell. -/
def tell (lines : List HeaderLine) (h : Head) : Head :=
  lines.foldl (fun h line => line.header.tell h) h

/-- What the callbacks are told of some headers. -/
def told (S : HttpParserSettings σ) (lines : List HeaderLine) (user : σ) : σ :=
  lines.foldl (fun user line => line.header.told S user) user

end HeaderLine

theorem takes_headerLine (hS : S.Regular) {line : HeaderLine} (hline : line.WellFormed) :
    Takes S line.text (AtLine S h user)
      (AtLine S (line.header.tell h) (line.header.told S user)) := by
  have hheader := hline.header
  obtain ⟨ch, run, hname⟩ := List.exists_cons_of_ne_nil hheader.name_ne_nil
  have hnames : Takes S (line.header.name ++ [byte ':']) (AtLine S h user)
      (Named S h user line.header.name) := by
    rw [hname]
    exact takes_name hS (hname ▸ hheader.token)
  refine hnames.append hS.toTame ((takes_blanks hS.toTame hline.blanks).append hS.toTame ?_)
  by_cases hvalue : line.header.value = []
  · rw [hvalue]
    exact takes_emptyValue hS.toTame hheader hvalue
  · exact takes_value hS hheader hvalue

/-- Headers one after the other. -/
theorem takes_headers (hS : S.Regular) {lines : List HeaderLine}
    (hlines : ∀ line ∈ lines, line.WellFormed) :
    Takes S (lines.flatMap HeaderLine.text) (AtLine S h user)
      (AtLine S (HeaderLine.tell lines h) (HeaderLine.told S lines user)) := by
  induction lines generalizing h user with
  | nil => exact .nil fun _ _ _ h => h
  | cons line lines ih =>
    exact (takes_headerLine hS (hlines line List.mem_cons_self)).append hS.toTame
      (ih fun l hl => hlines l (List.mem_cons_of_mem _ hl))

end Wrkx
