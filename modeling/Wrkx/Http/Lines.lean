import Wrkx.Http.Feeds

/-!
# The lines of a response

The first line of a response and its headers, with what they leave for the body: the version, the
status, the flags and the length.

## Main results

- `takes_statusLine` — the first line
- `takes_header` — the name and the value of a header
-/

namespace Wrkx

/-- What the lines of a message have told. -/
structure Head where
  httpMajor : ℕ
  httpMinor : ℕ
  statusCode : ℕ
  flags : Flags
  contentLength : ℕ
deriving DecidableEq

namespace HttpParser

/-- What the lines of the message have told. -/
def head (parser : HttpParser) : Head :=
  ⟨parser.httpMajor, parser.httpMinor, parser.statusCode, parser.flags, parser.contentLength⟩

/-- A parser in a response, after some of its lines. -/
structure Reading (h : Head) (s : State) (parser : HttpParser) : Prop where
  state : parser.state = s
  head : parser.head = h
  type : parser.type = .response
  method : parser.method = .delete

end HttpParser

variable {σ : Type*} {S : HttpParserSettings σ} {user : σ} {h h' : Head} {s s' : State}
  {ch : UInt8} {text : Bytes}

/-- In a response, and the callbacks have come to `user`. -/
def At (h : Head) (s : State) (user : σ) (parser : HttpParser) (u : σ) : Prop :=
  parser.Reading h s ∧ u = user

/-- A byte of a line. -/
theorem takes_plain (hS : S.Tame)
    (hcase : ∀ parser : HttpParser, parser.Reading h s → parser.httpErrno = .ok →
      (parser.plainCase ch).Reading h' s' ∧ (parser.plainCase ch).httpErrno = .ok)
    (hs : s.plain = true := by rfl) (hstart : s ≠ .chunkSizeStart := by decide) :
    Takes S [ch] (At h s user) (At h' s' user) := by
  rintro parser u hvalid ⟨hreading, rfl⟩
  obtain ⟨hafter, hok⟩ := hcase parser hreading hvalid.ok
  exact feeds_plain hS hvalid (hreading.state ▸ hs) (hreading.state ▸ hstart) hok
    ⟨⟨hafter.state, hafter.head, hafter.type, hafter.method⟩, rfl⟩

/-- A byte that leads to another line or to another part of a line. -/
theorem takes_goto (s' : State) (hS : S.Tame)
    (hcase : ∀ parser : HttpParser, parser.state = s → parser.plainCase ch = parser.goto s')
    (hs : s.plain = true := by rfl) (hstart : s ≠ .chunkSizeStart := by decide) :
    Takes S [ch] (At h s user) (At h s' user) :=
  takes_plain hS (fun parser hr hok => by
    rw [hcase parser hr.state]
    exact ⟨⟨rfl, hr.head, hr.type, hr.method⟩, hok⟩) hs hstart

/-! ## The first line -/

/-- The first line of a response. -/
def statusLine (major minor status : ℕ) (reason : Bytes) : Bytes :=
  ['H', 'T', 'T', 'P', '/'].map byte ++ (CString.decimal major ++ ([byte '.'] ++
    (CString.decimal minor ++ ([byte ' '] ++ (CString.decimal status ++ ([byte ' '] ++
      (reason ++ [cr, lf])))))))

/-- What the first line tells. -/
def statusHead (major minor status : ℕ) : Head := ⟨major, minor, status, .none, ullongMax⟩

theorem takes_http (hS : S.Tame) : Takes S (['H', 'T', 'T', 'P', '/'].map byte)
    (At h .startRes user)
    (At { h with flags := .none, contentLength := ullongMax } .resFirstHttpMajor user) := by
  have hbegin : Takes S [byte 'H'] (At h .startRes user)
      (At { h with flags := .none, contentLength := ullongMax } .resH user) :=
    takes_plain hS fun parser hr hok => by
      have hcase : parser.plainCase (byte 'H') = parser.beginMessage.goto .resH := by
        rw [HttpParser.plainCase, hr.state]
        exact (if_pos hok : (parser.beginMessage.goto .resH).assertOk = _)
      rw [hcase, ← hr.head]
      exact ⟨⟨rfl, rfl, hr.type, hr.method⟩, hok⟩
  refine hbegin.cons hS ?_
  refine Takes.cons hS (takes_goto .resHT hS fun parser hs => ?_) ?_
  · rw [HttpParser.plainCase, hs]; rfl
  refine Takes.cons hS (takes_goto .resHTT hS fun parser hs => ?_) ?_
  · rw [HttpParser.plainCase, hs]; rfl
  refine Takes.cons hS (takes_goto .resHTTP hS fun parser hs => ?_) ?_
  · rw [HttpParser.plainCase, hs]; rfl
  exact takes_goto _ hS fun parser hs => by rw [HttpParser.plainCase, hs]; rfl

/-- A digit is no dot and no space. -/
theorem ne_of_isDigit {d : UInt8} (hd : CString.isDigit d = true) :
    d ≠ byte '.' ∧ d ≠ byte ' ' := by
  constructor <;>
    (rintro rfl; exact absurd hd (by decide))

/-- A number of the first line, which the parser keeps in one of its fields. -/
theorem takes_field (hS : S.Tame) {first rest : State} {F : ℕ → HttpParser → HttpParser}
    {T : ℕ → Head → Head} {n : ℕ}
    (hset : ∀ {n parser h s}, HttpParser.Reading h s parser →
      (F n parser).Reading (T n h) s ∧ (F n parser).httpErrno = parser.httpErrno)
    (htell : ∀ m n, T m (T n h) = T m h)
    (hfirst : ∀ {parser : HttpParser} {d}, parser.state = first → CString.isDigit d = true →
      parser.plainCase d = (F (HttpParser.digit d) parser).goto rest)
    (hmore : ∀ {parser : HttpParser} {n d}, parser.Reading (T n h) rest →
      CString.isDigit d = true → n * 10 + HttpParser.digit d ≤ 999 →
      parser.plainCase d = F (n * 10 + HttpParser.digit d) parser) (hn : n ≤ 999)
    (hplain : first.plain = true ∧ rest.plain = true := by exact ⟨rfl, rfl⟩)
    (hstart : first ≠ .chunkSizeStart ∧ rest ≠ .chunkSizeStart := by decide) :
    Takes S (CString.decimal n) (At h first user) (At (T n h) rest user) := by
  have hvalue : ∀ {d}, CString.isDigit d = true → CString.digitValue d = HttpParser.digit d :=
    fun hd => if_pos hd
  have hdecimal := takes_number (P := At h first user) (A := fun n => At (T n h) rest user)
    (D := fun d => CString.isDigit d = true) hS (by decide : 0 < 10) (fun d hd => ?_)
    (fun n d hd hmax => ?_) (CString.isDigit_decimal n) (CString.decimal_ne_nil n)
    ((CString.value_decimal n).trans_le hn)
  · rwa [CString.value_decimal] at hdecimal
  · refine takes_plain hS (fun parser hr hok => ?_) hplain.1 hstart.1
    obtain ⟨hreading, herrno⟩ := hset (n := HttpParser.digit d) hr
    rw [hfirst hr.state hd, hvalue hd]
    exact ⟨⟨rfl, hreading.head, hreading.type, hreading.method⟩, herrno.trans hok⟩
  · rw [hvalue hd] at hmax ⊢
    refine takes_plain hS (fun parser hr hok => ?_) hplain.2 hstart.2
    obtain ⟨hreading, herrno⟩ := hset (n := n * 10 + HttpParser.digit d) hr
    rw [hmore hr hd hmax, ← htell _ n]
    exact ⟨hreading, herrno.trans hok⟩

theorem takes_major (hS : S.Tame) {n : ℕ} (hn : n ≤ 999) :
    Takes S (CString.decimal n) (At h .resFirstHttpMajor user)
      (At { h with httpMajor := n } .resHttpMajor user) := by
  refine takes_field (F := fun n parser => { parser with httpMajor := n })
    (T := fun n h => { h with httpMajor := n }) hS
    (fun hr => ⟨⟨hr.state, by rw [← hr.head]; rfl, hr.type, hr.method⟩, rfl⟩) (fun _ _ => rfl)
    (fun hs hd => ?_) (fun {parser n d} hr hd hmax => ?_) hn
  · rw [HttpParser.plainCase, hs]
    exact if_pos hd
  · have hmajor : parser.httpMajor = n := congrArg Head.httpMajor hr.head
    rw [HttpParser.plainCase, hr.state]
    dsimp only [HttpParser.httpMajorByte]
    rw [if_neg (ne_of_isDigit hd).1, if_neg (by simp [hd]), hmajor, if_neg (by omega), ← hr.state]

theorem takes_minor (hS : S.Tame) {n : ℕ} (hn : n ≤ 999) :
    Takes S (CString.decimal n) (At h .resFirstHttpMinor user)
      (At { h with httpMinor := n } .resHttpMinor user) := by
  refine takes_field (F := fun n parser => { parser with httpMinor := n })
    (T := fun n h => { h with httpMinor := n }) hS
    (fun hr => ⟨⟨hr.state, by rw [← hr.head]; rfl, hr.type, hr.method⟩, rfl⟩) (fun _ _ => rfl)
    (fun hs hd => ?_) (fun {parser n d} hr hd hmax => ?_) hn
  · rw [HttpParser.plainCase, hs]
    exact if_pos hd
  · have hminor : parser.httpMinor = n := congrArg Head.httpMinor hr.head
    rw [HttpParser.plainCase, hr.state]
    dsimp only [HttpParser.resHttpMinor, HttpParser.httpMinorDigit]
    rw [if_neg (ne_of_isDigit hd).2, if_neg (by simp [hd]), hminor, if_neg (by omega), ← hr.state]

theorem takes_status (hS : S.Tame) {n : ℕ} (hn : n ≤ 999) :
    Takes S (CString.decimal n) (At h .resFirstStatusCode user)
      (At { h with statusCode := n } .resStatusCode user) := by
  refine takes_field (F := fun n parser => { parser with statusCode := n })
    (T := fun n h => { h with statusCode := n }) hS
    (fun hr => ⟨⟨hr.state, by rw [← hr.head]; rfl, hr.type, hr.method⟩, rfl⟩) (fun _ _ => rfl)
    (fun hs hd => ?_) (fun {parser n d} hr hd hmax => ?_) hn
  · rw [HttpParser.plainCase, hs]
    exact if_pos hd
  · have hstatus : parser.statusCode = n := congrArg Head.statusCode hr.head
    rw [HttpParser.plainCase, hr.state]
    dsimp only [HttpParser.resStatusCode]
    rw [if_neg (by simp [hd]), hstatus, if_neg (by omega), ← hr.state]

/-- The reason, which the parser passes over, and the end of the line. -/
theorem takes_reason (hS : S.Tame) {reason : Bytes}
    (hreason : ∀ c ∈ reason, HttpParser.isEol c = false) :
    Takes S (reason ++ [cr, lf]) (At h .resStatusStart user) (At h .headerFieldStart user) := by
  have hend : Takes S [lf] (At h .resLineAlmostDone user) (At h .headerFieldStart user) :=
    takes_goto _ hS fun parser hs => by rw [HttpParser.plainCase, hs]; rfl
  have hne : ∀ {c}, HttpParser.isEol c = false → c ≠ cr ∧ c ≠ lf := fun hc => by
    simpa [HttpParser.isEol] using hc
  cases reason with
  | nil =>
    refine Takes.cons hS (takes_goto _ hS fun parser hs => ?_) hend
    rw [HttpParser.plainCase, hs]
    rfl
  | cons c reason =>
    have hfirst : Takes S [c] (At h .resStatusStart user) (At h .resStatus user) :=
      takes_plain hS fun parser hr hok => by
        obtain ⟨hcr, hlf⟩ := hne (hreason c List.mem_cons_self)
        have hcase : parser.plainCase c = { parser with state := .resStatus, index := 0 } := by
          rw [HttpParser.plainCase, hr.state]
          exact (if_neg hcr).trans (if_neg hlf)
        rw [hcase]
        exact ⟨⟨rfl, hr.head, hr.type, hr.method⟩, hok⟩
    have hrest : Takes S reason (At h .resStatus user) (At h .resStatus user) :=
      Takes.each (A := fun _ => At h .resStatus user) hS [] fun _ c hc =>
        takes_goto _ hS fun parser hs => by
          obtain ⟨hcr, hlf⟩ := hne (hreason c (List.mem_cons_of_mem _ hc))
          rw [HttpParser.plainCase, hs]
          refine (if_neg hcr).trans ((if_neg hlf).trans ?_)
          rw [HttpParser.goto, ← hs]
    have hlast : Takes S [cr] (At h .resStatus user) (At h .resLineAlmostDone user) :=
      takes_plain hS fun parser hr hok => by
        have hcase : parser.plainCase cr = parser.goto .resLineAlmostDone := by
          rw [HttpParser.plainCase, hr.state]
          exact (if_pos hok : (parser.goto .resLineAlmostDone).assertOk = _)
        rw [hcase]
        exact ⟨⟨rfl, hr.head, hr.type, hr.method⟩, hok⟩
    exact hfirst.cons hS (hrest.append hS (hlast.cons hS hend))

/-- The first line of a response. -/
theorem takes_statusLine (hS : S.Tame) {major minor status : ℕ} {reason : Bytes}
    (hmajor : major ≤ 999) (hminor : minor ≤ 999) (hstatus : status ≤ 999)
    (hreason : ∀ c ∈ reason, HttpParser.isEol c = false) :
    Takes S (statusLine major minor status reason) (At h .startRes user)
      (At (statusHead major minor status) .headerFieldStart user) := by
  refine (takes_http hS).append hS ((takes_major hS hmajor).append hS (Takes.append hS
    (takes_goto .resFirstHttpMinor hS fun parser hs => ?_)
    ((takes_minor hS hminor).append hS (Takes.append hS
      (takes_goto .resFirstStatusCode hS fun parser hs => ?_)
      ((takes_status hS hstatus).append hS (Takes.append hS
        (takes_goto .resStatusStart hS fun parser hs => ?_) (takes_reason hS hreason)))))))
  all_goals
    rw [HttpParser.plainCase, hs]
    rfl

end Wrkx
