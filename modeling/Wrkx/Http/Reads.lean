import Wrkx.Http.Limit

/-!
# Reading within the data

No case passes bytes that are not there, and without an error all of the data is read. The one
case that steps back behind the data's first byte does so only where the count of the header size
has wrapped around, which no run comes to.

## Main results

- `execute_parsed` — how many bytes `http_parser_execute` returns, in every run
-/

namespace Wrkx

variable {σ : Type*} {S : HttpParserSettings σ} {e : Exec σ} {parser : HttpParser}
  {ch : UInt8} {p rest passed : Bytes} {n : ℕ} {case : Exec σ → Step σ}

/-- The round stays within `n` bytes. It returns early with an error or at an upgrade only. -/
def Step.Reads (n : ℕ) : Step σ → Prop
  | .next more _ => more < n
  | .stop parsed upgrade e => parsed ≤ n ∧ (e.parser.httpErrno ≠ .ok ∨ upgrade = true)

/-! ## Rules -/

theorem Step.Reads.mono {s : Step σ} {m : ℕ} (h : s.Reads n) (hle : n ≤ m) : s.Reads m := by
  cases s
  exacts [lt_of_lt_of_le h hle, ⟨h.1.trans (Int.ofNat_le.mpr hle), h.2⟩]

theorem reads_after {k : ℕ} {s : Step σ} (h : s.Reads n) : (s.after k).Reads (k + n) := by
  cases s with
  | next more e => exact Nat.add_lt_add_left h k
  | stop parsed upgrade e =>
    refine ⟨?_, h.2⟩
    push_cast
    exact Int.add_le_add_left h.1 k

theorem reads_ite {q : Prop} [Decidable q] {s t : Step σ} (hs : q → s.Reads n)
    (ht : ¬q → t.Reads n) : (if q then s else t).Reads n := by
  split_ifs with h
  exacts [hs h, ht h]

theorem reads_fail {errno : HttpErrno} (herrno : errno ≠ .ok) :
    (Step.stop 0 false (e.onParser (·.fail errno))).Reads n :=
  ⟨Int.natCast_nonneg n, .inl herrno⟩

theorem reads_callback (h : (case e).Reads n) : (e.callback case).Reads n :=
  reads_ite (fun _ => h) fun _ => reads_fail (by decide)

theorem reads_count {v k : ℤ} (hk : k ≤ n) (h : ∀ f, (case (e.onParser f)).Reads n) :
    (count S v k case e).Reads n :=
  reads_ite (fun herrno => ⟨hk, .inl herrno⟩) fun _ => h _

theorem reads_loopHead (h : ∀ f, (case (e.onParser f)).Reads n) : (loopHead S case e).Reads n :=
  reads_ite (fun _ => reads_count (Int.natCast_nonneg n) h) fun _ => h id

theorem reads_endCase (hn : 0 < n) : e.endCase.Reads n :=
  reads_ite (fun _ => hn) fun herrno => ⟨Int.natCast_nonneg n, .inl herrno⟩

/-! ## Cases -/

section Bytes

variable (hn : 0 < n)
include hn

theorem reads_plain : (plain ch e).Reads n := reads_endCase hn

theorem reads_notifyComplete : (notifyComplete S (.next 0) e).Reads n :=
  reads_ite (fun _ => hn) fun _ => reads_fail (by decide)

theorem reads_headersDone : (headersDone S ch e).Reads n := by
  refine reads_ite (fun _ => reads_fail (by decide)) fun _ => ?_
  refine reads_ite (fun _ => reads_ite (fun _ => ⟨Int.ofNat_le.mpr hn, .inr rfl⟩)
    fun _ => reads_fail (by decide)) fun _ => reads_ite (fun _ => hn) fun _ => ?_
  exact reads_ite (fun _ => reads_notifyComplete hn) fun _ => reads_ite (fun _ => hn) fun _ =>
    reads_ite (fun _ => reads_notifyComplete hn) fun _ => hn

theorem reads_headersAlmostDone : (headersAlmostDone S ch e).Reads n := by
  refine reads_ite (fun _ => reads_fail (by decide)) fun _ => ?_
  refine reads_ite (fun _ => reads_notifyComplete hn) fun _ => ?_
  exact reads_loopHead fun _ => reads_headersDone hn

theorem reads_headerFieldStart : (headerFieldStart S ch e).Reads n := by
  refine reads_ite (fun _ => hn) fun _ => reads_ite (fun _ => ?_) fun _ => ?_
  · exact reads_loopHead fun _ => reads_headersAlmostDone hn
  · exact reads_ite (fun _ => reads_fail (by decide)) fun _ => hn

theorem reads_headerValueStart : (headerValueStart ch e).Reads n := reads_endCase hn

theorem reads_headerValueDiscardWs : (headerValueDiscardWs ch e).Reads n :=
  reads_ite (fun _ => hn) fun _ => reads_ite (fun _ => hn) fun _ =>
    reads_ite (fun _ => hn) fun _ => reads_headerValueStart hn

theorem reads_headerValueLws : (headerValueLws S ch e).Reads n :=
  reads_ite (fun _ => reads_loopHead fun _ => reads_headerValueStart hn)
    fun _ => reads_loopHead fun _ => reads_headerFieldStart hn

theorem reads_headerValueDiscardLws : (headerValueDiscardLws S ch e).Reads n :=
  reads_ite (fun _ => hn) fun _ =>
    reads_callback (reads_loopHead fun _ => reads_headerFieldStart hn)

theorem reads_chunkDataAlmostDone : (chunkDataAlmostDone S ch e).Reads n :=
  reads_ite (fun _ => reads_fail (by decide)) fun _ =>
    reads_ite (fun _ => reads_fail (by decide)) fun _ => reads_callback hn

theorem reads_startReqOrRes : (startReqOrRes S ch e).Reads n :=
  reads_ite (fun _ => hn) fun _ => reads_ite (fun _ => reads_endCase hn) fun _ =>
    reads_loopHead fun _ => reads_plain hn

end Bytes

theorem reads_headerFieldCase : (headerFieldCase S (ch :: rest) e).Reads (rest.length + 1) := by
  have hle : (HttpParser.tokenRun (ch :: rest)).length ≤ rest.length + 1 :=
    (List.takeWhile_sublist _).length_le
  refine reads_count (Int.ofNat_le.mpr hle) fun f => ?_
  unfold fieldEnd
  split
  · exact lt_of_le_of_lt (Nat.sub_le_sub_right hle 1) (Nat.lt_succ_self _)
  · next hdrop =>
    have hlt : (HttpParser.tokenRun (ch :: rest)).length < rest.length + 1 := by
      by_contra hge
      rw [List.drop_of_length_le (not_lt.mp hge)] at hdrop
      cases hdrop
    exact reads_ite (fun _ => reads_callback hlt) fun _ => ⟨Int.ofNat_le.mpr hle, .inl nofun⟩

theorem valueRun_le (max : ℕ) (p : Bytes) : (parser.valueRun max p).1 ≤ p.length := by
  induction p generalizing parser with
  | nil => exact le_rfl
  | cons ch p ih =>
    unfold HttpParser.valueRun
    dsimp only
    split_ifs
    · exact Nat.zero_le _
    · unfold HttpParser.generalRun
      dsimp only
      split_ifs with hrun
      · exact hrun.le.trans (List.length_take_le' _ _)
      · exact le_rfl
    · exact Nat.zero_le _
    · exact Nat.succ_le_succ ih

theorem reads_headerValueCase : (headerValueCase S (ch :: rest) e).Reads (rest.length + 1) := by
  have hle : (e.parser.valueRun S.maxHeaderSize (ch :: rest)).1 ≤ rest.length + 1 :=
    valueRun_le _ _
  unfold headerValueCase valueEnd
  dsimp only
  generalize (e.parser.valueRun S.maxHeaderSize (ch :: rest)).1 = k at hle ⊢
  generalize (e.parser.valueRun S.maxHeaderSize (ch :: rest)).2 = parser
  refine reads_ite (fun herrno => ⟨Int.ofNat_le.mpr hle, .inl herrno⟩) fun _ => ?_
  split
  · exact reads_count (Int.ofNat_le.mpr hle) fun f =>
      lt_of_le_of_lt (Nat.sub_le_sub_right hle 1) (Nat.lt_succ_self _)
  · next hdrop =>
    have hlt : k < rest.length + 1 := by
      by_contra hge
      rw [List.drop_of_length_le (not_lt.mp hge)] at hdrop
      cases hdrop
    have htake : ((ch :: rest).take k).length = k := List.length_take_of_le hle
    refine reads_ite (fun _ => ?_) fun _ => ?_
    · unfold valueCr
      rw [htake]
      exact reads_callback (reads_count (Int.ofNat_le.mpr hle) fun _ => hlt)
    · unfold valueLf
      rw [htake]
      have hback : (k : ℤ) - 1 ≤ (rest.length + 1 : ℕ) := by omega
      refine reads_count (Int.ofNat_le.mpr hle) fun f =>
        reads_callback (reads_count hback fun g => ?_)
      exact (reads_after (reads_loopHead fun _ => reads_plain Nat.one_pos)).mono hlt

theorem reads_bodyIdentity : (bodyIdentity S (ch :: rest) e).Reads (rest.length + 1) := by
  have hread : min e.parser.contentLength (ch :: rest).length - 1 < rest.length + 1 :=
    lt_of_le_of_lt (Nat.sub_le_sub_right (min_le_right _ _) 1) (Nat.lt_succ_self _)
  refine reads_ite (fun _ => reads_fail (by decide)) fun _ =>
    reads_ite (fun _ => reads_callback ?_) fun _ => hread
  exact (reads_after (reads_notifyComplete Nat.one_pos)).mono hread

theorem reads_chunkData : (chunkData (ch :: rest) e).Reads (rest.length + 1) := by
  have hread : min e.parser.contentLength (ch :: rest).length - 1 < rest.length + 1 :=
    lt_of_le_of_lt (Nat.sub_le_sub_right (min_le_right _ _) 1) (Nat.lt_succ_self _)
  exact reads_ite (fun _ => reads_fail (by decide)) fun _ =>
    reads_ite (fun _ => hread) fun _ => hread

/-! ## The count -/

/-- The count of the header size is within its limit after the round, and no byte before the data
    is returned. -/
def Step.Counts (S : HttpParserSettings σ) : Step σ → Prop
  | .next _ e => e.parser.nread ≤ S.maxHeaderSize
  | .stop parsed _ e =>
    0 ≤ parsed ∧ (e.parser.httpErrno = .ok → e.parser.nread ≤ S.maxHeaderSize)

theorem counts_after {k : ℕ} {s : Step σ} (h : s.Counts S) : (s.after k).Counts S := by
  cases s with
  | next more e => exact h
  | stop parsed upgrade e => exact ⟨Int.add_nonneg (Int.natCast_nonneg k) h.1, h.2⟩

theorem counts_ite {q : Prop} [Decidable q] {s t : Step σ} (hs : q → s.Counts S)
    (ht : ¬q → t.Counts S) : (if q then s else t).Counts S := by
  split_ifs with h
  exacts [hs h, ht h]

theorem counts_fail {k : ℕ} {errno : HttpErrno} (herrno : errno ≠ .ok) :
    (Step.stop k false (e.onParser (·.fail errno))).Counts S :=
  ⟨Int.natCast_nonneg k, fun h => absurd h herrno⟩

theorem counts_callback (h : (case e).Counts S) : (e.callback case).Counts S :=
  counts_ite (fun _ => h) fun _ => counts_fail (k := 0) (by decide)

theorem counts_count {v k : ℤ} (hk : 0 ≤ k) (hok : e.parser.httpErrno = .ok)
    (h : ∀ n ≤ S.maxHeaderSize, (case (e.onParser (·.withNread n))).Counts S) :
    (count S v k case e).Counts S := by
  rcases count_cases (S := S) case v k hok with ⟨-, e', hstop, herrno⟩ | ⟨hle, hcase⟩
  · rw [hstop]
    exact ⟨hk, fun hok => by rw [hok] at herrno; cases herrno⟩
  · rw [hcase]
    exact h _ hle

/-- A step back from a count within the limit. -/
theorem count_back (k : ℤ) (hok : e.parser.httpErrno = .ok) (hpos : 0 < e.parser.nread)
    (hread : e.parser.nread ≤ S.maxHeaderSize) (hmax : S.maxHeaderSize < 2 ^ 32 - 1) :
    count S (-1) k case e = case (e.onParser (·.withNread (e.parser.nread - 1))) := by
  have hback : (((e.parser.nread : ℤ) + -1) % 2 ^ 32).toNat = e.parser.nread - 1 := by omega
  have hcount : e.parser.countHeaderSize S.maxHeaderSize (-1) =
      e.parser.withNread (e.parser.nread - 1) := by
    unfold HttpParser.countHeaderSize
    dsimp only
    rw [hback, if_neg fun h => by omega]
    rfl
  unfold count
  dsimp only
  rw [Exec.onParser, hcount]
  exact if_neg (not_not.mpr hok)

section Cases

variable (h : e.parser.nread ≤ S.maxHeaderSize)
include h

theorem counts_loopHead (hok : e.parser.httpErrno = .ok)
    (hcase : ∀ n ≤ S.maxHeaderSize, (case (e.onParser (·.withNread n))).Counts S) :
    (loopHead S case e).Counts S :=
  counts_ite (fun _ => counts_count le_rfl hok hcase) fun _ => hcase e.parser.nread h

theorem counts_endCase : e.endCase.Counts S :=
  counts_ite (fun _ => h) fun hok => ⟨le_rfl, fun hok' => absurd hok' hok⟩

/-- A line of a message leaves the count or begins it anew. -/
theorem counts_plain : (plain ch e).Counts S := by
  have hcase : (e.parser.plainCase ch).nread ≤ S.maxHeaderSize := by
    cases hs : e.parser.state <;>
      simp only [HttpParser.plainCase, hs, HttpParser.startRes, HttpParser.startReq,
        HttpParser.reqMethod, HttpParser.resFirstHttpMajor, HttpParser.reqFirstHttpMajor,
        HttpParser.httpMajorByte, HttpParser.firstHttpMinor, HttpParser.httpMinorDigit,
        HttpParser.resHttpMinor, HttpParser.reqHttpMinor, HttpParser.resFirstStatusCode,
        HttpParser.resStatusCode, HttpParser.resStatusStart, HttpParser.resStatus,
        HttpParser.reqSpacesBeforeUrl, HttpParser.reqSchema, HttpParser.reqUrl,
        HttpParser.reqHttpStart, HttpParser.chunkSizeStart, HttpParser.chunkSize,
        HttpParser.chunkParameters, HttpParser.chunkSizeAlmostDone, HttpParser.chunkDataDone,
        HttpParser.strictByte, HttpParser.urlByte, HttpParser.assertOk]
    all_goals
      repeat' split
    all_goals first
      | exact h
      | exact Nat.zero_le _
  refine counts_endCase ?_
  rw [Exec.parser_onParser, Exec.markLine_parser]
  exact hcase

theorem counts_complete (hS : S.Restarts) :
    (e.messageComplete S).parser.nread ≤ S.maxHeaderSize := by
  rcases hS.complete (e.parser.goto e.parser.newMessage) e.user with hsame | ⟨t, hinit⟩
  · exact (congrArg HttpParser.nread hsame).trans_le h
  · exact (congrArg HttpParser.nread hinit).trans_le (Nat.zero_le _)

theorem counts_notifyComplete (hS : S.Restarts) : (notifyComplete S (.next 0) e).Counts S :=
  counts_callback (counts_complete h hS)

omit h in
theorem counts_headersDone (hS : S.Restarts) : (headersDone S ch e).Counts S := by
  have hnread : (e.onParser (·.withNread 0)).parser.nread ≤ S.maxHeaderSize := Nat.zero_le _
  have hcomplete := counts_notifyComplete hnread hS
  refine counts_ite (fun _ => counts_fail (k := 0) (by decide)) fun _ => ?_
  refine counts_ite (fun _ => counts_callback
    ⟨by decide, fun _ => counts_complete hnread hS⟩) fun _ => ?_
  refine counts_ite (fun _ => hnread) fun _ => counts_ite (fun _ => hcomplete) fun _ => ?_
  exact counts_ite (fun _ => hnread) fun _ => counts_ite (fun _ => hcomplete) fun _ => hnread

theorem counts_headerValueStart : (headerValueStart ch e).Counts S := by
  have hstart : (e.parser.withNread e.parser.nread).valueStart ch =
      (e.parser.valueStart ch).withNread e.parser.nread := HttpParser.valueStart_withNread
  exact counts_endCase ((congrArg HttpParser.nread hstart).trans_le h)

theorem counts_headerValueDiscardWs : (headerValueDiscardWs ch e).Counts S :=
  counts_ite (fun _ => h) fun _ => counts_ite (fun _ => h) fun _ =>
    counts_ite (fun _ => h) fun _ => counts_headerValueStart h

theorem counts_chunkDataAlmostDone : (chunkDataAlmostDone S ch e).Counts S := by
  refine counts_ite (fun _ => counts_fail (k := 0) (by decide)) fun _ => ?_
  refine counts_ite (fun _ => counts_fail (k := 0) (by decide)) fun _ => counts_callback ?_
  rw [Step.Counts, Exec.parser_dataBody]
  exact h

theorem counts_bodyIdentity (hS : S.Restarts) : (bodyIdentity S p e).Counts S := by
  refine counts_ite (fun _ => counts_fail (k := 0) (by decide)) fun _ =>
    counts_ite (fun _ => counts_callback (counts_after (counts_notifyComplete ?_ hS))) fun _ => h
  rw [Exec.parser_dataBody]
  exact h

theorem counts_chunkData : (chunkData p e).Counts S :=
  counts_ite (fun _ => counts_fail (k := 0) (by decide)) fun _ =>
    counts_ite (fun _ => h) fun _ => h

variable (hok : e.parser.httpErrno = .ok)
include hok

theorem counts_headersAlmostDone (hS : S.Restarts) : (headersAlmostDone S ch e).Counts S := by
  refine counts_ite (fun _ => counts_fail (k := 0) (by decide)) fun _ => ?_
  refine counts_ite (fun _ => counts_notifyComplete h hS) fun _ => ?_
  exact counts_loopHead h hok fun _ _ => counts_headersDone hS

theorem counts_headerFieldStart (hS : S.Restarts) : (headerFieldStart S ch e).Counts S := by
  refine counts_ite (fun _ => h) fun _ => counts_ite (fun _ => ?_) fun _ => ?_
  · exact counts_loopHead h hok fun _ hn => counts_headersAlmostDone hn hok hS
  · exact counts_ite (fun _ => counts_fail (k := 0) (by decide)) fun _ => h

theorem counts_headerValueLws (hS : S.Restarts) : (headerValueLws S ch e).Counts S := by
  have hmatch := finishHeader_matches e.parser
  refine counts_ite (fun _ => ?_) fun _ => ?_
  · exact counts_loopHead h hok fun _ hn => counts_headerValueStart hn
  · exact counts_loopHead (hmatch.nread.trans_le h) (hmatch.errno.trans hok)
      fun _ hn => counts_headerFieldStart hn (hmatch.errno.trans hok) hS

theorem counts_headerValueDiscardLws (hS : S.Restarts) :
    (headerValueDiscardLws S ch e).Counts S := by
  have hmatch := finishHeader_matches e.parser
  refine counts_ite (fun _ => h) fun _ => counts_callback ?_
  refine counts_loopHead ?_ ?_ fun _ hn => counts_headerFieldStart hn ?_ hS
  · rw [Exec.parser_dataHeaderValue]
    exact hmatch.nread.trans_le h
  all_goals simpa [Exec.markHeaderValue] using hmatch.errno.trans hok

theorem counts_startReqOrRes : (startReqOrRes S ch e).Counts S := by
  refine counts_ite (fun _ => h) fun _ => counts_ite (fun _ => ?_) fun _ => ?_
  · refine counts_endCase ?_
    have hparser : (e.parser.beginMessage.goto .resOrRespH).assertOk =
        e.parser.beginMessage.goto .resOrRespH := if_pos hok
    simp only [Exec.parser_onParser, hparser]
    exact h
  · exact counts_loopHead h hok fun _ hn => counts_plain hn

omit h in
/-- In a header name, where the bytes of the name are counted. -/
theorem counts_headerFieldCase (hs : e.parser.headerState.inField = true) :
    (headerFieldCase S p e).Counts S := by
  have hrun := (fieldRun_spec (HttpParser.tokenRun p) hs).1
  refine counts_count (Int.natCast_nonneg _) (hrun.errno.trans hok) fun n hn => ?_
  unfold fieldEnd
  split
  · exact hn
  · refine counts_ite (fun _ => counts_callback ?_) fun _ => counts_fail (by decide)
    rw [Step.Counts, Exec.parser_dataHeaderField]
    exact hn

omit h in
theorem counts_valueCr : (valueCr S passed e).Counts S := by
  refine counts_callback (counts_count (Int.natCast_nonneg _) ?_ fun n hn => hn)
  rw [Exec.parser_dataHeaderValue]
  exact hok

/-- At an `LF` right behind the pointer the step back is taken from the count of the byte at
    hand. -/
theorem counts_valueLf {matched : HeaderStates} (hpos : 0 < e.parser.nread)
    (hmax : S.maxHeaderSize < 2 ^ 32 - 1) : (valueLf S matched passed e).Counts S := by
  have hend : ∀ n ≤ S.maxHeaderSize, ∀ e : Exec σ, e.parser.httpErrno = .ok →
      ((loopHead S (plain lf) (e.onParser (·.withNread n))).after passed.length).Counts S :=
    fun n hn e hok => counts_after (counts_loopHead hn hok fun _ hn => counts_plain hn)
  have hdata : ∀ n, (((((e.onParser (·.goto .headerAlmostDone)).onParser (·.withNread n)).onParser
      fun parser => { parser with headerState := matched }).dataHeaderValue S passed).parser) =
        { (e.parser.goto .headerAlmostDone).withNread n with headerState := matched } :=
    fun n => Exec.parser_dataHeaderValue
  unfold valueLf
  by_cases hpassed : passed = []
  · -- nothing is counted, and then one byte less
    subst hpassed
    rcases count_cases (S := S) (e := e.onParser (·.goto .headerAlmostDone)) _
      (([] : Bytes).length : ℤ) _ hok with ⟨-, e', hstop, herrno⟩ | ⟨hle, hcase⟩
    · rw [hstop]
      exact ⟨le_rfl, fun hok => by rw [hok] at herrno; cases herrno⟩
    have hsame : ((((e.onParser (·.goto .headerAlmostDone)).parser.nread : ℤ) +
        (([] : Bytes).length : ℤ)) % 2 ^ 32).toNat = e.parser.nread := by
      rw [Exec.parser_onParser, List.length_nil]
      change ((((e.parser.nread : ℕ) : ℤ) + ((0 : ℕ) : ℤ)) % 2 ^ 32).toNat = e.parser.nread
      omega
    rw [hcase, hsame]
    refine counts_callback ?_
    rw [List.length_nil, Nat.cast_zero, zero_sub]
    rw [count_back (-1) (by rw [hdata]; exact hok) (by rw [hdata]; exact hpos)
      (by rw [hdata]; exact h) hmax]
    exact hend _ ((Nat.sub_le _ _).trans (by rw [hdata]; exact h)) _ (by rw [hdata]; exact hok)
  · have hlength : 0 < passed.length := List.length_pos_iff.mpr hpassed
    refine counts_count (Int.natCast_nonneg _) hok fun n hn => counts_callback ?_
    exact counts_count (by omega) (by rw [hdata]; exact hok) fun n hn =>
      hend n hn _ (by rw [hdata]; exact hok)

omit hok in
theorem counts_headerValueCase (hpos : 0 < e.parser.nread) (hmax : S.maxHeaderSize < 2 ^ 32 - 1) :
    (headerValueCase S p e).Counts S := by
  have hnread : (e.parser.valueRun S.maxHeaderSize p).2.nread = e.parser.nread :=
    HttpParser.valueRun_nread S.maxHeaderSize p
  unfold headerValueCase valueEnd
  dsimp only
  generalize e.parser.valueRun S.maxHeaderSize p = r at hnread ⊢
  refine counts_ite (fun herrno => ⟨Int.natCast_nonneg _, fun hok => absurd hok herrno⟩)
    fun herrno => ?_
  have hok : r.2.httpErrno = .ok := not_not.mp herrno
  split
  · exact counts_count (Int.natCast_nonneg _) hok fun n hn => hn
  · refine counts_ite (fun _ => counts_valueCr hok) fun _ => ?_
    exact counts_valueLf (hnread.trans_le h) hok (hnread.symm ▸ hpos) hmax

end Cases

/-- A round of the loop keeps the count within its limit. -/
theorem switch_counts (ch : UInt8) (rest : Bytes) (hS : S.Restarts)
    (hmax : S.maxHeaderSize < 2 ^ 32 - 1) (hready : e.Ready)
    (h : e.parser.nread ≤ S.maxHeaderSize) : (loopHead S (switch S ch rest) e).Counts S := by
  have hok := hready.valid.ok
  have hround : ∀ n ≤ S.maxHeaderSize, (e.parser.state = .headerValue → 0 < n) →
      (switch S ch rest (e.onParser (·.withNread n))).Counts S := fun n hn hpos => by
    have hread : (e.onParser (·.withNread n)).parser.nread ≤ S.maxHeaderSize := hn
    have herrno : (e.onParser (·.withNread n)).parser.httpErrno = .ok := hok
    cases hs : e.parser.state <;>
      simp only [switch, Exec.parser_onParser, HttpParser.withNread_state, hs]
    case startReqOrRes => exact counts_startReqOrRes hread herrno
    case headerFieldStart => exact counts_headerFieldStart hread herrno hS
    case headerField => exact counts_headerFieldCase herrno (hready.valid.field hs)
    case headerValueDiscardWs => exact counts_headerValueDiscardWs hread
    case headerValueStart => exact counts_headerValueStart hread
    case headerValue => exact counts_headerValueCase hread (hpos hs) hmax
    case headerValueLws => exact counts_headerValueLws hread herrno hS
    case headerValueDiscardLws => exact counts_headerValueDiscardLws hread herrno hS
    case headersAlmostDone => exact counts_headersAlmostDone hread herrno hS
    case headersDone => exact counts_headersDone hS
    case bodyIdentity => exact counts_bodyIdentity hread hS
    case bodyIdentityEof => exact hread
    case messageDone => exact counts_notifyComplete hread hS
    case chunkData => exact counts_chunkData hread
    case chunkDataAlmostDone => exact counts_chunkDataAlmostDone hread
    all_goals exact counts_plain hread
  refine counts_ite (fun _ => ?_)
    fun hs => hround e.parser.nread h fun hs' => absurd (by rw [hs']; rfl) hs
  -- the byte at hand is counted, and the sum does not wrap around
  rcases count_cases (S := S) (switch S ch rest) 1 0 hok with ⟨-, e', hstop, herrno⟩ | ⟨hle, hcase⟩
  · rw [hstop]
    exact ⟨le_rfl, fun hok => by rw [hok] at herrno; cases herrno⟩
  · rw [hcase]
    exact hround _ hle fun _ => by omega

/-! ## The loop -/

/-- A round of the loop stays within the data. -/
theorem switch_reads (ch : UInt8) (rest : Bytes) :
    (loopHead S (switch S ch rest) e).Reads (rest.length + 1) := by
  have hn : 0 < rest.length + 1 := Nat.succ_pos _
  refine reads_loopHead fun f => ?_
  unfold switch
  split
  case h_1 => exact reads_startReqOrRes hn
  case h_2 => exact reads_headerFieldStart hn
  case h_3 => exact reads_headerFieldCase
  case h_4 => exact reads_headerValueDiscardWs hn
  case h_5 => exact reads_headerValueStart hn
  case h_6 => exact reads_headerValueCase
  case h_7 => exact reads_headerValueLws hn
  case h_8 => exact reads_headerValueDiscardLws hn
  case h_9 => exact reads_headersAlmostDone hn
  case h_10 => exact reads_headersDone hn
  case h_11 => exact reads_bodyIdentity
  case h_12 => exact Nat.lt_succ_self _
  case h_13 => exact reads_notifyComplete hn
  case h_14 => exact reads_chunkData
  case h_15 => exact reads_chunkDataAlmostDone hn
  case h_16 => exact reads_plain hn

/-- All of the data is read, or a part of it before an error or an upgrade. -/
def Executed.Reads (length : ℕ) (r : Executed σ) : Prop :=
  r.parsed ≤ length ∧
    (r.parsed = length ∨ r.parser.httpErrno ≠ .ok ∨ r.upgrade = true)

theorem execLoop_reads (data : Bytes) (more : ℕ) (hmore : more ≤ data.length) :
    (execLoop S data more e).Reads data.length := by
  induction data generalizing more e with
  | nil => exact ⟨le_rfl, .inl rfl⟩
  | cons ch rest ih =>
    have hafter : ∀ {more : ℕ} {e : Exec σ}, more ≤ rest.length →
        ((execLoop S rest more e).after 1).Reads (rest.length + 1) := fun hmore => by
      obtain ⟨hle, hread⟩ := ih _ hmore
      refine ⟨?_, hread.imp_left fun h => ?_⟩ <;> simp only [Executed.after] <;> omega
    cases more with
    | succ more => exact hafter (Nat.le_of_succ_le_succ hmore)
    | zero =>
      have hround := switch_reads (S := S) (e := e) ch rest
      rw [execLoop]
      cases hstep : loopHead S (switch S ch rest) e with
      | next more e' =>
        rw [hstep] at hround
        exact hafter (Nat.le_of_lt_succ hround)
      | stop parsed upgrade e' =>
        rw [hstep] at hround
        exact ⟨hround.1, .inr hround.2⟩

theorem execute_reads (data : Bytes) (user : σ) (hdata : data ≠ []) :
    (parser.execute S data user).Reads data.length := by
  unfold HttpParser.execute
  split_ifs with hok
  · exact ⟨Int.natCast_nonneg _, .inr (.inl hok)⟩
  · exact execLoop_reads data 0 (Nat.zero_le _)

/-- No byte before the data is returned, and the count is within its limit for the next data. -/
structure Executed.Counts (S : HttpParserSettings σ) (r : Executed σ) : Prop where
  parsed : 0 ≤ r.parsed
  nread : r.parser.httpErrno = .ok → r.parser.nread ≤ S.maxHeaderSize

section Counts

variable (hS : S.Restarts) (hmax : S.maxHeaderSize < 2 ^ 32 - 1)
include hS hmax

theorem execLoop_counts (data : Bytes) (more : ℕ) (hready : e.Ready)
    (h : e.parser.nread ≤ S.maxHeaderSize) : (execLoop S data more e).Counts S := by
  induction data generalizing more e with
  | nil =>
    simp only [execLoop, hready.flush_eq, Exec.parser_dataBody, Exec.parser_dataHeaderValue,
      Exec.parser_dataHeaderField]
    exact ⟨le_rfl, fun _ => h⟩
  | cons ch rest ih =>
    have hafter : ∀ {more : ℕ} {e : Exec σ}, e.Ready → e.parser.nread ≤ S.maxHeaderSize →
        ((execLoop S rest more e).after 1).Counts S := fun hready h =>
      have hrest := ih _ hready h
      ⟨Int.add_nonneg (by decide) hrest.parsed, hrest.nread⟩
    cases more with
    | succ more => exact hafter hready h
    | zero =>
      have hcounts := switch_counts ch rest hS hmax hready h
      have hkeeps := switch_keeps ch rest hS hready
      rw [execLoop]
      cases hstep : loopHead S (switch S ch rest) e with
      | next more e' =>
        rw [hstep] at hkeeps hcounts
        exact hafter (Exec.Ready.advance hkeeps _) hcounts
      | stop parsed upgrade e' =>
        rw [hstep] at hcounts
        exact ⟨hcounts.1, hcounts.2⟩

theorem execute_counts (data : Bytes) (user : σ) (hrests : parser.Rests)
    (h : parser.httpErrno = .ok → parser.nread ≤ S.maxHeaderSize) :
    (parser.execute S data user).Counts S := by
  unfold HttpParser.execute
  split_ifs with hok hdata
  · exact ⟨le_rfl, h⟩
  · unfold executeEnd
    split
    · refine ⟨le_rfl, fun _ => ?_⟩
      rcases hS.complete parser user with hsame | ⟨t, hinit⟩
      · exact (congrArg HttpParser.nread hsame).trans_le (h (not_not.mp hok))
      · exact (congrArg HttpParser.nread hinit).trans_le (Nat.zero_le _)
    all_goals first
      | exact ⟨le_rfl, h⟩
      | exact ⟨zero_le_one, nofun⟩
  · exact execLoop_counts hS hmax data 0 (Exec.ready_begin (hrests.valid (not_not.mp hok)) user)
      (h (not_not.mp hok))

/-- In every run of a parser `http_parser_execute` returns no more than it was given and not less
    than zero, and less than it was given only with an error or at an upgrade. -/
theorem execute_parsed {events : List ParserEvent} {t : HttpParserType} {user : σ}
    {s : HttpParser × σ} (h : Run.run (parserStep S) events (.init t, user) = some s)
    {data : Bytes} (hdata : data ≠ []) :
    0 ≤ (s.1.execute S data s.2).parsed ∧ (s.1.execute S data s.2).Reads data.length := by
  have hcounts : s.1.Rests ∧ (s.1.httpErrno = .ok → s.1.nread ≤ S.maxHeaderSize) := by
    refine Run.run_preserves (P := fun s => s.1.Rests ∧ (s.1.httpErrno = .ok →
      s.1.nread ≤ S.maxHeaderSize)) (fun event s s' hstep hs => ?_) h
      ⟨rests_init t, fun _ => Nat.zero_le _⟩
    cases event with
    | init t =>
      obtain rfl : _ = s' := Option.some.inj hstep
      exact ⟨rests_init t, fun _ => Nat.zero_le _⟩
    | execute data =>
      obtain rfl : _ = s' := Option.some.inj hstep
      exact ⟨execute_rests hS data s.2 hs.1, (execute_counts hS hmax data s.2 hs.1 hs.2).nread⟩
  exact ⟨(execute_counts hS hmax data s.2 hcounts.1 hcounts.2).parsed, execute_reads data s.2 hdata⟩

end Counts

/-- The line feed right behind a value, where the pointer steps back. -/
theorem execute_parsed_lf : ∃ s, Run.run (parserStep verifySettings)
      [.execute (Example.chunked.take 40)] (.init .response, 0) = some s ∧
    s.1.state = .headerValue ∧ 0 ≤ (s.1.execute verifySettings [10] s.2).parsed ∧
      (s.1.execute verifySettings [10] s.2).Reads 1 := by
  obtain ⟨s, hs, hstate⟩ : ∃ s, Run.run (parserStep verifySettings)
      [.execute (Example.chunked.take 40)] (.init .response, 0) = some s ∧
      s.1.state = .headerValue :=
    ⟨_, rfl, by decide +kernel⟩
  exact ⟨s, hs, hstate, execute_parsed verifySettings_regular.toRestarts (by decide) hs
    (List.cons_ne_nil _ _)⟩

end Wrkx
