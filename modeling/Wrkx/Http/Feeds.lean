import Wrkx.Http.Cuts
import Wrkx.Http.Values

/-!
# Bytes of a message

What the parser makes of some bytes, when it reads them one by one and there is no limit on the
headers. With `reads_cut` this is what it makes of them in any reads.

## Main results

- `Takes.append`, `Takes.each` — texts one after the other
- `feeds_byte` — the rule for a byte
- `takes_number` — numbers, digit by digit
-/

namespace Wrkx

variable {σ : Type*} {S : HttpParserSettings σ} {parser : HttpParser} {user : σ}
  {data data' text run : Bytes} {Q Q' : HttpParser → σ → Prop} {ch : UInt8} {s : State}

/-! ## Texts -/

/-- The bytes bring the parser to one with `Q`, whatever its count, and no error occurs. -/
def Feeds (S : HttpParserSettings σ) (data : Bytes) (parser : HttpParser) (user : σ)
    (Q : HttpParser → σ → Prop) : Prop :=
  ∃ parser' user', parser'.Valid ∧ Q parser' user' ∧
    (parser.executeUntil S.unlimited (data.map ([·])) user).Alike
      ⟨data.length, parser', user', false⟩

theorem HttpParser.Valid.rests (h : parser.Valid) : parser.Rests :=
  ⟨by rw [h.ok]; decide, fun _ => h⟩

theorem Feeds.nil (h : parser.Valid) (hQ : Q parser user) : Feeds S [] parser user Q :=
  ⟨parser, user, h, hQ, .refl _⟩

theorem Feeds.mono (h : Feeds S data parser user Q)
    (hQ : ∀ parser user, parser.Valid → Q parser user → Q' parser user) :
    Feeds S data parser user Q' := by
  obtain ⟨parser', user', hvalid, hpost, halike⟩ := h
  exact ⟨parser', user', hvalid, hQ _ _ hvalid hpost, halike⟩

theorem Feeds.append (hS : S.Tame) (hvalid : parser.Valid) (h : Feeds S data parser user Q)
    (hnext : ∀ parser user, parser.Valid → Q parser user → Feeds S data' parser user Q') :
    Feeds S (data ++ data') parser user Q' := by
  obtain ⟨parser', user', hvalid', hQ, halike⟩ := h
  obtain ⟨last, lastUser, hlast, hQ', hrest⟩ := hnext parser' user' hvalid' hQ
  refine ⟨last, lastUser, hlast, hQ', ?_⟩
  have hok : (parser.executeUntil S.unlimited (data.map ([·])) user).parser.httpErrno = .ok :=
    halike.parser.httpErrno.symm.trans hvalid'.ok
  have hbytes : ∀ d ∈ data'.map ([·]), d.length < 2 ^ 32 := fun d hd => by
    obtain ⟨c, -, rfl⟩ := List.mem_map.mp hd
    exact Nat.one_lt_two_pow (by decide)
  rw [List.map_append, executeUntil_append, Executed.andThen_of_ok ⟨hok, halike.upgrade⟩,
    halike.user hok, halike.parsed, List.length_append]
  exact ((executeUntil_near hS _ halike.parser (executeUntil_rests hS.unlimited _ hvalid.rests)
    hvalid'.rests hbytes).alike.trans hrest).after data.length

/-! ## One byte -/

/-- The count matters at the start of a chunk only. -/
theorem HttpParser.Valid.withNread_zero (h : parser.Valid) : (parser.withNread 0).Valid :=
  { h with nread := fun _ => rfl }

/-- A byte that a round of the loop reads without an error. -/
theorem feeds_round (hS : S.Tame) (h : parser.Valid)
    (hround : ∃ e, loopHead S.unlimited (switch S.unlimited ch []) (.begin parser user) =
      .next 0 e ∧ Q (e.parser.withNread 0) ((e.advance [ch]).flushed S)) :
    Feeds S [ch] parser user Q := by
  have hkeeps := switch_keeps ch [] hS.unlimited.toRestarts (Exec.ready_begin h user)
  obtain ⟨e, hround, hQ⟩ := hround
  rw [hround] at hkeeps
  have hadvance : (e.advance [ch]).Ready := Exec.Ready.advance hkeeps _
  refine ⟨e.parser.withNread 0, _, hkeeps.valid.withNread_zero, hQ, ?_⟩
  rw [List.map_singleton, executeUntil_singleton, execute_of_ready h.ok (List.cons_ne_nil _ _),
    execLoop, hround]
  change Executed.Alike ((execLoop S.unlimited [] 0 (e.advance [ch])).after 1) _
  rw [execLoop_nil hadvance]
  exact ⟨rfl, ⟨0, rfl⟩, rfl, fun _ => rfl⟩

/-- A byte that the case at hand reads without an error, whatever the count. -/
theorem feeds_byte (hS : S.Tame) (h : parser.Valid)
    (hcase : ∀ n, (parser.state = .chunkSizeStart → n = 1) → ∃ e,
      switch S.unlimited ch [] ((Exec.begin parser user).onParser (·.withNread n)) = .next 0 e ∧
        Q (e.parser.withNread 0) ((e.advance [ch]).flushed S)) :
    Feeds S [ch] parser user Q := by
  refine feeds_round hS h ?_
  obtain ⟨n, hhead, hn⟩ := (loopHead_cases (S := S.unlimited) (e := Exec.begin parser user)
    (switch S.unlimited ch []) h.ok).resolve_left fun hover => lt_irrefl _ hover.1
  rw [hhead]
  refine hcase n fun hs => ?_
  rw [(hn (by change parser.state.parsingHeader = true; rw [hs]; rfl)).1]
  change (parser.nread + 1) % 2 ^ 32 = 1
  rw [h.nread hs]
  rfl

theorem flushed_advance {e : Exec σ} (hfield : e.headerFieldMark = none)
    (hvalue : e.headerValueMark = none) (hbody : e.bodyMark = none) :
    (e.advance [ch]).flushed S = e.user :=
  Exec.flushed_of (congrArg (Option.map (· ++ [ch])) hfield)
    (congrArg (Option.map (· ++ [ch])) hvalue) (congrArg (Option.map (· ++ [ch])) hbody)

/-- A byte of a line. -/
theorem feeds_plain (hS : S.Tame) (h : parser.Valid) (hs : parser.state.plain = true)
    (hstart : parser.state ≠ .chunkSizeStart) (hok : (parser.plainCase ch).httpErrno = .ok)
    (hQ : Q ((parser.plainCase ch).withNread 0) user) : Feeds S [ch] parser user Q := by
  refine feeds_byte hS h fun n _ => ?_
  have hfield : (Exec.begin parser user).headerFieldMark = none :=
    if_neg fun h => by rw [h] at hs; cases hs
  have hvalue : (Exec.begin parser user).headerValueMark = none :=
    if_neg fun h => by rw [h] at hs; cases hs
  obtain ⟨m, hm⟩ : (parser.plainCase ch).Near ((parser.withNread n).plainCase ch) :=
    HttpParser.near_plainCase ch fun h => absurd h hstart
  have hmark : ((Exec.begin parser user).onParser (·.withNread n)).markLine ch =
      ((Exec.begin parser user).markLine ch).onParser (·.withNread n) :=
    Exec.markLine_onParser rfl
  rw [switch_plain hs, plain, hmark]
  obtain ⟨hfield', hvalue', hbody'⟩ := (Exec.begin parser user).markLine_marks ch
  have hparser : ((Exec.begin parser user).markLine ch).parser = parser := Exec.markLine_parser
  have huser : ((Exec.begin parser user).markLine ch).user = user := Exec.markLine_user _ ch
  rw [hfield] at hfield'
  rw [hvalue] at hvalue'
  generalize (Exec.begin parser user).markLine ch = e at *
  have hcase : (e.onParser (·.withNread n)).onParser (·.plainCase ch) =
      e.onParser fun _ => (parser.plainCase ch).withNread m := by
    rw [← hm, ← hparser]
    rfl
  have huser : ((e.onParser fun _ => (parser.plainCase ch).withNread m).advance [ch]).flushed S =
      user :=
    (flushed_advance (e := e.onParser _) hfield' hvalue' hbody').trans huser
  rw [hcase]
  refine ⟨_, if_pos hok, ?_⟩
  rw [huser]
  exact hQ

/-! ## Triples -/

/-- From a parser with `P` the bytes bring it to one with `Q`. -/
def Takes (S : HttpParserSettings σ) (data : Bytes) (P Q : HttpParser → σ → Prop) : Prop :=
  ∀ parser user, parser.Valid → P parser user → Feeds S data parser user Q

variable {P P' R : HttpParser → σ → Prop}

theorem Takes.nil (h : ∀ parser user, parser.Valid → P parser user → Q parser user) :
    Takes S [] P Q := fun parser user hvalid hP => .nil hvalid (h parser user hvalid hP)

theorem Takes.mono (h : Takes S data P Q)
    (hQ : ∀ parser user, parser.Valid → Q parser user → Q' parser user) : Takes S data P Q' :=
  fun parser user hvalid hP => (h parser user hvalid hP).mono hQ

theorem Takes.weaken (h : Takes S data P Q)
    (hP : ∀ parser user, parser.Valid → P' parser user → P parser user) : Takes S data P' Q :=
  fun parser user hvalid hP' => h parser user hvalid (hP parser user hvalid hP')

theorem Takes.append (hS : S.Tame) (h : Takes S data P Q) (h' : Takes S data' Q R) :
    Takes S (data ++ data') P R := fun parser user hvalid hP =>
  (h parser user hvalid hP).append hS hvalid fun parser user => h' parser user

theorem Takes.cons (hS : S.Tame) (h : Takes S [ch] P Q) (h' : Takes S data Q R) :
    Takes S (ch :: data) P R := h.append hS h'

/-- Bytes that each lead on from what was read before. -/
theorem Takes.each {A : Bytes → HttpParser → σ → Prop} (hS : S.Tame) (text : Bytes)
    (h : ∀ text ch, ch ∈ run → Takes S [ch] (A text) (A (text ++ [ch]))) :
    Takes S run (A text) (A (text ++ run)) := by
  induction run generalizing text with
  | nil =>
    rw [List.append_nil]
    exact .nil fun _ _ _ h => h
  | cons ch run ih =>
    rw [List.append_cons]
    exact (h text ch List.mem_cons_self).cons hS
      (ih _ fun text c hc => h text c (List.mem_cons_of_mem _ hc))

/-- Digits, each of which brings in the next place of a number. -/
theorem takes_digits {A : ℕ → HttpParser → σ → Prop} {D : UInt8 → Prop} {base max : ℕ}
    (hS : S.Tame) (hbase : 0 < base)
    (hmore : ∀ n d, D d → n * base + CString.digitValue d ≤ max →
      Takes S [d] (A n) (A (n * base + CString.digitValue d)))
    (run text : Bytes) (hrun : ∀ c ∈ run, D c) (hmax : CString.value base (text ++ run) ≤ max) :
    Takes S run (A (CString.value base text)) (A (CString.value base (text ++ run))) := by
  induction run generalizing text with
  | nil =>
    rw [List.append_nil]
    exact .nil fun _ _ _ h => h
  | cons c run ih =>
    rw [List.append_cons] at hmax ⊢
    have hle := (CString.value_le_append base hbase (text ++ [c]) run).trans hmax
    refine Takes.cons hS ?_ (ih _ (fun c hc => hrun c (List.mem_cons_of_mem _ hc)) hmax)
    rw [CString.value_concat] at hle ⊢
    exact hmore _ c (hrun c List.mem_cons_self) hle

/-- A number, from its first digit on. -/
theorem takes_number {A : ℕ → HttpParser → σ → Prop} {D : UInt8 → Prop} {base max : ℕ}
    (hS : S.Tame) (hbase : 0 < base) (hfirst : ∀ d, D d → Takes S [d] P (A (CString.digitValue d)))
    (hmore : ∀ n d, D d → n * base + CString.digitValue d ≤ max →
      Takes S [d] (A n) (A (n * base + CString.digitValue d)))
    (hdigits : ∀ c ∈ run, D c) (hrun : run ≠ []) (hmax : CString.value base run ≤ max) :
    Takes S run P (A (CString.value base run)) := by
  obtain ⟨d, rest, rfl⟩ := List.exists_cons_of_ne_nil hrun
  have hone : CString.value base [d] = CString.digitValue d := by
    rw [← List.nil_append [d], CString.value_concat]
    exact (congrArg (· + _) (Nat.zero_mul base)).trans (Nat.zero_add _)
  have hrest := takes_digits hS hbase hmore rest [d]
    (fun c hc => hdigits c (List.mem_cons_of_mem _ hc)) hmax
  rw [hone] at hrest
  exact (hfirst d (hdigits d List.mem_cons_self)).cons hS hrest

end Wrkx
