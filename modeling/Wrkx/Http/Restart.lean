import Wrkx.Http.Asserts

/-!
# Stopping and starting again

At the end of the data the text at hand is given to its callback, and at the start of the next
data a new text begins. To a loop that goes on it makes no difference whether this happens in
between.

## Main results

- `execLoop_agrees` — executions that differ in the text at hand only go on alike
-/

namespace Wrkx

variable {σ : Type*} {S : HttpParserSettings σ} {e e' : Exec σ} {parser : HttpParser}
  {ch : UInt8} {p rest passed : Bytes}

/-- What the callbacks have worked on when the text at hand is given to its callback. -/
def Exec.flushed (S : HttpParserSettings σ) (e : Exec σ) : σ :=
  (((e.dataHeaderField S []).dataHeaderValue S []).dataBody S []).user

/-- The same parser, and the same work done once the text at hand is given to its callback. -/
structure Exec.Agrees (S : HttpParserSettings σ) (e e' : Exec σ) : Prop where
  parser : e.parser = e'.parser
  flushed : e.flushed S = e'.flushed S

/-- Two rounds end alike. Where they return, the text at hand is lost if there is an error. -/
def Step.Agrees (S : HttpParserSettings σ) : Step σ → Step σ → Prop
  | .next more e, .next more' e' =>
    more = more' ∧ e.Agrees S e' ∧ (e.bodyMark.isSome = true ↔ e'.bodyMark.isSome = true)
  | .stop parsed upgrade e, .stop parsed' upgrade' e' =>
    parsed = parsed' ∧ upgrade = upgrade' ∧ e.parser = e'.parser ∧
      (e.parser.httpErrno = .ok → e.user = e'.user)
  | _, _ => False

theorem Step.Agrees.refl (s : Step σ) : s.Agrees S s := by
  cases s
  exacts [⟨rfl, ⟨rfl, rfl⟩, Iff.rfl⟩, ⟨rfl, rfl, rfl, fun _ => rfl⟩]

theorem Exec.flushed_of (hfield : e.headerFieldMark = none) (hvalue : e.headerValueMark = none)
    (hbody : e.bodyMark = none) : e.flushed S = e.user := by
  simp [Exec.flushed, Exec.dataHeaderField, Exec.dataHeaderValue, Exec.dataBody, hfield, hvalue,
    hbody]

/-- Without a text at hand there is nothing to differ in. -/
theorem Exec.Agrees.eq (h : e.Agrees S e') (hready : e.Ready) (hready' : e'.Ready)
    (hfield : e.parser.state ≠ .headerField) (hvalue : e.parser.state ≠ .headerValue)
    (hbody : e.parser.state.inBody = false) : e = e' := by
  have huser := h.flushed
  have hparser := h.parser
  rw [hparser] at hfield hvalue hbody
  rw [Exec.flushed_of (hready.marked.fieldMark (hparser ▸ hfield))
      (hready.marked.valueMark (hparser ▸ hvalue)) (hready.marked.noBody (hparser ▸ hbody)),
    Exec.flushed_of (hready'.marked.fieldMark hfield) (hready'.marked.valueMark hvalue)
      (hready'.marked.noBody hbody)] at huser
  have hmark := hready.marked.fieldMark (hparser ▸ hfield)
  have hmark' := hready'.marked.fieldMark hfield
  have htext := hready.marked.valueMark (hparser ▸ hvalue)
  have htext' := hready'.marked.valueMark hvalue
  have hpart := hready.marked.noBody (hparser ▸ hbody)
  have hpart' := hready'.marked.noBody hbody
  have hurl := hready.marked.url
  have hurl' := hready'.marked.url
  have hstatus := hready.marked.status
  have hstatus' := hready'.marked.status
  cases e
  cases e'
  simp_all

/-! ## Rules -/

variable {case case' : Exec σ → Step σ}

theorem agrees_callback (hparser : e.parser = e'.parser) (h : (case e).Agrees S (case' e')) :
    (e.callback case).Agrees S (e'.callback case') := by
  unfold Exec.callback
  rw [hparser]
  split_ifs
  · exact h
  · exact ⟨rfl, rfl, congrArg (·.fail .aborted) hparser, nofun⟩

theorem agrees_count {v k : ℤ} (hparser : e.parser = e'.parser)
    (h : ∀ f, (case (e.onParser f)).Agrees S (case' (e'.onParser f))) :
    (count S v k case e).Agrees S (count S v k case' e') := by
  unfold count
  dsimp only
  rw [Exec.parser_onParser, Exec.parser_onParser, hparser]
  split_ifs with herrno
  · refine ⟨rfl, rfl, ?_, fun hok => absurd ?_ herrno⟩
    · rw [Exec.parser_onParser, Exec.parser_onParser, hparser]
    · rwa [Exec.parser_onParser, hparser] at hok
  · exact h _

theorem agrees_loopHead (hparser : e.parser = e'.parser)
    (h : ∀ f, (case (e.onParser f)).Agrees S (case' (e'.onParser f))) :
    (loopHead S case e).Agrees S (loopHead S case' e') := by
  unfold loopHead
  rw [hparser]
  split_ifs
  · exact agrees_count hparser h
  · exact h id

theorem agrees_ite {p p' : Prop} [Decidable p] [Decidable p'] {s t s' t' : Step σ} (hp : p ↔ p')
    (hs : p → s.Agrees S s') (ht : ¬p → t.Agrees S t') :
    (if p then s else t).Agrees S (if p' then s' else t') := by
  by_cases h : p
  · rw [if_pos h, if_pos (hp.mp h)]
    exact hs h
  · rw [if_neg h, if_neg (hp.not.mp h)]
    exact ht h

/-! ## Texts -/

section Texts

variable {user user' : σ} {text text' : Bytes}

theorem agrees_headerField (hS : S.Regular)
    (hflushed : S.onHeaderField text user = S.onHeaderField text' user') :
    (loopHead S (headerFieldCase S p) ⟨parser, user, some text, none, none, false, false⟩).Agrees
      S (loopHead S (headerFieldCase S p)
        ⟨parser, user', some text', none, none, false, false⟩) := by
  have happend : ∀ s, S.onHeaderField (text ++ s) user = S.onHeaderField (text' ++ s) user' :=
    fun s => by rw [hS.field, hS.field, hflushed]
  refine agrees_loopHead rfl fun f => agrees_count rfl fun g => ?_
  unfold fieldEnd
  split
  · exact ⟨rfl, ⟨rfl, happend []⟩, Iff.rfl⟩
  · split_ifs
    · exact agrees_callback rfl ⟨rfl, ⟨rfl, happend _⟩, Iff.rfl⟩
    · exact ⟨rfl, rfl, rfl, nofun⟩

theorem agrees_valueEnd (hS : S.Regular) (k : ℕ) (parser' : HttpParser)
    (hflushed : S.onHeaderValue text user = S.onHeaderValue text' user') :
    (valueEnd S p k parser' ⟨parser, user, none, some text, none, false, false⟩).Agrees S
      (valueEnd S p k parser' ⟨parser, user', none, some text', none, false, false⟩) := by
  have happend : ∀ s, S.onHeaderValue (text ++ s) user = S.onHeaderValue (text' ++ s) user' :=
    fun s => by rw [hS.value, hS.value, hflushed]
  refine agrees_ite Iff.rfl (fun herrno => ⟨rfl, rfl, rfl, fun hok => absurd hok herrno⟩)
    fun _ => ?_
  split
  · exact agrees_count rfl fun g => ⟨rfl, ⟨rfl, happend []⟩, Iff.rfl⟩
  · refine agrees_ite Iff.rfl (fun _ => agrees_callback rfl ?_)
      fun _ => agrees_count rfl fun g => agrees_callback rfl ?_ <;>
    · simp only [Exec.dataHeaderValue, Exec.onParser, happend]
      exact .refl _

variable {mark mark' : Option Bytes}

/-- The body up to a pointer, when a part of it may be at hand. -/
def bodyUpTo (S : HttpParserSettings σ) (mark : Option Bytes) (user : σ) (passed : Bytes) : σ :=
  S.onBody (mark.getD [] ++ passed) user

/-- It makes no difference whether the part at hand was given to the callback before. -/
theorem bodyUpTo_eq (hS : S.Regular)
    (hflushed : Exec.flushed S ⟨parser, user, none, none, mark, false, false⟩ =
      Exec.flushed S ⟨parser, user', none, none, mark', false, false⟩) (passed : Bytes) :
    bodyUpTo S mark user passed = bodyUpTo S mark' user' passed := by
  simp only [Exec.flushed, Exec.dataHeaderField, Exec.dataHeaderValue, Exec.dataBody] at hflushed
  cases mark <;> cases mark' <;> simp only [List.append_nil] at hflushed <;>
    simp only [bodyUpTo, Option.getD_none, Option.getD_some, List.nil_append, hS.body, hflushed]

theorem takeBody_mk (toRead : ℕ) : takeBody toRead ⟨parser, user, none, none, mark, false, false⟩ =
    ⟨{ parser with contentLength := parser.contentLength - toRead }, user, none, none,
      some (mark.getD []), false, false⟩ := by
  cases mark <;> rfl

theorem agrees_bodyIdentity (hS : S.Regular)
    (hflushed : Exec.flushed S ⟨parser, user, none, none, mark, false, false⟩ =
      Exec.flushed S ⟨parser, user', none, none, mark', false, false⟩) :
    (loopHead S (bodyIdentity S p) ⟨parser, user, none, none, mark, false, false⟩).Agrees S
      (loopHead S (bodyIdentity S p) ⟨parser, user', none, none, mark', false, false⟩) := by
  have hbody := bodyUpTo_eq hS hflushed
  refine agrees_loopHead rfl fun f => ?_
  refine agrees_ite Iff.rfl (fun _ => ⟨rfl, rfl, rfl, nofun⟩) fun _ => ?_
  simp only [Exec.onParser, takeBody_mk]
  refine agrees_ite Iff.rfl (fun _ => agrees_callback rfl ?_)
    fun _ => ⟨rfl, ⟨rfl, hbody []⟩, Iff.rfl⟩
  -- the whole body is read
  have huser := hbody (p.take (min (f parser).contentLength p.length))
  simp only [bodyUpTo] at huser
  simp only [Exec.dataBody, huser]
  exact .refl _

theorem agrees_bodyIdentityEof (hS : S.Regular)
    (hflushed : Exec.flushed S ⟨parser, user, none, none, mark, false, false⟩ =
      Exec.flushed S ⟨parser, user', none, none, mark', false, false⟩) :
    (loopHead S (bodyIdentityEof p) ⟨parser, user, none, none, mark, false, false⟩).Agrees S
      (loopHead S (bodyIdentityEof p) ⟨parser, user', none, none, mark', false, false⟩) := by
  have hbody := bodyUpTo_eq hS hflushed []
  refine agrees_loopHead rfl fun f => ⟨rfl, ⟨rfl, ?_⟩, ?_⟩
  · cases mark <;> cases mark' <;> exact hbody
  · cases mark <;> cases mark' <;> exact Iff.rfl

theorem agrees_chunkData (hS : S.Regular)
    (hflushed : Exec.flushed S ⟨parser, user, none, none, mark, false, false⟩ =
      Exec.flushed S ⟨parser, user', none, none, mark', false, false⟩) :
    (loopHead S (chunkData p) ⟨parser, user, none, none, mark, false, false⟩).Agrees S
      (loopHead S (chunkData p) ⟨parser, user', none, none, mark', false, false⟩) := by
  have hbody := bodyUpTo_eq hS hflushed []
  refine agrees_loopHead rfl fun f => ?_
  refine agrees_ite Iff.rfl (fun _ => ⟨rfl, rfl, rfl, nofun⟩) fun _ => ?_
  simp only [Exec.onParser, takeBody_mk]
  exact agrees_ite Iff.rfl (fun _ => ⟨rfl, ⟨rfl, hbody⟩, Iff.rfl⟩)
    fun _ => ⟨rfl, ⟨rfl, hbody⟩, Iff.rfl⟩

theorem agrees_chunkDataAlmostDone
    (hflushed : Exec.flushed S ⟨parser, user, none, none, mark, false, false⟩ =
      Exec.flushed S ⟨parser, user', none, none, mark', false, false⟩) :
    (loopHead S (chunkDataAlmostDone S ch) ⟨parser, user, none, none, mark, false, false⟩).Agrees S
      (loopHead S (chunkDataAlmostDone S ch) ⟨parser, user', none, none, mark', false, false⟩) := by
  refine agrees_loopHead rfl fun f => ?_
  refine agrees_ite Iff.rfl (fun _ => ⟨rfl, rfl, rfl, nofun⟩) fun _ =>
    agrees_ite Iff.rfl (fun _ => ⟨rfl, rfl, rfl, nofun⟩) fun _ => agrees_callback rfl ?_
  simp only [Exec.flushed, Exec.dataHeaderField, Exec.dataHeaderValue, Exec.dataBody,
    Exec.onParser] at hflushed ⊢
  cases mark <;> cases mark' <;> simp only at hflushed ⊢ <;> rw [hflushed] <;> exact .refl _

end Texts

/-! ## The loop -/

/-- A round of the loop goes on alike, whatever part of the text at hand was given to the callback
    before. -/
theorem switch_agrees (ch : UInt8) (rest : Bytes) (hS : S.Regular) (h : e.Agrees S e')
    (hready : e.Ready) (hready' : e'.Ready) :
    (loopHead S (switch S ch rest) e).Agrees S (loopHead S (switch S ch rest) e') := by
  have hcase : ∀ case : Exec σ → Step σ,
      (∀ a : Exec σ, a.parser.state = e.parser.state → switch S ch rest a = case a) →
      (loopHead S case e).Agrees S (loopHead S case e') →
      (loopHead S (switch S ch rest) e).Agrees S (loopHead S (switch S ch rest) e') :=
    fun _ heq hagrees => by
      have hright := loopHead_congr (S := S) (e := e') fun a ha => heq a (h.parser ▸ ha)
      rwa [loopHead_congr heq, hright]
  have heq := h.eq hready hready'
  obtain ⟨parser, user, fieldMark, valueMark, bodyMark, urlMark, statusMark⟩ := e
  obtain ⟨parser', user', fieldMark', valueMark', bodyMark', urlMark', statusMark'⟩ := e'
  obtain rfl : parser = parser' := h.parser
  have hflushed := h.flushed
  cases hs : parser.state
  case headerField =>
    obtain ⟨text, rfl, rfl, rfl, rfl, rfl⟩ := hready.marked.headerField hs
    obtain ⟨text', rfl, rfl, rfl, rfl, rfl⟩ := hready'.marked.headerField hs
    refine hcase (headerFieldCase S (ch :: rest)) (fun e he => ?_) (agrees_headerField hS ?_)
    · rw [switch, he, hs]
    · simpa [Exec.flushed, Exec.dataHeaderField, Exec.dataHeaderValue, Exec.dataBody] using hflushed
  case headerValue =>
    obtain ⟨text, rfl, rfl, rfl, rfl, rfl⟩ := hready.marked.headerValue hs
    obtain ⟨text', rfl, rfl, rfl, rfl, rfl⟩ := hready'.marked.headerValue hs
    refine hcase (headerValueCase S (ch :: rest)) (fun e he => ?_)
      (agrees_loopHead rfl fun f => agrees_valueEnd hS _ _ ?_)
    · rw [switch, he, hs]
    · simpa [Exec.flushed, Exec.dataHeaderField, Exec.dataHeaderValue, Exec.dataBody] using hflushed
  case bodyIdentity =>
    obtain ⟨rfl, rfl, rfl, rfl⟩ := hready.marked.inBody (by rw [hs]; rfl)
    obtain ⟨rfl, rfl, rfl, rfl⟩ := hready'.marked.inBody (by rw [hs]; rfl)
    exact hcase _ (fun e he => by rw [switch, he, hs]) (agrees_bodyIdentity hS hflushed)
  case bodyIdentityEof =>
    obtain ⟨rfl, rfl, rfl, rfl⟩ := hready.marked.inBody (by rw [hs]; rfl)
    obtain ⟨rfl, rfl, rfl, rfl⟩ := hready'.marked.inBody (by rw [hs]; rfl)
    exact hcase _ (fun e he => by rw [switch, he, hs]) (agrees_bodyIdentityEof hS hflushed)
  case chunkData =>
    obtain ⟨rfl, rfl, rfl, rfl⟩ := hready.marked.inBody (by rw [hs]; rfl)
    obtain ⟨rfl, rfl, rfl, rfl⟩ := hready'.marked.inBody (by rw [hs]; rfl)
    exact hcase _ (fun e he => by rw [switch, he, hs]) (agrees_chunkData hS hflushed)
  case chunkDataAlmostDone =>
    obtain ⟨rfl, rfl, rfl, rfl⟩ := hready.marked.inBody (by rw [hs]; rfl)
    obtain ⟨rfl, rfl, rfl, rfl⟩ := hready'.marked.inBody (by rw [hs]; rfl)
    exact hcase _ (fun e he => by rw [switch, he, hs]) (agrees_chunkDataAlmostDone hflushed)
  all_goals
    -- there is no text at hand
    rw [heq (by rw [hs]; decide) (by rw [hs]; decide) (by rw [hs]; rfl)]
    exact .refl _

theorem Exec.Agrees.advance (hS : S.Regular) (h : e.Agrees S e') (hready : e.Ready)
    (hready' : e'.Ready) (hbody : e.bodyMark.isSome = true ↔ e'.bodyMark.isSome = true)
    (passed : Bytes) : (e.advance passed).Agrees S (e'.advance passed) := by
  obtain ⟨parser, user, fieldMark, valueMark, bodyMark, urlMark, statusMark⟩ := e
  obtain ⟨parser', user', fieldMark', valueMark', bodyMark', urlMark', statusMark'⟩ := e'
  obtain rfl : parser = parser' := h.parser
  have hflushed := h.flushed
  refine ⟨rfl, ?_⟩
  by_cases hfield : parser.state = .headerField
  · obtain ⟨text, rfl, rfl, rfl, -⟩ := hready.marked.headerField hfield
    obtain ⟨text', rfl, rfl, rfl, -⟩ := hready'.marked.headerField hfield
    simpa [Exec.flushed, Exec.dataHeaderField, Exec.dataHeaderValue, Exec.dataBody, Exec.advance,
      hS.field] using congrArg (S.onHeaderField passed) hflushed
  obtain rfl : fieldMark = none := hready.marked.fieldMark hfield
  obtain rfl : fieldMark' = none := hready'.marked.fieldMark hfield
  by_cases hvalue : parser.state = .headerValue
  · obtain ⟨text, rfl, -, rfl, -⟩ := hready.marked.headerValue hvalue
    obtain ⟨text', rfl, -, rfl, -⟩ := hready'.marked.headerValue hvalue
    simpa [Exec.flushed, Exec.dataHeaderField, Exec.dataHeaderValue, Exec.dataBody, Exec.advance,
      hS.value] using congrArg (S.onHeaderValue passed) hflushed
  obtain rfl : valueMark = none := hready.marked.valueMark hvalue
  obtain rfl : valueMark' = none := hready'.marked.valueMark hvalue
  cases bodyMark <;> cases bodyMark'
  case none.none => exact hflushed
  case some.some =>
    simpa [Exec.flushed, Exec.dataHeaderField, Exec.dataHeaderValue, Exec.dataBody, Exec.advance,
      hS.body] using congrArg (S.onBody passed) hflushed
  all_goals simp at hbody

/-- The same is left. The text at hand is lost if there is an error. -/
structure Executed.Agrees (r r' : Executed σ) : Prop where
  parsed : r.parsed = r'.parsed
  parser : r.parser = r'.parser
  upgrade : r.upgrade = r'.upgrade
  user : r.parser.httpErrno = .ok → r.user = r'.user

theorem Executed.Agrees.after {r r' : Executed σ} (h : r.Agrees r') (k : ℤ) :
    (r.after k).Agrees (r'.after k) :=
  ⟨congrArg (k + ·) h.parsed, h.parser, h.upgrade, h.user⟩

/-- At the end of the data the texts at hand go to their callbacks. -/
theorem execLoop_nil (h : e.Ready) (more : ℕ) :
    execLoop S [] more e = ⟨0, e.parser, e.flushed S, false⟩ := by
  simp [execLoop, h.flush_eq, Exec.flushed]

/-- Executions that differ in the text at hand only go on alike. -/
theorem execLoop_agrees (hS : S.Regular) (data : Bytes) (more : ℕ) (h : e.Agrees S e')
    (hready : e.Ready) (hready' : e'.Ready) :
    (execLoop S data more e).Agrees (execLoop S data more e') := by
  induction data generalizing more e e' with
  | nil =>
    refine ⟨rfl, ?_, rfl, fun _ => ?_⟩ <;>
      simp only [execLoop, hready.flush_eq, hready'.flush_eq]
    · simpa using h.parser
    · exact h.flushed
  | cons ch rest ih =>
    -- The rounds end alike, so both sides pass the same bytes before the next.
    cases more with
    | succ more => exact (ih more h hready hready').after 1
    | zero =>
      have hstep := switch_agrees ch rest hS h hready hready'
      have hkeeps := switch_keeps ch rest hS.toRestarts hready
      have hkeeps' := switch_keeps ch rest hS.toRestarts hready'
      rw [execLoop, execLoop]
      cases hround : loopHead S (switch S ch rest) e <;>
        cases hround' : loopHead S (switch S ch rest) e' <;> rw [hround, hround'] at hstep <;>
        rw [hround] at hkeeps <;> rw [hround'] at hkeeps'
      case next.next =>
        obtain ⟨rfl, hagrees, hbody⟩ := hstep
        have hadvance := hagrees.advance hS hkeeps hkeeps' hbody
        exact (ih _ (hadvance _) (Exec.Ready.advance hkeeps _)
          (Exec.Ready.advance hkeeps' _)).after 1
      case stop.stop =>
        obtain ⟨rfl, rfl, hparser, huser⟩ := hstep
        exact ⟨rfl, hparser, rfl, huser⟩
      all_goals exact hstep.elim

theorem Exec.agrees_begin (hS : S.Regular) (h : e.Ready) :
    e.Agrees S (.begin e.parser (e.flushed S)) := by
  obtain ⟨parser, user, fieldMark, valueMark, bodyMark, urlMark, statusMark⟩ := e
  refine ⟨rfl, ?_⟩
  by_cases hfield : parser.state = .headerField
  · obtain ⟨text, rfl, rfl, rfl, -⟩ := h.marked.headerField hfield
    simp [Exec.begin, Exec.flushed, Exec.dataHeaderField, Exec.dataHeaderValue, Exec.dataBody,
      hfield, ← hS.field]
  obtain rfl : fieldMark = none := h.marked.fieldMark hfield
  by_cases hvalue : parser.state = .headerValue
  · obtain ⟨text, rfl, -, rfl, -⟩ := h.marked.headerValue hvalue
    simp [Exec.begin, Exec.flushed, Exec.dataHeaderField, Exec.dataHeaderValue, Exec.dataBody,
      hvalue, ← hS.value]
  obtain rfl : valueMark = none := h.marked.valueMark hvalue
  simp [Exec.begin, Exec.flushed, Exec.dataHeaderField, Exec.dataHeaderValue, hfield, hvalue,
    Exec.dataBody]

/-- The loop goes on as if the text at hand had been given to its callback and the rest of the
    data were the next data. -/
theorem execLoop_begin (hS : S.Regular) (data : Bytes) (h : e.Ready) :
    (execLoop S data 0 e).Agrees (execLoop S data 0 (.begin e.parser (e.flushed S))) :=
  execLoop_agrees hS data 0 (Exec.agrees_begin hS h) h (Exec.ready_begin h.valid _)

end Wrkx
