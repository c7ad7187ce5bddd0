import Wrkx.Connection.Delivery
import Wrkx.Http.Phases
import Wrkx.Http.Responses

/-!
# Responses on the wire

What a program on top of the parser hears when responses come in. It hears the callbacks in the
order that the connection counts on, and from well-formed responses it has the status, the headers
and the body of each of them, however their bytes are cut into reads.

## Main results

- `callbacks_ordered` — the order of the callbacks
- `responses_recorded` — responses that are written and parsed again
-/

namespace Wrkx

/-! ## The order of the callbacks -/

/-- A callback of the parser. `last` tells that it is left in `s_dead`, where it expects no
    further message. -/
inductive Told
  | name (piece : Bytes)
  | value (piece : Bytes)
  | body (piece : Bytes)
  | complete (last : Bool)
deriving DecidableEq

/-- The phase after a callback, if it may come: a value only to a name, the body and the end of a
    message only when every name has its value, and nothing after the last message. -/
def Phase.next : Phase → Told → Option Phase
  | .over, _ => none
  | _, .name _ => some .naming
  | .outside, .value _ => none
  | _, .value _ => some .valuing
  | .naming, _ => none
  | _, .body _ => some .outside
  | _, .complete last => some (if last then .over else .outside)

/-- The phase after some callbacks, the last one first. -/
def phaseOf : List Told → Option Phase
  | [] => some .outside
  | told :: older => (phaseOf older).bind (·.next told)

/-- The callbacks of a program, which are also written down. -/
def HttpParserSettings.noting {σ : Type*} (S : HttpParserSettings σ) :
    HttpParserSettings (σ × List Told) where
  maxHeaderSize := S.maxHeaderSize
  onHeaderField piece v := (S.onHeaderField piece v.1, .name piece :: v.2)
  onHeaderValue piece v := (S.onHeaderValue piece v.1, .value piece :: v.2)
  onBody piece v := (S.onBody piece v.1, .body piece :: v.2)
  onMessageComplete parser v :=
    let after := S.onMessageComplete parser v.1
    (after.1, after.2, .complete (after.1.state = .dead) :: v.2)

variable {σ : Type*} {S : HttpParserSettings σ}

/-- What was written down leads to a phase, and a value that is complete leads out of its header. -/
def Noted (phase : Phase) (u : σ) (v : σ × List Told) : Prop :=
  v.1 = u ∧ (phaseOf v.2 = some phase ∨ phase = .outside ∧ phaseOf v.2 = some .valuing)

theorem mirrors_noting (S : HttpParserSettings σ) : S.Mirrors S.noting Noted where
  maxHeaderSize := rfl
  field := by
    rintro piece u ⟨_, log⟩ (⟨rfl, hlog | ⟨-, hlog⟩⟩ | ⟨rfl, hlog | ⟨h, -⟩⟩)
    · exact ⟨rfl, .inl (by simp [HttpParserSettings.noting, phaseOf, hlog, Phase.next])⟩
    · exact ⟨rfl, .inl (by simp [HttpParserSettings.noting, phaseOf, hlog, Phase.next])⟩
    · exact ⟨rfl, .inl (by simp [HttpParserSettings.noting, phaseOf, hlog, Phase.next])⟩
    · cases h
  value := by
    rintro piece u ⟨_, log⟩ (⟨rfl, hlog | ⟨h, -⟩⟩ | ⟨rfl, hlog | ⟨h, -⟩⟩)
    · exact ⟨rfl, .inl (by simp [HttpParserSettings.noting, phaseOf, hlog, Phase.next])⟩
    · cases h
    · exact ⟨rfl, .inl (by simp [HttpParserSettings.noting, phaseOf, hlog, Phase.next])⟩
    · cases h
  valued := by
    rintro u ⟨_, log⟩ ⟨rfl, hlog | ⟨h, -⟩⟩
    · exact ⟨rfl, .inr ⟨rfl, hlog⟩⟩
    · cases h
  body := by
    rintro piece u ⟨_, log⟩ ⟨rfl, hlog | ⟨-, hlog⟩⟩ <;>
      exact ⟨rfl, .inl (by simp [HttpParserSettings.noting, phaseOf, hlog, Phase.next])⟩
  complete := by
    rintro parser u ⟨_, log⟩ - ⟨rfl, hlog | ⟨-, hlog⟩⟩ <;>
      exact ⟨rfl, rfl, .inl (by simp [HttpParserSettings.noting, phaseOf, hlog, Phase.next])⟩

/-- Over any reads and through any errors the callbacks come in their order, and to write them down
    changes nothing. -/
theorem callbacks_ordered (hS : S.Restarts) (t : HttpParserType) (reads : List Bytes) (user : σ) :
    ((HttpParser.init t).executeAll S.noting reads (user, [])).parser =
        ((HttpParser.init t).executeAll S reads user).parser ∧
      ((HttpParser.init t).executeAll S.noting reads (user, [])).user.1 =
        ((HttpParser.init t).executeAll S reads user).user ∧
      phaseOf ((HttpParser.init t).executeAll S.noting reads (user, [])).user.2 ≠ none := by
  have hstart : Noted .outside user (user, []) := ⟨rfl, .inl rfl⟩
  have houtside : (HttpParser.init t).state.outside = true := by cases t <;> rfl
  have hmirrors := executeAll_mirrors hS (mirrors_noting S) reads (rests_init t) ⟨_, hstart⟩
    fun _ => (State.tells_of_outside houtside).mpr hstart
  obtain ⟨phase, huser, hlog⟩ := hmirrors.related
  refine ⟨hmirrors.parser.symm, huser, ?_⟩
  rcases hlog with hlog | ⟨-, hlog⟩ <;>
    · rw [hlog]
      nofun

/-- The header name, its value and the chunk come in pieces. -/
theorem callbacks_ordered_verify :
    (((HttpParser.init .response).executeAll verifySettings.noting
        [Example.chunked.take 25, (Example.chunked.take 40).drop 25,
          (Example.chunked.take 50).drop 40, Example.chunked.drop 50] (0, [])).user.2 =
      [.complete false, .body [1], .body [0], .value (chunkedWord.drop 5),
        .value (chunkedWord.take 5), .name (transferEncodingWord.drop 8),
        .name (transferEncodingWord.take 8)]) ∧
    phaseOf ((HttpParser.init .response).executeAll verifySettings.noting
      [Example.chunked.take 25, (Example.chunked.take 40).drop 25,
        (Example.chunked.take 50).drop 40, Example.chunked.drop 50] (0, [])).user.2 ≠ none :=
  ⟨by decide +kernel, (callbacks_ordered verifySettings_regular.toRestarts .response _ 0).2.2⟩

/-! ## Responses written and parsed again -/

/-- What a program has heard that keeps every response, and of the response in progress. -/
structure Heard where
  done : List Delivery
  message : Message
deriving DecidableEq

/-- A response is complete. -/
def Heard.finish (status : ℕ) (heard : Heard) : Heard :=
  ⟨heard.done ++ [⟨status, heard.message.fields.reverse, heard.message.body, false⟩], .empty⟩

/-- The callbacks of a program that keeps every response and starts the parser again as
    `response_complete` does. -/
def recorder : HttpParserSettings Heard where
  maxHeaderSize := httpMaxHeaderSize
  onHeaderField piece heard := { heard with message := heard.message.addName piece }
  onHeaderValue piece heard := { heard with message := heard.message.addValue piece }
  onBody piece heard := { heard with message := heard.message.addBody piece }
  onMessageComplete parser heard :=
    (if parser.shouldKeepAlive then .init .response else parser, heard.finish parser.statusCode)

theorem Message.addName_append (s t : Bytes) (m : Message) :
    m.addName (s ++ t) = (m.addName s).addName t := by
  simp [Message.addName]

theorem Message.addValue_append (s t : Bytes) (m : Message) :
    m.addValue (s ++ t) = (m.addValue s).addValue t := by
  obtain ⟨fields, name, body⟩ := m
  cases name with
  | some name => rfl
  | none =>
    cases fields with
    | nil => rfl
    | cons field fields => simp [Message.addValue]

theorem recorder_regular : recorder.Regular where
  complete parser heard := by
    unfold recorder
    dsimp only
    split_ifs
    · exact .inr ⟨_, rfl⟩
    · exact .inl rfl
  blind parser heard := by
    have hkeep : (parser.withNread 0).shouldKeepAlive = parser.shouldKeepAlive := rfl
    unfold recorder
    dsimp only
    rw [hkeep]
    split_ifs <;> rfl
  field s t heard := congrArg (Heard.mk _) (Message.addName_append s t _)
  value s t heard := congrArg (Heard.mk _) (Message.addValue_append s t _)
  body s t heard := by simp [recorder, Message.addBody]

theorem recorder_answers : recorder.Answers fun status _ heard => heard.finish status where
  parser parser heard := by
    unfold recorder
    dsimp only
    split_ifs with hkeep
    · exact .inr ⟨hkeep, rfl⟩
    · exact .inl rfl
  user _ _ := rfl

/-- A read of the connection fits. -/
theorem recorder_fits {length : ℕ} (h : length ≤ recvbuf) : recorder.Fits length := by
  have hmax : recorder.maxHeaderSize = 80 * 1024 := rfl
  unfold recvbuf at h
  exact ⟨by omega, by omega⟩

/-- The header on a line. -/
def HeaderLine.field (line : HeaderLine) : Bytes × Bytes := (line.header.name, line.header.value)

/-- What is to be heard of a response. -/
def HttpResponse.delivery (r : HttpResponse) : Delivery :=
  ⟨r.statusCode, r.lines.map HeaderLine.field ++ r.body.trailers.map HeaderLine.field, r.body.data,
    false⟩

theorem told_recorder (lines : List HeaderLine) (done : List Delivery)
    (fields : List (Bytes × Bytes)) (body : Bytes) :
    HeaderLine.told recorder lines ⟨done, fields, none, body⟩ =
      ⟨done, (lines.map HeaderLine.field).reverse ++ fields, none, body⟩ := by
  induction lines generalizing fields with
  | nil => rfl
  | cons line lines ih =>
    have hline : line.header.told recorder ⟨done, fields, none, body⟩ =
        ⟨done, line.field :: fields, none, body⟩ := rfl
    rw [HeaderLine.told, List.foldl_cons, hline]
    exact (ih _).trans (by simp)

theorem bodyTold_recorder (data : Bytes) (done : List Delivery) (m : Message) :
    bodyTold recorder data ⟨done, m⟩ = ⟨done, m.addBody data⟩ := by
  unfold bodyTold
  split_ifs with hnil
  · simp [hnil, Message.addBody]
  · rfl

/-- A response is heard as it was written. -/
theorem heard_response (r : HttpResponse) (done : List Delivery) :
    r.told recorder (fun status _ heard => heard.finish status) ⟨done, .empty⟩ =
      ⟨done ++ [r.delivery], .empty⟩ := by
  have hlines : HeaderLine.told recorder r.lines ⟨done, .empty⟩ =
      ⟨done, (r.lines.map HeaderLine.field).reverse ++ [], none, []⟩ :=
    told_recorder r.lines done [] []
  rw [HttpResponse.told, HttpResponse.toldBody, hlines, bodyTold_recorder, Message.addBody,
    told_recorder, Heard.finish]
  simp [HttpResponse.delivery]

theorem heard_responses (responses : List HttpResponse) (done : List Delivery) :
    responses.foldl
      (fun heard r => r.told recorder (fun status _ heard => heard.finish status) heard)
        ⟨done, .empty⟩ = ⟨done ++ responses.map HttpResponse.delivery, .empty⟩ := by
  induction responses generalizing done with
  | nil => simp
  | cons r responses ih =>
    rw [List.foldl_cons, heard_response, ih]
    simp

/-- Responses that are written one after the other and come in any reads, up to the end of the
    connection, are parsed to their status, headers and body, unless the limit on the headers is
    exceeded. -/
theorem responses_recorded {responses : List HttpResponse}
    (hresponses : ∀ r ∈ responses, r.WellFormed)
    (hkeep : ∀ r ∈ responses.dropLast, r.keepAlive = true) {reads : List Bytes}
    (hreads : ∀ data ∈ reads, data ≠ [] ∧ data.length ≤ recvbuf)
    (hbytes : reads.flatten = responses.flatMap HttpResponse.text) :
    ((HttpParser.init .response).executeAll recorder (reads ++ [[]]) ⟨[], .empty⟩).Overflows
        recorder ∨
      ∃ parser : HttpParser, parser.httpErrno = .ok ∧
        (HttpParser.init .response).executeAll recorder (reads ++ [[]]) ⟨[], .empty⟩ =
          ⟨reads.flatten.length, parser, ⟨responses.map HttpResponse.delivery, .empty⟩, false⟩ := by
  have hreceived := responses_received recorder_regular recorder_answers hresponses hkeep
    (fun data hdata => ⟨(hreads data hdata).1, recorder_fits (hreads data hdata).2⟩) hbytes
    ⟨[], .empty⟩
  rw [heard_responses responses []] at hreceived
  exact hreceived

/-- A response with a length, and one in a chunk with a trailing header. -/
def Example.written : List HttpResponse :=
  [⟨1, 1, 200, ['O', 'K'].map byte, [⟨.contentLength contentLengthWord [byte '2'], [byte ' ']⟩],
      .sized [1, 0]⟩,
    ⟨1, 1, 404, [], [⟨.transferEncoding transferEncodingWord chunkedWord, []⟩],
      .chunked [⟨⟨[byte '1'], []⟩, [7]⟩] ⟨[byte '0'], []⟩ [⟨.general [byte 'A'] [byte 'b'], []⟩]⟩]

theorem Example.written_wellFormed : ∀ r ∈ Example.written, r.WellFormed := by
  have hlength : (Header.contentLength contentLengthWord [byte '2']).WellFormed :=
    ⟨by decide +kernel, by decide +kernel, by decide +kernel, by decide +kernel,
      by decide +kernel, by decide +kernel, by decide +kernel⟩
  have hencoding : (Header.transferEncoding transferEncodingWord chunkedWord).WellFormed :=
    ⟨by decide +kernel, by decide +kernel, by decide +kernel, by decide +kernel,
      by decide +kernel, trivial⟩
  have hgeneral : (Header.general [byte 'A'] [byte 'b']).WellFormed :=
    ⟨by decide +kernel, by decide +kernel, by decide +kernel, by decide +kernel,
      by decide +kernel, trivial⟩
  have hsized : HttpResponse.WellFormed Example.written[0] :=
    ⟨by decide +kernel, by decide +kernel, by decide +kernel, by decide +kernel,
      List.forall_mem_singleton.mpr ⟨hlength, by decide +kernel⟩, by decide +kernel,
      by decide +kernel, by decide +kernel, by decide +kernel⟩
  have hsize : ChunkLine.WellFormed ⟨[byte '1'], []⟩ :=
    ⟨by decide +kernel, by decide +kernel, by decide +kernel, by decide +kernel, by decide +kernel⟩
  have hlast : ChunkLine.WellFormed ⟨[byte '0'], []⟩ :=
    ⟨by decide +kernel, by decide +kernel, by decide +kernel, by decide +kernel, by decide +kernel⟩
  have hchunked : HttpResponse.WellFormed Example.written[1] :=
    ⟨by decide +kernel, by decide +kernel, by decide +kernel, by decide +kernel,
      List.forall_mem_singleton.mpr ⟨hencoding, by decide +kernel⟩, by decide +kernel,
      by decide +kernel,
      List.forall_mem_singleton.mpr ⟨hsize, by decide +kernel, by decide +kernel⟩, hlast,
      by decide +kernel, List.forall_mem_singleton.mpr ⟨hgeneral, by decide +kernel⟩⟩
  exact List.forall_mem_cons.mpr ⟨hsized, List.forall_mem_singleton.mpr hchunked⟩

/-- The reads cut both responses. -/
theorem responses_recorded_written :
    ((HttpParser.init .response).executeAll recorder ([(Example.written.flatMap
        HttpResponse.text).take 41, (Example.written.flatMap HttpResponse.text).drop 41] ++ [[]])
          ⟨[], .empty⟩).user.done =
      [⟨200, [(contentLengthWord, [byte '2'])], [1, 0], false⟩,
        ⟨404, [(transferEncodingWord, chunkedWord), ([byte 'A'], [byte 'b'])], [7], false⟩] := by
  have hbytes : [(Example.written.flatMap HttpResponse.text).take 41,
      (Example.written.flatMap HttpResponse.text).drop 41].flatten =
      Example.written.flatMap HttpResponse.text := by simp
  have hrecorded := responses_recorded Example.written_wellFormed (by decide +kernel)
    (by decide +kernel) hbytes
  obtain ⟨parser, -, hexecuted⟩ := hrecorded.resolve_left fun hover => by
    have herrno := hover.errno
    revert herrno
    decide +kernel
  rw [hexecuted]
  rfl

end Wrkx
