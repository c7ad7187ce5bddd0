import Wrkx.Http.Bodies

/-!
# Responses

Responses as they stand on the wire, and what the parser makes of a connection on which they come
one after the other.

## Main results

- `takes_response` — one response
- `responses_received` — however the bytes of some responses are cut into reads, each callback is
  told what the responses say
-/

namespace Wrkx

/-- The body of a response. -/
inductive Body
  | none
  | sized (data : Bytes)
  | chunked (chunks : List BodyChunk) (last : ChunkLine) (trailers : List HeaderLine)
  | untilEof (data : Bytes)

/-- A response. -/
structure HttpResponse where
  httpMajor : ℕ
  httpMinor : ℕ
  statusCode : ℕ
  reason : Bytes
  lines : List HeaderLine
  body : Body

namespace Body

/-- The bytes of the body on the wire. -/
def text : Body → Bytes
  | none => []
  | sized data | untilEof data => data
  | chunked chunks last trailers =>
    chunks.flatMap BodyChunk.text ++ (last.text ++ (trailers.flatMap HeaderLine.text ++ [cr, lf]))

/-- The bytes of the body. -/
def data : Body → Bytes
  | none => []
  | sized data | untilEof data => data
  | chunked chunks _ _ => chunks.flatMap BodyChunk.data

/-- The trailing headers. -/
def trailers : Body → List HeaderLine
  | chunked _ _ trailers => trailers
  | _ => []

/-- The body is the one that the headers tell of. -/
def Fits (h : Head) : Body → Prop
  | none => h.bodyKind = .none
  | sized data => h.bodyKind = .sized ∧ h.contentLength = data.length ∧ data.length < ullongMax
  | chunked chunks last trailers => h.bodyKind = .chunked ∧
      (∀ chunk ∈ chunks, chunk.WellFormed) ∧ last.WellFormed ∧ last.value = 0 ∧
      ∀ line ∈ trailers, line.WellFormed
  | untilEof _ => h.bodyKind = .untilEof

/-- What is known at the end of the response. -/
def last (h : Head) : Body → Head
  | none | untilEof _ => h
  | sized _ => { h with contentLength := 0 }
  | chunked _ _ trailers => HeaderLine.tell trailers
      { h with contentLength := 0, flags := { h.flags with trailing := true } }

end Body

namespace HttpResponse

/-- The bytes of the response on the wire. -/
def text (r : HttpResponse) : Bytes :=
  statusLine r.httpMajor r.httpMinor r.statusCode r.reason ++
    (r.lines.flatMap HeaderLine.text ++ ([cr] ++ ([lf] ++ r.body.text)))

/-- What the lines of the response tell. -/
def head (r : HttpResponse) : Head :=
  HeaderLine.tell r.lines (statusHead r.httpMajor r.httpMinor r.statusCode)

/-- The connection goes on after the response. -/
def keepAlive (r : HttpResponse) : Bool := (r.body.last r.head).keepAlive

/-- A response that the parser accepts. -/
structure WellFormed (r : HttpResponse) : Prop where
  httpMajor : r.httpMajor ≤ 999
  httpMinor : r.httpMinor ≤ 999
  statusCode : r.statusCode ≤ 999
  reason : ∀ c ∈ r.reason, HttpParser.isEol c = false
  lines : ∀ line ∈ r.lines, line.WellFormed
  upgrade : r.head.upgrade = false
  body : r.body.Fits r.head

end HttpResponse

variable {σ : Type*} {S : HttpParserSettings σ} {user u : σ} {h : Head} {r : HttpResponse}
  {done : ℕ → Bool → σ → σ} {parser : HttpParser} {header : Header} {lines : List HeaderLine}

/-- What the callbacks are told of a response, up to its end. -/
def HttpResponse.toldBody (S : HttpParserSettings σ) (r : HttpResponse) (user : σ) : σ :=
  HeaderLine.told S r.body.trailers (bodyTold S r.body.data (HeaderLine.told S r.lines user))

/-- What the callbacks are told of a response. -/
def HttpResponse.told (S : HttpParserSettings σ) (done : ℕ → Bool → σ → σ) (r : HttpResponse)
    (user : σ) : σ :=
  done r.statusCode r.keepAlive (r.toldBody S user)

/-! ## Lines -/

theorem option_keeps (flags : Flags) (option : Bytes) :
    (flags.option option).trailing = flags.trailing := by
  unfold Flags.option
  split_ifs <;> rfl

theorem tell_keeps (header : Header) (h : Head) :
    (header.tell h).statusCode = h.statusCode ∧
      (header.tell h).flags.trailing = h.flags.trailing := by
  cases header with
  | general name value => exact ⟨rfl, rfl⟩
  | contentLength name digits => rw [Header.tell]; split_ifs <;> exact ⟨rfl, rfl⟩
  | transferEncoding name value => rw [Header.tell]; split_ifs <;> exact ⟨rfl, rfl⟩
  | connection name options =>
    refine ⟨rfl, ?_⟩
    rw [Header.tell]
    dsimp only
    generalize h.flags = flags
    induction options generalizing flags with
    | nil => rfl
    | cons option options ih => exact (ih _).trans (option_keeps flags option)
  | upgrade name value => rw [Header.tell]; split_ifs <;> exact ⟨rfl, rfl⟩

theorem tellAll_keeps (lines : List HeaderLine) (h : Head) :
    (HeaderLine.tell lines h).statusCode = h.statusCode ∧
      (HeaderLine.tell lines h).flags.trailing = h.flags.trailing := by
  induction lines generalizing h with
  | nil => exact ⟨rfl, rfl⟩
  | cons line lines ih =>
    obtain ⟨hstatus, htrailing⟩ := tell_keeps line.header h
    obtain ⟨hstatus', htrailing'⟩ := ih (line.header.tell h)
    exact ⟨hstatus'.trans hstatus, htrailing'.trans htrailing⟩

theorem last_statusCode (r : HttpResponse) : (r.body.last r.head).statusCode = r.statusCode := by
  have hhead : r.head.statusCode = r.statusCode := (tellAll_keeps r.lines _).1
  cases hbody : r.body with
  | none | untilEof data | sized data => exact hhead
  | chunked chunks last trailers => exact (tellAll_keeps trailers _).1.trans hhead

theorem chunked_of_bodyKind (hkind : h.bodyKind = .chunked) : h.flags.chunked = true := by
  by_contra hflag
  rw [Head.bodyKind, if_neg hflag] at hkind
  split_ifs at hkind

theorem contentLength_of_sized (hkind : h.bodyKind = .sized) : h.contentLength ≠ 0 := by
  intro hzero
  rw [Head.bodyKind, if_pos hzero] at hkind
  split_ifs at hkind

/-! ## One response -/

/-- The line before the trailing headers. -/
theorem takes_lastLine (hS : S.Tame) (hchunked : h.flags.chunked = true) {line : ChunkLine}
    (hline : line.WellFormed) (hzero : line.value = 0) :
    Takes S line.text (AtChunk h user) (At { h with
      contentLength := 0, flags := { h.flags with trailing := true } } .headerFieldStart user) := by
  have htext : Takes S line.text (AtChunk h user) _ := takes_chunkLine hS hchunked hline
  rwa [if_pos hzero] at htext

/-- A body in chunks, with its trailing headers. -/
theorem takes_chunkedBody (hS : S.Regular) (hanswers : S.Answers done)
    (hchunked : h.flags.chunked = true) {chunks : List BodyChunk} {last : ChunkLine}
    {trailers : List HeaderLine} (hchunks : ∀ chunk ∈ chunks, chunk.WellFormed)
    (hlast : last.WellFormed) (hzero : last.value = 0)
    (htrailers : ∀ line ∈ trailers, line.WellFormed) :
    Takes S (Body.chunked chunks last trailers).text (At h .chunkSizeStart user)
      (Completed done ((Body.chunked chunks last trailers).last h)
        (HeaderLine.told S trailers (bodyTold S (chunks.flatMap BodyChunk.data) user))) := by
  have hend : Takes S [cr, lf] (AtLine S ((Body.chunked chunks last trailers).last h)
      (HeaderLine.told S trailers (bodyTold S (chunks.flatMap BodyChunk.data) user))) _ :=
    (takes_emptyLine hS.toTame).cons hS.toTame
      (takes_trailersEnd hS.toTame hanswers (tellAll_keeps trailers _).2)
  have hlines := (takes_headers hS htrailers).append hS.toTame hend
  have hchunkLines : Takes S (chunks.flatMap BodyChunk.text) (AtChunk h user) _ :=
    takes_chunks hS hchunked hchunks
  have htext := hchunkLines.append hS.toTame
    ((takes_lastLine hS.toTame hchunked hlast hzero).append hS.toTame
      (hlines.weaken fun _ _ _ hat => .start hat.1 hat.2))
  exact htext.weaken fun _ _ _ hat => ⟨h.contentLength, hat⟩

/-- At the end of the bytes of a response. A body that goes on to the end of the connection is not
    complete yet. -/
def AtEnd (S : HttpParserSettings σ) (done : ℕ → Bool → σ → σ) (r : HttpResponse) (user : σ) :
    HttpParser → σ → Prop :=
  match r.body with
  | .untilEof _ => At r.head .bodyIdentityEof (r.toldBody S user)
  | body => Completed done (body.last r.head) (r.toldBody S user)

theorem takes_response (hS : S.Regular) (hanswers : S.Answers done) (hr : r.WellFormed) :
    Takes S r.text (At h .startRes user) (AtEnd S done r user) := by
  have htrailing : r.head.flags.trailing = false := (tellAll_keeps r.lines _).2
  have hstart : Takes S (statusLine r.httpMajor r.httpMinor r.statusCode r.reason)
      (At h .startRes user) (AtLine S (statusHead r.httpMajor r.httpMinor r.statusCode) user) :=
    (takes_statusLine hS.toTame hr.httpMajor hr.httpMinor hr.statusCode hr.reason).mono
      fun _ _ _ hat => .start hat.1 hat.2
  refine hstart.append hS.toTame ((takes_headers hS hr.lines).append hS.toTame
    ((takes_emptyLine hS.toTame).append hS.toTame
      ((takes_headersEnd hS.toTame hanswers htrailing hr.upgrade).append hS.toTame ?_)))
  -- The body begins in the state that the lines before it have chosen.
  have hbody := hr.body
  unfold AtEnd HttpResponse.toldBody
  cases hcase : r.body with
  | none =>
    rw [hcase] at hbody
    have hkind : r.head.bodyKind = .none := hbody
    exact .nil fun parser u _ hat => by rwa [if_pos hkind] at hat
  | sized data =>
    rw [hcase] at hbody
    obtain ⟨hkind, hlength, hmax⟩ := hbody
    have hnil : data ≠ [] := by
      rintro rfl
      exact absurd hlength (contentLength_of_sized hkind)
    rw [hkind, if_neg nofun]
    have htold : bodyTold S data (HeaderLine.told S r.lines user) =
        S.onBody data (HeaderLine.told S r.lines user) := if_neg hnil
    have hbytes : Takes S data (At r.head .bodyIdentity (HeaderLine.told S r.lines user))
        (Completed done { r.head with contentLength := 0 }
          (S.onBody data (HeaderLine.told S r.lines user))) :=
      takes_identity hS hanswers hnil hlength hmax
    rw [← htold] at hbytes
    exact hbytes
  | chunked chunks last trailers =>
    rw [hcase] at hbody
    obtain ⟨hkind, hchunks, hlast, hzero, htrailers⟩ := hbody
    have hchunked := chunked_of_bodyKind hkind
    rw [hkind, if_neg nofun]
    exact takes_chunkedBody hS hanswers hchunked hchunks hlast hzero htrailers
  | untilEof data =>
    rw [hcase] at hbody
    have hkind : r.head.bodyKind = .untilEof := hbody
    rw [hkind, if_neg nofun]
    exact takes_untilEof hS

/-! ## Responses -/

theorem needsEof_of_untilEof (hkind : h.bodyKind = .untilEof) : h.keepAlive = false := by
  have hneeds : h.toParser.messageNeedsEof = true := by
    by_contra hnot
    have hnot' : ¬h.needsEof = true := hnot
    rw [Head.bodyKind, if_neg hnot'] at hkind
    split_ifs at hkind
  unfold Head.keepAlive HttpParser.shouldKeepAlive
  rw [hneeds]
  split_ifs <;> rfl

/-- The connection goes on with the next response. -/
theorem startRes_of_keepAlive (hr : r.WellFormed) (hkeep : r.keepAlive = true)
    (hend : AtEnd S done r user parser u) :
    ∃ head, At head .startRes (r.told S done user) parser u := by
  have hbody := hr.body
  have hlast : (r.body.last r.head).keepAlive = true := hkeep
  have hstatus := last_statusCode r
  unfold AtEnd at hend
  cases hcase : r.body with
  | untilEof data =>
    rw [hcase] at hbody hlast
    have hfalse : r.head.keepAlive = false := needsEof_of_untilEof hbody
    exact absurd (hfalse.symm.trans hlast) nofun
  | none | sized data | chunked chunks last trailers =>
    rw [hcase] at hend hlast hstatus
    have hcompleted : Completed done _ (r.toldBody S user) parser u := hend
    unfold Completed at hcompleted
    rw [hlast, hstatus, if_pos rfl, ← hkeep] at hcompleted
    exact hcompleted

/-- A body that goes on to the end of the connection is not complete at the end of the bytes. -/
theorem user_of_untilEof {data : Bytes} (hbody : r.body = .untilEof data)
    (hend : AtEnd S done r user parser u) : u = r.toldBody S user := by
  unfold AtEnd at hend
  rw [hbody] at hend
  have hat : At r.head .bodyIdentityEof (r.toldBody S user) parser u := hend
  exact hat.2

theorem user_of_completed (hbody : ∀ data, r.body ≠ .untilEof data)
    (hend : AtEnd S done r user parser u) : u = r.told S done user := by
  have hstatus := last_statusCode r
  unfold AtEnd at hend
  cases hcase : r.body with
  | untilEof data => exact absurd hcase (hbody data)
  | none | sized data | chunked chunks last trailers =>
    rw [hcase] at hend hstatus
    have hcompleted : Completed done _ (r.toldBody S user) parser u := hend
    have hkeep : r.keepAlive = (r.body.last r.head).keepAlive := rfl
    obtain ⟨head, hat⟩ := hcompleted
    rw [hstatus, ← hcase, ← hkeep] at hat
    exact hat.2

/-- The connection can end here, when the callbacks have come to `user`. -/
def Ends (S : HttpParserSettings σ) (user : σ) (parser : HttpParser) (u : σ) : Prop :=
  ∃ parser' : HttpParser, parser'.httpErrno = .ok ∧
    parser.execute S [] u = ⟨0, parser', user, false⟩

theorem ends_of_reading {s : State} (hvalid : parser.Valid) (hat : At h s user parser u)
    (hs : s = .startRes ∨ s = .dead) : Ends S user parser u := by
  obtain ⟨hr, rfl⟩ := hat
  refine ⟨parser, hvalid.ok, ?_⟩
  rw [HttpParser.execute, if_neg (not_not.mpr hvalid.ok), if_pos rfl, executeEnd, hr.state]
  rcases hs with rfl | rfl <;> rfl

/-- The connection ends after the response. -/
theorem ends_of_atEnd (hanswers : S.Answers done) (hvalid : parser.Valid)
    (hend : AtEnd S done r user parser u) : Ends S (r.told S done user) parser u := by
  have hstatus := last_statusCode r
  unfold AtEnd at hend
  cases hcase : r.body with
  | untilEof data =>
    rw [hcase] at hend hstatus
    have hat : At r.head .bodyIdentityEof (r.toldBody S user) parser u := hend
    obtain ⟨hr, rfl⟩ := hat
    have hkeep : parser.shouldKeepAlive = r.keepAlive := by
      rw [hr.shouldKeepAlive, HttpResponse.keepAlive, hcase]
      rfl
    have hcode : parser.statusCode = r.statusCode :=
      (congrArg Head.statusCode hr.head).trans hstatus
    have huser := hanswers.user parser (r.toldBody S user)
    rw [hkeep, hcode] at huser
    refine ⟨(S.onMessageComplete parser (r.toldBody S user)).1, ?_, ?_⟩
    · rcases hanswers.parser parser (r.toldBody S user) with hsame | ⟨-, hinit⟩
      · rw [hsame]
        exact hvalid.ok
      · rw [hinit]
        rfl
    · rw [HttpParser.execute, if_neg (not_not.mpr hvalid.ok), if_pos rfl, executeEnd, hr.state]
      dsimp only
      rw [huser]
      rfl
  | none | sized data | chunked chunks last trailers =>
    rw [hcase] at hend hstatus
    have hcompleted : Completed done _ (r.toldBody S user) parser u := hend
    have hkeep : r.keepAlive = (r.body.last r.head).keepAlive := rfl
    unfold Completed at hcompleted
    rw [hstatus, ← hcase, ← hkeep] at hcompleted
    obtain ⟨head, hat⟩ := hcompleted
    exact ends_of_reading hvalid hat (by split_ifs <;> simp)

/-- Responses that keep the connection, one after the other. -/
theorem takes_kept (hS : S.Regular) (hanswers : S.Answers done) {kept : List HttpResponse}
    (hkept : ∀ r ∈ kept, r.WellFormed ∧ r.keepAlive = true) :
    Takes S (kept.flatMap HttpResponse.text) (fun parser u => ∃ h, At h .startRes user parser u)
      (fun parser u => ∃ h,
        At h .startRes (kept.foldl (fun user r => r.told S done user) user) parser u) := by
  induction kept generalizing user with
  | nil => exact .nil fun _ _ _ hat => hat
  | cons r kept ih =>
    obtain ⟨hr, hkeep⟩ := hkept r List.mem_cons_self
    have htext : Takes S r.text (fun parser u => ∃ h, At h .startRes user parser u)
        (AtEnd S done r user) :=
      fun parser u hvalid ⟨_, hat⟩ => takes_response hS hanswers hr parser u hvalid hat
    exact (htext.mono fun parser u _ hend => startRes_of_keepAlive hr hkeep hend).append hS.toTame
      (ih fun r hr => hkept r (List.mem_cons_of_mem _ hr))

/-- A response after some that keep the connection. -/
theorem takes_stream (hS : S.Regular) (hanswers : S.Answers done) {kept : List HttpResponse}
    (hkept : ∀ r ∈ kept, r.WellFormed ∧ r.keepAlive = true) (hr : r.WellFormed) :
    Takes S ((kept ++ [r]).flatMap HttpResponse.text) (At h .startRes user)
      (AtEnd S done r (kept.foldl (fun user r => r.told S done user) user)) := by
  have hlast : Takes S r.text (fun parser u => ∃ h,
      At h .startRes (kept.foldl (fun user r => r.told S done user) user) parser u)
      (AtEnd S done r (kept.foldl (fun user r => r.told S done user) user)) :=
    fun parser u hvalid ⟨_, hat⟩ => takes_response hS hanswers hr parser u hvalid hat
  rw [List.flatMap_append, List.flatMap_singleton]
  exact ((takes_kept hS hanswers hkept).append hS.toTame hlast).weaken fun _ _ _ hat => ⟨_, hat⟩

/-- Responses one after the other. -/
theorem takes_responses (hS : S.Regular) (hanswers : S.Answers done) {responses : List HttpResponse}
    (hresponses : ∀ r ∈ responses, r.WellFormed)
    (hkeep : ∀ r ∈ responses.dropLast, r.keepAlive = true) :
    Takes S (responses.flatMap HttpResponse.text) (At h .startRes user)
      (Ends S (responses.foldl (fun user r => r.told S done user) user)) := by
  rcases List.eq_nil_or_concat' responses with rfl | ⟨kept, r, rfl⟩
  · exact .nil fun parser u hvalid hat => ends_of_reading hvalid hat (.inl rfl)
  · rw [List.dropLast_concat] at hkeep
    have hkept : ∀ r ∈ kept, r.WellFormed ∧ r.keepAlive = true := fun r hr =>
      ⟨hresponses r (List.mem_append_left _ hr), hkeep r hr⟩
    rw [List.foldl_append]
    exact (takes_stream hS hanswers hkept (hresponses r (by simp))).mono
      fun parser u hvalid hend => ends_of_atEnd hanswers hvalid hend

/-- A text that is cut into reads is taken all the same, unless the limit on the headers is
    exceeded. -/
theorem Takes.reads {P Q : HttpParser → σ → Prop} {data : Bytes} (hS : S.Regular)
    (htakes : Takes S data P Q) (hvalid : parser.Valid) (hP : P parser user) {reads : List Bytes}
    (hreads : ∀ data ∈ reads, data ≠ [] ∧ S.Fits data.length) (hbytes : reads.flatten = data) :
    (parser.executeUntil S reads user).Overflows S ∨ ∃ last u, last.Valid ∧ Q last u ∧
      (parser.executeUntil S reads user).Alike ⟨data.length, last, u, false⟩ := by
  obtain ⟨last, u, hlast, hQ, hfeeds⟩ := htakes parser user hvalid hP
  refine (executeUntil_reads hS hvalid.rests hreads).imp id fun halike => ?_
  rw [hbytes] at halike
  exact ⟨last, u, hlast, hQ, halike.trans hfeeds⟩

/-- However the bytes of some responses are cut into reads, and with the end of the connection as
    the last read, all of them are read and the callbacks are told what the responses say, unless
    the limit on the headers is exceeded. -/
theorem responses_received (hS : S.Regular) (hanswers : S.Answers done)
    {responses : List HttpResponse} (hresponses : ∀ r ∈ responses, r.WellFormed)
    (hkeep : ∀ r ∈ responses.dropLast, r.keepAlive = true) {reads : List Bytes}
    (hreads : ∀ data ∈ reads, data ≠ [] ∧ S.Fits data.length)
    (hbytes : reads.flatten = responses.flatMap HttpResponse.text) (user : σ) :
    ((HttpParser.init .response).executeAll S (reads ++ [[]]) user).Overflows S ∨
      ∃ parser' : HttpParser, parser'.httpErrno = .ok ∧
        (HttpParser.init .response).executeAll S (reads ++ [[]]) user =
          ⟨reads.flatten.length, parser',
            responses.foldl (fun user r => r.told S done user) user, false⟩ := by
  -- the reads up to an upgrade, of which there is none
  suffices huntil :
      ((HttpParser.init .response).executeUntil S (reads ++ [[]]) user).Overflows S ∨
        ∃ parser' : HttpParser, parser'.httpErrno = .ok ∧
          (HttpParser.init .response).executeUntil S (reads ++ [[]]) user =
            ⟨reads.flatten.length, parser',
              responses.foldl (fun user r => r.told S done user) user, false⟩ by
    rcases huntil with hover | ⟨parser', hok, hexecuted⟩
    · rw [← executeAll_eq _ hover.upgrade] at hover
      exact .inl hover
    · refine .inr ⟨parser', hok, ?_⟩
      rw [← hexecuted]
      exact executeAll_eq _ (congrArg Executed.upgrade hexecuted)
  have hinit := rests_init .response
  have htakes : Takes S (responses.flatMap HttpResponse.text)
      (At (HttpParser.init .response).head .startRes user) _ :=
    takes_responses hS hanswers hresponses hkeep
  have hcut := htakes.reads hS (hinit.valid rfl) ⟨⟨rfl, rfl, rfl, rfl⟩, rfl⟩ hreads hbytes
  rw [executeUntil_append]
  rcases hcut with hover | ⟨last, u, hlast, ⟨final, hfinal, hends⟩, hall⟩
  · rw [Executed.andThen_of_not fun hok => by rw [hover.errno] at hok; cases hok.1]
    exact .inl hover
  have hok : ((HttpParser.init .response).executeUntil S reads user).parser.httpErrno = .ok :=
    hall.parser.httpErrno.symm.trans hlast.ok
  rw [Executed.andThen_of_ok ⟨hok, hall.upgrade⟩, executeUntil_singleton, hall.user hok,
    hall.parsed, ← hbytes]
  -- the end of the connection, which the count makes no difference to
  have hend := execute_within hS.toTame [] u hall.parser (executeUntil_rests hS.toTame reads hinit)
    hlast.rests ⟨by decide, fun h => absurd h (Nat.not_lt_zero _)⟩
  rcases hend with hover | hnear
  · exact .inl (hover.after _)
  have hends' : last.execute S.unlimited [] u = ⟨0, final, _, false⟩ := hends
  rw [hends'] at hnear
  generalize ((HttpParser.init .response).executeUntil S reads user).parser.execute S [] u = r at *
  obtain ⟨parsed, parser', user', upgrade⟩ := r
  obtain ⟨hparsed, hparser, hupgrade, huser⟩ := hnear
  dsimp only at hparsed hparser hupgrade huser
  subst hparsed hupgrade huser
  exact .inr ⟨parser', hparser.httpErrno.symm.trans hfinal, rfl⟩

end Wrkx
