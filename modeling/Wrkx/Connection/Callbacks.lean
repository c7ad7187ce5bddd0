import Wrkx.Connection.Wire

/-!
# The parser on a connection

The callbacks of a connection as the parser makes them on the bytes that are read. The history
that they leave has the order that the delivery of the responses counts on, whatever the bytes are.

## Main results

- `runCallback_complete`, `executeEof_complete` — a message that the parser completes
- `history_ordered` — the order of the history
-/

namespace Wrkx

/-! ## The settings -/

/-- What the handlers tell the states of the parser apart by. -/
def State.parserState : State → ParserState
  | startReqOrRes | startRes | startReq => .start
  | bodyIdentityEof => .untilEof
  | dead => .dead
  | _ => .message

/-- What a process does that is not gone. -/
def Local.unlessAborted (f : Local → Local) (l : Local) : Local := if l.aborted then l else f l

section Settings

/-- What `response_complete` reads of the parser, of the clock and of a reconnection, which depend
    on what happened so far. -/
def completeInput {σ : Type*} (now : σ → Micros) (reconnect : σ → ConnectInput)
    (parser : HttpParser) (u : σ) : CompleteInput where
  now := now u
  status := parser.statusCode
  keepAlive := parser.shouldKeepAlive
  reconnect := reconnect u

variable (S : Setting) (now : Local → Micros) (reconnect : Local → ConnectInput)

/-- `parser_settings`, with the clock and the reconnections as they come. Past its early exit,
    `response_complete` initialises the parser of a connection that goes on. -/
def parserSettings : HttpParserSettings Local where
  maxHeaderSize := httpMaxHeaderSize
  onHeaderField piece := Local.unlessAborted (runCallback S (.headerField piece))
  onHeaderValue piece := Local.unlessAborted (runCallback S (.headerValue piece))
  onBody piece := Local.unlessAborted (runCallback S (.body piece))
  onMessageComplete parser l :=
    (if now l < l.thread.stopAt ∧ parser.shouldKeepAlive then .init .response else parser,
      l.unlessAborted fun l => responseComplete S (completeInput now reconnect parser l)
        { l with c := { l.c with parser := parser.state.parserState } })

end Settings

open History

variable {S : Setting} {now : Local → Micros} {reconnect : Local → ConnectInput} {l l' : Local}
  {parser : HttpParser} {noted h : List Obs} {o : Obs} {phase : Phase}

theorem parserSettings_tame : (parserSettings S now reconnect).Tame where
  complete parser l := by
    unfold parserSettings
    dsimp only
    split_ifs
    · exact .inr ⟨_, rfl⟩
    · exact .inl rfl
  blind parser l := by
    have hkeep : (parser.withNread 0).shouldKeepAlive = parser.shouldKeepAlive := rfl
    unfold parserSettings
    dsimp only
    rw [hkeep]
    split_ifs <;> rfl

/-- A message that ends before the connection does is one callback of the handlers. -/
theorem runCallback_complete (htype : parser.type = .response) (habort : l.aborted = false) :
    ((parserSettings S now reconnect).onMessageComplete (parser.goto parser.newMessage) l).2 =
      runCallback S (.messageComplete (completeInput now reconnect parser l)) l := by
  have hstate : parser.newMessage.parserState =
      if parser.shouldKeepAlive then .start else .dead := by
    rw [HttpParser.newMessage, HttpParser.startState, htype]
    split_ifs <;> rfl
  have hinput : completeInput now reconnect (parser.goto parser.newMessage) l =
      completeInput now reconnect parser l := rfl
  unfold parserSettings runCallback Local.unlessAborted
  dsimp only
  rw [habort, hinput, HttpParser.goto_state, hstate]
  rfl

/-- A body that ends with the connection is completed by the execution without data. -/
theorem executeEof_complete (hs : parser.state = .bodyIdentityEof)
    (hkeep : parser.shouldKeepAlive = false) (hparser : l.c.parser = parser.state.parserState)
    (habort : l.aborted = false) :
    (executeEnd (parserSettings S now reconnect) parser l).user =
      executeEof S (completeInput now reconnect parser l) l := by
  have huntil : l.c.parser = .untilEof := by rw [hparser, hs]; rfl
  have hsame : { l with c := { l.c with parser := parser.state.parserState } } = l := by
    rw [← hparser]
  have hinput : { completeInput now reconnect parser l with keepAlive := false } =
      completeInput now reconnect parser l := by
    rw [← hkeep]
    rfl
  rw [executeEof, if_pos huntil, hinput, executeEnd, hs]
  refine (if_neg (by simp [habort])).trans ?_
  exact congrArg (responseComplete S _) hsame

/-! ## Entries that are no callbacks -/

/-- A piece of a response, or its end. -/
def Obs.received : Obs → Bool
  | .field _ | .value _ | .body _ | .complete _ _ _ => true
  | _ => false

theorem received_of_silent (ho : o.silent = true) : o.received = false := by
  cases o with
  | field | value | body | complete | closed | scriptResponse => cases ho
  | _ => rfl

/-- The order is about values and the ends of responses only. -/
theorem ordered_of_other (hvalue : o.isValue = false) (hcomplete : o.isComplete = false) :
    Ordered o h :=
  ⟨fun ho => absurd ho (by simp [hvalue]), fun ho => absurd ho (by simp [hcomplete])⟩

theorem ordered_of_not_received (ho : o.received = false) : Ordered o h := by
  cases o with
  | field | value | body | complete => cases ho
  | _ => exact ordered_of_other rfl rfl

theorem each_ordered_append (hnoted : ∀ o ∈ noted, o.received = false)
    (hh : Each Ordered h) : Each Ordered (noted ++ h) := by
  induction noted with
  | nil => exact hh
  | cons o noted ih =>
    exact ⟨ordered_of_not_received (hnoted o List.mem_cons_self),
      ih fun o' ho' => hnoted o' (by simp [ho'])⟩

theorem unfinished_empty_append (hnoted : ∀ o ∈ noted, o.received = false)
    (hempty : unfinished h = .empty) : unfinished (noted ++ h) = .empty := by
  induction noted with
  | nil => exact hempty
  | cons o noted ih =>
    have hrest := ih fun o' ho' => hnoted o' (by simp [ho'])
    have ho := hnoted o List.mem_cons_self
    cases o with
    | field | value | body | complete => cases ho
    | closed => rfl
    | _ => exact hrest

/-! ## The end of a response -/

/-- What `response_complete` notes. -/
theorem responseComplete_received (S : Setting) (i : CompleteInput) (l : Local) :
    ∃ noted, (responseComplete S i l).history =
        noted ++ .complete l.tcp i.now i.status :: .clock i.now :: l.history ∧
      ∀ o ∈ noted, o.received = false := by
  obtain ⟨silent, hhistory, hsilent⟩ := respond_silent S i l
  have hdelivery : ∀ o ∈ delivery i l.c, o.received = false := by
    unfold delivery
    split_ifs <;> simp [Obs.received]
  have hnoted : ∀ o ∈ silent ++ delivery i l.c, o.received = false := fun o ho =>
    (List.mem_append.mp ho).elim (fun ho => received_of_silent (hsilent o ho)) (hdelivery o)
  rw [← List.append_assoc] at hhistory
  rw [responseComplete_eq]
  split_ifs
  · exact ⟨_, hhistory, hnoted⟩
  · exact ⟨_, hhistory, hnoted⟩
  · obtain ⟨ok, hconnect⟩ :=
      (Local.reconnectSocket_connects i.reconnect (respond S i l)).history_eq
    have hclosed : (reconnectSocket i.reconnect (respond S i l)).history =
        .connect true ok :: .closed :: (respond S i l).history := hconnect
    -- a response that ends the connection is followed by the reconnection
    refine ⟨.connect true ok :: .closed :: (silent ++ delivery i l.c), ?_, ?_⟩
    · rw [hclosed, hhistory]
      rfl
    · simpa [Obs.received] using hnoted
  · exact ⟨_, hhistory, hnoted⟩

/-! ## The order of the history -/

/-- How far a response in progress has come in a phase, when its pieces are wanted. -/
def Phase.Fits (want : Bool) (m : Message) : Phase → Prop
  | .outside => m.name = none
  | .naming => m.name.isSome = want
  | .valuing => m.name = none ∧ (want = true → m.fields ≠ [])
  | .over => True

/-- The history is in order, and the response in progress is in the phase. -/
def InPhase (S : Setting) (phase : Phase) (l : Local) : Prop :=
  Each Ordered l.history ∧
    (l.aborted = false → phase.Fits S.cfg.wantResponse (unfinished l.history))

theorem InPhase.unlessAborted {f : Local → Local} (hordered : Each Ordered l.history)
    (h : l.aborted = false → InPhase S phase (f l)) : InPhase S phase (l.unlessAborted f) := by
  unfold Local.unlessAborted
  split_ifs with habort
  · exact ⟨hordered, fun h => by rw [habort] at h; cases h⟩
  · exact h (eq_false_of_ne_true habort)

theorem inPhase_field (piece : Bytes) (hl : InPhase S .outside l ∨ InPhase S .naming l) :
    InPhase S .naming (l.unlessAborted (runCallback S (.headerField piece))) := by
  have hordered : Each Ordered l.history := hl.elim And.left And.left
  refine .unlessAborted hordered fun habort => ?_
  by_cases hwant : S.cfg.wantResponse = true
  · rw [runCallback, if_pos hwant]
    exact ⟨⟨ordered_of_other rfl rfl, hordered⟩, fun _ => hwant.symm⟩
  · rw [runCallback, if_neg hwant]
    refine ⟨hordered, fun _ => hl.elim (fun hl => ?_) fun hl => hl.2 habort⟩
    have hname : (unfinished l.history).name = none := hl.2 habort
    rw [Phase.Fits, hname, eq_false_of_ne_true hwant]
    rfl

/-- A value continues the last field, or it makes a field of the name. -/
theorem Message.fits_addValue {m : Message} (piece : Bytes)
    (hm : m.name.isSome = true ∨ m.name = none ∧ m.fields ≠ []) :
    (m.addValue piece).name = none ∧ (m.addValue piece).fields ≠ [] := by
  obtain ⟨fields, name, body⟩ := m
  cases name <;> cases fields <;> simp_all [Message.addValue]

theorem inPhase_value (piece : Bytes) (hl : InPhase S .naming l ∨ InPhase S .valuing l) :
    InPhase S .valuing (l.unlessAborted (runCallback S (.headerValue piece))) := by
  have hordered : Each Ordered l.history := hl.elim And.left And.left
  refine .unlessAborted hordered fun habort => ?_
  by_cases hwant : S.cfg.wantResponse = true
  · have hm : (unfinished l.history).name.isSome = true ∨
        (unfinished l.history).name = none ∧ (unfinished l.history).fields ≠ [] :=
      hl.imp (fun hl => (hl.2 habort).trans hwant)
        fun hl => ⟨(hl.2 habort).1, (hl.2 habort).2 hwant⟩
    have hstrings : (unfinished l.history).strings ≠ [] :=
      Message.strings_ne_nil.mpr (hm.imp Option.isSome_iff_ne_none.mp And.right)
    have hvalue := Message.fits_addValue piece hm
    rw [runCallback, if_pos hwant]
    exact ⟨⟨⟨fun _ => hstrings, fun hcomplete => by cases hcomplete⟩, hordered⟩,
      fun _ => ⟨hvalue.1, fun _ => hvalue.2⟩⟩
  · rw [runCallback, if_neg hwant]
    refine ⟨hordered, fun _ => ⟨hl.elim (fun hl => ?_) fun hl => (hl.2 habort).1,
      fun h => absurd h hwant⟩⟩
    have hname : (unfinished l.history).name.isSome = S.cfg.wantResponse := hl.2 habort
    rwa [eq_false_of_ne_true hwant, Option.isSome_eq_false_iff, Option.isNone_iff_eq_none] at hname

theorem inPhase_body (piece : Bytes) (hl : InPhase S .outside l) :
    InPhase S .outside (l.unlessAborted (runCallback S (.body piece))) := by
  refine .unlessAborted hl.1 fun habort => ?_
  by_cases hwant : S.cfg.wantResponse = true
  · rw [runCallback, if_pos hwant]
    exact ⟨⟨ordered_of_other rfl rfl, hl.1⟩, fun _ => hl.2 habort⟩
  · rwa [runCallback, if_neg hwant]

/-- A response ends outside its headers, and nothing is left of it. -/
theorem inPhase_complete (i : CompleteInput) (hordered : Each Ordered l.history)
    (hname : (unfinished l.history).name = none) :
    InPhase S .outside (responseComplete S i l) := by
  obtain ⟨noted, hhistory, hnoted⟩ := responseComplete_received S i l
  have hclock : Each Ordered (.clock i.now :: l.history) :=
    ⟨ordered_of_other rfl rfl, hordered⟩
  have hcomplete : Each Ordered (.complete l.tcp i.now i.status :: .clock i.now :: l.history) :=
    ⟨⟨fun hvalue => (by cases hvalue), fun _ => hname⟩, hclock⟩
  rw [InPhase, hhistory]
  refine ⟨each_ordered_append hnoted hcomplete, fun _ => ?_⟩
  rw [unfinished_empty_append hnoted rfl]
  rfl

/-- The callbacks of a connection keep its history in order. -/
theorem mirrors_history (S : Setting) (now : Local → Micros) (reconnect : Local → ConnectInput) :
    (parserSettings S now reconnect).Mirrors (parserSettings S now reconnect)
      fun phase l l' => l = l' ∧ InPhase S phase l where
  maxHeaderSize := rfl
  field piece l l' := by
    rintro (⟨rfl, hl⟩ | ⟨rfl, hl⟩)
    · exact ⟨rfl, inPhase_field piece (.inl hl)⟩
    · exact ⟨rfl, inPhase_field piece (.inr hl)⟩
  value piece l l' := by
    rintro (⟨rfl, hl⟩ | ⟨rfl, hl⟩)
    · exact ⟨rfl, inPhase_value piece (.inl hl)⟩
    · exact ⟨rfl, inPhase_value piece (.inr hl)⟩
  valued l l' := by
    rintro ⟨rfl, hl⟩
    exact ⟨rfl, hl.1, fun habort => (hl.2 habort).1⟩
  body piece l l' := by
    rintro ⟨rfl, hl⟩
    exact ⟨rfl, inPhase_body piece hl⟩
  complete parser l l' := by
    rintro - ⟨rfl, hl⟩
    have hcomplete : InPhase S .outside ((parserSettings S now reconnect).onMessageComplete
        parser l).2 :=
      .unlessAborted hl.1 fun habort => inPhase_complete _ hl.1 (hl.2 habort)
    -- nothing is asked of the phase after the last message
    refine ⟨rfl, rfl, ?_⟩
    split_ifs
    · exact ⟨hcomplete.1, fun _ => trivial⟩
    · exact hcomplete

/-- Whatever bytes are read from a TCP connection, in whatever reads, and whatever the clock and
    the reconnections are: the history keeps the order that the delivery of responses counts on. -/
theorem history_ordered (S : Setting) (now : Local → Micros) (reconnect : Local → ConnectInput)
    (reads : List Bytes) (hordered : Each Ordered l.history)
    (hname : (unfinished l.history).name = none) :
    Each Ordered ((HttpParser.init .response).executeAll (parserSettings S now reconnect) reads
      l).user.history := by
  have hstart : l = l ∧ InPhase S .outside l := ⟨rfl, hordered, fun _ => hname⟩
  have hmirrors := executeAll_mirrors parserSettings_tame.toRestarts
    (mirrors_history S now reconnect) reads (rests_init .response) ⟨_, hstart⟩
    fun _ => (State.tells_of_outside rfl).mpr hstart
  obtain ⟨phase, -, hphase⟩ := hmirrors.related
  exact hphase.1

/-- A response whose header name, value and chunk come in pieces. -/
theorem history_ordered_reads :
    ((HttpParser.init .response).executeAll
        (parserSettings (Example.setting 1 false) (fun _ => 50) fun _ => Example.connects 3)
        [Example.chunked.take 25, (Example.chunked.take 40).drop 25,
          (Example.chunked.take 50).drop 40, Example.chunked.drop 50]
        (Example.start [71] 10000).local).user.history.any Obs.isComplete = true ∧
    Each Ordered ((HttpParser.init .response).executeAll
      (parserSettings (Example.setting 1 false) (fun _ => 50) fun _ => Example.connects 3)
      [Example.chunked.take 25, (Example.chunked.take 40).drop 25,
        (Example.chunked.take 50).drop 40, Example.chunked.drop 50]
      (Example.start [71] 10000).local).user.history := by
  have hordered : Each Ordered (Example.start [71] 10000).local.history := trivial
  have hname : (unfinished (Example.start [71] 10000).local.history).name = none := rfl
  refine ⟨by decide +kernel, ?_⟩
  -- for whatever reads: the unifier would run the parser on these
  generalize [Example.chunked.take 25, (Example.chunked.take 40).drop 25,
    (Example.chunked.take 50).drop 40, Example.chunked.drop 50] = reads
  exact history_ordered (Example.setting 1 false) _ _ reads hordered hname
end Wrkx
