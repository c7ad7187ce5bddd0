import Wrkx.Base.Framing
import Wrkx.Connection.Turns

/-!
# The batches of a connection

The requests of a batch on the wire. When every request of the script holds `pipeline` whole
messages and the server answers each whole message it received once, a batch that starts finds
no response owed, and `c->pending` is what is owed for a batch that is written whole.

## Main results

- `Act.batches` — every act keeps the messages on the wire in step with `c->pending`
- `batches_accounted` — so does every run whose timers act on the TCP connection that armed
  them
- `stale_timer_overlaps` — one timer of an earlier TCP connection breaks the order
-/

namespace Wrkx

open History

/-! ## Assumptions on a run -/

/-- Every request of the script holds `k` whole messages. -/
def Requests (F : Framing UInt8) (k : ℕ) (o : Obs) (_ : List Obs) : Prop :=
  ∀ bytes ∈ o.requested, F.Exactly k bytes

/-- A response answers a whole message that the server received on the TCP connection and has
    not answered yet. -/
def Answers (F : Framing UInt8) (o : Obs) (older : List Obs) : Prop :=
  ∀ n ∈ o.completedOn, answered n older < F.count (stream n older)

/-- A response arrives before `stop_at`. -/
def BeforeStop (stopAt : ℕ) (o : Obs) (_ : List Obs) : Prop :=
  ∀ now ∈ o.completedAt, now < stopAt

instance (F : Framing UInt8) (k : ℕ) (o : Obs) (older : List Obs) :
    Decidable (Requests F k o older) :=
  inferInstanceAs (Decidable (∀ bytes ∈ o.requested, F.Exactly k bytes))

instance (F : Framing UInt8) (o : Obs) (older : List Obs) : Decidable (Answers F o older) :=
  inferInstanceAs (Decidable (∀ n ∈ o.completedOn, answered n older < F.count (stream n older)))

instance (stopAt : ℕ) (o : Obs) (older : List Obs) : Decidable (BeforeStop stopAt o older) :=
  inferInstanceAs (Decidable (∀ now ∈ o.completedAt, now < stopAt))

/-- What is assumed of a history. -/
def Lawful (F : Framing UInt8) (S : Setting) (h : List Obs) : Prop :=
  (Each (Requests F S.cfg.pipeline) h ∧ Each (Answers F) h) ∧ Each ResumesOwn h

theorem backward_lawful {F : Framing UInt8} {S : Setting} : Backward (Lawful F S) :=
  (backward_each.and backward_each).and backward_each

/-! ## What holds of the batches -/

/-- The responses that the server still owes on a TCP connection. -/
def owed (F : Framing UInt8) (n : ℕ) (h : List Obs) : ℕ := F.count (stream n h) - answered n h

/-- A batch starts when no response is owed, and `--c->pending` does not wrap. -/
def InTurn (F : Framing UInt8) (o : Obs) (older : List Obs) : Prop :=
  (∀ n ∈ o.startedOn, owed F n older = 0) ∧ ∀ pending ∈ o.decremented, 1 ≤ pending

instance (F : Framing UInt8) (o : Obs) (older : List Obs) : Decidable (InTurn F o older) :=
  inferInstanceAs (Decidable ((∀ n ∈ o.startedOn, owed F n older = 0) ∧
    ∀ pending ∈ o.decremented, 1 ≤ pending))

/-- The batches of a connection are in turn, and `c->pending` is what is owed for a batch that
    is written whole. -/
structure Accounted (F : Framing UInt8) (l : Local) : Prop where
  inTurn : Each (InTurn F) l.history
  pending : writtenWhole l.tcp l.history = true → l.c.pending = owed F l.tcp l.history

/-! ## The invariant -/

/-- The rest of the request that the current TCP connection is sending. -/
def Local.unsent (l : Local) : Bytes :=
  if .established l.tcp ∈ l.history ∧ l.c.written ≠ 0 then l.c.request.drop l.c.written else []

/-- The messages on the wire are whole up to the rest of a request. -/
structure Framed (F : Framing UInt8) (k : ℕ) (l : Local) : Prop where
  whole : F.Exactly (k * begun l.tcp l.history) (stream l.tcp l.history ++ l.unsent)
  request : ∀ now complete older, l.history = .batchStart l.tcp now complete :: older →
    F.Exactly k l.c.request
  finished : writtenWhole l.tcp l.history = true → l.c.written = 0 ∧
    l.c.pending + counted l.tcp l.history = k * begun l.tcp l.history

/-- The invariant behind `Accounted`. -/
structure Batches (F : Framing UInt8) (S : Setting) (stopAt : ℕ) (l : Local) : Prop where
  turns : Turns S.cfg.pipeline l
  framed : Framed F S.cfg.pipeline l
  inTurn : Each (InTurn F) l.history
  static : S.cfg.dynamic = false → F.Exactly S.cfg.pipeline l.c.request
  counted_eq : Each (BeforeStop stopAt) l.history → ∀ n, counted n l.history = answered n l.history
  stop : l.thread.stopAt = stopAt

variable {F : Framing UInt8} {k stopAt : ℕ} {S : Setting} {l l' : Local} {fd : Fd} {writable : Bool}

/-- The server has received no more messages than the batches that began hold. -/
theorem Framed.count_le (hl : Framed F k l) :
    F.count (stream l.tcp l.history) ≤ k * begun l.tcp l.history := by
  by_cases hunsent : l.unsent = []
  · have hwhole := hl.whole
    rw [hunsent, List.append_nil] at hwhole
    exact hwhole.count_eq.le
  · refine (hl.whole.count_lt (List.prefix_append _ _) fun heq => hunsent ?_).le
    simpa using heq

theorem Framed.count_eq (hl : Framed F k l) (hwritten : l.c.written = 0) :
    F.count (stream l.tcp l.history) = k * begun l.tcp l.history := by
  have hwhole := hl.whole
  rw [Local.unsent, if_neg fun h => h.2 hwritten, List.append_nil] at hwhole
  exact hwhole.count_eq

/-! ## Acts that leave the messages alone -/

/-- An act that writes nothing keeps the messages on the wire. -/
theorem Framed.of_same (hl : Framed F k l) (hsame : Same l'.history l.history)
    (htcp : l'.tcp = l.tcp) (hunsent : l'.unsent = l.unsent)
    (hrequest : l'.c.request = l.c.request) (hwritten : l'.c.written = l.c.written)
    (hpending : l'.c.pending + counted l.tcp l'.history = l.c.pending + counted l.tcp l.history) :
    Framed F k l' := by
  refine ⟨?_, fun now complete older hhead => ?_, fun hwhole => ?_⟩
  · rw [htcp, hsame.begun, hsame.stream, hunsent]
    exact hl.whole
  · rw [hrequest]
    rw [htcp] at hhead
    exact hl.request now complete older
      (hsame.unstarted _ _ hhead (by simp [Obs.startedOn]) ▸ hhead)
  · rw [htcp, hsame.writtenWhole] at hwhole
    rw [hwritten, htcp, hpending, hsame.begun]
    exact hl.finished hwhole

theorem unsent_of_mem_iff (htcp : l'.tcp = l.tcp) (hrequest : l'.c.request = l.c.request)
    (hwritten : l'.c.written = l.c.written)
    (hmem : .established l.tcp ∈ l'.history ↔ .established l.tcp ∈ l.history) :
    l'.unsent = l.unsent := by
  rw [Local.unsent, Local.unsent, htcp, hrequest, hwritten]
  simp only [hmem]

theorem Framed.of_aside {noted : List Obs} (hl : Framed F k l) (h : Aside l l' noted) :
    Framed F k l' :=
  hl.of_same h.same h.tcp
    (unsent_of_mem_iff h.tcp h.request h.written (h.mem_iff (by simp [Obs.tcp])))
    h.request h.written (by rw [h.pending, h.same.counted])

/-- A TCP connection that carried nothing. -/
theorem Framed.of_fresh (hfresh : ∀ o ∈ l.history, Elsewhere l.tcp o) : Framed F k l := by
  refine ⟨?_, fun now complete older hhead => ?_, fun hwhole => ?_⟩
  · have hunsent : l.unsent = [] := if_neg fun h => hfresh _ h.1 rfl
    rw [begun_eq_zero hfresh, stream_eq_nil hfresh, hunsent]
    exact Framing.exactly_nil
  · exact absurd rfl (hfresh (.batchStart l.tcp now complete) (by simp [hhead]))
  · rw [writtenWhole_eq_false hfresh] at hwhole
    cases hwhole

/-- A TCP connection that is just open has carried nothing. -/
theorem Framed.openSocket (hfresh : ∀ o ∈ l.history, Elsewhere l.tcp o) :
    Framed F k (openSocket fd l) := by
  have hl : Framed F k l := .of_fresh hfresh
  have hsame : Same (Wrkx.openSocket fd l).history l.history := openSocket_same
  refine ⟨?_, fun now complete older hhead => ?_, fun hwhole => ?_⟩
  · have hunsent : (Wrkx.openSocket fd l).unsent = [] := if_neg fun h => h.2 (by rw [openSocket_c])
    rw [openSocket_tcp, hsame.begun, hsame.stream, hunsent, begun_eq_zero hfresh,
      stream_eq_nil hfresh]
    exact Framing.exactly_nil
  · rw [openSocket_history] at hhead
    cases hhead
  · rw [openSocket_tcp, hsame.writtenWhole, writtenWhole_eq_false hfresh] at hwhole
    cases hwhole

/-! ## Writing -/

theorem Framed.startBatch {i : WriteInput} (hl : Framed F S.cfg.pipeline l)
    (hwritten : l.c.written = 0)
    (hrequest : F.Exactly S.cfg.pipeline (startBatch S i l).c.request) :
    Framed F S.cfg.pipeline (startBatch S i l) := by
  obtain ⟨noted, hhistory, huntagged⟩ := startBatch_noted S i l
  have hsame : Same (noted ++ l.history) l.history :=
    .of_silent fun o ho n => .of_untagged (huntagged o ho)
  have hstream : stream l.tcp (Wrkx.startBatch S i l).history = stream l.tcp l.history := by
    rw [hhistory]
    exact (List.append_nil _).trans (hsame.stream _)
  have hbegun : Wrkx.begun l.tcp (Wrkx.startBatch S i l).history =
      Wrkx.begun l.tcp l.history := by
    rw [hhistory]
    exact hsame.begun _
  refine ⟨?_, fun _ _ _ _ => hrequest, fun hwhole => ?_⟩
  · have hunsent : l.unsent = [] := if_neg fun h => h.2 hwritten
    have hunsent' : (Wrkx.startBatch S i l).unsent = [] :=
      if_neg fun h => h.2 (by rw [startBatch_c]; exact hwritten)
    rw [startBatch_tcp, hbegun, hstream, hunsent', ← hunsent]
    exact hl.whole
  · rw [startBatch_tcp, hhistory] at hwhole
    simp [writtenWhole] at hwhole

theorem accepted_append_drop (n : ℕ) (c : Connection) :
    accepted n c ++ c.request.drop (c.written + (accepted n c).length) =
      c.request.drop c.written := by
  obtain ⟨rest, hrest⟩ : accepted n c <+: c.request.drop c.written := List.take_prefix _ _
  rw [← List.drop_drop, ← hrest, List.drop_left]

theorem unsent_acceptBytes {n : ℕ} (hopened : .established l.tcp ∈ l.history) :
    (acceptBytes n fd l).unsent = if l.c.written + (accepted n l.c).length = 0 then []
      else l.c.request.drop (l.c.written + (accepted n l.c).length) := by
  have hopened' : .established l.tcp ∈ (acceptBytes n fd l).history := by
    obtain ⟨noted, hhistory, -⟩ := acceptBytes_noted n fd l
    rw [hhistory]
    exact List.mem_append_right _ (List.mem_cons_of_mem _ hopened)
  simp only [Local.unsent, acceptBytes_tcp, hopened', true_and, acceptBytes_c]
  by_cases hdone : l.c.written + (accepted n l.c).length = l.c.request.length
  · simp [hdone]
  · simp only [hdone, if_false]
    split_ifs <;> simp_all

/-- Accepting bytes of a request moves them from what is unsent to the wire. -/
theorem Framed.acceptBytes {n : ℕ} (hl : Framed F k l) (hstage : Stage k l) (hshape : Shape l)
    (hcalls : l.Calls fd writable .socketWriteable) (hbatch : l.InBatch) :
    Framed F k (acceptBytes n fd l) := by
  have hstage := hstage.of_inBatch hshape hcalls hbatch
  have hopened : .established l.tcp ∈ l.history := hstage.elim (·.opened) (·.1.opened)
  have hstream : stream l.tcp (Wrkx.acceptBytes n fd l).history = _ := stream_acceptBytes
  have hbegun : Wrkx.begun l.tcp (Wrkx.acceptBytes n fd l).history = _ := begun_acceptBytes
  have hunsent : (Wrkx.acceptBytes n fd l).unsent = _ := unsent_acceptBytes hopened
  have hmove := accepted_append_drop n l.c
  rw [if_pos rfl] at hstream
  -- A batch that was just started holds `k` whole messages.
  have hstarted : l.c.written = 0 → l.unsent = [] ∧ F.Exactly k l.c.request ∧
      writtenWhole l.tcp l.history = false := by
    intro hwritten
    obtain ⟨now, complete, older, hhead⟩ := hbatch hwritten
    exact ⟨if_neg fun h => h.2 hwritten, hl.request now complete older hhead,
      by simp [hhead, writtenWhole]⟩
  refine ⟨?_, fun now complete older hhead => ?_, fun hwhole => ?_⟩
  · have hwhole := hl.whole
    rw [acceptBytes_tcp, hstream, hbegun, hunsent, List.append_assoc]
    by_cases hwritten : l.c.written = 0
    · obtain ⟨hnone, hrequest, -⟩ := hstarted hwritten
      rw [hnone, List.append_nil] at hwhole
      rw [hwritten, Nat.zero_add] at hmove ⊢
      by_cases hempty : accepted n l.c = []
      · simpa [hempty] using hwhole
      · rw [if_pos ⟨rfl, rfl, hempty⟩, if_neg (by simpa using hempty), hmove, List.drop_zero]
        exact hwhole.append hrequest
    · rw [if_neg fun h => hwritten h.2.1, if_neg (by omega), hmove]
      rwa [Local.unsent, if_pos ⟨hopened, hwritten⟩] at hwhole
  · obtain ⟨noted, hhistory, rfl | rfl⟩ := acceptBytes_noted n fd l <;> simp [hhistory] at hhead
  · have hc : (Wrkx.acceptBytes n fd l).c = _ := acceptBytes_c
    have hhistory : (Wrkx.acceptBytes n fd l).history = _ := acceptBytes_history
    rw [acceptBytes_tcp] at hwhole ⊢
    by_cases hdone : l.c.written + (accepted n l.c).length = l.c.request.length
    · rw [if_pos hdone] at hc
      refine ⟨by rw [hc], ?_⟩
      rw [counted_acceptBytes, hbegun, hc]
      rcases hstage with hsending | ⟨hresting, hcounted, -, hpending⟩
      · rw [if_neg fun h => hsending.written.ne' h.2.1]
        exact hsending.pending
      · obtain ⟨-, hrequest, -⟩ := hstarted hresting.unwritten
        by_cases hempty : accepted n l.c = []
        · -- Only an empty batch is written whole without a byte.
          rw [hresting.unwritten, hempty] at hdone
          obtain rfl : k = 0 := by
            rw [List.eq_nil_of_length_eq_zero hdone.symm] at hrequest
            rw [← hrequest.count_eq, Framing.count_nil]
          simp [hpending, hcounted]
        · rw [if_pos ⟨rfl, hresting.unwritten, hempty⟩, hcounted, hpending, Nat.mul_succ,
            Nat.add_comm]
    · rw [if_neg hdone] at hhistory
      rw [hhistory] at hwhole
      have hwritten := (hl.finished hwhole).1
      rw [show writtenWhole l.tcp (.wrote _ _ _ _ :: l.history) = _ from
        (hstarted hwritten).2.2] at hwhole
      cases hwhole

/-! ## Responses -/

theorem Framed.respond {i : CompleteInput} (hl : Framed F k l) (hstage : Stage k l)
    (hshape : Shape l) (hcalls : l.Calls fd false .socketReadable)
    (howed : counted l.tcp l.history < k * Wrkx.begun l.tcp l.history) :
    Framed F k (respond S i l) := by
  obtain ⟨rfl, hreg, -⟩ := hshape.readable_of_calls hcalls
  obtain ⟨hsum, -⟩ := respond_pending (S := S) (i := i) hreg hshape.kernel
    (hstage.pending_pos howed)
  have hunsent : (Wrkx.respond S i l).unsent = l.unsent :=
    unsent_of_mem_iff respond_tcp respond_request respond_written respond_established
  refine ⟨?_, fun now complete older hhead => absurd hhead head_respond, fun hwhole => ?_⟩
  · rw [respond_tcp, begun_respond, stream_respond, hunsent]
    exact hl.whole
  · rw [respond_tcp, writtenWhole_respond] at hwhole
    rw [respond_written, respond_tcp, hsum, begun_respond]
    exact hl.finished hwhole

/-! ## The acts -/

/-- An entry that neither starts a batch nor counts a response is in turn. -/
theorem InTurn.idle {o : Obs} {older : List Obs} (hstarted : o.startedOn = none)
    (hdecremented : o.decremented = none) : InTurn F o older := by
  simp [InTurn, hstarted, hdecremented]

theorem inTurn_append {noted h : List Obs} (hh : Each (InTurn F) h)
    (hnoted : ∀ o ∈ noted, o.startedOn = none ∧ o.decremented = none) :
    Each (InTurn F) (noted ++ h) :=
  hh.append fun o ho _ => .idle (hnoted o ho).1 (hnoted o ho).2

theorem Batches.of_same (hl : Batches F S stopAt l) (hturns : Turns S.cfg.pipeline l')
    (hframed : Framed F S.cfg.pipeline l') (hsame : Same l'.history l.history)
    (hrequest : l'.c.request = l.c.request) (hstop : l'.thread.stopAt = l.thread.stopAt) :
    Batches F S stopAt l' := by
  obtain ⟨noted, hhistory, hnoted⟩ := hsame.silent
  refine ⟨hturns, hframed, ?_, ?_, fun hbefore n => ?_, hstop.trans hl.stop⟩
  · rw [hhistory]
    exact inTurn_append hl.inTurn fun o ho => ⟨(hnoted o ho).1, (hnoted o ho).2.1⟩
  · rw [hrequest]
    exact hl.static
  · rw [hsame.counted, hsame.answered]
    rw [hhistory] at hbefore
    exact hl.counted_eq (hbefore.of_suffix (List.suffix_append _ _)) n

theorem Batches.startBatch {i : WriteInput} (hl : Batches F S stopAt l)
    (hturns : Turns S.cfg.pipeline (startBatch S i l)) (hshape : Shape l)
    (hcalls : l.Calls fd writable .socketWriteable) (hwritten : l.c.written = 0)
    (hrequests : Each (Requests F S.cfg.pipeline) (startBatch S i l).history) :
    Batches F S stopAt (startBatch S i l) := by
  have hrequest : F.Exactly S.cfg.pipeline (Wrkx.startBatch S i l).c.request := by
    rw [startBatch_history] at hrequests
    by_cases hdynamic : S.cfg.dynamic = true
    · rw [if_pos hdynamic] at hrequests
      simpa [startBatch_c, hdynamic] using hrequests.2.2.1 _ rfl
    · simpa [startBatch_c, hdynamic] using hl.static (by simpa using hdynamic)
  obtain ⟨noted, hhistory, huntagged⟩ := startBatch_noted S i l
  have hsame : Same (noted ++ l.history) l.history :=
    .of_silent fun o ho n => .of_untagged (huntagged o ho)
  obtain ⟨-, hcounted, -⟩ := hl.turns.stage.of_unwritten hshape hcalls hwritten
  have howed : owed F l.tcp (noted ++ l.history) = 0 := by
    have hle := hl.turns.counted_le l.tcp
    rw [owed, hsame.stream, hsame.answered, hl.framed.count_eq hwritten]
    omega
  refine ⟨hturns, hl.framed.startBatch hwritten hrequest, ?_, fun h => ?_, fun hbefore n => ?_,
    by simpa using hl.stop⟩
  · rw [hhistory]
    exact ⟨⟨fun n hn => Option.some.inj hn ▸ howed, by simp [Obs.decremented]⟩,
      inTurn_append hl.inTurn fun o ho => ⟨(Silent.of_untagged (n := 0) (huntagged o ho)).startedOn,
        (Silent.of_untagged (n := 0) (huntagged o ho)).decremented⟩⟩
  · rw [startBatch_c, h]
    exact hl.static h
  · rw [hhistory] at hbefore ⊢
    have heq := hl.counted_eq (hbefore.of_suffix ⟨_ :: noted, rfl⟩) n
    rw [← hsame.counted, ← hsame.answered] at heq
    exact heq

theorem Batches.acceptBytes {n : ℕ} (hl : Batches F S stopAt l)
    (hturns : Turns S.cfg.pipeline (acceptBytes n fd l)) (hshape : Shape l)
    (hcalls : l.Calls fd writable .socketWriteable) (hbatch : l.InBatch) :
    Batches F S stopAt (acceptBytes n fd l) := by
  obtain ⟨noted, hhistory, hnoted⟩ := acceptBytes_noted n fd l
  refine ⟨hturns, hl.framed.acceptBytes hl.turns.stage hshape hcalls hbatch, ?_, ?_,
    fun hbefore n => ?_, quiet_acceptBytes.stopAt.trans hl.stop⟩
  · rw [hhistory]
    rcases hnoted with rfl | rfl
    · exact ⟨.idle rfl rfl, hl.inTurn⟩
    · exact ⟨.idle rfl rfl, .idle rfl rfl, hl.inTurn⟩
  · rw [acceptBytes_c]
    exact hl.static
  · rw [hhistory] at hbefore
    rw [counted_acceptBytes, answered_acceptBytes]
    have hbefore' := hbefore.of_suffix (List.suffix_append noted _)
    exact hl.counted_eq hbefore'.2 n

/-- The response that comes is owed for a batch that has begun. -/
theorem answered_lt_of_answers {i : CompleteInput} (hl : Framed F k l)
    (hanswers : Each (Answers F) (respond S i l).history) :
    answered l.tcp l.history < k * begun l.tcp l.history := by
  have hanswered : answered l.tcp l.history < F.count (stream l.tcp l.history) := by
    have := hanswers.at_entry (suffix_received S i l) _ rfl
    simpa [answered, stream, Obs.acceptedOn, Obs.completes] using this
  exact hanswered.trans_le hl.count_le

theorem Batches.respond {i : CompleteInput} (hl : Batches F S stopAt l)
    (hturns : Turns S.cfg.pipeline (respond S i l)) (hshape : Shape l)
    (hcalls : l.Calls fd false .socketReadable)
    (hanswers : Each (Answers F) (respond S i l).history) :
    Batches F S stopAt (respond S i l) := by
  have howed := (hl.turns.counted_le l.tcp).trans_lt (answered_lt_of_answers hl.framed hanswers)
  obtain ⟨delivered, measured, hhistory, hdelivered, hmeasured⟩ := respond_noted S i l
  have hidle : ∀ o : Obs, o.tcp = none → o.startedOn = none ∧ o.decremented = none := fun o ho =>
    ⟨(Silent.of_untagged (n := 0) ho).startedOn, (Silent.of_untagged (n := 0) ho).decremented⟩
  refine ⟨hturns, hl.framed.respond hl.turns.stage hshape hcalls howed, ?_, ?_,
    fun hbefore n => ?_, respond_stopAt.trans hl.stop⟩
  · have hreceived : Each (InTurn F)
        (delivered ++ .complete l.tcp i.now i.status :: .clock i.now :: l.history) :=
      inTurn_append ⟨.idle rfl rfl, .idle rfl rfl, hl.inTurn⟩ fun o ho => hidle o (hdelivered o ho)
    rw [hhistory]
    rcases hmeasured with ⟨-, rfl⟩ | ⟨-, recorded, latency, rfl, hrecorded, hlatency⟩
    · exact hreceived
    · rw [List.append_assoc]
      refine inTurn_append ⟨⟨by simp [Obs.startedOn], fun pending hpending => ?_⟩,
        .idle (hidle _ hlatency).1 (hidle _ hlatency).2, hreceived⟩
        fun o ho => hidle o (hrecorded o ho)
      exact Option.some.inj hpending ▸ hl.turns.stage.pending_pos howed
  · rw [respond_request]
    exact hl.static
  · have hnow : i.now < l.thread.stopAt := by
      rw [hl.stop]
      exact hbefore.at_entry (suffix_received S i l) _ rfl
    have heq := hl.counted_eq (hbefore.of_suffix suffix_respond) n
    rw [counted_respond, answered_respond, heq]
    simp [hnow]

/-- Every act keeps the messages on the wire in step with `c->pending`. -/
theorem Act.batches (hact : Act S l l') (halone : Alone l) (hlawful : Lawful F S l'.history)
    (hl : Batches F S stopAt l) : Batches F S stopAt l' := by
  obtain ⟨⟨hrequests, hanswers⟩, hown⟩ := hlawful
  have hstop := hact.stopAt_eq
  have hturns : Turns S.cfg.pipeline l' := by
    refine hact.turns halone hown (fun i heq => ?_) hl.turns
    rw [heq] at hanswers
    exact answered_lt_of_answers hl.framed hanswers
  cases hact.turn halone with
  | aside noted h =>
    exact hl.of_same hturns (hl.framed.of_aside h) h.same h.request hstop
  | connect noted hdown hconnects hhistory huntagged htcp hrequest hfirst h =>
    refine hl.of_same hturns (.of_fresh fun o ho => ?_)
      (same_connect hconnects hhistory huntagged h) ?_ hstop
    · rw [h.tcp]
      exact hdown.fresh hconnects o (by simpa [h.history] using ho)
    · rw [h.request, hconnects.c_eq, hrequest]
  | established fd writable hcalls =>
    exact hl.of_same hturns
      (.openSocket (hl.turns.stage.of_connected halone.shape hcalls)) openSocket_same (by simp)
      hstop
  | park fd writable armed wait hcalls hwritten =>
    refine hl.of_same hturns (hl.framed.of_same park_same rfl
      (unsent_of_mem_iff rfl rfl rfl ?_) rfl rfl ?_) park_same rfl hstop
    · simp [park_history]
    · rw [park_same.counted, park_c]
  | resume id harmed =>
    refine hl.of_same hturns (hl.framed.of_same resume_same (by simp)
      (unsent_of_mem_iff (by simp) (by simp) (by simp) ?_) (by simp) (by simp) ?_) resume_same
      (by simp) hstop
    · simp
    · rw [resume_same.counted, resume_c]
  | start fd writable i hcalls hwritten =>
    exact hl.startBatch hturns halone.shape hcalls hwritten hrequests
  | wrote fd writable n hcalls hbatch =>
    exact hl.acceptBytes hturns halone.shape hcalls hbatch
  | respond fd i hcalls => exact hl.respond hturns halone.shape hcalls hanswers

/-! ## Runs -/

theorem Start.batches (start : Start)
    (hstatic : S.cfg.dynamic = false → F.Exactly S.cfg.pipeline start.request) :
    Batches F S start.stopAt start.local where
  turns := start.turns _
  framed := .of_fresh fun _ ho => absurd ho List.not_mem_nil
  inTurn := trivial
  static := hstatic
  counted_eq := fun _ _ => rfl
  stop := rfl

/-- What is owed on the current TCP connection once a batch is written whole. -/
theorem Batches.pending_eq (hl : Batches F S stopAt l)
    (hbefore : Each (BeforeStop stopAt) l.history)
    (hwhole : writtenWhole l.tcp l.history = true) :
    l.c.pending = owed F l.tcp l.history := by
  have hcounted := hl.counted_eq hbefore l.tcp
  obtain ⟨hwritten, hpending⟩ := hl.framed.finished hwhole
  rw [owed, hl.framed.count_eq hwritten]
  omega

/-- In a run before `stop_at` whose server answers whole requests and nothing else, no batch
    starts while a response is owed, `--c->pending` does not wrap, and `c->pending` is what is
    owed for a batch that is written whole, as long as the time events that find a send due
    were armed on the current TCP connection. -/
theorem batches_accounted {start : Start} {moves : List Move} (h : start.run S moves = some l)
    (hstatic : S.cfg.dynamic = false → F.Exactly S.cfg.pipeline start.request)
    (hrequests : Each (Requests F S.cfg.pipeline) l.history)
    (hanswers : Each (Answers F) l.history)
    (hbefore : Each (BeforeStop start.stopAt) l.history)
    (hown : Each ResumesOwn l.history) : Accounted F l := by
  have hinv := Start.run_alone (I := Batches F S start.stopAt) backward_lawful
    (fun _ _ hact halone hlawful hl => hact.batches halone hlawful hl) h
    ⟨⟨hrequests, hanswers⟩, hown⟩ (start.batches hstatic)
  exact ⟨hinv.2.inTurn, hinv.2.pending_eq hbefore⟩

/-- Messages of three bytes. -/
def Example.threes : Framing UInt8 where
  cut s := if 3 ≤ s.length then some 3 else none
  pos h := by
    split at h
    · exact Option.some.inj h ▸ Nat.succ_pos 2
    · cases h
  le_length h := by
    split at h
    · exact Option.some.inj h ▸ ‹_›
    · cases h
  stable h t := by
    split at h
    · rw [if_pos (by rw [List.length_append]; omega), h]
    · cases h

/-- Two batches of two requests; the first is written in two parts and answered in between. -/
def Example.pipelined : Option Local :=
  (start [71, 69, 84, 71, 69, 84] 10000).run (setting 2 false)
    [connect 5 3, opens 3, write 3 10 [] (.ok 4), read 3 [completed 50 true (connects 3)],
      write 3 60 [] (.ok 2), read 3 [completed 70 true (connects 3)], write 3 80 [] .retry,
      timer 3 1000, write 3 1100 [] (.ok 6), read 3 [completed 1200 true (connects 3)]]

theorem batches_accounted_pipelined : ∃ l : Local, Example.pipelined = some l ∧
    Obs.decrement 1 2 ∈ l.history ∧ Accounted Example.threes l := by
  have hrun : ∃ l : Local, Example.pipelined = some l ∧
      ((Each (Requests Example.threes 2) l.history ∧ Each (Answers Example.threes) l.history) ∧
        Each (BeforeStop 10000) l.history ∧ Each ResumesOwn l.history) ∧
      Obs.decrement 1 2 ∈ l.history :=
    exists_of_any (by decide +kernel)
  obtain ⟨l, hl, ⟨⟨hrequests, hanswers⟩, hbefore, hown⟩, hdecrement⟩ := hrun
  exact ⟨l, hl, hdecrement,
    batches_accounted hl (fun _ => by decide) hrequests hanswers hbefore hown⟩

/-- The peer hangs up while a time event is armed. It fires for the next TCP connection, after
    the batch there was written. -/
def Example.stale : Option Local :=
  (start [71, 69, 84] 10000).run (setting 1 false)
    [connect 5 3, opens 3, write 3 10 [] (.ok 3), read 3 [completed 50 true (connects 3)],
      write 3 60 [] (.ok 3), hangUp 3 4, opens 4, write 4 1000 [] (.ok 3), timer 3 1100,
      write 4 1200 [] (.ok 3), read 4 [completed 1300 true (connects 4)],
      read 4 [completed 1400 true (connects 4)]]

/-- With a timer of an earlier TCP connection a batch starts while a response is owed, and
    `c->pending` wraps. -/
theorem stale_timer_overlaps : ∃ l : Local, Example.stale = some l ∧
    ((Each (Requests Example.threes 1) l.history ∧ Each (Answers Example.threes) l.history) ∧
      Each (BeforeStop 10000) l.history) ∧ ¬ Accounted Example.threes l := by
  have hrun : ∃ l : Local, Example.stale = some l ∧
      ((Each (Requests Example.threes 1) l.history ∧ Each (Answers Example.threes) l.history) ∧
        Each (BeforeStop 10000) l.history) ∧
      ¬ Each (InTurn Example.threes) l.history :=
    exists_of_any (by decide +kernel)
  obtain ⟨l, hl, hlawful, hturn⟩ := hrun
  exact ⟨l, hl, hlawful, fun h => hturn h.inTurn⟩

end Wrkx
