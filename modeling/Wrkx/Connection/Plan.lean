import Wrkx.Base.Rate
import Wrkx.Connection.Latency
import Wrkx.Connection.Turns

/-!
# The constant-throughput plan

A connection sends its batches no earlier than the plan has their first request, and while it
is behind no earlier than the catch-up plan, at twice the rate, permits. With one batch in
flight at a time this bounds how many batches have begun at any time, whatever the pacing
decisions of `socket_writeable` and `delay_request` were in between.

## Main results

- `Act.planned` — every act keeps the connection on its plan
- `follows_plan` — so does every run on one TCP connection
-/

namespace Wrkx

open History

/-! ## Assumptions on a run -/

/-- A response answers a request of a batch that has begun on the TCP connection. -/
def AnswersBatches (k : ℕ) (o : Obs) (older : List Obs) : Prop :=
  ∀ n ∈ o.completedOn, answered n older < k * begun n older

instance (k : ℕ) (o : Obs) (older : List Obs) : Decidable (AnswersBatches k o older) :=
  inferInstanceAs (Decidable (∀ n ∈ o.completedOn, answered n older < k * begun n older))

/-- What is assumed of a history. -/
def Undisturbed (k : ℕ) (h : List Obs) : Prop :=
  (Each InOrder h ∧ Each (AnswersBatches k) h) ∧ .closed ∉ h

theorem backward_undisturbed {k : ℕ} : Backward (Undisturbed k) :=
  (backward_each.and backward_each).and backward_notMem

/-! ## What holds of the plan -/

/-- The time and the completions at which the connection fell behind, if it has not caught up
    since. -/
def fallen : List Obs → Option (ℕ × ℕ)
  | [] => none
  | .onPace :: _ => none
  | .fellBehind now m :: _ => some (now, m)
  | _ :: older => fallen older

/-- The time of a batch start and the completions it found. -/
def Obs.startedAt : Obs → Option (ℕ × ℕ)
  | .batchStart _ now m => some (now, m)
  | _ => none

/-- A batch that starts while the connection is behind keeps to the catch-up plan. -/
def CatchesUp (L : ℚ) (o : Obs) (older : List Obs) : Prop :=
  ∀ start ∈ o.startedAt, ∀ fall ∈ fallen older, fall.2 ≤ start.2 ∧
    (start.2 : ℚ) - fall.2 ≤ 2 * L * ((start.1 : ℚ) - fall.1 + 1)

/-- A connection follows the plan of the throughput `L`. -/
structure FollowsPlan (S : Setting) (L : ℚ) (l : Local) : Prop where
  begun_le : ∀ t : ℕ, (∀ t₀ ∈ lastClock l.history, t₀ ≤ t) → begun l.tcp l.history ≤
    ⌊L * ((t : ℚ) - l.c.threadStart + 1) / S.cfg.pipeline⌋₊ + 1
  catchesUp : Each (CatchesUp L) l.history
  permits : ∀ now, (usecToNextSend S now l).1 = 0 ↔ Permits S now (usecToNextSend S now l).2.c
  waits : ∀ now, (usecToNextSend S now l).1 ≠ 0 → now + (usecToNextSend S now l).1 =
    if now < planned S l.c then planned S l.c
    else caughtUpPlanned S (usecToNextSend S now l).2.c

/-! ## The invariant -/

/-- The connection has had no more than one TCP connection. -/
structure Single (l : Local) : Prop where
  tcp_le : l.tcp ≤ 1
  parked : ∀ id n, .parked id n ∈ l.history → n = 1
  resumes : Each ResumesOwn l.history

/-- The invariant behind `FollowsPlan`. -/
structure Planned (S : Setting) (L : ℚ) (l : Local) : Prop where
  throughput : l.c.throughput = L
  catchUpThroughput : l.c.catchUpThroughput = L * 2
  unconnected : l.tcp = 0 → l.c.complete = 0
  complete_eq : l.c.complete = counted l.tcp l.history
  started : ∀ now complete older, l.history = .batchStart l.tcp now complete :: older →
    ((S.cfg.pipeline * begun l.tcp l.history : ℕ) : ℚ) < L * ((now : ℚ) - l.c.threadStart + 1) ∧
      lastClock l.history = some now
  ahead : ∀ m, begun l.tcp l.history = m + 1 → ∃ t, lastClock l.history = some t ∧
    ((S.cfg.pipeline * m : ℕ) : ℚ) < L * ((t : ℚ) - l.c.threadStart + 1)
  behind : l.c.caughtUp = false ∧
      fallen l.history = some (l.c.catchUpStartTime, l.c.completeAtCatchUpStart) ∧
      l.c.completeAtCatchUpStart ≤ l.c.complete ∨
    l.c.caughtUp = true ∧ fallen l.history = none
  catchesUp : Each (CatchesUp L) l.history

section Acts

variable {S : Setting} {L : ℚ} {l l' : Local} {fd : Fd} {writable : Bool}

/-! ## One TCP connection -/

/-- An observation of no TCP connection neither parks nor resumes one. -/
theorem untimed_of_untagged {o : Obs} (ho : o.tcp = none) :
    (∀ id n, o ≠ .parked id n) ∧ o.resumedOn = none := by
  cases o with
  | parked | resumed => cases ho
  | _ => exact ⟨by simp, rfl⟩

theorem Single.of_noted (hl : Single l) (noted : List Obs)
    (hhistory : l'.history = noted ++ l.history) (htcp : l'.tcp ≤ 1)
    (hnoted : ∀ o ∈ noted, (∀ id n, o ≠ .parked id n) ∧ o.resumedOn = none) : Single l' := by
  refine ⟨htcp, fun id n h => ?_, ?_⟩
  · rw [hhistory] at h
    exact hl.parked id n ((List.mem_append.mp h).resolve_left fun h => (hnoted _ h).1 id n rfl)
  · rw [hhistory]
    exact hl.resumes.append fun o ho older timer htimer => by simp [(hnoted o ho).2] at htimer

theorem Act.single (hact : Act S l l') (halone : Alone l) (hclosed : .closed ∉ l'.history)
    (hl : Single l) : Single l' := by
  cases hact.turn halone with
  | aside noted h =>
    exact hl.of_noted noted h.history (h.tcp.trans_le hl.tcp_le) fun o ho =>
      untimed_of_untagged (h.untagged o ho)
  | connect noted hdown hconnects hhistory huntagged htcp hrequest hfirst h =>
    obtain ⟨ok, hok⟩ := hconnects.history_eq
    obtain ⟨o, ho, hhistory'⟩ : ∃ o : Obs, o.tcp = none ∧ l'.history = (o :: noted) ++ l.history :=
      ⟨_, rfl, by rw [h.history, hok, hhistory]; rfl⟩
    -- without a close this is the first connect, and there has been no TCP connection before
    have hzero : l.tcp = 0 := hfirst.resolve_right fun hmem => hclosed (by simp [hhistory', hmem])
    refine hl.of_noted (o :: noted) hhistory' ?_ fun o' ho' => ?_
    · rw [h.tcp, hconnects.tcp_eq, htcp, hzero]
    · rcases List.mem_cons.mp ho' with rfl | ho'
      · exact untimed_of_untagged ho
      · exact untimed_of_untagged (huntagged o' ho')
  | established fd writable hcalls =>
    exact hl.of_noted [_] openSocket_history (openSocket_tcp.trans_le hl.tcp_le)
      (by simp [Obs.resumedOn])
  | park fd writable armed wait hcalls hwritten =>
    have htcp : l.tcp = 1 :=
      le_antisymm hl.tcp_le (Nat.pos_of_ne_zero (halone.basic.tcp_of_calls hcalls))
    refine ⟨hl.tcp_le, fun id n h => ?_, ?_⟩
    · rw [park_noted] at h
      simp only [List.cons_append, List.nil_append, List.mem_cons, Obs.parked.injEq, reduceCtorEq,
        false_or] at h
      rcases h with ⟨-, rfl⟩ | h
      · exact htcp
      · exact hl.parked id n h
    · rw [park_noted]
      exact hl.resumes.append (by simp [ResumesOwn, Obs.resumedOn])
  | resume id harmed =>
    -- the timer was set on the one TCP connection there is
    have htcp : l.tcp = 1 :=
      le_antisymm hl.tcp_le (Nat.pos_of_ne_zero (halone.basic.tcp_of_timers harmed))
    obtain ⟨-, n, hparked⟩ := halone.shape.timers id _ harmed
    refine ⟨by simpa using hl.tcp_le, fun id n h => hl.parked id n (by simpa using h), ?_⟩
    rw [resume_history]
    refine ⟨fun timer htimer => ?_, hl.resumes⟩
    rw [← Option.some.inj htimer, htcp, ← hl.parked id n hparked]
    exact hparked
  | start fd writable i hcalls hwritten =>
    obtain ⟨noted, hhistory, huntagged⟩ := startBatch_noted S i l
    refine hl.of_noted (_ :: noted) hhistory (startBatch_tcp.trans_le hl.tcp_le) fun o ho => ?_
    rcases List.mem_cons.mp ho with rfl | ho
    · exact ⟨by simp, rfl⟩
    · exact untimed_of_untagged (huntagged o ho)
  | wrote fd writable n hcalls hbatch =>
    obtain ⟨noted, hhistory, hnoted⟩ := acceptBytes_noted n fd l
    refine hl.of_noted (noted ++ [_]) (by simpa using hhistory)
      (acceptBytes_tcp.trans_le hl.tcp_le) ?_
    rcases hnoted with rfl | rfl <;> simp [Obs.resumedOn]
  | respond fd i hcalls =>
    obtain ⟨delivered, measured, hhistory, hdelivered, hmeasured⟩ := respond_noted S i l
    refine hl.of_noted (measured ++ (delivered ++ [_, _])) (by simpa using hhistory)
      (respond_tcp.trans_le hl.tcp_le) fun o ho => ?_
    rcases List.mem_append.mp ho with ho | ho
    · rcases hmeasured with ⟨-, rfl⟩ | ⟨-, recorded, latency, rfl, hrecorded, hlatency⟩
      · cases ho
      · rcases List.mem_append.mp ho with ho | ho
        · exact untimed_of_untagged (hrecorded o ho)
        · rcases List.mem_cons.mp ho with rfl | ho
          · exact ⟨by simp, rfl⟩
          · obtain rfl := List.mem_singleton.mp ho
            exact untimed_of_untagged hlatency
    · rcases List.mem_append.mp ho with ho | ho
      · exact untimed_of_untagged (hdelivered o ho)
      · rcases List.mem_cons.mp ho with rfl | ho
        · exact ⟨by simp, rfl⟩
        · obtain rfl := List.mem_singleton.mp ho
          exact ⟨by simp, rfl⟩

/-! ## Keeping to the plan -/

/-- An entry that says nothing about the pace. -/
structure Steady (o : Obs) : Prop where
  fallen : ∀ h, fallen (o :: h) = Wrkx.fallen h
  startedAt : o.startedAt = none

theorem fallen_append {noted h : List Obs} (hnoted : ∀ o ∈ noted, Steady o) :
    fallen (noted ++ h) = fallen h := by
  induction noted with
  | nil => rfl
  | cons o noted ih =>
    rw [List.cons_append, (hnoted o (by simp)).fallen]
    exact ih fun o ho => hnoted o (by simp [ho])

theorem catchesUp_append {noted h : List Obs} (hh : Each (CatchesUp L) h)
    (hnoted : ∀ o ∈ noted, Steady o) : Each (CatchesUp L) (noted ++ h) :=
  hh.append fun o ho older start hstart => by simp [(hnoted o ho).startedAt] at hstart

/-- The fields of a connection that the plan is made of, but for the completions. -/
structure Kept (c c' : Connection) : Prop where
  throughput : c'.throughput = c.throughput
  catchUpThroughput : c'.catchUpThroughput = c.catchUpThroughput
  threadStart : c'.threadStart = c.threadStart
  caughtUp : c'.caughtUp = c.caughtUp
  catchUpStartTime : c'.catchUpStartTime = c.catchUpStartTime
  completeAtCatchUpStart : c'.completeAtCatchUpStart = c.completeAtCatchUpStart

theorem Kept.rfl {c : Connection} : Kept c c :=
  ⟨.refl _, .refl _, .refl _, .refl _, .refl _, .refl _⟩

/-- An act that begins no batch and decides nothing about the pace. -/
theorem Planned.of_kept (hl : Planned S L l) (hL : 0 < L) (hkept : Kept l.c l'.c)
    (noted : List Obs) (hhistory : l'.history = noted ++ l.history)
    (horder : Each InOrder l'.history) (htcp : l'.tcp = l.tcp)
    (hcomplete : l.c.complete ≤ l'.c.complete)
    (hcounted : l'.c.complete = counted l.tcp l'.history)
    (hunconnected : l.tcp = 0 → l'.c.complete = 0)
    (hbegun : begun l.tcp l'.history = begun l.tcp l.history)
    (hhead : ∀ o older, l'.history = o :: older → o.startedOn ≠ none → l'.history = l.history)
    (hfallen : fallen l'.history = fallen l.history)
    (hcatchesUp : Each (CatchesUp L) l'.history) : Planned S L l' := by
  refine ⟨hkept.throughput.trans hl.throughput,
    hkept.catchUpThroughput.trans hl.catchUpThroughput, fun h => hunconnected (htcp ▸ h),
    by rw [htcp, hcounted], fun now complete older h => ?_, fun m h => ?_, ?_, hcatchesUp⟩
  · rw [htcp] at h ⊢
    rw [hbegun, hkept.threadStart]
    have heq := hhead _ _ h (by simp [Obs.startedOn])
    rw [heq] at h ⊢
    exact hl.started now complete older h
  · rw [htcp, hbegun] at h
    obtain ⟨t, ht, hcovers⟩ := hl.ahead m h
    rw [hhistory] at horder ⊢
    obtain ⟨t', ht', hle⟩ := lastClock_append horder ht
    rw [hkept.threadStart]
    exact ⟨t', ht', Rate.covers_mono hL hle hcovers⟩
  · rw [hkept.caughtUp, hkept.catchUpStartTime, hkept.completeAtCatchUpStart, hfallen]
    refine hl.behind.imp_left fun hbehind => ?_
    obtain ⟨h, hfallen, hle⟩ := hbehind
    exact ⟨h, hfallen, hle.trans hcomplete⟩

/-- An act whose entries say nothing about the turns or the pace. -/
theorem Planned.of_same (hl : Planned S L l) (hL : 0 < L) (hkept : Kept l.c l'.c)
    (noted : List Obs) (hhistory : l'.history = noted ++ l.history)
    (horder : Each InOrder l'.history) (htcp : l'.tcp = l.tcp)
    (hcomplete : l'.c.complete = l.c.complete)
    (hsame : Same l'.history l.history) (hnoted : ∀ o ∈ noted, Steady o) : Planned S L l' := by
  refine hl.of_kept hL hkept noted hhistory horder htcp hcomplete.ge ?_ (fun h => ?_)
    (hsame.begun _) hsame.unstarted ?_ ?_
  · rw [hsame.counted, hcomplete, hl.complete_eq]
  · rw [hcomplete, hl.unconnected h]
  · rw [hhistory, fallen_append hnoted]
  · rw [hhistory]
    exact catchesUp_append hl.catchesUp hnoted

/-- The pacing decision. -/
theorem Planned.usecToNextSend {now : Micros} (hl : Planned S L l) (hL : 0 < L)
    (horder : Each InOrder (usecToNextSend S now l).2.history) :
    Planned S L (usecToNextSend S now l).2 := by
  obtain ⟨noted, hhistory, hnoted⟩ := usecToNextSend_history S now l
  have hhistory' : (Wrkx.usecToNextSend S now l).2.history =
      (noted ++ [.clock now]) ++ l.history := by simp [hhistory]
  have hsilent : ∀ o ∈ noted ++ [.clock now], o.tcp = none := by
    rcases hnoted with rfl | rfl | rfl <;> simp [Obs.tcp]
  have hsame : Same (Wrkx.usecToNextSend S now l).2.history l.history := by
    rw [hhistory']
    exact .of_silent fun o ho n => .of_untagged (hsilent o ho)
  have hc : (Wrkx.usecToNextSend S now l).2.c = _ := usecToNextSend_c
  refine ⟨?_, ?_, ?_, ?_, fun t m older h => ?_, fun m h => ?_, ?_, ?_⟩
  · rw [hc]
    exact hl.throughput
  · rw [hc]
    exact hl.catchUpThroughput
  · rw [hc, usecToNextSend_tcp]
    exact hl.unconnected
  · rw [hc, usecToNextSend_tcp, hsame.counted]
    exact hl.complete_eq
  · have heq := hsame.unstarted _ _ h (by simp [Obs.startedOn])
    have hlength := congrArg List.length heq
    rw [hhistory'] at hlength
    simp only [List.length_append, List.length_cons, List.length_nil] at hlength
    omega
  · rw [usecToNextSend_tcp, hsame.begun] at h
    obtain ⟨t, ht, hcovers⟩ := hl.ahead m h
    rw [hhistory'] at horder
    obtain ⟨t', ht', hle⟩ := lastClock_append horder ht
    rw [hc, hhistory']
    exact ⟨t', ht', Rate.covers_mono hL hle hcovers⟩
  · rcases usecToNextSend_cases S now l with ⟨-, h⟩ | ⟨-, hcaught, h⟩ | ⟨-, hcaught, h⟩ <;> rw [h]
    · exact .inr ⟨rfl, rfl⟩
    · exact .inl ⟨rfl, rfl, le_rfl⟩
    · exact hl.behind
  · rw [hhistory']
    refine hl.catchesUp.append fun o ho older start hstart => ?_
    have : o.startedAt = none := by
      have := hsilent o ho
      cases o <;> first | rfl | cases this
    simp [this] at hstart

theorem startBatch_steady (S : Setting) (i : WriteInput) (l : Local) : ∃ noted : List Obs,
    (startBatch S i l).history =
      .batchStart l.tcp i.start l.c.complete :: .clock i.start :: (noted ++ l.history) ∧
      ∀ o ∈ noted, o.tcp = none ∧ Steady o := by
  rw [startBatch_history]
  split_ifs
  · exact ⟨[.request i.request], rfl, fun o ho =>
      List.mem_singleton.mp ho ▸ ⟨rfl, fun _ => rfl, rfl⟩⟩
  · exact ⟨[], rfl, by simp⟩

/-- A batch that starts is on both plans. -/
theorem Planned.startBatch {i : WriteInput} (hl : Planned S L l) (hL : 0 < L)
    (hquot : S.quot = exactQuot) (hcounted : counted l.tcp l.history =
      S.cfg.pipeline * Wrkx.begun l.tcp l.history)
    (hclock : lastClock l.history = some i.now.val) (hpermits : Permits S i.now l.c)
    (horder : Each InOrder (startBatch S i l).history) : Planned S L (startBatch S i l) := by
  obtain ⟨noted, hhistory, hnoted⟩ := startBatch_steady S i l
  have hsame : Same (.clock i.start :: noted ++ l.history) l.history := by
    refine .of_silent fun o ho n => .of_untagged ?_
    rcases List.mem_cons.mp ho with rfl | ho
    · rfl
    · exact (hnoted o ho).1
  have hfallen : fallen (.clock i.start :: (noted ++ l.history)) = fallen l.history :=
    show fallen (noted ++ l.history) = _ from fallen_append fun o ho => (hnoted o ho).2
  have hle : i.now.val ≤ i.start.val := by
    rw [startBatch_history] at horder
    split_ifs at horder <;> exact horder.2.1 _ rfl _ (by simpa [lastClock] using hclock)
  have hlast : lastClock (Wrkx.startBatch S i l).history = some (i.start : ℕ) := by
    rw [hhistory]
    rfl
  have hbegun : Wrkx.begun l.tcp (Wrkx.startBatch S i l).history =
      Wrkx.begun l.tcp l.history := by
    rw [hhistory]
    exact hsame.begun _
  -- The plan has the first request of the batch by now.
  have hplanned : ((S.cfg.pipeline * Wrkx.begun l.tcp l.history : ℕ) : ℚ) <
      L * ((i.start : ℕ) - (l.c.threadStart : ℚ) + 1) := by
    have hdue : Rate.due L l.c.threadStart l.c.complete ≤ i.now := by
      have := hpermits.planned
      rw [planned, hquot, exactQuot, hl.throughput] at this
      exact this
    rw [← hcounted, ← hl.complete_eq]
    exact Rate.covers_mono hL hle ((Rate.due_le_iff hL).mp hdue)
  have hc := startBatch_c (S := S) (i := i) (l := l)
  refine ⟨?_, ?_, ?_, ?_, fun now m older h => ?_, fun m h => ?_, ?_, ?_⟩
  · rw [hc]
    exact hl.throughput
  · rw [hc]
    exact hl.catchUpThroughput
  · rw [hc, startBatch_tcp]
    exact hl.unconnected
  · rw [hc, startBatch_tcp, hhistory]
    exact hl.complete_eq.trans (hsame.counted _).symm
  · rw [startBatch_tcp] at h ⊢
    rw [hhistory] at h
    obtain ⟨-, rfl, -⟩ := Obs.batchStart.inj (List.cons.inj h).1
    rw [hbegun, hc]
    exact ⟨hplanned, hlast⟩
  · rw [startBatch_tcp, hbegun] at h
    obtain ⟨t, ht, hcovers⟩ := hl.ahead m h
    obtain rfl : i.now.val = t := Option.some.inj (hclock ▸ ht)
    rw [hc]
    exact ⟨i.start, hlast, Rate.covers_mono hL hle hcovers⟩
  · rw [hc, hhistory]
    exact hl.behind.imp (fun h => ⟨h.1, hfallen.trans h.2.1, h.2.2⟩)
      fun h => ⟨h.1, hfallen.trans h.2⟩
  · rw [hhistory]
    refine ⟨fun start hstart fall hfall => ?_,
      fun start hstart => absurd hstart (by simp [Obs.startedAt]),
      catchesUp_append hl.catchesUp fun o ho => (hnoted o ho).2⟩
    obtain rfl := Option.some.inj hstart
    rcases hl.behind with ⟨-, hfell, hcomplete⟩ | ⟨hcaught, -⟩
    · -- behind, the catch-up plan has permitted the batch as well
      rw [hfallen, hfell] at hfall
      obtain rfl := Option.some.inj hfall
      have hdue : Rate.due (L * 2) l.c.catchUpStartTime
          (l.c.complete - l.c.completeAtCatchUpStart) ≤ i.now := by
        have := hpermits.caughtUpPlanned
        rw [caughtUpPlanned, hquot, exactQuot, hl.catchUpThroughput,
          Word.sub64_of_le hcomplete] at this
        exact this
      have hcovers := Rate.covers_mono (by positivity) hle
        ((Rate.due_le_iff (by positivity)).mp hdue)
      rw [Nat.cast_sub hcomplete] at hcovers
      exact ⟨hcomplete, by simpa [mul_comm] using hcovers.le⟩
    · rw [hpermits.behind] at hcaught
      cases hcaught

/-- The first bytes of a batch are accepted when it was just started. -/
theorem Planned.acceptBytes {n : ℕ} (hl : Planned S L l) (hbatch : l.InBatch) :
    Planned S L (acceptBytes n fd l) := by
  have hc : (Wrkx.acceptBytes n fd l).c = _ := acceptBytes_c
  have hbegun : Wrkx.begun l.tcp (Wrkx.acceptBytes n fd l).history = _ := begun_acceptBytes
  obtain ⟨noted, hhistory, hnoted⟩ := acceptBytes_noted n fd l
  have hsteady : ∀ o ∈ noted ++ [.wrote l.tcp l.c.written l.c.request (accepted n l.c)],
      Steady o := by
    rcases hnoted with rfl | rfl
    · exact fun o ho => List.mem_singleton.mp ho ▸ ⟨fun _ => rfl, rfl⟩
    · intro o ho
      rcases List.mem_cons.mp ho with rfl | ho
      · exact ⟨fun _ => rfl, rfl⟩
      · exact List.mem_singleton.mp ho ▸ ⟨fun _ => rfl, rfl⟩
  have hlast : lastClock (Wrkx.acceptBytes n fd l).history = lastClock l.history := by
    rw [hhistory]
    rcases hnoted with rfl | rfl <;> rfl
  have hhistory' := hhistory.trans (List.append_cons _ _ _)
  refine ⟨?_, ?_, ?_, ?_, fun now m older h => ?_, fun m h => ?_, ?_, ?_⟩
  · rw [hc]
    exact hl.throughput
  · rw [hc]
    exact hl.catchUpThroughput
  · rw [hc, acceptBytes_tcp]
    exact hl.unconnected
  · rw [hc, acceptBytes_tcp, counted_acceptBytes]
    exact hl.complete_eq
  · rw [hhistory] at h
    rcases hnoted with rfl | rfl <;> simp at h
  · rw [acceptBytes_tcp, hbegun] at h
    rw [hlast, hc]
    split_ifs at h with hfirst
    · obtain ⟨now, complete, older, hhead⟩ := hbatch hfirst.2.1
      obtain ⟨hcovers, hclock⟩ := hl.started now complete older hhead
      obtain rfl : Wrkx.begun l.tcp l.history = m := Nat.succ.inj h
      exact ⟨now, hclock, hcovers⟩
    · exact hl.ahead m h
  · rw [hc, hhistory', fallen_append hsteady]
    exact hl.behind
  · rw [hhistory']
    exact catchesUp_append hl.catchesUp hsteady

theorem fallen_respond {i : CompleteInput} :
    fallen (respond S i l).history = fallen l.history := by
  rw [respond_history, deliver_history]
  simp only [delivery, measurement]
  split_ifs <;> rfl

theorem catchesUp_respond {i : CompleteInput} (hl : Each (CatchesUp L) l.history) :
    Each (CatchesUp L) (respond S i l).history := by
  have hidle : ∀ o : Obs, o.startedAt = none → ∀ older, CatchesUp L o older :=
    fun o ho older start hstart => by simp [ho] at hstart
  have hmeasurement : ∀ o ∈ measurement S i.now l.tcp l.c, o.startedAt = none :=
    forall_measurement (fun _ _ => rfl) rfl fun _ _ _ => rfl
  have hdelivery : ∀ o ∈ delivery i l.c, o.startedAt = none := forall_delivery fun _ _ _ _ => rfl
  have hreceived : Each (CatchesUp L) (deliver i l).history := by
    rw [deliver_history]
    exact Each.append ⟨hidle _ rfl _, hidle _ rfl _, hl⟩ fun o ho => hidle o (hdelivery o ho)
  rw [respond_history]
  split_ifs
  · exact hreceived
  · exact hreceived.append fun o ho => hidle o (hmeasurement o ho)

theorem Planned.respond {i : CompleteInput} (hl : Planned S L l) (hL : 0 < L)
    (htcp : l.tcp ≠ 0) (horder : Each InOrder (respond S i l).history) :
    Planned S L (respond S i l) := by
  obtain ⟨delivered, measured, hhistory, -⟩ := respond_noted S i l
  have hcounted := counted_respond (S := S) (i := i) (l := l) (n := l.tcp)
  have hc := respond_c (S := S) (i := i) (l := l)
  have hkept : Kept l.c (Wrkx.respond S i l).c := by
    rw [hc]
    split_ifs <;> constructor <;> simp
  have hcomplete :
      (Wrkx.respond S i l).c.complete = counted l.tcp (Wrkx.respond S i l).history := by
    rw [hc, hcounted, ← hl.complete_eq]
    split_ifs <;> simp_all
    omega
  refine hl.of_kept hL hkept (measured ++ (delivered ++ [_, _])) (by simpa using hhistory) horder
    respond_tcp ?_ hcomplete (fun h => absurd h htcp) begun_respond
    (fun o older h hstarted => ?_) fallen_respond (catchesUp_respond hl.catchesUp)
  · rw [hcomplete, hcounted, hl.complete_eq]
    exact Nat.le_add_right _ _
  · cases o with
    | batchStart => exact absurd h head_respond
    | _ => exact absurd rfl hstarted

/-- The first `connect_socket` starts the plan. -/
theorem Planned.initial {id : ℕ} {now : Micros} {i : ConnectInput} (hl : Planned S L l)
    (halone : Alone l) (htcp : l.tcp = 0) :
    Planned S L ((delayedInitialConnect now i l).setLoop (aeDeleteTimeEvent · id)) := by
  have hconnects := Local.initialConnect_connects now i l
  have hfresh := (halone.shape.down_begun halone.basic htcp now).fresh hconnects
  obtain ⟨ok, hhistory⟩ := hconnects.history_eq
  have hhistory' : (delayedInitialConnect now i l).history =
      [.connect false ok, .clock now] ++ l.history := hhistory
  have hsteady : ∀ o ∈ [Obs.connect false ok, .clock now], Steady o := by
    intro o ho
    rcases List.mem_cons.mp ho with rfl | ho
    · exact ⟨fun _ => rfl, rfl⟩
    · exact List.mem_singleton.mp ho ▸ ⟨fun _ => rfl, rfl⟩
  have hc : (delayedInitialConnect now i l).c =
      { l.c with threadStart := now, fd := (delayedInitialConnect now i l).c.fd } := hconnects.c_eq
  refine ⟨?_, ?_, ?_, ?_, fun now' m older h => ?_, fun m h => ?_, ?_, ?_⟩
  all_goals simp only [setLoop_c, setLoop_tcp, setLoop_history] at *
  · rw [hc]
    exact hl.throughput
  · rw [hc]
    exact hl.catchUpThroughput
  · rw [hc]
    exact fun _ => hl.unconnected htcp
  · rw [counted_eq_zero hfresh, hc]
    exact hl.unconnected htcp
  · rw [hhistory'] at h
    simp at h
  · rw [begun_eq_zero hfresh] at h
    simp at h
  · rw [hhistory', fallen_append hsteady, hc]
    exact hl.behind
  · rw [hhistory']
    exact catchesUp_append hl.catchesUp hsteady

/-- Every act of a connection on its first TCP connection keeps it on its plan. -/
theorem Act.planned (hact : Act S l l') (halone : Alone l) (hL : 0 < L) (hquot : S.quot = exactQuot)
    (hturns : Turns S.cfg.pipeline l) (horder : Each InOrder l'.history)
    (hclosed : .closed ∉ l'.history) (hl : Planned S L l) : Planned S L l' := by
  have haside : ∀ noted : List Obs, l'.history = noted ++ l.history → Kept l.c l'.c →
      l'.tcp = l.tcp → l'.c.complete = l.c.complete →
      (∀ o ∈ noted, o.tcp = none ∧ Steady o) → Planned S L l' := by
    intro noted hhistory hkept htcp hcomplete hnoted
    refine hl.of_same hL hkept noted hhistory horder htcp hcomplete ?_ fun o ho => (hnoted o ho).2
    rw [hhistory]
    exact .of_silent fun o ho n => .of_untagged (hnoted o ho).1
  have hone : ∀ o : Obs, o.tcp = none → Steady o → ∀ o' ∈ [o], o'.tcp = none ∧ Steady o' :=
    fun o htcp hsteady o' ho' => List.mem_singleton.mp ho' ▸ ⟨htcp, hsteady⟩
  cases hact with
  | tick now => exact haside [_] rfl .rfl rfl rfl (hone _ rfl ⟨fun _ => rfl, rfl⟩)
  | thread | fail => exact haside [] rfl .rfl rfl rfl (by simp)
  | parser => exact haside [] rfl ⟨rfl, rfl, rfl, rfl, rfl, rfl⟩ rfl rfl (by simp)
  | initial id now i harmed => exact hl.initial halone (halone.first id _ harmed).2
  | reconnect i hconnected =>
    obtain ⟨ok, hhistory⟩ := (Local.reconnectSocket_connects i l).history_eq
    exact absurd (by simp [hhistory]) hclosed
  | paced now => exact hl.usecToNextSend hL horder
  | park fd writable armed wait hcalls hwritten =>
    refine hl.of_same hL .rfl [_, _] park_history horder rfl rfl park_same fun o ho => ?_
    rcases List.mem_cons.mp ho with rfl | ho
    · exact ⟨fun _ => rfl, rfl⟩
    · exact List.mem_singleton.mp ho ▸ ⟨fun _ => rfl, rfl⟩
  | resume id harmed =>
    exact hl.of_same hL (by rw [resume_c]; exact .rfl) [_] resume_history horder resume_tcp
      (by simp) resume_same fun o ho => List.mem_singleton.mp ho ▸ ⟨fun _ => rfl, rfl⟩
  | start fd writable i hcalls hwritten hclock hpermits =>
    obtain ⟨-, hcounted, -⟩ := hturns.stage.of_unwritten halone.shape hcalls hwritten
    exact hl.startBatch hL hquot hcounted hclock hpermits horder
  | wrote fd writable n hcalls hbatch => exact hl.acceptBytes hbatch
  | refuse fd writable hcalls hbatch =>
    exact haside [_] rfl .rfl rfl rfl (hone _ rfl ⟨fun _ => rfl, rfl⟩)
  | established fd writable hcalls =>
    exact hl.of_same hL (by rw [openSocket_c]; exact ⟨rfl, rfl, rfl, rfl, rfl, rfl⟩) [_]
      openSocket_history horder openSocket_tcp (by simp) openSocket_same
      fun o ho => List.mem_singleton.mp ho ▸ ⟨fun _ => rfl, rfl⟩
  | field fd piece hcalls hwant =>
    exact haside [_] rfl (by rw [headerField_c]; exact ⟨rfl, rfl, rfl, rfl, rfl, rfl⟩) rfl
      (by rw [headerField_c]) (hone _ rfl ⟨fun _ => rfl, rfl⟩)
  | value fd piece hcalls hwant =>
    exact haside [_] rfl (by rw [headerValue_c]; exact ⟨rfl, rfl, rfl, rfl, rfl, rfl⟩) rfl
      (by rw [headerValue_c]) (hone _ rfl ⟨fun _ => rfl, rfl⟩)
  | body fd piece hcalls hwant =>
    exact haside [_] rfl ⟨rfl, rfl, rfl, rfl, rfl, rfl⟩ rfl rfl (hone _ rfl ⟨fun _ => rfl, rfl⟩)
  | respond fd i hcalls => exact hl.respond hL (halone.basic.tcp_of_calls hcalls) horder

end Acts

/-! ## Runs -/

theorem Start.single (start : Start) : Single start.local where
  tcp_le := Nat.zero_le _
  parked := by simp [Start.local]
  resumes := trivial

theorem Start.planned (S : Setting) (start : Start) : Planned S start.throughput start.local where
  throughput := rfl
  catchUpThroughput := rfl
  unconnected := fun _ => rfl
  complete_eq := rfl
  started := by simp [Start.local]
  ahead := by simp [Start.local, begun]
  behind := .inr ⟨rfl, rfl⟩
  catchesUp := trivial

/-- A batch that began was on the plan at the time it began. -/
theorem Planned.begun_le {S : Setting} {L : ℚ} {l : Local} (hl : Planned S L l) (hL : 0 < L)
    (hk : 0 < S.cfg.pipeline) {t : ℕ} (ht : ∀ t₀ ∈ lastClock l.history, t₀ ≤ t) :
    begun l.tcp l.history ≤ ⌊L * ((t : ℚ) - l.c.threadStart + 1) / S.cfg.pipeline⌋₊ + 1 := by
  rcases Nat.eq_zero_or_eq_succ_pred (begun l.tcp l.history) with h | h
  · rw [h]
    exact Nat.zero_le _
  · obtain ⟨t₀, ht₀, hcovers⟩ := hl.ahead _ h
    rw [h]
    exact Rate.begun_le hk (Rate.covers_mono hL (ht t₀ ht₀) hcovers)

/-- On one TCP connection whose server answers the batches that have begun, with the double
    arithmetic read exactly and a clock that does not go back, the batches follow the plan. -/
theorem follows_plan {S : Setting} {start : Start} {moves : List Move} {l : Local}
    (h : start.run S moves = some l) (hquot : S.quot = exactQuot) (hL : 0 < start.throughput)
    (hk : 0 < S.cfg.pipeline) (horder : Each InOrder l.history)
    (hanswers : Each (AnswersBatches S.cfg.pipeline) l.history) (hclosed : .closed ∉ l.history) :
    FollowsPlan S start.throughput l := by
  have hact : ∀ l l', Act S l l' → Alone l → Undisturbed S.cfg.pipeline l'.history →
      Single l ∧ Turns S.cfg.pipeline l ∧ Planned S start.throughput l →
      Single l' ∧ Turns S.cfg.pipeline l' ∧ Planned S start.throughput l' := by
    rintro l l' hact halone ⟨⟨horder, hanswers⟩, hclosed⟩ ⟨hsingle, hturns, hplanned⟩
    have hsingle' := hact.single halone hclosed hsingle
    refine ⟨hsingle', hact.turns halone hsingle'.resumes (fun i heq => ?_) hturns,
      hact.planned halone hL hquot hturns horder hclosed hplanned⟩
    rw [heq] at hanswers
    have hanswered := hanswers.at_entry (suffix_received S i l) _ rfl
    simpa [answered, begun, Obs.completes, Obs.begins] using hanswered
  have hinv := Start.run_alone (I := fun l => Single l ∧ Turns S.cfg.pipeline l ∧
      Planned S start.throughput l) backward_undisturbed hact h ⟨⟨horder, hanswers⟩, hclosed⟩
    ⟨start.single, start.turns _, start.planned S⟩
  obtain ⟨-, -, -, hplanned⟩ := hinv
  exact ⟨fun t ht => hplanned.begun_le hL hk ht, hplanned.catchesUp,
    fun now => usecToNextSend_eq_zero_iff S now l, fun now => usecToNextSend_add S now l⟩

theorem follows_plan_late : ∃ l : Local, Example.late = some l ∧
    begun l.tcp l.history = 2 ∧ FollowsPlan (Example.setting 1 false) (1 / 100) l := by
  have hrun : ∃ l : Local, Example.late = some l ∧
      ((Each InOrder l.history ∧ Each (AnswersBatches 1) l.history) ∧ .closed ∉ l.history) ∧
      begun l.tcp l.history = 2 :=
    exists_of_any (by decide +kernel)
  obtain ⟨l, hl, ⟨⟨horder, hanswers⟩, hclosed⟩, hbegun⟩ := hrun
  exact ⟨l, hl, hbegun, follows_plan hl rfl (by norm_num [Example.start]) (by decide) horder
    hanswers hclosed⟩

end Wrkx
