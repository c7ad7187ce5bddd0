import Mathlib.Data.List.Nodup
import Wrkx.Connection.Errors
import Wrkx.Connection.Plan
import Wrkx.Process.Machine

/-!
# What the timeout counter counts

`check_timeouts` looks at `c->start` alone. A batch is outstanding from the call of
`socket_writeable` that sets `has_pending` to the response that clears it, however often it is
sent in between. The counter is compared with the batches that the ticks find outstanding and
too old.

## Main results

- `Act.stamped` — while a batch is outstanding, `c->start` is the time it was last sent
- `timeouts_of_run` — the counter over a run whose ticks find nothing but outstanding batches
- `timeouts_counted_iff` — under which condition every late batch is counted, once
-/

namespace Wrkx

open Word

/-! ## Batches -/

/-- The time at which a batch was last sent. -/
def lastStart (h : List Obs) : Option ℕ := h.findSome? fun o => o.startedAt.map Prod.fst

/-- A response that ends its batch. -/
def Obs.endsBatch : Obs → Bool
  | .decrement _ pending => decide (sub64 pending 1 = 0)
  | _ => false

/-- The batches that were answered in full. -/
def batchesDone (h : List Obs) : ℕ := h.countP Obs.endsBatch

/-- While a batch is outstanding, `c->start` is the time it was last sent. -/
def Stamped (l : Local) : Prop := l.c.hasPending = true → lastStart l.history = some l.c.start

section Acts

variable {S : Setting} {l l' : Local} {noted h : List Obs}

theorem lastStart_append (hnoted : ∀ o ∈ noted, o.startedAt = none) :
    lastStart (noted ++ h) = lastStart h :=
  History.findSome?_append_of_none fun o ho => by rw [hnoted o ho, Option.map_none]

/-- What neither sends nor takes up a batch keeps the stamp. -/
theorem Stamped.of_noted (hl : Stamped l) (hhistory : l'.history = noted ++ l.history)
    (hnoted : ∀ o ∈ noted, o.startedAt = none) (hstart : l'.c.start = l.c.start)
    (hpending : l'.c.hasPending = true → l.c.hasPending = true) : Stamped l' := by
  intro h
  rw [hhistory, lastStart_append hnoted, hstart]
  exact hl (hpending h)

theorem stamped_startBatch {i : WriteInput} : Stamped (startBatch S i l) := by
  intro _
  rw [startBatch_history, startBatch_c]
  split_ifs <;> rfl

theorem stamped_respond (hl : Stamped l) {i : CompleteInput} : Stamped (respond S i l) := by
  refine hl.of_noted respond_responded (fun o ho => ?_) ?_ ?_
  · have := ofResponse_of_mem ho
    cases o <;> simp_all [Obs.ofResponse, Obs.startedAt]
  all_goals
    rw [respond_c]
    split_ifs <;> simp

/-- Every act keeps the stamp: only `socket_writeable` takes up a batch, and it sets `c->start`. -/
theorem Act.stamped (hact : Act S l l') (hl : Stamped l) : Stamped l' := by
  -- the acts that neither start a batch nor set `c->start`
  have hquiet : ∀ noted : List Obs, l'.history = noted ++ l.history →
      (∀ o ∈ noted, o.startedAt = none) → l'.c.start = l.c.start →
      (l'.c.hasPending = true → l.c.hasPending = true) → Stamped l' :=
    fun _ => hl.of_noted
  cases hact with
  | start => exact stamped_startBatch
  | respond => exact stamped_respond hl
  | thread | fail | parser => exact hquiet [] rfl (by simp) rfl id
  | tick | refuse | body => exact hquiet [_] rfl (by simp [Obs.startedAt]) rfl id
  | initial id now i harmed =>
    have hconnects := Local.initialConnect_connects now i l
    obtain ⟨ok, hhistory⟩ := hconnects.history_eq
    refine hquiet [_, _] hhistory (by simp [Obs.startedAt]) ?_ ?_ <;>
      rw [setLoop_c, hconnects.c_eq]
    · rfl
    · exact fun h => h
  | reconnect i hconnected =>
    have hconnects := Local.reconnectSocket_connects i l
    obtain ⟨ok, hhistory⟩ := hconnects.history_eq
    refine hquiet [_, _] hhistory (by simp [Obs.startedAt]) ?_ ?_ <;> rw [hconnects.c_eq]
    · rfl
    · exact fun h => h
  | paced now =>
    obtain ⟨noted, hhistory, hnoted⟩ := usecToNextSend_history S now l
    refine hquiet (noted ++ [.clock now]) (by simp [hhistory]) ?_ ?_ ?_
    · rcases hnoted with rfl | rfl | rfl <;> simp [Obs.startedAt]
    all_goals rw [usecToNextSend_c]
    exact fun h => h
  | park => exact hquiet [_, _] park_history (by simp [Obs.startedAt]) rfl id
  | resume => exact hquiet [_] resume_history (by simp [Obs.startedAt]) (by simp) (by simp)
  | wrote fd writable n hcalls hbatch =>
    have hhistory : (acceptBytes n fd l).history = _ := acceptBytes_history
    split_ifs at hhistory
    · refine hquiet [_, _] hhistory (by simp [Obs.startedAt]) ?_ ?_ <;> rw [acceptBytes_c]
      exact fun h => h
    · refine hquiet [_] hhistory (by simp [Obs.startedAt]) ?_ ?_ <;> rw [acceptBytes_c]
      exact fun h => h
  | established =>
    exact hquiet [_] openSocket_history (by simp [Obs.startedAt]) (by simp) (by simp)
  | field =>
    refine hquiet [_] rfl (by simp [Obs.startedAt]) ?_ ?_ <;> rw [headerField_c]
    exact fun h => h
  | value =>
    refine hquiet [_] rfl (by simp [Obs.startedAt]) ?_ ?_ <;> rw [headerValue_c]
    exact fun h => h

end Acts

section Process

variable {S : Setting} {p p' : Process} {i : ConnId} {k : ℕ}

theorem ProcessAct.stamped (h : ProcessAct S p p') (hp : ∀ i, Stamped (p.view i [])) :
    ∀ i, Stamped (p'.view i []) :=
  h.preserves (I := Stamped) (fun _ _ hl => hl) (fun _ hl => hl) (fun _ _ _ hl => hl)
    (fun _ _ _ hact _ hl => ⟨hact.stamped hl, fun _ _ hm => hm⟩) hp

/-- What the ticks rely on in every reached process. -/
structure Settled (p : Process) : Prop where
  basic : ∀ i, Basic (p.view i [])
  stamped : ∀ i, Stamped (p.view i [])

theorem Settled.of_acts (hp : Settled p) (h : Relation.ReflTransGen (ProcessAct S) p p') :
    Settled p' :=
  Run.preserves_of_reflTransGen (P := Settled)
    (fun _ _ hact hp => ⟨hact.basic hp.basic, hact.stamped hp.stamped⟩) h hp

theorem ProcessStart.settled (start : ProcessStart) : Settled start.process where
  basic := ProcessStart.basic
  stamped i h := by simp [Process.view, ProcessStart.process, newConnection] at h

/-! ## Ticks -/

/-- A call of `check_timeouts` by a thread: its reading of the clock and the process around it. -/
structure Tick where
  thread : ℕ
  now : ℕ
  before : Process
  after : Process

/-- The tick that a move is. -/
def ProcessMove.tick (before after : Process) : ProcessMove → Option Tick
  | .timer k _ _ _ (.checkTimeouts now _) => some ⟨k, now, before, after⟩
  | _ => none

/-- The ticks of a run, the first one first. -/
def ticks (S : Setting) : List ProcessMove → Process → List Tick
  | [], _ => []
  | move :: rest, p =>
    match Process.machine S move p with
    | none => []
    | some p' => (move.tick p p').toList ++ ticks S rest p'

namespace Tick

/-- The connection in a slot of the thread, before the tick. -/
def peer (t : Tick) (slot : ℕ) : Peer := t.before.peers ⟨t.thread, slot⟩

def slots (t : Tick) : List ℕ := List.range (t.before.threads t.thread).connections

/-- The test of `check_timeouts`: `c->start` is older than the timeout. -/
def Old (S : Setting) (t : Tick) (slot : ℕ) : Prop :=
  (t.peer slot).c.start < sub64 t.now (S.cfg.timeout * 1000)

instance (S : Setting) (t : Tick) : DecidablePred (t.Old S) :=
  fun _ => inferInstanceAs (Decidable (_ < _))

/-- The connection has a batch outstanding that was last sent longer ago than the timeout. -/
def Late (S : Setting) (t : Tick) (slot : ℕ) : Prop :=
  (t.peer slot).c.hasPending = true ∧
    ∃ start ∈ lastStart (t.peer slot).history, start + S.cfg.timeout * 1000 < t.now

instance (S : Setting) (t : Tick) : DecidablePred (t.Late S) :=
  fun _ => inferInstanceAs (Decidable (_ ∧ ∃ start ∈ lastStart _, _))

/-- The late batches that the tick finds, each named by its connection and the number of
    batches that were answered on it before. -/
def lateBatches (S : Setting) (t : Tick) : List (ConnId × ℕ) :=
  (t.slots.filter (t.Late S)).map fun slot =>
    (⟨t.thread, slot⟩, batchesDone (t.peer slot).history)

/-- What `check_timeouts` has to find for its count to be right: a connection with an old
    `c->start` has a batch outstanding, and the clock is past the timeout. -/
def Sound (S : Setting) (t : Tick) : Prop :=
  ∀ slot ∈ t.slots, t.Old S slot →
    (t.peer slot).c.hasPending = true ∧ S.cfg.timeout * 1000 ≤ t.now

instance (S : Setting) (t : Tick) : Decidable (t.Sound S) :=
  inferInstanceAs (Decidable (∀ slot ∈ t.slots, _))

/-- A connection that both ticks of a thread find old has ended a batch in between. -/
def Apart (S : Setting) (t t' : Tick) : Prop :=
  t.thread = t'.thread → ∀ slot ∈ t.slots, slot ∈ t'.slots → t.Old S slot → t'.Old S slot →
    batchesDone (t.peer slot).history ≠ batchesDone (t'.peer slot).history

instance (S : Setting) (t t' : Tick) : Decidable (t.Apart S t') :=
  inferInstanceAs (Decidable (_ → ∀ slot ∈ t.slots, _))

end Tick

/-- The late batches that the ticks of a thread find. -/
def lateOf (S : Setting) (k : ℕ) (ts : List Tick) : List (ConnId × ℕ) :=
  (ts.filter fun t => t.thread = k).flatMap (·.lateBatches S)

/-- `errors.timeout` counts request timeouts: it was incremented once for each late batch that
    the ticks of the thread found, no batch is among them twice, and each tick adds at most
    those it finds. -/
structure CountsTimeouts (S : Setting) (ts : List Tick) (p : Process) : Prop where
  counted : ∀ k, (p.threads k).errors.timeout.Counts (lateOf S k ts).length
  once : (ts.flatMap (·.lateBatches S)).Nodup
  each : ∀ t ∈ ts, (t.after.threads t.thread).errors.timeout.increments ≤
    (t.before.threads t.thread).errors.timeout.increments + (t.lateBatches S).length

/-! ## One tick -/

namespace Tick

variable {t t' : Tick} {slot : ℕ}

/-- A late batch passes the test of `check_timeouts`. -/
theorem Late.old (h : t.Late S slot) (hstamped : ∀ i, Stamped (t.before.view i [])) :
    t.Old S slot := by
  obtain ⟨hpending, start, hstart, hlate⟩ := h
  obtain rfl : (t.peer slot).c.start = start :=
    Option.some.inj ((hstamped ⟨t.thread, slot⟩ hpending).symm.trans hstart)
  rw [Old, sub64_of_le (by omega)]
  omega

/-- The count of a tick is right when what passes the test is late. -/
theorem sound_iff (hstamped : ∀ i, Stamped (t.before.view i [])) :
    t.Sound S ↔ ∀ slot ∈ t.slots, t.Old S slot → t.Late S slot := by
  refine ⟨fun h slot hslot hold => ?_, fun h slot hslot hold => ?_⟩
  · obtain ⟨hpending, hclock⟩ := h slot hslot hold
    rw [Old, sub64_of_le hclock] at hold
    exact ⟨hpending, (t.peer slot).c.start, hstamped ⟨t.thread, slot⟩ hpending, by omega⟩
  · obtain ⟨hpending, start, -, hlate⟩ := h slot hslot hold
    exact ⟨hpending, by omega⟩

/-- `check_timeouts` finds at least the late batches. -/
theorem late_sublist (hstamped : ∀ i, Stamped (t.before.view i [])) :
    (t.slots.filter (t.Late S)).Sublist (t.slots.filter (t.Old S)) :=
  List.monotone_filter_right _ fun slot hlate => by
    have hlate : t.Late S slot := by simpa using hlate
    simpa using hlate.old hstamped

/-- A tick adds at most the late batches exactly when its count is right. -/
theorem sound_iff_le (hstamped : ∀ i, Stamped (t.before.view i [])) :
    t.Sound S ↔ (t.slots.filter (t.Old S)).length ≤ (t.lateBatches S).length := by
  rw [sound_iff hstamped, lateBatches, List.length_map]
  refine ⟨fun h => ?_, fun hle slot hslot hold => ?_⟩
  · refine le_of_eq (congrArg List.length (List.filter_congr fun slot hslot => ?_))
    simpa using ⟨h slot hslot, fun hlate => hlate.old hstamped⟩
  · have heq := (late_sublist (S := S) hstamped).eq_of_length_le hle
    have hmem : slot ∈ t.slots.filter (t.Late S) := by
      rw [heq]
      exact List.mem_filter.mpr ⟨hslot, by simpa using hold⟩
    simpa using (List.mem_filter.mp hmem).2

theorem lateBatches_nodup : (t.lateBatches S).Nodup := by
  refine List.Nodup.map_on (fun slot _ slot' _ heq => ?_) (List.nodup_range.filter _)
  exact congrArg (fun pair : ConnId × ℕ => pair.1.slot) heq

/-- Two ticks whose counts are right share no batch exactly when they are apart. -/
theorem disjoint_iff_apart (ht : t.Sound S) (ht' : t'.Sound S)
    (hstamped : ∀ i, Stamped (t.before.view i []))
    (hstamped' : ∀ i, Stamped (t'.before.view i [])) :
    (t.lateBatches S).Disjoint (t'.lateBatches S) ↔ t.Apart S t' := by
  rw [sound_iff hstamped] at ht
  rw [sound_iff hstamped'] at ht'
  simp only [lateBatches]
  refine ⟨fun h hthread slot hslot hslot' hold hold' heq => ?_, fun h => ?_⟩
  · refine @h (⟨t.thread, slot⟩, batchesDone (t.peer slot).history) ?_ ?_
    · exact List.mem_map_of_mem (List.mem_filter.mpr ⟨hslot, by simpa using ht slot hslot hold⟩)
    · rw [heq, hthread]
      exact List.mem_map_of_mem
        (List.mem_filter.mpr ⟨hslot', by simpa using ht' slot hslot' hold'⟩)
  · rintro ⟨i, done⟩ hmem hmem'
    obtain ⟨slot, hslot, heq⟩ := List.mem_map.mp hmem
    obtain ⟨slot', hslot', heq'⟩ := List.mem_map.mp hmem'
    obtain ⟨hid, hdone⟩ := Prod.mk.inj (heq.trans heq'.symm)
    obtain ⟨hthread, rfl⟩ := ConnId.mk.inj hid
    obtain ⟨hslot, hlate⟩ := List.mem_filter.mp hslot
    obtain ⟨hslot', hlate'⟩ := List.mem_filter.mp hslot'
    exact h hthread slot hslot hslot' (Late.old (by simpa using hlate) hstamped)
      (Late.old (by simpa using hlate') hstamped') hdone

end Tick

/-! ## Runs -/

/-- The test of `check_timeouts` over the connections of a thread. -/
theorem Tick.countTimeouts_eq (t : Tick) : countTimeouts S t.now (t.before.starts t.thread) =
    (t.slots.filter (t.Old S)).length := by
  rw [countTimeouts, Process.starts, List.countP_map, List.countP_eq_length_filter]
  rfl

/-- What one move adds to the counter: what passes the test of the tick, if it is one. -/
theorem timeout_of_step {move : ProcessMove} (h : Process.machine S move p = some p') (k : ℕ) :
    (p'.threads k).errors.timeout.increments = (p.threads k).errors.timeout.increments +
      (((move.tick p p').toList.filter fun t => t.thread = k).map fun t =>
        (t.slots.filter (t.Old S)).length).sum := by
  cases move with
  | event i kernel event =>
    obtain ⟨l', hstep, rfl⟩ := Option.map_eq_some_iff.mp h
    have htimeout : l'.thread.errors.timeout = (p.threads i.thread).errors.timeout :=
      ErrorCounter.ext (congrArg Charges.timeout (charges_step hstep))
    by_cases hk : k = i.thread
    · subst hk
      simp [Process.put, ProcessMove.tick, htimeout]
    · simp [Process.put, ProcessMove.tick, hk]
  | timer j id now rearm timer =>
    simp only [Process.machine, Process.fire] at h
    split_ifs at h
    cases hcall : timer.call S (p.starts j) (p.threads j) with
    | none =>
      -- the call aborted the process; that of `check_timeouts` does not
      rw [hcall] at h
      obtain rfl := Option.some.inj h
      cases timer with
      | calibrate | sampleRate => rfl
      | checkTimeouts => simp [TimerCall.call] at hcall
    | some result =>
      obtain ⟨returned, t⟩ := result
      have htimeout := congrArg (·.timeout.increments) (errors_of_timer hcall)
      rw [hcall] at h
      obtain rfl := Option.some.inj h
      by_cases hk : j = k
      · subst hk
        cases timer with
        | calibrate | sampleRate => simpa [Process.setThread, ProcessMove.tick] using htimeout
        | checkTimeouts now' interrupted =>
          simp only [ProcessMove.tick, Option.toList_some, decide_true, List.filter_singleton,
            ← Tick.countTimeouts_eq]
          simpa [Process.setThread] using htimeout
      · cases timer <;> simp [Process.setThread, ProcessMove.tick, hk, Ne.symm hk]

/-- The tick that a move is stands between the processes before and after it. -/
theorem tick_eq {move : ProcessMove} {t : Tick} (ht : t ∈ (move.tick p p').toList) :
    t.before = p ∧ t.after = p' := by
  cases move with
  | event => simp [ProcessMove.tick] at ht
  | timer j id now rearm timer =>
    cases timer <;> simp only [ProcessMove.tick, Option.toList_none, Option.toList_some,
      List.not_mem_nil, List.mem_singleton] at ht
    subst ht
    exact ⟨rfl, rfl⟩

/-- What is known of each tick of a run: every process before it was reached, and it adds what
    passes its test. -/
theorem ticks_spec (moves : List ProcessMove) (hp : Settled p) : ∀ t ∈ ticks S moves p,
    (∀ i, Stamped (t.before.view i [])) ∧
      (t.after.threads t.thread).errors.timeout.increments =
        (t.before.threads t.thread).errors.timeout.increments +
          (t.slots.filter (t.Old S)).length := by
  induction moves generalizing p with
  | nil => simp [ticks]
  | cons move rest ih =>
    intro t ht
    simp only [ticks] at ht
    cases hstep : Process.machine S move p with
    | none => simp [hstep] at ht
    | some p₁ =>
      rw [hstep] at ht
      rcases List.mem_append.mp ht with ht | ht
      · obtain ⟨hbefore, hafter⟩ := tick_eq ht
        have htimeout := timeout_of_step hstep t.thread
        have hmove : (move.tick p p₁).toList = [t] := by
          cases hmove : move.tick p p₁ <;> simp_all
        rw [hmove] at htimeout
        exact ⟨hbefore ▸ hp.stamped, by simpa [hbefore, hafter] using htimeout⟩
      · exact ih (hp.of_acts (process_acts hstep hp.basic)) t ht

/-- The counter after a run: what passed the tests of the ticks of the thread. -/
theorem timeouts_of_run {moves : List ProcessMove}
    (h : Run.run (Process.machine S) moves p = some p') (k : ℕ) :
    (p'.threads k).errors.timeout.increments = (p.threads k).errors.timeout.increments +
      (((ticks S moves p).filter fun t => t.thread = k).map fun t =>
        (t.slots.filter (t.Old S)).length).sum := by
  induction moves generalizing p with
  | nil =>
    obtain rfl : p = p' := Option.some.inj h
    simp [ticks]
  | cons move rest ih =>
    obtain ⟨p₁, hfirst, hrest⟩ := Run.run_cons h
    rw [ih hrest, timeout_of_step hfirst k]
    simp only [ticks, hfirst, List.filter_append, List.map_append, List.sum_append]
    omega

/-- `errors.timeout` counts request timeouts, exactly when every connection that a tick finds old
    has a batch outstanding, which no earlier tick of the thread found old already. -/
theorem timeouts_counted_iff {start : ProcessStart} {moves : List ProcessMove}
    (h : start.run S moves = some p) :
    CountsTimeouts S (ticks S moves start.process) p ↔
      (∀ t ∈ ticks S moves start.process, t.Sound S) ∧
        (ticks S moves start.process).Pairwise (Tick.Apart S) := by
  have hspec := ticks_spec (S := S) moves start.settled
  have hrun := timeouts_of_run h
  generalize ticks S moves start.process = ts at hspec hrun ⊢
  have hsound : (∀ t ∈ ts, t.Sound S) ↔
      ∀ t ∈ ts, (t.after.threads t.thread).errors.timeout.increments ≤
        (t.before.threads t.thread).errors.timeout.increments + (t.lateBatches S).length := by
    refine forall₂_congr fun t ht => ?_
    obtain ⟨hstamped, hafter⟩ := hspec t ht
    rw [Tick.sound_iff_le hstamped, hafter, Nat.add_le_add_iff_left]
  have hnodup : (∀ t ∈ ts, t.Sound S) →
      ((ts.flatMap (·.lateBatches S)).Nodup ↔ ts.Pairwise (Tick.Apart S)) := by
    intro hts
    rw [List.nodup_flatMap]
    refine (and_iff_right fun _ _ => Tick.lateBatches_nodup).trans ?_
    exact List.Pairwise.iff_of_mem fun ht ht' => Tick.disjoint_iff_apart (hts _ ht) (hts _ ht')
      (hspec _ ht).1 (hspec _ ht').1
  refine ⟨fun hcounts => ?_, fun ⟨hts, hapart⟩ => ⟨fun k => ?_, (hnodup hts).mpr hapart,
    hsound.mp hts⟩⟩
  · have hts := hsound.mpr hcounts.each
    exact ⟨hts, (hnodup hts).mp hcounts.once⟩
  · have hstart : (start.process.threads k).errors.timeout.increments = 0 := rfl
    rw [ErrorCounter.counts_iff, hrun, hstart, Nat.zero_add, lateOf, List.length_flatMap]
    refine congrArg List.sum (List.map_congr_left fun t ht => ?_)
    have hmem := (List.mem_filter.mp ht).1
    have hstamped := (hspec t hmem).1
    exact le_antisymm ((Tick.sound_iff_le hstamped).mp (hts t hmem))
      (by simpa [Tick.lateBatches] using (Tick.late_sublist hstamped).length_le)

/-- A tick of the first thread after 2.005 seconds. -/
def Example.tick : ProcessMove :=
  Example.on 0 (.timer 2 2005000 2005000 (.checkTimeouts 2005000 false))

/-- A request that is not answered within two seconds. -/
def Example.unanswered : List ProcessMove :=
  [Example.on 0 (Example.connect 0 5), Example.on 0 (Example.opens 5),
    Example.on 0 (Example.write 5 0 [] (.ok 3)), Example.tick]

theorem timeouts_counted_iff_one : ∃ p,
    Example.twoThreads.run (Example.setting 1 false) Example.unanswered = some p ∧
      (p.threads 0).errors.timeout.value = 1 ∧
      CountsTimeouts (Example.setting 1 false)
        (ticks (Example.setting 1 false) Example.unanswered Example.twoThreads.process) p := by
  obtain ⟨p, hp, htimeout⟩ : ∃ p,
      Example.twoThreads.run (Example.setting 1 false) Example.unanswered = some p ∧
        (p.threads 0).errors.timeout.value = 1 :=
    exists_of_any (by decide +kernel)
  exact ⟨p, hp, htimeout,
    (timeouts_counted_iff hp).mpr ⟨by decide +kernel, by decide +kernel⟩⟩

/-- A connection that is still being opened after two seconds is counted, although nothing was
    sent on it. -/
theorem connecting_counted : ∃ p,
    Example.twoThreads.run (Example.setting 1 false)
      [Example.on 0 (Example.connect 0 5), Example.tick] = some p ∧
      (p.peers ⟨0, 0⟩).c.hasPending = false ∧ (p.threads 0).errors.timeout.value = 1 ∧
      ¬ CountsTimeouts (Example.setting 1 false)
        (ticks (Example.setting 1 false) [Example.on 0 (Example.connect 0 5), Example.tick]
          Example.twoThreads.process) p := by
  obtain ⟨p, hp, hpending, htimeout⟩ : ∃ p, Example.twoThreads.run (Example.setting 1 false)
      [Example.on 0 (Example.connect 0 5), Example.tick] = some p ∧
        (p.peers ⟨0, 0⟩).c.hasPending = false ∧ (p.threads 0).errors.timeout.value = 1 :=
    exists_of_any (by decide +kernel)
  refine ⟨p, hp, hpending, htimeout, fun hcounts => ?_⟩
  have hcounted := (hcounts.counted 0).2
  rw [htimeout] at hcounted
  revert hcounted
  decide +kernel

end Process

end Wrkx
