import Wrkx.Connection.Sample
import Wrkx.Process.Machine

/-!
# What the thread counts

`thread->complete`, `thread->requests` and the two histograms against the calls of
`response_complete`, `calibrate` and `sample_rate`, in any order and for any number of
connections.

## Main results

- `Act.counted` — an act of a connection keeps the counts of its thread
- `samples_accounted` — the counts of a thread in every reachable state
-/

namespace Wrkx

open Word

/-! ## Counting calls -/

/-- The calls since the last `calibrate` that ran to its end. -/
def sinceCalibrated (calls : List Call) : List Call := calls.takeWhile (· ≠ .calibrated)

/-- The calls since `thread->requests` was last set to zero. -/
def sinceReset (calls : List Call) : List Call :=
  calls.takeWhile fun call => call ≠ .calibrated ∧ call ≠ .sampled

def Call.isResponse : Call → Bool
  | .responseComplete _ _ => true
  | _ => false

/-- A call of `response_complete` before `stop_at`. -/
def Call.inTime (stopAt : ℕ) : Call → Bool
  | .responseComplete now _ => decide (now < stopAt)
  | _ => false

/-- A call of `response_complete` before `stop_at` that brings `c->pending` to zero. -/
def Call.endsBatch (stopAt : ℕ) : Call → Bool
  | .responseComplete now pending => decide (now < stopAt) && decide (sub64 pending 1 = 0)
  | _ => false

/-- `c->pending` is at least one whenever it is decremented. -/
def NeverBelow (t : Thread) : Prop :=
  ∀ now pending, .responseComplete now pending ∈ t.calls → now < t.stopAt → 1 ≤ pending

/-- The counters of a thread agree with its calls. -/
structure Counted (S : Setting) (t : Thread) : Prop where
  totals : t.uLatencyHistogram.totalCount = t.latencyHistogram.totalCount
  all : S.cfg.recordAllResponses = true → t.latencyHistogram.totalCount =
    (sinceCalibrated t.calls).countP (Call.inTime t.stopAt)
  batches : S.cfg.recordAllResponses = false → NeverBelow t → t.latencyHistogram.totalCount =
    (sinceCalibrated t.calls).countP (Call.endsBatch t.stopAt)
  complete : t.complete = t.calls.countP Call.isResponse
  total_le : t.latencyHistogram.totalCount ≤ t.complete
  requests : t.requests = (sinceReset t.calls).countP Call.isResponse

section Calls

variable {calls recorded : List Call} {stopAt now pending : ℕ}

/-- What is counted when a response is put before older calls, with what it recorded. -/
theorem countP_response {P : Call → Bool} {Q : Call → Bool}
    (hrecorded : ∀ call ∈ recorded, ∃ ok, call = .record ok) (hP : ∀ ok, P (.record ok) = false)
    (hQ : ∀ ok, Q (.record ok) = true) (hQ' : Q (.responseComplete now pending) = true) :
    ((recorded ++ .responseComplete now pending :: calls).takeWhile Q).countP P =
      (calls.takeWhile Q).countP P + if P (.responseComplete now pending) then 1 else 0 := by
  induction recorded with
  | nil => simp [hQ', List.countP_cons]
  | cons call rest ih =>
    obtain ⟨ok, rfl⟩ := hrecorded call (by simp)
    simpa [hQ, hP] using ih fun call hcall => hrecorded call (by simp [hcall])

end Calls

/-! ## One response -/

section Respond

variable {S : Setting} {l l' : Local} {i : CompleteInput}

/-- Nothing has failed, and every call of `hdr_record_value` returned true. -/
structure Clean (l : Local) : Prop where
  alive : l.aborted = false
  recorded : ∀ ok, .record ok ∈ l.thread.calls → ok = true

/-- A batch that is owed responses is pending. -/
def PendingKept (l : Local) : Prop :=
  NeverBelow l.thread → l.c.pending ≠ 0 → l.c.hasPending = true

theorem NeverBelow.of_suffix {t t' : Thread} (h : NeverBelow t') (hstop : t'.stopAt = t.stopAt)
    (hsuffix : t.calls <:+ t'.calls) : NeverBelow t :=
  fun now pending hmem hlt => h now pending (hsuffix.subset hmem) (hstop ▸ hlt)

theorem RespondCounts.suffix {t : Thread} (h : RespondCounts S i l t) :
    l.thread.calls <:+ t.calls := by
  obtain ⟨recorded, -, hcalls⟩ := h.calls
  rw [hcalls]
  exact (List.suffix_cons _ _).trans (List.suffix_append _ _)

theorem sampled_iff (hall : S.cfg.recordAllResponses = false) (hlive : i.now < l.thread.stopAt →
    l.c.hasPending = true) :
    Sampled S i l ↔ i.now < l.thread.stopAt ∧ sub64 l.c.pending 1 = 0 := by
  by_cases hlt : i.now < l.thread.stopAt
  · simp [Sampled, hall, hlt, hlive hlt]
  · simp [Sampled, hlt]

/-- A response keeps the counts. -/
theorem Counted.respond (hl : Counted S l.thread) (hpending : PendingKept l)
    (hclean : Clean (respond S i l)) : Counted S (respond S i l).thread := by
  have h := respond_counts hclean.alive
  have hrecorded := hclean.recorded
  generalize (Wrkx.respond S i l).thread = t at h hrecorded
  have hsuffix := h.suffix
  obtain ⟨recorded, hok, hcalls⟩ := h.calls
  have hcount : ∀ P : Call → Bool, (∀ ok, P (.record ok) = false) →
      (sinceCalibrated t.calls).countP P = (sinceCalibrated l.thread.calls).countP P +
        if P (.responseComplete i.now l.c.pending) then 1 else 0 := fun P hP => by
    rw [hcalls]
    exact countP_response hok hP (by simp) (by simp)
  refine ⟨?_, fun hall => ?_, fun hall hbelow => ?_, ?_, ?_, ?_⟩
  · rw [h.uTotal hrecorded, h.total hrecorded, hl.totals]
  · rw [h.total hrecorded, hl.all hall, h.stopAt, hcount _ fun _ => rfl]
    by_cases hlt : i.now < l.thread.stopAt <;> simp [Sampled, hall, hlt, Call.inTime]
  · have hlive : i.now < l.thread.stopAt → l.c.hasPending = true := by
      intro hlt
      have hpos := hbelow i.now l.c.pending (by simp [hcalls]) (by rw [h.stopAt]; exact hlt)
      exact hpending (hbelow.of_suffix h.stopAt hsuffix) (by omega)
    rw [h.total hrecorded, hl.batches hall (hbelow.of_suffix h.stopAt hsuffix), h.stopAt,
      hcount _ fun _ => rfl]
    simp only [sampled_iff hall hlive, Call.endsBatch, Bool.and_eq_true, decide_eq_true_eq]
    push_cast
    rfl
  · have hzero : recorded.countP Call.isResponse = 0 := by
      rw [List.countP_eq_zero]
      intro call hcall
      obtain ⟨ok, rfl⟩ := hok call hcall
      simp [Call.isResponse]
    rw [h.complete, hl.complete, hcalls, List.countP_append, hzero, List.countP_cons]
    simp [Call.isResponse]
  · rw [h.total hrecorded, h.complete]
    have := hl.total_le
    split_ifs <;> push_cast <;> omega
  · rw [h.requests, hl.requests, hcalls]
    exact (countP_response hok (fun _ => rfl) (by simp) (by simp)).symm

end Respond

/-! ## Acts -/

section Acts

variable {S : Setting} {l l' m : Local} {t : Thread}

/-- An act leaves the counters of the thread alone, or it is a timer or a response. -/
theorem Act.thread_cases (h : Act S l l') : l.thread.Quiet l'.thread ∨
    (∃ t, l.thread.Frame t ∧ l' = { l with thread := t }) ∨ ∃ i, l' = Wrkx.respond S i l := by
  cases h with
  | thread t hframe => exact .inr (.inl ⟨t, hframe, rfl⟩)
  | initial id now i harmed =>
    have hconnects : l.thread.Quiet (delayedInitialConnect now i l).thread :=
      (Local.initialConnect_connects now i l).quiet
    exact .inl (hconnects.trans quiet_setLoop)
  | reconnect i hconnected =>
    exact .inl (Local.quiet_deleteFileEvent.trans (Local.reconnectSocket_connects i l).quiet)
  | park => exact .inl quiet_park
  | resume => exact .inl quiet_resume
  | wrote => exact .inl quiet_acceptBytes
  | established => exact .inl quiet_openSocket
  | respond fd i hcalls => exact .inr (.inr ⟨i, rfl⟩)
  | paced | start =>
    left
    simp only [usecToNextSend_thread, startBatch_thread]
    exact .refl _
  | _ => exact .inl (.refl _)

/-- An act leaves `c->pending` and `has_pending` alone, or it is a batch start or a response. -/
theorem Act.pending_cases (h : Act S l l') :
    (l'.c.pending = l.c.pending ∧ l'.c.hasPending = l.c.hasPending) ∨ l'.c.hasPending = true ∨
      ∃ i, l' = Wrkx.respond S i l := by
  cases h with
  | initial id now i harmed =>
    left
    rw [setLoop_c, (Local.initialConnect_connects now i l).c_eq]
    exact ⟨rfl, rfl⟩
  | reconnect i hconnected =>
    left
    rw [(Local.reconnectSocket_connects i l).c_eq]
    exact ⟨rfl, rfl⟩
  | paced =>
    left
    rw [usecToNextSend_c]
    exact ⟨rfl, rfl⟩
  | start =>
    right; left
    rw [startBatch_c]
  | respond fd i hcalls => exact .inr (.inr ⟨i, rfl⟩)
  | field =>
    left
    rw [headerField_c]
    exact ⟨rfl, rfl⟩
  | value =>
    left
    rw [headerValue_c]
    exact ⟨rfl, rfl⟩
  | _ => exact .inl (by simp [acceptBytes_c, responseBody])

theorem respond_aborted {i : CompleteInput} (h : l.aborted = true) :
    (respond S i l).aborted = true := by
  simp only [respond, measureResponse, recordLatency]
  split_ifs
  · simpa using h
  · simp [recordValue_aborted, h]
  · simp [recordValue_aborted, h]
  · simpa using h

theorem Act.aborted (h : Act S l l') (habort : l.aborted = true) : l'.aborted = true := by
  cases h with
  | initial id now i harmed => exact (Local.initialConnect_connects now i l).aborted_eq.trans habort
  | reconnect i hconnected => exact (Local.reconnectSocket_connects i l).aborted_eq.trans habort
  | respond fd i hcalls => exact respond_aborted habort
  | fail => rfl
  | _ => simpa using habort

theorem Act.alive (h : Act S l l') (halive : l'.aborted = false) : l.aborted = false := by
  by_contra habort
  rw [h.aborted (by simpa using habort)] at halive
  cases halive

theorem Thread.Tally.suffix {t' : Thread} (h : t.Tally t') : t.calls <:+ t'.calls := by
  cases h with
  | quiet hcalls => exact hcalls ▸ List.suffix_refl _
  | calibrated hcalls => exact hcalls ▸ List.suffix_cons _ _
  | sampled hcalls => exact hcalls ▸ List.suffix_cons _ _

theorem Act.calls_suffix (h : Act S l l') (halive : l'.aborted = false) :
    l.thread.calls <:+ l'.thread.calls := by
  rcases h.thread_cases with hquiet | ⟨t, hframe, rfl⟩ | ⟨i, rfl⟩
  · exact hquiet.counts.1 ▸ List.suffix_refl _
  · exact hframe.tally.suffix
  · exact (respond_counts halive).suffix

/-- A timer keeps the counts. -/
theorem Counted.of_frame {t' : Thread} (hl : Counted S t) (h : t.Frame t') : Counted S t' := by
  have hbelow : NeverBelow t' → NeverBelow t := fun hb => hb.of_suffix h.stopAt h.tally.suffix
  cases h.tally with
  | quiet hcalls hcomplete hrequests hlatency huLatency =>
    refine ⟨?_, fun hall => ?_, fun hall hb => ?_, ?_, ?_, ?_⟩
    · rw [hlatency, huLatency, hl.totals]
    · rw [hlatency, hl.all hall, hcalls, h.stopAt]
    · rw [hlatency, hl.batches hall (hbelow hb), hcalls, h.stopAt]
    · rw [hcomplete, hl.complete, hcalls]
    · rw [hlatency, hcomplete]
      exact hl.total_le
    · rw [hrequests, hl.requests, hcalls]
  | calibrated hcalls hcomplete hrequests hlatency huLatency =>
    refine ⟨?_, fun hall => ?_, fun hall hb => ?_, ?_, ?_, ?_⟩
    · rw [hlatency, huLatency]
      rfl
    · rw [hlatency, hcalls]
      rfl
    · rw [hlatency, hcalls]
      rfl
    · rw [hcomplete, hl.complete, hcalls]
      rfl
    · rw [hlatency]
      exact Int.natCast_nonneg _
    · rw [hrequests, hcalls]
      rfl
  | sampled hcalls hcomplete hrequests hlatency huLatency =>
    refine ⟨?_, fun hall => ?_, fun hall hb => ?_, ?_, ?_, ?_⟩
    · rw [hlatency, huLatency, hl.totals]
    · rw [hlatency, hl.all hall, hcalls, h.stopAt]
      rfl
    · rw [hlatency, hl.batches hall (hbelow hb), hcalls, h.stopAt]
      rfl
    · rw [hcomplete, hl.complete, hcalls]
      rfl
    · rw [hlatency, hcomplete]
      exact hl.total_le
    · rw [hrequests, hcalls]
      rfl

theorem Counted.of_quiet {t' : Thread} (hl : Counted S t) (h : t.Quiet t') : Counted S t' := by
  obtain ⟨hcalls, hcomplete, hrequests, hstopAt, hlatency, huLatency⟩ := h.counts
  constructor
  all_goals simp only [hcalls, hcomplete, hrequests, hstopAt, hlatency, huLatency]
  · exact hl.totals
  · exact hl.all
  · exact fun hall hb => hl.batches hall (hb.of_suffix hstopAt (hcalls ▸ List.suffix_refl _))
  · exact hl.complete
  · exact hl.total_le
  · exact hl.requests

theorem PendingKept.respond {i : CompleteInput} (hl : PendingKept l)
    (halive : (Wrkx.respond S i l).aborted = false) : PendingKept (Wrkx.respond S i l) := by
  have h := respond_counts halive
  intro hbelow hne
  have hbefore := hl (hbelow.of_suffix h.stopAt h.suffix)
  rw [respond_c] at hne ⊢
  split_ifs at hne ⊢ with hstop hzero
  · simpa using hbefore (by simpa using hne)
  · exact absurd hzero (by simpa using hne)
  · obtain ⟨recorded, -, hcalls⟩ := h.calls
    have hpos := hbelow i.now l.c.pending (by simp [hcalls]) (by rw [h.stopAt]; omega)
    exact hbefore (by omega)

/-- An act of a connection keeps the counts of its thread. -/
theorem Act.counted (h : Act S l l') (hl : Clean l → Counted S l.thread ∧ PendingKept l)
    (hclean : Clean l') : Counted S l'.thread ∧ PendingKept l' := by
  have hsuffix := h.calls_suffix hclean.alive
  obtain ⟨hcounted, hpending⟩ := hl ⟨h.alive hclean.alive, fun ok hok =>
    hclean.recorded ok (hsuffix.subset hok)⟩
  refine ⟨?_, ?_⟩
  · rcases h.thread_cases with hquiet | ⟨t, hframe, rfl⟩ | ⟨i, rfl⟩
    · exact hcounted.of_quiet hquiet
    · exact hcounted.of_frame hframe
    · exact hcounted.respond hpending hclean
  · rcases h.pending_cases with ⟨hsame, hlive⟩ | hlive | ⟨i, rfl⟩
    · intro hbelow hne
      rw [hlive]
      exact hpending (hbelow.of_suffix h.stopAt_eq hsuffix) (hsame ▸ hne)
    · exact fun _ _ => hlive
    · exact hpending.respond hclean.alive

end Acts

/-! ## Runs -/

section Runs

variable {S : Setting} {p p' : Process} {start : ProcessStart} {moves : List ProcessMove}

/-- What is kept for each connection: as long as nothing fails, the counts of its thread. -/
def CountsKept (S : Setting) (l : Local) : Prop := Clean l → Counted S l.thread ∧ PendingKept l

theorem ProcessAct.countsKept (h : ProcessAct S p p') (hp : ∀ i, CountsKept S (p.view i [])) :
    ∀ i, CountsKept S (p'.view i []) := by
  refine h.preserves (I := CountsKept S) (fun l kernel hl hclean => ?_) (fun l hl hclean => ?_)
    (fun l t hframe hl hclean => ?_) (fun i kernel l' hact hp' hl => ?_) hp
  · exact hl ⟨hclean.alive, hclean.recorded⟩
  · exact absurd hclean.alive (by simp)
  · exact (Act.thread (S := S) l t hframe).counted hl hclean
  · refine ⟨hact.counted hl, fun m hm hI hclean => ?_⟩
    have halive : m.aborted = false := hm.aborted.trans (hact.alive hclean.alive)
    have hself : l'.self = i := hact.self_eq
    by_cases hk : m.self.thread = i.thread
    · have hshared : (l'.beside m).thread = l'.thread := by simp [Local.beside, hself, hk]
      have hclean' : Clean l' := ⟨hclean.alive, hshared ▸ hclean.recorded⟩
      have hsuffix : m.thread.calls <:+ l'.thread.calls := by
        rw [hm.thread hk]
        exact hact.calls_suffix hclean'.alive
      obtain ⟨-, hpending⟩ := hI ⟨halive, fun ok hok => hclean'.recorded ok (hsuffix.subset hok)⟩
      rw [hshared]
      refine ⟨(hact.counted hl hclean').1, fun hbelow hne => hpending ?_ hne⟩
      rw [hshared] at hbelow
      refine hbelow.of_suffix ?_ hsuffix
      rw [hm.thread hk]
      exact hact.stopAt_eq
    · have hapart : (l'.beside m).thread = m.thread := by simp [Local.beside, hself, hk]
      obtain ⟨hcounted, hpending⟩ := hI ⟨halive, hapart ▸ hclean.recorded⟩
      exact ⟨hapart ▸ hcounted, fun hbelow hne => hpending (hapart ▸ hbelow) hne⟩

theorem ProcessStart.countsKept (i : ConnId) : CountsKept S (start.process.view i []) := by
  have hhistogram : start.histogram.totalCount = 0 := by
    have hinit := start.hinit
    rw [hdrInit_maxLatency] at hinit
    exact Option.some.inj hinit ▸ rfl
  intro _
  refine ⟨⟨rfl, fun _ => ?_, fun _ _ => ?_, rfl, ?_, rfl⟩, fun _ h => absurd rfl h⟩
  · exact hhistogram
  · exact hhistogram
  · exact hhistogram.le

/-- As long as every call of `hdr_record_value` returns true, the counters of a thread agree
    with its calls in every state that the process can reach. -/
theorem samples_accounted (h : start.run S moves = some p) (halive : p.aborted = false) {k : ℕ}
    (hrecorded : ∀ ok, .record ok ∈ (p.threads k).calls → ok = true) :
    Counted S (p.threads k) :=
  (Run.preserves_of_reflTransGen (P := fun p => ∀ i, CountsKept S (p.view i []))
    (fun _ _ hact hp => hact.countsKept hp) (ProcessStart.run_acts h) ProcessStart.countsKept
    ⟨k, 0⟩ ⟨halive, hrecorded⟩).1

/-- Two responses on one thread and one on the other, in batches of two recorded as one. -/
def Example.batched : Option Process :=
  twoThreads.run { Example.setting 2 false with
      cfg := { (Example.setting 2 false).cfg with recordAllResponses := false } }
    [Example.on 0 (Example.connect 0 5), Example.on 1 (Example.connect 0 6),
      Example.on 0 (Example.opens 5), Example.on 1 (Example.opens 6),
      Example.on 0 (Example.write 5 0 [] (.ok 3)), Example.on 1 (Example.write 6 0 [] (.ok 3)),
      Example.on 0 (Example.read 5 [Example.completed 1 true (Example.connects 5)]),
      Example.on 1 (Example.read 6 [Example.completed 1 true (Example.connects 5)]),
      Example.on 0 (Example.read 5 [Example.completed 2 true (Example.connects 5)])]

theorem samples_accounted_batched : ∃ p : Process, Example.batched = some p ∧
    (p.threads 0).latencyHistogram.totalCount = 1 ∧ (p.threads 0).complete = 2 ∧
    Counted { Example.setting 2 false with
      cfg := { (Example.setting 2 false).cfg with recordAllResponses := false } }
      (p.threads 0) := by
  obtain ⟨p, hp, halive, hrecorded, htotal, hcomplete⟩ : ∃ p, Example.batched = some p ∧
      p.aborted = false ∧ (∀ ok, .record ok ∈ (p.threads 0).calls → ok = true) ∧
      (p.threads 0).latencyHistogram.totalCount = 1 ∧ (p.threads 0).complete = 2 :=
    exists_of_any (by decide +kernel)
  exact ⟨p, hp, htotal, hcomplete, samples_accounted hp halive hrecorded⟩

end Runs

end Wrkx
