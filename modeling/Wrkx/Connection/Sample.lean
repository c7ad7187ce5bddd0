import Wrkx.Connection.Response

/-!
# A response as its thread counts it

## Main results

- `respond_counts` — what a response adds to the counters
- `respond_aborted_iff` — a response ends the process when a latency is out of range
-/

namespace Wrkx

open Word

variable {S : Setting} {l l' : Local} {i : CompleteInput} {now : Micros} {timing : ℤ}

theorem totalCount_hdrRecordValue {h h' : HdrHistogram} {v : ℤ}
    (hrecord : hdrRecordValue h v = some (true, h')) : h'.totalCount = h.totalCount + 1 := by
  simp only [hdrRecordValue, hdrRecordValues, Option.map_eq_some_iff] at hrecord
  obtain ⟨index, -, hrecord⟩ := hrecord
  split_ifs at hrecord
  · exact absurd (congrArg Prod.fst hrecord) (by simp)
  · exact (congrArg (fun r : Bool × HdrHistogram => r.2.totalCount) hrecord).symm

theorem recordValue_cases (get : Thread → HdrHistogram) (set : HdrHistogram → Thread → Thread)
    (value : ℤ) (l : Local) : (recordValue get set value l).aborted = true ∨
    ∃ ok h, hdrRecordValue (get l.thread) value = some (ok, h) ∧
      recordValue get set value l = { l with
        thread := { set h l.thread with calls := .record ok :: (set h l.thread).calls } } := by
  simp only [recordValue]
  cases hrecord : hdrRecordValue (get l.thread) value with
  | none => exact .inl rfl
  | some result => exact .inr ⟨result.1, result.2, rfl, rfl⟩

/-- What a sample adds to the thread, unless an assertion fails. -/
theorem recordLatency_thread (hrecord : (S.cfg.recordAllResponses || !l.c.hasPending) = true)
    (habort : (recordLatency S now timing l).aborted = false) : ∃ ok ok' h h',
    hdrRecordValue l.thread.latencyHistogram timing = some (ok, h) ∧
      hdrRecordValue l.thread.uLatencyHistogram
        (int64 (sub64 now l.c.actualLatencyStart)) = some (ok', h') ∧
      (recordLatency S now timing l).thread = { l.thread with
        latencyHistogram := h
        uLatencyHistogram := h'
        calls := .record ok' :: .record ok :: l.thread.calls } := by
  simp only [recordLatency, hrecord, if_true] at habort ⊢
  generalize int64 (sub64 now l.c.actualLatencyStart) = actual at *
  generalize hfirst : recordValue (·.latencyHistogram) _ timing (l.note (.record timing actual)) =
    first at *
  split_ifs at habort ⊢ with haborted
  · simp [haborted] at habort
  · rcases recordValue_cases (·.latencyHistogram) (fun h t => { t with latencyHistogram := h })
      timing (l.note (.record timing actual)) with hfail | ⟨ok, h, hok, heq⟩
    · exact absurd (hfirst ▸ hfail) haborted
    · obtain rfl := hfirst.symm.trans heq
      rcases recordValue_cases (·.uLatencyHistogram) (fun h t => { t with uLatencyHistogram := h })
        actual _ with hfail | ⟨ok', h', hok', heq'⟩
      · rw [hfail] at habort
        cases habort
      · exact ⟨ok, ok', h, h', hok, hok', by rw [heq']; rfl⟩

/-- The response is one that is recorded. -/
def Sampled (S : Setting) (i : CompleteInput) (l : Local) : Prop :=
  i.now < l.thread.stopAt ∧
    (S.cfg.recordAllResponses || (decide (sub64 l.c.pending 1 = 0) || !l.c.hasPending)) = true

instance (S : Setting) (i : CompleteInput) (l : Local) : Decidable (Sampled S i l) :=
  inferInstanceAs (Decidable (_ ∧ _))

/-- What a response adds to the counters of its thread. -/
structure RespondCounts (S : Setting) (i : CompleteInput) (l : Local) (t : Thread) : Prop where
  complete : t.complete = l.thread.complete + 1
  requests : t.requests = l.thread.requests + 1
  stopAt : t.stopAt = l.thread.stopAt
  calls : ∃ recorded : List Call, (∀ call ∈ recorded, ∃ ok, call = .record ok) ∧
    t.calls = recorded ++ .responseComplete i.now l.c.pending :: l.thread.calls
  total : (∀ ok, .record ok ∈ t.calls → ok = true) → t.latencyHistogram.totalCount =
    l.thread.latencyHistogram.totalCount + if Sampled S i l then 1 else 0
  uTotal : (∀ ok, .record ok ∈ t.calls → ok = true) → t.uLatencyHistogram.totalCount =
    l.thread.uLatencyHistogram.totalCount + if Sampled S i l then 1 else 0

theorem Thread.Quiet.counts {t t' : Thread} (h : t.Quiet t') : t'.calls = t.calls ∧
    t'.complete = t.complete ∧ t'.requests = t.requests ∧ t'.stopAt = t.stopAt ∧
    t'.latencyHistogram = t.latencyHistogram ∧ t'.uLatencyHistogram = t.uLatencyHistogram := by
  rw [Thread.Quiet] at h
  rw [h]
  exact ⟨rfl, rfl, rfl, rfl, rfl, rfl⟩

/-- What a response leaves its thread with, when no assertion fails: a quiet thread that has
    counted it, and a value more in each histogram if it is recorded. -/
theorem respond_thread (habort : (respond S i l).aborted = false) :
    ∃ t, (countResponse i l).thread.Quiet t ∧
      ((¬ Sampled S i l ∧ (respond S i l).thread = t) ∨
        Sampled S i l ∧ ∃ ok ok' h h' timing actual,
          hdrRecordValue t.latencyHistogram (int64 timing) = some (ok, h) ∧
            hdrRecordValue t.uLatencyHistogram (int64 actual) = some (ok', h') ∧
            (respond S i l).thread = { t with
              latencyHistogram := h
              uLatencyHistogram := h'
              calls := .record ok' :: .record ok :: t.calls }) := by
  by_cases hstop : l.thread.stopAt ≤ i.now
  · have hthread : (respond S i l).thread =
        { (countResponse i l).thread with loop := aeStop l.thread.loop } := by
      simp [respond, hstop]
    have hnot : ¬ Sampled S i l := fun h => absurd hstop (not_le.mpr h.1)
    refine ⟨_, ?_, .inl ⟨hnot, hthread⟩⟩
    rfl
  · obtain ⟨m, timing, heq, hquiet, hpending⟩ : ∃ m timing,
        respond S i l = recordLatency S i.now (int64 timing) m ∧
        (countResponse i l).thread.Quiet m.thread ∧
        m.c.hasPending = if sub64 l.c.pending 1 = 0 then false else l.c.hasPending := by
      have heq : respond S i l = measureResponse S i (deliver i l) := by simp [respond, hstop]
      rw [heq, measureResponse]
      refine ⟨_, _, rfl, ?_, ?_⟩
      · rw [← deliver_thread]
        exact quiet_decrementPending
      · rw [decrementPending_c]
        simp
    have hsampled : Sampled S i l ↔ (S.cfg.recordAllResponses || !m.c.hasPending) = true := by
      rw [Sampled, and_iff_right (not_le.mp hstop), hpending]
      by_cases hzero : sub64 l.c.pending 1 = 0 <;> simp [hzero]
    rw [heq] at habort ⊢
    refine ⟨m.thread, hquiet, ?_⟩
    by_cases hrecord : (S.cfg.recordAllResponses || !m.c.hasPending) = true
    · obtain ⟨ok, ok', h, h', hok, hok', hthread⟩ := recordLatency_thread hrecord habort
      exact .inr ⟨hsampled.mpr hrecord, ok, ok', h, h', _, _, hok, hok', hthread⟩
    · refine .inl ⟨mt hsampled.mp hrecord, ?_⟩
      simp only [recordLatency, hrecord]
      rfl

theorem respond_counts (habort : (respond S i l).aborted = false) :
    RespondCounts S i l (respond S i l).thread := by
  obtain ⟨t, hquiet, hrecorded⟩ := respond_thread habort
  obtain ⟨hcalls, hcomplete, hrequests, hstopAt, hlatency, huLatency⟩ := hquiet.counts
  rcases hrecorded with ⟨hnot, hthread⟩ | ⟨hsampled, ok, ok', h, h', _, _, hok, hok', hthread⟩
  · rw [hthread]
    refine ⟨hcomplete, hrequests, hstopAt, ⟨[], by simp, hcalls⟩, fun _ => ?_, fun _ => ?_⟩
    · rw [hlatency, if_neg hnot, add_zero]
      rfl
    · rw [huLatency, if_neg hnot, add_zero]
      rfl
  · rw [hthread]
    refine ⟨hcomplete, hrequests, hstopAt, ⟨[.record ok', .record ok], by simp, ?_⟩,
      fun hclean => ?_, fun hclean => ?_⟩
    · rw [hcalls]
      rfl
    · obtain rfl : ok = true := hclean ok (by simp)
      rw [if_pos hsampled]
      exact (totalCount_hdrRecordValue hok).trans (by rw [hlatency]; rfl)
    · obtain rfl : ok' = true := hclean ok' (by simp)
      rw [if_pos hsampled]
      exact (totalCount_hdrRecordValue hok').trans (by rw [huLatency]; rfl)

/-! ## Latencies out of range -/

theorem hdrRecordValue_eq_none {h : HdrHistogram} {v : ℤ} :
    hdrRecordValue h v = none ↔ countsIndexFor h v = none := by
  simp [hdrRecordValue, hdrRecordValues]

/-- Recording does not change which values have a slot. -/
theorem countsIndexFor_hdrRecordValue {h h' : HdrHistogram} {v : ℤ} {ok : Bool}
    (hrecord : hdrRecordValue h v = some (ok, h')) : countsIndexFor h' = countsIndexFor h := by
  simp only [hdrRecordValue, hdrRecordValues, Option.map_eq_some_iff] at hrecord
  obtain ⟨index, -, hrecord⟩ := hrecord
  split_ifs at hrecord <;> obtain ⟨-, rfl⟩ := Prod.mk.inj hrecord <;> rfl

theorem recordValue_aborted {get : Thread → HdrHistogram}
    {set : HdrHistogram → Thread → Thread} {value : ℤ} : (recordValue get set value l).aborted =
      (l.aborted || (countsIndexFor (get l.thread) value).isNone) := by
  rw [recordValue]
  cases hrecord : hdrRecordValue (get l.thread) value with
  | none => simp [hdrRecordValue_eq_none.mp hrecord]
  | some result =>
    have hindex : countsIndexFor (get l.thread) value ≠ none := fun h => by
      rw [hdrRecordValue_eq_none.mpr h] at hrecord
      cases hrecord
    rw [Option.isNone_eq_false_iff.mpr (Option.isSome_iff_ne_none.mpr hindex), Bool.or_false]

theorem recordLatency_aborted (habort : l.aborted = false) :
    (recordLatency S now timing l).aborted = true ↔
      (S.cfg.recordAllResponses || !l.c.hasPending) = true ∧
        ((countsIndexFor l.thread.latencyHistogram timing).isNone = true ∨
          (countsIndexFor l.thread.uLatencyHistogram
            (int64 (sub64 now l.c.actualLatencyStart))).isNone = true) := by
  rw [recordLatency]
  by_cases hrecord : (S.cfg.recordAllResponses || !l.c.hasPending) = true
  · simp only [hrecord, if_true, true_and]
    generalize hnoted : l.note _ = noted
    have hthread : noted.thread = l.thread := by rw [← hnoted]; rfl
    have hnotedAbort : noted.aborted = false := by rw [← hnoted]; exact habort
    generalize hfirst : recordValue (·.latencyHistogram) _ timing noted = first
    have hslot : first.aborted = (countsIndexFor l.thread.latencyHistogram timing).isNone := by
      rw [← hfirst, recordValue_aborted, hnotedAbort, hthread, Bool.false_or]
    have huLatency : first.thread.uLatencyHistogram = l.thread.uLatencyHistogram := by
      rw [← hfirst, recordValue, ← hthread]
      split <;> rfl
    cases hfail : first.aborted with
    | true => simp [hfail, ← hslot]
    | false => simp [recordValue_aborted, hfail, huLatency, ← hslot]
  · simp [hrecord, habort]

/-! ## The slots stay -/

/-- The same values have a slot in the histograms. -/
def Thread.SameSlots (t t' : Thread) : Prop :=
  countsIndexFor t'.latencyHistogram = countsIndexFor t.latencyHistogram ∧
    countsIndexFor t'.uLatencyHistogram = countsIndexFor t.uLatencyHistogram

theorem Thread.SameSlots.trans {t t' t'' : Thread} (h : t.SameSlots t') (h' : t'.SameSlots t'') :
    t.SameSlots t'' :=
  ⟨h'.1.trans h.1, h'.2.trans h.2⟩

theorem Thread.Quiet.sameSlots {t t' : Thread} (h : t.Quiet t') : t.SameSlots t' := by
  rw [Thread.Quiet] at h
  rw [h]
  exact ⟨rfl, rfl⟩

theorem recordLatencyValue_sameSlots {value : ℤ} : l.thread.SameSlots (recordValue
    (·.latencyHistogram) (fun h t => { t with latencyHistogram := h }) value l).thread := by
  rw [recordValue]
  cases hrecord : hdrRecordValue l.thread.latencyHistogram value with
  | none => exact ⟨rfl, rfl⟩
  | some result => exact ⟨countsIndexFor_hdrRecordValue hrecord, rfl⟩

theorem recordULatencyValue_sameSlots {value : ℤ} : l.thread.SameSlots (recordValue
    (·.uLatencyHistogram) (fun h t => { t with uLatencyHistogram := h }) value l).thread := by
  rw [recordValue]
  cases hrecord : hdrRecordValue l.thread.uLatencyHistogram value with
  | none => exact ⟨rfl, rfl⟩
  | some result => exact ⟨rfl, countsIndexFor_hdrRecordValue hrecord⟩

theorem recordLatency_sameSlots : l.thread.SameSlots (recordLatency S now timing l).thread := by
  simp only [recordLatency]
  generalize hnoted : l.note _ = noted
  have hthread : l.thread.SameSlots noted.thread := by
    rw [← hnoted]
    exact ⟨rfl, rfl⟩
  split_ifs
  · exact hthread.trans recordLatencyValue_sameSlots
  · exact hthread.trans (recordLatencyValue_sameSlots.trans recordULatencyValue_sameSlots)
  · exact ⟨rfl, rfl⟩

theorem measureResponse_sameSlots : l.thread.SameSlots (measureResponse S i l).thread := by
  rw [measureResponse]
  generalize hmeasured : decrementPending _ = m
  have hthread : l.thread.SameSlots m.thread := by
    rw [← hmeasured]
    exact quiet_decrementPending.sameSlots
  exact hthread.trans recordLatency_sameSlots

/-- A response changes no slot. -/
theorem respond_sameSlots : l.thread.SameSlots (respond S i l).thread := by
  have hdeliver : l.thread.SameSlots (deliver i l).thread := by
    rw [deliver_thread]
    exact ⟨rfl, rfl⟩
  rw [respond]
  split_ifs
  · exact hdeliver
  · exact hdeliver.trans measureResponse_sameSlots

/-- The two latencies of a response at `now` have their slots in the histograms. -/
def Fits (S : Setting) (now : ℕ) (l : Local) : Prop :=
  (countsIndexFor l.thread.latencyHistogram
      (int64 (sub64 now (expectedLatencyStart S l.c)))).isSome = true ∧
    (countsIndexFor l.thread.uLatencyHistogram
      (int64 (sub64 now l.c.actualLatencyStart))).isSome = true

instance (S : Setting) (now : ℕ) (l : Local) : Decidable (Fits S now l) :=
  inferInstanceAs (Decidable (_ ∧ _))

/-- A response ends the process when it is recorded and one of its latencies has no slot. -/
theorem respond_aborted_iff (habort : l.aborted = false) :
    (respond S i l).aborted = true ↔ Sampled S i l ∧ ¬ Fits S i.now l := by
  by_cases hstop : l.thread.stopAt ≤ i.now
  · have hnot : ¬ Sampled S i l := fun h => absurd hstop (not_le.mpr h.1)
    simp [respond, hstop, hnot, habort]
  · have heq : respond S i l = measureResponse S i (deliver i l) := by simp [respond, hstop]
    have hquiet : ∀ l : Local, (decrementPending l).thread.latencyHistogram =
        l.thread.latencyHistogram ∧
        (decrementPending l).thread.uLatencyHistogram = l.thread.uLatencyHistogram := fun l =>
      (quiet_decrementPending (l := l)).counts.2.2.2.2
    rw [heq, measureResponse, recordLatency_aborted (by simpa using habort)]
    simp only [hquiet, decrementPending_c, Sampled, Fits, not_le.mp hstop, true_and, not_and_or,
      Bool.not_eq_true, Option.isSome_eq_false_iff]
    refine and_congr ?_ ?_
    · by_cases hlast : sub64 l.c.pending 1 = 0 <;> simp [hlast]
    · simp [expectedLatencyStart]

end Wrkx
