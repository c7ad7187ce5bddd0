import Wrkx.Connection.Shape

/-!
# The corrected latency

A batch is measured from two starts: the time it was first sent, and the time the plan had
for it. Once a connection has started a batch, the planned start is never after the actual
one, which is never after the last reading of the clock. This survives pipelined responses,
reconnections and batches that are sent again.

## Main results

- `Act.timed` — every act keeps the two starts in order
- `corrected_latency` — so along every run no corrected latency is negative or smaller than
  the uncorrected one
-/

namespace Wrkx

open History Word

/-! ## The clock -/

/-- The time of a reading of the clock. -/
def Obs.reading : Obs → Option ℕ
  | .clock now => some now
  | _ => none

/-- A reading of the clock is not before the last one. -/
def InOrder (o : Obs) (older : List Obs) : Prop :=
  ∀ now ∈ o.reading, ∀ t ∈ lastClock older, t ≤ now

instance (o : Obs) (older : List Obs) : Decidable (InOrder o older) :=
  inferInstanceAs (Decidable (∀ now ∈ o.reading, ∀ t ∈ lastClock older, t ≤ now))

/-- The clock only advances over what is noted later. -/
theorem lastClock_append {noted h : List Obs} (horder : Each InOrder (noted ++ h)) {t : ℕ}
    (ht : lastClock h = some t) : ∃ t', lastClock (noted ++ h) = some t' ∧ t ≤ t' := by
  induction noted with
  | nil => exact ⟨t, ht, le_rfl⟩
  | cons o noted ih =>
    obtain ⟨t', ht', hle⟩ := ih horder.2
    cases o with
    | clock now => exact ⟨now, rfl, hle.trans (horder.1 now rfl t' ht')⟩
    | _ => exact ⟨t', ht', hle⟩

/-! ## The two starts of a batch -/

def Obs.isBatchStart : Obs → Bool
  | .batchStart .. => true
  | _ => false

/-- A batch was started. -/
def HasStarted (h : List Obs) : Prop := ∃ o ∈ h, o.isBatchStart = true

instance (h : List Obs) : Decidable (HasStarted h) :=
  inferInstanceAs (Decidable (∃ o ∈ h, o.isBatchStart = true))

/-- A response after the first batch start: the planned start is not after the actual one, that
    one not after the response, and the latencies recorded are in the same order. -/
def Corrected : Obs → List Obs → Prop
  | .latency now expectedStart actualStart timing, older => HasStarted older →
      expectedStart ≤ actualStart ∧ actualStart ≤ now ∧ timing = now - expectedStart ∧ 0 ≤ timing
  | .record expected actual, older => HasStarted older → 0 ≤ actual ∧ actual ≤ expected
  | _, _ => True

/-- The invariant behind `Corrected`. -/
structure Timed (S : Setting) (l : Local) : Prop where
  first : FirstConnect l
  corrected : Each Corrected l.history
  connected : HasStarted l.history → l.tcp ≠ 0
  starts : HasStarted l.history → expectedLatencyStart S l.c ≤ l.c.actualLatencyStart ∧
    ∃ t, lastClock l.history = some t ∧ l.c.actualLatencyStart ≤ t
  pending : l.c.hasPending = true → HasStarted l.history

/-- What neither starts a batch nor measures a response. -/
def Untimed : Obs → Prop
  | .latency .. | .record .. | .batchStart .. => False
  | _ => True

theorem hasStarted_append {noted h : List Obs} (hnoted : ∀ o ∈ noted, Untimed o) :
    HasStarted (noted ++ h) ↔ HasStarted h := by
  constructor
  · rintro ⟨o, hmem, ho⟩
    rcases List.mem_append.mp hmem with hmem | hmem
    · cases o with
      | batchStart => exact absurd (hnoted _ hmem) id
      | _ => simp [Obs.isBatchStart] at ho
    · exact ⟨o, hmem, ho⟩
  · rintro ⟨o, hmem, ho⟩
    exact ⟨o, List.mem_append_right _ hmem, ho⟩

theorem Corrected.of_untimed {o : Obs} (h : Untimed o) (older : List Obs) : Corrected o older := by
  cases o <;> trivial

section Acts

variable {S : Setting} {l l' : Local}

/-- An act that neither starts a batch nor measures a response keeps the invariant when it
    leaves the fields behind the two starts alone. -/
theorem Timed.of_untimed (hl : Timed S l) (hfirst : FirstConnect l')
    (horder : Each InOrder l'.history) (htcp : l.tcp ≤ l'.tcp) {noted : List Obs}
    (hhistory : l'.history = noted ++ l.history) (hnoted : ∀ o ∈ noted, Untimed o)
    (hexpected : HasStarted l.history → expectedLatencyStart S l'.c = expectedLatencyStart S l.c)
    (hactual : l'.c.actualLatencyStart = l.c.actualLatencyStart)
    (hpending : l'.c.hasPending = true → l.c.hasPending = true) : Timed S l' := by
  have hstarted : HasStarted l'.history ↔ HasStarted l.history := by
    rw [hhistory, hasStarted_append hnoted]
  refine ⟨hfirst, ?_, fun h => ?_, fun h => ?_, fun h => hstarted.mpr (hl.pending (hpending h))⟩
  · rw [hhistory]
    exact hl.corrected.append fun o ho older => .of_untimed (hnoted o ho) older
  · have := hl.connected (hstarted.mp h)
    omega
  · obtain ⟨hle, t, ht, hactualle⟩ := hl.starts (hstarted.mp h)
    rw [hhistory] at horder ⊢
    obtain ⟨t', ht', htle⟩ := lastClock_append horder ht
    rw [hexpected (hstarted.mp h), hactual]
    exact ⟨hle, t', ht', hactualle.trans htle⟩

theorem timed_startBatch (hl : Timed S l) {i : WriteInput} {fd : Fd} {writable : Bool}
    (hact : Act S l (startBatch S i l)) (hcalls : l.Calls fd writable .socketWriteable)
    (hbasic : Basic l) (hclock : lastClock l.history = some i.now.val)
    (hpermits : Permits S i.now l.c) (horder : Each InOrder (startBatch S i l).history) :
    Timed S (startBatch S i l) := by
  have hle : i.now.val ≤ i.start.val := by
    rw [startBatch_history] at horder
    split_ifs at horder <;> exact horder.2.1 _ rfl _ (by simpa [lastClock] using hclock)
  have hlast : lastClock (startBatch S i l).history = some (i.start : ℕ) := by
    rw [startBatch_history]
    split_ifs <;> rfl
  have hstarts : expectedLatencyStart S (startBatch S i l).c ≤
      (startBatch S i l).c.actualLatencyStart ∧
        (startBatch S i l).c.actualLatencyStart ≤ i.start := by
    rw [startBatch_c]
    simp only [expectedLatencyStart]
    by_cases hpending : l.c.hasPending = true
    · -- The batch was cut short: it keeps the starts it had.
      obtain ⟨hexpected, t, ht, hactual⟩ := hl.starts (hl.pending hpending)
      obtain rfl : i.now.val = t := Option.some.inj (hclock ▸ ht)
      simp only [hpending, if_true]
      exact ⟨hexpected, hactual.trans hle⟩
    · simp only [hpending, if_false, Bool.false_eq_true]
      exact ⟨hpermits.planned.trans hle, le_rfl⟩
  have hstarted : HasStarted (startBatch S i l).history := by
    rw [startBatch_history]
    split_ifs <;> exact ⟨.batchStart l.tcp i.start l.c.complete, by simp, rfl⟩
  refine ⟨hact.firstConnect hl.first, ?_, fun _ => ?_, fun _ => ⟨hstarts.1, _, hlast, hstarts.2⟩,
    fun _ => hstarted⟩
  · rw [startBatch_history]
    split_ifs
    · exact ⟨trivial, trivial, trivial, hl.corrected⟩
    · exact ⟨trivial, trivial, hl.corrected⟩
  · rw [startBatch_tcp]
    exact hbasic.tcp_of_calls hcalls

theorem int64_sub64 {now start : ℕ} (hle : start ≤ now) (hnow : now < 2 ^ 63) :
    int64 (sub64 now start) = now - start := by
  rw [sub64_of_le hle, int64_natCast (by omega), Nat.cast_sub hle]

theorem hasStarted_measurement {now tcp : ℕ} {c : Connection} {h : List Obs} :
    HasStarted (measurement S now tcp c ++ h) ↔ HasStarted h := by
  simp only [measurement]
  split_ifs <;> simp [HasStarted, Obs.isBatchStart]

theorem lastClock_measurement {now tcp : ℕ} {c : Connection} {h : List Obs} :
    lastClock (measurement S now tcp c ++ h) = lastClock h := by
  simp only [measurement]
  split_ifs <;> rfl

/-- A response that is not before the two starts of its batch is measured in their order. -/
theorem corrected_measurement {now : Micros} {tcp : ℕ} {c : Connection} {h : List Obs}
    (hh : Each Corrected h) (hstarts : HasStarted h →
      expectedLatencyStart S c ≤ c.actualLatencyStart ∧ c.actualLatencyStart ≤ now) :
    Each Corrected (measurement S now tcp c ++ h) := by
  have hlatency : Corrected (.latency now (expectedLatencyStart S c) c.actualLatencyStart
      (int64 (sub64 now (expectedLatencyStart S c)))) h := by
    intro hstarted
    obtain ⟨hexpected, hactual⟩ := hstarts hstarted
    refine ⟨hexpected, hactual, int64_sub64 (hexpected.trans hactual) now.isLt, ?_⟩
    rw [int64_sub64 (hexpected.trans hactual) now.isLt]
    omega
  simp only [measurement]
  split_ifs
  · refine ⟨fun hstarted => ?_, trivial, hlatency, hh⟩
    obtain ⟨hexpected, hactual⟩ := hstarts (by simpa [HasStarted, Obs.isBatchStart] using hstarted)
    rw [int64_sub64 (hexpected.trans hactual) now.isLt, int64_sub64 hactual now.isLt]
    omega
  · exact ⟨trivial, hlatency, hh⟩

theorem untimed_received {i : CompleteInput} {tcp : ℕ} {c : Connection} :
    ∀ o ∈ delivery i c ++ [.complete tcp i.now i.status, .clock i.now], Untimed o :=
  forall_received (fun _ _ _ _ => trivial) trivial trivial

theorem timed_respond (hl : Timed S l) {i : CompleteInput} (hact : Act S l (respond S i l))
    (horder : Each InOrder (respond S i l).history) : Timed S (respond S i l) := by
  have hstarted : HasStarted (deliver i l).history ↔ HasStarted l.history := by
    rw [deliver_received, hasStarted_append untimed_received]
  have hcorrected : Each Corrected (deliver i l).history := by
    rw [deliver_received]
    exact hl.corrected.append fun o ho older => .of_untimed (untimed_received o ho) older
  have hclock : lastClock (deliver i l).history = some (i.now : ℕ) := by
    rw [deliver_history, delivery]
    split_ifs <;> rfl
  -- The response is not before the actual start, nor is that before the planned one.
  have hstarts : HasStarted l.history → expectedLatencyStart S l.c ≤ l.c.actualLatencyStart ∧
      l.c.actualLatencyStart ≤ i.now := by
    intro h
    obtain ⟨hexpected, t, ht, hactual⟩ := hl.starts h
    have hclock := (horder.of_suffix (suffix_received S i l)).2.1
    exact ⟨hexpected, hactual.trans (hclock _ rfl t ht)⟩
  have hstarted' : HasStarted (respond S i l).history ↔ HasStarted l.history := by
    rw [respond_history]
    split_ifs
    · exact hstarted
    · rw [hasStarted_measurement, hstarted]
  refine ⟨hact.firstConnect hl.first, ?_, fun h => ?_, fun h => ?_, fun h => ?_⟩
  · rw [respond_history]
    split_ifs
    · exact hcorrected
    · exact corrected_measurement hcorrected fun h => hstarts (hstarted.mp h)
  · rw [respond_tcp]
    exact hl.connected (hstarted'.mp h)
  · have hlast : lastClock (respond S i l).history = some (i.now : ℕ) := by
      rw [respond_history]
      split_ifs
      · exact hclock
      · rw [lastClock_measurement, hclock]
    obtain ⟨hexpected, hactual⟩ := hstarts (hstarted'.mp h)
    refine ⟨?_, i.now, hlast, ?_⟩ <;> rw [respond_c] <;> split_ifs <;>
      simpa [expectedLatencyStart] using by assumption
  · rw [hstarted']
    refine hl.pending ?_
    rw [respond_c] at h
    split_ifs at h <;> simp_all

/-- Every act keeps the two starts of a batch in order, as long as the clock does not go
    back. -/
theorem Act.timed (hact : Act S l l') (hbasic : Basic l) (horder : Each InOrder l'.history)
    (hl : Timed S l) : Timed S l' := by
  have hfirst := hact.firstConnect hl.first
  have hquiet : ∀ noted : List Obs, l'.history = noted ++ l.history → (∀ o ∈ noted, Untimed o) →
      (HasStarted l.history → expectedLatencyStart S l'.c = expectedLatencyStart S l.c) →
      l'.c.actualLatencyStart = l.c.actualLatencyStart →
      (l'.c.hasPending = true → l.c.hasPending = true) → Timed S l' :=
    fun _ => hl.of_untimed hfirst horder hact.tcp_le
  cases hact with
  | tick now => exact hquiet [_] rfl (by simp [Untimed]) (fun _ => rfl) rfl id
  | thread | fail | parser => exact hquiet [] rfl (by simp) (fun _ => rfl) rfl id
  | initial id now i harmed =>
    have hconnects := Local.initialConnect_connects now i l
    obtain ⟨ok, hhistory⟩ := hconnects.history_eq
    -- Nothing was started before the first connect.
    have hnone : ¬ HasStarted l.history := fun h => hl.connected h (hl.first _ _ harmed).2
    refine hquiet [_, _] hhistory (by simp [Untimed]) (fun h => absurd h hnone) ?_ ?_ <;>
      rw [setLoop_c, hconnects.c_eq]
    · rfl
    · exact fun h => h
  | reconnect i hconnected =>
    have hconnects := Local.reconnectSocket_connects i l
    obtain ⟨ok, hhistory⟩ := hconnects.history_eq
    refine hquiet [_, _] hhistory (by simp [Untimed]) (fun _ => ?_) ?_ ?_ <;>
      rw [hconnects.c_eq]
    · rfl
    · rfl
    · exact fun h => h
  | paced now =>
    obtain ⟨noted, hhistory, hnoted⟩ := usecToNextSend_history S now l
    refine hquiet (noted ++ [.clock now]) (by simp [hhistory]) ?_ (fun _ => ?_) ?_ ?_
    · rcases hnoted with rfl | rfl | rfl <;> simp [Untimed]
    all_goals rw [usecToNextSend_c]
    · rfl
    · exact fun h => h
  | park fd writable armed wait hcalls hwritten =>
    exact hquiet [_, _] park_history (by simp [Untimed]) (fun _ => rfl) rfl id
  | resume id harmed =>
    exact hquiet [_] resume_history (by simp [Untimed]) (fun _ => by simp) (by simp) (by simp)
  | start fd writable i hcalls hwritten hclock hpermits =>
    exact timed_startBatch hl (.start l fd writable i hcalls hwritten hclock hpermits) hcalls hbasic
      hclock hpermits horder
  | wrote fd writable n hcalls hbatch =>
    have hhistory : (acceptBytes n fd l).history = _ := acceptBytes_history
    split_ifs at hhistory
    · refine hquiet [_, _] hhistory (by simp [Untimed]) (fun _ => ?_) ?_ ?_ <;> rw [acceptBytes_c]
      · rfl
      · exact fun h => h
    · refine hquiet [_] hhistory (by simp [Untimed]) (fun _ => ?_) ?_ ?_ <;> rw [acceptBytes_c]
      · rfl
      · exact fun h => h
  | refuse fd writable hcalls hbatch =>
    exact hquiet [_] rfl (by simp [Untimed]) (fun _ => rfl) rfl id
  | established fd writable hcalls =>
    exact hquiet [_] openSocket_history (by simp [Untimed])
      (fun _ => by simp [expectedLatencyStart])
      (by simp) (by simp)
  | field fd piece hcalls hwant =>
    refine hquiet [_] rfl (by simp [Untimed]) (fun _ => ?_) ?_ ?_ <;> rw [headerField_c]
    · rfl
    · exact fun h => h
  | value fd piece hcalls hwant =>
    refine hquiet [_] rfl (by simp [Untimed]) (fun _ => ?_) ?_ ?_ <;> rw [headerValue_c]
    · rfl
    · exact fun h => h
  | body fd piece hcalls hwant =>
    exact hquiet [_] rfl (by simp [Untimed]) (fun _ => rfl) rfl id
  | respond fd i hcalls => exact timed_respond hl (.respond l fd i hcalls) horder

end Acts

/-! ## Runs -/

theorem Start.timed (S : Setting) (start : Start) : Timed S start.local where
  first := start.firstConnect
  corrected := trivial
  connected := by simp [HasStarted, Start.local]
  starts := by simp [HasStarted, Start.local]
  pending := by simp [Start.local, newConnection]

/-- No coordinated omission: whatever happens to a connection, as long as the clock does not go
    back every response after the first batch start has the planned start of its batch at or
    before the actual one, and the latencies recorded for it are in that order. -/
theorem corrected_latency {S : Setting} {start : Start} {moves : List Move} {l : Local}
    (h : start.run S moves = some l) (horder : Each InOrder l.history) :
    Each Corrected l.history := by
  have hinv := Start.run_preserves_under (I := fun l => Basic l ∧ Timed S l) backward_each
    (fun _ _ hact horder hl => ⟨hact.basic hl.1, hact.timed hl.1 horder hl.2⟩) h horder
    ⟨start.basic, start.timed S⟩
  exact hinv.2.corrected

/-- Two responses, the second to a batch that was sent late. -/
def Example.late : Option Local :=
  (start [71, 69, 84] 10000).run (setting 1 false)
    [connect 5 3, opens 3, write 3 10 [] (.ok 3), read 3 [completed 50 true (connects 3)],
      write 3 60 [] (.ok 3), timer 3 1000, write 3 1100 [] (.ok 3),
      read 3 [completed 1200 true (connects 3)]]

theorem corrected_latency_late : ∃ l : Local, Example.late = some l ∧
    Obs.record 1095 100 ∈ l.history ∧ Each Corrected l.history := by
  have hrun : ∃ l : Local, Example.late = some l ∧
      Each InOrder l.history ∧ Obs.record 1095 100 ∈ l.history :=
    exists_of_any (by decide +kernel)
  obtain ⟨l, hl, horder, hrecord⟩ := hrun
  exact ⟨l, hl, hrecord, corrected_latency hl horder⟩

end Wrkx
