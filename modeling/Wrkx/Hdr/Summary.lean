import Wrkx.Hdr.Merge

/-!
# Latency histograms

A histogram of latencies keeps the shape that `hdr_init (1, MAX_LATENCY, 3)` gives it and a
total that is the sum of its counts. Recording a latency in range and resetting keep it so,
and on such a histogram every loop over the slots ends and fails no assertion.

## Main results

- `recordsValues` — the counts and the total after recording a list of values
- `overSlots_spec` — the rule for a loop over the slots
-/

namespace Wrkx

open LogLinear

/-- A histogram made by `hdr_init (1, MAX_LATENCY, 3)` and filled with values it can hold. -/
structure LatencyHistogram (h : HdrHistogram) : Prop where
  shaped : Shaped 10 27 h
  tallied : Tallied h

theorem latencyHistogram_fresh : LatencyHistogram latencyHistogram :=
  ⟨latencyHistogram_shaped, latencyHistogram_tallied⟩

variable {m n : ℕ} {h : HdrHistogram}

theorem Tallied.hdrReset : Tallied (hdrReset h) :=
  ⟨fun _ => le_rfl, fun _ _ => rfl, by simp [Wrkx.hdrReset, prefixCount]⟩

theorem LatencyHistogram.hdrReset (hl : LatencyHistogram h) : LatencyHistogram (hdrReset h) :=
  ⟨hl.shaped.hdrReset, .hdrReset⟩

/-- A latency up to the maximum is recorded. -/
theorem LatencyHistogram.hdrRecordValue (hl : LatencyHistogram h) {v : ℤ} (hv : 0 ≤ v)
    (hmax : v ≤ maxLatency) :
    ∃ h', hdrRecordValue h v = some (true, h') ∧ LatencyHistogram h' := by
  obtain ⟨v, rfl⟩ := Int.eq_ofNat_of_zero_le hv
  have hlt : v < 2 ^ (10 + 27) := (Int.ofNat_le.mp hmax).trans_lt maxLatency_lt
  exact ⟨_, hl.shaped.hdrRecordValues_natCast hlt 1, hl.shaped.plus _ _,
    hl.tallied.plus_single (hl.shaped.slot_lt_countsLen hlt) (by norm_num)⟩

/-- Whatever is recorded without failing an assertion is counted. -/
theorem LatencyHistogram.of_hdrRecordValue {h' : HdrHistogram} {v : ℤ} {ok : Bool}
    (hl : LatencyHistogram h) (hmin : -2 ^ 63 ≤ v) (hmax : v < 2 ^ 63)
    (hrecord : Wrkx.hdrRecordValue h v = some (ok, h')) :
    LatencyHistogram h' ∧ h'.totalCount = h.totalCount + 1 := by
  have hindex : countsIndexFor h v ≠ none := fun hnone => by
    simp [Wrkx.hdrRecordValue, hdrRecordValues, hnone] at hrecord
  rcases lt_or_ge v 0 with hneg | hpos
  · exact absurd (hl.shaped.countsIndexFor_neg hneg hmin) hindex
  · obtain ⟨v, rfl⟩ := Int.eq_ofNat_of_zero_le hpos
    rcases lt_or_ge v (2 ^ (10 + 27)) with hlt | hge
    · rw [Wrkx.hdrRecordValue, hl.shaped.hdrRecordValues_natCast hlt, Option.some.injEq,
        Prod.mk.injEq] at hrecord
      obtain ⟨-, rfl⟩ := hrecord
      exact ⟨⟨hl.shaped.plus _ _, hl.tallied.plus_single (hl.shaped.slot_lt_countsLen hlt)
        (by norm_num)⟩, rfl⟩
    · exact absurd (hl.shaped.countsIndexFor_eq_none hge (by exact_mod_cast hmax)) hindex

/-- The histogram `hdr_init (1, MAX_LATENCY, 3)` after recording a list of values. -/
structure RecordsValues (h : HdrHistogram) (values : List ℕ) : Prop extends LatencyHistogram h where
  counts : h.counts = tally 10 values
  total : h.totalCount = values.length

theorem hdrInit_eq {fresh : HdrHistogram} (hinit : hdrInit 1 maxLatency 3 = some fresh) :
    fresh = latencyHistogram := by
  rw [hdrInit_maxLatency] at hinit
  exact (Option.some.inj hinit).symm

theorem recordsValues {fresh : HdrHistogram} (hinit : hdrInit 1 maxLatency 3 = some fresh)
    {values : List ℕ} (hv : ∀ v ∈ values, v ≤ maxLatency)
    (hrecord : recordAll fresh values = some h) : RecordsValues h values := by
  have hlt : ∀ v ∈ values, v < 2 ^ (10 + 27) := fun v hmem => (hv v hmem).trans_lt maxLatency_lt
  rw [hdrInit_eq hinit, latencyHistogram_shaped.recordAll_eq hlt, Option.some.injEq] at hrecord
  subst hrecord
  exact ⟨⟨latencyHistogram_shaped.plus _ _,
    .plus_tally latencyHistogram_shaped latencyHistogram_tallied hlt⟩, zero_add _, zero_add _⟩

/-! ## Reading the slots -/

section Reading

/-- The outcome of one round of a loop: it goes on in a state with `Inv`, or is left with a
    result with `Post`. -/
inductive Round {σ ρ : Type} (Inv : σ → Prop) (Post : ρ → Prop) : σ ⊕ ρ → Prop
  | next {s : σ} (hinv : Inv s) : Round Inv Post (.inl s)
  | leave {result : ρ} (hpost : Post result) : Round Inv Post (.inr result)

variable {σ ρ : Type} (body : HdrIter → σ → σ ⊕ ρ) (finish : σ → ρ) (Inv : ℕ → σ → Prop)
  (Post : ρ → Prop)

/-- The rule for a loop over the slots: `Inv k` holds after `k` of them, the body keeps it or
    leaves the loop with a result, and the loop ends once the total is reached. -/
theorem iterLoop_slotIter (hs : Shaped m n h) (ht : Tallied h)
    (hstep : ∀ k s, prefixCount h k < h.totalCount → Inv k s →
      Round (Inv (k + 1)) Post (body (slotIter m h (k + 1)) s))
    (hdone : ∀ k s, h.totalCount ≤ prefixCount h k → Inv k s → Post (finish s))
    (fuel : ℕ) {k : ℕ} {s : σ} (hk : k ≤ h.countsLen.toNat) (hfuel : h.countsLen.toNat < fuel + k)
    (hinv : Inv k s) :
    ∃ result, iterLoop h body finish fuel (slotIter m h k) s = some result ∧ Post result := by
  induction fuel generalizing k s with
  | zero => omega
  | succ fuel ih =>
    rw [iterLoop, hdrIterNext_slotIter hs ht]
    by_cases hmore : prefixCount h k < h.totalCount
    · have hlt := ht.lt_of_hasNext hmore
      have hbody := hstep k s hmore hinv
      simp only [hmore, if_true, Option.bind_eq_bind, Option.bind_some]
      generalize body (slotIter m h (k + 1)) s = outcome at hbody
      cases hbody with
      | next hinv => exact ih hlt (by omega) hinv
      | leave hpost => exact ⟨_, rfl, hpost⟩
    · have hpost := hdone k s (not_lt.mp hmore) hinv
      exact ⟨finish s, by simp [hmore], hpost⟩

theorem overSlots_spec (hs : Shaped m n h) (ht : Tallied h) {s : σ} (hstart : Inv 0 s)
    (hstep : ∀ k s, prefixCount h k < h.totalCount → Inv k s →
      Round (Inv (k + 1)) Post (body (slotIter m h (k + 1)) s))
    (hdone : ∀ k s, h.totalCount ≤ prefixCount h k → Inv k s → Post (finish s)) :
    ∃ result, overSlots h body finish s = some result ∧ Post result :=
  iterLoop_slotIter body finish Inv Post hs ht hstep hdone (slotRounds h) (Nat.zero_le _)
    (by simp only [slotRounds]; omega) hstart

/-- Every loop over the slots ends. -/
theorem overSlots_isSome (hs : Shaped m n h) (ht : Tallied h) (s : σ) :
    (overSlots h body finish s).isSome := by
  obtain ⟨result, hresult, -⟩ := overSlots_spec body finish (fun _ _ => True) (fun _ => True) hs ht
    (s := s) trivial (fun k s _ _ => by
      cases body (slotIter m h (k + 1)) s with
      | inl s => exact .next trivial
      | inr result => exact .leave trivial)
    (fun _ _ _ _ => trivial)
  rw [hresult, Option.isSome_some]

end Reading

theorem hdrMax_isSome (hs : Shaped m n h) (ht : Tallied h) : (hdrMax h).isSome := by
  rw [hdrMax, Option.isSome_map]
  exact overSlots_isSome _ _ hs ht _

theorem hdrMin_isSome (hs : Shaped m n h) (ht : Tallied h) : (hdrMin h).isSome :=
  overSlots_isSome _ _ hs ht _

theorem hdrValueAtPercentile_isSome (hs : Shaped m n h) (ht : Tallied h) (percentile : ℚ) :
    (hdrValueAtPercentile h percentile).isSome :=
  overSlots_isSome _ _ hs ht _

theorem hdrMean_isSome (hs : Shaped m n h) (ht : Tallied h) : (hdrMean h).isSome := by
  rw [hdrMean, Option.isSome_map]
  exact overSlots_isSome _ _ hs ht _

theorem hdrStddev_isSome (hs : Shaped m n h) (ht : Tallied h) (sqrt : ℚ → ℚ) :
    (hdrStddev sqrt h).isSome := by
  obtain ⟨mean, hmean⟩ := Option.isSome_iff_exists.mp (hdrMean_isSome hs ht)
  obtain ⟨total, htotal⟩ := Option.isSome_iff_exists.mp (overSlots_isSome
    (fun iter total => .inl (hdrStddevStep h mean iter total)) id hs ht (some 0))
  simp [hdrStddev, hmean, htotal]

end Wrkx
