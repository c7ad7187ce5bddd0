import Mathlib.Algebra.Order.Floor.Ring
import Mathlib.Tactic.FieldSimp
import Mathlib.Tactic.Linarith
import Wrkx.Base.OrderStatistic
import Wrkx.Stats.Within

/-!
# Sorting raw samples

`stats_summarize` sorts the samples with `qsort`, whose comparator narrows the difference of
two unsigned 64-bit words to an `int`. The sort of the C library is a parameter: it sorts when
its comparator is a consistent total preorder on the elements, and nothing is known of it
otherwise.

## Main results

- `Comparable.ascending` — on which samples the comparator gives the ascending order
- `percentileIndex_eq` — the index that `stats_percentile` reads
- `rawPercentile_iff` — for which samples and percentiles an order statistic is read
-/

namespace Wrkx

open Word OrderStatistic

/-- `stats_compare`. -/
def statsCompare (x y : ℕ) : ℤ := int32 (sub64 x y)

/-- `stats_summarize`, without the mean it returns; `qsort` is that of the C library. -/
def statsSummarize (qsort : (ℕ → ℕ → ℤ) → List ℕ → List ℕ) (s : Stats) : Stats :=
  { s with data := fun i =>
      if i < s.limit then (qsort statsCompare s.raw).getD i 0 else s.data i }

/-- `round` of the C library: ties go away from zero. -/
def cRound (x : ℚ) : ℤ := if 0 ≤ x then ⌊x + 1 / 2⌋ else ⌈x - 1 / 2⌉

/-- The index that `stats_percentile` reads. -/
def percentileIndex (s : Stats) (p : ℚ) : ℕ :=
  let rank := uint64 (cRound (p / 100 * s.limit + 1 / 2))
  sub64 rank 1

/-- `stats_percentile`; `none` when the loop of `hdr_value_at_percentile` does not end. -/
def statsPercentile (s : Stats) (p : ℚ) : Option ℕ :=
  match s.histogram with
  | some h => (hdrValueAtPercentile h p).map Int.toNat
  | none => some (s.data (percentileIndex s p))

/-! ## Sorting with a comparator -/

/-- The comparator is a consistent total preorder on the elements of the list. -/
structure Consistent (cmp : ℕ → ℕ → ℤ) (l : List ℕ) : Prop where
  sign : ∀ x ∈ l, ∀ y ∈ l, cmp x y < 0 ↔ 0 < cmp y x
  trans : ∀ x ∈ l, ∀ y ∈ l, ∀ z ∈ l, cmp x y ≤ 0 → cmp y z ≤ 0 → cmp x z ≤ 0

/-- What is known of `qsort`. -/
def Sorts (qsort : (ℕ → ℕ → ℤ) → List ℕ → List ℕ) : Prop :=
  ∀ cmp l, Consistent cmp l →
    (qsort cmp l).Perm l ∧ (qsort cmp l).Pairwise fun x y => cmp x y ≤ 0

variable {cmp : ℕ → ℕ → ℤ} {l : List ℕ}

theorem Consistent.total (hc : Consistent cmp l) {x y : ℕ} (hx : x ∈ l) (hy : y ∈ l) :
    cmp x y ≤ 0 ∨ cmp y x ≤ 0 := by
  rcases lt_or_ge 0 (cmp x y) with hpos | hneg
  · exact Or.inr ((hc.sign y hy x hx).mpr hpos).le
  · exact Or.inl hneg

theorem Consistent.perm (hc : Consistent cmp l) {l' : List ℕ} (hp : l'.Perm l) :
    Consistent cmp l' :=
  ⟨fun x hx y hy => hc.sign x (hp.mem_iff.mp hx) y (hp.mem_iff.mp hy),
    fun x hx y hy z hz => hc.trans x (hp.mem_iff.mp hx) y (hp.mem_iff.mp hy) z (hp.mem_iff.mp hz)⟩

/-! ## A sort that gives no more than it must -/

/-- The elements in descending order. -/
def descending (l : List ℕ) : List ℕ := l.insertionSort fun x y => y ≤ x

/-- A stable sort of the descending list, where the comparator is consistent on it, and the
    descending list itself where it is not. -/
noncomputable def adverseSort (cmp : ℕ → ℕ → ℤ) (l : List ℕ) : List ℕ := by
  classical
  exact if Consistent cmp l then
    ((descending l).attach.mergeSort fun x y => decide (cmp x y ≤ 0)).map Subtype.val
  else descending l

theorem descending_perm (l : List ℕ) : (descending l).Perm l := List.perm_insertionSort _ l

theorem adverseSort_perm (cmp : ℕ → ℕ → ℤ) (l : List ℕ) : (adverseSort cmp l).Perm l := by
  rw [adverseSort]
  split_ifs
  · have hperm := (List.mergeSort_perm (descending l).attach
      fun x y => decide (cmp x y ≤ 0)).map Subtype.val
    rw [List.attach_map_subtype_val] at hperm
    exact hperm.trans (descending_perm l)
  · exact descending_perm l

theorem adverseSort_sorts : Sorts adverseSort := by
  intro cmp l hc
  have hd := hc.perm (descending_perm l)
  refine ⟨adverseSort_perm cmp l, ?_⟩
  rw [adverseSort, if_pos hc, List.pairwise_map]
  refine (List.pairwise_mergeSort ?_ ?_ _).imp fun {x y} h => of_decide_eq_true h
  · intro x y z hxy hyz
    exact decide_eq_true (hd.trans x x.2 y y.2 z z.2 (of_decide_eq_true hxy)
      (of_decide_eq_true hyz))
  · intro x y
    rw [Bool.or_eq_true, decide_eq_true_iff, decide_eq_true_iff]
    exact hd.total x.2 y.2

/-- Of two elements of a list in a strict order, the one that may come first does. -/
theorem pair_sublist {α : Type*} {r : α → α → Prop} {l : List α} (hl : l.Pairwise r) {x y : α}
    (hx : x ∈ l) (hy : y ∈ l) (hne : x ≠ y) (hr : ¬ r y x) : [x, y].Sublist l := by
  by_contra hno
  have hpairs : l.Pairwise fun a b => ¬ (a = x ∧ b = y) := by
    rw [List.pairwise_iff_forall_sublist]
    rintro a b hab ⟨rfl, rfl⟩
    exact hno hab
  obtain ⟨i, hi, rfl⟩ := List.mem_iff_getElem.mp hx
  obtain ⟨j, hj, rfl⟩ := List.mem_iff_getElem.mp hy
  rcases Nat.lt_trichotomy i j with hij | rfl | hji
  · exact List.pairwise_iff_getElem.mp hpairs i j hi hj hij ⟨rfl, rfl⟩
  · exact hne rfl
  · exact hr (List.pairwise_iff_getElem.mp hl j i hj hi hji)

/-- An inversion that the comparator allows stays in place. -/
theorem adverseSort_not_ascending {x y : ℕ} (hx : x ∈ l) (hy : y ∈ l) (hlt : x < y)
    (hcmp : cmp y x ≤ 0) : ¬ (adverseSort cmp l).Pairwise (· ≤ ·) := by
  have hsorted : (descending l).Pairwise fun a b => b ≤ a := List.pairwise_insertionSort _ l
  have hx' := (descending_perm l).mem_iff.mpr hx
  have hy' := (descending_perm l).mem_iff.mpr hy
  have hpair : [y, x].Sublist (adverseSort cmp l) := by
    rw [adverseSort]
    split_ifs with hc
    · -- a stable sort keeps the order of two elements that compare as equal or less
      have hd := hc.perm (descending_perm l)
      have hattach : (descending l).attach.Pairwise fun a b => b.val ≤ a.val := by
        have := hsorted
        rwa [← List.attach_map_subtype_val (descending l), List.pairwise_map] at this
      have hfirst : [(⟨y, hy'⟩ : {a // a ∈ descending l}), ⟨x, hx'⟩].Sublist
          (descending l).attach := by
        refine pair_sublist hattach (List.mem_attach _ _) (List.mem_attach _ _) ?_ ?_
        · simpa using hlt.ne'
        · simpa using hlt
      have hle : (fun a b : {a // a ∈ descending l} => decide (cmp a.val b.val ≤ 0))
          ⟨y, hy'⟩ ⟨x, hx'⟩ = true := decide_eq_true hcmp
      refine (List.pair_sublist_mergeSort ?_ ?_ hle hfirst).map Subtype.val
      · intro a b c hab hbc
        exact decide_eq_true (hd.trans a a.2 b b.2 c c.2 (of_decide_eq_true hab)
          (of_decide_eq_true hbc))
      · intro a b
        rw [Bool.or_eq_true, decide_eq_true_iff, decide_eq_true_iff]
        exact hd.total a.2 b.2
    · exact pair_sublist hsorted hy' hx' hlt.ne' (by simpa using hlt)
  intro hascending
  exact absurd (List.pairwise_iff_forall_sublist.mp hascending hpair) (not_le.mpr hlt)

/-! ## The comparator of the samples -/

/-- Any two different samples differ, modulo `2 ^ 32`, by less than `2 ^ 31` and not by zero,
    the larger one taken first. -/
def Comparable (l : List ℕ) : Prop :=
  ∀ x ∈ l, ∀ y ∈ l, x < y → 0 < (y - x) % 2 ^ 32 ∧ (y - x) % 2 ^ 32 < 2 ^ 31

theorem statsCompare_gt {x y : ℕ} (hlt : x < y) :
    statsCompare y x = int32 (y - x : ℕ) := by
  rw [statsCompare, sub64_of_le hlt.le]

theorem statsCompare_lt {x y : ℕ} (hlt : x < y) (hy : y < 2 ^ 64) :
    statsCompare x y = int32 (-(y - x : ℕ)) := by
  rw [statsCompare, sub64, if_neg (not_le.mpr hlt)]
  simp only [int32, Int.bmod_def]
  omega

theorem statsCompare_self (x : ℕ) : statsCompare x x = 0 := by
  rw [statsCompare, sub64_of_le le_rfl, Nat.sub_self]
  rfl

/-- On comparable samples the comparator has the sign of the order. -/
theorem Comparable.sign (hc : Comparable l) (hwords : ∀ x ∈ l, x < 2 ^ 64) {x y : ℕ}
    (hx : x ∈ l) (hy : y ∈ l) :
    (statsCompare x y < 0 ↔ x < y) ∧ (0 < statsCompare x y ↔ y < x) := by
  rcases lt_trichotomy x y with hlt | rfl | hgt
  · have hdiff := hc x hx y hy hlt
    rw [statsCompare_lt hlt (hwords y hy)]
    simp only [int32, Int.bmod_def]
    omega
  · simp [statsCompare_self]
  · have hdiff := hc y hy x hx hgt
    rw [statsCompare_gt hgt]
    simp only [int32, Int.bmod_def]
    omega

theorem Comparable.consistent (hc : Comparable l) (hwords : ∀ x ∈ l, x < 2 ^ 64) :
    Consistent statsCompare l := by
  constructor
  · intro x hx y hy
    rw [(hc.sign hwords hx hy).1, (hc.sign hwords hy hx).2]
  · intro x hx y hy z hz hxy hyz
    have hxy' := (hc.sign hwords hx hy).2
    have hyz' := (hc.sign hwords hy hz).2
    have hxz' := (hc.sign hwords hx hz).2
    omega

/-- Every correct sort leaves comparable samples in ascending order. -/
theorem Comparable.ascending (hc : Comparable l) (hwords : ∀ x ∈ l, x < 2 ^ 64)
    {qsort : (ℕ → ℕ → ℤ) → List ℕ → List ℕ} (hsorts : Sorts qsort) :
    (qsort statsCompare l).Perm l ∧ (qsort statsCompare l).Pairwise (· ≤ ·) := by
  obtain ⟨hperm, hsorted⟩ := hsorts statsCompare l (hc.consistent hwords)
  refine ⟨hperm, hsorted.imp_of_mem fun {x y} hx hy hxy => ?_⟩
  have hsign := (hc.sign hwords (hperm.mem_iff.mp hx) (hperm.mem_iff.mp hy)).2
  omega

/-- Only comparable samples are left in ascending order by the adverse sort. -/
theorem comparable_of_ascending (h : (adverseSort statsCompare l).Pairwise (· ≤ ·)) :
    Comparable l := by
  intro x hx y hy hlt
  by_contra hdiff
  have hcmp : statsCompare y x ≤ 0 := by
    rw [statsCompare_gt hlt]
    simp only [int32, Int.bmod_def]
    omega
  exact adverseSort_not_ascending hx hy hlt hcmp h

/-! ## Percentiles of sorted samples -/

/-- The rank is the share of the samples plus one, so that the index is the share itself. -/
theorem percentileIndex_eq {s : Stats} {p : ℚ} (hp : 0 < p) (hp100 : p ≤ 100)
    (hcap : s.limit < 2 ^ 64) : percentileIndex s p = ⌊p / 100 * s.limit⌋₊ := by
  have hshare : 0 ≤ p / 100 * s.limit := by positivity
  have hle : ⌊p / 100 * (s.limit : ℚ)⌋₊ ≤ s.limit := by
    refine Nat.floor_le_of_le ?_
    exact mul_le_of_le_one_left (by positivity) (by linarith)
  have hround : cRound (p / 100 * s.limit + 1 / 2) =
      ((⌊p / 100 * (s.limit : ℚ)⌋₊ + 1 : ℕ) : ℤ) := by
    have hhalf : p / 100 * (s.limit : ℚ) + 1 / 2 + 1 / 2 = p / 100 * s.limit + 1 := by ring
    rw [cRound, if_pos (by linarith), hhalf, Int.floor_add_one, Nat.cast_succ,
      Int.natCast_floor_eq_floor hshare]
  have hrank : uint64 ((⌊p / 100 * (s.limit : ℚ)⌋₊ + 1 : ℕ) : ℤ) =
      (⌊p / 100 * (s.limit : ℚ)⌋₊ + 1) % 2 ^ 64 := by
    simp only [uint64]
    omega
  -- the rank wraps only to zero, and subtracting one takes the wrap back
  simp only [percentileIndex, hround, hrank]
  generalize ⌊p / 100 * (s.limit : ℚ)⌋₊ = n at hle
  rw [sub64]
  split <;> omega

/-- The samples of a summarized object are the sorted ones. -/
theorem raw_statsSummarize {qsort : (ℕ → ℕ → ℤ) → List ℕ → List ℕ} {s : Stats}
    (hlength : (qsort statsCompare s.raw).length = s.limit) :
    (statsSummarize qsort s).raw = qsort statsCompare s.raw := by
  have hraw : (statsSummarize qsort s).raw = (List.range s.limit).map fun i =>
      if i < s.limit then (qsort statsCompare s.raw).getD i 0 else s.data i := rfl
  rw [hraw]
  generalize qsort statsCompare s.raw = sorted at hlength
  refine List.ext_getElem (by simp [hlength]) fun i _ hi => ?_
  simp [← hlength, hi]

/-- `stats_percentile` reads an order statistic of the samples that does not decrease, and the
    largest one at 100. -/
structure ReadsOrderStatistic (samples : List ℕ) (s : Stats) (p : ℚ) : Prop where
  index : percentileIndex s p < s.limit
  order : ∃ k, 0 < k ∧ k ≤ samples.length ∧ statsPercentile s p = some (kth samples k)
  mono : ∀ q, 0 < q → q ≤ p → ∃ v w, statsPercentile s q = some v ∧
    statsPercentile s p = some w ∧ v ≤ w
  top : p = 100 → ∃ w, statsPercentile s p = some w ∧ ∀ x ∈ samples, x ≤ w

/-- With every correct sort, the samples are summarized in ascending order and the percentile
    is then read rightly. -/
def RightPercentile (s : Stats) (p : ℚ) : Prop :=
  ∀ qsort, Sorts qsort →
    ((statsSummarize qsort s).raw.Perm s.raw ∧
      (statsSummarize qsort s).raw.Pairwise (· ≤ ·)) ∧
    ReadsOrderStatistic s.raw (statsSummarize qsort s) p

theorem statsPercentile_sorted {samples : List ℕ} {s : Stats} (hhist : s.histogram = none)
    (hperm : s.raw.Perm samples) (hsorted : s.raw.Pairwise (· ≤ ·)) {q : ℚ}
    (hindex : percentileIndex s q < s.limit) :
    statsPercentile s q = some (kth samples (percentileIndex s q + 1)) := by
  have heq : samples.insertionSort (· ≤ ·) = s.raw :=
    ((List.perm_insertionSort _ samples).trans hperm.symm).eq_of_pairwise
      (fun a b _ _ hab hba => le_antisymm hab hba) (List.pairwise_insertionSort _ samples) hsorted
  have hget : s.raw[percentileIndex s q]? = some (s.data (percentileIndex s q)) := by
    simp [Stats.raw, hindex]
  rw [statsPercentile, hhist, kth, heq, Nat.add_sub_cancel, hget, Option.getD_some]

/-- An index below the limit is a share of the samples short of all of them. -/
theorem percentileIndex_lt_iff {s : Stats} {p : ℚ} (hp : 0 < p) (hp100 : p ≤ 100)
    (hlimit : 1 ≤ s.limit) (hcap : s.limit < 2 ^ 64) : percentileIndex s p < s.limit ↔ p < 100 := by
  have hpos : (0 : ℚ) < s.limit := by exact_mod_cast hlimit
  have hshare : 0 ≤ p / 100 * s.limit := by positivity
  rw [percentileIndex_eq hp hp100 hcap, Nat.floor_lt hshare, mul_lt_iff_lt_one_left hpos,
    div_lt_one (by norm_num)]

theorem readsOrderStatistic_of_sorted {samples : List ℕ} {s : Stats}
    (hhist : s.histogram = none) (hperm : s.raw.Perm samples) (hsorted : s.raw.Pairwise (· ≤ ·))
    (hlimit : 1 ≤ s.limit) (hcap : s.limit < 2 ^ 64) {p : ℚ} (hp : 0 < p) (hp100 : p < 100) :
    ReadsOrderStatistic samples s p := by
  have hlength : samples.length = s.limit := by
    rw [← hperm.length_eq]
    simp [Stats.raw]
  have hindex : ∀ q, 0 < q → q ≤ p → percentileIndex s q < s.limit := fun q hq hqp =>
    (percentileIndex_lt_iff hq (hqp.trans hp100.le) hlimit hcap).mpr (hqp.trans_lt hp100)
  have hlast := hindex p hp le_rfl
  refine ⟨hlast, ⟨percentileIndex s p + 1, Nat.succ_pos _, by omega,
    statsPercentile_sorted hhist hperm hsorted hlast⟩, ?_, fun heq => absurd heq hp100.ne⟩
  intro q hq hqp
  refine ⟨_, _, statsPercentile_sorted hhist hperm hsorted (hindex q hq hqp),
    statsPercentile_sorted hhist hperm hsorted hlast, ?_⟩
  refine kth_mono (Nat.succ_pos _) (Nat.succ_le_succ ?_) (by omega)
  rw [percentileIndex_eq hq (hqp.trans hp100.le) hcap, percentileIndex_eq hp hp100.le hcap]
  gcongr

/-- Summarizing and reading a percentile of raw samples is right, whatever correct sort the C
    library has, if and only if the samples are comparable and the percentile is below 100. -/
theorem rawPercentile_iff {s : Stats} (hhist : s.histogram = none) (hlimit : 1 ≤ s.limit)
    (hcap : s.limit < 2 ^ 64) (hwords : ∀ x ∈ s.raw, x < 2 ^ 64) {p : ℚ} (hp : 0 < p)
    (hp100 : p ≤ 100) : RightPercentile s p ↔ Comparable s.raw ∧ p < 100 := by
  have hrawlength : s.raw.length = s.limit := by simp [Stats.raw]
  constructor
  · intro hright
    obtain ⟨⟨-, hsorted⟩, hreads⟩ := hright adverseSort adverseSort_sorts
    have hlength := (adverseSort_perm statsCompare s.raw).length_eq.trans hrawlength
    rw [raw_statsSummarize hlength] at hsorted
    exact ⟨comparable_of_ascending hsorted,
      (percentileIndex_lt_iff hp hp100 hlimit hcap).mp hreads.index⟩
  · rintro ⟨hc, hp'⟩ qsort hsorts
    obtain ⟨hperm, hsorted⟩ := hc.ascending hwords hsorts
    have hraw := raw_statsSummarize (hperm.length_eq.trans hrawlength)
    rw [← hraw] at hperm hsorted
    exact ⟨⟨hperm, hsorted⟩, readsOrderStatistic_of_sorted (s := statsSummarize qsort s) hhist
      hperm hsorted hlimit hcap hp hp'⟩

/-- Two samples and their median. -/
theorem rawPercentile_iff_two : RightPercentile (Example.rawStats [7, 3]) 50 := by
  have hraw : (Example.rawStats [7, 3]).raw = [7, 3] := by decide
  refine (rawPercentile_iff rfl (by decide) (by decide) ?_ (by norm_num) (by norm_num)).mpr ⟨?_, ?_⟩
  · rw [hraw]
    decide
  · rw [hraw, Comparable]
    decide
  · norm_num

/-- The last percentile that `print_stats_latency` prints is read past the samples, and a
    sample of `2 ^ 31` need not be sorted after one of `0`. -/
theorem rawPercentile_fails : percentileIndex (Example.rawStats [7, 3]) 100 = 2 ∧
    ¬ RightPercentile (Example.rawStats [7, 3]) 100 ∧
    ¬ RightPercentile (Example.rawStats [0, 2 ^ 31]) 50 := by
  have hraw : (Example.rawStats [7, 3]).raw = [7, 3] := by decide
  have hraw' : (Example.rawStats [0, 2 ^ 31]).raw = [0, 2 ^ 31] := by decide
  refine ⟨by decide +kernel, ?_, ?_⟩
  · intro hright
    have hindex := (hright adverseSort adverseSort_sorts).2.index
    rw [percentileIndex_lt_iff (by norm_num) le_rfl (by decide) (by decide)] at hindex
    exact absurd hindex (lt_irrefl _)
  · intro hright
    have hsorted := (hright adverseSort adverseSort_sorts).1.2
    rw [raw_statsSummarize (adverseSort_perm _ _).length_eq, hraw'] at hsorted
    have hc := comparable_of_ascending hsorted 0 (by simp) (2 ^ 31) (by simp) (by norm_num)
    norm_num at hc

end Wrkx
