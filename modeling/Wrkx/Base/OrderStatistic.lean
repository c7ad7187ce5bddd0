import Mathlib.Data.List.Sort
import Mathlib.Tactic.NormNum

/-!
# Order statistics

The `k`-th smallest element of a list, counted from one, with ties counted as often as they
occur. A downward closed property holds of it exactly when at least `k` elements of the list
have the property.

## Main results

- `le_countP_iff` — the `k`-th smallest element against the number of elements below it
- `kth_mono` — a later order statistic is not smaller
-/

namespace OrderStatistic

variable {α : Type*} [LinearOrder α]

/-- The `k`-th smallest element of a list, for `k` from `1` to its length. -/
def kth [Inhabited α] (values : List α) (k : ℕ) : α :=
  ((values.insertionSort (· ≤ ·))[k - 1]?).getD default

/-- In a sorted list the elements with a downward closed property come first. -/
theorem lt_countP_iff_of_sorted {sorted : List α} (hsorted : sorted.Pairwise (· ≤ ·))
    {p : α → Bool} (hp : ∀ a b, a ≤ b → p b → p a) {i : ℕ} (hi : i < sorted.length) :
    i < sorted.countP p ↔ p sorted[i] := by
  induction sorted generalizing i with
  | nil => simp at hi
  | cons a rest ih =>
    obtain ⟨hle, hrest⟩ := List.pairwise_cons.mp hsorted
    by_cases ha : p a
    · rw [List.countP_cons_of_pos ha]
      cases i with
      | zero => simp [ha]
      | succ i =>
        rw [Nat.succ_lt_succ_iff, List.getElem_cons_succ]
        exact ih hrest (by simpa using hi)
    · -- no element from `a` on has the property
      have hnone : ∀ b ∈ a :: rest, ¬ p b := by
        intro b hb hpb
        rcases List.mem_cons.mp hb with rfl | hb
        · exact ha hpb
        · exact ha (hp a b (hle b hb) hpb)
      have hcount : (a :: rest).countP p = 0 := List.countP_eq_zero.mpr hnone
      rw [hcount]
      constructor
      · intro h
        omega
      · intro h
        exact absurd h (hnone _ (List.getElem_mem hi))

variable {values : List α} {k : ℕ}

theorem pred_lt_length_insertionSort (hk : 0 < k) (hlength : k ≤ values.length) :
    k - 1 < (values.insertionSort (· ≤ ·)).length := by
  rw [List.length_insertionSort]
  omega

variable [Inhabited α]

theorem kth_eq_getElem (hk : k - 1 < (values.insertionSort (· ≤ ·)).length) :
    kth values k = (values.insertionSort (· ≤ ·))[k - 1] := by
  rw [kth, List.getElem?_eq_getElem hk, Option.getD_some]

/-- At least `k` elements have a downward closed property when the `k`-th smallest has it. -/
theorem le_countP_iff (hk : 0 < k) (hlength : k ≤ values.length) {p : α → Bool}
    (hp : ∀ a b, a ≤ b → p b → p a) : k ≤ values.countP p ↔ p (kth values k) := by
  have hi := pred_lt_length_insertionSort hk hlength
  have hsorted := List.pairwise_insertionSort (· ≤ ·) values
  have hperm := (List.perm_insertionSort (· ≤ ·) values).countP_eq p
  rw [kth_eq_getElem hi, ← lt_countP_iff_of_sorted hsorted hp hi, hperm]
  omega

theorem kth_mem (hk : 0 < k) (hlength : k ≤ values.length) :
    kth values k ∈ values := by
  have hi := pred_lt_length_insertionSort hk hlength
  rw [kth_eq_getElem hi]
  exact (List.mem_insertionSort (· ≤ ·)).mp (List.getElem_mem hi)

/-- Every element is an order statistic. -/
theorem exists_kth {v : α} (hv : v ∈ values) :
    ∃ k, 0 < k ∧ k ≤ values.length ∧ kth values k = v := by
  obtain ⟨i, hi, hget⟩ := List.mem_iff_getElem.mp ((List.mem_insertionSort (· ≤ ·)).mpr hv)
  refine ⟨i + 1, Nat.succ_pos i, ?_, ?_⟩
  · rw [List.length_insertionSort] at hi
    exact hi
  · rw [kth_eq_getElem (by simpa using hi)]
    exact hget

theorem le_countP_le_iff (hk : 0 < k) (hlength : k ≤ values.length) {x : α} :
    k ≤ values.countP (· ≤ x) ↔ kth values k ≤ x := by
  rw [le_countP_iff hk hlength fun a b hab hb => by simpa using hab.trans (by simpa using hb)]
  simp

theorem kth_mono {j : ℕ} (hj : 0 < j) (hjk : j ≤ k) (hlength : k ≤ values.length) :
    kth values j ≤ kth values k := by
  have hcount := (le_countP_le_iff (hj.trans_le hjk) hlength).mpr (le_refl (kth values k))
  exact (le_countP_le_iff hj (hjk.trans hlength)).mp (hjk.trans hcount)

end OrderStatistic
