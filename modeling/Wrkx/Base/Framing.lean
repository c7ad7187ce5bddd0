import Mathlib.Data.List.Infix
import Mathlib.Tactic.Common

/-!
# Message framing

A framing finds the end of the first message of a stream. What it has found does not change
when the stream grows, so that the whole messages of a stream can be counted while it
arrives: a part of `k` whole messages adds `k` to the count, and a proper prefix of it less.

## Main results

- `count_append` — the count after a part of `k` whole messages
- `count_lt` — a proper prefix of `k` whole messages has less than `k` of them
-/

/-- How long the first message of a stream is, once it is whole. -/
structure Framing (α : Type*) where
  cut : List α → Option ℕ
  pos : ∀ {s n}, cut s = some n → 0 < n
  le_length : ∀ {s n}, cut s = some n → n ≤ s.length
  stable : ∀ {s n}, cut s = some n → ∀ t, cut (s ++ t) = some n

namespace Framing

variable {α : Type*} (F : Framing α) {k m n : ℕ} {p s t : List α}

/-- The whole messages of a stream, at most as many as the first argument. -/
def countUpTo : ℕ → List α → ℕ
  | 0, _ => 0
  | fuel + 1, s =>
    match F.cut s with
    | none => 0
    | some n => countUpTo fuel (s.drop n) + 1

/-- The whole messages of a stream. -/
def count (s : List α) : ℕ := F.countUpTo s.length s

/-- The stream is made of `k` whole messages. -/
def Exactly : ℕ → List α → Prop
  | 0, s => s = []
  | k + 1, s => ∃ n, F.cut s = some n ∧ Exactly k (s.drop n)

instance decidableExactly [DecidableEq α] : (k : ℕ) → (s : List α) → Decidable (F.Exactly k s)
  | 0, s => inferInstanceAs (Decidable (s = []))
  | k + 1, s =>
    match h : F.cut s with
    | none => .isFalse fun ⟨n, hn, _⟩ => by simp [h] at hn
    | some n =>
      have : Decidable (F.Exactly k (s.drop n)) := decidableExactly k (s.drop n)
      decidable_of_iff (F.Exactly k (s.drop n))
        ⟨fun hs => ⟨n, h, hs⟩, fun ⟨_, hn, hs⟩ => Option.some.inj (h.symm.trans hn) ▸ hs⟩

variable {F}

theorem cut_nil : F.cut [] = none := by
  cases h : F.cut [] with
  | none => rfl
  | some n =>
    have hpos := F.pos h
    have hle := F.le_length h
    simp at hle
    omega

/-- Beyond the length of the stream the bound on the count does not matter. -/
theorem countUpTo_eq (hm : s.length ≤ m) : F.countUpTo m s = F.count s := by
  suffices ∀ m n (s : List α), s.length ≤ m → s.length ≤ n →
      F.countUpTo m s = F.countUpTo n s from this m s.length s hm le_rfl
  intro m
  induction m with
  | zero =>
    intro n s hm hn
    obtain rfl := List.eq_nil_of_length_eq_zero (Nat.le_zero.mp hm)
    cases n with
    | zero => rfl
    | succ n => rw [countUpTo, countUpTo, cut_nil]
  | succ m ih =>
    intro n s hm hn
    cases n with
    | zero =>
      obtain rfl := List.eq_nil_of_length_eq_zero (Nat.le_zero.mp hn)
      rw [countUpTo, countUpTo, cut_nil]
    | succ n =>
      cases hcut : F.cut s with
      | none => simp only [countUpTo, hcut]
      | some k =>
        have hpos := F.pos hcut
        simp only [countUpTo, hcut]
        rw [ih n (s.drop k)] <;> rw [List.length_drop] <;> omega

theorem count_of_cut (h : F.cut s = some n) : F.count s = F.count (s.drop n) + 1 := by
  have hpos := F.pos h
  have hle := F.le_length h
  have hlength : s.length = (s.length - 1) + 1 := by omega
  rw [count, hlength, countUpTo]
  simp only [h]
  rw [countUpTo_eq]
  rw [List.length_drop]
  omega

theorem count_of_cut_none (h : F.cut s = none) : F.count s = 0 := by
  rw [count]
  cases s.length with
  | zero => rfl
  | succ m => simp only [countUpTo, h]

@[simp]
theorem count_nil : F.count [] = 0 := rfl

theorem exactly_nil : F.Exactly 0 [] := rfl

/-- Whole messages after whole messages. -/
theorem Exactly.append (hs : F.Exactly m s) (ht : F.Exactly n t) : F.Exactly (m + n) (s ++ t) := by
  induction m generalizing s with
  | zero =>
    obtain rfl : s = [] := hs
    rwa [Nat.zero_add]
  | succ m ih =>
    obtain ⟨k, hcut, hrest⟩ := hs
    rw [Nat.succ_add]
    refine ⟨k, F.stable hcut t, ?_⟩
    rw [List.drop_append_of_le_length (F.le_length hcut)]
    exact ih hrest

/-- The count after a part of `k` whole messages. -/
theorem Exactly.count_append (hs : F.Exactly k s) (t : List α) :
    F.count (s ++ t) = k + F.count t := by
  induction k generalizing s with
  | zero =>
    obtain rfl : s = [] := hs
    rw [List.nil_append, Nat.zero_add]
  | succ k ih =>
    obtain ⟨n, hcut, hrest⟩ := hs
    rw [count_of_cut (F.stable hcut t), List.drop_append_of_le_length (F.le_length hcut), ih hrest]
    omega

theorem Exactly.count_eq (hs : F.Exactly k s) : F.count s = k := by
  simpa using hs.count_append []

/-- A proper prefix of `k` whole messages has less than `k` of them. -/
theorem Exactly.count_lt (hs : F.Exactly k s) (hp : p <+: s) (hne : p ≠ s) : F.count p < k := by
  induction k generalizing s p with
  | zero =>
    obtain rfl : s = [] := hs
    exact absurd (List.prefix_nil.mp hp) hne
  | succ k ih =>
    obtain ⟨n, hcut, hrest⟩ := hs
    obtain ⟨t, rfl⟩ := hp
    cases hfirst : F.cut p with
    | none =>
      rw [count_of_cut_none hfirst]
      exact Nat.succ_pos k
    | some n' =>
      obtain rfl : n' = n := Option.some.inj ((F.stable hfirst t).symm.trans hcut)
      rw [List.drop_append_of_le_length (F.le_length hfirst)] at hrest
      rw [count_of_cut hfirst]
      refine Nat.succ_lt_succ (ih hrest (List.prefix_append _ t) fun heq => hne ?_)
      obtain rfl : t = [] := by simpa using heq
      rw [List.append_nil]

end Framing
