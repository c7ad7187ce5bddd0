import Mathlib.Data.Multiset.ZeroCons
import Mathlib.Data.Nat.ModEq

/-!
# Ring buffers

A ring of `n` slots is written slot after slot, and from the first slot again once it is full.
The values written are listed with the newest first. Each of the last `n` of them is still in
its slot, and the next write goes to the slot of the oldest one.

## Main results

- `Holds.push` — a write leaves the last values in their slots
- `Holds.oldest` — the slot that is written next holds the oldest of the last `n` values
- `set_perm_iff` — when a write into a full ring takes the place of a given value
-/

namespace Ring

variable {α : Type*} {n : ℕ} {slot : ℕ → α} {values : List α} {x : α}

/-- The position after `index`. -/
def next (n index : ℕ) : ℕ := if index + 1 = n then 0 else index + 1

/-- Each of the last `n` values is in the slot it was written to. -/
def Holds (n : ℕ) (slot : ℕ → α) (values : List α) : Prop :=
  ∀ age < n, ∀ v ∈ values[age]?, slot ((values.length - 1 - age) % n) = v

theorem next_mod (hn : 0 < n) (written : ℕ) : next n (written % n) = (written + 1) % n := by
  have hlt : written % n < n := Nat.mod_lt _ hn
  rw [next, ← Nat.mod_add_mod]
  split_ifs with hwrap
  · rw [hwrap, Nat.mod_self]
  · exact (Nat.mod_eq_of_lt (by omega)).symm

/-- Fewer than `n` writes apart, two writes go to different slots. -/
theorem mod_ne_mod {a b : ℕ} (hlt : a < b) (hnear : b < a + n) : a % n ≠ b % n := by
  intro heq
  have hdvd : n ∣ b - a := (Nat.modEq_iff_dvd' hlt.le).mp heq
  have hle := Nat.le_of_dvd (by omega) hdvd
  omega

theorem Holds.nil : Holds n slot [] := by
  intro age _ v hv
  simp at hv

/-- A write into the slot that comes next. -/
theorem Holds.push (h : Holds n slot values) (x : α) :
    Holds n (Function.update slot (values.length % n) x) (x :: values) := by
  intro age hage v hv
  cases age with
  | zero =>
    obtain rfl : x = v := by simpa using hv
    simp
  | succ age =>
    have hvalue : v ∈ values[age]? := by simpa using hv
    have hlt : age < values.length := (List.getElem?_eq_some_iff.mp hvalue).1
    have hslot : (x :: values).length - 1 - (age + 1) = values.length - 1 - age := by
      rw [List.length_cons]
      omega
    have hne : (values.length - 1 - age) % n ≠ values.length % n :=
      mod_ne_mod (by omega) (by omega)
    rw [hslot, Function.update_of_ne hne]
    exact h age (by omega) v hvalue

/-- The ring is about to write over the oldest of the last `n` values. -/
theorem Holds.oldest (h : Holds n slot values) (hn : 0 < n) (hfull : n ≤ values.length) :
    values[n - 1]? = some (slot (values.length % n)) := by
  have hlt : n - 1 < values.length := by omega
  have hvalue : values[n - 1]? = some values[n - 1] := List.getElem?_eq_getElem hlt
  have hslot : (values.length - 1 - (n - 1)) % n = values.length % n := by
    rw [Nat.mod_eq_sub_mod hfull, show values.length - 1 - (n - 1) = values.length - n by omega]
  rw [hvalue, ← h (n - 1) (by omega) _ hvalue, hslot]

/-! ## The slots as a list -/

/-- A write behind the slots in use. -/
theorem map_update_succ (slot : ℕ → α) (k : ℕ) (x : α) :
    (List.range (k + 1)).map (Function.update slot k x) = (List.range k).map slot ++ [x] := by
  rw [List.range_succ, List.map_append, List.map_singleton, Function.update_self]
  congr 1
  refine List.map_congr_left fun i hi => Function.update_of_ne ?_ _ _
  exact (List.mem_range.mp hi).ne

/-- A write into one of the slots in use. -/
theorem map_update_of_lt (slot : ℕ → α) (k i : ℕ) (x : α) :
    (List.range k).map (Function.update slot i x) = ((List.range k).map slot).set i x := by
  refine List.ext_getElem (by simp) fun j hj hj' => ?_
  rw [List.getElem_set]
  by_cases hij : i = j
  · simp [hij]
  · simp [hij, Function.update_of_ne (Ne.symm hij)]

/-- A write into a list puts the new value in the place of a given one if and only if that value
    is what it writes over. -/
theorem set_perm_iff {l rest : List α} {old : α} {i : ℕ} (hperm : l.Perm (old :: rest))
    (hi : i < l.length) : (l.set i x).Perm (x :: rest) ↔ l[i] = old := by
  have hset : (l.set i x).Perm (x :: l.eraseIdx i) := List.set_perm_cons_eraseIdx hi x
  have herase : (l[i] :: l.eraseIdx i).Perm (old :: rest) :=
    (List.getElem_cons_eraseIdx_perm hi).trans hperm
  constructor
  · intro hnew
    have hrest : (l.eraseIdx i).Perm rest := (hset.symm.trans hnew).cons_inv
    have hsame : (l[i] :: rest).Perm (old :: rest) := (hrest.symm.cons _).trans herase
    exact (Multiset.cons_inj_left (rest : Multiset α)).mp (Multiset.coe_eq_coe.mpr hsame)
  · intro hold
    rw [hold] at herase
    exact hset.trans (herase.cons_inv.cons x)

end Ring
