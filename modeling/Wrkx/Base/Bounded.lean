import Mathlib.Data.Nat.Notation

/-!
# Writes inside bounds

A block of memory is a list, and a write outside of it has no result. A copy writes one element
after another, and has a result when all of them lie inside.
-/

namespace Bounded

variable {α : Type*} {mem data : List α} {i : ℕ} {x : α}

/-- A write of one element; `none` when it lies outside the block. -/
def write (mem : List α) (i : ℕ) (x : α) : Option (List α) :=
  if i < mem.length then some (mem.set i x) else none

/-- A copy to the elements from `i` on. -/
def copy : List α → ℕ → List α → Option (List α)
  | [], _, mem => some mem
  | x :: data, i, mem => (write mem i x).bind (copy data (i + 1))

theorem write_eq_some (h : i < mem.length) : write mem i x = some (mem.set i x) := by
  rw [write, if_pos h]

/-- A copy that lies inside the block replaces what was there. -/
theorem copy_eq_some (h : i + data.length ≤ mem.length) :
    copy data i mem = some (mem.take i ++ data ++ mem.drop (i + data.length)) := by
  induction data generalizing i mem with
  | nil => simp [copy]
  | cons x data ih =>
    rw [List.length_cons] at h
    have hi : i < mem.length := by omega
    have hrest : i + 1 + data.length ≤ (mem.set i x).length := by
      rw [List.length_set]
      omega
    have htake : (mem.set i x).take (i + 1) = mem.take i ++ [x] := by
      rw [List.take_succ_eq_append_getElem (by simpa using hi), List.take_set_of_le (Nat.le_refl i),
        List.getElem_set_self]
    have hdrop : (mem.set i x).drop (i + 1 + data.length) = mem.drop (i + 1 + data.length) :=
      List.drop_set_of_lt (by omega)
    rw [copy, write_eq_some hi, Option.bind_some, ih hrest, htake, hdrop, List.length_cons,
      Nat.add_right_comm, List.append_assoc, List.append_assoc, List.append_assoc,
      List.singleton_append, List.cons_append, Nat.add_assoc i]

end Bounded
