import Mathlib.Data.List.Basic

/-!
# Terminated strings

Strings written one after another into one text, each ended by a terminator that none of them
contains. `Holds sep ss text` says that the text holds the strings `ss`, of which the last is
still open: it has no terminator yet and can be extended.

## Main results

- `Holds.close`, `Holds.next`, `Holds.extend` — how a text grows
- `takeWhile_terminated` — how its first string is read back
-/

namespace Separated

variable {α : Type*} {sep : α} {ss : List (List α)} {s piece text : List α}

/-- The strings, each with its terminator. -/
def terminated (sep : α) (ss : List (List α)) : List α := ss.flatMap (· ++ [sep])

@[simp]
theorem terminated_nil : terminated sep [] = [] := rfl

@[simp]
theorem terminated_cons : terminated sep (s :: ss) = s ++ sep :: terminated sep ss := by
  simp [terminated]

@[simp]
theorem terminated_append {ss' : List (List α)} :
    terminated sep (ss ++ ss') = terminated sep ss ++ terminated sep ss' := by
  simp [terminated]

theorem length_le_length_terminated : ss.length ≤ (terminated sep ss).length := by
  induction ss with
  | nil => exact Nat.le_refl _
  | cons s ss ih =>
    simp only [terminated_cons, List.length_cons, List.length_append]
    omega

/-- The text holds the strings, the last of them open. -/
inductive Holds (sep : α) : List (List α) → List α → Prop
  | none : Holds sep [] []
  | last (ss : List (List α)) (s : List α) : Holds sep (ss ++ [s]) (terminated sep ss ++ s)

theorem Holds.eq_nil (h : Holds sep [] text) : text = [] := by
  generalize hss : ([] : List (List α)) = ss at h
  cases h with
  | none => rfl
  | last ss s => simp at hss

/-- A terminator ends the last string. -/
theorem Holds.close (h : Holds sep ss text) (hne : ss ≠ []) :
    text ++ [sep] = terminated sep ss := by
  cases h with
  | none => exact absurd rfl hne
  | last ss s => simp

theorem Holds.first : Holds sep [piece] piece := .last [] piece

/-- A new string begins after the terminator of the last one. -/
theorem Holds.next (h : Holds sep ss text) (hne : ss ≠ []) :
    Holds sep (ss ++ [piece]) (text ++ [sep] ++ piece) := by
  rw [h.close hne]
  exact .last ss piece

/-- The last string goes on. -/
theorem Holds.extend (h : Holds sep (ss ++ [s]) text) :
    Holds sep (ss ++ [s ++ piece]) (text ++ piece) := by
  generalize hss : ss ++ [s] = ss' at h
  cases h with
  | none => simp at hss
  | last ss' s' =>
    obtain ⟨rfl, hs⟩ := List.append_inj' hss rfl
    obtain rfl := List.singleton_inj.mp hs
    rw [List.append_assoc]
    exact .last ss (s ++ piece)

/-- The first string is read up to the terminator. -/
theorem takeWhile_terminated [DecidableEq α] (hs : sep ∉ s) (rest : List α) :
    (s ++ sep :: rest).takeWhile (· ≠ sep) = s := by
  induction s with
  | nil => simp
  | cons a s ih =>
    have ha : a ≠ sep := fun h => hs (h ▸ List.mem_cons_self)
    rw [List.cons_append, List.takeWhile_cons_of_pos (by simpa using ha),
      ih fun h => hs (List.mem_cons_of_mem _ h)]

end Separated
