import Mathlib.Data.List.Infix

/-!
# Blocks sent piece by piece

A sender puts blocks on a stream, one after another and each in pieces of any size. `Emitted
blocks b k s` says that the stream `s` holds the blocks begun so far, the last of them, `b`, up
to its first `k` elements; `k = 0` stands between two blocks.

## Main results

- `Emitted.emit` — a piece that continues the block keeps the stream in step
- `Emitted.prefix_flatten` — such a stream is a prefix of its blocks
-/

namespace Blocks

variable {α : Type*} {blocks : List (List α)} {b piece s : List α} {k : ℕ}

/-- The stream holds whole blocks, and after them a proper part of the block `b` if `k ≠ 0`. -/
inductive Emitted : List (List α) → List α → ℕ → List α → Prop
  | whole (blocks : List (List α)) (b : List α) : Emitted blocks b 0 blocks.flatten
  | partly (blocks : List (List α)) (b : List α) (k : ℕ) (hpos : 0 < k) (hlt : k < b.length) :
      Emitted (blocks ++ [b]) b k (blocks.flatten ++ b.take k)

/-- Between two blocks any block may come next. -/
theorem Emitted.switch (h : Emitted blocks b 0 s) (b' : List α) : Emitted blocks b' 0 s := by
  cases h with
  | whole => exact .whole blocks b'
  | partly blocks _ _ hpos => exact absurd hpos (lt_irrefl 0)

theorem Emitted.nil (b : List α) : Emitted [] b 0 [] := .whole [] b

/-- A block that is under way is not whole yet. -/
theorem Emitted.lt_length (h : Emitted blocks b k s) (hk : k ≠ 0) : k < b.length := by
  cases h with
  | whole => exact absurd rfl hk
  | partly blocks _ _ hpos hlt => exact hlt

theorem Emitted.prefix_flatten (h : Emitted blocks b k s) : s <+: blocks.flatten := by
  cases h with
  | whole => exact List.prefix_refl _
  | partly blocks _ _ hpos hlt =>
    rw [List.flatten_append, List.flatten_singleton]
    exact (List.prefix_append_right_inj _).mpr (List.take_prefix k b)

/-- A piece of the block that is sent from where the last one stopped. -/
theorem Emitted.emit (h : Emitted blocks b k s) (hpiece : piece <+: b.drop k)
    (hne : piece ≠ []) :
    Emitted (if k = 0 then blocks ++ [b] else blocks) b
      (if k + piece.length = b.length then 0 else k + piece.length) (s ++ piece) := by
  obtain ⟨rest, hrest⟩ := hpiece
  have htake : b.take (k + piece.length) = b.take k ++ piece := by
    rw [List.take_add, ← hrest, List.take_left]
  have hlength : (b.drop k).length = piece.length + rest.length := by
    rw [← hrest, List.length_append]
  have hpos := List.length_pos_of_ne_nil hne
  rw [List.length_drop] at hlength
  -- Both a block that begins and one that goes on stop inside the block or at its end.
  have hsend : ∀ blocks : List (List α), Emitted (blocks ++ [b]) b
      (if k + piece.length = b.length then 0 else k + piece.length)
      (blocks.flatten ++ b.take (k + piece.length)) := by
    intro blocks
    split_ifs with hdone
    · rw [hdone, List.take_length]
      simpa using Emitted.whole (blocks ++ [b]) b
    · exact .partly blocks b _ (by omega) (by omega)
  cases h with
  | whole =>
    have := hsend blocks
    rwa [htake, List.take_zero, List.nil_append] at this
  | partly blocks _ _ hstarted hlt =>
    rw [if_neg hstarted.ne', List.append_assoc, ← htake]
    exact hsend blocks

end Blocks
