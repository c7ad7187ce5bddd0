import Mathlib.Data.List.Infix
import Wrkx.Base.Run

/-!
# Histories

A history is the list of what happened, newest entry first. `Each P` says that every entry
stands in the relation `P` to what was older than it. A machine that only adds to its history
can be proved correct under a condition on the history as a whole: `preserves_under` hands
the condition to every act on the way.
-/

namespace History

variable {α : Type*} {P Q : α → List α → Prop} {h h' : List α}

/-- Every entry stands in the relation to the entries older than it. -/
def Each (P : α → List α → Prop) : List α → Prop
  | [] => True
  | a :: older => P a older ∧ Each P older

@[simp]
theorem each_nil : Each P [] := trivial

@[simp]
theorem each_cons {a : α} {older : List α} : Each P (a :: older) ↔ P a older ∧ Each P older :=
  Iff.rfl

instance decidableEach [∀ a older, Decidable (P a older)] : (h : List α) → Decidable (Each P h)
  | [] => .isTrue trivial
  | a :: older =>
    have : Decidable (Each P older) := decidableEach older
    inferInstanceAs (Decidable (P a older ∧ Each P older))

/-- What holds of every entry so far also held at every earlier time. -/
theorem Each.of_suffix (hsuffix : h <:+ h') (hh : Each P h') : Each P h := by
  obtain ⟨newer, rfl⟩ := hsuffix
  induction newer with
  | nil => exact hh
  | cons a newer ih => exact ih hh.2

theorem Each.append {noted : List α} (hh : Each P h) (hnoted : ∀ a ∈ noted, ∀ older, P a older) :
    Each P (noted ++ h) := by
  induction noted with
  | nil => exact hh
  | cons a noted ih =>
    exact ⟨hnoted a (by simp) _, ih fun b hb => hnoted b (by simp [hb])⟩

theorem Each.at_entry {a : α} {older : List α} (hsuffix : a :: older <:+ h) (hh : Each P h) :
    P a older :=
  (hh.of_suffix hsuffix).1

/-- The latest entry of a kind stays the latest when other entries are added. -/
theorem findSome?_append_of_none {β : Type*} {f : α → Option β} {noted : List α}
    (hnoted : ∀ a ∈ noted, f a = none) : (noted ++ h).findSome? f = h.findSome? f := by
  rw [List.findSome?_append, List.findSome?_eq_none_iff.mpr hnoted, Option.none_or]

/-- A condition that holds of every earlier history with a later one. -/
def Backward (C : List α → Prop) : Prop := ∀ ⦃h h'⦄, h <:+ h' → C h' → C h

theorem backward_each : Backward (Each P) := fun _ _ hsuffix hh => hh.of_suffix hsuffix

theorem backward_notMem {a : α} : Backward fun h => a ∉ h :=
  fun _ _ hsuffix hnot hmem => hnot (hsuffix.subset hmem)

theorem Backward.and {C D : List α → Prop} (hC : Backward C) (hD : Backward D) :
    Backward fun h => C h ∧ D h :=
  fun _ _ hsuffix hh => ⟨hC hsuffix hh.1, hD hsuffix hh.2⟩

section Acts

variable {σ : Type*} {act : σ → σ → Prop} {past : σ → List α} {C : List α → Prop} {I : σ → Prop}
  {s s' : σ}

/-- What every act preserves under a condition on the history so far holds after every chain
    of acts whose history meets the condition in the end. -/
theorem preserves_under (hgrow : ∀ s s', act s s' → past s <:+ past s') (hC : Backward C)
    (hact : ∀ s s', act s s' → C (past s') → I s → I s')
    (h : Relation.ReflTransGen act s s') (hc : C (past s')) (hs : I s) : I s' :=
  Run.preserves_under (fun _ _ h => hC (hgrow _ _ h)) hact h hc hs

end Acts

end History
