import Mathlib.Logic.Function.Basic
import Mathlib.Data.List.Basic

variable {α : Type}

def Linked (next : α → Option α) : Option α → List α → Prop
  | p, [] => p = none
  | p, a :: rest => p = some a ∧ Linked next (next a) rest

namespace Linked

variable {next next' : α → Option α} {p : Option α} {xs ys : List α} {a b : α}

theorem congr (h : Linked next p xs) (hsame : ∀ a ∈ xs, next' a = next a) : Linked next' p xs := by
  induction xs generalizing p with
  | nil => exact h
  | cons a xs ih =>
    obtain ⟨hp, hrest⟩ := h
    refine ⟨hp, ?_⟩
    rw [hsame a List.mem_cons_self]
    exact ih hrest fun b hb => hsame b (List.mem_cons_of_mem _ hb)

/-- A list has one sequence of nodes. -/
theorem unique (h : Linked next p xs) (h' : Linked next p ys) : xs = ys := by
  induction xs generalizing p ys with
  | nil =>
    cases ys with
    | nil => rfl
    | cons b ys => cases h.symm.trans h'.1
  | cons a xs ih =>
    cases ys with
    | nil => cases h.1.symm.trans h'
    | cons b ys =>
      obtain ⟨hp, hrest⟩ := h
      obtain ⟨hp', hrest'⟩ := h'
      rw [hp] at hp'
      cases hp'
      rw [ih hrest hrest']

/-- Hang a node behind the last one. -/
theorem concat [DecidableEq α] (h : Linked next p (xs ++ [a])) (hnodup : (xs ++ [a]).Nodup)
    (hb : b ∉ xs ++ [a]) (hend : next b = none) :
    Linked (Function.update next a (some b)) p (xs ++ [a, b]) := by
  induction xs generalizing p with
  | nil =>
    obtain ⟨hp, -⟩ := h
    have hne : b ≠ a := by
      rintro rfl
      exact hb (by simp)
    refine ⟨hp, ?_, ?_⟩
    · rw [Function.update_self]
    · show Function.update next a (some b) b = none
      rw [Function.update_of_ne hne]
      exact hend
  | cons c xs ih =>
    obtain ⟨hp, hrest⟩ := h
    have hne : c ≠ a := by
      rintro rfl
      rw [List.cons_append] at hnodup
      exact (List.nodup_cons.1 hnodup).1 (List.mem_append_right _ List.mem_cons_self)
    refine ⟨hp, ?_⟩
    rw [Function.update_of_ne hne]
    exact ih hrest (List.nodup_cons.1 hnodup).2 fun hmem => hb (List.mem_cons_of_mem _ hmem)

end Linked
