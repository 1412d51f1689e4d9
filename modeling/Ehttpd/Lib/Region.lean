import Mathlib.Data.List.Pairwise
import Mathlib.Order.CompletePartialOrder
import Mathlib.Order.Interval.Set.Disjoint

structure Region where
  start : Nat
  len : Nat
  deriving DecidableEq, Repr

namespace Region

def stop (r : Region) : Nat := r.start + r.len

def addresses (r : Region) : Set Nat := Set.Ico r.start r.stop

def Apart (r s : Region) : Prop :=
  r.len = 0 ∨ s.len = 0 ∨ r.stop ≤ s.start ∨ s.stop ≤ r.start

instance (r s : Region) : Decidable (r.Apart s) := by unfold Apart; infer_instance

def Inside (r s : Region) : Prop := s.start ≤ r.start ∧ r.stop ≤ s.stop

variable {r r' s s' : Region}

theorem apart_iff_disjoint : r.Apart s ↔ Disjoint r.addresses s.addresses := by
  unfold addresses
  rw [Set.Ico_disjoint_Ico]
  unfold Apart stop
  omega

theorem Inside.subset (h : r.Inside s) : r.addresses ⊆ s.addresses := by
  intro a ha
  have hstart := ha.1
  have hstop := ha.2
  exact ⟨h.1.trans hstart, hstop.trans_le h.2⟩

theorem Apart.symm (h : r.Apart s) : s.Apart r := by
  unfold Apart at *
  omega

theorem inside_refl (r : Region) : r.Inside r := ⟨Nat.le_refl _, Nat.le_refl _⟩

theorem Apart.inside (h : r.Apart s) (hr : r'.Inside r) (hs : s'.Inside s) : r'.Apart s' := by
  unfold Apart Inside stop at *
  omega

instance : Std.Symm Apart := ⟨fun _ _ h => h.symm⟩

theorem apart_of_mem {rs : List Region} (h : rs.Pairwise Apart) (hr : r ∈ rs) (hs : s ∈ rs)
    (hne : r ≠ s) : r.Apart s := h.forall hr hs hne

end Region
