import Mathlib.Logic.Basic
import Mathlib.Tactic.SplitIfs

namespace While

variable {σ ε : Type} (guard : σ → Bool) (body : σ → Except ε σ)

def run : Nat → σ → Option (Except ε σ)
  | 0, _ => none
  | fuel + 1, s =>
    if guard s then
      match body s with
      | .ok s' => run fuel s'
      | .error e => some (.error e)
    else some (.ok s)

inductive Heads (s₀ : σ) : σ → Prop
  | start : Heads s₀ s₀
  | round {s s' : σ} : Heads s₀ s → guard s = true → body s = .ok s' → Heads s₀ s'

variable {guard body} {I : σ → Prop} {E : ε → Prop} {s₀ s : σ}

/-- What a round does: it keeps `I` and takes the measure `μ` down, or stops with an `E`. -/
inductive Round (I : σ → Prop) (μ : σ → Nat) (E : ε → Prop) (s : σ) : Except ε σ → Prop
  | ok {s' : σ} : I s' → μ s' < μ s → Round I μ E s (.ok s')
  | error {e : ε} : E e → Round I μ E s (.error e)

variable {μ : σ → Nat}

theorem Heads.invariant (hround : ∀ s, I s → guard s = true → Round I μ E s (body s)) (hI : I s₀)
    (h : Heads guard body s₀ s) : I s := by
  induction h with
  | start => exact hI
  | @round s s' _ hguard hbody ih =>
    have hs := hround s ih hguard
    rw [hbody] at hs
    cases hs with
    | ok h _ => exact h

/-- With fuel for the measure the loop ends: where its guard fails, or in a round that stops. -/
theorem run_total (hround : ∀ s, I s → guard s = true → Round I μ E s (body s)) (hI : I s)
    {fuel : Nat} (hfuel : μ s < fuel) :
    (∃ s', run guard body fuel s = some (.ok s') ∧ I s' ∧ guard s' = false) ∨
      ∃ e, run guard body fuel s = some (.error e) ∧ E e := by
  induction fuel generalizing s with
  | zero => exact absurd hfuel (Nat.not_lt_zero _)
  | succ fuel ih =>
    unfold run
    by_cases hguard : guard s = true
    · have hs := hround s hI hguard
      rw [if_pos hguard]
      cases hbody : body s with
      | ok s' =>
        rw [hbody] at hs
        cases hs with
        | ok hI' hlt => exact ih hI' (by omega)
      | error e =>
        rw [hbody] at hs
        cases hs with
        | error hE => exact Or.inr ⟨e, rfl, hE⟩
    · rw [if_neg hguard]
      exact Or.inl ⟨s, rfl, hI, by simpa using hguard⟩

end While
