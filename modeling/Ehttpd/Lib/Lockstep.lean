import Ehttpd.Lib.Program

namespace Program

variable {ε σ α β γ δ : Type}

/-- Two outcomes of one kind, with results related by `V` and states by `R`. -/
def Outcomes (R : σ → σ → Prop) (V : α → β → Prop) :
    EStateM.Result ε σ α → EStateM.Result ε σ β → Prop
  | .ok a s, .ok b t => V a b ∧ R s t
  | .error e s, .error e' t => e = e' ∧ R s t
  | .ok _ _, .error _ _ => False
  | .error _ _, .ok _ _ => False

def Agree (R : σ → σ → Prop) (V : α → β → Prop) (x : EStateM ε σ α) (y : EStateM ε σ β)
    (s t : σ) : Prop := Outcomes R V (x s) (y t)

/-- Started in any related states, the programs run in lockstep with equal results. -/
def Lockstep (R : σ → σ → Prop) (x y : EStateM ε σ α) : Prop :=
  ∀ s t, R s t → Agree R Eq x y s t

variable {R : σ → σ → Prop} {V : α → β → Prop}

theorem agree_bind {W : γ → δ → Prop} {x : EStateM ε σ α} {y : EStateM ε σ β}
    {k : α → EStateM ε σ γ} {l : β → EStateM ε σ δ} {s t : σ} (hx : Agree R V x y s t)
    (hk : ∀ a b s' t', V a b → R s' t' → Agree R W (k a) (l b) s' t') :
    Agree R W (x >>= k) (y >>= l) s t := by
  show Outcomes R W (EStateM.bind x k s) (EStateM.bind y l t)
  unfold Agree Outcomes at hx
  unfold EStateM.bind
  cases hxs : x s with
  | ok a s' =>
    rw [hxs] at hx
    cases hyt : y t with
    | ok b t' =>
      rw [hyt] at hx
      exact hk a b s' t' hx.1 hx.2
    | error e t' =>
      rw [hyt] at hx
      exact hx.elim
  | error e s' =>
    rw [hxs] at hx
    cases hyt : y t with
    | ok b t' =>
      rw [hyt] at hx
      exact hx.elim
    | error e' t' =>
      rw [hyt] at hx
      exact hx

theorem lockstep_pure (a : α) : Lockstep R (pure a : EStateM ε σ α) (pure a) :=
  fun _ _ h => ⟨rfl, h⟩

theorem lockstep_throw (e : ε) : Lockstep R (throw e : EStateM ε σ α) (throw e) :=
  fun _ _ h => ⟨rfl, h⟩

theorem lockstep_modify {f g : σ → σ} (h : ∀ s t, R s t → R (f s) (g t)) :
    Lockstep R (modify f : EStateM ε σ PUnit) (modify g) := fun s t hst => ⟨rfl, h s t hst⟩

theorem lockstep_bind {x y : EStateM ε σ α} {k l : α → EStateM ε σ γ} (hx : Lockstep R x y)
    (hk : ∀ a, Lockstep R (k a) (l a)) : Lockstep R (x >>= k) (y >>= l) := by
  intro s t hst
  apply agree_bind (hx s t hst)
  intro a b s' t' hab hst'
  cases hab
  exact hk a s' t' hst'

theorem lockstep_modify_bind {f g : σ → σ} {k l : PUnit → EStateM ε σ γ}
    (h : ∀ s t, R s t → R (f s) (g t)) (hk : ∀ u, Lockstep R (k u) (l u)) :
    Lockstep R (modify f >>= k) (modify g >>= l) := lockstep_bind (lockstep_modify h) hk

theorem lockstep_get_bind {k l : σ → EStateM ε σ γ}
    (h : ∀ s t, R s t → Agree R Eq (k s) (l t) s t) :
    Lockstep R (get >>= k) (get >>= l) := fun s t hst => h s t hst

theorem lockstep_ite {c : Prop} [Decidable c] {x x' y y' : EStateM ε σ α} (hx : Lockstep R x x')
    (hy : Lockstep R y y') : Lockstep R (if c then x else y) (if c then x' else y') := by
  split
  · exact hx
  · exact hy

/-- Two runs in lockstep end in related states. -/
theorem Agree.after {x : EStateM ε σ α} {y : EStateM ε σ β} {s t : σ} (h : Agree R V x y s t) :
    R (after x s) (after y t) := by
  unfold Agree Outcomes at h
  unfold Program.after
  cases hxs : x s with
  | ok a s' =>
    rw [hxs] at h
    cases hyt : y t with
    | ok b t' =>
      rw [hyt] at h
      exact h.2
    | error e t' =>
      rw [hyt] at h
      exact h.elim
  | error e s' =>
    rw [hxs] at h
    cases hyt : y t with
    | ok b t' =>
      rw [hyt] at h
      exact h.elim
    | error e' t' =>
      rw [hyt] at h
      exact h.2

end Program
