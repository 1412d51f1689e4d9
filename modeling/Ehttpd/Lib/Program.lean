import Mathlib.Logic.Basic

namespace Program

variable {ε σ α β : Type}

/-- The weakest precondition for `Q` on return and `E` on an early exit. -/
def wp (x : EStateM ε σ α) (Q : α → σ → Prop) (E : ε → σ → Prop) (s : σ) : Prop :=
  match x s with
  | .ok a s' => Q a s'
  | .error e s' => E e s'

def after (x : EStateM ε σ α) (s : σ) : σ :=
  match x s with
  | .ok _ s' => s'
  | .error _ s' => s'

def returns (x : EStateM ε σ α) (s : σ) : Bool :=
  match x s with
  | .ok _ _ => true
  | .error _ _ => false

def stopped (x : EStateM ε σ α) (s : σ) : Option ε :=
  match x s with
  | .ok _ _ => none
  | .error e _ => some e

def result (x : EStateM ε σ α) (s : σ) : Option α :=
  match x s with
  | .ok a _ => some a
  | .error _ _ => none

section Rules

variable {Q Q' : α → σ → Prop} {E E' : ε → σ → Prop} {s : σ}

@[simp] theorem wp_pure (a : α) : wp (pure a : EStateM ε σ α) Q E s ↔ Q a s := Iff.rfl

@[simp] theorem wp_bind (x : EStateM ε σ β) (f : β → EStateM ε σ α) :
    wp (x >>= f) Q E s ↔ wp x (fun b s' => wp (f b) Q E s') E s := by
  change (match EStateM.bind x f s with | .ok a s' => Q a s' | .error e s' => E e s') ↔ _
  unfold wp EStateM.bind
  cases x s <;> rfl

@[simp] theorem wp_map (f : β → α) (x : EStateM ε σ β) :
    wp (f <$> x) Q E s ↔ wp x (fun b s' => Q (f b) s') E s := by
  change (match EStateM.map f x s with | .ok a s' => Q a s' | .error e s' => E e s') ↔ _
  unfold wp EStateM.map
  cases x s <;> rfl

@[simp] theorem wp_get {Q : σ → σ → Prop} :
    wp (get : EStateM ε σ σ) Q E s ↔ Q s s := Iff.rfl

@[simp] theorem wp_set {Q : PUnit → σ → Prop} (t : σ) :
    wp (set t : EStateM ε σ PUnit) Q E s ↔ Q ⟨⟩ t := Iff.rfl

@[simp] theorem wp_modify {Q : PUnit → σ → Prop} (f : σ → σ) :
    wp (modify f : EStateM ε σ PUnit) Q E s ↔ Q ⟨⟩ (f s) := Iff.rfl

@[simp] theorem wp_throw (e : ε) : wp (throw e : EStateM ε σ α) Q E s ↔ E e s := Iff.rfl

@[simp] theorem wp_ite {c : Prop} [Decidable c] (x y : EStateM ε σ α) :
    wp (if c then x else y) Q E s ↔ (c → wp x Q E s) ∧ (¬ c → wp y Q E s) := by
  by_cases h : c <;> simp [h]

theorem wp_mono {x : EStateM ε σ α} (h : wp x Q E s) (hQ : ∀ a s', Q a s' → Q' a s')
    (hE : ∀ e s', E e s' → E' e s') : wp x Q' E' s := by
  unfold wp at h ⊢
  cases hx : x s with
  | ok a s' => rw [hx] at h; exact hQ a s' h
  | error e s' => rw [hx] at h; exact hE e s' h

theorem wp_and {x : EStateM ε σ α} (h : wp x Q E s) (h' : wp x Q' E' s) :
    wp x (fun a s' => Q a s' ∧ Q' a s') (fun e s' => E e s' ∧ E' e s') s := by
  unfold wp at h h' ⊢
  cases hx : x s with
  | ok a s' => rw [hx] at h h'; exact ⟨h, h'⟩
  | error e s' => rw [hx] at h h'; exact ⟨h, h'⟩

theorem wp_false {x : EStateM ε σ α} : ¬ wp x (fun _ _ => False) (fun _ _ => False) s := by
  unfold wp
  cases x s <;> exact id

theorem wp_any {x : EStateM ε σ α} (hQ : ∀ a s', Q a s') (hE : ∀ e s', E e s') : wp x Q E s := by
  unfold wp
  cases x s with
  | ok a s' => exact hQ a s'
  | error e s' => exact hE e s'

theorem exists_ok_of_wp {x : EStateM ε σ α} (h : wp x Q (fun _ _ => False) s) :
    ∃ a s', x s = .ok a s' := by
  unfold wp at h
  cases hx : x s with
  | ok a s' => exact ⟨a, s', rfl⟩
  | error e s' =>
    rw [hx] at h
    cases h

theorem wp_of_ok {x : EStateM ε σ α} {a : α} {s' : σ} (hx : x s = .ok a s') :
    wp x Q E s ↔ Q a s' := by
  unfold wp; rw [hx]

theorem wp_of_error {x : EStateM ε σ α} {e : ε} {s' : σ} (hx : x s = .error e s') :
    wp x Q E s ↔ E e s' := by
  unfold wp; rw [hx]

theorem wp_after {x : EStateM ε σ α} {P : σ → Prop} (h : wp x (fun _ => P) (fun _ => P) s) :
    P (after x s) := by
  unfold wp at h
  unfold after
  cases hx : x s with
  | ok a s' => rw [hx] at h; exact h
  | error e s' => rw [hx] at h; exact h

theorem eq_of_wp {x y : EStateM ε σ α} {t : σ} (h : ∀ Q E, wp y Q E t → wp x Q E s) : x s = y t := by
  have hy : wp y (fun a t' => y t = .ok a t') (fun e t' => y t = .error e t') t := by
    unfold wp
    cases y t <;> rfl
  have hx := h _ _ hy
  unfold wp at hx
  cases hxs : x s with
  | ok a s' =>
    rw [hxs] at hx
    exact hx.symm
  | error e s' =>
    rw [hxs] at hx
    exact hx.symm

theorem eq_ok_of_result {x : EStateM ε σ α} {a : α} (h : result x s = some a) :
    x s = .ok a (after x s) := by
  unfold result at h
  unfold after
  cases hx : x s with
  | ok b s' =>
    rw [hx] at h
    rw [Option.some.inj h]
  | error e s' =>
    rw [hx] at h
    cases h

theorem eq_ok_of_returns {x : EStateM ε σ Unit} (h : returns x s = true) :
    x s = .ok () (after x s) := by
  unfold returns at h
  unfold after
  cases hx : x s with
  | ok a s' => rfl
  | error e s' => rw [hx] at h; cases h

theorem exists_ok_of_returns {x : EStateM ε σ α} (h : returns x s = true) :
    ∃ a, x s = .ok a (after x s) := by
  unfold returns at h
  unfold after
  cases hx : x s with
  | ok a s' => exact ⟨a, rfl⟩
  | error e s' => rw [hx] at h; cases h

theorem eq_error_of_stopped {x : EStateM ε σ Unit} {e : ε} (h : stopped x s = some e) :
    x s = .error e (after x s) := by
  unfold stopped at h
  unfold after
  cases hx : x s with
  | ok a s' => rw [hx] at h; cases h
  | error e' s' => rw [hx] at h; cases h; rfl

end Rules

def Keeps (f : σ → β) (x : EStateM ε σ α) : Prop := ∀ s, f (after x s) = f s

section Keeps

variable {γ : Type} {f : σ → γ} {x : EStateM ε σ β} {k : β → EStateM ε σ α}

theorem keeps_pure (a : α) : Keeps f (pure a : EStateM ε σ α) := fun _ => rfl

theorem keeps_throw (e : ε) : Keeps f (throw e : EStateM ε σ α) := fun _ => rfl

theorem keeps_get : Keeps f (get : EStateM ε σ σ) := fun _ => rfl

theorem keeps_modify {g : σ → σ} (h : ∀ s, f (g s) = f s) :
    Keeps f (modify g : EStateM ε σ PUnit) := fun s => h s

theorem keeps_bind (hx : Keeps f x) (hk : ∀ b, Keeps f (k b)) : Keeps f (x >>= k) := by
  intro s
  have hs := hx s
  show f (match EStateM.bind x k s with | .ok _ s' => s' | .error _ s' => s') = f s
  unfold EStateM.bind
  unfold after at hs
  cases hxs : x s with
  | ok b s' =>
    rw [hxs] at hs
    exact (hk b s').trans hs
  | error e s' =>
    rw [hxs] at hs
    exact hs

theorem keeps_modify_bind {g : σ → σ} {k : PUnit → EStateM ε σ α} (h : ∀ s, f (g s) = f s)
    (hk : ∀ u, Keeps f (k u)) : Keeps f (modify g >>= k) := keeps_bind (keeps_modify h) hk

theorem keeps_of_wp {x : EStateM ε σ α}
    (h : ∀ s, wp x (fun _ s' => f s' = f s) (fun _ s' => f s' = f s) s) : Keeps f x := by
  intro s
  exact wp_after (P := fun s' => f s' = f s) (h s)

theorem keeps_ite {c : Prop} [Decidable c] {x y : EStateM ε σ α} (hx : Keeps f x)
    (hy : Keeps f y) : Keeps f (if c then x else y) := by
  split
  · exact hx
  · exact hy

theorem Keeps.wp {x : EStateM ε σ α} (h : Keeps f x) (s : σ) :
    wp x (fun _ s' => f s' = f s) (fun _ s' => f s' = f s) s := by
  have hs := h s
  unfold after at hs
  unfold Program.wp
  cases hx : x s with
  | ok a s' =>
    rw [hx] at hs
    exact hs
  | error e s' =>
    rw [hx] at hs
    exact hs

theorem wp_bind_of_keeps {Q : α → σ → Prop} {s : σ} (hx : Keeps f x)
    (hk : ∀ b s', f s' = f s → wp (k b) Q (fun _ _ => True) s') :
    wp (x >>= k) Q (fun _ _ => True) s := by
  rw [wp_bind]
  exact wp_mono (hx.wp s) (fun b s' h => hk b s' h) fun _ _ _ => trivial

end Keeps

section Zoom

variable {τ : Type} {get : τ → σ} {put : τ → σ → τ}

def zoom (get : τ → σ) (put : τ → σ → τ) (x : EStateM ε σ α) : EStateM ε τ α := fun t =>
  match x (get t) with
  | .ok a s => .ok a (put t s)
  | .error e s => .error e (put t s)

theorem after_zoom (x : EStateM ε σ α) (t : τ) :
    after (zoom get put x) t = put t (after x (get t)) := by
  unfold after zoom
  cases x (get t) <;> rfl

@[simp] theorem wp_zoom {x : EStateM ε σ α} {Q : α → τ → Prop} {E : ε → τ → Prop} {t : τ} :
    wp (zoom get put x) Q E t ↔
      wp x (fun a s => Q a (put t s)) (fun e s => E e (put t s)) (get t) := by
  unfold wp zoom
  cases x (get t) <;> rfl

end Zoom

def Below (x y : EStateM ε σ α) : Prop := ∀ s a s', x s = .ok a s' → y s = .ok a s'

section Below

variable {x y : EStateM ε σ β} {k k' : β → EStateM ε σ α}

theorem below_refl : Below x x := fun _ _ _ h => h

theorem below_throw (e : ε) (y : EStateM ε σ α) : Below (throw e) y := by
  intro s a s' h
  cases h

theorem below_bind (hx : Below x y) (hk : ∀ b, Below (k b) (k' b)) :
    Below (x >>= k) (y >>= k') := by
  intro s a s' h
  change EStateM.bind x k s = .ok a s' at h
  show EStateM.bind y k' s = .ok a s'
  unfold EStateM.bind at h ⊢
  cases hxs : x s with
  | ok b t =>
    rw [hxs] at h
    rw [hx s b t hxs]
    exact hk b t a s' h
  | error e t =>
    rw [hxs] at h
    cases h

end Below

end Program
