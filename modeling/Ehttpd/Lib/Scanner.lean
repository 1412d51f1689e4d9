import Mathlib.Logic.Basic

namespace Scanner

/-- What a scanner does with one element: go on in a state, or give a code. -/
inductive Step (σ ρ κ : Type)
  | next (st : σ) (r : ρ)
  | stop (rc : κ) (r : ρ)
  deriving DecidableEq, Repr

inductive Scan (σ ρ κ : Type)
  | stop (rc : κ) (r : ρ)
  | exit (st : σ) (r : ρ) (p : Nat)
  deriving DecidableEq, Repr

variable {σ ρ κ β : Type}

/-- Walk over a list from the place `p` on; the step sees the place behind its element. -/
def scan (final : σ → Bool) (step : σ → ρ → Nat → β → Step σ ρ κ) :
    σ → ρ → Nat → List β → Scan σ ρ κ
  | st, r, p, [] => .exit st r p
  | st, r, p, x :: xs =>
    if final st then .exit st r p
    else
      match step st r (p + 1) x with
      | .next st' r' => scan final step st' r' (p + 1) xs
      | .stop rc r' => .stop rc r'

def Scan.resume (s : Scan σ ρ κ) (f : σ → ρ → Nat → Scan σ ρ κ) : Scan σ ρ κ :=
  match s with
  | .stop rc r => .stop rc r
  | .exit st r p => f st r p

variable {final : σ → Bool} {step step' : σ → ρ → Nat → β → Step σ ρ κ}

theorem scan_of_final {st : σ} (h : final st = true) (r : ρ) (p : Nat) (xs : List β) :
    scan final step st r p xs = .exit st r p := by
  cases xs with
  | nil => rfl
  | cons x xs => simp [scan, h]

theorem scan_append (st : σ) (r : ρ) (p : Nat) (xs ys : List β) :
    scan final step st r p (xs ++ ys) =
      (scan final step st r p xs).resume fun st' r' p' => scan final step st' r' p' ys := by
  induction xs generalizing st r p with
  | nil => rfl
  | cons x xs ih =>
    rw [List.cons_append]
    cases hf : final st with
    | true => rw [scan_of_final hf, scan_of_final hf]; exact (scan_of_final hf r p ys).symm
    | false =>
      simp only [scan, hf]
      cases step st r (p + 1) x with
      | next st' r' => exact ih st' r' (p + 1)
      | stop rc r' => rfl

/-- A scan that ends in a final state stays inside the list; one that does not
has passed all of it. -/
theorem scan_exit {st st' : σ} {r r' : ρ} {p p' : Nat} {xs : List β}
    (h : scan final step st r p xs = .exit st' r' p') :
    p ≤ p' ∧ p' ≤ p + xs.length ∧ (final st' = false → p' = p + xs.length) := by
  induction xs generalizing st r p with
  | nil =>
    cases h
    simp
  | cons x xs ih =>
    unfold scan at h
    cases hf : final st with
    | true =>
      rw [if_pos hf] at h
      cases h
      exact ⟨by omega, by omega, fun hf' => absurd (hf.symm.trans hf') (by simp)⟩
    | false =>
      rw [if_neg (by simp [hf])] at h
      cases hstep : step st r (p + 1) x with
      | next st₁ r₁ =>
        rw [hstep] at h
        obtain ⟨hle, hle', hall⟩ := ih h
        rw [List.length_cons]
        exact ⟨by omega, by omega, fun hf' => by rw [hall hf']; omega⟩
      | stop rc r₁ =>
        rw [hstep] at h
        cases h

/-- A scan that starts before a final state takes at least one element. -/
theorem scan_progress {st st' : σ} {r r' : ρ} {p p' : Nat} {xs : List β}
    (hst : final st = false) (hxs : xs ≠ []) (h : scan final step st r p xs = .exit st' r' p') :
    p < p' := by
  cases xs with
  | nil => exact absurd rfl hxs
  | cons x xs =>
    unfold scan at h
    rw [if_neg (by simp [hst])] at h
    cases hstep : step st r (p + 1) x with
    | next st₁ r₁ =>
      rw [hstep] at h
      have := (scan_exit h).1
      omega
    | stop rc r₁ =>
      rw [hstep] at h
      cases h

/-- A code that ends a scan comes from a step. -/
theorem scan_stop {C : κ → Prop}
    (hstep : ∀ st r p x rc r', step st r p x = .stop rc r' → C rc)
    {st : σ} {r r' : ρ} {p : Nat} {xs : List β} {rc : κ}
    (h : scan final step st r p xs = .stop rc r') : C rc := by
  induction xs generalizing st r p with
  | nil => cases h
  | cons x xs ih =>
    unfold scan at h
    cases hf : final st with
    | true =>
      rw [if_pos hf] at h
      cases h
    | false =>
      rw [if_neg (by simp [hf])] at h
      cases hs : step st r (p + 1) x with
      | next st₁ r₁ =>
        rw [hs] at h
        exact ih h
      | stop rc₁ r₁ =>
        rw [hs] at h
        cases h
        exact hstep st r (p + 1) x rc r' hs

/-- The same, from a state of a set that no step leaves. -/
theorem scan_stop_from {S : σ → Prop} {C : κ → Prop}
    (hnext : ∀ st r p x st' r', S st → step st r p x = .next st' r' → S st')
    (hstep : ∀ st r p x rc r', S st → step st r p x = .stop rc r' → C rc)
    {st : σ} {r r' : ρ} {p : Nat} {xs : List β} {rc : κ} (hst : S st)
    (h : scan final step st r p xs = .stop rc r') : C rc := by
  induction xs generalizing st r p with
  | nil => cases h
  | cons x xs ih =>
    unfold scan at h
    cases hf : final st with
    | true =>
      rw [if_pos hf] at h
      cases h
    | false =>
      rw [if_neg (by simp [hf])] at h
      cases hs : step st r (p + 1) x with
      | next st₁ r₁ =>
        rw [hs] at h
        exact ih (hnext st r (p + 1) x st₁ r₁ hst hs) h
      | stop rc₁ r₁ =>
        rw [hs] at h
        cases h
        exact hstep st r (p + 1) x rc r' hst hs

def Scan.record : Scan σ ρ κ → ρ
  | .stop _ r => r
  | .exit _ r _ => r

/-- A property of the record that no step from a set of states breaks, where no step
leaves the set. -/
theorem scan_keeps {S : σ → Prop} {R : ρ → Prop}
    (hnext : ∀ st r p x st' r', S st → R r → step st r p x = .next st' r' → S st' ∧ R r')
    (hstop : ∀ st r p x rc r', S st → R r → step st r p x = .stop rc r' → R r')
    {st : σ} {r : ρ} {p : Nat} {xs : List β} (hst : S st) (hr : R r) :
    R (scan final step st r p xs).record := by
  induction xs generalizing st r p with
  | nil => exact hr
  | cons x xs ih =>
    unfold scan
    split
    · exact hr
    · cases hs : step st r (p + 1) x with
      | next st₁ r₁ =>
        obtain ⟨hst₁, hr₁⟩ := hnext st r (p + 1) x st₁ r₁ hst hr hs
        exact ih hst₁ hr₁
      | stop rc r₁ => exact hstop st r (p + 1) x rc r₁ hst hr hs

/-- What every step keeps, the scan keeps. -/
theorem scan_invariant {I : σ → ρ → Nat → Prop}
    (hstep : ∀ st r p x st' r', I st r p → final st = false → step st r (p + 1) x = .next st' r' →
      I st' r' (p + 1))
    {st st' : σ} {r r' : ρ} {p p' : Nat} {xs : List β}
    (h : scan final step st r p xs = .exit st' r' p') (hI : I st r p) : I st' r' p' := by
  induction xs generalizing st r p with
  | nil =>
    cases h
    exact hI
  | cons x xs ih =>
    unfold scan at h
    cases hf : final st with
    | true =>
      rw [if_pos hf] at h
      cases h
      exact hI
    | false =>
      rw [if_neg (by simp [hf])] at h
      cases hs : step st r (p + 1) x with
      | next st₁ r₁ =>
        rw [hs] at h
        exact ih h (hstep st r p x st₁ r₁ hI hf hs)
      | stop rc r₁ =>
        rw [hs] at h
        cases h

/-- What every step keeps, the scan of a list from the place `p` on keeps; the
step sees the element at its place. -/
theorem scan_invariant_drop {I : σ → ρ → Nat → Prop} {xs : List β}
    (hstep : ∀ st r p x st' r', I st r p → xs[p]? = some x → final st = false →
      step st r (p + 1) x = .next st' r' → I st' r' (p + 1))
    {st st' : σ} {r r' : ρ} {p p' : Nat}
    (h : scan final step st r p (xs.drop p) = .exit st' r' p') (hI : I st r p) : I st' r' p' := by
  generalize hys : xs.drop p = ys at h
  induction ys generalizing st r p with
  | nil =>
    cases h
    exact hI
  | cons x ys ih =>
    have hx : xs[p]? = some x := by
      rw [← List.head?_drop, hys]
      rfl
    have hrest : xs.drop (p + 1) = ys := by
      rw [← List.tail_drop, hys]
      rfl
    unfold scan at h
    cases hf : final st with
    | true =>
      rw [if_pos hf] at h
      cases h
      exact hI
    | false =>
      rw [if_neg (by simp [hf])] at h
      cases hs : step st r (p + 1) x with
      | next st₁ r₁ =>
        rw [hs] at h
        exact ih (hstep st r p x st₁ r₁ hI hx hf hs) hrest h
      | stop rc r₁ =>
        rw [hs] at h
        cases h

def Step.map (f : ρ → ρ) : Step σ ρ κ → Step σ ρ κ
  | .next st r => .next st (f r)
  | .stop rc r => .stop rc (f r)

def Scan.map (f : ρ → ρ) : Scan σ ρ κ → Scan σ ρ κ
  | .stop rc r => .stop rc (f r)
  | .exit st r p => .exit st (f r) p

theorem scan_map {f : ρ → ρ} (hstep : ∀ st r p x, step st (f r) p x = (step st r p x).map f)
    (st : σ) (r : ρ) (p : Nat) (xs : List β) :
    scan final step st (f r) p xs = (scan final step st r p xs).map f := by
  induction xs generalizing st r p with
  | nil => rfl
  | cons x xs ih =>
    unfold scan
    split
    · rfl
    · rw [hstep]
      cases step st r (p + 1) x with
      | next st' r' => exact ih st' r' (p + 1)
      | stop rc r' => rfl

/-- Two scanners that agree up to the place `n`, on the records with `I`. -/
theorem scan_congr {I : ρ → Prop} {n : Nat}
    (hstep : ∀ st r p x, I r → p ≤ n → step st r p x = step' st r p x)
    (hkeeps : ∀ st r p x st' r', I r → step st r p x = .next st' r' → I r')
    {st : σ} {r : ρ} {p : Nat} {xs : List β} (hr : I r) (hn : p + xs.length ≤ n) :
    scan final step st r p xs = scan final step' st r p xs := by
  induction xs generalizing st r p with
  | nil => rfl
  | cons x xs ih =>
    rw [List.length_cons] at hn
    unfold scan
    split
    · rfl
    · rw [← hstep st r (p + 1) x hr (by omega)]
      cases hs : step st r (p + 1) x with
      | next st' r' => exact ih (hkeeps _ _ _ _ _ _ hr hs) (by omega)
      | stop rc r' => rfl

end Scanner
