import Ehttpd.Lib.Program
import Mathlib.Logic.Relation

namespace Program

open Relation

variable {ε σ α P : Type}

section Walks

variable (Move : P × σ → P × σ → Prop) (home : P) (halt : ε → P)

/-- From the point and state `s₀`, the program `x`, started in `s`, walks to `home`
or halts. -/
def Walks (s₀ : P × σ) (x : EStateM ε σ α) (s : σ) : Prop :=
  wp x (fun _ s' => ReflTransGen Move s₀ (home, s')) (fun e s' => ReflTransGen Move s₀ (halt e, s')) s

variable {Move home halt}

theorem Walks.move {s₀ s₁ : P × σ} {x : EStateM ε σ α} {s : σ} (h : Move s₀ s₁)
    (hx : Walks Move home halt s₁ x s) : Walks Move home halt s₀ x s :=
  wp_mono hx (fun _ _ hw => .head h hw) fun _ _ hw => .head h hw

/-- What every move keeps is kept along a path. -/
theorem path_invariant {I : P → σ → Prop}
    (hI : ∀ p s p' s', I p s → Move (p, s) (p', s') → I p' s') {t t' : P × σ}
    (hpath : ReflTransGen Move t t') (h : I t.1 t.2) : I t'.1 t'.2 := by
  induction hpath with
  | refl => exact h
  | tail _ hmove ih => exact hI _ _ _ _ ih hmove

theorem Walks.invariant {I : P → σ → Prop}
    (hI : ∀ p s p' s', I p s → Move (p, s) (p', s') → I p' s')
    {p : P} {s₀ s : σ} {x : EStateM ε σ α} (hx : Walks Move home halt (p, s₀) x s) (h : I p s₀) :
    wp x (fun _ => I home) (fun e => I (halt e)) s :=
  wp_mono hx (fun _ _ hpath => path_invariant hI hpath h) fun _ _ hpath => path_invariant hI hpath h

end Walks

/-- The states of a system that calls programs: `none` between two calls, and
`some e` where a call has stopped with `e`. -/
inductive Calls (init : σ → Prop) (call : σ → EStateM ε σ Unit → Prop) (env : σ → σ → Prop) :
    Option ε → σ → Prop
  | init {s : σ} : init s → Calls init call env none s
  | call {s s' : σ} {x : EStateM ε σ Unit} : Calls init call env none s → call s x →
      x s = .ok () s' → Calls init call env none s'
  | stop {s s' : σ} {x : EStateM ε σ Unit} {e : ε} : Calls init call env none s → call s x →
      x s = .error e s' → Calls init call env (some e) s'
  | env {s s' : σ} : Calls init call env none s → env s s' → Calls init call env none s'

/-- What holds initially and is kept by every call and every step of the
environment holds in every state reached. -/
theorem Calls.invariant {init : σ → Prop} {call : σ → EStateM ε σ Unit → Prop}
    {env : σ → σ → Prop} {I : Option ε → σ → Prop} (hinit : ∀ s, init s → I none s)
    (hcall : ∀ s x, I none s → call s x → wp x (fun _ => I none) (fun e => I (some e)) s)
    (henv : ∀ s s', I none s → env s s' → I none s') {o : Option ε} {s : σ}
    (h : Calls init call env o s) : I o s := by
  induction h with
  | init h => exact hinit _ h
  | call _ hc hx ih => exact (wp_of_ok hx).1 (hcall _ _ ih hc)
  | stop _ hc hx ih => exact (wp_of_error hx).1 (hcall _ _ ih hc)
  | env _ he ih => exact henv _ _ ih he

section EachCall

variable (call : α → EStateM ε σ Unit)

/-- `P` of every call of a sequence and the state it is made in; a call that stops ends it. -/
def EachCall (P : σ → α → Prop) : σ → List α → Prop
  | _, [] => True
  | s, x :: xs => P s x ∧ (returns (call x) s = true → EachCall P (after (call x) s) xs)

instance decidableEachCall {P : σ → α → Prop} [∀ s x, Decidable (P s x)] :
    (s : σ) → (xs : List α) → Decidable (EachCall call P s xs)
  | _, [] => isTrue trivial
  | s, x :: xs =>
    have := decidableEachCall (P := P) (after (call x) s) xs
    inferInstanceAs (Decidable (_ ∧ (_ → _)))

variable {call} {P Q R : σ → α → Prop} {I Broken : σ → Prop}

/-- What a call breaks may show at a later one: when a call without `Q` leaves a broken state,
which stays broken until a call shows it, the calls of a sequence and any one after it have `P`
exactly when those of the sequence have `Q`. -/
theorem eachCall_next_iff (hquiet : ∃ x, ∀ s, R s x) (hgood : ∀ s x, I s → R s x → P s x)
    (hkeep : ∀ s x, I s → R s x → Q s x → returns (call x) s = true → I (after (call x) s))
    (hbreak : ∀ s x, I s → R s x → ¬ Q s x →
      returns (call x) s = true ∧ Broken (after (call x) s))
    (hstay : ∀ s x, Broken s → R s x → P s x →
      returns (call x) s = true ∧ Broken (after (call x) s))
    (hshow : ∀ s, Broken s → ∃ x, R s x ∧ ¬ P s x) {s : σ} {xs : List α} (hI : I s)
    (hR : EachCall call R s xs) :
    (∀ x, EachCall call R s (xs ++ [x]) → EachCall call P s (xs ++ [x])) ↔
      EachCall call Q s xs := by
  obtain ⟨quiet, hquiet⟩ := hquiet
  have hlast : ∀ {s xs}, EachCall call R s xs → EachCall call R s (xs ++ [quiet]) := by
    intro s xs
    induction xs generalizing s with
    | nil => exact fun _ => ⟨hquiet s, fun _ => trivial⟩
    | cons y ys ih => exact fun h => ⟨h.1, fun hret => ih (h.2 hret)⟩
  -- from a broken state on, some call of the sequence or one after it shows it
  have hshown : ∀ {s xs}, Broken s → EachCall call R s xs →
      ¬ ∀ x, EachCall call R s (xs ++ [x]) → EachCall call P s (xs ++ [x]) := by
    intro s xs
    induction xs generalizing s with
    | nil =>
      intro hs _ hall
      obtain ⟨x, hx, hnot⟩ := hshow s hs
      exact hnot (hall x ⟨hx, fun _ => trivial⟩).1
    | cons y ys ih =>
      intro hs hy hall
      obtain ⟨hret, hs'⟩ := hstay s y hs hy.1 (hall quiet (hlast hy)).1
      apply ih hs' (hy.2 hret)
      intro x hx
      exact (hall x ⟨hy.1, fun _ => hx⟩).2 hret
  induction xs generalizing s with
  | nil =>
    apply iff_of_true _ trivial
    intro x hx
    exact ⟨hgood s x hI hx.1, fun _ => trivial⟩
  | cons y ys ih =>
    constructor
    · intro hall
      by_cases hQ : Q s y
      · refine ⟨hQ, fun hret => (ih (hkeep s y hI hR.1 hQ hret) (hR.2 hret)).1 fun x hx => ?_⟩
        exact (hall x ⟨hR.1, fun _ => hx⟩).2 hret
      · obtain ⟨hret, hs'⟩ := hbreak s y hI hR.1 hQ
        apply absurd _ (hshown hs' (hR.2 hret))
        intro x hx
        exact (hall x ⟨hR.1, fun _ => hx⟩).2 hret
    · intro hQ x hx
      refine ⟨hgood s y hI hR.1, fun hret => ?_⟩
      exact (ih (hkeep s y hI hR.1 hQ.1 hret) (hR.2 hret)).2 (hQ.2 hret) x (hx.2 hret)

end EachCall

end Program
