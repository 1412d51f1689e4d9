import Ehttpd.Lib.Scanner
import Mathlib.Data.List.Basic

namespace Scanner

variable {σ ρ κ β : Type}

/-- A scanner and what is around it in a call: `load` and `save` are the way of the
state through the record, `finish` is what follows a final state. -/
structure Parser (σ ρ κ β : Type) where
  final : σ → Bool
  step : List β → σ → ρ → Nat → β → Step σ ρ κ
  load : ρ → σ
  save : σ → ρ → ρ
  finish : σ → ρ → Nat → κ × ρ
  more : κ
  /-- the codes that a step can stop with -/
  rejects : κ → Prop

namespace Parser

variable (P : Parser σ ρ κ β)

/-- One call, from the place `p` on: the code, the record and the place it leaves. -/
def call (xs : List β) (r : ρ) (p : Nat) : κ × ρ × Nat :=
  match scan P.final (P.step xs) (P.load r) r p (xs.drop p) with
  | .stop rc r' => (rc, r', p)
  | .exit st r' q =>
    if P.final st then ((P.finish st r' q).1, (P.finish st r' q).2, q)
    else (P.more, P.save st r', q)

def calls [DecidableEq κ] (xs : List β) (r : ρ) (p : Nat) : List (List β) → κ × ρ × Nat
  | [] => P.call xs r p
  | w :: ws =>
    if (P.call xs r p).1 = P.more then
      calls (xs ++ w) (P.call xs r p).2.1 (P.call xs r p).2.2 ws
    else P.call xs r p

structure Lawful : Prop where
  load_save : ∀ st r, P.load (P.save st r) = st
  save_save : ∀ st st' r, P.save st (P.save st' r) = P.save st r
  step_save : ∀ xs st st' r p x,
    P.step xs st (P.save st' r) p x = (P.step xs st r p x).map (P.save st')
  finish_save : ∀ st st' r p, P.finish st (P.save st' r) p = P.finish st r p
  /-- a step looks at nothing that is still ahead -/
  step_congr : ∀ xs ys n st r p x, xs.take n = ys.take n → p ≤ n →
    P.step xs st r p x = P.step ys st r p x
  stop : ∀ xs st r p x rc r', P.step xs st r p x = .stop rc r' → P.rejects rc
  more : ¬ P.rejects P.more
  finish_ne : ∀ st r p, P.final st = true → (P.finish st r p).1 ≠ P.more

/-- Two outcomes with one code, and, unless it rejects, with one record and place. -/
structure Agree (x y : κ × ρ × Nat) : Prop where
  code : x.1 = y.1
  rest : ¬ P.rejects y.1 → x.2 = y.2

variable {P} {r r' : ρ} {p q : Nat} {xs : List β} {rc : κ}

theorem Agree.refl (x : κ × ρ × Nat) : P.Agree x x := ⟨rfl, fun _ => rfl⟩

theorem Agree.trans {x y z : κ × ρ × Nat} (h : P.Agree x y) (h' : P.Agree y z) : P.Agree x z where
  code := h.code.trans h'.code
  rest := by
    intro hz
    have hy : ¬ P.rejects y.1 := by
      rw [h'.code]
      exact hz
    rw [h.rest hy, h'.rest hz]

theorem call_of_stop (h : scan P.final (P.step xs) (P.load r) r p (xs.drop p) = .stop rc r') :
    P.call xs r p = (rc, r', p) := by
  unfold call
  rw [h]

theorem call_of_final {st : σ} (hst : P.final st = true)
    (h : scan P.final (P.step xs) (P.load r) r p (xs.drop p) = .exit st r' q) :
    P.call xs r p = ((P.finish st r' q).1, (P.finish st r' q).2, q) := by
  unfold call
  rw [h]
  exact if_pos hst

theorem call_of_exit {st : σ} (hst : P.final st = false)
    (h : scan P.final (P.step xs) (P.load r) r p (xs.drop p) = .exit st r' q) :
    P.call xs r p = (P.more, P.save st r', q) := by
  unfold call
  rw [h]
  exact if_neg (by simp [hst])

/-- A call that asks for more has passed everything there is. -/
theorem call_more (hP : P.Lawful) (hp : p ≤ xs.length) (h : (P.call xs r p).1 = P.more) :
    ∃ st r', P.final st = false ∧
      scan P.final (P.step xs) (P.load r) r p (xs.drop p) = .exit st r' xs.length ∧
      P.call xs r p = (P.more, P.save st r', xs.length) := by
  cases hscan : scan P.final (P.step xs) (P.load r) r p (xs.drop p) with
  | stop rc r' =>
    rw [call_of_stop hscan] at h
    have hrejects := scan_stop (C := P.rejects) (hP.stop xs) hscan
    change rc = P.more at h
    rw [h] at hrejects
    exact absurd hrejects hP.more
  | exit st r' q =>
    cases hst : P.final st with
    | true =>
      rw [call_of_final hst hscan] at h
      exact absurd h (hP.finish_ne st r' q hst)
    | false =>
      have hq : q = xs.length := by
        rw [(scan_exit hscan).2.2 hst, List.length_drop]
        omega
      subst hq
      exact ⟨st, r', hst, rfl, call_of_exit hst hscan⟩

/-- What has been passed is read alike when more has arrived. -/
theorem scan_grown (hP : P.Lawful) (hp : p ≤ xs.length) (ys : List β) :
    scan P.final (P.step (xs ++ ys)) (P.load r) r p ((xs ++ ys).drop p) =
      (scan P.final (P.step xs) (P.load r) r p (xs.drop p)).resume fun st r q =>
        scan P.final (P.step (xs ++ ys)) st r q ys := by
  rw [List.drop_append_of_le_length hp, scan_append]
  have hsame : scan P.final (P.step (xs ++ ys)) (P.load r) r p (xs.drop p) =
      scan P.final (P.step xs) (P.load r) r p (xs.drop p) := by
    apply scan_congr (I := fun _ => True) (n := xs.length)
    · intro st r q x _ hq
      apply hP.step_congr _ _ xs.length _ _ _ _ _ hq
      rw [List.take_left, List.take_length]
    · intros
      trivial
    · trivial
    · rw [List.length_drop]
      omega
  rw [hsame]

/-- A call that has come to its end does not look at what follows. -/
theorem call_append (hP : P.Lawful) (hp : p ≤ xs.length) (h : (P.call xs r p).1 ≠ P.more)
    (ys : List β) : P.call (xs ++ ys) r p = P.call xs r p := by
  have hall := scan_grown (r := r) hP hp ys
  cases hscan : scan P.final (P.step xs) (P.load r) r p (xs.drop p) with
  | stop rc r' =>
    rw [hscan] at hall
    rw [call_of_stop hscan, call_of_stop hall]
  | exit st r' q =>
    cases hst : P.final st with
    | true =>
      rw [hscan] at hall
      change _ = scan P.final (P.step (xs ++ ys)) st r' q ys at hall
      rw [scan_of_final hst] at hall
      rw [call_of_final hst hscan, call_of_final hst hall]
    | false =>
      rw [call_of_exit hst hscan] at h
      exact absurd rfl h

/-- A call that goes on after it has asked for more gives what one call on
everything gives. -/
theorem call_resume (hP : P.Lawful) (hp : p ≤ xs.length) (h : (P.call xs r p).1 = P.more)
    (ys : List β) :
    P.Agree (P.call (xs ++ ys) (P.call xs r p).2.1 (P.call xs r p).2.2) (P.call (xs ++ ys) r p) := by
  obtain ⟨st, r₁, hst, hscan, hcall⟩ := call_more hP hp h
  have hall := scan_grown (r := r) hP hp ys
  rw [hscan] at hall
  change _ = scan P.final (P.step (xs ++ ys)) st r₁ xs.length ys at hall
  rw [hcall]
  show P.Agree (P.call (xs ++ ys) (P.save st r₁) xs.length) _
  have hagain : scan P.final (P.step (xs ++ ys)) (P.load (P.save st r₁)) (P.save st r₁) xs.length
      ((xs ++ ys).drop xs.length) =
      (scan P.final (P.step (xs ++ ys)) st r₁ xs.length ys).map (P.save st) := by
    rw [hP.load_save, List.drop_left]
    exact scan_map (fun st' r q x => hP.step_save (xs ++ ys) st' st r q x) _ _ _ _
  cases hrest : scan P.final (P.step (xs ++ ys)) st r₁ xs.length ys with
  | stop rc r₂ =>
    rw [hrest] at hall hagain
    rw [call_of_stop hall, call_of_stop hagain]
    have hrejects := scan_stop (C := P.rejects) (hP.stop (xs ++ ys)) hrest
    exact ⟨rfl, fun hrc => absurd hrejects hrc⟩
  | exit st' r₂ q =>
    rw [hrest] at hall hagain
    cases hst' : P.final st' with
    | true =>
      rw [call_of_final hst' hall, call_of_final hst' hagain, hP.finish_save]
      exact .refl _
    | false =>
      rw [call_of_exit hst' hall, call_of_exit hst' hagain, hP.save_save]
      exact .refl _

theorem call_le (hp : p ≤ xs.length) : (P.call xs r p).2.2 ≤ xs.length := by
  unfold call
  cases hscan : scan P.final (P.step xs) (P.load r) r p (xs.drop p) with
  | stop rc r' => exact hp
  | exit st r' q =>
    have hq := (scan_exit hscan).2.1
    rw [List.length_drop] at hq
    have hq : q ≤ xs.length := by omega
    dsimp only
    split
    · exact hq
    · exact hq

/-- Calls on the pieces of a list agree with one call on all of it. -/
theorem calls_agree [DecidableEq κ] (hP : P.Lawful) (ws : List (List β)) (hp : p ≤ xs.length) :
    P.Agree (P.calls xs r p ws) (P.call (xs ++ ws.flatten) r p) := by
  induction ws generalizing xs r p with
  | nil =>
    rw [List.flatten_nil, List.append_nil]
    exact .refl _
  | cons w ws ih =>
    unfold calls
    rw [List.flatten_cons]
    by_cases hmore : (P.call xs r p).1 = P.more
    · rw [if_pos hmore]
      have hle : (P.call xs r p).2.2 ≤ (xs ++ w).length := by
        have := call_le (P := P) (r := r) hp
        rw [List.length_append]
        omega
      apply (ih hle).trans
      rw [List.append_assoc]
      exact call_resume hP hp hmore (w ++ ws.flatten)
    · rw [if_neg hmore, call_append hP hp hmore]
      exact .refl _

end Parser

end Scanner
