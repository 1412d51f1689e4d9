import Ehttpd.Lib.Scanner
import Mathlib.Data.List.Basic

namespace Pattern

variable {β : Type} {C : β → Prop} {K K' : List β → Prop} {x : β} {xs : List β}

def eps (w : List β) : Prop := w = []

def one (C : β → Prop) (K : List β → Prop) (w : List β) : Prop := ∃ x v, w = x :: v ∧ C x ∧ K v

def many (C : β → Prop) (K : List β → Prop) (w : List β) : Prop :=
  ∃ u v, w = u ++ v ∧ (∀ x ∈ u, C x) ∧ K v

def alt (K K' : List β → Prop) (w : List β) : Prop := K w ∨ K' w

@[simp] theorem eps_nil : eps ([] : List β) := rfl

@[simp] theorem eps_cons : ¬ eps (x :: xs) := List.cons_ne_nil x xs

@[simp] theorem one_nil : ¬ one C K [] := by
  rintro ⟨x, v, heq, -⟩
  cases heq

@[simp] theorem one_cons : one C K (x :: xs) ↔ C x ∧ K xs := by
  constructor
  · rintro ⟨y, v, heq, hC, hK⟩
    cases heq
    exact ⟨hC, hK⟩
  · rintro ⟨hC, hK⟩
    exact ⟨x, xs, rfl, hC, hK⟩

@[simp] theorem alt_iff {w : List β} : alt K K' w ↔ K w ∨ K' w := Iff.rfl

@[simp] theorem many_nil : many C K [] ↔ K [] := by
  constructor
  · rintro ⟨u, v, heq, -, hK⟩
    obtain ⟨rfl, rfl⟩ := List.append_eq_nil_iff.1 heq.symm
    exact hK
  · intro hK
    exact ⟨[], [], rfl, by simp, hK⟩

@[simp] theorem many_cons : many C K (x :: xs) ↔ K (x :: xs) ∨ C x ∧ many C K xs := by
  constructor
  · rintro ⟨u, v, heq, hu, hK⟩
    cases u with
    | nil =>
      rw [List.nil_append] at heq
      rw [heq]
      exact Or.inl hK
    | cons y u =>
      obtain ⟨rfl, rfl⟩ := List.cons.inj heq
      exact Or.inr ⟨hu x List.mem_cons_self, u, v, rfl,
        fun z hz => hu z (List.mem_cons_of_mem _ hz), hK⟩
  · rintro (hK | ⟨hx, u, v, heq, hu, hK⟩)
    · exact ⟨[], x :: xs, rfl, by simp, hK⟩
    · refine ⟨x :: u, v, by rw [heq]; rfl, ?_, hK⟩
      intro z hz
      rcases List.mem_cons.1 hz with rfl | hz
      · exact hx
      · exact hu z hz

/-- Every list starts with a longest part in a class. -/
theorem exists_span (C : β → Prop) [DecidablePred C] (w : List β) :
    ∃ u v, w = u ++ v ∧ (∀ x ∈ u, C x) ∧ ∀ x v', v = x :: v' → ¬ C x := by
  induction w with
  | nil => exact ⟨[], [], rfl, by simp, by simp⟩
  | cons x w ih =>
    by_cases hx : C x
    · obtain ⟨u, v, rfl, hu, hv⟩ := ih
      refine ⟨x :: u, v, rfl, ?_, hv⟩
      intro y hy
      rcases List.mem_cons.1 hy with rfl | hy
      · exact hx
      · exact hu y hy
    · refine ⟨[], x :: w, rfl, by simp, ?_⟩
      intro y v' heq
      rw [← (List.cons.inj heq).1]
      exact hx

/-- There is only one such part. -/
theorem span_unique {u u' v v' : List β} {y : β} (hu : ∀ z ∈ u, C z) (hx : ¬ C x)
    (hu' : ∀ z ∈ u', C z) (hy : ¬ C y) (h : u ++ x :: v = u' ++ y :: v') :
    u = u' ∧ x = y ∧ v = v' := by
  induction u generalizing u' with
  | nil =>
    cases u' with
    | nil =>
      obtain ⟨rfl, rfl⟩ := List.cons.inj h
      exact ⟨rfl, rfl, rfl⟩
    | cons z u' =>
      obtain ⟨rfl, -⟩ := List.cons.inj h
      exact absurd (hu' x List.mem_cons_self) hx
  | cons z u ih =>
    cases u' with
    | nil =>
      obtain ⟨rfl, -⟩ := List.cons.inj h
      exact absurd (hu z List.mem_cons_self) hy
    | cons z' u' =>
      obtain ⟨rfl, htail⟩ := List.cons.inj h
      obtain ⟨rfl, hxy, hv⟩ := ih (fun a ha => hu a (List.mem_cons_of_mem _ ha))
        (fun a ha => hu' a (List.mem_cons_of_mem _ ha)) htail
      exact ⟨rfl, hxy, hv⟩

end Pattern

namespace Scanner

variable {σ ρ κ β : Type}

def Step.state : Step σ ρ κ → Option σ
  | .next st _ => some st
  | .stop _ _ => none

section

variable {P : σ → Prop} {st : σ} {r : ρ} {rc : κ}

@[simp] theorem state_next :
    (∃ s, (Step.next st r : Step σ ρ κ).state = some s ∧ P s) ↔ P st := by
  simp [Step.state]

@[simp] theorem state_stop : ¬ ∃ s, (Step.stop rc r : Step σ ρ κ).state = some s ∧ P s := by
  simp [Step.state]

@[simp] theorem state_ite {c : Prop} [Decidable c] {a b : Step σ ρ κ} :
    (∃ s, (if c then a else b).state = some s ∧ P s) ↔
      if c then ∃ s, a.state = some s ∧ P s else ∃ s, b.state = some s ∧ P s := by
  split <;> rfl

end

section Leads

variable {final : σ → Bool} {next : σ → β → Option σ} {st st' s f : σ} {u v w : List β} {x : β}

/-- `w` leads from one state to another, and through no final state before its end. -/
def Leads (final : σ → Bool) (next : σ → β → Option σ) : σ → List β → σ → Prop
  | st, [], st' => st' = st
  | st, x :: xs, st' => final st = false ∧ ∃ s, next st x = some s ∧ Leads final next s xs st'

theorem Leads.unique (h : Leads final next st w st') (h' : Leads final next st w s) : st' = s := by
  induction w generalizing st with
  | nil => exact h.trans h'.symm
  | cons x w ih =>
    obtain ⟨-, t, ht, hrest⟩ := h
    obtain ⟨-, t', ht', hrest'⟩ := h'
    rw [ht] at ht'
    cases ht'
    exact ih hrest hrest'

theorem Leads.append (h : Leads final next st u s) (h' : Leads final next s v st') :
    Leads final next st (u ++ v) st' := by
  induction u generalizing st with
  | nil =>
    rw [show s = st from h] at h'
    exact h'
  | cons x u ih =>
    obtain ⟨hf, t, ht, hrest⟩ := h
    exact ⟨hf, t, ht, ih hrest⟩

theorem Leads.split (h : Leads final next st (u ++ v) st') :
    ∃ s, Leads final next st u s ∧ Leads final next s v st' := by
  induction u generalizing st with
  | nil => exact ⟨st, rfl, h⟩
  | cons x u ih =>
    obtain ⟨hf, t, ht, hrest⟩ := h
    obtain ⟨s, hs, hs'⟩ := ih hrest
    exact ⟨s, ⟨hf, t, ht, hs⟩, hs'⟩

theorem Leads.nil_of_final (h : Leads final next st w st') (hst : final st = true) : w = [] := by
  cases w with
  | nil => rfl
  | cons x w => exact absurd (hst.symm.trans h.1) (by simp)

theorem Leads.nil_of_append (h : Leads final next st u f) (hf : final f = true)
    (h' : Leads final next st (u ++ v) st') : v = [] := by
  obtain ⟨s, hs, hs'⟩ := h'.split
  rw [h.unique hs] at hf
  exact hs'.nil_of_final hf

/-- Patterns that satisfy the equations of an automaton are its paths to `f`. -/
theorem leads_iff {L : σ → List β → Prop}
    (hnil : ∀ st, L st [] ↔ st = f)
    (hcons : ∀ st x xs, L st (x :: xs) ↔
      final st = false ∧ ∃ s, next st x = some s ∧ L s xs) :
    Leads final next st w f ↔ L st w := by
  induction w generalizing st with
  | nil =>
    rw [hnil]
    exact eq_comm
  | cons x w ih =>
    rw [hcons]
    constructor
    · rintro ⟨hst, s, hs, hrest⟩
      exact ⟨hst, s, hs, ih.1 hrest⟩
    · rintro ⟨hst, s, hs, hrest⟩
      exact ⟨hst, s, hs, ih.2 hrest⟩

end Leads

section Outcomes

variable {final : σ → Bool} {step : σ → ρ → Nat → β → Step σ ρ κ} {next : σ → β → Option σ}
  {I : ρ → Prop} {st st' : σ} {r r' : ρ} {p p' : Nat} {u v w : List β} {rc : κ}

/-- `next` is the control of the scanner, as long as its record satisfies `I`. -/
structure Controls (final : σ → Bool) (step : σ → ρ → Nat → β → Step σ ρ κ)
    (next : σ → β → Option σ) (I : ρ → Prop) : Prop where
  state : ∀ st r p x, I r → (step st r p x).state = next st x
  keeps : ∀ st r p x st' r', I r → step st r p x = .next st' r' → I r'

/-- A scan along a path. -/
theorem Leads.scan (hc : Controls final step next I) (hr : I r)
    (h : Leads final next st u st') : ∃ r', I r' ∧ ∀ v,
      scan final step st r p (u ++ v) = Scanner.scan final step st' r' (p + u.length) v := by
  induction u generalizing st r p with
  | nil =>
    refine ⟨r, hr, fun v => ?_⟩
    rw [show st' = st from h]
    rfl
  | cons x u ih =>
    obtain ⟨hst, s, hs, hrest⟩ := h
    have hstate := hc.state st r (p + 1) x hr
    rw [hs] at hstate
    cases hstep : step st r (p + 1) x with
    | next s' r₁ =>
      rw [hstep] at hstate
      cases hstate
      obtain ⟨r', hr', hscan⟩ := ih (p := p + 1) (hc.keeps _ _ _ _ _ _ hr hstep) hrest
      refine ⟨r', hr', fun v => ?_⟩
      rw [List.cons_append, Scanner.scan, if_neg (by simp [hst]), hstep]
      simp only
      rw [hscan, List.length_cons, Nat.add_assoc, Nat.add_comm 1]
    | stop rc r₁ =>
      rw [hstep] at hstate
      cases hstate

/-- A scan that ends with a state has followed a path to it. -/
theorem leads_of_exit (hc : Controls final step next I) (hr : I r)
    (h : scan final step st r p w = .exit st' r' p') :
    ∃ u v, w = u ++ v ∧ Leads final next st u st' ∧ p' = p + u.length ∧
      (final st' = true ∨ v = []) := by
  induction w generalizing st r p with
  | nil =>
    cases h
    exact ⟨[], [], rfl, rfl, rfl, Or.inr rfl⟩
  | cons x w ih =>
    cases hf : final st with
    | true =>
      rw [scan_of_final hf] at h
      cases h
      exact ⟨[], x :: w, rfl, rfl, rfl, Or.inl hf⟩
    | false =>
      rw [scan, if_neg (by simp [hf])] at h
      have hstate := hc.state st r (p + 1) x hr
      cases hstep : step st r (p + 1) x with
      | next s r₁ =>
        rw [hstep] at h hstate
        obtain ⟨u, v, hw, hleads, hp, hend⟩ := ih (hc.keeps _ _ _ _ _ _ hr hstep) h
        refine ⟨x :: u, v, by rw [hw]; rfl, ⟨hf, s, hstate.symm, hleads⟩, ?_, hend⟩
        rw [hp, List.length_cons]
        omega
      | stop rc r₁ =>
        rw [hstep] at h
        cases h

theorem exit_iff {f : σ} (hc : Controls final step next I) (hr : I r) (hf : final f = true) :
    (∃ r', scan final step st r p w = .exit f r' p') ↔
      ∃ u, u <+: w ∧ Leads final next st u f ∧ p' = p + u.length := by
  constructor
  · rintro ⟨r', h⟩
    obtain ⟨u, v, hw, hleads, hp, -⟩ := leads_of_exit hc hr h
    exact ⟨u, ⟨v, hw.symm⟩, hleads, hp⟩
  · rintro ⟨u, ⟨v, hw⟩, hleads, hp⟩
    obtain ⟨r', -, hscan⟩ := hleads.scan (p := p) hc hr
    refine ⟨r', ?_⟩
    rw [← hw, hscan, scan_of_final hf, hp]

def Live (final : σ → Bool) (next : σ → β → Option σ) : Prop :=
  ∀ st, ∃ w f, final f = true ∧ Leads final next st w f

/-- A scan asks for more exactly when the list can be continued to a final state and
has not passed one. -/
theorem more_iff (hc : Controls final step next I) (hr : I r) (hlive : Live final next) :
    (∃ st' r' p', final st' = false ∧ scan final step st r p w = .exit st' r' p') ↔
      ∃ v f, v ≠ [] ∧ final f = true ∧ Leads final next st (w ++ v) f := by
  constructor
  · rintro ⟨st', r', p', hst', h⟩
    obtain ⟨u, v, hw, hleads, -, hend⟩ := leads_of_exit hc hr h
    rcases hend with hend | rfl
    · rw [hst'] at hend
      cases hend
    · rw [List.append_nil] at hw
      subst hw
      obtain ⟨v, f, hf, hv⟩ := hlive st'
      refine ⟨v, f, ?_, hf, hleads.append hv⟩
      rintro rfl
      rw [show f = st' from hv, hst'] at hf
      cases hf
  · rintro ⟨v, f, hv, hf, hleads⟩
    obtain ⟨s, hs, hs'⟩ := hleads.split
    obtain ⟨r', -, hscan⟩ := hs.scan (p := p) hc hr
    have hend := hscan []
    rw [List.append_nil] at hend
    refine ⟨s, r', p + w.length, ?_, hend⟩
    cases hfs : final s with
    | false => rfl
    | true => exact absurd (hs'.nil_of_final hfs) hv

theorem scan_many {C : β → Prop} (hst : final st = false)
    (hstep : ∀ x, C x → ∀ p, step st r p x = .next st r) (hu : ∀ x ∈ u, C x) (p : Nat) :
    scan final step st r p (u ++ v) = scan final step st r (p + u.length) v := by
  induction u generalizing p with
  | nil => rfl
  | cons x u ih =>
    rw [List.cons_append, scan, if_neg (by simp [hst]), hstep x (hu x List.mem_cons_self)]
    simp only
    rw [ih (fun y hy => hu y (List.mem_cons_of_mem _ hy)), List.length_cons, Nat.add_assoc,
      Nat.add_comm 1]

end Outcomes

end Scanner
