import Ehttpd.Event.Loop

namespace Ehd

open Program Http

variable {σ : Cycle} {w : World} {i j : Nat} {event flags : UInt32}

inductive EventOp
  | add (event flags : UInt32)
  | mod (event flags : UInt32)
  | del (event flags : UInt32)
  deriving DecidableEq, Repr

def EventOp.call : EventOp → Handler Rc
  | .add event flags => Event.epollAdd event flags
  | .mod event flags => Event.epollMod event flags
  | .del event flags => Event.epollDel event flags

inductive CtlOp
  | add | mod | del
  deriving DecidableEq, Repr

/-- The operation that a call gives to `epoll_ctl`, when it gets there. -/
def EventOp.ctl (ev : Event) : EventOp → Option CtlOp
  | .add _ _ => some (if ev.active then .mod else .add)
  | .mod _ _ => some .mod
  | .del _ flags => if flags = EHD_CLOSE_EVENT then none else some .del

/-- Whether `epoll_ctl` can succeed on an entry: `EEXIST` and `ENOENT` aside. -/
def CtlOp.Applies (entry : Option Interest) : CtlOp → Prop
  | .add => entry = none
  | .mod | .del => entry ≠ none

instance (entry : Option Interest) : (op : CtlOp) → Decidable (op.Applies entry)
  | .add => inferInstanceAs (Decidable (entry = none))
  | .mod => inferInstanceAs (Decidable (entry ≠ none))
  | .del => inferInstanceAs (Decidable (entry ≠ none))

/-- A call on the event of a slot, with what it meets: whether `epoll_ctl` succeeds, and the bits
that are in the variable `active` of `ehd_event_epoll_del`. -/
structure EventCall where
  slot : Nat
  op : EventOp
  answer : Bool
  unset : Bool
  deriving DecidableEq, Repr

def EventCall.kernel (x : EventCall) (k : Kernel) : Kernel :=
  { k with epollOk := fun _ => x.answer, unsetActive := x.unset }

def EventCall.step (x : EventCall) (σ : Cycle) : Cycle :=
  after (atSlot x.slot x.op.call) { σ with k := x.kernel σ.k }

/-- `epoll_ctl` does not add an entry that is there, and does not change or delete one that is
not. -/
def EventCall.Honest (σ : Cycle) (x : EventCall) : Prop :=
  x.answer = true → ∀ op ∈ x.op.ctl (σ.slots x.slot).c.ev,
    op.Applies (σ.k.interest (σ.slots x.slot).c.fd)

instance (σ : Cycle) (x : EventCall) : Decidable (x.Honest σ) :=
  inferInstanceAs (Decidable (x.answer = true → ∀ op ∈ x.op.ctl (σ.slots x.slot).c.ev,
    op.Applies (σ.k.interest (σ.slots x.slot).c.fd)))

/-- A property of every call of a sequence, and the table it is made on. -/
def Along (P : Cycle → EventCall → Prop) : Cycle → List EventCall → Prop
  | _, [] => True
  | σ, x :: xs => P σ x ∧ Along P (x.step σ) xs

instance decidableAlong {P : Cycle → EventCall → Prop} [∀ σ x, Decidable (P σ x)] :
    (σ : Cycle) → (xs : List EventCall) → Decidable (Along P σ xs)
  | _, [] => isTrue trivial
  | σ, x :: xs => @instDecidableAnd _ _ _ (decidableAlong (x.step σ) xs)

structure Mirrors (w : World) : Prop where
  active : w.c.ev.active = true ↔ w.k.interest w.c.fd ≠ none
  events : ∀ entry, w.k.interest w.c.fd = some entry → w.c.ev.events = entry.mask

/-- A call leaves every event true to epoll, its own untouched where `epoll_ctl` has failed, and
the next `ehd_event_epoll_add` with the right operation. -/
structure Faithful (used : Nat → Prop) (σ : Cycle) (x : EventCall) : Prop where
  mirrors : ∀ i, used i → Mirrors ((x.step σ).world i)
  failed : x.answer = false →
    ((x.step σ).slots x.slot).c.ev.active = (σ.slots x.slot).c.ev.active ∧
      ((x.step σ).slots x.slot).c.ev.events = (σ.slots x.slot).c.ev.events
  chooses : ∀ i, used i → ∀ event flags, ∀ op ∈ (EventOp.add event flags).ctl
    ((x.step σ).slots i).c.ev, op.Applies ((x.step σ).k.interest ((x.step σ).slots i).c.fd)

/-- A call that fails has nothing to store, and one that deletes finds the bit 0. -/
def EventCall.Harmless (σ : Cycle) (x : EventCall) : Prop :=
  match x.op with
  | .add event flags => x.answer = true ∨
      (σ.slots x.slot).c.ev.active = true ∧ (σ.slots x.slot).c.ev.events = event ||| flags
  | .mod event flags => x.answer = true ∨ (σ.slots x.slot).c.ev.events = event ||| flags
  | .del _ flags => flags = EHD_CLOSE_EVENT ∨ x.answer = false ∨ x.unset = false

instance (σ : Cycle) : (x : EventCall) → Decidable (x.Harmless σ)
  | ⟨_, .add _ _, _, _⟩ => inferInstanceAs (Decidable (_ ∨ _ ∧ _))
  | ⟨_, .mod _ _, _, _⟩ => inferInstanceAs (Decidable (_ ∨ _))
  | ⟨_, .del _ _, _, _⟩ => inferInstanceAs (Decidable (_ ∨ _ ∨ _))

@[simps!] def World.answered (w : World) (entry : Option Interest) (ok : Bool) : World :=
  w.onK fun k => { k with
    epolls := k.epolls + 1
    interest := if ok then Function.update k.interest w.c.fd entry else k.interest }

def EventOp.outcome (w : World) (ok : Bool) : EventOp → World
  | .add event flags => (w.onEv fun ev => { ev with
      active := true, events := event ||| flags }).answered
        (some ⟨event ||| flags, w.c.slot, w.c.id⟩) ok
  | .mod event flags => (w.onEv fun ev => { ev with events := event ||| flags }).answered
      (some ⟨event ||| flags, w.c.slot, w.c.id⟩) ok
  | .del _ flags =>
    if flags = EHD_CLOSE_EVENT then w
    else if ok then
      (w.answered none true).onEv fun ev => { ev with active := w.k.unsetActive }
    else w.answered none false

theorem wp_epollCtl {entry : Option Interest} {Q : Bool → World → Prop} {E : Stop → World → Prop} :
    wp (epollCtl entry) Q E w ↔
      Q (w.k.epollOk w.k.epolls) (w.answered entry (w.k.epollOk w.k.epolls)) := by
  unfold epollCtl
  simp only [wp_bind, wp_get, wp_set]
  cases h : w.k.epollOk w.k.epolls
  · rfl
  · rfl

theorem after_call (op : EventOp) (w : World) :
    after op.call w = op.outcome w (w.k.epollOk w.k.epolls) := by
  apply wp_after (P := fun w' => w' = op.outcome w (w.k.epollOk w.k.epolls))
  cases op with
  | add event flags =>
    show wp (Event.epollAdd event flags) _ _ w
    simp only [Event.epollAdd, wp_bind, wp_modify, wp_get, wp_epollCtl, wp_ite, wp_pure]
    exact ⟨fun _ => rfl, fun _ => rfl⟩
  | mod event flags =>
    show wp (Event.epollMod event flags) _ _ w
    simp only [Event.epollMod, wp_bind, wp_modify, wp_get, wp_epollCtl, wp_ite, wp_pure]
    exact ⟨fun _ => rfl, fun _ => rfl⟩
  | del event flags =>
    show wp (Event.epollDel event flags) _ _ w
    simp only [Event.epollDel, wp_bind, wp_modify, wp_epollCtl, wp_ite, wp_pure]
    constructor
    · intro hclose
      exact (if_pos hclose).symm
    · intro hclose
      constructor
      · intro hok
        simp only [EventOp.outcome, if_neg hclose, hok]
        rfl
      · intro hok
        simp only [EventOp.outcome, if_neg hclose, Bool.eq_false_iff.2 hok]
        rfl

theorem step_eq (x : EventCall) (σ : Cycle) :
    x.step σ = { σ with k := x.kernel σ.k }.put x.slot
      (x.op.outcome ({ σ with k := x.kernel σ.k }.world x.slot) x.answer) := by
  have hcall := after_call x.op ({ σ with k := x.kernel σ.k }.world x.slot)
  rw [← show ({ σ with k := x.kernel σ.k }.world x.slot).k.epollOk
    ({ σ with k := x.kernel σ.k }.world x.slot).k.epolls = x.answer from rfl, ← hcall]
  exact after_zoom _ _

/-- Neither the descriptor nor what epoll has of other descriptors changes. -/
theorem outcome_frame (op : EventOp) (w : World) (ok : Bool) :
    (op.outcome w ok).c.fd = w.c.fd ∧
      ∀ fd, fd ≠ w.c.fd → (op.outcome w ok).k.interest fd = w.k.interest fd := by
  have hanswered : ∀ (w : World) entry ok fd, fd ≠ w.c.fd →
      (w.answered entry ok).k.interest fd = w.k.interest fd := by
    intro w entry ok fd hfd
    show (if ok then Function.update w.k.interest w.c.fd entry else w.k.interest) fd = _
    split
    · exact Function.update_of_ne hfd _ _
    · rfl
  cases op with
  | add event flags => exact ⟨rfl, fun fd hfd => hanswered _ _ _ fd hfd⟩
  | mod event flags => exact ⟨rfl, fun fd hfd => hanswered _ _ _ fd hfd⟩
  | del event flags =>
    simp only [EventOp.outcome]
    split
    · exact ⟨rfl, fun _ _ => rfl⟩
    · split
      · exact ⟨rfl, fun fd hfd => hanswered _ _ _ fd hfd⟩
      · exact ⟨rfl, fun fd hfd => hanswered _ _ _ fd hfd⟩

theorem mirrors_of_entry {entry : Interest} (hactive : w.c.ev.active = true)
    (hentry : w.k.interest w.c.fd = some entry) (hevents : w.c.ev.events = entry.mask) :
    Mirrors w where
  active := by
    apply iff_of_true hactive
    rw [hentry]
    exact Option.some_ne_none entry
  events := by
    intro entry' hentry'
    rw [hentry] at hentry'
    rw [← Option.some.inj hentry']
    exact hevents

/-- A call keeps an event true to epoll, and leaves it alone when `epoll_ctl` fails. -/
structure Kept (w w' : World) (ok : Bool) : Prop where
  mirrors : Mirrors w'
  failed : ok = false →
    w'.c.ev.active = w.c.ev.active ∧ w'.c.ev.events = w.c.ev.events

section Outcome

variable {ok : Bool}

theorem add_kept_iff (h : Mirrors w) : Kept w ((EventOp.add event flags).outcome w ok) ok ↔
    ok = true ∨ w.c.ev.active = true ∧ w.c.ev.events = event ||| flags := by
  cases ok with
  | true =>
    apply iff_of_true _ (Or.inl rfl)
    constructor
    · exact mirrors_of_entry rfl (Function.update_self _ _ _) rfl
    · intro hok
      cases hok
  | false =>
    constructor
    · intro hkept
      obtain ⟨hactive, hevents⟩ := hkept.failed rfl
      exact Or.inr ⟨hactive.symm, hevents.symm⟩
    · intro hok
      obtain ⟨hactive, hevents⟩ := hok.resolve_left (by decide)
      constructor
      · constructor
        · exact iff_of_true rfl (h.active.1 hactive)
        · intro entry hentry
          exact hevents.symm.trans (h.events entry hentry)
      · intro _
        exact ⟨hactive.symm, hevents.symm⟩

theorem mod_kept_iff (h : Mirrors w) (hhonest : ok = true → w.k.interest w.c.fd ≠ none) :
    Kept w ((EventOp.mod event flags).outcome w ok) ok ↔
      ok = true ∨ w.c.ev.events = event ||| flags := by
  cases ok with
  | true =>
    apply iff_of_true _ (Or.inl rfl)
    constructor
    · exact mirrors_of_entry (h.active.2 (hhonest rfl)) (Function.update_self _ _ _) rfl
    · intro hok
      cases hok
  | false =>
    constructor
    · intro hkept
      exact Or.inr (hkept.failed rfl).2.symm
    · intro hok
      have hevents := hok.resolve_left (by decide)
      constructor
      · constructor
        · exact h.active
        · intro entry hentry
          exact hevents.symm.trans (h.events entry hentry)
      · intro _
        exact ⟨rfl, hevents.symm⟩

theorem del_kept_iff (h : Mirrors w) : Kept w ((EventOp.del event flags).outcome w ok) ok ↔
    flags = EHD_CLOSE_EVENT ∨ ok = false ∨ w.k.unsetActive = false := by
  by_cases hclose : flags = EHD_CLOSE_EVENT
  · rw [show (EventOp.del event flags).outcome w ok = w from if_pos hclose]
    exact iff_of_true ⟨h, fun _ => ⟨rfl, rfl⟩⟩ (Or.inl hclose)
  · cases ok with
    | true =>
      have hgone : (EventOp.del event flags).outcome w true = (w.answered none true).onEv
          fun ev => { ev with active := w.k.unsetActive } := if_neg hclose
      have hnone : (w.answered none true).k.interest w.c.fd = none := Function.update_self _ _ _
      rw [hgone]
      constructor
      · intro hkept
        refine Or.inr (Or.inr ?_)
        have hactive := mt hkept.mirrors.active.1 (fun hne => hne hnone)
        exact Bool.eq_false_iff.2 hactive
      · intro hok
        have hunset := (hok.resolve_left hclose).resolve_left (by decide)
        constructor
        · constructor
          · apply iff_of_false
            · show ¬ w.k.unsetActive = true
              rw [hunset]
              decide
            · exact fun hne => hne hnone
          · intro entry hentry
            exact absurd (hnone.symm.trans hentry) (by simp)
        · intro hok
          cases hok
    | false =>
      have hsame : (EventOp.del event flags).outcome w false = w.answered none false :=
        if_neg hclose
      rw [hsame]
      exact iff_of_true ⟨⟨h.active, h.events⟩, fun _ => ⟨rfl, rfl⟩⟩ (Or.inr (Or.inl rfl))

end Outcome

/-- The events of open descriptors, each with a descriptor of its own. -/
def OwnDescriptors (used : Nat → Prop) (σ : Cycle) : Prop :=
  ∀ i j, used i → used j → i ≠ j → (σ.slots i).c.fd ≠ (σ.slots j).c.fd

variable {used : Nat → Prop} {x : EventCall}

theorem step_world_self (x : EventCall) (σ : Cycle) :
    (x.step σ).world x.slot =
      x.op.outcome ({ σ with k := x.kernel σ.k }.world x.slot) x.answer := by
  rw [step_eq]
  unfold Cycle.world Cycle.put
  simp only [Function.update_self]
  cases x.op with
  | add event flags => rfl
  | mod event flags => rfl
  | del event flags =>
    simp only [EventOp.outcome]
    split
    · rfl
    · split
      · rfl
      · rfl

theorem step_fd (x : EventCall) (σ : Cycle) (i : Nat) :
    ((x.step σ).slots i).c.fd = (σ.slots i).c.fd := by
  by_cases hi : i = x.slot
  · subst hi
    show ((x.step σ).world x.slot).c.fd = _
    rw [step_world_self]
    exact (outcome_frame _ _ _).1
  · rw [step_eq]
    show (Function.update σ.slots x.slot _ i).c.fd = _
    rw [Function.update_of_ne hi]

/-- The events of other slots, and what epoll has of them, stay. -/
theorem step_mirrors_of_ne (h : OwnDescriptors used σ) (hx : used x.slot) (hi : used i)
    (hne : i ≠ x.slot) (hm : Mirrors (σ.world i)) : Mirrors ((x.step σ).world i) := by
  have hc : ((x.step σ).world i).c = (σ.world i).c := by
    rw [step_eq]
    show (Function.update σ.slots x.slot _ i).c = _
    rw [Function.update_of_ne hne]
    rfl
  have hk : (x.step σ).k.interest (σ.slots i).c.fd = σ.k.interest (σ.slots i).c.fd := by
    rw [step_eq]
    exact (outcome_frame _ _ _).2 _ (h i x.slot hi hx hne)
  constructor
  · rw [hc]
    show _ ↔ (x.step σ).k.interest (σ.slots i).c.fd ≠ none
    rw [hk]
    exact hm.active
  · intro entry hentry
    rw [hc] at hentry ⊢
    exact hm.events entry (hk.symm.trans hentry)

theorem Mirrors.chooses (h : Mirrors w) : ∀ op ∈ (EventOp.add event flags).ctl w.c.ev,
    op.Applies (w.k.interest w.c.fd) := by
  intro op hop
  obtain rfl := Option.some.inj hop
  split
  · rename_i hactive
    exact h.active.1 hactive
  · rename_i hactive
    by_contra hne
    exact hactive (h.active.2 hne)

theorem kept_iff_harmless (hm : Mirrors (σ.world x.slot)) (hhonest : x.Honest σ) :
    Kept (σ.world x.slot) ((x.step σ).world x.slot) x.answer ↔ x.Harmless σ := by
  have hm' : Mirrors ({ σ with k := x.kernel σ.k }.world x.slot) := ⟨hm.active, hm.events⟩
  have hsame : Kept (σ.world x.slot) ((x.step σ).world x.slot) x.answer ↔
      Kept ({ σ with k := x.kernel σ.k }.world x.slot)
        (x.op.outcome ({ σ with k := x.kernel σ.k }.world x.slot) x.answer) x.answer := by
    rw [step_world_self]
    exact ⟨fun h => ⟨h.mirrors, h.failed⟩, fun h => ⟨h.mirrors, h.failed⟩⟩
  rw [hsame]
  unfold EventCall.Harmless
  unfold EventCall.Honest at hhonest
  cases hop : x.op with
  | add event flags => exact add_kept_iff hm'
  | mod event flags =>
    rw [hop] at hhonest
    exact mod_kept_iff hm' fun hok => hhonest hok .mod rfl
  | del event flags => exact del_kept_iff hm'

theorem faithful_iff (h : OwnDescriptors used σ) (hm : ∀ i, used i → Mirrors (σ.world i))
    (hx : used x.slot) (hhonest : x.Honest σ) : Faithful used σ x ↔ x.Harmless σ := by
  rw [← kept_iff_harmless (hm _ hx) hhonest]
  constructor
  · intro hf
    exact ⟨hf.mirrors _ hx, hf.failed⟩
  · intro hk
    have hall : ∀ i, used i → Mirrors ((x.step σ).world i) := by
      intro i hi
      by_cases hne : i = x.slot
      · rw [hne]
        exact hk.mirrors
      · exact step_mirrors_of_ne h hx hi hne (hm i hi)
    exact ⟨hall, hk.failed, fun i hi _ _ => (hall i hi).chooses⟩

/-- Over a sequence of calls, from events that say what epoll has, the flags stay true to
epoll when every call is harmless, and only then. -/
theorem active_mirrors_interest (used : Nat → Prop) (σ : Cycle) (xs : List EventCall)
    (hown : OwnDescriptors used σ) (hm : ∀ i, used i → Mirrors (σ.world i))
    (hused : ∀ x ∈ xs, used x.slot) (hhonest : Along (fun σ x => x.Honest σ) σ xs) :
    Along (Faithful used) σ xs ↔ Along (fun σ x => x.Harmless σ) σ xs := by
  induction xs generalizing σ with
  | nil => exact Iff.rfl
  | cons x xs ih =>
    obtain ⟨hx, hxs⟩ := hhonest
    have hone := faithful_iff hown hm (hused x List.mem_cons_self) hx
    have hown' : OwnDescriptors used (x.step σ) := by
      intro i j hi hj hne
      rw [step_fd, step_fd]
      exact hown i j hi hj hne
    have hrest : ∀ hf : Faithful used σ x, Along (Faithful used) (x.step σ) xs ↔
        Along (fun σ x => x.Harmless σ) (x.step σ) xs := fun hf =>
      ih (x.step σ) hown' hf.mirrors (fun y hy => hused y (List.mem_cons_of_mem _ hy)) hxs
    constructor
    · intro h
      exact ⟨hone.1 h.1, (hrest h.1).1 h.2⟩
    · intro h
      exact ⟨hone.2 h.1, (hrest (hone.2 h.1)).2 h.2⟩

theorem own_descriptor (σ : Cycle) (i : Nat) : OwnDescriptors (· = i) σ :=
  fun _ _ hi hj hne => absurd (hi.trans hj.symm) hne

theorem listening_mirrors : ∀ i, i = 3 → Mirrors (sampleCycle.world i) := by
  intro i hi
  subst hi
  exact ⟨by decide, by decide⟩

/-- Registered, changed, changed without success to what it was, deleted and registered again. -/
def harmlessCalls : List EventCall :=
  [⟨3, .add EHD_READ_EVENT EPOLLET, true, true⟩, ⟨3, .mod EHD_WRITE_EVENT EPOLLET, true, true⟩,
    ⟨3, .mod EHD_WRITE_EVENT EPOLLET, false, true⟩, ⟨3, .del EHD_READ_EVENT 0, true, false⟩,
    ⟨3, .add EHD_READ_EVENT EPOLLET, true, true⟩]

theorem active_mirrors_interest_calls : Along (Faithful (· = 3)) sampleCycle harmlessCalls :=
  (active_mirrors_interest (· = 3) sampleCycle harmlessCalls (own_descriptor _ 3)
    listening_mirrors (by decide) (by decide)).2 (by decide)

/-- `epoll_ctl` fails once, and the event counts as registered. -/
theorem failed_add_stays_active : ¬ ∀ (used : Nat → Prop) (σ : Cycle) (xs : List EventCall),
    OwnDescriptors used σ → (∀ i, used i → Mirrors (σ.world i)) → (∀ x ∈ xs, used x.slot) →
      Along (fun σ x => x.Honest σ) σ xs → Along (Faithful used) σ xs := by
  intro h
  have hfaithful := h (· = 3) sampleCycle [⟨3, .add EHD_READ_EVENT EPOLLET, false, false⟩]
    (own_descriptor _ 3) listening_mirrors (by decide) (by decide)
  have hactive := (hfaithful.1.mirrors 3 rfl).active
  revert hactive
  decide

end Ehd
