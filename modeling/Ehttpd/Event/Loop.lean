import Ehttpd.Event.Cycle
import Ehttpd.Http.Confined

namespace Ehd

open Program Http

variable {σ σ' : Cycle} {w : World} {i j l : Nat} {e : EpollEvent} {es : List EpollEvent}

/-- The connection of slot `i`: its descriptor is `i`, open and registered, and it listens or is in
order. -/
structure Owns (i : Nat) (w : World) : Prop where
  fd : w.c.fd = i
  slot : w.c.slot = i
  rooted : Rooted w
  serves : w.c.readHandler = .eventAccept ∧ w.c.ev.events = readMask ∨ InLoop w

structure Known (σ : Cycle) : Prop where
  reliable : σ.k.Reliable
  negative : σ.k.interest (-1) = none
  interest : ∀ fd it, σ.k.interest fd = some it → ∃ i : Nat, fd = i ∧ (σ.slots i).c.fd ≠ -1

structure Orderly (σ : Cycle) : Prop extends Known σ where
  owned : ∀ i, (σ.slots i).c.fd ≠ -1 → Owns i (σ.world i)

/-- Each handler was called for the connection that was registered, and open, and no open slot was
cleared. -/
structure Heard (σ : Cycle) : Prop where
  calls : ∀ x ∈ σ.calls, x.fd ≠ -1 ∧ x.holds = x.registered
  cleared : ∀ fd ∈ σ.cleared, fd = -1

/-- The entries wait for slots of their own, which hold the connections they are for. -/
structure Due (σ : Cycle) (es : List EpollEvent) : Prop where
  once : (es.map (·.slot)).Nodup
  held : ∀ e ∈ es, (σ.slots e.slot).c.fd ≠ -1 ∧ (σ.slots e.slot).c.id = e.conn ∧
    Registered (σ.world e.slot) e.events

theorem natCast_ne_neg_one (i : Nat) : (i : Int) ≠ -1 := by omega

theorem Owns.open (h : Owns i w) : w.c.fd ≠ -1 := by
  rw [h.fd]
  exact natCast_ne_neg_one i

theorem Owns.mask (h : Owns i w) :
    w.c.ev.events = readMask ∨ w.c.ev.events = writeMask ∧ Responding w := by
  rcases h.serves with ⟨-, hmask⟩ | hc | hc | hc | hc | hc
  · exact Or.inl hmask
  · exact absurd hc.fd h.open
  · exact Or.inl hc.mask
  · exact Or.inl hc.mask
  · exact Or.inl hc.mask
  · exact Or.inr ⟨hc.mask, hc⟩

theorem Owns.elsewhere {k : Kernel} (h : Owns j w) (hne : j ≠ i) (ha : Apart i w.k k) :
    Owns j { w with k := k } := by
  have hfd : w.c.fd ≠ i := by
    rw [h.fd]
    omega
  refine ⟨h.fd, h.slot, ⟨?_, ?_⟩, ?_⟩
  · exact ha.opened _ h.open hfd h.rooted.opened
  · show k.interest w.c.fd = _
    rw [ha.interest _ h.open hfd]
    exact h.rooted.interest
  · rcases h.serves with hl | hc
    · exact Or.inl hl
    · exact Or.inr (InLoop.onKernel hc ha.pools)

namespace Cycle

theorem world_put_self (h : w.conf = σ.conf) : (σ.put i w).world i = w := by
  unfold world put
  simp only [Function.update_self]
  rw [← h]

theorem slots_put_self : (σ.put i w).slots i = ⟨w.c, w.hc, w.r, w.t⟩ := Function.update_self _ _ _

theorem slots_put_ne (h : j ≠ i) : (σ.put i w).slots j = σ.slots j := Function.update_of_ne h _ _

theorem world_put_ne (h : j ≠ i) : (σ.put i w).world j = { σ.world j with k := w.k } := by
  unfold world
  rw [slots_put_ne h]
  rfl

theorem put_put (σ : Cycle) (i : Nat) (w w' : World) : (σ.put i w).put i w' = σ.put i w' := by
  unfold put
  rw [Function.update_idem]

end Cycle

open Ehd.Cycle

@[simp] theorem wp_atSlot {α : Type} {x : Handler α} {Q : α → Cycle → Prop}
    {E : Stop → Cycle → Prop} : wp (atSlot i x) Q E σ ↔
      wp x (fun a w => Q a (σ.put i w)) (fun e w => E e (σ.put i w)) (σ.world i) := wp_zoom

/-- The order depends on the table and the kernel only. -/
theorem Orderly.of_eq (h : Orderly σ) (hconf : σ'.conf = σ.conf) (hslots : σ'.slots = σ.slots)
    (hk : σ'.k = σ.k) : Orderly σ' := by
  have hworld : σ'.world = σ.world := by
    funext i
    unfold world
    rw [hconf, hslots, hk]
  refine ⟨⟨?_, ?_, ?_⟩, ?_⟩
  · rw [hk]
    exact h.reliable
  · rw [hk]
    exact h.negative
  · rw [hk, hslots]
    exact h.interest
  · rw [hslots, hworld]
    exact h.owned

theorem Due.of_eq (h : Due σ es) (hslots : σ'.slots = σ.slots) : Due σ' es := by
  refine ⟨h.once, fun e he => ?_⟩
  have hheld := h.held e he
  unfold Registered world at *
  rw [hslots]
  exact hheld

/-- What a handler of slot `i` leaves registered. -/
theorem Known.put (h : Known σ) (ha : Apart i σ.k w.k)
    (hw : w.c.fd ≠ -1 ∨ w.k.interest i = none) : Known (σ.put i w) := by
  refine ⟨ha.chances.reliable h.reliable, ha.negative h.negative, fun fd it hit => ?_⟩
  have hsome : w.k.interest fd = some it := hit
  by_cases hfd : fd = i
  · rcases hw with hopen | hnone
    · refine ⟨i, hfd, ?_⟩
      rw [slots_put_self]
      exact hopen
    · rw [hfd, hnone] at hsome
      cases hsome
  · have hneg : fd ≠ -1 := by
      rintro rfl
      rw [ha.negative h.negative] at hsome
      cases hsome
    rw [ha.interest fd hneg hfd] at hsome
    obtain ⟨j, rfl, hj⟩ := h.interest fd it hsome
    refine ⟨j, rfl, ?_⟩
    rw [slots_put_ne (fun hji => hfd (by rw [hji]))]
    exact hj

/-- A handler of slot `i` leaves the table in order, when its connection stays registered or has
been closed and dropped. -/
theorem Orderly.put (h : Orderly σ) (hconf : w.conf = σ.conf) (ha : Apart i σ.k w.k)
    (hw : Owns i w ∨ w.c.fd = -1 ∧ w.k.interest i = none) : Orderly (σ.put i w) := by
  refine ⟨h.toKnown.put ha ?_, fun j hj => ?_⟩
  · rcases hw with hw | ⟨-, hnone⟩
    · exact Or.inl hw.open
    · exact Or.inr hnone
  · by_cases hji : j = i
    · subst hji
      rw [slots_put_self] at hj
      rw [world_put_self hconf]
      rcases hw with hw | ⟨hfd, -⟩
      · exact hw
      · exact absurd hfd hj
    · rw [slots_put_ne hji] at hj
      rw [world_put_ne hji]
      exact (h.owned j hj).elsewhere hji ha

theorem Due.put (h : Due σ es) (hi : ∀ e ∈ es, e.slot ≠ i) : Due (σ.put i w) es := by
  refine ⟨h.once, fun e he => ?_⟩
  have hheld := h.held e he
  unfold Registered at *
  rw [world_put_ne (hi e he), slots_put_ne (hi e he)]
  exact hheld

/-- A descriptor that is not open has neither a connection nor an entry. -/
theorem Orderly.unopened {s : Nat} (h : Orderly σ) (hs : σ.k.opened s = false) :
    (σ.slots s).c.fd = -1 ∧ σ.k.interest s = none := by
  have hfree : (σ.slots s).c.fd = -1 := by
    by_contra hopen
    have howns := h.owned s hopen
    have hopened := howns.rooted.opened
    rw [howns.fd] at hopened
    have : σ.k.opened s = true := hopened
    rw [hs] at this
    cases this
  refine ⟨hfree, ?_⟩
  cases hit : σ.k.interest s with
  | none => rfl
  | some it =>
    obtain ⟨j, hj, hopen⟩ := h.interest s it hit
    have hsj : s = j := by omega
    subst hsj
    exact absurd hfree hopen

structure Between (es : List EpollEvent) (σ : Cycle) : Prop extends Orderly σ, Heard σ, Due σ es

structure Listens (σ : Cycle) (l : Nat) : Prop where
  open' : (σ.slots l).c.fd ≠ -1
  readHandler : (σ.slots l).c.readHandler = .eventAccept
  mask : (σ.slots l).c.ev.events = readMask

theorem Between.of_eq (h : Between es σ) (hconf : σ'.conf = σ.conf) (hslots : σ'.slots = σ.slots)
    (hk : σ'.k = σ.k) (hheard : Heard σ') : Between es σ' :=
  ⟨h.toOrderly.of_eq hconf hslots hk, hheard, h.toDue.of_eq hslots⟩

/-- A step of `ehd_event_accept_handler` on the listening slot. -/
theorem Between.listening (h : Between es σ) (hl : Listens σ l) (hes : ∀ e ∈ es, e.slot ≠ l)
    (hb : Beside (σ.world l) w) (hrh : w.c.readHandler = .eventAccept)
    (hevents : w.c.ev.events = readMask) : Between es (σ.put l w) ∧ Listens (σ.put l w) l := by
  have howns := h.owned l hl.open'
  have hfd : w.c.fd = l := hb.fd.trans howns.fd
  have hroot : Rooted w := by
    refine ⟨?_, ?_⟩
    · rw [hb.fd]
      exact hb.opened _ howns.rooted.opened
    · rw [hb.fd, hb.interest, hevents, hb.slot, hb.id, ← hl.mask]
      exact howns.rooted.interest
  have hw : Owns l w := ⟨hfd, hb.slot.trans howns.slot, hroot, Or.inl ⟨hrh, hevents⟩⟩
  have ha : Apart l σ.k w.k := by
    refine ⟨fun x _ _ => ?_, fun hn => ?_, fun x _ _ ho => hb.opened x ho, hb.pools, hb.chances⟩
    · exact congrFun hb.interest x
    · rw [hb.interest]
      exact hn
  refine ⟨⟨h.toOrderly.put hb.conf ha (Or.inl hw), ⟨h.calls, h.cleared⟩, h.toDue.put hes⟩, ?_⟩
  refine ⟨?_, ?_, ?_⟩
  · rw [slots_put_self]
    exact hw.open
  · rw [slots_put_self]
    exact hrh
  · rw [slots_put_self]
    exact hevents

theorem owns_accepted {s pool : Nat} (hc : w.c = .accepted s i s pool) (ht : w.t = {})
    (hpool : pool < w.k.pools) (hroot : Rooted w) : Owns s w := by
  have haccepted : Accepted w :=
    ⟨⟨s, i, s, pool, hc, natCast_ne_neg_one s, hpool⟩, ht⟩
  refine ⟨?_, ?_, hroot, Or.inr (.connected haccepted.connected)⟩
  · rw [hc]
    rfl
  · rw [hc]
    rfl

def Cycle.filled (σ : Cycle) (s pool : Nat) : Cycle :=
  { σ with
    cleared := σ.cleared ++ [(σ.slots s).c.fd]
    slots := Function.update σ.slots s
      { c := { slot := s, id := σ.nextId, fd := s, readHandler := .initConnection
               pool := some pool } }
    nextId := σ.nextId + 1 }

@[simp] theorem wp_fillSlot {s pool : Nat} {Q : Unit → Cycle → Prop} {E : Stop → Cycle → Prop} :
    wp (fillSlot s pool) Q E σ ↔ Q () (σ.filled s pool) := Iff.rfl

/-- A free slot is filled, and registered. -/
theorem Between.accepted {s pool : Nat} {Q : Http.Rc → Cycle → Prop} {E : Stop → Cycle → Prop}
    (h : Between es σ) (hfree : (σ.slots s).c.fd = -1) (ho : σ.k.opened s = true)
    (hpool : pool < σ.k.pools)
    (hok : ∀ rc σ', Between es σ' → (∀ j, j ≠ s → σ'.slots j = σ.slots j) → Q rc σ') :
    wp (atSlot s (Event.epollAdd EHD_READ_EVENT EPOLLET)) Q E (σ.filled s pool) := by
  generalize hw : (σ.filled s pool).world s = w
  have hc : w.c = { slot := s, id := σ.nextId, fd := s, readHandler := .initConnection
                    pool := some pool } := by
    rw [← hw]
    show ((σ.filled s pool).slots s).c = _
    unfold Cycle.filled
    simp only [Function.update_self]
  have ht : w.t = {} := by
    rw [← hw]
    show ((σ.filled s pool).slots s).t = _
    unfold Cycle.filled
    simp only [Function.update_self]
  have hk : w.k = σ.k := by rw [← hw]; rfl
  have hconf : w.conf = σ.conf := by rw [← hw]; rfl
  have hfd : w.c.fd = s := by rw [hc]
  rw [wp_atSlot, hw]
  refine epollAdd_rule ?_ fun ⟨n, hn⟩ => ?_
  · -- registered
    show Q .ok ((σ.filled s pool).put s (w.registered readMask true))
    have hroot : Rooted (w.registered readMask true) := by
      apply rooted_registered
      rw [hfd, hk]
      exact ho
    have howns : Owns s (w.registered readMask true) := by
      have haccepted : (w.registered readMask true).c = .accepted s σ.nextId s pool := by
        show { w.c with ev := { w.c.ev with active := true, events := readMask } } = _
        rw [hc]
        rfl
      apply owns_accepted haccepted ht _ hroot
      show pool < w.k.pools
      rw [hk]
      exact hpool
    have ha : Apart s σ.k (w.registered readMask true).k := by
      have hreg := apart_registered (w := w) (by rw [hfd]; exact natCast_ne_neg_one s) readMask
      rw [hfd, hk] at hreg
      exact hreg
    -- the slot was free, so no event of the round is for it
    have hes : ∀ e ∈ es, e.slot ≠ s := by
      intro e he heq
      apply (h.held e he).1
      rw [heq]
      exact hfree
    have hput : Between es (σ.put s (w.registered readMask true)) :=
      ⟨h.toOrderly.put hconf ha (Or.inl howns), ⟨h.calls, h.cleared⟩, h.toDue.put hes⟩
    have hslots : ((σ.filled s pool).put s (w.registered readMask true)).slots =
        (σ.put s (w.registered readMask true)).slots := Function.update_idem _ _ _
    apply hok
    · refine hput.of_eq rfl hslots rfl ⟨h.calls, fun fd hmem => ?_⟩
      rcases List.mem_append.1 hmem with hmem | hmem
      · exact h.cleared fd hmem
      · rw [List.mem_singleton.1 hmem]
        exact hfree
    · intro j hj
      rw [hslots]
      exact slots_put_ne hj
  · -- `epoll_ctl` succeeds
    rw [hk, h.reliable.2 n] at hn
    cases hn

/-- The loop of `ehd_event_accept_handler`, by induction on the results of `accept4`. -/
theorem acceptLoop_rule (rs : List AcceptResult) (h : Between es σ) (hl : Listens σ l)
    (hes : ∀ e ∈ es, e.slot ≠ l) :
    wp (acceptLoop l rs) (fun _ σ' => Between es σ') (fun _ σ' => Heard σ') σ := by
  induction rs generalizing σ with
  | nil => exact h.toHeard
  | cons r rs ih =>
    generalize hσ₁ : ({ σ with accepts := rs } : Cycle) = σ₁
    have h₁ : Between es σ₁ := by
      rw [← hσ₁]
      exact h.of_eq rfl rfl rfl ⟨h.calls, h.cleared⟩
    have hl₁ : Listens σ₁ l := by
      rw [← hσ₁]
      exact ⟨hl.open', hl.readHandler, hl.mask⟩
    have hmodify : ∀ (x : CycleM Unit) (Q : Unit → Cycle → Prop) (E : Stop → Cycle → Prop),
        wp (do
          modify fun σ => { σ with accepts := rs }
          x) Q E σ ↔ wp x Q E σ₁ := by
      intro x Q E
      rw [wp_bind, wp_modify, hσ₁]
    have hfails : wp (acceptFails l) (fun _ σ' => Between es σ') (fun _ σ' => Heard σ') σ₁ := by
      unfold acceptFails
      rw [wp_atSlot, wp_modify]
      generalize hw : (σ₁.world l).onEv _ = w
      have hbw : Beside (σ₁.world l) w := by
        rw [← hw]
        exact beside_of_k rfl rfl rfl rfl rfl
      refine (h₁.listening hl₁ hes hbw ?_ ?_).1
      · rw [← hw]
        exact hl₁.readHandler
      · rw [← hw]
        exact hl₁.mask
    cases r with
    | again =>
      rw [acceptLoop, wp_modify, hσ₁]
      exact h₁
    | fail =>
      rw [acceptLoop, hmodify]
      exact hfails
    | descriptor s nonblocking =>
      rw [acceptLoop, hmodify, wp_bind, wp_get]
      by_cases ho : σ₁.k.opened s = true
      · rw [if_pos ho]
        exact hfails
      · rw [if_neg ho]
        have hnew : σ₁.k.opened s = false := Bool.eq_false_iff.2 ho
        obtain ⟨hfree, hnone⟩ := h₁.toOrderly.unopened hnew
        have hsl : s ≠ l := by
          rintro rfl
          exact hl₁.open' hfree
        -- the descriptor is opened
        obtain ⟨w, hw⟩ : ∃ w : World, w = (σ₁.world l).onK fun k => { k with
            opened := Function.update k.opened s true } := ⟨_, rfl⟩
        have hopened : w.k.opened s = true := by
          rw [hw]
          exact Function.update_self _ _ _
        have hbw : Beside (σ₁.world l) w := by
          rw [hw]
          refine ⟨rfl, rfl, rfl, rfl, rfl, fun x hx => ?_, Nat.le_refl _, rfl, rfl⟩
          show Function.update σ₁.k.opened s true x = true
          by_cases hxs : x = s
          · rw [hxs, Function.update_self]
          · rw [Function.update_of_ne hxs]
            exact hx
        have hrw : w.c.readHandler = .eventAccept ∧ w.c.ev.events = readMask := by
          rw [hw]
          exact ⟨hl₁.readHandler, hl₁.mask⟩
        rw [wp_bind, wp_atSlot, wp_modify, ← hw]
        obtain ⟨h₂, hl₂⟩ := h₁.listening hl₁ hes hbw hrw.1 hrw.2
        have hworld : (σ₁.put l w).world l = w := world_put_self hbw.conf
        by_cases hn : s ≥ σ₁.connectionNum
        · -- and closed again
          rw [if_pos hn, wp_atSlot, wp_modify, hworld, put_put]
          refine (h₁.listening (w := w.closeFd s) hl₁ hes ?_ hrw.1 hrw.2).1
          refine ⟨hbw.conf, hbw.slot, hbw.id, hbw.fd, ?_, fun x hx => ?_, hbw.pools,
            ⟨hbw.chances.allocOk, hbw.chances.epollOk⟩⟩
          · show Function.update w.k.interest s none = σ₁.k.interest
            rw [hbw.interest]
            exact Function.update_eq_self_iff.2 hnone.symm
          · show Function.update w.k.opened s false x = true
            by_cases hxs : x = s
            · rw [hxs] at hx
              exact absurd hx ho
            · rw [Function.update_of_ne hxs]
              exact hbw.opened x hx
        · rw [if_neg hn, wp_bind, wp_atSlot, hworld]
          refine createPool_rule (fun m => ?_) (fun m _ => ?_)
          · -- the pool
            rw [put_put]
            obtain ⟨w', hw'⟩ : ∃ w' : World, w' = (w.alloced m).onK fun k => { k with
                pools := k.pools + 1 } := ⟨_, rfl⟩
            rw [← hw']
            have hbw' : Beside (σ₁.world l) w' := by
              apply hbw.trans
              rw [hw']
              exact ⟨rfl, rfl, rfl, rfl, rfl, fun _ hx => hx, Nat.le_succ _, rfl, rfl⟩
            have hpool : w.k.pools < w'.k.pools := by
              rw [hw']
              exact Nat.lt_succ_self _
            have hopened' : w'.k.opened s = true := by
              rw [hw']
              exact hopened
            have hrw' : w'.c.readHandler = .eventAccept ∧ w'.c.ev.events = readMask := by
              rw [hw']
              exact hrw
            obtain ⟨h₃, hl₃⟩ := h₁.listening hl₁ hes hbw' hrw'.1 hrw'.2
            dsimp only
            by_cases hb : (!nonblocking) = true
            · rw [if_pos hb]
              exact h₃
            · rw [if_neg hb, wp_bind, wp_fillSlot, wp_bind]
              refine h₃.accepted ?_ hopened' hpool fun rc σ₄ h₄ hsame => ih h₄ ?_
              · rw [slots_put_ne hsl]
                exact hfree
              · have hslot := hsame l (Ne.symm hsl)
                refine ⟨?_, ?_, ?_⟩
                · rw [hslot]
                  exact hl₃.open'
                · rw [hslot]
                  exact hl₃.readHandler
                · rw [hslot]
                  exact hl₃.mask
          · rw [put_put]
            refine (h₁.listening (w := w.alloced m) hl₁ hes ?_ hrw.1 hrw.2).1
            exact hbw.trans (beside_of_steady rfl rfl rfl rfl (World.scratch_alloced w m).k)

theorem eventAcceptHandler_rule (h : Between es σ) (hl : Listens σ l) (hes : ∀ e ∈ es, e.slot ≠ l) :
    wp (eventAcceptHandler l) (fun _ σ' => Between es σ') (fun _ σ' => Heard σ') σ := by
  unfold eventAcceptHandler
  rw [wp_bind, wp_get]
  exact acceptLoop_rule _ h hl hes

def Cycle.calling (σ : Cycle) (e : EpollEvent) (w : World) : Cycle :=
  { σ.put e.slot w with calls := σ.calls ++ [⟨w.c.fd, w.c.id, e.conn⟩] }

theorem wp_calling {f : Event → Event} {x : CycleM Unit} {Q : Unit → Cycle → Prop}
    {E : Stop → Cycle → Prop} :
    wp (do
      atSlot e.slot (modify (·.onEv f))
      noteCall e
      x) Q E σ ↔ wp x Q E (σ.calling e ((σ.world e.slot).onEv f)) := by
  rw [wp_bind, wp_atSlot, wp_modify, wp_bind]
  unfold noteCall
  rw [wp_modify, slots_put_self]
  rfl

section

variable {f : Event → Event}

theorem Due.tail (h : Due σ (e :: es)) : Due σ es ∧ ∀ e' ∈ es, e'.slot ≠ e.slot := by
  obtain ⟨hmem, hnodup⟩ := List.nodup_cons.1 h.once
  refine ⟨⟨hnodup, fun e' he' => h.held e' (List.mem_cons_of_mem _ he')⟩, ?_⟩
  intro e' he' heq
  apply hmem
  show e.slot ∈ _
  rw [← heq]
  exact List.mem_map_of_mem he'

theorem Between.tail (h : Between (e :: es) σ) : Between es σ :=
  ⟨h.toOrderly, h.toHeard, h.toDue.tail.1⟩

theorem Between.heard (h : Between (e :: es) σ) :
    Heard (σ.calling e ((σ.world e.slot).onEv f)) := by
  obtain ⟨hopen, hid, -⟩ := h.held e List.mem_cons_self
  refine ⟨fun x hx => ?_, h.cleared⟩
  rcases List.mem_append.1 hx with hx | hx
  · exact h.calls x hx
  · rw [List.mem_singleton.1 hx]
    exact ⟨hopen, hid⟩

/-- A handler of a connection returns to an orderly table. -/
theorem Between.handled {x : Handler Unit} (h : Between (e :: es) σ)
    (hloop : InLoop (σ.world e.slot))
    (hx : Goes (.loop, σ.world e.slot) x ((σ.world e.slot).onEv f)) :
    wp (atSlot e.slot x) (fun _ σ' => Between es σ') (fun _ σ' => Heard σ')
      (σ.calling e ((σ.world e.slot).onEv f)) := by
  obtain ⟨hopen, -, -⟩ := h.held e List.mem_cons_self
  obtain ⟨hdue, hes⟩ := h.toDue.tail
  have howns := h.owned e.slot hopen
  have hfd : (σ.world e.slot).c.fd = e.slot := howns.fd
  have hheard := h.heard (f := f)
  rw [wp_atSlot]
  have hworld : (σ.calling e ((σ.world e.slot).onEv f)).world e.slot =
      (σ.world e.slot).onEv f :=
    world_put_self (σ := σ) (w := (σ.world e.slot).onEv f) rfl
  rw [hworld]
  refine wp_mono (Goes.confined hloop hopen howns.rooted hx) ?_
    fun _ _ _ => ⟨hheard.calls, hheard.cleared⟩
  rintro _ w' ⟨hloop', hconf⟩
  have hput : Between es (σ.put e.slot w') := by
    refine ⟨?_, ⟨h.calls, h.cleared⟩, hdue.put hes⟩
    rcases hconf with hc | hc
    · have ha := hc.apart
      rw [hfd] at ha
      exact h.toOrderly.put hc.conf ha
        (Or.inl ⟨hc.fd.trans hfd, hc.slot.trans howns.slot, hc.rooted, Or.inr hloop'⟩)
    · have ha := hc.apart
      have hdrop := hc.dropped
      rw [hfd] at ha hdrop
      exact h.toOrderly.put hc.conf ha (Or.inr ⟨hc.fd, hdrop⟩)
  have hslots : ((σ.calling e ((σ.world e.slot).onEv f)).put e.slot w').slots =
      (σ.put e.slot w').slots := Function.update_idem _ _ _
  exact hput.of_eq rfl hslots rfl ⟨hheard.calls, hheard.cleared⟩

end

/-- One entry: since a connection is registered in one direction, one handler is called at most. -/
theorem processEvent_rule (h : Between (e :: es) σ) :
    wp (processEvent e) (fun _ σ' => Between es σ') (fun _ σ' => Heard σ') σ := by
  obtain ⟨hopen, -, hev⟩ := h.held e List.mem_cons_self
  obtain ⟨hdue, hes⟩ := h.toDue.tail
  have howns := h.owned e.slot hopen
  unfold processEvent
  rw [wp_bind, wp_get, if_neg hopen]
  -- one direction is asked for, so one of the two reports does nothing
  rcases howns.mask with hmask | ⟨hmask, hresp⟩
  · -- it reads
    have hout : ¬ (e.events &&& EPOLLOUT ≠ 0) := by
      intro hout
      have hbit := hev.2 hout
      rw [hmask] at hbit
      exact hbit readMask_directions.2
    unfold reportWritableAt reportReadableAt
    rw [wp_bind, if_neg hout, wp_pure]
    by_cases hin : e.events &&& EPOLLIN ≠ 0
    · rw [if_pos hin, wp_calling]
      unfold callReadAt
      rw [wp_bind, wp_get]
      have hrh : ((σ.calling e ((σ.world e.slot).onEv fun ev => { ev with rready := true })).slots
          e.slot).c.readHandler = (σ.slots e.slot).c.readHandler := by
        unfold Cycle.calling
        rw [slots_put_self]
        rfl
      rw [hrh]
      by_cases haccept : (σ.slots e.slot).c.readHandler = .eventAccept
      · -- a listening socket
        rw [if_pos haccept]
        have hl : Listens σ e.slot := ⟨hopen, haccept, hmask⟩
        generalize hw : (σ.world e.slot).onEv _ = w
        have hbeside : Beside (σ.world e.slot) w := by
          rw [← hw]
          exact beside_of_k rfl rfl rfl rfl rfl
        have hrw : w.c.readHandler = .eventAccept ∧ w.c.ev.events = readMask := by
          rw [← hw]
          exact ⟨haccept, hmask⟩
        -- the flag of `rready` is beside what the other slots hold
        have hheard := h.heard (f := fun ev => { ev with rready := true })
        rw [hw] at hheard
        obtain ⟨hbetween, hl'⟩ := h.tail.listening hl hes hbeside hrw.1 hrw.2
        apply eventAcceptHandler_rule _ _ hes
        · exact hbetween.of_eq rfl rfl rfl hheard
        · exact ⟨hl'.open', hl'.readHandler, hl'.mask⟩
      · -- a connection
        rw [if_neg haccept]
        have hreads : Connected (σ.world e.slot) ∨ Idle (σ.world e.slot) ∨
            Waiting (σ.world e.slot) := by
          rcases howns.serves with ⟨hc, -⟩ | hc | hc | hc | hc | hc
          · exact absurd hc haccept
          · exact absurd hc.fd hopen
          · exact Or.inl hc
          · exact Or.inr (Or.inl hc)
          · exact Or.inr (Or.inr hc)
          · have hwrite := hc.mask
            rw [hmask] at hwrite
            exact absurd hwrite (by decide)
        have hloop : InLoop (σ.world e.slot) := by
          rcases hreads with hc | hc | hc
          · exact .connected hc
          · exact .idle hc
          · exact .waiting hc
        exact h.handled hloop
          (callReadHandler_goes ⟨rfl, rfl, rfl, rfl, rfl, rfl, rfl, rfl⟩ hreads)
    · rw [if_neg hin, wp_pure]
      exact h.tail
  · -- it writes
    have hin : ¬ (e.events &&& EPOLLIN ≠ 0) := by
      intro hin
      have hbit := hev.1 hin
      rw [hmask] at hbit
      exact hbit writeMask_directions.1
    unfold reportWritableAt reportReadableAt
    rw [wp_bind, if_neg hin]
    by_cases hout : e.events &&& EPOLLOUT ≠ 0
    · rw [if_pos hout, wp_calling]
      exact h.handled (.responding hresp)
        (callWriteHandler_goes ⟨rfl, rfl, rfl, rfl, rfl, rfl, rfl, rfl⟩ hresp)
    · rw [if_neg hout, wp_pure, wp_pure]
      exact h.tail

theorem processEvents_rule (h : Between es σ) :
    wp (processEvents es) (fun _ σ' => Between [] σ') (fun _ σ' => Heard σ') σ := by
  induction es generalizing σ with
  | nil => exact h
  | cons e es ih =>
    unfold processEvents
    rw [wp_bind]
    exact wp_mono (processEvent_rule h) (fun _ σ' h' => ih h') fun _ _ hheard => hheard

structure Enabling (todo : List Nat) (σ : Cycle) : Prop extends Known σ where
  owned : ∀ i, (σ.slots i).c.fd ≠ -1 → i ∉ todo → Owns i (σ.world i)
  waits : ∀ i ∈ todo, (σ.slots i).c.fd = i ∧ (σ.slots i).c.slot = i ∧
    (σ.slots i).c.readHandler = .eventAccept ∧ σ.k.opened i = true

/-- One listening socket is registered. -/
theorem Enabling.registered {todo : List Nat} (h : Enabling (i :: todo) σ) :
    Enabling todo (σ.put i ((σ.world i).registered readMask true)) := by
  obtain ⟨hfd, hslot, hrh, ho⟩ := h.waits i List.mem_cons_self
  have hfd' : (σ.world i).c.fd = i := hfd
  have hopen : (σ.world i).c.fd ≠ -1 := by
    rw [hfd']
    exact natCast_ne_neg_one i
  have ha : Apart i σ.k ((σ.world i).registered readMask true).k := by
    have hreg := apart_registered hopen readMask
    rw [hfd'] at hreg
    exact hreg
  have howns : Owns i ((σ.world i).registered readMask true) := by
    refine ⟨hfd, hslot, rooted_registered ?_ readMask, Or.inl ⟨hrh, rfl⟩⟩
    rw [hfd']
    exact ho
  refine ⟨h.toKnown.put ha (Or.inl howns.open), fun j hj hmem => ?_, fun j hj => ?_⟩
  · by_cases hji : j = i
    · subst hji
      rw [world_put_self rfl]
      exact howns
    · rw [slots_put_ne hji] at hj
      rw [world_put_ne hji]
      apply (h.owned j hj _).elsewhere hji ha
      intro hmem'
      rcases List.mem_cons.1 hmem' with heq | hmem'
      · exact hji heq
      · exact hmem hmem'
  · obtain ⟨hj₁, hj₂, hj₃, hj₄⟩ := h.waits j (List.mem_cons_of_mem _ hj)
    by_cases hji : j = i
    · subst hji
      rw [slots_put_self]
      exact ⟨hfd, hslot, hrh, ho⟩
    · rw [slots_put_ne hji]
      exact ⟨hj₁, hj₂, hj₃, ha.opened _ (natCast_ne_neg_one j) (by omega) hj₄⟩

/-- `ehd_event_enable_accept`, by induction on the listening sockets. -/
theorem eventEnableAccept_rule {todo : List Nat} (h : Enabling todo σ) (hheard : Heard σ) :
    wp (eventEnableAccept todo) (fun _ σ' => Between [] σ') (fun _ _ => True) σ := by
  induction todo generalizing σ with
  | nil =>
    refine ⟨⟨h.toKnown, fun i hi => h.owned i hi List.not_mem_nil⟩, hheard, List.nodup_nil, ?_⟩
    intro e he
    cases he
  | cons i todo ih =>
    unfold eventEnableAccept
    rw [wp_bind, wp_atSlot]
    refine epollAdd_rule ?_ fun ⟨n, hn⟩ => ?_
    · rw [if_neg (by decide)]
      exact ih h.registered ⟨hheard.calls, hheard.cleared⟩
    · -- `epoll_ctl` succeeds
      have hok := h.reliable.2 n
      rw [show σ.k.epollOk n = false from hn] at hok
      cases hok

theorem Started.between (h : Started Kernel.Reliable σ) : Between [] σ := by
  obtain ⟨conf, n, listening, memory, k, accepts, rc, hk, hnone, hlisten, heq⟩ := h
  have hstart : Enabling listening (eventInit conf n listening memory k accepts) := by
    refine ⟨⟨hk, hnone _, fun fd it hit => ?_⟩, fun i hi hmem => ?_, fun i hi => ?_⟩
    · have hsome : k.interest fd = some it := hit
      rw [hnone] at hsome
      cases hsome
    · exfalso
      apply hi
      show (if i ∈ listening then Slot.listening i else (memory i).free).c.fd = -1
      rw [if_neg hmem]
      rfl
    · show (if i ∈ listening then Slot.listening i else (memory i).free).c.fd = _ ∧
        (if i ∈ listening then Slot.listening i else (memory i).free).c.slot = _ ∧
        (if i ∈ listening then Slot.listening i else (memory i).free).c.readHandler = _ ∧ _
      rw [if_pos hi]
      exact ⟨rfl, rfl, rfl, (hlisten i hi).2⟩
  have hheard : Heard (eventInit conf n listening memory k accepts) := by
    constructor
    · intro x hx
      cases hx
    · intro fd hfd
      cases hfd
  exact (wp_of_ok heq).1 (eventEnableAccept_rule hstart hheard)

/-- Each entry that `epoll_wait` returns is for the slot of its descriptor, which holds the
connection that was registered. -/
theorem Batch.due (hb : Batch σ.k es) (h : Orderly σ) : Due σ es := by
  have hentry : ∀ e ∈ es, e.fd = e.slot ∧ (σ.slots e.slot).c.fd ≠ -1 ∧
      (σ.slots e.slot).c.id = e.conn ∧ Registered (σ.world e.slot) e.events := by
    intro e he
    obtain ⟨mask, hit, hdir⟩ := hb.registered e he
    obtain ⟨i, hfd, hopen⟩ := h.interest _ _ hit
    have howns := h.owned i hopen
    have hroot := howns.rooted.interest
    have hfdi : (σ.world i).c.fd = i := howns.fd
    rw [hfdi] at hroot
    have hsome : σ.k.interest i = some ⟨mask, e.slot, e.conn⟩ := by
      rw [← hfd]
      exact hit
    have heq : (some ⟨mask, e.slot, e.conn⟩ : Option Interest) =
        some ⟨(σ.world i).c.ev.events, (σ.world i).c.slot, (σ.world i).c.id⟩ :=
      hsome.symm.trans hroot
    injection heq with heq
    injection heq with hmask hslot hconn
    have hi : e.slot = i := hslot.trans howns.slot
    rw [hi]
    refine ⟨hfd, hopen, hconn.symm, ?_⟩
    unfold Registered
    rw [← hmask]
    exact hdir
  refine ⟨?_, fun e he => (hentry e he).2⟩
  have hmap : es.map (·.fd) = (es.map (·.slot)).map (fun i : Nat => (i : Int)) := by
    rw [List.map_map]
    apply List.map_congr_left
    intro e he
    exact (hentry e he).1
  have honce := hb.once
  rw [hmap] at honce
  exact honce.of_map _

/-- Waiting in `epoll_wait` changes no descriptor. -/
theorem Between.awaits (h : Between [] σ) (ha : Awaits Kernel.Reliable σ σ') : Between [] σ' := by
  obtain ⟨k, accepts, hk, hinterest, hopened, hpools, rfl⟩ := ha
  refine ⟨⟨⟨hk, ?_, ?_⟩, fun i hi => ?_⟩, ⟨h.calls, h.cleared⟩, List.nodup_nil, ?_⟩
  · show k.interest (-1) = none
    rw [hinterest]
    exact h.negative
  · intro fd it hit
    have hsome : k.interest fd = some it := hit
    rw [hinterest] at hsome
    exact h.interest fd it hsome
  · have howns := h.owned i hi
    refine ⟨howns.fd, howns.slot, ⟨?_, ?_⟩, ?_⟩
    · show k.opened _ = true
      rw [hopened]
      exact howns.rooted.opened
    · show k.interest _ = _
      rw [hinterest]
      exact howns.rooted.interest
    · rcases howns.serves with hl | hc
      · exact Or.inl hl
      · exact Or.inr (InLoop.onKernel hc hpools)
  · intro e he
    cases he

/-- Between two batches the table is in order; in every state of a run every call was made for the
connection that was registered. -/
theorem Cycle.Run.between {o : Option Stop} (h : Cycle.Run Kernel.Reliable o σ) :
    (o = none → Between [] σ) ∧ Heard σ := by
  refine Calls.invariant (I := fun o σ => (o = none → Between [] σ) ∧ Heard σ) ?_ ?_ ?_ h
  · intro σ hstart
    have hb := Started.between hstart
    exact ⟨fun _ => hb, hb.toHeard⟩
  · rintro σ x ⟨hnone, -⟩ ⟨es, hbatch, rfl⟩
    have hb := hnone rfl
    have hbetween : Between es σ := ⟨hb.toOrderly, hb.toHeard, hbatch.due hb.toOrderly⟩
    refine wp_mono (processEvents_rule hbetween) (fun _ σ' h' => ⟨fun _ => h', h'.toHeard⟩) ?_
    intro e σ' hheard
    exact ⟨fun hstop => absurd hstop (by simp), hheard⟩
  · rintro σ σ' ⟨hnone, -⟩ hawaits
    have hb := (hnone rfl).awaits hawaits
    exact ⟨fun _ => hb, hb.toHeard⟩

/-- In every run, with every batch in every order, each handler is called on a slot that is open
and holds the connection that was registered, and `ehd_event_accept_handler` clears no slot that
is open. -/
theorem events_reach_their_connection {o : Option Stop} (h : Cycle.Run Kernel.Reliable o σ) :
    (∀ x ∈ σ.calls, x.fd ≠ -1 ∧ x.holds = x.registered) ∧ ∀ fd ∈ σ.cleared, fd = -1 :=
  ⟨h.between.2.calls, h.between.2.cleared⟩

/-- A server that listens on descriptor 3, and gives 7 to each client. -/
def sampleCycle : Cycle :=
  eventInit ehdConfInit 10 [3] (fun _ => { c := { slot := 0, id := 0, readHandler := .blockRead } })
    { sampleKernel [.data []] [] with opened := fun fd => fd == 3 }
    [.descriptor 7 true, .again, .descriptor 7 true, .again]

def startedCycle : Cycle := after (eventEnableAccept [3]) sampleCycle

def acceptedCycle : Cycle := after (processEvents [⟨3, EPOLLIN, 3, 3⟩]) startedCycle

/-- The first client hangs up, and the next gets its descriptor in the same batch. -/
def reusedCycle : Cycle := after (processEvents [⟨7, EPOLLIN, 7, 10⟩, ⟨3, EPOLLIN, 3, 3⟩]) acceptedCycle

theorem reused_run : Cycle.Run Kernel.Reliable none reusedCycle := by
  have hstarted : Cycle.Run Kernel.Reliable none startedCycle := by
    have hret : returns (eventEnableAccept [3]) sampleCycle = true := by decide
    obtain ⟨rc, hrc⟩ := exists_ok_of_returns hret
    refine Calls.init ⟨_, _, _, _, _, _, rc, ⟨fun _ _ => rfl, fun _ => rfl⟩, fun _ => rfl, ?_, hrc⟩
    intro fd hfd
    rw [List.mem_singleton.1 hfd]
    decide
  have haccepted : Cycle.Run Kernel.Reliable none acceptedCycle := by
    refine Calls.call hstarted ⟨[⟨3, EPOLLIN, 3, 3⟩], ⟨by decide, fun e he => ?_⟩, rfl⟩
      (eq_ok_of_returns (by decide))
    rw [List.mem_singleton.1 he]
    exact ⟨readMask, by decide, by decide, by decide⟩
  refine Calls.call haccepted ⟨[⟨7, EPOLLIN, 7, 10⟩, ⟨3, EPOLLIN, 3, 3⟩],
    ⟨by decide, fun e he => ?_⟩, rfl⟩ (eq_ok_of_returns (by decide +kernel))
  rcases List.mem_cons.1 he with rfl | he
  · exact ⟨readMask, by decide, by decide, by decide⟩
  · rw [List.mem_singleton.1 he]
    exact ⟨readMask, by decide, by decide, by decide⟩

theorem events_reach_their_connection_reused :
    (∀ x ∈ reusedCycle.calls, x.fd ≠ -1 ∧ x.holds = x.registered) ∧
      (∀ fd ∈ reusedCycle.cleared, fd = -1) ∧
      reusedCycle.k.interest 7 = some ⟨readMask, 7, 11⟩ := by
  have h := events_reach_their_connection reused_run
  exact ⟨h.1, h.2, by decide +kernel⟩

end Ehd
