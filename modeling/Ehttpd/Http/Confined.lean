import Ehttpd.Http.Lifecycle
import Ehttpd.Http.Chunks

namespace Ehd.Http

open Program World

variable {w₀ w w' w₁ : World} {p q : Pc} {fd : Int} {k k' k'' : Kernel}

/-- Of the descriptors other than `fd` none has been registered, dropped or closed. -/
structure Apart (fd : Int) (k k' : Kernel) : Prop where
  interest : ∀ x, x ≠ -1 → x ≠ fd → k'.interest x = k.interest x
  negative : k.interest (-1) = none → k'.interest (-1) = none
  opened : ∀ x, x ≠ -1 → x ≠ fd → k.opened x = true → k'.opened x = true
  pools : k.pools ≤ k'.pools
  chances : SameChances k k'

theorem Apart.trans (h : Apart fd k k') (h' : Apart fd k' k'') : Apart fd k k'' where
  interest x hx hne := (h'.interest x hx hne).trans (h.interest x hx hne)
  negative hn := h'.negative (h.negative hn)
  opened x hx hne ho := h'.opened x hx hne (h.opened x hx hne ho)
  pools := h.pools.trans h'.pools
  chances := h.chances.trans h'.chances

/-- The descriptor of a connection is open, and registered for the slot and the mask. -/
structure Rooted (w : World) : Prop where
  opened : w.k.opened w.c.fd = true
  interest : w.k.interest w.c.fd = some ⟨w.c.ev.events, w.c.slot, w.c.id⟩

structure Near (w₀ w : World) : Prop where
  conf : w.conf = w₀.conf
  slot : w.c.slot = w₀.c.slot
  id : w.c.id = w₀.c.id
  fd : w.c.fd = w₀.c.fd
  apart : Apart w₀.c.fd w₀.k w.k

structure Stays (w₀ w : World) : Prop extends Near w₀ w where
  rooted : Rooted w

/-- The connection has been closed, and epoll has dropped its descriptor. -/
structure Left (w₀ w : World) : Prop where
  conf : w.conf = w₀.conf
  fd : w.c.fd = -1
  apart : Apart w₀.c.fd w₀.k w.k
  dropped : w.k.interest w₀.c.fd = none

def Confined (w₀ : World) : Pc → World → Prop
  | .loop, w => Stays w₀ w ∨ Left w₀ w
  | .stopped _, _ => True
  | _, w => Stays w₀ w

structure Beside (w w' : World) : Prop where
  conf : w'.conf = w.conf
  slot : w'.c.slot = w.c.slot
  id : w'.c.id = w.c.id
  fd : w'.c.fd = w.c.fd
  interest : w'.k.interest = w.k.interest
  opened : ∀ x, w.k.opened x = true → w'.k.opened x = true
  pools : w.k.pools ≤ w'.k.pools
  chances : SameChances w.k w'.k

theorem beside_of_steady (hconf : w'.conf = w.conf) (hslot : w'.c.slot = w.c.slot)
    (hid : w'.c.id = w.c.id) (hfd : w'.c.fd = w.c.fd) (hk : w.k.Steady w'.k) : Beside w w' :=
  ⟨hconf, hslot, hid, hfd, hk.interest, hk.opened, hk.pools.ge, Steady.chances hk⟩

theorem beside_of_k (hconf : w'.conf = w.conf) (hslot : w'.c.slot = w.c.slot)
    (hid : w'.c.id = w.c.id) (hfd : w'.c.fd = w.c.fd) (hk : w'.k = w.k) : Beside w w' := by
  apply beside_of_steady hconf hslot hid hfd
  rw [hk]
  exact .refl _

theorem Beside.trans {w'' : World} (h : Beside w w') (h' : Beside w' w'') : Beside w w'' where
  conf := h'.conf.trans h.conf
  slot := h'.slot.trans h.slot
  id := h'.id.trans h.id
  fd := h'.fd.trans h.fd
  interest := h'.interest.trans h.interest
  opened x hx := h'.opened x (h.opened x hx)
  pools := h.pools.trans h'.pools
  chances := h.chances.trans h'.chances

theorem beside_opened (w : World) (b : Buf) (n : List Allocation) : Beside w (w.opened b n) :=
  ⟨rfl, rfl, rfl, rfl, rfl, fun _ ho => ho, Nat.le_succ _, rfl, rfl⟩

theorem Scratch.beside (h : w.Scratch w') : Beside w w' :=
  beside_of_steady h.conf h.slot h.id h.fd h.k

theorem Reported.beside (h : w.Reported w') : Beside w w' := by
  apply beside_of_k h.conf _ _ _ h.k
  · rw [h.c]
  · rw [h.c]
  · rw [h.c]

theorem Took.beside {bs : List UInt8} (h : w.Took w' bs) : Beside w w' := by
  apply beside_of_steady h.conf _ _ _ h.k
  · rw [h.c]
  · rw [h.c]
  · rw [h.c]

theorem Wrote.beside {last n : Nat} {b : Buf} {x : SendResult} (h : w.Wrote w' last b n x) :
    Beside w w' := by
  apply beside_of_steady h.conf _ _ _ h.k
  · rw [h.c]
  · rw [h.c]
  · rw [h.c]

theorem Near.beside (h : Near w₀ w) (hb : Beside w w') : Near w₀ w' where
  conf := hb.conf.trans h.conf
  slot := hb.slot.trans h.slot
  id := hb.id.trans h.id
  fd := hb.fd.trans h.fd
  apart := by
    apply h.apart.trans
    exact ⟨fun x _ _ => by rw [hb.interest], fun hn => by rw [hb.interest]; exact hn,
      fun x _ _ ho => hb.opened x ho, hb.pools, hb.chances⟩

theorem Stays.beside (h : Stays w₀ w) (hb : Beside w w')
    (hevents : w'.c.ev.events = w.c.ev.events) : Stays w₀ w' := by
  refine ⟨h.toNear.beside hb, ?_, ?_⟩
  · rw [hb.fd]
    exact hb.opened _ h.rooted.opened
  · rw [hb.fd, hb.interest, hevents, hb.slot, hb.id]
    exact h.rooted.interest

theorem apart_registered (hfd : w.c.fd ≠ -1) (mask : UInt32) :
    Apart w.c.fd w.k (w.registered mask true).k where
  interest x _ hne := by
    show Function.update w.k.interest w.c.fd (some ⟨mask, w.c.slot, w.c.id⟩) x = _
    rw [Function.update_of_ne hne]
  negative hn := by
    show Function.update w.k.interest w.c.fd (some ⟨mask, w.c.slot, w.c.id⟩) (-1) = none
    rw [Function.update_of_ne (Ne.symm hfd)]
    exact hn
  opened _ _ _ ho := ho
  pools := Nat.le_refl _
  chances := chances_registered w mask true

theorem rooted_registered (ho : w.k.opened w.c.fd = true) (mask : UInt32) :
    Rooted (w.registered mask true) := by
  refine ⟨ho, ?_⟩
  show Function.update w.k.interest w.c.fd (some ⟨mask, w.c.slot, w.c.id⟩) w.c.fd = _
  rw [Function.update_self]
  rfl

theorem Stays.registered (h : Stays w₀ w) (hfd : w₀.c.fd ≠ -1) (mask : UInt32) :
    Stays w₀ (w.registered mask true) := by
  have hreg : Apart w₀.c.fd w.k (w.registered mask true).k := by
    rw [← h.fd]
    apply apart_registered
    rw [h.fd]
    exact hfd
  exact ⟨⟨h.conf, h.slot, h.id, h.fd, h.apart.trans hreg⟩,
    rooted_registered h.rooted.opened mask⟩

theorem update_none_eq_none {f : Int → Option Interest} {x y : Int} (h : f x = none) :
    Function.update f y none x = none := by
  by_cases hxy : x = y
  · rw [hxy, Function.update_self]
  · rw [Function.update_of_ne hxy]
    exact h

theorem Near.closed {cp : Nat} (h : Near w₀ w) (hcp : w.c.pool = some cp) :
    Left w₀ w.closeConnection := by
  rw [World.closeConnection_eq hcp]
  refine ⟨h.conf, rfl, h.apart.trans ⟨fun x _ hne => ?_, fun hn => ?_, fun x _ hne ho => ?_,
    Nat.le_refl _, ⟨rfl, rfl⟩⟩, ?_⟩
  · show Function.update w.k.interest w.c.fd none x = _
    rw [h.fd, Function.update_of_ne hne]
  · exact update_none_eq_none hn
  · show Function.update w.k.opened w.c.fd false x = true
    rw [h.fd, Function.update_of_ne hne]
    exact ho
  · show Function.update w.k.interest w.c.fd none w₀.c.fd = none
    rw [h.fd, Function.update_self]

theorem Left.closed {cp : Nat} (h : Left w₀ w) (hfd : w₀.c.fd ≠ -1) (hcp : w.c.pool = some cp) :
    Left w₀ w.closeConnection := by
  rw [World.closeConnection_eq hcp]
  refine ⟨h.conf, rfl, h.apart.trans ⟨fun x hx _ => ?_, fun hn => ?_, fun x hx _ ho => ?_,
    Nat.le_refl _, ⟨rfl, rfl⟩⟩, ?_⟩
  · show Function.update w.k.interest w.c.fd none x = _
    rw [h.fd, Function.update_of_ne hx]
  · exact update_none_eq_none hn
  · show Function.update w.k.opened w.c.fd false x = true
    rw [h.fd, Function.update_of_ne hx]
    exact ho
  · show Function.update w.k.interest w.c.fd none w₀.c.fd = none
    rw [h.fd, Function.update_of_ne hfd]
    exact h.dropped

theorem closeRequest_conf (w : World) : w.closeRequest.conf = w.conf := by
  unfold World.closeRequest World.touch
  split <;> split <;> rfl

theorem beside_closeRequest (w : World) : Beside w w.closeRequest := by
  apply beside_of_k (closeRequest_conf w)
  · rw [closeRequest_c]
  · rw [closeRequest_c]
  · rw [closeRequest_c]
  · exact closeRequest_k w

theorem Near.closedBoth {cp : Nat} (h : Near w₀ w) (hcp : w.c.pool = some cp) :
    Left w₀ w.closeBoth := by
  apply (h.beside (beside_closeRequest w)).closed
  rw [closeRequest_c]
  exact hcp

theorem Left.closedBoth {cp : Nat} (h : Left w₀ w) (hfd : w₀.c.fd ≠ -1)
    (hcp : w.c.pool = some cp) : Left w₀ w.closeBoth := by
  have hrequest : Left w₀ w.closeRequest := by
    refine ⟨(closeRequest_conf w).trans h.conf, ?_, ?_, ?_⟩
    · rw [closeRequest_c]
      exact h.fd
    · rw [closeRequest_k]
      exact h.apart
    · rw [closeRequest_k]
      exact h.dropped
  apply hrequest.closed hfd
  rw [closeRequest_c]
  exact hcp

theorem Confined.open (h : Confined w₀ .loop w) (hfd : w.c.fd ≠ -1) : Stays w₀ w := by
  rcases h with h | h
  · exact h
  · exact absurd h.fd hfd

/-- Every move keeps to the connection. -/
theorem Move.confined (hctl : Ctl p w) (hfd : w₀.c.fd ≠ -1) (h : Confined w₀ p w)
    (hm : Move (p, w) (q, w')) : Confined w₀ q w' := by
  cases hm with
  | @start _ w₁ n hr hs =>
    have hstays := (h.open (start_open hs).fd).beside (Reported.beside hr) hr.events
    exact hstays.beside (beside_opened w₁ _ n) rfl
  | startFails hs hc =>
    -- the descriptor is closed, and no other
    obtain ⟨cp, hcp, -⟩ := (start_open hs).pool
    have hnear := (h.open (start_open hs).fd).toNear
    exact Or.inr ((hnear.beside (beside_of_steady hc.conf hc.slot hc.id hc.fd hc.k)).closed
      (hc.pool.trans hcp))
  | @startCloses _ w₁ w₂ b n hr hs hb hsc =>
    obtain ⟨cp, hcp, -⟩ := (Reported.open (start_open hs) hr).pool
    have hstays := (h.open (start_open hs).fd).beside (Reported.beside hr) hr.events
    have hnear := hstays.toNear.beside (beside_opened w₁ b n)
    exact Or.inr ((hnear.beside (Scratch.beside hsc)).closedBoth (hsc.pool.trans hcp))
  | resumeLine hr hw _ => exact (h.open hw.fd).beside (Reported.beside hr) hr.events
  | resumeHeaders hr hw _ => exact (h.open hw.fd).beside (Reported.beside hr) hr.events
  | resumeWrite hr hw => exact (h.open hw.fd).beside (Reported.beside hr) hr.events
  | «have» hread _ _ => cases hread <;> exact h
  | @recv _ _ _ w₁ b bs hread _ _ _ ht _ _ =>
    have hgo : Stays w₀ w → Stays w₀ ((w₁.noteRecv b bs.length).setBuf (b.append bs)) := by
      intro hstays
      exact (hstays.beside (Took.beside ht) ht.events).beside
        (beside_of_k rfl rfl rfl rfl rfl) rfl
    cases hread <;> exact hgo h
  | idle hread _ _ => cases hread <;> exact Or.inl h
  | @wait _ _ _ w₁ b hread _ _ _ ht =>
    have hgo : Stays w₀ w → Stays w₀ (w₁.noteRecv b EHD_AGAIN) := by
      intro hstays
      exact (hstays.beside (Took.beside ht) ht.events).beside
        (beside_of_k rfl rfl rfl rfl rfl) rfl
    cases hread <;> exact Or.inl (hgo h)
  | @hangup _ w₁ b n _ _ ht _ =>
    have hnear : Near w₀ (w₁.noteRecv b n) :=
      (Near.beside (Stays.toNear h) (Took.beside ht)).beside (beside_of_k rfl rfl rfl rfl rfl)
    exact Or.inr (hnear.closedBoth (hctl.1.took ht).home)
  | @hangupTwice _ w₁ b n _ _ ht _ =>
    have hreading := hctl.1.took ht
    have hnear : Near w₀ (w₁.noteRecv b n) :=
      (Near.beside (Stays.toNear h) (Took.beside ht)).beside (beside_of_k rfl rfl rfl rfl rfl)
    exact Or.inr ((hnear.closedBoth hreading.home).closedBoth hfd (hreading.pool_hungUp b n))
  | @fail _ _ w₁ hp hs =>
    have hstays : Stays w₀ w := by
      cases p <;> first | exact h | exact absurd hp id
    exact Or.inr ((hstays.toNear.beside (Scratch.beside hs)).closedBoth
      (hs.pool.trans (hctl.serving (Or.inl hp)).home))
  | @noRoom _ _ w₁ hfull hs =>
    have hstays : Stays w₀ w := by
      cases hfull <;> exact h
    have hnoted : Stays w₀ w.noteNoRoom := hstays.beside (beside_of_k rfl rfl rfl rfl rfl) rfl
    exact Or.inr ((hnoted.toNear.beside (Scratch.beside hs)).closedBoth
      (hs.pool.trans (hctl.serving (Or.inl hfull.serves)).home))
  | lineMore _ _ _ => exact Stays.beside h (beside_of_k rfl rfl rfl rfl rfl) rfl
  | lineDone _ _ => exact Stays.beside h (beside_of_k rfl rfl rfl rfl rfl) rfl
  | stored hs =>
    obtain ⟨b, -, hc, -⟩ := hs.c
    exact Stays.beside h (beside_of_steady hs.conf (by rw [hc]) (by rw [hc]) (by rw [hc]) hs.k)
      (by rw [hc])
  | headerNext => exact h
  | headerMore _ _ => exact Stays.beside h (beside_of_k rfl rfl rfl rfl rfl) rfl
  | @headerDone _ w₁ b b' p' _ _ hs =>
    obtain ⟨b₁, -, hc⟩ := hs.c
    have hparsed : Stays w₀ (w.parsed p' b') :=
      Stays.beside h (beside_of_k rfl rfl rfl rfl rfl) rfl
    exact hparsed.beside (beside_of_steady hs.conf (by rw [hc]) (by rw [hc]) (by rw [hc]) hs.k)
      (by rw [hc])
  | headersDone _ _ => exact Stays.beside h (beside_of_k rfl rfl rfl rfl rfl) rfl
  | hand _ => exact Stays.beside h (beside_of_k rfl rfl rfl rfl rfl) rfl
  | @build _ w₁ f ha =>
    have hfilled : Stays w₀ w₁ :=
      Stays.beside h (Scratch.beside ha.toFilling.scratch) (by rw [ha.c])
    have hresp : Stays w₀ w₁.responding := hfilled.beside (beside_of_k rfl rfl rfl rfl rfl) rfl
    exact (hresp.registered hfd writeMask).beside (beside_of_k rfl rfl rfl rfl rfl) rfl
  | sent _ hw _ _ => exact Stays.beside h (Wrote.beside hw) hw.events
  | full _ hw _ => exact Or.inl (Stays.beside h (Wrote.beside hw) hw.events)
  | @keepAlive _ pool _ w₁ _ b _ hw _ _ _ =>
    have hidle : Stays w₀ (w₁.idle b pool) :=
      (Stays.beside h (Wrote.beside hw) hw.events).beside (beside_of_k rfl rfl rfl rfl rfl) rfl
    exact Or.inl (hidle.registered hfd readMask)
  | @keepAliveFails _ pool _ w₁ _ b hb hw _ _ _ _ =>
    have hnear : Near w₀ ((w₁.idle b pool).registered readMask false) :=
      (Near.beside (Stays.toNear h) (Wrote.beside hw)).beside
        ⟨rfl, rfl, rfl, rfl, rfl, fun _ ho => ho, Nat.le_refl _, rfl, rfl⟩
    exact Or.inr (hnear.closed (hctl.1.wrote hb hw).toServing.home)
  | _ => trivial

theorem Goes.confined {x : Handler Unit} (hctl : InLoop w₀) (hfd : w₀.c.fd ≠ -1)
    (hroot : Rooted w₀) (hx : Goes (.loop, w₀) x w) :
    wp x (fun _ w' => InLoop w' ∧ (Stays w₀ w' ∨ Left w₀ w')) (fun _ _ => True) w := by
  have hstays : Stays w₀ w₀ :=
    ⟨⟨rfl, rfl, rfl, rfl, fun _ _ _ => rfl, fun hn => hn, fun _ _ _ ho => ho,
      Nat.le_refl _, rfl, rfl⟩, hroot⟩
  have hwalk := Walks.invariant (I := fun p w => Ctl p w ∧ Confined w₀ p w)
    (fun p w q w' hp hm => ⟨Move.ctl hp.1 hm, Move.confined hp.1 hfd hp.2 hm⟩) (p := .loop) hx
    ⟨hctl, Or.inl hstays⟩
  exact wp_mono hwalk (fun _ w' h => h) fun _ _ _ => trivial

end Ehd.Http
