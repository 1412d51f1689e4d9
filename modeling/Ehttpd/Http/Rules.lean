import Ehttpd.Event.Dispatch
import Ehttpd.Lib.Program
import Mathlib.Tactic.SplitIfs

namespace Ehd

open Program

def Kernel.Reliable (k : Kernel) : Prop := (∀ h n, k.allocOk h n = true) ∧ ∀ n, k.epollOk n = true

def Kernel.Refused (k : Kernel) (h : ReadHandler) : Prop :=
  ∃ before call, k.allocs = before ++ [⟨h, call, false⟩] ∧ k.allocOk h before.length = false

def Kernel.EpollFails (k : Kernel) : Prop := ∃ n, k.epollOk n = false

structure Kernel.Steady (k k' : Kernel) : Prop where
  allocOk : k'.allocOk = k.allocOk
  epollOk : k'.epollOk = k.epollOk
  pools : k'.pools = k.pools
  interest : k'.interest = k.interest
  opened : ∀ fd, k.opened fd = true → k'.opened fd = true

namespace Kernel

theorem Steady.refl (k : Kernel) : k.Steady k := ⟨rfl, rfl, rfl, rfl, fun _ h => h⟩

theorem Steady.trans {k k' k'' : Kernel} (h : k.Steady k') (h' : k'.Steady k'') :
    k.Steady k'' :=
  ⟨h'.allocOk.trans h.allocOk, h'.epollOk.trans h.epollOk, h'.pools.trans h.pools,
    h'.interest.trans h.interest, fun fd hfd => h'.opened fd (h.opened fd hfd)⟩

theorem Steady.epollFails {k k' : Kernel} (h : k.Steady k') : k'.EpollFails ↔ k.EpollFails := by
  simp [EpollFails, h.epollOk]

theorem Refused.not_reliable {k : Kernel} {h : ReadHandler} (hk : k.Refused h) : ¬ k.Reliable := by
  obtain ⟨before, call, -, hn⟩ := hk
  intro hr
  rw [hr.1 h before.length] at hn
  cases hn

theorem EpollFails.not_reliable {k : Kernel} (hk : k.EpollFails) : ¬ k.Reliable := by
  obtain ⟨n, hn⟩ := hk
  intro hr
  rw [hr.2 n] at hn
  cases hn

theorem Steady.reliable {k k' : Kernel} (h : k.Steady k') : k'.Reliable ↔ k.Reliable := by
  simp [Reliable, h.allocOk, h.epollOk]

end Kernel

/-- `w'` belongs to the same connection and request as `w`, and closing `w'`
releases what closing `w` does. -/
structure World.Scratch (w w' : World) : Prop where
  conf : w'.conf = w.conf
  slot : w'.c.slot = w.c.slot
  id : w'.c.id = w.c.id
  fd : w'.c.fd = w.c.fd
  pool : w'.c.pool = w.c.pool
  home : w'.r.home = w.r.home
  requestPool : w'.r.pool = w.r.pool
  k : w.k.Steady w'.k
  t : w'.t = { w.t with paths := w'.t.paths, opens := w'.t.opens }

namespace World

theorem Scratch.refl (w : World) : w.Scratch w :=
  ⟨rfl, rfl, rfl, rfl, rfl, rfl, rfl, .refl _, rfl⟩

theorem Scratch.trans {w w' w'' : World} (h : w.Scratch w') (h' : w'.Scratch w'') :
    w.Scratch w'' where
  conf := h'.conf.trans h.conf
  slot := h'.slot.trans h.slot
  id := h'.id.trans h.id
  fd := h'.fd.trans h.fd
  pool := h'.pool.trans h.pool
  home := h'.home.trans h.home
  requestPool := h'.requestPool.trans h.requestPool
  k := h.k.trans h'.k
  t := by rw [h'.t, h.t]

theorem Scratch.destroyed {w w' : World} (h : w.Scratch w') :
    w'.t.destroyed = w.t.destroyed := by rw [h.t]

theorem Scratch.alive {w w' : World} (h : w.Scratch w') (hw : w.r.home ∉ w.t.destroyed) :
    w'.r.home ∉ w'.t.destroyed := by
  rw [h.home, h.destroyed]; exact hw

def noted (w : World) (call : World → AllocCall) (ok : Bool) : List Allocation :=
  w.k.allocs ++ [⟨w.c.readHandler, call w, ok⟩]

@[simp] theorem alloced_alloced (w : World) (m n : List Allocation) :
    (w.alloced m).alloced n = w.alloced n := rfl

@[simp] theorem alloced_onC (w : World) (n : List Allocation) (f : Connection → Connection) :
    (w.onC f).alloced n = (w.alloced n).onC f := rfl

@[simp] theorem alloced_onR (w : World) (n : List Allocation) (f : Http.Request → Http.Request) :
    (w.onR f).alloced n = (w.alloced n).onR f := rfl

theorem scratch_alloced (w : World) (n : List Allocation) : w.Scratch (w.alloced n) :=
  ⟨rfl, rfl, rfl, rfl, rfl, rfl, rfl, ⟨rfl, rfl, rfl, rfl, fun _ h => h⟩, rfl⟩

theorem scratch_onR (w : World) (f : Http.Request → Http.Request) (hh : (f w.r).home = w.r.home)
    (hp : (f w.r).pool = w.r.pool) : w.Scratch (w.onR f) :=
  ⟨rfl, rfl, rfl, rfl, rfl, hh, hp, .refl _, rfl⟩

theorem scratch_setBuf (w : World) (b : Buf) : w.Scratch (w.setBuf b) :=
  ⟨rfl, rfl, rfl, rfl, rfl, rfl, rfl, .refl _, rfl⟩

@[simp] theorem touch_conf (w : World) : w.touch.conf = w.conf := by unfold touch; split <;> rfl
@[simp] theorem touch_c (w : World) : w.touch.c = w.c := by unfold touch; split <;> rfl
@[simp] theorem touch_hc (w : World) : w.touch.hc = w.hc := by unfold touch; split <;> rfl
@[simp] theorem touch_r (w : World) : w.touch.r = w.r := by unfold touch; split <;> rfl
@[simp] theorem touch_k (w : World) : w.touch.k = w.k := by unfold touch; split <;> rfl

theorem touch_of_alive {w : World} (h : w.r.home ∉ w.t.destroyed) : w.touch = w := if_neg h

end World

variable {α : Type} {w : World} {E : Stop → World → Prop}

section Primitives

@[simp] theorem wp_getRequest {Q : Http.Request → World → Prop}
    (h : w.r.home ∉ w.t.destroyed) : wp getRequest Q E w ↔ Q w.r w := by
  simp [getRequest, World.touch_of_alive h]

@[simp] theorem wp_modifyRequest {Q : Unit → World → Prop} {f : Http.Request → Http.Request}
    (h : w.r.home ∉ w.t.destroyed) : wp (modifyRequest f) Q E w ↔ Q () (w.onR f) := by
  simp [modifyRequest, World.touch_of_alive h]

@[simp] theorem wp_getHeaderInBuf {Q : Buf → World → Prop} {b : Buf}
    (h : w.r.home ∉ w.t.destroyed) (hb : w.c.buf = some b) :
    wp getHeaderInBuf Q E w ↔ Q b w := by
  simp [getHeaderInBuf, World.touch_of_alive h, hb]

@[simp] theorem wp_setHeaderInBuf {Q : Unit → World → Prop} {b : Buf}
    (h : w.r.home ∉ w.t.destroyed) : wp (setHeaderInBuf b) Q E w ↔ Q () (w.setBuf b) := by
  simp [setHeaderInBuf, World.touch_of_alive h]

@[simp] theorem wp_allocate {Q : Bool → World → Prop} {call : World → AllocCall} :
    wp (allocate call) Q E w ↔
      (w.k.allocOk w.c.readHandler w.k.allocs.length = true →
        Q true (w.alloced (w.noted call true))) ∧
      (w.k.allocOk w.c.readHandler w.k.allocs.length = false →
        Q false (w.alloced (w.noted call false))) := by
  simp only [allocate, wp_bind, wp_get, wp_set, wp_pure, World.noted]
  cases w.k.allocOk w.c.readHandler w.k.allocs.length <;> simp

theorem World.refused_noted {call : World → AllocCall}
    (h : w.k.allocOk w.c.readHandler w.k.allocs.length = false) :
    (w.alloced (w.noted call false)).k.Refused w.c.readHandler :=
  ⟨w.k.allocs, call w, rfl, h⟩

theorem allocate_rule {Q : Bool → World → Prop} {call : World → AllocCall}
    (hok : ∀ n, Q true (w.alloced n))
    (hfail : ∀ n, (w.alloced n).k.Refused w.c.readHandler → Q false (w.alloced n)) :
    wp (allocate call) Q E w :=
  wp_allocate.2 ⟨fun _ => hok _, fun h => hfail _ (World.refused_noted h)⟩

@[simp] theorem wp_palloc {Q : Option (List UInt8) → World → Prop} {pool : World → Nat} {n : Nat} :
    wp (palloc pool n) Q E w ↔
      (w.k.allocOk w.c.readHandler w.k.allocs.length = true →
        Q (some ((List.range n).map (w.k.stale w.k.allocs.length)))
          (w.alloced (w.noted (fun w => .palloc false (pool w) n) true))) ∧
      (w.k.allocOk w.c.readHandler w.k.allocs.length = false →
        Q none (w.alloced (w.noted (fun w => .palloc false (pool w) n) false))) := by
  simp [palloc]

theorem palloc_rule {Q : Option (List UInt8) → World → Prop} {pool : World → Nat} {size : Nat}
    (hok : ∀ n area, area.length = size → Q (some area) (w.alloced n))
    (hfail : ∀ n, (w.alloced n).k.Refused w.c.readHandler → Q none (w.alloced n)) :
    wp (palloc pool size) Q E w :=
  wp_palloc.2 ⟨fun _ => hok _ _ (by simp), fun h => hfail _ (World.refused_noted h)⟩

theorem pcalloc_rule {Q : Option (List UInt8) → World → Prop} {pool : World → Nat} {size : Nat}
    (hok : ∀ n, Q (some (List.replicate size 0)) (w.alloced n))
    (hfail : ∀ n, (w.alloced n).k.Refused w.c.readHandler → Q none (w.alloced n)) :
    wp (pcalloc pool size) Q E w := by
  unfold pcalloc
  rw [wp_bind]
  exact allocate_rule (fun n => hok n) (fun n h => hfail n h)

theorem createTempBuf_rule {Q : Option Buf → World → Prop} {pool : World → Nat} {size : Nat}
    (hok : ∀ n, Q (some (.temp size)) (w.alloced n))
    (hfail : ∀ n, (w.alloced n).k.Refused w.c.readHandler → Q none (w.alloced n)) :
    wp (createTempBuf pool size) Q E w := by
  unfold createTempBuf
  rw [wp_bind]
  refine allocate_rule (fun n => ?_) (fun n h => hfail n h)
  rw [if_pos rfl, wp_bind]
  exact allocate_rule (fun m => hok m) (fun m h => hfail m h)

theorem listRoom_rule {β : Type} {l : EList β} {Q : Bool → World → Prop}
    (hok : ∀ n, Q true (w.alloced n))
    (hfail : ∀ n, (w.alloced n).k.Refused w.c.readHandler → Q false (w.alloced n)) :
    wp (listRoom l) Q E w := by
  unfold listRoom
  split
  · rw [wp_bind]
    refine allocate_rule (fun n => ?_) (fun n h => hfail n h)
    exact allocate_rule (fun m => hok m) (fun m h => hfail m h)
  · exact hok w.k.allocs

theorem createPool_rule {Q : Option Nat → World → Prop} {size : Nat}
    (hok : ∀ n, Q (some w.k.pools)
      ((w.alloced n).onK fun k => { k with pools := k.pools + 1 }))
    (hfail : ∀ n, (w.alloced n).k.Refused w.c.readHandler → Q none (w.alloced n)) :
    wp (createPool size) Q E w := by
  unfold createPool
  rw [wp_bind]
  refine allocate_rule (fun n => ?_) (fun n h => hfail n h)
  exact hok n

end Primitives

namespace World

structure Took (w w' : World) (bs : List UInt8) : Prop where
  conf : w'.conf = w.conf
  c : w'.c = { w.c with ev := w'.c.ev }
  events : w'.c.ev.events = w.c.ev.events
  closed : w'.c.ev.closed = w.c.ev.closed
  hc : w'.hc = w.hc
  r : w'.r = w.r
  k : w.k.Steady w'.k
  t : w'.t = { w.t with received := w.t.received ++ bs }
  budget : w'.k.recvBudget + bs.length ≤ w.k.recvBudget

theorem Took.refl (w : World) : w.Took w [] where
  conf := rfl
  c := rfl
  events := rfl
  closed := rfl
  hc := rfl
  r := rfl
  k := .refl _
  t := by simp
  budget := by simp

theorem Took.trans {w w' w'' : World} {bs : List UInt8} (h : w.Took w' []) (h' : w'.Took w'' bs) :
    w.Took w'' bs where
  conf := h'.conf.trans h.conf
  c := by rw [h'.c, h.c]
  events := h'.events.trans h.events
  closed := h'.closed.trans h.closed
  hc := h'.hc.trans h.hc
  r := h'.r.trans h.r
  k := h.k.trans h'.k
  t := by rw [h'.t, h.t, List.append_nil]
  budget := by have := h.budget; have := h'.budget; simp only [List.length_nil] at *; omega

end World

/-- The loop of `ehd_recv`, by induction on the results to come: each `EINTR`
uses one up. -/
theorem recv_go_rule {size : Nat} (hsize : 0 < size) {Q : Int × List UInt8 → World → Prop}
    {rs : List RecvResult} (hrs : w.k.recvs = rs)
    (hdata : ∀ w' bs, w.Took w' bs → bs ≠ [] → bs.length ≤ size → Q ((bs.length : Int), bs) w')
    (heof : ∀ w', w.Took w' [] → Q (0, []) w')
    (hagain : ∀ w', w.Took w' [] → Q (EHD_AGAIN, []) w')
    (hfail : ∀ w', w.Took w' [] → Q (EHD_ERROR, []) w')
    (hblock : ∀ w', w.Took w' [] → E .blocked w') : wp (recv.go size rs) Q E w := by
  induction rs generalizing w with
  | nil => exact hblock w (.refl w)
  | cons x rest ih =>
    cases x with
    | data bs =>
      simp only [recv.go, wp_bind, wp_modify, wp_pure]
      by_cases hbs : bs = []
      · subst hbs
        simp only [List.take_nil, List.length_nil, Nat.cast_zero]
        refine heof _ ⟨rfl, rfl, rfl, rfl, rfl, rfl, ⟨rfl, rfl, rfl, rfl, fun _ h => h⟩, rfl, ?_⟩
        simp [Kernel.recvBudget, hrs]
      · refine hdata _ _ ⟨rfl, rfl, rfl, rfl, rfl, rfl, ⟨rfl, rfl, rfl, rfl, fun _ h => h⟩, rfl, ?_⟩
          (by simp [hbs]; omega) (by simp)
        simp only [Kernel.recvBudget, World.onT_k, World.onEv_k, World.onK_k, hrs, List.length_take]
        split <;> simp only [List.map_cons, List.sum_cons, List.length_drop] <;> omega
    | intr =>
      simp only [recv.go, wp_bind, wp_modify]
      have hw : w.Took (w.onK fun k => { k with recvs := rest, errno := .intr }) [] :=
        ⟨rfl, rfl, rfl, rfl, rfl, rfl, ⟨rfl, rfl, rfl, rfl, fun _ h => h⟩, by simp,
          by simp [Kernel.recvBudget, hrs]⟩
      exact ih rfl (fun w' bs h => hdata w' bs (hw.trans h)) (fun w' h => heof w' (hw.trans h))
        (fun w' h => hagain w' (hw.trans h)) (fun w' h => hfail w' (hw.trans h))
        (fun w' h => hblock w' (hw.trans h))
    | again =>
      simp only [recv.go, wp_bind, wp_modify, wp_pure]
      exact hagain _ ⟨rfl, rfl, rfl, rfl, rfl, rfl, ⟨rfl, rfl, rfl, rfl, fun _ h => h⟩, by simp,
        by simp [Kernel.recvBudget, hrs]⟩
    | fail =>
      simp only [recv.go, wp_bind, wp_modify, wp_pure]
      exact hfail _ ⟨rfl, rfl, rfl, rfl, rfl, rfl, ⟨rfl, rfl, rfl, rfl, fun _ h => h⟩, by simp,
        by simp [Kernel.recvBudget, hrs]⟩

theorem recv_rule {size : Nat} {Q : Int × List UInt8 → World → Prop}
    (hdata : ∀ w' bs, w.Took w' bs → bs ≠ [] → bs.length ≤ size → Q ((bs.length : Int), bs) w')
    (heof : ∀ w', w.Took w' [] → Q (0, []) w')
    (hagain : ∀ w', w.Took w' [] → Q (EHD_AGAIN, []) w')
    (hfail : ∀ w', w.Took w' [] → Q (EHD_ERROR, []) w')
    (hblock : ∀ w', w.Took w' [] → E .blocked w') : wp (recv size) Q E w := by
  unfold recv
  split
  · simp only [wp_bind, wp_modify, wp_pure]
    exact heof _ ⟨rfl, rfl, rfl, rfl, rfl, rfl, .refl _, by simp, by simp⟩
  · rw [wp_bind, wp_get]
    exact recv_go_rule (by omega) rfl hdata heof hagain hfail hblock

namespace World

/-- `w` after `epoll_ctl` for the event mask `mask`; the entry is made when the
call succeeds. -/
@[simps!] def registered (w : World) (mask : UInt32) (ok : Bool) : World :=
  (w.onEv fun ev => { ev with active := true, events := mask }).onK fun k => { k with
    epolls := k.epolls + 1
    interest := if ok then Function.update k.interest w.c.fd (some ⟨mask, w.c.slot, w.c.id⟩)
      else k.interest }

end World

theorem epollAdd_rule {event flags : UInt32} {Q : Http.Rc → World → Prop}
    (hok : Q .ok (w.registered (event ||| flags) true))
    (herror : w.k.EpollFails → Q .error (w.registered (event ||| flags) false)) :
    wp (Event.epollAdd event flags) Q E w := by
  simp only [Event.epollAdd, epollCtl, wp_bind, wp_modify, wp_get, wp_set]
  simp only [wp_ite, wp_bind, wp_modify, wp_pure]
  refine ⟨fun _ => ⟨fun _ => hok, by simp⟩, fun h => ⟨by simp, fun _ => herror ⟨w.k.epolls, ?_⟩⟩⟩
  exact Bool.eq_false_iff.2 h

namespace World

def closeBoth (w : World) : World := w.closeRequest.closeConnection

theorem closeRequest_eq {w : World} (h : w.r.home ∉ w.t.destroyed) {pool : Nat}
    (hp : w.r.pool = some pool) : w.closeRequest = w.destroyPool pool := by
  simp [closeRequest, hp, touch_of_alive h]

theorem closeConnection_eq {w : World} {pool : Nat} (hp : w.c.pool = some pool) :
    w.closeConnection = ((w.onC fun c => { c with
      ev := { c.ev with closed := true }, fd := -1, data := .null }).destroyPool pool).closeFd
        w.c.fd := by
  simp [closeConnection, hp]

@[simp] theorem closeRequest_c (w : World) : w.closeRequest.c = w.c := by
  unfold closeRequest; split <;> simp

@[simp] theorem closeRequest_r (w : World) : w.closeRequest.r = w.r := by
  unfold closeRequest; split <;> simp

@[simp] theorem closeRequest_k (w : World) : w.closeRequest.k = w.k := by
  unfold closeRequest; split <;> simp

end World

@[simp] theorem wp_closeConnection {Q : Unit → World → Prop} :
    wp Http.closeConnection Q E w ↔ Q () w.closeConnection := Iff.rfl

@[simp] theorem wp_closeRequest {Q : Unit → World → Prop} :
    wp Http.closeRequest Q E w ↔ Q () w.closeRequest := Iff.rfl

@[simp] theorem wp_closeBoth {Q : Unit → World → Prop} :
    wp Http.closeBoth Q E w ↔ Q () w.closeBoth := by
  simp [Http.closeBoth, World.closeBoth]

namespace World

@[simps!] def noteRecv (w : World) (b : Buf) (n : Int) : World :=
  w.onT fun t => { t with
    recvs := t.recvs ++ [(w.c.readHandler, n)], reads := t.reads ++ [(b.last, b.room)] }

end World

/-- `ehd_http_read_request_header` returns what is unread, or a result of
`ehd_recv`; when it returns `EHD_ERROR` both pools are released. -/
theorem readRequestHeader_rule {Q : Int → World → Prop} {b : Buf}
    (halive : w.r.home ∉ w.t.destroyed) (hb : w.c.buf = some b)
    (hhave : b.unread ≠ [] → Q (b.unread.length : Int) w)
    (hrecv : b.unread = [] → ∀ w' bs, w.Took w' bs → bs ≠ [] → bs.length ≤ b.room →
      Q (bs.length : Int) ((w'.noteRecv b bs.length).setBuf (b.append bs)))
    (hidle : b.unread = [] → Q EHD_AGAIN w)
    (hagain : b.unread = [] → ∀ w', w.Took w' [] → Q EHD_AGAIN (w'.noteRecv b EHD_AGAIN))
    (hclose : b.unread = [] → ∀ w' n, w.Took w' [] → n = 0 ∨ n = EHD_ERROR →
      Q EHD_ERROR (w'.noteRecv b n).closeBoth)
    (hblock : b.unread = [] → ∀ w', w.Took w' [] → E .blocked w') :
    wp Http.readRequestHeader Q E w := by
  unfold Http.readRequestHeader
  rw [wp_bind, wp_getHeaderInBuf halive hb]
  by_cases hu : b.unread = []
  · rw [if_neg (by simp [hu]), wp_bind, wp_get]
    split
    · exact hidle hu
    · rw [wp_bind, recvAt, wp_bind]
      refine recv_rule (fun w' bs h hne hlen => ?_) (fun w' h => ?_) (fun w' h => ?_)
        (fun w' h => ?_) (hblock hu)
      · have hpos : 0 < bs.length := List.length_pos_iff.2 hne
        have halive' : w'.r.home ∉ w'.t.destroyed := by rw [h.r, h.t]; exact halive
        have hagain' : (bs.length : Int) ≠ EHD_AGAIN := by unfold EHD_AGAIN; omega
        have hend : ¬ ((bs.length : Int) = 0 ∨ (bs.length : Int) = EHD_ERROR) := by
          unfold EHD_ERROR; omega
        simp only [wp_bind, wp_modify, wp_pure, if_neg hagain', if_neg hend]
        rw [wp_setHeaderInBuf (by simpa using halive')]
        exact hrecv hu w' bs h hne hlen
      · have hzero : (0 : Int) ≠ EHD_AGAIN := by decide
        simp only [wp_bind, wp_modify, if_neg hzero, true_or, if_true, wp_closeBoth, wp_pure]
        exact hclose hu w' 0 h (Or.inl rfl)
      · simp only [wp_bind, wp_modify, if_true, wp_pure]
        exact hagain hu w' h
      · have herror : EHD_ERROR ≠ EHD_AGAIN := by decide
        simp only [wp_bind, wp_modify, if_neg herror, or_true, if_true, wp_closeBoth, wp_pure]
        exact hclose hu w' EHD_ERROR h (Or.inr rfl)
  · rw [if_pos (List.length_pos_iff.2 hu)]
    exact hhave hu

end Ehd
