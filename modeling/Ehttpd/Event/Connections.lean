import Ehttpd.Event.Accepting
import Ehttpd.Http.Framing

namespace Ehd

open Program Http Ehd.Cycle

variable {σ σ' σ'' : Cycle} {w : World} {i l s : Nat} {e : EpollEvent} {es : List EpollEvent}
  {rest : List AcceptResult}

structure Occupied (σ : Cycle) (i : Nat) : Prop where
  fd : (σ.slots i).c.fd ≠ -1
  serves : ¬ Listens σ i

def Separate (σ : Cycle) : Prop := ∀ i, Occupied σ i → Http.Run Kernel.Reliable none (σ.world i)

theorem Occupied.of_eq (h : Occupied σ' i) (hslot : σ'.slots i = σ.slots i) : Occupied σ i := by
  refine ⟨?_, fun hl => h.serves ⟨?_, ?_, ?_⟩⟩
  · rw [← hslot]
    exact h.fd
  · rw [hslot]
    exact hl.open'
  · rw [hslot]
    exact hl.readHandler
  · rw [hslot]
    exact hl.mask

theorem Occupied.of_slot (hfd : (σ.slots i).c.fd = i)
    (hrh : (σ.slots i).c.readHandler ≠ .eventAccept) : Occupied σ i :=
  ⟨by omega, fun hl => hrh hl.readHandler⟩

theorem Separate.of_eq (h : Separate σ) (hconf : σ'.conf = σ.conf) (hslots : σ'.slots = σ.slots)
    (hk : σ'.k = σ.k) : Separate σ' := by
  intro i hi
  have hworld : σ'.world i = σ.world i := by
    unfold world
    rw [hconf, hslots, hk]
  rw [hworld]
  exact h i (hi.of_eq (congrFun hslots i))

theorem Separate.put (h : Separate σ) (hk : w.k.Reliable) (hpools : σ.k.pools ≤ w.k.pools)
    (hw : Occupied (σ.put i w) i → Http.Run Kernel.Reliable none ((σ.put i w).world i)) :
    Separate (σ.put i w) := by
  intro j hj
  by_cases hji : j = i
  · rw [hji] at hj ⊢
    exact hw hj
  · rw [world_put_ne hji]
    exact Calls.env (h j (hj.of_eq (slots_put_ne hji))) ⟨w.k, hk, hpools, rfl⟩

/-- What a call of `ehd_event_accept_handler` for the slot `l` leaves: every other slot is as it
was, or holds a connection that has just been accepted. -/
structure Admits (l : Nat) (σ σ' : Cycle) : Prop where
  conf : σ'.conf = σ.conf
  listens : (σ'.slots l).c = { (σ.slots l).c with ev := (σ'.slots l).c.ev } ∧
    (σ'.slots l).c.ev.events = (σ.slots l).c.ev.events
  slots : ∀ i, i ≠ l → σ'.slots i = σ.slots i ∨ Accepted (σ'.world i)
  pools : σ.k.pools ≤ σ'.k.pools
  chances : SameChances σ.k σ'.k

theorem Admits.trans (h : Admits l σ σ') (h' : Admits l σ' σ'') : Admits l σ σ'' where
  conf := h'.conf.trans h.conf
  listens := by
    refine ⟨?_, h'.listens.2.trans h.listens.2⟩
    rw [h'.listens.1, h.listens.1]
  slots i hi := by
    rcases h'.slots i hi with hsame | hnew
    · rcases h.slots i hi with hsame' | hnew
      · exact Or.inl (hsame.trans hsame')
      · -- accepted in an earlier turn
        obtain ⟨⟨slot, id, fd, pool, hc, hfd, hpool⟩, ht⟩ := hnew
        refine Or.inr ⟨⟨slot, id, fd, pool, ?_, hfd, hpool.trans_le h'.pools⟩, ?_⟩
        · show (σ''.slots i).c = _
          rw [hsame]
          exact hc
        · show (σ''.slots i).t = _
          rw [hsame]
          exact ht
    · exact Or.inr hnew
  pools := h.pools.trans h'.pools
  chances := h.chances.trans h'.chances

/-- A turn of the loop that accepts a connection. -/
theorem admits_accepting (hsl : s ≠ l) : Admits l σ (σ.accepting l s rest) where
  conf := rfl
  listens := by
    rw [accepting_slots_ne σ l s rest (Ne.symm hsl)]
    exact ⟨rfl, rfl⟩
  slots i _ := by
    by_cases his : i = s
    · rw [his]
      refine Or.inr ⟨⟨s, σ.nextId, s, σ.k.pools, accepting_slot σ l s rest, natCast_ne_neg_one s,
        Nat.lt_succ_self _⟩, ?_⟩
      show ((σ.accepting l s rest).slots s).t = _
      unfold Cycle.accepting
      rw [slots_put_self]
      show (((σ.withPool l s rest).filled s σ.k.pools).slots s).t = _
      unfold Cycle.filled
      simp only [Function.update_self]
    · exact Or.inl (accepting_slots_ne σ l s rest his)
  pools := Nat.le_succ _
  chances := ⟨rfl, rfl⟩

/-- The loop of `ehd_event_accept_handler`, by induction on the results of `accept4`. -/
theorem acceptLoop_admits (rs : List AcceptResult) (hl : σ.k.opened l = true) :
    wp (acceptLoop l rs) (fun _ σ' => Admits l σ σ') (fun e _ => e = .blocked) σ := by
  induction rs generalizing σ with
  | nil => exact rfl
  | cons r rest ih =>
    -- a call that ends without a new connection
    have hfails : wp (acceptFails l) (fun _ σ' => Admits l σ σ') (fun e _ => e = .blocked)
        { σ with accepts := rest } := by
      unfold acceptFails
      rw [wp_atSlot, wp_modify]
      refine ⟨rfl, ?_, fun i hi => Or.inl (slots_put_ne hi), Nat.le_refl _, ⟨rfl, rfl⟩⟩
      rw [slots_put_self]
      exact ⟨rfl, rfl⟩
    cases r with
    | again =>
      rw [acceptLoop, wp_modify]
      exact ⟨rfl, ⟨rfl, rfl⟩, fun _ _ => Or.inl rfl, Nat.le_refl _, ⟨rfl, rfl⟩⟩
    | fail =>
      rw [acceptLoop, wp_bind, wp_modify]
      exact hfails
    | descriptor s nonblocking =>
      by_cases ho : σ.k.opened s = true
      · rw [acceptLoop, wp_bind, wp_modify, wp_bind, wp_get, if_pos ho]
        exact hfails
      · have hsl : s ≠ l := by
          rintro rfl
          exact ho hl
        apply acceptLoop_turn (Bool.eq_false_iff.2 ho)
        · intro _ k _ hpools hchances
          exact ⟨rfl, ⟨rfl, rfl⟩, fun _ _ => Or.inl rfl, hpools, hchances⟩
        · intro _ _ _
          have hl' : (σ.accepting l s rest).k.opened l = true := by
            show Function.update σ.k.opened s true l = true
            rw [Function.update_of_ne (by exact_mod_cast Ne.symm hsl)]
            exact hl
          exact wp_mono (ih hl') (fun _ _ h => (admits_accepting hsl).trans h) fun _ _ h => h

/-- A connection that is accepted starts a run; the others see the kernel change. -/
theorem Separate.admits (h : Separate σ) (hk : σ.k.Reliable)
    (hl : Listens σ l) (ha : Admits l σ σ') : Separate σ' := by
  have hk' : σ'.k.Reliable := ha.chances.reliable hk
  intro i hi
  have hil : i ≠ l := by
    rintro rfl
    obtain ⟨hc, hevents⟩ := ha.listens
    refine hi.serves ⟨hi.fd, ?_, hevents.trans hl.mask⟩
    rw [hc]
    exact hl.readHandler
  rcases ha.slots i hil with hsame | hnew
  · have hworld : σ'.world i = { σ.world i with k := σ'.k } := by
      unfold world
      rw [ha.conf, hsame]
    rw [hworld]
    exact Calls.env (h i (hi.of_eq hsame)) ⟨σ'.k, hk', ha.pools, rfl⟩
  · exact Calls.init ⟨hnew, hk'⟩

theorem dispatch_reads {events : UInt32} (hfd : w.c.fd ≠ -1) (hout : ¬ (events &&& EPOLLOUT ≠ 0))
    (hin : events &&& EPOLLIN ≠ 0) :
    dispatch events w = callReadHandler (w.onEv fun ev => { ev with rready := true }) := by
  apply eq_of_wp
  intro Q E h
  unfold dispatch reportWritable reportReadable
  rw [wp_bind, wp_get, if_neg hfd, wp_bind, if_neg hout, wp_pure, if_pos hin, wp_bind, wp_modify]
  exact h

theorem dispatch_writes {events : UInt32} (hfd : w.c.fd ≠ -1) (hout : events &&& EPOLLOUT ≠ 0)
    (hin : ¬ (events &&& EPOLLIN ≠ 0)) :
    dispatch events w = callWriteHandler (w.onEv fun ev => { ev with wready := true }) := by
  apply eq_of_wp
  intro Q E h
  unfold dispatch reportWritable reportReadable
  rw [wp_bind, wp_get, if_neg hfd, wp_bind, if_pos hout, wp_bind, wp_modify, if_neg hin]
  exact wp_mono h (fun _ _ h => h) fun _ _ h => h

/-- The loop calls for an entry the handler that a dispatch to its connection calls. -/
theorem Separate.handled {x : Handler Unit} {f : Event → Event} (h : Between (e :: es) σ)
    (hsep : Separate σ) (hoccupied : Occupied σ e.slot)
    (hx : dispatch e.events (σ.world e.slot) = x ((σ.world e.slot).onEv f)) :
    wp (atSlot e.slot x) (fun _ σ' => Separate σ') (fun e _ => e = .blocked)
      (σ.calling e ((σ.world e.slot).onEv f)) := by
  obtain ⟨hopen, -, hev⟩ := h.held e List.mem_cons_self
  have hrun := hsep e.slot hoccupied
  have hloop : InLoop (σ.world e.slot) := hrun.ctl
  have hrooted : Rooted (σ.world e.slot) := (h.owned e.slot hopen).rooted
  have hconfined := Goes.confined hloop hopen hrooted (dispatch_goes hloop hev)
  have hworld : (σ.calling e ((σ.world e.slot).onEv f)).world e.slot =
      (σ.world e.slot).onEv f :=
    world_put_self (σ := σ) (w := (σ.world e.slot).onEv f) rfl
  rw [wp_atSlot, hworld]
  unfold wp
  rw [← hx]
  cases hd : dispatch e.events (σ.world e.slot) with
  | ok u w' =>
    have hrun' : Http.Run Kernel.Reliable none w' := Calls.call hrun ⟨e.events, hev, rfl⟩ hd
    obtain ⟨hconf, hapart⟩ : w'.conf = σ.conf ∧ Apart (σ.world e.slot).c.fd σ.k w'.k := by
      rcases ((wp_of_ok hd).1 hconfined).2 with hc | hc
      · exact ⟨hc.conf, hc.apart⟩
      · exact ⟨hc.conf, hc.apart⟩
    have hput : Separate (σ.put e.slot w') := by
      apply hsep.put hrun'.reliable hapart.pools
      intro _
      rw [world_put_self hconf]
      exact hrun'
    have hslots : ((σ.calling e ((σ.world e.slot).onEv f)).put e.slot w').slots =
        (σ.put e.slot w').slots := Function.update_idem _ _ _
    exact hput.of_eq rfl hslots rfl
  | error stop w' =>
    have hrun' : Http.Run Kernel.Reliable (some stop) w' := Calls.stop hrun ⟨e.events, hev, rfl⟩ hd
    exact hrun'.ctl.2 hrun'.reliable

/-- One entry. -/
theorem processEvent_separate (h : Between (e :: es) σ) (hsep : Separate σ) :
    wp (processEvent e) (fun _ σ' => Separate σ') (fun e _ => e = .blocked) σ := by
  obtain ⟨hopen, -, hev⟩ := h.held e List.mem_cons_self
  have howns := h.owned e.slot hopen
  unfold processEvent reportWritableAt reportReadableAt
  rw [wp_bind, wp_get, if_neg hopen, wp_bind]
  -- one direction is asked for, so one of the two reports does nothing
  rcases howns.mask with hmask | ⟨hmask, hresp⟩
  · have hout : ¬ (e.events &&& EPOLLOUT ≠ 0) := by
      intro hout
      have hbit := hev.2 hout
      rw [hmask] at hbit
      exact hbit readMask_directions.2
    rw [if_neg hout, wp_pure]
    by_cases hin : e.events &&& EPOLLIN ≠ 0
    · rw [if_pos hin, wp_calling]
      unfold callReadAt
      rw [wp_bind, wp_get]
      have hrh : ((σ.calling e ((σ.world e.slot).onEv fun ev => { ev with rready := true })).slots
          e.slot).c.readHandler = (σ.slots e.slot).c.readHandler := by
        unfold Cycle.calling
        rw [slots_put_self]
        rfl
      rw [hrh]
      by_cases haccept : (σ.slots e.slot).c.readHandler = .eventAccept
      · -- a listening socket
        rw [if_pos haccept]
        unfold eventAcceptHandler
        rw [wp_bind, wp_get]
        generalize hσ₁ : σ.calling e ((σ.world e.slot).onEv fun ev => { ev with rready := true }) = σ₁
        have hl₁ : Listens σ₁ e.slot := by
          have hslot : (σ₁.slots e.slot).c = ((σ.world e.slot).onEv fun ev => { ev with rready := true }).c := by
            rw [← hσ₁]
            unfold Cycle.calling
            rw [slots_put_self]
          refine ⟨?_, ?_, ?_⟩
          · rw [hslot]
            exact hopen
          · rw [hslot]
            exact haccept
          · rw [hslot]
            exact hmask
        have hk₁ : σ₁.k = σ.k := by rw [← hσ₁]; rfl
        have hsep₁ : Separate σ₁ := by
          have hput : Separate (σ.put e.slot ((σ.world e.slot).onEv fun ev => { ev with rready := true })) := by
            apply hsep.put h.reliable (Nat.le_refl _)
            intro hoccupied
            apply absurd _ hoccupied.serves
            rw [← hσ₁] at hl₁
            exact ⟨hl₁.open', hl₁.readHandler, hl₁.mask⟩
          rw [← hσ₁]
          exact hput.of_eq rfl rfl rfl
        have hopened : σ₁.k.opened e.slot = true := by
          rw [hk₁, ← howns.fd]
          exact howns.rooted.opened
        refine wp_mono (acceptLoop_admits _ hopened) (fun _ σ' ha => ?_) fun _ _ hstop => hstop
        apply hsep₁.admits _ hl₁ ha
        rw [hk₁]
        exact h.reliable
      · rw [if_neg haccept]
        exact hsep.handled h ⟨hopen, fun hl => haccept hl.readHandler⟩ (dispatch_reads hopen hout hin)
    · rw [if_neg hin, wp_pure]
      exact hsep
  · have hin : ¬ (e.events &&& EPOLLIN ≠ 0) := by
      intro hin
      have hbit := hev.1 hin
      rw [hmask] at hbit
      exact hbit writeMask_directions.1
    rw [if_neg hin]
    by_cases hout : e.events &&& EPOLLOUT ≠ 0
    · have hserves : ¬ Listens σ e.slot := by
        intro hl
        have hread : (σ.world e.slot).c.ev.events = readMask := hl.mask
        rw [hmask] at hread
        exact absurd hread (by decide)
      rw [if_pos hout, wp_calling]
      exact hsep.handled h ⟨hopen, hserves⟩ (dispatch_writes hopen hout hin)
    · rw [if_neg hout, wp_pure, wp_pure]
      exact hsep

theorem processEvents_separate (h : Between es σ) (hsep : Separate σ) :
    wp (processEvents es) (fun _ σ' => Separate σ') (fun e _ => e = .blocked) σ := by
  induction es generalizing σ with
  | nil => exact hsep
  | cons e es ih =>
    unfold processEvents
    rw [wp_bind]
    refine wp_mono (wp_and (processEvent_rule h) (processEvent_separate h hsep)) ?_ ?_
    · rintro _ σ' ⟨hbetween, hsep'⟩
      exact ih hbetween hsep'
    · rintro _ _ ⟨-, hstop⟩
      exact hstop

theorem Owns.armed (h : Owns i w) : w.c.ev.events = readMask ∧ w.c.readHandler ≠ .blockRead ∨
    w.c.ev.events = writeMask ∧ w.c.writeHandler = some .writer := by
  rcases h.serves with ⟨hrh, hmask⟩ | hc | hc | hc | hc | hc
  · exact Or.inl ⟨hmask, by rw [hrh]; decide⟩
  · exact absurd hc.fd h.open
  · exact Or.inl ⟨hc.mask, by rw [hc.readHandler]; decide⟩
  · exact Or.inl ⟨hc.mask, by rw [hc.readHandler]; decide⟩
  · refine Or.inl ⟨hc.mask, ?_⟩
    rcases hc.readHandler with hrh | ⟨hrh, -⟩
    · rw [hrh]
      decide
    · rw [hrh]
      decide
  · exact Or.inr ⟨hc.mask, hc.writeHandler⟩

/-- The open slots are listening sockets, and those that do not wait in `todo` are registered. -/
def ListensOnly (todo : List Nat) (σ : Cycle) : Prop :=
  ∀ i, (σ.slots i).c.fd ≠ -1 → (σ.slots i).c.readHandler = .eventAccept ∧
    (i ∈ todo ∨ (σ.slots i).c.ev.events = readMask)

/-- `ehd_event_enable_accept`, by induction on the listening sockets. -/
theorem eventEnableAccept_listens {todo : List Nat} (h : ListensOnly todo σ) (hk : σ.k.Reliable) :
    wp (eventEnableAccept todo) (fun _ σ' => ListensOnly [] σ') (fun _ _ => True) σ := by
  induction todo generalizing σ with
  | nil => exact h
  | cons i todo ih =>
    unfold eventEnableAccept
    rw [wp_bind, wp_atSlot, wp_epollAdd]
    have hok : (σ.world i).k.epollOk (σ.world i).k.epolls = true := hk.2 _
    rw [hok, if_pos rfl, if_neg (by decide)]
    have hk' : (σ.put i ((σ.world i).registered (EHD_READ_EVENT ||| EPOLLET) true)).k.Reliable := hk
    refine ih (fun j hj => ?_) hk'
    by_cases hji : j = i
    · rw [hji, slots_put_self] at hj ⊢
      exact ⟨(h i hj).1, Or.inr rfl⟩
    · rw [slots_put_ne hji] at hj ⊢
      obtain ⟨hrh, hmem | hmask⟩ := h j hj
      · exact ⟨hrh, Or.inl ((List.mem_cons.1 hmem).resolve_left hji)⟩
      · exact ⟨hrh, Or.inr hmask⟩

theorem Started.separate (h : Started Kernel.Reliable σ) : Separate σ := by
  obtain ⟨conf, n, listening, memory, k, accepts, rc, hk, -, -, heq⟩ := h
  have hstart : ListensOnly listening (eventInit conf n listening memory k accepts) := by
    intro i hi
    have hslot : (eventInit conf n listening memory k accepts).slots i =
        if i ∈ listening then Slot.listening i else (memory i).free := rfl
    by_cases hmem : i ∈ listening
    · rw [hslot, if_pos hmem]
      exact ⟨rfl, Or.inl hmem⟩
    · rw [hslot, if_neg hmem] at hi
      exact absurd rfl hi
  have hlistens := (wp_of_ok heq).1 (eventEnableAccept_listens hstart hk)
  intro i hi
  obtain ⟨hrh, hmem | hmask⟩ := hlistens i hi.fd
  · cases hmem
  · exact absurd ⟨hi.fd, hrh, hmask⟩ hi.serves

/-- Between two batches the connections are separate, and a batch only stops where there is no
result of a system call yet. -/
theorem Cycle.Run.separate {o : Option Stop} (h : Cycle.Run Kernel.Reliable o σ) :
    (o = none → Separate σ) ∧ ∀ e, o = some e → e = .blocked := by
  refine And.right (Calls.invariant (I := fun o σ => (o = none → Between [] σ) ∧
    (o = none → Separate σ) ∧ ∀ e, o = some e → e = .blocked) ?_ ?_ ?_ h)
  · intro σ hstart
    exact ⟨fun _ => Started.between hstart, fun _ => Started.separate hstart, fun _ he => by cases he⟩
  · rintro σ x ⟨hb, hsep, -⟩ ⟨es, hbatch, rfl⟩
    have hbetween : Between es σ :=
      ⟨(hb rfl).toOrderly, (hb rfl).toHeard, hbatch.due (hb rfl).toOrderly⟩
    refine wp_mono (wp_and (processEvents_rule hbetween)
      (processEvents_separate hbetween (hsep rfl))) ?_ ?_
    · rintro _ σ' ⟨hb', hsep'⟩
      exact ⟨fun _ => hb', fun _ => hsep', fun _ he => by cases he⟩
    · rintro e σ' ⟨-, hstop⟩
      refine ⟨fun hnone => ?_, fun hnone => ?_, fun e' he' => (Option.some.inj he').symm.trans hstop⟩
      · cases hnone
      · cases hnone
  · rintro σ σ' ⟨hb, hsep, -⟩ hawaits
    refine ⟨fun _ => (hb rfl).awaits hawaits, fun _ => ?_, fun _ he => by cases he⟩
    obtain ⟨k, accepts, hk, -, -, hpools, rfl⟩ := hawaits
    intro i hi
    exact Calls.env (hsep rfl i (hi.of_eq rfl)) ⟨k, hk, hpools, rfl⟩

/-- A server that listens on descriptor 3.  Two clients wait; the second is slow, and the request
of the first arrives at once. -/
def twoClients : Cycle :=
  eventInit ehdConfInit 10 [3] (fun _ => { c := { slot := 0, id := 0, readHandler := .blockRead } })
    { sampleKernel [.data (ascii "GET / HT"), .data (ascii "GET / HTTP/1.1\x0d\n\x0d\n")]
        [.sent 10000, .sent 10000] with opened := fun fd => fd == 3 }
    [.descriptor 7 true, .descriptor 8 true, .again]

def twoStarted : Cycle := after (eventEnableAccept [3]) twoClients

def twoAccepted : Cycle := after (processEvents [⟨3, EPOLLIN, 3, 3⟩]) twoStarted

def twoServed : Cycle := after (processEvents [⟨8, EPOLLIN, 8, 11⟩, ⟨7, EPOLLIN, 7, 10⟩]) twoAccepted

theorem two_accepted : Cycle.Run Kernel.Reliable none twoAccepted := by
  have hstarted : Cycle.Run Kernel.Reliable none twoStarted := by
    have hret : returns (eventEnableAccept [3]) twoClients = true := by decide
    obtain ⟨rc, hrc⟩ := exists_ok_of_returns hret
    refine Calls.init ⟨_, _, _, _, _, _, rc, ⟨fun _ _ => rfl, fun _ => rfl⟩, fun _ => rfl, ?_, hrc⟩
    intro fd hfd
    rw [List.mem_singleton.1 hfd]
    decide
  refine Calls.call hstarted ⟨[⟨3, EPOLLIN, 3, 3⟩], ⟨by decide, fun e he => ?_⟩, rfl⟩
    (eq_ok_of_returns (by decide))
  rw [List.mem_singleton.1 he]
  exact ⟨readMask, by decide, by decide, by decide⟩

theorem two_run : Cycle.Run Kernel.Reliable none twoServed := by
  refine Calls.call two_accepted ⟨[⟨8, EPOLLIN, 8, 11⟩, ⟨7, EPOLLIN, 7, 10⟩],
    ⟨by decide, fun e he => ?_⟩, rfl⟩ (eq_ok_of_returns (by decide +kernel))
  rcases List.mem_cons.1 he with rfl | he
  · exact ⟨readMask, by decide, by decide, by decide⟩
  · rw [List.mem_singleton.1 he]
    exact ⟨readMask, by decide, by decide, by decide⟩

theorem two_occupied : Occupied twoServed 7 ∧ Occupied twoServed 8 := by
  have hfd : (twoServed.slots 7).c.fd = (7 : Nat) ∧ (twoServed.slots 8).c.fd = (8 : Nat) := by
    decide +kernel
  have hrh : (twoServed.slots 7).c.readHandler ≠ .eventAccept ∧
      (twoServed.slots 8).c.readHandler ≠ .eventAccept := by decide +kernel
  exact ⟨Occupied.of_slot hfd.1 hrh.1, Occupied.of_slot hfd.2 hrh.2⟩

/-- In every run of the event loop, with every batch in every order, the state of each connection
in the table is one that this connection reaches in a run without any other. -/
theorem connections_run_alone (h : Cycle.Run Kernel.Reliable none σ)
    (hfd : (σ.slots i).c.fd ≠ -1) (hl : ¬ Listens σ i) :
    Http.Run Kernel.Reliable none (σ.world i) :=
  h.separate.1 rfl i ⟨hfd, hl⟩

theorem connections_run_alone_two : Http.Run Kernel.Reliable none (twoServed.world 7) ∧
    Http.Run Kernel.Reliable none (twoServed.world 8) :=
  ⟨connections_run_alone two_run two_occupied.1.fd two_occupied.1.serves,
    connections_run_alone two_run two_occupied.2.fd two_occupied.2.serves⟩

/-- No batch dereferences `NULL`, reads `c->data` at a wrong type or runs for ever: the loop only
waits for the kernel. -/
theorem server_only_blocks {e : Stop} (h : Cycle.Run Kernel.Reliable (some e) σ) : e = .blocked :=
  h.separate.2 e rfl

/-- No third client has come yet. -/
theorem server_only_blocks_two : ∃ e σ, Cycle.Run Kernel.Reliable (some e) σ ∧ e = .blocked := by
  have hstop : stopped (processEvents [⟨3, EPOLLIN, 3, 3⟩]) twoAccepted = some .blocked := by
    decide +kernel
  have hrun : Cycle.Run Kernel.Reliable (some .blocked)
      (after (processEvents [⟨3, EPOLLIN, 3, 3⟩]) twoAccepted) := by
    refine Calls.stop two_accepted ⟨[⟨3, EPOLLIN, 3, 3⟩], ⟨by decide, fun e he => ?_⟩, rfl⟩
      (eq_error_of_stopped hstop)
    rw [List.mem_singleton.1 he]
    exact ⟨readMask, by decide, by decide, by decide⟩
  exact ⟨_, _, hrun, server_only_blocks hrun⟩

/-- However the events of the clients are interleaved, what the kernel has accepted for a client
are the answers to requests of its own, in the order of the bytes that came from it. -/
theorem clients_get_their_answers (h : Cycle.Run Kernel.Reliable none σ)
    (hfd : (σ.slots i).c.fd ≠ -1) (hl : ¬ Listens σ i) :
    ∃ asked done now rest, OnWire (σ.world i) asked done now ∧
      (asked ++ rest).map Handed.toHead <+:
        requests (σ.slots i).t.received.length (σ.slots i).t.received ∧ rest.length ≤ 1 := by
  have hrun := h.separate.1 rfl i ⟨hfd, hl⟩
  obtain ⟨asked, done, now, rest, hwire, hhanded, hrest⟩ := hrun.wire.ended
  obtain ⟨C, hheads, -⟩ := hrun.stream
  refine ⟨asked, done, now, rest, hwire, ?_, hrest⟩
  rw [← hhanded]
  have hprefix := (hheads.append []).prefix_requests
  rw [List.append_nil] at hprefix
  exact hprefix

theorem clients_get_their_answers_two : ∃ asked done now rest,
    OnWire (twoServed.world 7) asked done now ∧ (asked ++ rest).map Handed.toHead <+:
      requests (twoServed.slots 7).t.received.length (twoServed.slots 7).t.received ∧
        rest.length ≤ 1 :=
  clients_get_their_answers two_run two_occupied.1.fd two_occupied.1.serves

/-- What epoll has registered is what the table holds: each open slot, and no other, in the one
direction that its handler works in. -/
theorem epoll_has_the_table (h : Cycle.Run Kernel.Reliable none σ) :
    (∀ fd it, σ.k.interest fd = some it ↔ ∃ i : Nat, fd = i ∧ (σ.slots i).c.fd ≠ -1 ∧
      it = ⟨(σ.slots i).c.ev.events, i, (σ.slots i).c.id⟩) ∧
    ∀ i, (σ.slots i).c.fd ≠ -1 → (σ.slots i).c.fd = i ∧ σ.k.opened i = true ∧
      ((σ.slots i).c.ev.events = readMask ∧ (σ.slots i).c.readHandler ≠ .blockRead ∨
        (σ.slots i).c.ev.events = writeMask ∧ (σ.slots i).c.writeHandler = some .writer) := by
  have hb := h.between.1 rfl
  have hentry : ∀ i : Nat, (σ.slots i).c.fd ≠ -1 →
      σ.k.interest i = some ⟨(σ.slots i).c.ev.events, i, (σ.slots i).c.id⟩ := by
    intro i hi
    have howns := hb.owned i hi
    have hroot : σ.k.interest (σ.slots i).c.fd =
        some ⟨(σ.slots i).c.ev.events, (σ.slots i).c.slot, (σ.slots i).c.id⟩ :=
      howns.rooted.interest
    rw [show (σ.slots i).c.fd = i from howns.fd, show (σ.slots i).c.slot = i from howns.slot] at hroot
    exact hroot
  refine ⟨fun fd it => ⟨fun hit => ?_, ?_⟩, fun i hi => ?_⟩
  · obtain ⟨i, rfl, hi⟩ := hb.interest fd it hit
    rw [hentry i hi] at hit
    exact ⟨i, rfl, hi, (Option.some.inj hit).symm⟩
  · rintro ⟨i, rfl, hi, rfl⟩
    exact hentry i hi
  · have howns := hb.owned i hi
    have hopened : σ.k.opened (σ.slots i).c.fd = true := howns.rooted.opened
    rw [show (σ.slots i).c.fd = i from howns.fd] at hopened
    exact ⟨howns.fd, hopened, howns.armed⟩

theorem epoll_has_the_table_two : (∀ fd it, twoServed.k.interest fd = some it ↔
    ∃ i : Nat, fd = i ∧ (twoServed.slots i).c.fd ≠ -1 ∧
      it = ⟨(twoServed.slots i).c.ev.events, i, (twoServed.slots i).c.id⟩) ∧
    (twoServed.slots 7).c.ev.events = readMask :=
  ⟨(epoll_has_the_table two_run).1, by decide +kernel⟩

end Ehd
