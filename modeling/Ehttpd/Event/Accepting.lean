import Ehttpd.Event.Loop

namespace Ehd

open Program Http Ehd.Cycle

variable {σ σ' : Cycle} {l s : Nat} {nonblocking : Bool} {rest : List AcceptResult}

/-- What `accept4` gives: never a descriptor that is open, and -1 in its place. -/
def AcceptResult.given (opened : Int → Bool) : AcceptResult → Option Nat
  | .descriptor s _ => if opened s then none else some s
  | _ => none

def openAfter (opened : Int → Bool) : List AcceptResult → Int → Bool
  | [] => opened
  | .descriptor s _ :: rest => openAfter (Function.update opened s true) rest
  | _ :: rest => openAfter opened rest

/-- The slot of `s` holds the connection that was accepted with `pool`, and epoll has it for
reading. -/
def Serves (σ : Cycle) (s pool : Nat) : Prop :=
  ∃ id, (σ.slots s).c = .accepted s id s pool ∧ σ.k.interest s = some ⟨readMask, s, id⟩

/-- What a call that takes the results `taken` has to leave: every accepted descriptor closed or
served, every new pool destroyed or in use, and `accept4` answered with -1 at last. -/
structure SocketsServed (σ : Cycle) (taken : List AcceptResult) (σ' : Cycle) : Prop where
  descriptors : ∀ (s : Nat) nonblocking, .descriptor s nonblocking ∈ taken → σ.k.opened s = false →
    σ'.k.opened s = false ∨ ∃ pool, Serves σ' s pool
  pools : ∀ pool, σ.k.pools ≤ pool → pool < σ'.k.pools →
    (∃ i, pool ∈ (σ'.slots i).t.destroyed) ∨ ∃ s, Serves σ' s pool
  refused : ∃ before r, taken = before ++ [r] ∧ r.given (openAfter σ.k.opened before) = none

/-- Until `accept4` gives -1, each descriptor has a slot, a pool and non-blocking mode, and is
registered; `n` of them have come before. -/
def EachSucceeds (l : Nat) (σ : Cycle) : (Int → Bool) → Nat → List AcceptResult → Prop
  | _, _, [] => True
  | opened, n, r :: rest =>
    match r with
    | .descriptor s nonblocking =>
      opened s = true ∨ s < σ.connectionNum ∧ nonblocking = true ∧
        σ.k.allocOk (σ.slots l).c.readHandler (σ.k.allocs.length + n) = true ∧
        σ.k.epollOk (σ.k.epolls + n) = true ∧
        EachSucceeds l σ (Function.update opened s true) (n + 1) rest
    | _ => True

def Cycle.poolCall (σ : Cycle) (l : Nat) (ok : Bool) : Allocation :=
  ⟨(σ.slots l).c.readHandler, .createPool σ.k.pools (16 * 1024), ok⟩

def Cycle.withPool (σ : Cycle) (l s : Nat) (rest : List AcceptResult) : Cycle :=
  { σ with
    accepts := rest
    k := { σ.k with
      opened := Function.update σ.k.opened s true
      allocs := σ.k.allocs ++ [σ.poolCall l true]
      pools := σ.k.pools + 1 } }

def Cycle.accepting (σ : Cycle) (l s : Nat) (rest : List AcceptResult) : Cycle :=
  ((σ.withPool l s rest).filled s σ.k.pools).put s
    ((((σ.withPool l s rest).filled s σ.k.pools).world s).registered readMask
      (σ.k.epollOk σ.k.epolls))

theorem put_onK (σ : Cycle) (i : Nat) (f : Kernel → Kernel) :
    σ.put i ((σ.world i).onK f) = { σ with k := f σ.k } := by
  unfold Cycle.put Cycle.world
  show ({ σ with
    slots := Function.update σ.slots i (σ.slots i), k := f σ.k } : Cycle) = _
  rw [Function.update_eq_self]

theorem wp_epollAdd {w : World} {event flags : UInt32} {Q : Rc → World → Prop}
    {E : Stop → World → Prop} : wp (Event.epollAdd event flags) Q E w ↔
      Q (if w.k.epollOk w.k.epolls then .ok else .error)
        (w.registered (event ||| flags) (w.k.epollOk w.k.epolls)) := by
  simp only [Event.epollAdd, epollCtl, wp_bind, wp_modify, wp_get, wp_set]
  have hsame : (w.onEv fun ev => { ev with active := true, events := event ||| flags }).k.epollOk
      (w.onEv fun ev => { ev with active := true, events := event ||| flags }).k.epolls =
        w.k.epollOk w.k.epolls := rfl
  rw [hsame]
  cases w.k.epollOk w.k.epolls
  · rfl
  · rfl

/-- A result with a new descriptor `s`: the loop goes on, or returns with nothing changed for
other descriptors. -/
theorem acceptLoop_turn {Q : Unit → Cycle → Prop} {E : Stop → Cycle → Prop}
    (hnew : σ.k.opened s = false)
    (hearly : ¬ (s < σ.connectionNum ∧ nonblocking = true ∧
      σ.k.allocOk (σ.slots l).c.readHandler σ.k.allocs.length = true) →
        ∀ k : Kernel, (∀ fd : Int, fd ≠ s → k.opened fd = σ.k.opened fd ∧
          k.interest fd = σ.k.interest fd) → σ.k.pools ≤ k.pools → SameChances σ.k k →
            Q () { σ with accepts := rest, k := k })
    (hgood : s < σ.connectionNum → nonblocking = true →
      σ.k.allocOk (σ.slots l).c.readHandler σ.k.allocs.length = true →
        wp (acceptLoop l rest) Q E (σ.accepting l s rest)) :
    wp (acceptLoop l (.descriptor s nonblocking :: rest)) Q E σ := by
  have hput : ∀ (k : Kernel) (f : Kernel → Kernel), (({ σ with accepts := rest, k := k } : Cycle).put l
      ((({ σ with accepts := rest, k := k } : Cycle).world l).onK f)) =
        { σ with accepts := rest, k := f k } :=
    fun k f => put_onK { σ with accepts := rest, k := k } l f
  have hopened : ∀ fd : Int, fd ≠ s → Function.update σ.k.opened s true fd = σ.k.opened fd :=
    fun fd hfd => Function.update_of_ne hfd _ _
  rw [acceptLoop, wp_bind, wp_modify, wp_bind, wp_get, if_neg (by simp [hnew]), wp_bind, wp_atSlot,
    wp_modify, put_onK]
  dsimp only
  by_cases hnum : s ≥ σ.connectionNum
  -- the descriptor has no slot, and is closed again
  · rw [if_pos hnum, wp_atSlot, wp_modify, World.closeFd, hput]
    refine hearly (fun h => absurd h.1 (by omega)) _ (fun fd hfd => ?_) ?_ ?_
    · constructor
      · exact (Function.update_of_ne hfd _ _).trans (hopened fd hfd)
      · exact Function.update_of_ne hfd _ _
    · exact Nat.le_refl _
    · exact ⟨rfl, rfl⟩
  · rw [if_neg hnum, wp_bind, wp_atSlot, createPool, wp_bind, wp_allocate]
    constructor
    · intro halloc
      rw [if_pos rfl, wp_bind, wp_get, wp_bind, wp_set, wp_pure]
      have hpool := hput { σ.k with opened := Function.update σ.k.opened s true } fun k =>
        { k with allocs := k.allocs ++ [σ.poolCall l true], pools := k.pools + 1 }
      dsimp only
      cases nonblocking with
      | false =>
        -- the socket cannot be made non-blocking: the pool stays
        rw [if_pos (by decide), wp_pure]
        have hreturn := hearly (fun h => absurd h.2.1 (by decide)) { σ.k with
          opened := Function.update σ.k.opened s true
          allocs := σ.k.allocs ++ [σ.poolCall l true]
          pools := σ.k.pools + 1 } (fun fd hfd => ⟨hopened fd hfd, rfl⟩) (Nat.le_succ _) ⟨rfl, rfl⟩
        rw [← hpool] at hreturn
        exact hreturn
      | true =>
        rw [if_neg (by decide), wp_bind, wp_fillSlot, wp_bind, wp_atSlot, wp_epollAdd]
        have hrest := hgood (by omega) rfl halloc
        unfold Cycle.accepting Cycle.withPool at hrest
        rw [← hpool] at hrest
        exact hrest
    · intro halloc
      -- no pool
      rw [if_neg (by decide), wp_pure]
      dsimp only
      have hrefused : σ.k.allocOk (σ.slots l).c.readHandler σ.k.allocs.length = false := halloc
      have hreturn := hearly (fun h => by simp [hrefused] at h) { σ.k with
        opened := Function.update σ.k.opened s true
        allocs := σ.k.allocs ++ [σ.poolCall l false] } (fun fd hfd => ⟨hopened fd hfd, rfl⟩)
        (Nat.le_refl _) ⟨rfl, rfl⟩
      rw [← hput { σ.k with opened := Function.update σ.k.opened s true } fun k =>
        { k with allocs := k.allocs ++ [σ.poolCall l false] }] at hreturn
      exact hreturn

section Accepting

variable (σ l s rest)

theorem accepting_slots_ne {j : Nat} (hj : j ≠ s) :
    (σ.accepting l s rest).slots j = σ.slots j := by
  unfold Cycle.accepting
  rw [slots_put_ne hj]
  exact Function.update_of_ne hj _ _

theorem accepting_slot :
    ((σ.accepting l s rest).slots s).c = .accepted s σ.nextId s σ.k.pools := by
  unfold Cycle.accepting Cycle.filled Cycle.world
  rw [slots_put_self]
  simp only [Function.update_self]
  rfl

theorem accepting_interest (fd : Int) : (σ.accepting l s rest).k.interest fd =
    if σ.k.epollOk σ.k.epolls = true ∧ fd = s then some ⟨readMask, s, σ.nextId⟩
    else σ.k.interest fd := by
  have hslot : (((σ.withPool l s rest).filled s σ.k.pools).slots s).c =
      { slot := s, id := σ.nextId, fd := s, readHandler := .initConnection
        pool := some σ.k.pools } := by
    unfold Cycle.filled
    simp only [Function.update_self]
    rfl
  show (if σ.k.epollOk σ.k.epolls = true then Function.update σ.k.interest
    (((σ.withPool l s rest).filled s σ.k.pools).slots s).c.fd (some ⟨readMask,
      (((σ.withPool l s rest).filled s σ.k.pools).slots s).c.slot,
      (((σ.withPool l s rest).filled s σ.k.pools).slots s).c.id⟩) else σ.k.interest) fd = _
  rw [hslot]
  by_cases hok : σ.k.epollOk σ.k.epolls = true
  · rw [if_pos hok]
    by_cases hfd : fd = s
    · rw [if_pos ⟨hok, hfd⟩, hfd]
      exact Function.update_self _ _ _
    · rw [if_neg (fun h => hfd h.2)]
      exact Function.update_of_ne hfd _ _
  · rw [if_neg hok, if_neg (fun h => hok h.1)]

end Accepting

structure Undisturbed (σ σ' : Cycle) (fd : Nat) : Prop where
  slot : σ'.slots fd = σ.slots fd
  opened : σ'.k.opened fd = true
  interest : σ'.k.interest fd = σ.k.interest fd

theorem acceptFails_undisturbed : wp (acceptFails l)
    (fun _ σ' => σ'.k = σ.k ∧ σ'.accepts = σ.accepts ∧ ∀ j, j ≠ l → σ'.slots j = σ.slots j)
    (fun _ _ => True) σ := by
  unfold acceptFails
  rw [wp_atSlot, wp_modify]
  exact ⟨rfl, rfl, fun j hj => slots_put_ne hj⟩

/-- The loop disturbs no open descriptor but its own. -/
theorem acceptLoop_undisturbed (rs : List AcceptResult) (hl : σ.k.opened l = true) :
    wp (acceptLoop l rs) (fun _ σ' => ∀ fd : Nat, fd ≠ l → σ.k.opened fd = true →
      Undisturbed σ σ' fd) (fun _ _ => True) σ := by
  induction rs generalizing σ with
  | nil => trivial
  | cons r rest ih =>
    have hfails : wp (acceptFails l) (fun _ σ' => ∀ fd : Nat, fd ≠ l → σ.k.opened fd = true →
        Undisturbed σ σ' fd) (fun _ _ => True) { σ with accepts := rest } := by
      apply wp_mono acceptFails_undisturbed
      · intro _ σ' h fd hfd ho
        obtain ⟨hk, -, hslots⟩ := h
        exact ⟨hslots fd hfd, hk ▸ ho, by rw [hk]⟩
      · intro _ _ _
        trivial
    cases r with
    | again =>
      rw [acceptLoop, wp_modify]
      intro fd _ ho
      exact ⟨rfl, ho, rfl⟩
    | fail =>
      rw [acceptLoop, wp_bind, wp_modify]
      exact hfails
    | descriptor s nonblocking =>
      by_cases ho : σ.k.opened s = true
      · rw [acceptLoop, wp_bind, wp_modify, wp_bind, wp_get, if_pos ho]
        exact hfails
      -- the kernel gives a descriptor that was closed, so no open one is it
      · have hne : ∀ fd : Nat, σ.k.opened fd = true → fd ≠ s := by
          intro fd hfd heq
          exact ho (heq ▸ hfd)
        apply acceptLoop_turn (Bool.eq_false_iff.2 ho)
        · intro _ k hk _ _ fd _ hfd
          obtain ⟨hopened, hinterest⟩ := hk fd (by exact_mod_cast hne fd hfd)
          exact ⟨rfl, hopened.trans hfd, hinterest⟩
        · intro _ _ _
          have hopened : ∀ fd : Nat, σ.k.opened fd = true →
              (σ.accepting l s rest).k.opened fd = true := by
            intro fd hfd
            show Function.update σ.k.opened s true fd = true
            rw [Function.update_of_ne (by exact_mod_cast hne fd hfd)]
            exact hfd
          apply wp_mono (ih (hopened l hl))
          · intro _ σ' h fd hfdl hfd
            -- the rest of the loop starts with the new slot filled
            have hrest := h fd hfdl (hopened fd hfd)
            refine ⟨hrest.slot.trans (accepting_slots_ne σ l s rest (hne fd hfd)), hrest.opened, ?_⟩
            rw [hrest.interest, accepting_interest, if_neg]
            intro h
            exact hne fd hfd (by exact_mod_cast h.2)
          · intro _ _ _
            trivial

/-- The condition on the results that are left, after one more connection. -/
theorem eachSucceeds_accepting (hs : s ≠ l) (opened : Int → Bool) (n : Nat)
    (rs : List AcceptResult) : EachSucceeds l (σ.accepting l s rest) opened n rs ↔
      EachSucceeds l σ opened (n + 1) rs := by
  induction rs generalizing opened n with
  | nil => exact Iff.rfl
  | cons r rs ih =>
    cases r with
    | again => exact Iff.rfl
    | fail => exact Iff.rfl
    | descriptor t nonblocking =>
      simp only [EachSucceeds]
      rw [ih, accepting_slots_ne σ l s rest hs.symm]
      have hallocs : (σ.accepting l s rest).k.allocs.length + n = σ.k.allocs.length + (n + 1) := by
        show (σ.k.allocs ++ [σ.poolCall l true]).length + n = _
        rw [List.length_append, List.length_singleton]
        omega
      have hepolls : (σ.accepting l s rest).k.epolls + n = σ.k.epolls + (n + 1) := by
        show σ.k.epolls + 1 + n = _
        omega
      rw [hallocs, hepolls]
      exact Iff.rfl

/-- A descriptor that epoll does not know yet. -/
theorem served_accepting_iff (hnone : σ.k.interest s = none)
    (h : Undisturbed (σ.accepting l s rest) σ' s) :
    (σ'.k.opened s = false ∨ ∃ pool, Serves σ' s pool) ↔ σ.k.epollOk σ.k.epolls = true := by
  constructor
  · intro hserved
    obtain hclosed | ⟨pool, id, -, hinterest⟩ := hserved
    · rw [h.opened] at hclosed
      cases hclosed
    · rw [h.interest, accepting_interest, hnone] at hinterest
      by_contra hok
      rw [if_neg (fun h => hok h.1)] at hinterest
      cases hinterest
  · intro hok
    refine Or.inr ⟨σ.k.pools, σ.nextId, ?_, ?_⟩
    · rw [h.slot]
      exact accepting_slot σ l s rest
    · rw [h.interest, accepting_interest]
      exact if_pos ⟨hok, rfl⟩

/-- One more connection: what is asked of the whole call is asked of the registration and of the
rest of the call. -/
theorem socketsServed_cons_iff {taken : List AcceptResult} (hnew : σ.k.opened s = false)
    (hnone : σ.k.interest s = none) (h : Undisturbed (σ.accepting l s rest) σ' s) :
    SocketsServed σ (.descriptor s nonblocking :: taken) σ' ↔
      σ.k.epollOk σ.k.epolls = true ∧ SocketsServed (σ.accepting l s rest) taken σ' := by
  have hgiven : (AcceptResult.descriptor s nonblocking).given σ.k.opened = some s := by
    simp [AcceptResult.given, hnew]
  have hself : (σ.accepting l s rest).k.opened s = true := Function.update_self _ _ _
  have hother : ∀ t : Nat, t ≠ s → (σ.accepting l s rest).k.opened t = σ.k.opened t :=
    fun t ht => Function.update_of_ne (by exact_mod_cast ht) _ _
  constructor
  · intro hserved
    refine ⟨(served_accepting_iff hnone h).1
      (hserved.descriptors s nonblocking List.mem_cons_self hnew), ?_, ?_, ?_⟩
    · intro t nb hmem ht
      -- the first descriptor is not given a second time while it is open
      have hts : t ≠ s := by
        intro hts
        rw [hts, hself] at ht
        cases ht
      exact hserved.descriptors t nb (List.mem_cons_of_mem _ hmem) ((hother t hts).symm.trans ht)
    · intro pool hle hlt
      have hle' : σ.k.pools + 1 ≤ pool := hle
      exact hserved.pools pool (by omega) hlt
    · obtain ⟨before, r, htaken, hr⟩ := hserved.refused
      cases before with
      | nil =>
        obtain ⟨rfl, -⟩ := List.cons.inj htaken
        cases hgiven.symm.trans hr
      | cons r' before =>
        rw [List.cons_append] at htaken
        obtain ⟨rfl, hrest⟩ := List.cons.inj htaken
        exact ⟨before, r, hrest, hr⟩
  · intro hserved
    obtain ⟨hok, hserved⟩ := hserved
    have hhere := (served_accepting_iff hnone h).2 hok
    refine ⟨?_, ?_, ?_⟩
    · intro t nb hmem ht
      by_cases hts : t = s
      · rw [hts]
        exact hhere
      · rcases List.mem_cons.1 hmem with heq | hmem
        · cases heq
          exact absurd rfl hts
        · exact hserved.descriptors t nb hmem ((hother t hts).trans ht)
    · intro pool hle hlt
      -- the first pool went to the first descriptor
      by_cases hpool : pool = σ.k.pools
      · refine Or.inr ⟨s, σ.nextId, ?_, ?_⟩
        · rw [h.slot, hpool]
          exact accepting_slot σ l s rest
        · rw [h.interest, accepting_interest]
          exact if_pos ⟨hok, rfl⟩
      · apply hserved.pools pool _ hlt
        show σ.k.pools + 1 ≤ pool
        omega
    · obtain ⟨before, r, rfl, hr⟩ := hserved.refused
      exact ⟨.descriptor s nonblocking :: before, r, rfl, hr⟩

theorem socketsServed_refused {r : AcceptResult} (hr : r.given σ.k.opened = none)
    (hpools : σ'.k.pools = σ.k.pools) : SocketsServed σ [r] σ' where
  descriptors s nonblocking hmem hs := by
    rw [← List.mem_singleton.1 hmem] at hr
    simp [AcceptResult.given, hs] at hr
  pools pool hle hlt := by omega
  refused := ⟨[], r, rfl, hr⟩

theorem not_socketsServed_early (hnew : σ.k.opened s = false) :
    ¬ SocketsServed σ [.descriptor s nonblocking] σ' := by
  intro h
  obtain ⟨before, r, htaken, hr⟩ := h.refused
  obtain ⟨rfl, rfl⟩ : before = [] ∧ r = .descriptor s nonblocking := by
    cases before with
    | nil => exact ⟨rfl, (List.singleton_inj.1 htaken).symm⟩
    | cons _ before =>
      have hlen := congrArg List.length htaken
      simp at hlen
  have hgiven : (if σ.k.opened s then none else some s : Option Nat) = none := hr
  rw [hnew] at hgiven
  cases hgiven

theorem acceptLoop_served_iff (rs : List AcceptResult) (hl : σ.k.opened l = true)
    (hclosed : ∀ fd, σ.k.opened fd = false → σ.k.interest fd = none) :
    wp (acceptLoop l rs) (fun _ σ' => ∃ taken, rs = taken ++ σ'.accepts ∧
      (SocketsServed σ taken σ' ↔ EachSucceeds l σ σ.k.opened 0 rs)) (fun _ _ => True) σ := by
  induction rs generalizing σ with
  | nil => trivial
  | cons r rest ih =>
    -- a result without a new descriptor serves nothing, and loses nothing
    have hfails : ∀ r : AcceptResult, r.given σ.k.opened = none →
        EachSucceeds l σ σ.k.opened 0 (r :: rest) →
        wp (acceptFails l) (fun _ σ' => ∃ taken, r :: rest = taken ++ σ'.accepts ∧
          (SocketsServed σ taken σ' ↔ EachSucceeds l σ σ.k.opened 0 (r :: rest)))
          (fun _ _ => True) { σ with accepts := rest } := by
      intro r hr heach
      apply wp_mono acceptFails_undisturbed
      · intro _ σ' h
        obtain ⟨hk, haccepts, -⟩ := h
        refine ⟨[r], by rw [haccepts]; rfl, iff_of_true (socketsServed_refused hr ?_) heach⟩
        rw [hk]
      · intro _ _ _
        trivial
    cases r with
    | again =>
      rw [acceptLoop, wp_modify]
      exact ⟨[.again], rfl, iff_of_true (socketsServed_refused rfl rfl) trivial⟩
    | fail =>
      rw [acceptLoop, wp_bind, wp_modify]
      exact hfails .fail rfl trivial
    | descriptor s nonblocking =>
      by_cases ho : σ.k.opened s = true
      · rw [acceptLoop, wp_bind, wp_modify, wp_bind, wp_get, if_pos ho]
        exact hfails (.descriptor s nonblocking) (by simp [AcceptResult.given, ho]) (Or.inl ho)
      · have hnew := Bool.eq_false_iff.2 ho
        have hsl : s ≠ l := by
          intro hsl
          rw [hsl] at ho
          exact ho hl
        apply acceptLoop_turn hnew
        · intro hearly k _ _ _
          refine ⟨[.descriptor s nonblocking], rfl,
            iff_of_false (not_socketsServed_early hnew) fun heach => ?_⟩
          obtain hopen | ⟨hnum, hnonblocking, halloc, -⟩ := heach
          · exact ho hopen
          · exact hearly ⟨hnum, hnonblocking, halloc⟩
        · intro hnum hnonblocking halloc
          -- the rest of the loop runs with the descriptor open
          have hl' : (σ.accepting l s rest).k.opened l = true := by
            show Function.update σ.k.opened s true l = true
            rw [Function.update_of_ne (by exact_mod_cast hsl.symm)]
            exact hl
          have hclosed' : ∀ fd, (σ.accepting l s rest).k.opened fd = false →
              (σ.accepting l s rest).k.interest fd = none := by
            intro fd hfd
            have hfds : fd ≠ s := by
              intro hfds
              rw [hfds, show (σ.accepting l s rest).k.opened s = true from
                Function.update_self _ _ _] at hfd
              cases hfd
            rw [accepting_interest, if_neg (fun h => hfds h.2)]
            exact hclosed fd ((Function.update_of_ne hfds _ _).symm.trans hfd)
          apply wp_mono (wp_and (ih hl' hclosed') (acceptLoop_undisturbed rest hl'))
          · intro _ σ' h
            obtain ⟨⟨taken, htaken, hiff⟩, hundisturbed⟩ := h
            refine ⟨.descriptor s nonblocking :: taken, by rw [htaken]; rfl, ?_⟩
            rw [socketsServed_cons_iff hnew (hclosed s hnew)
              (hundisturbed s hsl (Function.update_self _ _ _)), hiff, eachSucceeds_accepting hsl]
            constructor
            · intro h
              exact Or.inr ⟨hnum, hnonblocking, halloc, h.1, h.2⟩
            · intro h
              obtain ⟨-, -, -, hok, heach⟩ := h.resolve_left ho
              exact ⟨hok, heach⟩
          · intro _ _ _
            trivial

/-- When a call of `ehd_event_accept_handler` on an open listening socket returns, the sockets it
has taken are served, with every result that it meets, if and only if each step for each of them
has succeeded. -/
theorem accepted_sockets_served (l : Nat) (σ σ' : Cycle) (hl : σ.k.opened l = true)
    (hclosed : ∀ fd, σ.k.opened fd = false → σ.k.interest fd = none)
    (h : eventAcceptHandler l σ = .ok () σ') :
    ∃ taken, σ.accepts = taken ++ σ'.accepts ∧
      (SocketsServed σ taken σ' ↔ EachSucceeds l σ σ.k.opened 0 σ.accepts) := by
  have hwp := acceptLoop_served_iff (l := l) σ.accepts hl hclosed
  exact (wp_of_ok (x := acceptLoop l σ.accepts) h).1 hwp

def waitingCycle : Cycle :=
  { sampleCycle with accepts := [.descriptor 7 true, .descriptor 8 true, .again] }

theorem accepted_sockets_served_two : ∃ taken, waitingCycle.accepts = taken ++
    (after (eventAcceptHandler 3) waitingCycle).accepts ∧
      SocketsServed waitingCycle taken (after (eventAcceptHandler 3) waitingCycle) := by
  obtain ⟨taken, htaken, hiff⟩ := accepted_sockets_served 3 waitingCycle _ (by decide)
    (fun _ _ => rfl) (eq_ok_of_returns (by decide))
  refine ⟨taken, htaken, hiff.2 (Or.inr ⟨by decide, rfl, rfl, rfl, ?_⟩)⟩
  exact Or.inr ⟨by decide, rfl, rfl, rfl, trivial⟩

def refusedCycle : Cycle :=
  { sampleCycle with accepts := [.descriptor 7 true, .descriptor 8 false, .again] }

/-- Its descriptor stays open, without a slot. -/
theorem blocking_socket_leaks : ¬ ∀ (l : Nat) (σ σ' : Cycle), σ.k.opened l = true →
    (∀ fd, σ.k.opened fd = false → σ.k.interest fd = none) →
      eventAcceptHandler l σ = .ok () σ' →
        ∃ taken, σ.accepts = taken ++ σ'.accepts ∧ SocketsServed σ taken σ' := by
  intro h
  obtain ⟨taken, htaken, hserved⟩ := h 3 refusedCycle _ (by decide) (fun _ _ => rfl)
    (eq_ok_of_returns (by decide))
  have hleft : (after (eventAcceptHandler 3) refusedCycle).accepts = [.again] := by decide
  rw [hleft, show refusedCycle.accepts =
    [.descriptor 7 true, .descriptor 8 false] ++ [.again] from rfl] at htaken
  have hmem : AcceptResult.descriptor 8 false ∈ taken := by
    rw [← List.append_cancel_right htaken]
    decide
  obtain hclosed | ⟨pool, id, -, hinterest⟩ := hserved.descriptors 8 false hmem (by decide)
  · revert hclosed
    decide
  · have hnone : (after (eventAcceptHandler 3) refusedCycle).k.interest 8 = none := by decide
    cases hnone.symm.trans hinterest

end Ehd
