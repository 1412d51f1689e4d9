import Ehttpd.Http.Lifecycle

namespace Ehd.Http

open Program World

variable {w w' w₁ : World} {made : Nat → Prop} {n : Nat} {p q : Pc}

/-- The pool belongs to a connection, or to a request, that is not over. -/
def InUse (w : World) (pool : Nat) : Prop :=
  w.c.fd ≠ -1 ∧ (w.c.pool = some pool ∨ w.c.data = .request ∧ w.r.pool = some pool)

/-- The pools that had been made, and those from `n` on, are the ones that have been destroyed or
are in use. -/
structure Ledger (made : Nat → Prop) (n : Nat) (w : World) : Prop where
  le : n ≤ w.k.pools
  exact : ∀ pool, made pool ∨ n ≤ pool ∧ pool < w.k.pools ↔ pool ∈ w.t.destroyed ∨ InUse w pool

def Booked (made : Nat → Prop) (n : Nat) : Pc → World → Prop
  | .stopped _, _ => True
  | _, w => Ledger made n w

structure SamePools (w w' : World) : Prop where
  fd : w'.c.fd = w.c.fd
  pool : w'.c.pool = w.c.pool
  data : w'.c.data = w.c.data
  requestPool : w'.r.pool = w.r.pool
  destroyed : w'.t.destroyed = w.t.destroyed
  pools : w'.k.pools = w.k.pools

theorem SamePools.inUse (hs : SamePools w w') (pool : Nat) : InUse w' pool ↔ InUse w pool := by
  unfold InUse
  rw [hs.fd, hs.pool, hs.data, hs.requestPool]

theorem Ledger.same (h : Ledger made n w) (hs : SamePools w w') : Ledger made n w' := by
  refine ⟨h.le.trans hs.pools.ge, fun pool => ?_⟩
  rw [hs.pools, hs.destroyed, hs.inUse]
  exact h.exact pool

theorem Reported.samePools (h : w.Reported w') : SamePools w w' := by
  constructor
  · rw [h.c]
  · rw [h.c]
  · rw [h.c]
  · rw [h.r]
  · rw [h.t]
  · rw [h.k]

theorem Took.samePools {bs : List UInt8} (h : w.Took w' bs) : SamePools w w' := by
  constructor
  · rw [h.c]
  · rw [h.c]
  · rw [h.c]
  · rw [h.r]
  · rw [h.t]
  · exact h.k.pools

theorem Wrote.samePools {last n : Nat} {b : Buf} {x : SendResult} (h : w.Wrote w' last b n x) :
    SamePools w w' := by
  obtain ⟨bs, -, ht⟩ := h.t
  constructor
  · rw [h.c]
  · rw [h.c]
  · rw [h.c]
  · rw [h.r]
  · rw [ht]
  · exact h.k.pools

theorem not_inUse_closed (hfd : w.c.fd = -1) (pool : Nat) : ¬ InUse w pool := fun h => h.1 hfd

theorem pools_closeConnection (w : World) : w.closeConnection.k.pools = w.k.pools := by
  unfold World.closeConnection
  split <;> rfl

theorem pools_closeBoth (w : World) : w.closeBoth.k.pools = w.k.pools := by
  unfold World.closeBoth
  rw [pools_closeConnection, closeRequest_k]

theorem Ledger.release (h : Ledger made n w) (ps : List Nat)
    (hinUse : ∀ pool, pool ∈ ps ↔ InUse w pool) (hd : w'.t.destroyed = w.t.destroyed ++ ps)
    (hpools : w'.k.pools = w.k.pools) (hfd : w'.c.fd = -1) : Ledger made n w' := by
  refine ⟨h.le.trans hpools.ge, fun pool => ?_⟩
  rw [hpools, h.exact pool, hd, List.mem_append, hinUse]
  constructor
  · exact Or.inl
  · rintro (hmem | ⟨hopen, -⟩)
    · exact hmem
    · exact absurd hfd hopen

/-- A connection without a request. -/
theorem Ledger.closed {cp : Nat} (h : Ledger made n w) (hopen : w.c.fd ≠ -1)
    (hdata : w.c.data ≠ .request) (hcp : w.c.pool = some cp) (hc : SameConnection w w₁) :
    Ledger made n w₁.closeConnection := by
  have ht := closeConnection_t (w := w₁) (hc.pool.trans hcp)
  refine h.release [cp] (fun pool => ?_) ?_ ?_ ht.2
  · rw [List.mem_singleton]
    constructor
    · rintro rfl
      exact ⟨hopen, Or.inl hcp⟩
    · rintro ⟨-, hpool | ⟨hrequest, -⟩⟩
      · exact Option.some.inj (hpool.symm.trans hcp)
      · exact absurd hrequest hdata
  · rw [ht.1, hc.t]
  · rw [pools_closeConnection]
    exact hc.k.pools

/-- A connection with a request. -/
theorem Ledger.closedBoth {rp cp : Nat} (h : Ledger made n w) (hopen : w.c.fd ≠ -1)
    (hdata : w.c.data = .request) (hrp : w.r.pool = some rp) (hcp : w.c.pool = some cp)
    (hrp₁ : w₁.r.pool = some rp) (hcp₁ : w₁.c.pool = some cp)
    (hd : w₁.t.destroyed = w.t.destroyed) (hpools : w₁.k.pools = w.k.pools) :
    Ledger made n w₁.closeBoth := by
  obtain ⟨hdestroyed, -, hfd, -⟩ := closeBoth_destroyed hrp₁ hcp₁
  refine h.release ([rp] ++ [cp]) (fun pool => ?_) ?_ ?_ hfd
  · rw [List.mem_append, List.mem_singleton, List.mem_singleton]
    constructor
    · rintro (rfl | rfl)
      · exact ⟨hopen, Or.inr ⟨hdata, hrp⟩⟩
      · exact ⟨hopen, Or.inl hcp⟩
    · rintro ⟨-, hpool | ⟨-, hpool⟩⟩
      · exact Or.inr (Option.some.inj (hpool.symm.trans hcp))
      · exact Or.inl (Option.some.inj (hpool.symm.trans hrp))
  · rw [hdestroyed, hd, List.append_assoc]
  · rw [pools_closeBoth, hpools]

theorem Ledger.closedServing (h : Ledger made n w) (hserving : Serving w) (hs : w.Scratch w₁) :
    Ledger made n w₁.closeBoth := by
  obtain ⟨rp, hrp, -⟩ := hserving.requestPool
  exact h.closedBoth hserving.fd hserving.data hrp hserving.home (hs.requestPool.trans hrp)
    (hs.pool.trans hserving.home) hs.destroyed hs.k.pools

/-- A new request has the next pool. -/
theorem Ledger.opened {b : Buf} {m : List Allocation} (h : Ledger made n w) (hopen : w.c.fd ≠ -1)
    (hdata : w.c.data ≠ .request) : Ledger made n (w.opened b m) := by
  refine ⟨h.le.trans (Nat.le_succ _), fun pool => ?_⟩
  have hpools : (w.opened b m).k.pools = w.k.pools + 1 := rfl
  have hinUse : InUse (w.opened b m) pool ↔ InUse w pool ∨ pool = w.k.pools := by
    constructor
    · rintro ⟨-, hpool | ⟨-, hpool⟩⟩
      · exact Or.inl ⟨hopen, Or.inl hpool⟩
      · exact Or.inr (Option.some.inj hpool).symm
    · rintro (⟨-, hpool | ⟨hrequest, -⟩⟩ | rfl)
      · exact ⟨hopen, Or.inl hpool⟩
      · exact absurd hrequest hdata
      · exact ⟨hopen, Or.inr ⟨rfl, rfl⟩⟩
  have hbefore := h.exact pool
  rw [hinUse, ← or_assoc, show (w.opened b m).t.destroyed = w.t.destroyed from rfl, ← hbefore, hpools]
  constructor
  · rintro (hmade | ⟨hle, hlt⟩)
    · exact Or.inl (Or.inl hmade)
    · by_cases heq : pool = w.k.pools
      · exact Or.inr heq
      · exact Or.inl (Or.inr ⟨hle, by omega⟩)
  · rintro ((hmade | ⟨hle, hlt⟩) | rfl)
    · exact Or.inl hmade
    · exact Or.inr ⟨hle, by omega⟩
    · exact Or.inr ⟨h.le, Nat.lt_succ_self _⟩

/-- The pool of a request that is over is destroyed. -/
theorem Ledger.idle {b : Buf} {pool : Nat} (h : Ledger made n w) (hopen : w.c.fd ≠ -1)
    (hdata : w.c.data = .request) (hpool : w.r.pool = some pool) :
    Ledger made n (w.idle b pool) := by
  refine ⟨h.le, fun x => ?_⟩
  have hbefore := h.exact x
  rw [show (w.idle b pool).k.pools = w.k.pools from rfl, hbefore,
    show (w.idle b pool).t.destroyed = w.t.destroyed ++ [pool] from rfl, List.mem_append,
    List.mem_singleton, or_assoc]
  apply or_congr Iff.rfl
  constructor
  · rintro ⟨-, hx | ⟨-, hx⟩⟩
    · exact Or.inr ⟨hopen, Or.inl hx⟩
    · exact Or.inl (Option.some.inj (hx.symm.trans hpool))
  · rintro (rfl | ⟨-, hx | ⟨hrequest, -⟩⟩)
    · exact ⟨hopen, Or.inr ⟨hdata, hpool⟩⟩
    · exact ⟨hopen, Or.inl hx⟩
    · cases hrequest

theorem start_data (h : Connected w ∨ Idle w) : w.c.data ≠ .request := by
  rcases h with h | h
  · rw [h.data]
    decide
  · rw [h.data]
    decide

theorem Ctl.booked (hctl : Ctl p w) (h : Booked made n p w) (hp : p.Serves ∨ p = .build) :
    Ledger made n w := by
  cases p with
  | stopped e => rcases hp with hp | hp <;> cases hp
  | _ => exact h

/-- Every move keeps the balance. -/
theorem Move.booked (hctl : Ctl p w) (h : Booked made n p w) (hm : Move (p, w) (q, w')) :
    Booked made n q w' := by
  cases hm with
  | @start _ w₁ m hr hs =>
    have hopen := Reported.open (start_open hs) hr
    have hsame := Reported.samePools hr
    refine (h.same hsame).opened hopen.fd ?_
    rw [hsame.data]
    exact start_data hs
  | startFails hs hc =>
    have hopen := start_open hs
    obtain ⟨cp, hcp, -⟩ := hopen.pool
    exact h.closed hopen.fd (start_data hs) hcp hc
  | @startCloses _ w₁ w₂ b m hr hs hb hsc =>
    have hopen := Reported.open (start_open hs) hr
    have hsame := Reported.samePools hr
    have hopened : Ledger made n (w₁.opened b m) := by
      refine (h.same hsame).opened hopen.fd ?_
      rw [hsame.data]
      exact start_data hs
    have hreading := reading_opened (n := m) hopen (hr.events.trans (start_mask hs)) hb
    exact hopened.closedServing hreading.toServing hsc
  | resumeLine hr _ _ => exact h.same (Reported.samePools hr)
  | resumeHeaders hr _ _ => exact h.same (Reported.samePools hr)
  | resumeWrite hr _ => exact h.same (Reported.samePools hr)
  | «have» hread _ _ => cases hread <;> exact h
  | recv hread _ _ _ ht _ _ =>
    have hsame := Took.samePools ht
    cases hread <;> exact h.same ⟨hsame.fd, hsame.pool, hsame.data, hsame.requestPool,
      hsame.destroyed, hsame.pools⟩
  | idle hread _ _ => cases hread <;> exact h
  | wait hread _ _ _ ht =>
    have hsame := Took.samePools ht
    cases hread <;> exact h.same ⟨hsame.fd, hsame.pool, hsame.data, hsame.requestPool,
      hsame.destroyed, hsame.pools⟩
  | @hangup _ w₁ b m _ _ ht hm =>
    have hsame := Took.samePools ht
    have hserving := hctl.1.toServing
    obtain ⟨rp, hrp, -⟩ := hserving.requestPool
    show Ledger made n (w₁.noteRecv b m).closeBoth
    exact h.closedBoth hserving.fd hserving.data hrp hserving.home
      (hsame.requestPool.trans hrp) (hsame.pool.trans hserving.home) hsame.destroyed hsame.pools
  | @hangupTwice _ w₁ b m _ _ ht hm =>
    have hsame := Took.samePools ht
    have hserving := hctl.1.toServing
    obtain ⟨rp, hrp, -⟩ := hserving.requestPool
    have hrp₁ : (w₁.noteRecv b m).r.pool = some rp := hsame.requestPool.trans hrp
    have hcp₁ : (w₁.noteRecv b m).c.pool = some w.r.home := hsame.pool.trans hserving.home
    obtain ⟨hd, -, hfd, hcp₂, hrp₂⟩ := closeBoth_destroyed hrp₁ hcp₁
    have honce : Ledger made n (w₁.noteRecv b m).closeBoth :=
      h.closedBoth hserving.fd hserving.data hrp hserving.home hrp₁ hcp₁ hsame.destroyed hsame.pools
    -- the second time adds nothing
    obtain ⟨hd', -, hfd', -⟩ := closeBoth_destroyed hrp₂ hcp₂
    have hmem : ∀ pool, pool ∈ (w₁.noteRecv b m).closeBoth.closeBoth.t.destroyed ↔
        pool ∈ (w₁.noteRecv b m).closeBoth.t.destroyed := by
      intro pool
      rw [hd', hd]
      simp only [List.mem_append, List.mem_singleton]
      tauto
    refine ⟨honce.le.trans (pools_closeBoth _).ge, fun pool => ?_⟩
    rw [pools_closeBoth, honce.exact pool, hmem, or_iff_left (not_inUse_closed hfd pool),
      or_iff_left (not_inUse_closed hfd' pool)]
  | fail hp hs =>
    exact (hctl.booked h (Or.inl hp)).closedServing (hctl.serving (Or.inl hp)) hs
  | noRoom hfull hs =>
    have hserving := hctl.serving (Or.inl hfull.serves)
    have hnoted : Ledger made n w.noteNoRoom :=
      (hctl.booked h (Or.inl hfull.serves)).same ⟨rfl, rfl, rfl, rfl, rfl, rfl⟩
    exact hnoted.closedServing hserving.noteNoRoom hs
  | lineMore _ _ _ => exact h.same ⟨rfl, rfl, rfl, rfl, rfl, rfl⟩
  | lineDone _ _ => exact h.same ⟨rfl, rfl, rfl, rfl, rfl, rfl⟩
  | stored hs =>
    obtain ⟨b, -, hc, -⟩ := hs.c
    refine h.same ⟨by rw [hc], by rw [hc], by rw [hc], hs.pool, by rw [hs.t], hs.k.pools⟩
  | headerNext => exact h
  | headerMore _ _ => exact h.same ⟨rfl, rfl, rfl, rfl, rfl, rfl⟩
  | @headerDone _ w₁ b b' p' _ _ hs =>
    obtain ⟨b₁, -, hc⟩ := hs.c
    have hparsed : Ledger made n (w.parsed p' b') := h.same ⟨rfl, rfl, rfl, rfl, rfl, rfl⟩
    exact hparsed.same ⟨by rw [hc], by rw [hc], by rw [hc], by rw [hs.r], by rw [hs.t], hs.k.pools⟩
  | headersDone _ _ => exact h.same ⟨rfl, rfl, rfl, rfl, rfl, rfl⟩
  | hand _ => exact h.same ⟨rfl, rfl, rfl, rfl, rfl, rfl⟩
  | @build _ w₁ f ha =>
    obtain ⟨ps, os, ht, -⟩ := ha.t
    have hfilled : Ledger made n w₁ :=
      h.same ⟨by rw [ha.c], by rw [ha.c], by rw [ha.c], by rw [ha.r], by rw [ht], ha.k.pools⟩
    exact hfilled.same ⟨rfl, rfl, rfl, rfl, rfl, rfl⟩
  | sent _ hw _ _ => exact h.same (Wrote.samePools hw)
  | full _ hw _ => exact h.same (Wrote.samePools hw)
  | @keepAlive _ pool _ w₁ _ b hb hw _ _ hpool =>
    have hresp := hctl.1.wrote hb hw
    have hidle : Ledger made n (w₁.idle b pool) :=
      (h.same (Wrote.samePools hw)).idle hresp.fd hresp.data hpool
    exact hidle.same ⟨rfl, rfl, rfl, rfl, rfl, rfl⟩
  | @keepAliveFails _ pool _ w₁ _ b hb hw _ _ hpool _ =>
    have hresp := hctl.1.wrote hb hw
    have hidle : Ledger made n (w₁.idle b pool) :=
      (h.same (Wrote.samePools hw)).idle hresp.fd hresp.data hpool
    show Ledger made n ((w₁.idle b pool).registered readMask false).closeConnection
    refine hidle.closed hresp.fd ?_
      hresp.home ⟨rfl, rfl, rfl, rfl, rfl, ⟨rfl, rfl, rfl, rfl, fun _ ho => ho⟩, rfl⟩
    exact fun hrequest => nomatch hrequest
  | _ => trivial

def noteMade (s : World × (Nat → Prop)) (w : World) : World × (Nat → Prop) :=
  (w, fun pool => s.2 pool ∨ s.1.k.pools ≤ pool ∧ pool < w.k.pools)

/-- The runs of a connection, with the pools that have been made for it: its own, and those that
are made while its handlers run. -/
def PoolRun (P : Kernel → Prop) : Option Stop → World × (Nat → Prop) → Prop :=
  Calls (fun s => (Accepted s.1 ∧ P s.1.k) ∧ s.2 = fun pool => s.1.c.pool = some pool)
    (fun s x => ∃ y, Dispatches s.1 y ∧ x = zoom Prod.fst noteMade y)
    fun s s' => s'.2 = s.2 ∧ ∃ k, P k ∧ s.1.k.pools ≤ k.pools ∧ s'.1 = { s.1 with k := k }

/-- Every run has its pools. -/
theorem Run.poolRun {P : Kernel → Prop} {o : Option Stop} (h : Run P o w) :
    ∃ made, PoolRun P o (w, made) := by
  induction h with
  | @init s hstart => exact ⟨fun pool => s.c.pool = some pool, Calls.init ⟨hstart, rfl⟩⟩
  | @call s s' x _ hc hx ih =>
    obtain ⟨made, hrun⟩ := ih
    refine ⟨(noteMade (s, made) s').2, Calls.call hrun ⟨x, hc, rfl⟩ ?_⟩
    show zoom Prod.fst noteMade x (s, made) = _
    unfold zoom
    rw [hx]
    rfl
  | @stop s s' x e _ hc hx ih =>
    obtain ⟨made, hrun⟩ := ih
    refine ⟨(noteMade (s, made) s').2, Calls.stop hrun ⟨x, hc, rfl⟩ ?_⟩
    show zoom Prod.fst noteMade x (s, made) = _
    unfold zoom
    rw [hx]
    rfl
  | env _ he ih =>
    obtain ⟨made, hrun⟩ := ih
    exact ⟨made, Calls.env hrun ⟨rfl, he⟩⟩

/-- In every state of a run, between two calls, the pools that have been made for the connection
are those that it has destroyed and those in use, and it has destroyed no other. -/
theorem pools_are_balanced {P : Kernel → Prop} (h : PoolRun P none (w, made)) (pool : Nat) :
    made pool ↔ pool ∈ w.t.destroyed ∨ InUse w pool := by
  have hinv := Calls.invariant (I := fun o (s : World × (Nat → Prop)) => Ctl (.ofRun o) s.1 ∧
    (o = none → ∀ pool, s.2 pool ↔ pool ∈ s.1.t.destroyed ∨ InUse s.1 pool)) ?_ ?_ ?_ h
  · exact hinv.2 rfl pool
  · rintro s ⟨⟨haccepted, -⟩, hmade⟩
    have hc := haccepted.connected
    refine ⟨InLoop.connected hc, fun _ pool => ?_⟩
    rw [hmade, haccepted.t]
    constructor
    · intro hpool
      exact Or.inr ⟨hc.fd, Or.inl hpool⟩
    · rintro (hmem | ⟨-, hpool | ⟨hrequest, -⟩⟩)
      · cases hmem
      · exact hpool
      · rw [hc.data] at hrequest
        cases hrequest
  · rintro ⟨w, made⟩ x ⟨hctl, hbalance⟩ ⟨y, ⟨events, hev, rfl⟩, rfl⟩
    rw [wp_zoom]
    have hstart : Booked made w.k.pools .loop w := by
      refine ⟨Nat.le_refl _, fun pool => ?_⟩
      rw [← hbalance rfl pool]
      exact or_iff_left fun h => absurd h.1 (by omega)
    refine wp_mono (Walks.invariant (I := fun p w' => Ctl p w' ∧ Booked made w.k.pools p w')
      (fun p w q w' hp hm => ⟨Move.ctl hp.1 hm, Move.booked hp.1 hp.2 hm⟩)
      (dispatch_goes hctl hev) ⟨hctl, hstart⟩) (fun _ w' hend => ?_) fun e w' hend => ?_
    · exact ⟨hend.1, fun _ pool => hend.2.exact pool⟩
    · exact ⟨hend.1, fun hnone => nomatch hnone⟩
  · rintro s s' ⟨hctl, hbalance⟩ ⟨hmade, k, -, hk, hw⟩
    rw [hmade, hw]
    exact ⟨InLoop.onKernel hctl hk, fun hnone pool => hbalance hnone pool⟩

/-- A closed connection has destroyed all of its pools. -/
theorem pools_are_balanced_hangup : ∃ w made, PoolRun (fun _ => True) none (w, made) ∧
    w.c.fd = -1 ∧ ∀ pool, made pool ↔ pool = 0 ∨ pool = 1 := by
  have hdestroyed : (after (dispatch EPOLLIN) (after (dispatch EPOLLIN) hangupWorld)).t.destroyed =
      [1, 0, 1, 0] := by decide +kernel
  have hfd : (after (dispatch EPOLLIN) (after (dispatch EPOLLIN) hangupWorld)).c.fd = -1 := by
    decide +kernel
  have hrun := hangup_run
  revert hdestroyed hfd hrun
  generalize after (dispatch EPOLLIN) (after (dispatch EPOLLIN) hangupWorld) = w
  intro hdestroyed hfd hrun
  obtain ⟨made, hmade⟩ := hrun.poolRun
  refine ⟨w, made, hmade, hfd, fun pool => ?_⟩
  rw [pools_are_balanced hmade pool, or_iff_left (not_inUse_closed hfd pool), hdestroyed]
  simp only [List.mem_cons, List.not_mem_nil, or_false]
  tauto

end Ehd.Http
