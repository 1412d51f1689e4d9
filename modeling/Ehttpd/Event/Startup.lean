import Ehttpd.Core.ListRefines
import Ehttpd.Core.Listening
import Ehttpd.Http.Lifecycle
import Ehttpd.Event.Accepting

namespace Ehd

open Program

/-- `ehd_event_epoll_init` and the other parts of start-up get this from outside. -/
structure Outside where
  /-- whether the `n`-th allocation of start-up succeeds -/
  allocOk : Nat → Bool
  /-- whether an array that is full at the `n`-th allocation grows in place -/
  growsInPlace : Nat → Bool
  /-- `inet_pton(AF_INET, …)` of a C string; `none` where nothing is stored -/
  inetPton : List UInt8 → Option UInt32
  /-- the value a caller sees of `ehd_listening_init`, which ends without `return` -/
  listeningInitReturn : Int
  sockets : Nat → Attempt
  epollCreate : Option Nat

/-- Why start-up does not get to the loop: it uses a `NULL` that an allocation has returned as a
pointer; it goes on with a list or an array whose init function has failed and has left the
members, `list->last` and `array->ndata` among them, as they were in memory that was not cleared; it
stores beyond the table of connections; or it calls `ehd_process_event` while that is `NULL`. -/
inductive BootStop
  | nullAlloc | unset | overrun | nullCall
  deriving DecidableEq, Repr

/-- A part of start-up; the state is the number of allocations so far. -/
abbrev Boot (α : Type) := EStateM BootStop Nat α

structure StartConf extends Conf where
  connectionNum : Nat
  addrsStr : EList Str
  portsInt : EList UInt32

/-- `struct sockaddr_in`, but for `sin_family`; a new one is cleared with `bzero`. -/
structure SockaddrIn where
  sinPort : UInt16 := 0
  sinAddr : UInt32 := 0
  deriving DecidableEq, Repr

def AF_INET : Nat := 2
def SOCK_STREAM : Nat := 1
def EHD_CYCLE_LISTENING_SIZE : Nat := 4

structure Listener where
  fd : Int := -1
  sockaddr : SockaddrIn
  socklen : Nat := 16
  poolSize : Nat := 16 * 1024
  handler : Option ReadHandler := none
  family : Nat := AF_INET
  type : Nat := SOCK_STREAM
  protocol : Nat := 0
  backlog : Nat := 0
  deriving DecidableEq, Repr

structure Listeners where
  data : List Listener
  nblock : Nat
  deriving DecidableEq, Repr

def EList.nodes {α : Type} (l : EList α) : List (List α) := l.full ++ [l.last]

def ntohs (p : UInt16) : UInt16 := p <<< 8 ||| p >>> 8

variable (env : Outside)

def ask : Boot Bool := do
  let n ← get
  set (n + 1)
  return env.allocOk n

/-- An allocation whose failure is not looked at, with what comes of it. -/
def need (e : BootStop) : Boot Unit := do
  if ← ask env then return () else throw e

def listStore {α : Type} (l : EList α) (x : α) : Boot (EList α) := do
  if l.needsNode then
    need env .nullAlloc
    need env .nullAlloc
    return l.push x
  else return l.push x

/-- `ehd_conf_init`.  The results of `ehd_list_init` are not looked at: without its first node, a
list is used as `ehd_palloc` has given it. -/
def confInit : Boot StartConf := do
  need env .unset
  let addrs ← listStore env (EList.init 4) (ehdString "0.0.0.0")
  let addrs ← listStore env addrs (ehdString "127.0.1.1")
  need env .unset
  let ports ← listStore env (EList.init 4) 8080
  let ports ← listStore env ports 9999
  return { Http.ehdConfInit with connectionNum := 1024, addrsStr := addrs, portsInt := ports }

/-- The listener for an address and a port, of which the low 16 bits are read. -/
def listenOn (addr : Str) (port : UInt32) : Listener :=
  { sockaddr :=
      { sinPort := ntohs port.toUInt16
        sinAddr := (env.inetPton (cString addr.data)).getD 0 } }

def arrayStore (a : Listeners) (l : Listener) : Boot Listeners := do
  if a.data.length = a.nblock then
    if env.growsInPlace (← get) then return ⟨a.data ++ [l], a.nblock + 1⟩
    else
      need env .nullAlloc
      return ⟨a.data ++ [l], 2 * a.nblock⟩
  else return ⟨a.data ++ [l], a.nblock⟩

def listenNode : List Str → List UInt32 → Listeners → Boot Listeners
  | addr :: addrs, port :: ports, a => do
    let a ← arrayStore env a (listenOn env addr port)
    -- `bzero` writes through what `ehd_palloc` has given for the address
    need env .nullAlloc
    listenNode addrs ports a
  | _, _, a => return a

def listenNodes : List (List Str) → List (List UInt32) → Listeners → Boot Listeners
  | addrs :: addrNodes, ports :: portNodes, a => do
    let a ← listenNode env addrs ports a
    listenNodes addrNodes portNodes a
  | _, _, a => return a

def listeningInit (conf : StartConf) (a : Listeners) : Boot Listeners :=
  listenNodes env conf.addrsStr.nodes conf.portsInt.nodes a

def Kernel.booted (k : Kernel) (opened : List Nat) : Kernel :=
  { k with interest := fun _ => none, opened := fun fd => k.opened fd || opened.any (fd == ·) }

def epollInit (connectionNum : Nat) : Boot Bool :=
  if env.epollCreate = none then return false
  else if 0 < connectionNum then ask env
  else return true

/-- What `ehd_cycle_init` leaves: its result, `cycle->listening`, and the table of connections when
`ehd_process_event` is set. -/
structure Initialized where
  rc : Int
  listening : List Listener
  process : Option Cycle := none

/-- `ehd_event_init` and `ehd_http_init`, which sets the handlers of the listeners. -/
def eventStart (conf : StartConf) (listening : List Listener) (memory : Nat → Slot) (k : Kernel)
    (accepts : List AcceptResult) : Boot Initialized := do
  if !(← ask env) then return { rc := EHD_ERROR, listening := listening }
  else if !(← ask env) then return { rc := EHD_ERROR, listening := listening }
  else
    let fds := listening.map fun l => l.fd.toNat
    if fds.any (conf.connectionNum ≤ ·) then throw .overrun
    else
      let ready ← epollInit env conf.connectionNum
      let σ := eventInit conf.toConf conf.connectionNum fds memory k accepts
      return { rc := EHD_OK
               listening := listening.map fun l => { l with handler := some .initConnection }
               process := if ready then some σ else none }

/-- `ehd_cycle_init`.  The result of `ehd_array_init` is not looked at. -/
def cycleInit (conf : StartConf) (memory : Nat → Slot) (k : Kernel) (accepts : List AcceptResult) :
    Boot Initialized := do
  need env .unset
  let a ← listeningInit env conf ⟨[], EHD_CYCLE_LISTENING_SIZE⟩
  if env.listeningInitReturn = EHD_ERROR then return { rc := EHD_ERROR, listening := a.data }
  else
    let out := openListeningSocket env.sockets a.data.length .init
    let listening := a.data.mapIdx fun i l => { l with fd := out.2.fd i }
    if out.1 = EHD_ERROR then return { rc := EHD_ERROR, listening := listening }
    else
      eventStart env conf listening memory (k.booted (env.epollCreate.toList ++ out.2.obtained))
        accepts

/-- `main`, up to the call of `ehd_process_event`, which is `NULL` until it is set. -/
def main (memory : Nat → Slot) (k : Kernel) (accepts : List AcceptResult) : Boot Cycle := do
  -- the pool, `conf` and `cycle`
  need env .nullAlloc
  need env .nullAlloc
  need env .nullAlloc
  let conf ← confInit env
  let started ← cycleInit env conf memory k accepts
  match started.process with
  | none => throw .nullCall
  | some σ => return σ

section

variable {env} {n : Nat}

theorem zip_append_right {α β : Type} {s : List α} {t : List β} (h : s.length ≤ t.length)
    (r : List β) : s.zip (t ++ r) = s.zip t := by
  induction s generalizing t with
  | nil => rfl
  | cons a s ih =>
    cases t with
    | nil => cases h
    | cons b t =>
      rw [List.cons_append, List.zip_cons_cons, List.zip_cons_cons, ih (Nat.le_of_succ_le_succ h)]

theorem zip_append_left {α β : Type} {s : List α} {t : List β} (h : t.length ≤ s.length)
    (r : List α) : (s ++ r).zip t = s.zip t := by
  rw [← List.zip_swap t, zip_append_right h, List.zip_swap]

/-- Nodes of one size that are gone through at once are gone through element by element. -/
theorem zip_nodes {α β : Type} {cs : List (List α)} {ds : List (List β)} {s : List α} {t : List β}
    (hcs : ∀ c ∈ cs, c.length = n) (hds : ∀ d ∈ ds, d.length = n) (hs : s.length ≤ n)
    (ht : t.length ≤ n) : (List.zipWith List.zip (cs ++ [s]) (ds ++ [t])).flatten =
      (cs.flatten ++ s).zip (ds.flatten ++ t) := by
  induction cs generalizing ds with
  | nil =>
    cases ds with
    | nil => simp
    | cons d ds =>
      -- the second list goes on where the first one ends
      have hd := hds d List.mem_cons_self
      rw [List.flatten_cons, List.flatten_nil, List.nil_append, List.nil_append, List.append_assoc,
        zip_append_right (by omega)]
      simp
  | cons c cs ih =>
    have hc := hcs c List.mem_cons_self
    cases ds with
    | nil =>
      rw [List.flatten_cons, List.flatten_nil, List.nil_append, List.nil_append, List.append_assoc,
        zip_append_left (by omega)]
      simp
    | cons d ds =>
      have hd := hds d List.mem_cons_self
      rw [List.cons_append, List.cons_append, List.zipWith_cons_cons, List.flatten_cons,
        ih (fun x hx => hcs x (List.mem_cons_of_mem _ hx))
          fun x hx => hds x (List.mem_cons_of_mem _ hx),
        List.flatten_cons, List.flatten_cons, List.append_assoc, List.append_assoc,
        List.zip_append (hc.trans hd.symm)]

theorem EList.Packed.zip_nodes {α β : Type} {l : EList α} {l' : EList β} (h : l.Packed)
    (h' : l'.Packed) (hndata : l.ndata = l'.ndata) :
    (List.zipWith List.zip l.nodes l'.nodes).flatten = l.entries.zip l'.entries := by
  have hroom := h'.room
  rw [← hndata] at hroom
  refine Ehd.zip_nodes h.full (fun d hd => ?_) h.room hroom
  rw [hndata]
  exact h'.full d hd

variable {Q : Unit → Nat → Prop} {E : BootStop → Nat → Prop} {conf : StartConf} {a : Listeners}
  {memory : Nat → Slot} {k : Kernel} {accepts : List AcceptResult} {σ : Cycle}

@[simp] theorem wp_ask {Q : Bool → Nat → Prop} : wp (ask env) Q E n ↔ Q (env.allocOk n) (n + 1) :=
  Iff.rfl

@[simp] theorem wp_need {e : BootStop} : wp (need env e) Q E n ↔
    (env.allocOk n = true → Q () (n + 1)) ∧ (¬ env.allocOk n = true → E e (n + 1)) := by
  unfold need
  rw [wp_bind, wp_ask, wp_ite]
  rfl

theorem arrayStore_rule (a : Listeners) (l : Listener) :
    wp (arrayStore env a l) (fun a' _ => a'.data = a.data ++ [l]) (fun _ _ => True) n := by
  unfold arrayStore
  rw [wp_ite]
  refine ⟨fun _ => ?_, fun _ => rfl⟩
  rw [wp_bind, wp_get, wp_ite]
  refine ⟨fun _ => rfl, fun _ => ?_⟩
  rw [wp_bind, wp_need]
  exact ⟨fun _ => rfl, fun _ => trivial⟩

theorem listenNode_rule (addrs : List Str) (ports : List UInt32) (a : Listeners) :
    wp (listenNode env addrs ports a) (fun a' _ => a'.data =
      a.data ++ (addrs.zip ports).map fun x => listenOn env x.1 x.2) (fun _ _ => True) n := by
  induction addrs generalizing ports a n with
  | nil => exact (List.append_nil _).symm
  | cons addr addrs ih =>
    cases ports with
    | nil => exact (List.append_nil _).symm
    | cons port ports =>
      unfold listenNode
      rw [wp_bind]
      refine wp_mono (arrayStore_rule a _) (fun a₁ n₁ hone => ?_) fun _ _ _ => trivial
      rw [wp_bind, wp_need]
      refine ⟨fun _ => ?_, fun _ => trivial⟩
      refine wp_mono (ih ports a₁) (fun a₂ _ hrest => ?_) fun _ _ _ => trivial
      rw [hrest, hone, List.append_assoc]
      rfl

theorem listenNodes_rule (addrNodes : List (List Str)) (portNodes : List (List UInt32))
    (a : Listeners) : wp (listenNodes env addrNodes portNodes a) (fun a' _ => a'.data =
      a.data ++ (List.zipWith List.zip addrNodes portNodes).flatten.map fun x =>
        listenOn env x.1 x.2) (fun _ _ => True) n := by
  induction addrNodes generalizing portNodes a n with
  | nil => exact (List.append_nil _).symm
  | cons addrs addrNodes ih =>
    cases portNodes with
    | nil => exact (List.append_nil _).symm
    | cons ports portNodes =>
      unfold listenNodes
      rw [wp_bind]
      refine wp_mono (listenNode_rule addrs ports a) (fun a₁ n₁ hone => ?_) fun _ _ _ => trivial
      refine wp_mono (ih portNodes a₁) (fun a₂ _ hrest => ?_) fun _ _ _ => trivial
      rw [hrest, hone, List.zipWith_cons_cons, List.flatten_cons, List.map_append,
        List.append_assoc]

structure StartConf.Even (conf : StartConf) : Prop where
  addrs : conf.addrsStr.Packed
  ports : conf.portsInt.Packed
  ndata : conf.addrsStr.ndata = conf.portsInt.ndata

def StartConf.pairs (conf : StartConf) : List (Str × UInt32) :=
  conf.addrsStr.entries.zip conf.portsInt.entries

theorem listeningInit_rule (heven : conf.Even) (nblock : Nat) :
    wp (listeningInit env conf ⟨[], nblock⟩)
      (fun a _ => a.data = conf.pairs.map fun x => listenOn env x.1 x.2) (fun _ _ => True) n := by
  refine wp_mono (listenNodes_rule _ _ _) (fun a _ hdata => ?_) fun _ _ _ => trivial
  rw [hdata, heven.addrs.zip_nodes heven.ports heven.ndata]
  rfl

/-- Where the sockets can be opened, each listener has one of its own. -/
theorem openListeningSocket_opens {kernel : Nat → Attempt} {ndata : Nat}
    (hfresh : FreshSockets kernel) (hrc : (openListeningSocket kernel ndata .init).1 ≠ EHD_ERROR) :
    (∀ i < ndata, ∃ m s, (kernel m).socket = some s ∧ (kernel m).Succeeds ∧
      (openListeningSocket kernel ndata .init).2.fd i = s ∧
      s ∈ (openListeningSocket kernel ndata .init).2.obtained) ∧
    ∀ i < ndata, ∀ j, (openListeningSocket kernel ndata .init).2.fd i =
      (openListeningSocket kernel ndata .init).2.fd j → i = j := by
  obtain ⟨hst, hok⟩ := openListeningSocket_eq kernel ndata
  obtain ⟨haccounted, -, hall⟩ := openRounds_listened hfresh 5 false
    (accounted_init kernel ndata) fun h => absurd h (by decide)
  have hrounds : (openRounds kernel ndata 5 false .init).1 = some false := by
    unfold openListeningSocket at hrc
    cases hout : openRounds kernel ndata 5 false .init with
    | mk o st =>
      rw [hout] at hrc
      cases o with
      | none => exact absurd rfl hrc
      | some failed =>
        cases failed with
        | true => exact absurd rfl hrc
        | false => rfl
  rw [hst]
  refine ⟨fun i hi => ?_, fun i hi j hij => haccounted.once i j (hall.1 hrounds i hi) hij⟩
  obtain ⟨m, hm, s, hs, hsucceeds, hfd, -⟩ := haccounted.fd i (hall.1 hrounds i hi)
  exact ⟨m, s, hs, hsucceeds, hfd, (haccounted.obtained s).2 ⟨m, hm, hs⟩⟩

theorem eventEnableAccept_returns (todo : List Nat) (σ : Cycle) :
    ∃ rc σ', eventEnableAccept todo σ = .ok rc σ' := by
  apply exists_ok_of_wp (Q := fun _ _ => True)
  induction todo generalizing σ with
  | nil => trivial
  | cons fd todo ih =>
    unfold eventEnableAccept
    rw [wp_bind, wp_atSlot, wp_epollAdd, wp_ite]
    exact ⟨fun _ => trivial, fun _ => ih _⟩

/-- Each pair of the configuration is listened on, with a socket of its own, and the runs of the
loop start here. -/
structure ListensAs (env : Outside) (conf : StartConf) (listening : List Listener) (σ : Cycle) :
    Prop where
  addresses : listening.map (·.sockaddr) = conf.pairs.map fun x => (listenOn env x.1 x.2).sockaddr
  handlers : ∀ l ∈ listening, l.handler = some .initConnection
  sockets : ∀ l ∈ listening, ∃ m s, (env.sockets m).socket = some s ∧ (env.sockets m).Succeeds ∧
    l.fd = s ∧ s < conf.connectionNum
  apart : (listening.map (·.fd)).Nodup
  serves : ∀ P : Kernel → Prop, P σ.k → ∃ rc σ',
    eventEnableAccept (listening.map fun l => l.fd.toNat) σ = .ok rc σ' ∧ Cycle.Run P none σ'

theorem eventStart_rule (listening : List Listener) (hnone : ∀ fd, k.interest fd = none)
    (hopen : ∀ l ∈ listening, k.opened l.fd.toNat = true) :
    wp (eventStart env conf listening memory k accepts)
      (fun i _ => ∀ σ, i.process = some σ →
        i.listening = listening.map (fun l => { l with handler := some .initConnection }) ∧
        (∀ l ∈ listening, l.fd.toNat < conf.connectionNum) ∧
        ∀ P : Kernel → Prop, P σ.k → ∃ rc σ',
          eventEnableAccept (listening.map fun l => l.fd.toNat) σ = .ok rc σ' ∧
            Cycle.Run P none σ') (fun _ _ => True) n := by
  unfold eventStart
  rw [wp_bind, wp_ask, wp_ite]
  refine ⟨fun _ σ hσ => ?_, fun _ => ?_⟩
  · cases hσ
  rw [wp_bind, wp_ask, wp_ite]
  refine ⟨fun _ σ hσ => ?_, fun _ => ?_⟩
  · cases hσ
  dsimp only
  rw [wp_ite]
  refine ⟨fun _ => trivial, fun hsmall => ?_⟩
  have hlt : ∀ l ∈ listening, l.fd.toNat < conf.connectionNum := by
    intro l hl
    by_contra hle
    apply hsmall
    rw [List.any_map, List.any_eq_true]
    exact ⟨l, hl, by simpa using hle⟩
  rw [wp_bind]
  refine wp_any (fun ready n' σ hσ => ⟨rfl, hlt, fun P hP => ?_⟩) fun _ _ => trivial
  obtain ⟨rc, σ', hrun⟩ := eventEnableAccept_returns (listening.map fun l => l.fd.toNat) σ
  refine ⟨rc, σ', hrun, ?_⟩
  cases ready with
  | false => cases hσ
  | true =>
    cases hσ
    refine Calls.init ⟨_, _, _, _, _, _, rc, hP, hnone, fun fd hfd => ?_, hrun⟩
    obtain ⟨l, hl, rfl⟩ := List.mem_map.1 hfd
    exact ⟨hlt l hl, hopen l hl⟩

/-- What `ehd_cycle_init` leaves when the loop can be entered. -/
theorem cycleInit_rule (heven : conf.Even) (hfresh : FreshSockets env.sockets) :
    wp (cycleInit env conf memory k accepts)
      (fun i _ => ∀ σ, i.process = some σ → ListensAs env conf i.listening σ)
      (fun _ _ => True) n := by
  unfold cycleInit
  rw [wp_bind, wp_need]
  refine ⟨fun _ => ?_, fun _ => trivial⟩
  rw [wp_bind]
  refine wp_mono (listeningInit_rule heven _) (fun a n₁ hdata => ?_) fun _ _ _ => trivial
  rw [wp_ite]
  refine ⟨fun _ σ hσ => ?_, fun _ => ?_⟩
  · cases hσ
  dsimp only
  rw [wp_ite]
  refine ⟨fun _ σ hσ => ?_, fun hrc => ?_⟩
  · cases hσ
  obtain ⟨hsockets, honce⟩ := openListeningSocket_opens hfresh hrc
  generalize (openListeningSocket env.sockets a.data.length .init).2 = st at hsockets honce ⊢
  -- a listener of the table, with its place
  have hat : ∀ l ∈ a.data.mapIdx (fun i l => { l with fd := st.fd i }), ∃ i < a.data.length,
      l.fd = st.fd i := by
    intro l hl
    obtain ⟨i, hi, rfl⟩ := List.mem_mapIdx.1 hl
    exact ⟨i, hi, rfl⟩
  refine wp_mono (eventStart_rule _ (fun _ => rfl) fun l hl => ?_) (fun i _ hi σ hσ => ?_)
    fun _ _ _ => trivial
  · obtain ⟨i, hi, hfd⟩ := hat l hl
    obtain ⟨m, s, -, -, hs, hobtained⟩ := hsockets i hi
    rw [hfd, hs]
    show (k.opened s || (env.epollCreate.toList ++ st.obtained).any (((s : Nat) : Int) == ·)) = true
    rw [Bool.or_eq_true, List.any_eq_true]
    exact Or.inr ⟨s, List.mem_append_right _ hobtained, by simp⟩
  · obtain ⟨hlistening, hsmall, hserves⟩ := hi σ hσ
    rw [hlistening]
    refine ⟨?_, fun l hl => ?_, fun l hl => ?_, ?_, fun P hP => ?_⟩
    · have hpairs : conf.pairs.map (fun x => (listenOn env x.1 x.2).sockaddr) =
          a.data.map (·.sockaddr) := by
        rw [hdata, List.map_map]
        rfl
      rw [hpairs, List.map_map]
      apply List.ext_getElem
      · simp
      · intro i _ _
        simp
    · obtain ⟨l₀, -, rfl⟩ := List.mem_map.1 hl
      rfl
    · obtain ⟨l₀, hl₀, rfl⟩ := List.mem_map.1 hl
      obtain ⟨i, hi, hfd⟩ := hat l₀ hl₀
      obtain ⟨m, s, hs, hsucceeds, heq, -⟩ := hsockets i hi
      have hlt := hsmall l₀ hl₀
      refine ⟨m, s, hs, hsucceeds, hfd.trans heq, ?_⟩
      omega
    · rw [List.map_map]
      refine List.pairwise_iff_getElem.2 fun i j hi hj hlt heq => ?_
      have hlength : i < a.data.length := by simpa using hi
      have hfd : st.fd i = st.fd j := by simpa using heq
      exact absurd (honce i hlength j hfd) hlt.ne
    · rw [List.map_map]
      exact hserves P hP

/-- Wherever start-up gets to the loop, with addresses and ports in lists of nodes of one size, the
listeners are the pairs of the two lists in their order, each on a socket of its own, and the loop
starts a run. -/
theorem started_as_configured {i : Initialized} {n' : Nat} (heven : conf.Even)
    (hfresh : FreshSockets env.sockets) (h : cycleInit env conf memory k accepts n = .ok i n')
    (hprocess : i.process = some σ) : ListensAs env conf i.listening σ :=
  (wp_of_ok h).1 (cycleInit_rule heven hfresh) σ hprocess

def idleMachine : Outside where
  allocOk := fun _ => true
  growsInPlace := fun _ => false
  inetPton := fun s =>
    if s = ascii "0.0.0.0" then some 0
    else if s = ascii "127.0.1.1" then some 0x0101007f
    else none
  listeningInitReturn := 0
  sockets := fun n => ⟨some (n + 3), true, true, .bound, true⟩
  epollCreate := some 9

theorem idleMachine_fresh : FreshSockets idleMachine.sockets := by
  intro m n s hm hn
  have hms := Option.some.inj hm
  have hns := Option.some.inj hn
  omega

def fiveConf : StartConf :=
  { Http.ehdConfInit with
    connectionNum := 64
    addrsStr := (List.replicate 5 (ehdString "0.0.0.0")).foldl EList.push (EList.init 4)
    portsInt := [8001, 8002, 8003, 8004, 8005].foldl EList.push (EList.init 4) }

theorem fiveConf_even : fiveConf.Even where
  addrs := ((EList.packed_init 4).pushes (by decide) _).1
  ports := ((EList.packed_init 4).pushes (by decide) _).1
  ndata := rfl

def freshSlots (_ : Nat) : Slot := { c := { slot := 0, id := 0, readHandler := .blockRead } }

theorem started_as_configured_five : ∃ i σ, ListensAs idleMachine fiveConf i σ ∧ i.length = 5 := by
  have hstarted : ∃ i n' σ, cycleInit idleMachine fiveConf freshSlots (Http.sampleKernel [] []) [] 0 =
      .ok i n' ∧ i.process = some σ ∧ i.listening.length = 5 := ⟨_, _, _, rfl, rfl, rfl⟩
  obtain ⟨i, n', σ, hok, hprocess, hlength⟩ := hstarted
  exact ⟨_, _, started_as_configured fiveConf_even idleMachine_fresh hok hprocess, hlength⟩

def startConf : StartConf :=
  { Http.ehdConfInit with
    connectionNum := 1024
    addrsStr := ⟨[], [ehdString "0.0.0.0", ehdString "127.0.1.1"], 4⟩
    portsInt := ⟨[], [8080, 9999], 4⟩ }

theorem startConf_even : startConf.Even := by
  refine ⟨⟨fun c hc => ?_, by decide, fun h => absurd rfl h⟩,
    ⟨fun c hc => ?_, by decide, fun h => absurd rfl h⟩, rfl⟩
  · cases hc
  · cases hc

theorem confInit_eq : confInit env = (do
    need env .unset
    need env .unset
    return startConf) := rfl

/-- Everything that start-up asks for is given: eleven allocations, the two sockets, with small
descriptors, and epoll.  What `ehd_listening_init` happens to return is no error. -/
structure Given (env : Outside) : Prop where
  allocs : ∀ n < 11, env.allocOk n = true
  returned : env.listeningInitReturn ≠ EHD_ERROR
  opened : (openListeningSocket env.sockets 2 .init).1 ≠ EHD_ERROR
  small : ∀ i < 2, ((openListeningSocket env.sockets 2 .init).2.fd i).toNat < 1024
  epoll : env.epollCreate ≠ none

/-- What `ehd_event_init` asks for after `n` allocations, in its order, and what comes of it when it
is not given: an error leaves `ehd_process_event` as it is. -/
def eventDemands (env : Outside) (fds : List Int) (n : Nat) : List (Bool × BootStop) :=
  [(env.allocOk n, .nullCall), (env.allocOk (n + 1), .nullCall),
    (fds.all fun fd => fd.toNat < 1024, .overrun), (env.epollCreate.isSome, .nullCall),
    (env.allocOk (n + 2), .nullCall)]

def demands (env : Outside) : List (Bool × BootStop) :=
  [(env.allocOk 0, .nullAlloc), (env.allocOk 1, .nullAlloc), (env.allocOk 2, .nullAlloc),
    (env.allocOk 3, .unset), (env.allocOk 4, .unset), (env.allocOk 5, .unset),
    (env.allocOk 6, .nullAlloc), (env.allocOk 7, .nullAlloc),
    (env.listeningInitReturn != EHD_ERROR, .nullCall),
    ((openListeningSocket env.sockets 2 .init).1 != EHD_ERROR, .nullCall)] ++
  eventDemands env [(openListeningSocket env.sockets 2 .init).2.fd 0,
    (openListeningSocket env.sockets 2 .init).2.fd 1] 8

def firstUnmet : List (Bool × BootStop) → Option BootStop
  | [] => none
  | (met, e) :: rest => if met then firstUnmet rest else some e

theorem firstUnmet_eq_none {ds : List (Bool × BootStop)} :
    firstUnmet ds = none ↔ ∀ d ∈ ds, d.1 = true := by
  induction ds with
  | nil => exact iff_of_true rfl fun d hd => nomatch hd
  | cons d ds ih =>
    obtain ⟨met, e⟩ := d
    unfold firstUnmet
    cases met with
    | false => exact iff_of_false nofun fun hall => Bool.false_ne_true (hall _ List.mem_cons_self)
    | true =>
      rw [if_pos rfl, ih]
      simp

theorem given_iff : Given env ↔ firstUnmet (demands env) = none := by
  rw [firstUnmet_eq_none]
  constructor
  · intro h
    have halloc : ∀ n < 11, env.allocOk n = true := h.allocs
    have hfirst := h.small 0 (by decide)
    have hsecond := h.small 1 (by decide)
    simp only [demands, eventDemands, List.cons_append, List.nil_append, List.forall_mem_cons,
      List.all_cons, List.all_nil, Bool.and_eq_true, decide_eq_true_eq, bne_iff_ne,
      Option.isSome_iff_ne_none]
    refine ⟨halloc 0 ?_, halloc 1 ?_, halloc 2 ?_, halloc 3 ?_, halloc 4 ?_, halloc 5 ?_,
      halloc 6 ?_, halloc 7 ?_, h.returned, h.opened, halloc 8 ?_, halloc 9 ?_,
      ⟨hfirst, hsecond, trivial⟩, h.epoll, halloc 10 ?_, fun d hd => nomatch hd⟩
    all_goals decide
  · intro h
    simp only [demands, eventDemands, List.cons_append, List.nil_append, List.forall_mem_cons,
      List.all_cons, List.all_nil, Bool.and_eq_true, decide_eq_true_eq, bne_iff_ne,
      Option.isSome_iff_ne_none] at h
    obtain ⟨h₀, h₁, h₂, h₃, h₄, h₅, h₆, h₇, hreturned, hopened, h₈, h₉, ⟨hfirst, hsecond, -⟩,
      hepoll, h₁₀, -⟩ := h
    refine ⟨fun n hn => ?_, hreturned, hopened, fun i hi => ?_, hepoll⟩
    · interval_cases n
      all_goals assumption
    · interval_cases i
      all_goals assumption

def EndsBy {α : Type} (ds : List (Bool × BootStop)) (x : Boot α) (n : Nat) : Prop :=
  wp x (fun _ _ => firstUnmet ds = none) (fun e _ => firstUnmet ds = some e) n

theorem EndsBy.met {α : Type} {x : Boot α} {met : Bool} {e : BootStop}
    {ds : List (Bool × BootStop)} (hmet : met = true) (h : EndsBy ds x n) :
    EndsBy ((met, e) :: ds) x n := by
  unfold EndsBy firstUnmet
  rw [if_pos hmet]
  exact h

theorem need_endsBy {α : Type} {x : Boot α} {e : BootStop} {ds : List (Bool × BootStop)}
    (h : env.allocOk n = true → EndsBy ds x (n + 1)) :
    EndsBy ((env.allocOk n, e) :: ds) (need env e >>= fun _ => x) n := by
  unfold EndsBy firstUnmet
  rw [wp_bind, wp_need]
  refine ⟨fun hok => ?_, fun hfails => ?_⟩
  · rw [if_pos hok]
    exact h hok
  · rw [if_neg hfails]

theorem listeningInit_eq : listeningInit env startConf ⟨[], EHD_CYCLE_LISTENING_SIZE⟩ = (do
    need env .nullAlloc
    need env .nullAlloc
    return ⟨startConf.pairs.map fun x => listenOn env x.1 x.2, 4⟩) := by
  show (do
    let a ← listenNode env [ehdString "0.0.0.0", ehdString "127.0.1.1"] [8080, 9999] ⟨[], 4⟩
    listenNodes env [] [] a) = _
  simp only [listenNode, arrayStore, bind_assoc]
  rfl

def enter (started : Initialized) : Boot Cycle :=
  match started.process with
  | none => throw .nullCall
  | some σ => return σ

theorem eventStart_endsBy (listening : List Listener) :
    EndsBy (eventDemands env (listening.map (·.fd)) n)
      (eventStart env startConf listening memory k accepts >>= enter) n := by
  have hany : (listening.map fun l => l.fd.toNat).any (startConf.connectionNum ≤ ·) =
      !(listening.map (·.fd)).all fun fd => fd.toNat < 1024 := by
    induction listening with
    | nil => rfl
    | cons l listening ih =>
      rw [List.map_cons, List.any_cons, ih, List.map_cons, List.all_cons, Bool.not_and,
        ← decide_not]
      simp only [Nat.not_lt]
      rfl
  unfold EndsBy eventStart eventDemands
  rw [wp_bind, wp_bind, wp_ask]
  cases hconnections : env.allocOk n with
  | false => rfl
  | true =>
    rw [Bool.not_true, if_neg Bool.false_ne_true, wp_bind, wp_ask]
    cases hevents : env.allocOk (n + 1) with
    | false => rfl
    | true =>
      dsimp only
      rw [Bool.not_true, if_neg Bool.false_ne_true, hany]
      cases (listening.map (·.fd)).all fun fd => fd.toNat < 1024 with
      | false => rfl
      | true =>
        rw [Bool.not_true, if_neg Bool.false_ne_true, wp_bind]
        unfold epollInit
        cases hepoll : env.epollCreate with
        | none => rfl
        | some epfd =>
          rw [if_neg nofun, if_pos (by decide), wp_ask]
          cases hlist : env.allocOk (n + 1 + 1) with
          | false =>
            show firstUnmet _ = _
            simp [firstUnmet]
          | true =>
            show firstUnmet _ = _
            simp [firstUnmet]

theorem main_endsBy : EndsBy (demands env) (main env memory k accepts) 0 := by
  unfold main
  refine need_endsBy fun _ => need_endsBy fun _ => need_endsBy fun _ => ?_
  rw [confInit_eq, bind_assoc]
  refine need_endsBy fun _ => ?_
  rw [bind_assoc]
  refine need_endsBy fun _ => ?_
  rw [pure_bind]
  unfold cycleInit
  rw [bind_assoc]
  refine need_endsBy fun _ => ?_
  rw [listeningInit_eq, bind_assoc, bind_assoc]
  refine need_endsBy fun _ => ?_
  rw [bind_assoc]
  refine need_endsBy fun _ => ?_
  rw [pure_bind]
  -- the errors that `ehd_cycle_init` returns
  by_cases hreturned : env.listeningInitReturn = EHD_ERROR
  · rw [if_pos hreturned]
    show firstUnmet _ = _
    simp [firstUnmet, hreturned]
  rw [if_neg hreturned]
  dsimp only
  have hlength : (startConf.pairs.map fun x => listenOn env x.1 x.2).length = 2 := rfl
  by_cases hopened : (openListeningSocket env.sockets 2 .init).1 = EHD_ERROR
  · rw [hlength, if_pos hopened]
    show firstUnmet _ = _
    simp [firstUnmet, hreturned, hopened]
  rw [hlength, if_neg hopened]
  exact EndsBy.met (bne_iff_ne.2 hreturned)
    (EndsBy.met (bne_iff_ne.2 hopened) (eventStart_endsBy _))

/-- The loop that `main` enters. -/
theorem main_rule (hfresh : FreshSockets env.sockets) :
    wp (main env memory k accepts)
      (fun σ _ => ∃ i : Initialized, ListensAs env startConf i.listening σ) (fun _ _ => True) n := by
  unfold main
  rw [wp_bind]
  refine wp_any (fun _ _ => ?_) fun _ _ => trivial
  rw [wp_bind]
  refine wp_any (fun _ _ => ?_) fun _ _ => trivial
  rw [wp_bind, wp_need]
  refine ⟨fun _ => ?_, fun _ => trivial⟩
  rw [wp_bind, confInit_eq, wp_bind, wp_need]
  refine ⟨fun _ => ?_, fun _ => trivial⟩
  rw [wp_bind, wp_need]
  refine ⟨fun _ => ?_, fun _ => trivial⟩
  rw [wp_pure, wp_bind]
  refine wp_mono (cycleInit_rule startConf_even hfresh) (fun i _ hlistens => ?_) fun _ _ _ => trivial
  cases hprocess : i.process with
  | none => trivial
  | some σ => exact ⟨i, hlistens σ hprocess⟩

/-- `main` gets to the loop exactly when it is given all it asks for, and otherwise it ends as the
first demand says that is not met.  Where it gets there it listens on both addresses, and the loop
starts a run. -/
theorem main_reaches_the_loop (hfresh : FreshSockets env.sockets) (memory : Nat → Slot) (k : Kernel)
    (accepts : List AcceptResult) :
    ((∃ σ n, main env memory k accepts 0 = .ok σ n) ↔ Given env) ∧
      (∀ e, (∃ n, main env memory k accepts 0 = .error e n) ↔
        firstUnmet (demands env) = some e) ∧
      ∀ σ n, main env memory k accepts 0 = .ok σ n →
        ∃ i : Initialized, ListensAs env startConf i.listening σ := by
  have hends := @main_endsBy env memory k accepts
  refine ⟨?_, fun e => ?_, fun σ n hok => (wp_of_ok hok).1 (main_rule hfresh)⟩
  · rw [given_iff]
    cases hmain : main env memory k accepts 0 with
    | ok σ n => exact iff_of_true ⟨σ, n, rfl⟩ ((wp_of_ok hmain).1 hends)
    | error e n =>
      have hunmet : firstUnmet (demands env) = some e := (wp_of_error hmain).1 hends
      exact iff_of_false nofun (by rw [hunmet]; nofun)
  · cases hmain : main env memory k accepts 0 with
    | ok σ n =>
      have hall : firstUnmet (demands env) = none := (wp_of_ok hmain).1 hends
      exact iff_of_false nofun (by rw [hall]; nofun)
    | error e' n =>
      have hunmet : firstUnmet (demands env) = some e' := (wp_of_error hmain).1 hends
      rw [hunmet]
      constructor
      · rintro ⟨n', heq⟩
        injection heq with heq
        rw [heq]
      · intro heq
        obtain rfl := Option.some.inj heq
        exact ⟨n, rfl⟩

theorem main_reaches_the_loop_idle : ∃ σ n i, main idleMachine freshSlots (Http.sampleKernel [] []) []
    0 = .ok σ n ∧ ListensAs idleMachine startConf i σ := by
  have hgiven : Given idleMachine :=
    ⟨fun _ _ => rfl, by decide, by decide, by decide, by decide⟩
  obtain ⟨hiff, -, hlistens⟩ :=
    main_reaches_the_loop idleMachine_fresh freshSlots (Http.sampleKernel [] []) []
  obtain ⟨σ, n, hok⟩ := hiff.2 hgiven
  obtain ⟨i, hi⟩ := hlistens σ n hok
  exact ⟨σ, n, _, hok, hi⟩

end

end Ehd
