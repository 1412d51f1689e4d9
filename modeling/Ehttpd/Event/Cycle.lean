import Ehttpd.Event.Dispatch
import Ehttpd.Lib.Runs

namespace Ehd

open Program

/-- An element of `cycle->connections` and of `cycle->events`, with what `c->data` points to and
the record of the connection. -/
structure Slot where
  c : Connection
  hc : HttpConnection := {}
  r : Http.Request := {}
  t : Trace := {}

/-- A result of `accept4`: a descriptor, and whether `ehd_setnonblocking` then succeeds. -/
inductive AcceptResult
  | descriptor (s : Nat) (nonblocking : Bool)
  | again | fail
  deriving DecidableEq, Repr

/-- An entry of `event_list`: what epoll reports of the descriptor `fd`, and `ee->data.ptr`.
`conn` is the connection that held the slot when the entry was registered. -/
structure EpollEvent where
  fd : Int
  events : UInt32
  slot : Nat
  conn : Nat
  deriving DecidableEq, Repr

/-- A call of a handler by the loop: `c->fd` and the connection in the slot when the call is made,
and the connection that was registered. -/
structure HandlerCall where
  fd : Int
  holds : Nat
  registered : Nat
  deriving DecidableEq, Repr

structure Cycle where
  conf : Conf
  connectionNum : Nat
  slots : Nat → Slot
  k : Kernel
  /-- the results of `accept4` to come -/
  accepts : List AcceptResult
  /-- the connection that is accepted next -/
  nextId : Nat
  /-- the calls of handlers that the loop has made -/
  calls : List HandlerCall := []
  /-- `c->fd` of the slots that `ehd_event_accept_handler` has cleared, before that -/
  cleared : List Int := []

namespace Cycle

def world (σ : Cycle) (i : Nat) : World where
  conf := σ.conf
  c := (σ.slots i).c
  hc := (σ.slots i).hc
  r := (σ.slots i).r
  k := σ.k
  t := (σ.slots i).t

def put (σ : Cycle) (i : Nat) (w : World) : Cycle :=
  { σ with slots := Function.update σ.slots i ⟨w.c, w.hc, w.r, w.t⟩, k := w.k }

end Cycle

abbrev CycleM (α : Type) := EStateM Stop Cycle α

def atSlot {α : Type} (i : Nat) (x : Handler α) : CycleM α := zoom (·.world i) (·.put i) x

def Slot.listening (fd : Nat) : Slot :=
  { c := { slot := fd, id := fd, fd := fd, readHandler := .eventAccept, ev := { accept := true } } }

def Slot.free (s : Slot) : Slot :=
  { s with c := { s.c with fd := -1, data := .null, ev := { s.c.ev with closed := true } } }

/-- `ehd_event_init`, for the listening descriptors and the memory of the two tables. -/
def eventInit (conf : Conf) (connectionNum : Nat) (listening : List Nat) (memory : Nat → Slot)
    (k : Kernel) (accepts : List AcceptResult) : Cycle where
  conf := conf
  connectionNum := connectionNum
  slots i := if i ∈ listening then .listening i else (memory i).free
  k := k
  accepts := accepts
  nextId := connectionNum

def eventEnableAccept : List Nat → CycleM Http.Rc
  | [] => return .ok
  | fd :: rest => do
    if (← atSlot fd (Event.epollAdd EHD_READ_EVENT EPOLLET)) = .error then return .error
    else eventEnableAccept rest

def acceptFails (l : Nat) : CycleM Unit :=
  atSlot l (modify (·.onEv fun ev => { ev with disabled := true, error := true }))

/-- `bzero` of the slot and the assignments; `listening->handler` is `ehd_http_init_connection`. -/
def fillSlot (s : Nat) (pool : Nat) : CycleM Unit :=
  modify fun σ => { σ with
    cleared := σ.cleared ++ [(σ.slots s).c.fd]
    slots := Function.update σ.slots s
      { c := { slot := s, id := σ.nextId, fd := s, readHandler := .initConnection
               pool := some pool } }
    nextId := σ.nextId + 1 }

/-- `while(1)` of `ehd_event_accept_handler`; `pool_size` of a listening socket is 16 KiB,
and the kernel never gives out a descriptor that is open. -/
def acceptLoop (l : Nat) : List AcceptResult → CycleM Unit
  | [] => throw .blocked
  | .again :: rest => modify fun σ => { σ with accepts := rest }
  | .fail :: rest => do
    modify fun σ => { σ with accepts := rest }
    acceptFails l
  | .descriptor s nonblocking :: rest => do
    modify fun σ => { σ with accepts := rest }
    let σ ← get
    if σ.k.opened s then acceptFails l
    else
      atSlot l (modify (·.onK fun k => { k with opened := Function.update k.opened s true }))
      if s ≥ σ.connectionNum then atSlot l (modify (·.closeFd s))
      else
        match ← atSlot l (createPool (16 * 1024)) with
        | none => return ()
        | some pool =>
          if !nonblocking then return ()
          else
            fillSlot s pool
            -- the result is not looked at
            let _ ← atSlot s (Event.epollAdd EHD_READ_EVENT EPOLLET)
            acceptLoop l rest

def eventAcceptHandler (l : Nat) : CycleM Unit := do
  acceptLoop l (← get).accepts

def noteCall (ee : EpollEvent) : CycleM Unit :=
  modify fun σ => { σ with
    calls := σ.calls ++ [⟨(σ.slots ee.slot).c.fd, (σ.slots ee.slot).c.id, ee.conn⟩] }

def reportWritableAt (ee : EpollEvent) : CycleM Unit := do
  if ee.events &&& EPOLLOUT ≠ 0 then
    atSlot ee.slot (modify (·.onEv fun ev => { ev with wready := true }))
    noteCall ee
    atSlot ee.slot callWriteHandler
  else return ()

def callReadAt (ee : EpollEvent) : CycleM Unit := do
  if ((← get).slots ee.slot).c.readHandler = .eventAccept then eventAcceptHandler ee.slot
  else atSlot ee.slot callReadHandler

def reportReadableAt (ee : EpollEvent) : CycleM Unit := do
  if ee.events &&& EPOLLIN ≠ 0 then
    atSlot ee.slot (modify (·.onEv fun ev => { ev with rready := true }))
    noteCall ee
    callReadAt ee
  else return ()

def processEvent (ee : EpollEvent) : CycleM Unit := do
  if ((← get).slots ee.slot).c.fd = -1 then return ()
  else
    reportWritableAt ee
    reportReadableAt ee

def processEvents : List EpollEvent → CycleM Unit
  | [] => return ()
  | ee :: rest => do
    processEvent ee
    processEvents rest

/-- What `epoll_wait` may return: at most one entry for a descriptor, each with what was registered
for it.  The directions are registered ones; other bits, such as `EPOLLERR` and `EPOLLHUP`, are
free. -/
structure Batch (k : Kernel) (es : List EpollEvent) : Prop where
  once : (es.map (·.fd)).Nodup
  registered : ∀ e ∈ es, ∃ mask, k.interest e.fd = some ⟨mask, e.slot, e.conn⟩ ∧
    (e.events &&& EPOLLIN ≠ 0 → mask &&& EPOLLIN ≠ 0) ∧
    (e.events &&& EPOLLOUT ≠ 0 → mask &&& EPOLLOUT ≠ 0)

/-- The state in which `ehd_event_epoll_process` enters its loop: the listening sockets are open,
in the table and registered, and epoll is otherwise empty. -/
def Started (P : Kernel → Prop) (σ : Cycle) : Prop :=
  ∃ (conf : Conf) (connectionNum : Nat) (listening : List Nat) (memory : Nat → Slot) (k : Kernel)
    (accepts : List AcceptResult) (rc : Http.Rc),
    P k ∧ (∀ fd, k.interest fd = none) ∧
    (∀ fd ∈ listening, fd < connectionNum ∧ k.opened fd = true) ∧
    eventEnableAccept listening (eventInit conf connectionNum listening memory k accepts) =
      .ok rc σ

/-- Between two batches only the process opens, closes and registers descriptors; the results to
come are arbitrary. -/
def Awaits (P : Kernel → Prop) (σ σ' : Cycle) : Prop :=
  ∃ k accepts, P k ∧ k.interest = σ.k.interest ∧ k.opened = σ.k.opened ∧ σ.k.pools ≤ k.pools ∧
    σ' = { σ with k := k, accepts := accepts }

/-- The runs of `ehd_event_epoll_process`, while every kernel has the property `P`. -/
def Cycle.Run (P : Kernel → Prop) : Option Stop → Cycle → Prop :=
  Calls (Started P) (fun σ x => ∃ es, Batch σ.k es ∧ x = processEvents es) (Awaits P)

end Ehd
