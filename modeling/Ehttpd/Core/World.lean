import Ehttpd.Core.Palloc
import Ehttpd.Http.Request
import Mathlib.Logic.Function.Basic
import Mathlib.Tactic.Simps.Basic

namespace Ehd

def EHD_OK : Int := 0
def EHD_ERROR : Int := -1
def EHD_AGAIN : Int := -2

def EPOLLIN : UInt32 := 0x1
def EPOLLOUT : UInt32 := 0x4
def EPOLLERR : UInt32 := 0x8
def EPOLLHUP : UInt32 := 0x10
def EPOLLET : UInt32 := 0x80000000

def EHD_READ_EVENT : UInt32 := EPOLLIN
def EHD_WRITE_EVENT : UInt32 := EPOLLOUT
def EHD_CLOSE_EVENT : UInt32 := 1

structure Event where
  events : UInt32 := 0
  closed : Bool := false
  accept : Bool := false
  active : Bool := false
  rready : Bool := false
  wready : Bool := false
  eof : Bool := false
  disabled : Bool := false
  error : Bool := false
  deriving DecidableEq, Repr, Inhabited

inductive ReadHandler
  | eventAccept
  | initConnection | initRequest | processRequestLine | processRequestHeaders | blockRead
  deriving DecidableEq, Repr

inductive WriteHandler
  | empty | writer
  deriving DecidableEq, Repr

inductive ConnData
  | null | httpConnection | request
  deriving DecidableEq, Repr

/-- `ehd_connection_t` together with its `ehd_event_t`.  `slot` is its place in
`cycle->connections`; `id` tells apart the connections that use one slot in turn. -/
structure Connection where
  slot : Nat
  id : Nat
  data : ConnData := .null
  fd : Int := -1
  readHandler : ReadHandler
  writeHandler : Option WriteHandler := none
  pool : Option Nat := none
  buf : Option Buf := none
  ev : Event := {}

structure HttpConnection where
  request : Bool := false

structure Conf where
  root : Str
  index : Str

inductive RecvResult
  | data (bs : List UInt8)
  | again | intr | fail
  deriving DecidableEq, Repr

/-- A result of `send` or `sendfile`; never more than was offered is taken. -/
inductive SendResult
  | sent (n : Nat)
  | again | intr | fail
  deriving DecidableEq, Repr

inductive Errno
  | unset | again | intr | other
  deriving DecidableEq, Repr

inductive FileType
  | reg | dir | other
  deriving DecidableEq, Repr

/-- `struct stat`: the members that are read; `st_size` is an `off_t`. -/
structure Stat where
  mode : FileType
  size : Nat
  inRange : size < 2 ^ 63
  deriving DecidableEq, Repr

/-- An entry of the epoll interest set: the mask and `ee.data.ptr`, with the
connection that held the slot when the entry was made. -/
structure Interest where
  mask : UInt32
  slot : Nat
  conn : Nat
  deriving DecidableEq, Repr

/-- A call of the allocator: `ehd_create_pool` for the pool with this number, `ehd_palloc`
(`ehd_pcalloc`, when the memory is cleared), or the bytes that a full array takes at the end of
the first block of its pool. -/
inductive AllocCall
  | createPool (pool size : Nat)
  | palloc (cleared : Bool) (pool size : Nat)
  | grow (pool size : Nat)
  deriving DecidableEq, Repr

/-- A call of the allocator, with `c->read_handler` at the call and whether it has succeeded. -/
structure Allocation where
  handler : ReadHandler
  call : AllocCall
  ok : Bool
  deriving DecidableEq, Repr

/-- The kernel and `malloc`: the results to come, and the state behind them. -/
structure Kernel where
  /-- the results of `recv` to come -/
  recvs : List RecvResult
  /-- the results of `send` and `sendfile` to come -/
  sends : List SendResult
  /-- whether the `n`-th allocation succeeds, when it is made under this `c->read_handler` -/
  allocOk : ReadHandler → Nat → Bool
  /-- what the memory of the `n`-th allocation holds before it is written -/
  stale : Nat → Nat → UInt8
  /-- the allocations so far -/
  allocs : List Allocation
  /-- the next pool -/
  pools : Nat
  /-- whether the `n`-th `epoll_ctl` succeeds -/
  epollOk : Nat → Bool
  epolls : Nat
  interest : Int → Option Interest
  opened : Int → Bool
  /-- `stat` and `open`, as functions of the number of earlier calls and the path -/
  stat : Nat → List UInt8 → Option Stat
  openFd : Nat → List UInt8 → Option Int
  fsCalls : Nat
  /-- the path behind an open file, and the bytes at it -/
  files : Int → List UInt8
  content : List UInt8 → Nat → UInt8
  /-- the value a caller sees of `ehd_array_init`, which ends without `return` -/
  arrayInitReturn : Int
  /-- whether an array that is full at the `n`-th allocation grows in place -/
  growsInPlace : Nat → Bool
  /-- the bits that `ehd_event_epoll_del` stores from an unset variable -/
  unsetActive : Bool
  errno : Errno

def Kernel.recvBudget (k : Kernel) : Nat :=
  (k.recvs.map fun
    | .data bs => bs.length + 1
    | _ => 1).sum

/-- The head of a request: its method, the bytes of its URI and its headers. -/
structure Head where
  method : Http.Method
  uri : List UInt8
  headers : List (List UInt8 × List UInt8)
  deriving DecidableEq, Repr

/-- A request as `ehd_http_handler` gets it, with the headers that `headers_in.cookies` and
the members of `headers_in` point to, by their places. -/
structure Handed extends Head where
  headersN : Nat
  cookies : List Nat
  fields : Http.HeaderField → Option Nat

/-- A byte that `sendfile` has sent: the descriptor and the place it was read from. -/
structure FileByte where
  fd : Int
  offset : Nat
  byte : UInt8
  deriving DecidableEq, Repr

/-- A descriptor that `ehd_file_open_rs` has opened: for which request, counted from one, and
whether `stat` then gave the size of the file. -/
structure FileOpen where
  request : Nat
  fd : Int
  sized : Bool
  deriving DecidableEq, Repr

structure Trace where
  /-- the arguments of `ehd_destroy_pool`, in order -/
  destroyed : List Nat := []
  /-- a request structure was used after the pool it lives in had been destroyed -/
  badAccess : Bool := false
  /-- the bytes taken from the socket -/
  received : List UInt8 := []
  /-- the results of `ehd_recv`, each with `c->read_handler` at the call -/
  recvs : List (ReadHandler × Int) := []
  /-- for each of these calls the place in the buffer and the size that it is given -/
  reads : List (Nat × Nat) := []
  /-- for each request that is closed because the buffer is full, how many requests have been
  handed over by then, and the bytes taken from the socket -/
  noRoom : List (Nat × List UInt8) := []
  /-- the requests given to `ehd_http_handler` -/
  handed : List Handed := []
  /-- the bytes the kernel has accepted for the socket -/
  sent : List UInt8 := []
  /-- those of them that were read from a file -/
  fromFile : List FileByte := []
  /-- the C strings given to `stat` and `open` -/
  paths : List (List UInt8) := []
  /-- the descriptors that `ehd_file_open_rs` has opened -/
  opens : List FileOpen := []
  /-- for each call of `ehd_http_keep_alive`, the unread bytes it finds -/
  keepAlives : List (List UInt8) := []
  /-- and how many bytes the kernel has accepted by then -/
  keptAt : List Nat := []

structure World where
  conf : Conf
  c : Connection
  hc : HttpConnection
  r : Http.Request
  k : Kernel
  t : Trace

/-- Why a handler does not return: a system call has no result yet, a loop was
given too few rounds, or the code dereferences `NULL` (`nullAlloc`: one that an
allocation has returned), reads `c->data` at the wrong type or overruns a buffer. -/
inductive Stop
  | blocked | outOfFuel | nullDeref | nullAlloc | badCast | overrun
  deriving DecidableEq, Repr

abbrev Handler (α : Type) := EStateM Stop World α

namespace World

@[simps] def onC (w : World) (f : Connection → Connection) : World := { w with c := f w.c }

@[simps] def onR (w : World) (f : Http.Request → Http.Request) : World := { w with r := f w.r }

@[simps] def onK (w : World) (f : Kernel → Kernel) : World := { w with k := f w.k }

@[simps] def onT (w : World) (f : Trace → Trace) : World := { w with t := f w.t }

@[simps!] def onEv (w : World) (f : Event → Event) : World := w.onC fun c => { c with ev := f c.ev }

@[simps!] def setBuf (w : World) (b : Buf) : World := w.onC fun c => { c with buf := some b }

end World

def World.touch (w : World) : World :=
  if w.r.home ∈ w.t.destroyed then w.onT fun t => { t with badAccess := true } else w

def getRequest : Handler Http.Request := do
  modify World.touch
  return (← get).r

def modifyRequest (f : Http.Request → Http.Request) : Handler Unit :=
  modify fun w => w.touch.onR f

def getHeaderInBuf : Handler Buf := do
  modify World.touch
  match (← get).c.buf with
  | some b => return b
  | none => throw .nullDeref

def setHeaderInBuf (b : Buf) : Handler Unit := modify fun w => w.touch.setBuf b

/-- The sizes of the structures that are allocated, on a 64-bit machine. -/
def SIZEOF_TABLE_DATA : Nat := 32
def SIZEOF_LIST_NODE : Nat := 24
def SIZEOF_POINTER : Nat := 8
def SIZEOF_BUF : Nat := 72
def SIZEOF_CHAIN : Nat := 16
def SIZEOF_FILE : Nat := 48
def SIZEOF_HTTP_CONNECTION : Nat := 8
def SIZEOF_HTTP_REQUEST : Nat := 704

def cpool (w : World) : Nat := w.c.pool.getD 0
def rpool (w : World) : Nat := w.r.pool.getD 0

@[simps!] def World.alloced (w : World) (n : List Allocation) : World :=
  w.onK fun k => { k with allocs := n }

/-- One call of the allocator, for a structure or an area whose bytes are not modelled. -/
def allocate (call : World → AllocCall) : Handler Bool := do
  let w ← get
  let ok := w.k.allocOk w.c.readHandler w.k.allocs.length
  set (w.alloced (w.k.allocs ++ [⟨w.c.readHandler, call w, ok⟩]))
  return ok

/-- A full array takes `size` bytes at the end of the first block of its pool. -/
def growInPlace (size : Nat) : Handler Unit :=
  modify fun w => w.alloced (w.k.allocs ++ [⟨w.c.readHandler, .grow (rpool w) size, true⟩])

def palloc (pool : World → Nat) (size : Nat) : Handler (Option (List UInt8)) := do
  let w ← get
  if ← allocate fun w => .palloc false (pool w) size then
    return some ((List.range size).map (w.k.stale w.k.allocs.length))
  else return none

def pcalloc (pool : World → Nat) (size : Nat) : Handler (Option (List UInt8)) := do
  if ← allocate fun w => .palloc true (pool w) size then return some (List.replicate size 0)
  else return none

def createPool (size : Nat) : Handler (Option Nat) := do
  if ← allocate fun w => .createPool w.k.pools size then
    let w ← get
    set (w.onK fun k => { k with pools := k.pools + 1 })
    return some w.k.pools
  else return none

@[simps!] def World.destroyPool (w : World) (pool : Nat) : World :=
  w.onT fun t => { t with destroyed := t.destroyed ++ [pool] }

def createTempBuf (pool : World → Nat) (size : Nat) : Handler (Option Buf) := do
  if ← allocate fun w => .palloc true (pool w) SIZEOF_BUF then
    if ← allocate fun w => .palloc false (pool w) size then return some (.temp size)
    else return none
  else return none

/-- The allocations of `ehd_list_push` on a list of `ehd_table_data_t` in `r->pool`: of a node
and of its data when the last node is full. -/
def listRoom {α : Type} (l : EList α) : Handler Bool := do
  if l.needsNode then
    if ← allocate fun w => .palloc false (rpool w) SIZEOF_LIST_NODE then
      allocate fun w => .palloc false (rpool w) (l.ndata * SIZEOF_TABLE_DATA)
    else return false
  else return true

@[simps!] def World.namePath (w : World) (path : List UInt8) : World :=
  (w.onK fun k => { k with fsCalls := k.fsCalls + 1 }).onT fun t =>
    { t with paths := t.paths ++ [path] }

def sysStat (path : List UInt8) : Handler (Option Stat) := do
  let w ← get
  set (w.namePath path)
  return w.k.stat w.k.fsCalls path

def sysOpen (path : List UInt8) : Handler (Option Int) := do
  let w ← get
  set (w.namePath path)
  match w.k.openFd w.k.fsCalls path with
  | none => return none
  | some fd =>
    if w.k.opened fd ∨ fd < 0 then return none
    else
      modify (·.onK fun k => { k with
        opened := Function.update k.opened fd true
        files := Function.update k.files fd path })
      return some fd

@[simps!] def World.closeFd (w : World) (fd : Int) : World :=
  w.onK fun k => { k with
    opened := Function.update k.opened fd false
    interest := Function.update k.interest fd none }

/-- `ehd_file_open_rs`: `none` is `EHD_ERROR`.  When the second call fails the
descriptor stays open. -/
def fileOpenRs (name : Str) : Handler (Option File) := do
  match ← sysOpen (cString name.data) with
  | none => return none
  | some fd =>
    let s ← sysStat (cString name.data)
    modify (·.onT fun t => { t with opens := t.opens ++ [⟨t.handed.length, fd, s.isSome⟩] })
    match s with
    | none => return none
    | some s => return some { fd := fd, name := name, sysOffset := 0, size := s.size }

/-- `ehd_recv`, with the bytes that `recv` stored.  The loop repeats the call
after `EINTR`. -/
def recv (size : Nat) : Handler (Int × List UInt8) := do
  if size = 0 then
    modify (·.onEv fun ev => { ev with rready := false, eof := true })
    return (0, [])
  else go size (← get).k.recvs
where
  go (size : Nat) : List RecvResult → Handler (Int × List UInt8)
  | [] => throw .blocked
  | .intr :: rest => do
    modify (·.onK fun k => { k with recvs := rest, errno := .intr })
    go size rest
  | .data bs :: rest => do
    let got := bs.take size
    modify (·.onK fun k => { k with
      recvs := if bs.length ≤ size then rest else .data (bs.drop size) :: rest })
    modify (·.onEv fun ev => { ev with
      rready := ev.rready && !(got.length < size), eof := ev.eof || got.length = 0 })
    modify (·.onT fun t => { t with received := t.received ++ got })
    return ((got.length : Int), got)
  | .again :: rest => do
    modify (·.onK fun k => { k with recvs := rest, errno := .again })
    modify (·.onEv fun ev => { ev with rready := false })
    return (EHD_AGAIN, [])
  | .fail :: rest => do
    modify (·.onK fun k => { k with recvs := rest, errno := .other })
    modify (·.onEv fun ev => { ev with rready := false, error := true })
    return (EHD_ERROR, [])

/-- `ehd_recv` of `size` bytes to the place `last` of the input buffer, with the call noted. -/
def recvAt (last size : Nat) : Handler (Int × List UInt8) := do
  let (n, bs) ← recv size
  modify fun w => w.onT fun t => { t with
    recvs := t.recvs ++ [(w.c.readHandler, n)], reads := t.reads ++ [(last, size)] }
  return (n, bs)

@[simps!] def World.noteNoRoom (w : World) : World :=
  w.onT fun t => { t with noRoom := t.noRoom ++ [(t.handed.length, t.received)] }

def send (bs : List UInt8) : Handler Int := do
  if bs.length = 0 then
    modify (·.onEv fun ev => { ev with wready := false })
    return 0
  else go bs (← get).k.sends
where
  go (bs : List UInt8) : List SendResult → Handler Int
  | [] => throw .blocked
  | .intr :: rest => do
    modify (·.onK fun k => { k with sends := rest, errno := .intr })
    go bs rest
  | .sent m :: rest => do
    modify (·.onK fun k => { k with sends := rest })
    modify (·.onEv fun ev => { ev with wready := ev.wready && !(min m bs.length < bs.length) })
    modify (·.onT fun t => { t with sent := t.sent ++ bs.take m })
    return ((min m bs.length : Nat) : Int)
  | .again :: rest => do
    modify (·.onK fun k => { k with sends := rest, errno := .again })
    modify (·.onEv fun ev => { ev with wready := false })
    return EHD_AGAIN
  | .fail :: rest => do
    modify (·.onK fun k => { k with sends := rest, errno := .other })
    modify (·.onEv fun ev => { ev with rready := false, error := true })
    return EHD_ERROR

def Kernel.fileBytes (k : Kernel) (fd : Int) (offset count : Nat) : List UInt8 :=
  (List.range count).map fun i => k.content (k.files fd) (offset + i)

def readAt (fd : Int) (offset : Nat) (bs : List UInt8) : List FileByte :=
  bs.mapIdx fun i x => ⟨fd, offset + i, x⟩

/-- `sendfile(c->fd, fd, &offset, count)`: the number of bytes accepted, or -1;
for a count of 0 it returns 0. -/
def sendfile (fd : Int) (offset count : Nat) : Handler Int := do
  if count = 0 then return 0
  else
    match (← get).k.sends with
    | [] => throw .blocked
    | .sent m :: rest =>
      modify (·.onK fun k => { k with sends := rest })
      modify fun w =>
        let bs := w.k.fileBytes fd offset (min m count)
        w.onT fun t => { t with
          sent := t.sent ++ bs, fromFile := t.fromFile ++ readAt fd offset bs }
      return ((min m count : Nat) : Int)
    | .again :: rest =>
      modify (·.onK fun k => { k with sends := rest, errno := .again })
      return -1
    | .intr :: rest =>
      modify (·.onK fun k => { k with sends := rest, errno := .intr })
      return -1
    | .fail :: rest =>
      modify (·.onK fun k => { k with sends := rest, errno := .other })
      return -1

end Ehd
