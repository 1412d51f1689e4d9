import Ehttpd.Http.Handlers

namespace Ehd

/-- `c->read_handler(c)`.  An accepted connection never carries
`ehd_event_accept_handler`, which belongs to the listening slots. -/
def callReadHandler : Handler Unit := do
  match (← get).c.readHandler with
  | .eventAccept => throw .badCast
  | .initConnection => Http.initConnection
  | .initRequest => Http.initRequest
  | .processRequestLine => Http.processRequestLine
  | .processRequestHeaders => Http.processRequestHeaders
  | .blockRead => Http.blockRead

def callWriteHandler : Handler Unit := do
  match (← get).c.writeHandler with
  | none => throw .nullDeref
  | some .empty => return ()
  | some .writer => Http.writer

def reportWritable (events : UInt32) : Handler Unit := do
  if events &&& EPOLLOUT ≠ 0 then
    modify (·.onEv fun ev => { ev with wready := true })
    callWriteHandler
  else return ()

def reportReadable (events : UInt32) : Handler Unit := do
  if events &&& EPOLLIN ≠ 0 then
    modify (·.onEv fun ev => { ev with rready := true })
    callReadHandler
  else return ()

def dispatch (events : UInt32) : Handler Unit := do
  if (← get).c.fd = -1 then return ()
  else
    reportWritable events
    reportReadable events

/-- A connection as `ehd_event_accept_handler` leaves it, registered for reading. -/
def Connection.accepted (slot id : Nat) (fd : Int) (pool : Nat) : Connection :=
  { slot := slot, id := id, fd := fd, readHandler := .initConnection, pool := some pool
    ev := { active := true, events := EHD_READ_EVENT ||| EPOLLET } }

end Ehd
