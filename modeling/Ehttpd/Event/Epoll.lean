import Ehttpd.Core.World

namespace Ehd

/-- `epoll_ctl(ep, op, c->fd, &ee)`, with the entry it leaves; `true` is success. -/
def epollCtl (entry : Option Interest) : Handler Bool := do
  let w ← get
  set (w.onK fun k => { k with epolls := k.epolls + 1 })
  if w.k.epollOk w.k.epolls then
    modify (·.onK fun k => { k with interest := Function.update k.interest w.c.fd entry })
    return true
  else return false

namespace Event

/-- `ehd_event_epoll_add`: `EPOLL_CTL_MOD` when the event is active, else
`EPOLL_CTL_ADD`; either way the entry becomes the new mask. -/
def epollAdd (event flags : UInt32) : Handler Http.Rc := do
  modify (·.onEv fun ev => { ev with active := true, events := event ||| flags })
  let w ← get
  if ← epollCtl (some ⟨event ||| flags, w.c.slot, w.c.id⟩) then return .ok else return .error

/-- `ehd_event_epoll_mod`: always `EPOLL_CTL_MOD`, and `active` is left alone. -/
def epollMod (event flags : UInt32) : Handler Http.Rc := do
  modify (·.onEv fun ev => { ev with events := event ||| flags })
  let w ← get
  if ← epollCtl (some ⟨event ||| flags, w.c.slot, w.c.id⟩) then return .ok else return .error

/-- `ehd_event_epoll_del`; `active` is assigned from a variable that is never set. -/
def epollDel (_event flags : UInt32) : Handler Http.Rc := do
  if flags = EHD_CLOSE_EVENT then return .ok
  else if ← epollCtl none then
    modify fun w => w.onEv fun ev => { ev with active := w.k.unsetActive }
    return .ok
  else return .error

end Event

/-- `ehd_close_connection`; deleting the event with `EHD_CLOSE_EVENT` does nothing.
The pool pointer stays set. -/
def World.closeConnection (w : World) : World :=
  match w.c.pool with
  | none => w
  | some pool =>
    ((w.onC fun c => { c with
        ev := { c.ev with closed := true }, fd := -1, data := .null }).destroyPool pool).closeFd w.c.fd

end Ehd
