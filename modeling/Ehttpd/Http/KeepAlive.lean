import Ehttpd.Event.Epoll

namespace Ehd

def World.closeRequest (w : World) : World :=
  match w.r.pool with
  | none => w.touch
  | some pool => w.touch.destroyPool pool

namespace Http

def closeRequest : Handler Unit := modify World.closeRequest

def closeConnection : Handler Unit := modify World.closeConnection

def closeBoth : Handler Unit := do
  closeRequest
  closeConnection

/-- The copy of the unread bytes to the start of the buffer,
`b->start[i] = b->pos[i]` in increasing order, and the new `pos` and `last`. -/
def moveUnread (b : Buf) : Buf := { b with bytes := b.unread, pos := 0 }

def keepAlive : Handler Unit := do
  let b ← getHeaderInBuf
  modify fun w => { w with hc := { request := false } }
  modify (·.onC fun c => { c with data := .httpConnection, readHandler := .initRequest })
  modify (·.onT fun t => { t with
    keepAlives := t.keepAlives ++ [b.unread], keptAt := t.keptAt ++ [t.sent.length] })
  setHeaderInBuf (moveUnread b)
  closeRequest
  modify (·.onC fun c => { c with writeHandler := some .empty })
  if (← Event.epollAdd EHD_READ_EVENT EPOLLET) = .error then closeConnection

end Http

end Ehd
