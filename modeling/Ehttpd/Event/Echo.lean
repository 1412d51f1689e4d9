import Ehttpd.Event.ActiveFlag

namespace Ehd

open Program Http

def ECHO_BUF_SIZE : Nat := 4096

/-- `ehd_mod_event(c->event, event, EPOLLET)`; its result is not looked at. -/
def switchTo (event : UInt32) : Handler Unit := do
  let _ ← Event.epollMod event EPOLLET

/-- `for(;;)` of `ehd_event_echo_read`, with the buffer and the results of `recv` to come. -/
def echoReadLoop (b : Buf) : List RecvResult → Handler Unit
  | [] => throw .blocked
  | .again :: rest => do
    modify (·.onK fun k => { k with recvs := rest, errno := .again })
    switchTo EHD_WRITE_EVENT
  | .intr :: rest => do
    modify (·.onK fun k => { k with recvs := rest, errno := .intr })
    modify World.closeConnection
  | .fail :: rest => do
    modify (·.onK fun k => { k with recvs := rest, errno := .other })
    modify World.closeConnection
  | .data bs :: rest => do
    let got := bs.take b.room
    modify (·.onK fun k => { k with
      recvs := if bs.length ≤ b.room then rest else .data (bs.drop b.room) :: rest })
    modify (·.onT fun t => { t with received := t.received ++ got })
    if got.length = 0 then modify World.closeConnection
    else
      modify (·.setBuf (b.append got))
      if (b.append got).last = b.size then switchTo EHD_WRITE_EVENT
      else echoReadLoop (b.append got) rest

def echoRead : Handler Unit := do
  match (← get).c.buf with
  | none =>
    match ← createTempBuf cpool ECHO_BUF_SIZE with
    | none => throw .nullAlloc
    | some b =>
      modify (·.setBuf b)
      echoReadLoop b (← get).k.recvs
  | some b =>
    let b := { b with bytes := [], pos := 0 }
    modify (·.setBuf b)
    echoReadLoop b (← get).k.recvs

/-- `for(;;)` of `ehd_event_echo_write`, for a buffer with unsent bytes. -/
def echoWriteLoop (b : Buf) : List SendResult → Handler Unit
  | [] => throw .blocked
  | .again :: rest => do
    modify (·.onK fun k => { k with sends := rest, errno := .again })
    switchTo EHD_READ_EVENT
  | .intr :: rest => do
    modify (·.onK fun k => { k with sends := rest, errno := .intr })
    modify World.closeConnection
  | .fail :: rest => do
    modify (·.onK fun k => { k with sends := rest, errno := .other })
    modify World.closeConnection
  | .sent m :: rest => do
    let n := min m b.unread.length
    modify (·.onK fun k => { k with sends := rest })
    modify (·.onT fun t => { t with sent := t.sent ++ b.unread.take n })
    if n = 0 then modify World.closeConnection
    else
      let b := { b with pos := b.pos + n }
      modify (·.setBuf b)
      if b.pos = b.last then switchTo EHD_READ_EVENT else echoWriteLoop b rest

def echoWrite : Handler Unit := do
  match (← get).c.buf with
  | none => throw .nullDeref
  | some b =>
    -- `send` of no bytes returns 0
    if b.unread.length = 0 then modify World.closeConnection
    else echoWriteLoop b (← get).k.sends

def echoDispatch (events : UInt32) : Handler Unit := do
  if (← get).c.fd = -1 then return ()
  else
    if events &&& EPOLLOUT ≠ 0 then
      modify (·.onEv fun ev => { ev with wready := true })
      echoWrite
    if events &&& EPOLLIN ≠ 0 then
      modify (·.onEv fun ev => { ev with rready := true })
      echoRead

/-- What the loop finds in `event_list`, and the kernel with the results to come. -/
structure EchoCall where
  events : UInt32
  kernel : Kernel

def EchoCall.enter (x : EchoCall) (w : World) : World :=
  w.onK fun k => { x.kernel with interest := k.interest, opened := k.opened }

def EchoCall.run (x : EchoCall) : Handler Unit := do
  modify x.enter
  echoDispatch x.events

def World.mask (w : World) : UInt32 :=
  match w.k.interest w.c.fd with
  | none => 0
  | some entry => entry.mask

def World.unsent (w : World) : List UInt8 :=
  match w.c.buf with
  | none => []
  | some b => b.unread

/-- epoll reports directions that are registered; other bits are free. -/
def EchoCall.Reported (w : World) (x : EchoCall) : Prop :=
  w.c.fd ≠ -1 → (x.events &&& EPOLLIN ≠ 0 → w.mask &&& EPOLLIN ≠ 0) ∧
    (x.events &&& EPOLLOUT ≠ 0 → w.mask &&& EPOLLOUT ≠ 0)

instance (w : World) (x : EchoCall) : Decidable (x.Reported w) :=
  inferInstanceAs (Decidable (_ → _ ∧ _))

structure EchoStart (w : World) : Prop where
  opened : w.c.fd ≠ -1
  pool : ∃ p, w.c.pool = some p
  buf : w.c.buf = none
  mask : w.mask = readMask
  received : w.t.received = []
  sent : w.t.sent = []

/-- What has been sent begins what has been received, and while the connection is open the
buffer has the rest. -/
structure Lossless (w : World) : Prop where
  sent : w.t.sent <+: w.t.received
  kept : w.c.fd ≠ -1 → w.t.received = w.t.sent ++ w.unsent

/-- A call, at whatever moment it is, loses nothing, and empties the buffer only when everything
in it has been sent. -/
structure Echoes (w : World) (x : EchoCall) : Prop where
  lossless : Lossless (after x.run w)
  emptied : w.c.fd ≠ -1 → x.events &&& EPOLLIN ≠ 0 → w.unsent = []

def EchoCall.switches (x : EchoCall) : Bool := x.kernel.epollOk x.kernel.epolls

def EchoCall.allocates (h : ReadHandler) (x : EchoCall) : Bool :=
  x.kernel.allocOk h x.kernel.allocs.length && x.kernel.allocOk h (x.kernel.allocs.length + 1)

def stalls : Nat → List SendResult → Bool
  | n, .again :: _ => n != 0
  | n, .sent m :: rest => m != 0 && stalls (n - m) rest
  | _, _ => false

theorem stalls_zero (rs : List SendResult) : stalls 0 rs = false := by
  induction rs with
  | nil => rfl
  | cons r rest ih =>
    cases r with
    | sent m =>
      show (m != 0 && stalls (0 - m) rest) = false
      rw [Nat.zero_sub, ih, Bool.and_false]
    | again => rfl
    | intr => rfl
    | fail => rfl

/-- `recv` gives bytes and then says `EAGAIN`, or gives as many as there is room for; `got` says
whether it has given some before. -/
def takes : Nat → Bool → List RecvResult → Bool
  | _, got, .again :: _ => got
  | room, _, .data bs :: rest =>
    bs.length != 0 && (decide (room ≤ bs.length) || takes (room - bs.length) true rest)
  | _, _, _ => false

/-- A call gives the turn to the reading handler while there are bytes to send: a writing call
that meets `EAGAIN`, or a reading one that takes bytes and fails to switch. -/
def EchoCall.Strands (w : World) (x : EchoCall) : Prop :=
  w.c.fd ≠ -1 ∧
    (x.events &&& EPOLLOUT ≠ 0 ∧ stalls w.unsent.length x.kernel.sends = true ∧
        x.switches = true ∨
      x.events &&& EPOLLIN ≠ 0 ∧ takes ECHO_BUF_SIZE false x.kernel.recvs = true ∧
        x.switches = false ∧ (w.c.buf = none → x.allocates w.c.readHandler = true))

instance (w : World) (x : EchoCall) : Decidable (x.Strands w) :=
  inferInstanceAs (Decidable (_ ∧ (_ ∧ _ ∧ _ ∨ _ ∧ _ ∧ _ ∧ (_ → _))))

variable {w w' : World} {b : Buf} {x : EchoCall}

/-- An open connection with the buffer `b`, which has what has been received and not sent. -/
structure Holding (w : World) (b : Buf) : Prop where
  opened : w.c.fd ≠ -1
  pool : ∃ p, w.c.pool = some p
  buf : w.c.buf = some b
  within : b.pos ≤ b.last
  size : b.size = ECHO_BUF_SIZE
  kept : w.t.received = w.t.sent ++ b.unread

theorem Holding.onK (h : Holding w b) (f : Kernel → Kernel) : Holding (w.onK f) b :=
  ⟨h.opened, h.pool, h.buf, h.within, h.size, h.kept⟩

theorem Holding.onEv (h : Holding w b) (f : Event → Event) : Holding (w.onEv f) b :=
  ⟨h.opened, h.pool, h.buf, h.within, h.size, h.kept⟩

theorem Holding.unsent (h : Holding w b) : w.unsent = b.unread := by
  unfold World.unsent
  rw [h.buf]

theorem lossless_of_kept (h : w.t.received = w.t.sent ++ w.unsent) : Lossless w := by
  refine ⟨?_, fun _ => h⟩
  rw [h]
  exact List.prefix_append _ _

theorem Holding.lossless (h : Holding w b) : Lossless w := by
  apply lossless_of_kept
  rw [h.unsent]
  exact h.kept

/-- How a handler returns: it has closed the connection, or registered it with `mask`; `left` says
whether there are bytes to send. -/
inductive EchoEnd (mask : UInt32) (left : Bool) (w : World) : Prop
  | closed (gone : w.c.fd = -1) (sent : w.t.sent <+: w.t.received) (none : left = false)
  | switched (b : Buf) (holding : Holding w b) (registered : w.mask = mask)
      (some : left = true ↔ b.unread ≠ [])

def nextMask (w : World) (mask : UInt32) : UInt32 :=
  if w.k.epollOk w.k.epolls then mask else w.mask

theorem switchTo_ends {E : Stop → World → Prop} {event : UInt32} {left : Bool}
    (h : Holding w b) (hleft : left = true ↔ b.unread ≠ []) :
    wp (switchTo event) (fun _ => EchoEnd (nextMask w (event ||| EPOLLET)) left) E w := by
  unfold switchTo Event.epollMod
  simp only [wp_bind, wp_modify, wp_get, wp_epollCtl, wp_ite, wp_pure]
  have hend : EchoEnd (nextMask w (event ||| EPOLLET)) left
      ((w.onEv fun ev => { ev with events := event ||| EPOLLET }).answered
        (some ⟨event ||| EPOLLET, w.c.slot, w.c.id⟩) (w.k.epollOk w.k.epolls)) := by
    refine .switched b ((h.onEv _).onK _) ?_ hleft
    unfold nextMask World.mask
    show (match (if w.k.epollOk w.k.epolls then _ else w.k.interest) w.c.fd with
      | none => (0 : UInt32)
      | some entry => entry.mask) = _
    cases w.k.epollOk w.k.epolls with
    | true =>
      rw [if_pos rfl, if_pos rfl]
      show (match Function.update w.k.interest w.c.fd _ w.c.fd with
        | none => (0 : UInt32)
        | some entry => entry.mask) = _
      rw [Function.update_self]
    | false =>
      rw [if_neg (by decide), if_neg (by decide)]
  exact ⟨fun _ => hend, fun _ => hend⟩

theorem close_ends {mask : UInt32} (hpool : ∃ p, w.c.pool = some p)
    (hsent : w.t.sent <+: w.t.received) : EchoEnd mask false w.closeConnection := by
  obtain ⟨p, hp⟩ := hpool
  obtain ⟨ht, hfd⟩ := closeConnection_t hp
  refine .closed hfd ?_ rfl
  rw [ht]
  exact hsent

/-- Stopped in the middle of a call, the connection still has its bytes. -/
def Paused (left : Bool) (w : World) : Prop :=
  w.t.received = w.t.sent ++ w.unsent ∧ left = false

theorem Holding.paused (h : Holding w b) : Paused false w := by
  refine ⟨?_, rfl⟩
  rw [h.unsent]
  exact h.kept

theorem Holding.fill (h : Holding w b) (f : Kernel → Kernel) (got : List UInt8) :
    Holding (((w.onK f).onT fun t => { t with received := t.received ++ got }).setBuf
      (b.append got)) (b.append got) where
  opened := h.opened
  pool := h.pool
  buf := rfl
  within := Nat.le_trans h.within (by simp [Buf.last, Buf.append])
  size := h.size
  kept := by
    have hunread : (b.append got).unread = b.unread ++ got :=
      List.drop_append_of_le_length h.within
    show w.t.received ++ got = w.t.sent ++ _
    rw [hunread, h.kept, List.append_assoc]

theorem echoReadLoop_ends (h : Holding w b) (hpos : b.pos = 0) (hroom : b.last < b.size)
    (rs : List RecvResult) : wp (echoReadLoop b rs)
      (fun _ => EchoEnd (nextMask w writeMask) (takes b.room (b.last != 0) rs))
      (fun _ => Paused (takes b.room (b.last != 0) rs)) w := by
  induction rs generalizing w b with
  | nil => exact h.paused
  | cons r rest ih =>
    cases r with
    | again =>
      show wp (switchTo EHD_WRITE_EVENT) _ _ (w.onK _)
      apply switchTo_ends (h.onK _)
      simp [takes, Buf.last, Buf.unread, hpos]
    | intr => exact close_ends h.pool h.lossless.sent
    | fail => exact close_ends h.pool h.lossless.sent
    | data bs =>
      have hlen : (bs.take b.room).length = min b.room bs.length := List.length_take
      have hlast : b.last + b.room = b.size := by
        unfold Buf.room
        omega
      have hlast' : (b.append (bs.take b.room)).last = b.last + (bs.take b.room).length :=
        List.length_append
      unfold echoReadLoop
      simp only [wp_bind, wp_modify, wp_ite]
      constructor
      · intro hzero
        -- the peer has closed its side
        have hbs : bs = [] := List.eq_nil_of_length_eq_zero (by omega)
        have hleft : takes b.room (b.last != 0) (.data bs :: rest) = false := by
          rw [hbs]
          rfl
        rw [hleft]
        exact close_ends h.pool (h.lossless.sent.trans (List.prefix_append _ _))
      · intro hsome
        have hb := h.fill (fun k => { k with
          recvs := if bs.length ≤ b.room then rest else .data (bs.drop b.room) :: rest })
            (bs.take b.room)
        constructor
        · intro hfull
          -- the buffer is full: the loop stops reading
          have hleft : takes b.room (b.last != 0) (.data bs :: rest) = true := by
            have hroom : b.room ≤ bs.length := by omega
            have hbs : bs.length ≠ 0 := by omega
            simp [takes, hroom, List.length_eq_zero_iff.not.1 hbs]
          rw [hleft]
          apply switchTo_ends hb
          apply iff_of_true rfl
          intro hnil
          have hnone : ((b.append (bs.take b.room)).bytes.drop b.pos).length = 0 :=
            congrArg List.length hnil
          rw [hpos] at hnone
          change (b.append (bs.take b.room)).last = 0 at hnone
          omega
        · intro hmore
          -- there is room left, and the loop reads again
          have hfits : bs.length < b.room := by omega
          have hroom' : (b.append (bs.take b.room)).room = b.room - bs.length := by
            show b.size - (b.append (bs.take b.room)).last = _
            omega
          have hgot : ((b.append (bs.take b.room)).last != 0) = true := by
            apply bne_iff_ne.2
            omega
          have hleft : takes b.room (b.last != 0) (.data bs :: rest) =
              takes (b.append (bs.take b.room)).room
                ((b.append (bs.take b.room)).last != 0) rest := by
            have hbs : bs.length ≠ 0 := by omega
            rw [hroom', hgot]
            simp [takes, List.length_eq_zero_iff.not.1 hbs, Nat.not_le.2 hfits]
          rw [hleft]
          apply ih hb hpos
          show (b.append (bs.take b.room)).last < b.size
          omega

/-- `send` has taken the first `n` unsent bytes. -/
theorem Holding.advance (h : Holding w b) (f : Kernel → Kernel) {n : Nat}
    (hn : n ≤ b.unread.length) :
    Holding (((w.onK f).onT fun t => { t with sent := t.sent ++ b.unread.take n }).setBuf
      { b with pos := b.pos + n }) { b with pos := b.pos + n } where
  opened := h.opened
  pool := h.pool
  buf := rfl
  within := by
    have hlen : b.unread.length = b.last - b.pos := List.length_drop
    have hwithin := h.within
    show b.pos + n ≤ b.last
    omega
  size := h.size
  kept := by
    have hunread : ({ b with pos := b.pos + n } : Buf).unread = b.unread.drop n :=
      List.drop_drop.symm
    show w.t.received = w.t.sent ++ b.unread.take n ++ _
    rw [hunread, h.kept, List.append_assoc, List.take_append_drop]

theorem echoWriteLoop_ends (h : Holding w b) (hunread : b.unread ≠ []) (rs : List SendResult) :
    wp (echoWriteLoop b rs) (fun _ => EchoEnd (nextMask w readMask) (stalls b.unread.length rs))
      (fun _ => Paused (stalls b.unread.length rs)) w := by
  induction rs generalizing w b with
  | nil => exact h.paused
  | cons r rest ih =>
    cases r with
    | again =>
      show wp (switchTo EHD_READ_EVENT) _ _ (w.onK _)
      apply switchTo_ends (h.onK _)
      simp [stalls]
    | intr => exact close_ends h.pool h.lossless.sent
    | fail => exact close_ends h.pool h.lossless.sent
    | sent m =>
      have hpos : 0 < b.unread.length := List.length_pos_of_ne_nil hunread
      have hlen : b.unread.length = b.last - b.pos := List.length_drop
      have hb := h.advance (fun k => { k with sends := rest })
        (Nat.min_le_right m b.unread.length)
      unfold echoWriteLoop
      simp only [wp_bind, wp_modify, wp_ite]
      constructor
      · intro hzero
        -- a send that takes nothing ends the connection
        have hm : m = 0 := by omega
        have hleft : stalls b.unread.length (.sent m :: rest) = false := by
          rw [hm]
          rfl
        rw [hleft]
        exact close_ends h.pool hb.lossless.sent
      · intro hsome
        have hm : (m != 0) = true := by
          apply bne_iff_ne.2
          omega
        have hunread' : ({ b with pos := b.pos + min m b.unread.length } : Buf).unread.length =
            b.unread.length - m := by
          have hdrop : ({ b with pos := b.pos + min m b.unread.length } : Buf).unread.length =
            b.last - (b.pos + min m b.unread.length) := List.length_drop
          omega
        have hleft : stalls b.unread.length (.sent m :: rest) =
            stalls ({ b with pos := b.pos + min m b.unread.length } : Buf).unread.length rest := by
          rw [hunread']
          simp [stalls, hm]
        rw [hleft]
        constructor
        · intro hdone
          change b.pos + min m b.unread.length = b.last at hdone
          have hnil : ({ b with pos := b.pos + min m b.unread.length } : Buf).unread = [] := by
            apply List.eq_nil_of_length_eq_zero
            omega
          rw [hnil, List.length_nil, stalls_zero]
          apply switchTo_ends hb
          apply iff_of_false (by decide)
          exact fun hne => hne hnil
        · intro hmore
          apply ih hb
          intro hnil
          change b.pos + min m b.unread.length ≠ b.last at hmore
          rw [hnil] at hunread'
          have hwithin := h.within
          simp only [List.length_nil] at hunread'
          omega

structure Unread (w : World) : Prop where
  opened : w.c.fd ≠ -1
  pool : ∃ p, w.c.pool = some p
  buf : w.c.buf = none
  mask : w.mask = readMask
  kept : w.t.received = w.t.sent

theorem echoRead_first (h : Unread w) :
    wp echoRead (fun _ => EchoEnd (nextMask w writeMask) (takes ECHO_BUF_SIZE false w.k.recvs &&
        (w.k.allocOk w.c.readHandler w.k.allocs.length &&
          w.k.allocOk w.c.readHandler (w.k.allocs.length + 1))))
      (fun _ => Paused (takes ECHO_BUF_SIZE false w.k.recvs &&
        (w.k.allocOk w.c.readHandler w.k.allocs.length &&
          w.k.allocOk w.c.readHandler (w.k.allocs.length + 1)))) w := by
  have hstop : ∀ n, Paused false (w.alloced n) := by
    intro n
    refine ⟨?_, rfl⟩
    show w.t.received = w.t.sent ++ w.unsent
    unfold World.unsent
    rw [h.buf, h.kept, List.append_nil]
  unfold echoRead createTempBuf
  simp only [wp_bind, wp_get, h.buf, wp_allocate, wp_ite, wp_pure]
  constructor
  · intro hfirst
    refine ⟨fun _ => ?_, fun hne => absurd trivial hne⟩
    constructor
    · intro hsecond
      change w.k.allocOk w.c.readHandler (w.k.allocs ++ [_]).length = true at hsecond
      rw [List.length_append, List.length_singleton] at hsecond
      refine ⟨fun _ => ?_, fun hne => absurd trivial hne⟩
      rw [hfirst, hsecond, Bool.and_true, Bool.and_true]
      have hb : ∀ m n, Holding (((w.alloced m).alloced n).setBuf (.temp ECHO_BUF_SIZE))
          (.temp ECHO_BUF_SIZE) := by
        intro m n
        refine ⟨h.opened, h.pool, rfl, Nat.le_refl _, rfl, ?_⟩
        show w.t.received = w.t.sent ++ []
        rw [h.kept, List.append_nil]
      exact echoReadLoop_ends (hb _ _) rfl (by decide) w.k.recvs
    · intro hsecond
      change w.k.allocOk w.c.readHandler (w.k.allocs ++ [_]).length = false at hsecond
      rw [List.length_append, List.length_singleton] at hsecond
      refine ⟨fun hne => absurd hne (by decide), fun _ => ?_⟩
      rw [hsecond, Bool.and_false, Bool.and_false]
      exact hstop _
  · intro hfirst
    refine ⟨fun hne => absurd hne (by decide), fun _ => ?_⟩
    rw [hfirst, Bool.false_and, Bool.and_false]
    exact hstop _

theorem echoRead_next (h : Holding w b) (hnil : b.unread = []) :
    wp echoRead (fun _ => EchoEnd (nextMask w writeMask) (takes ECHO_BUF_SIZE false w.k.recvs))
      (fun _ => Paused (takes ECHO_BUF_SIZE false w.k.recvs)) w := by
  have hb : Holding (w.setBuf { b with bytes := [], pos := 0 })
      { b with bytes := [], pos := 0 } := by
    refine ⟨h.opened, h.pool, rfl, Nat.le_refl _, h.size, ?_⟩
    show w.t.received = w.t.sent ++ []
    rw [h.kept, hnil]
  have hroom : ({ b with bytes := [], pos := 0 } : Buf).room = ECHO_BUF_SIZE := h.size
  have hloop := echoReadLoop_ends hb rfl
    (show 0 < b.size by rw [h.size]; decide) w.k.recvs
  rw [hroom] at hloop
  unfold echoRead
  simp only [wp_bind, wp_get, h.buf, wp_modify]
  exact hloop

theorem echoWrite_ends (h : Holding w b) :
    wp echoWrite (fun _ => EchoEnd (nextMask w readMask) (stalls b.unread.length w.k.sends))
      (fun _ => Paused (stalls b.unread.length w.k.sends)) w := by
  unfold echoWrite
  simp only [wp_bind, wp_get, h.buf, wp_ite, wp_modify]
  constructor
  · intro hzero
    rw [hzero, stalls_zero]
    exact close_ends h.pool h.lossless.sent
  · intro hsome
    exact echoWriteLoop_ends h (fun hnil => hsome (by rw [hnil]; rfl)) w.k.sends

/-- Between two calls either direction is registered, and the reading one only when everything
that has been received has been sent. -/
inductive Turn (w : World) : Prop
  | closed (gone : w.c.fd = -1) (sent : w.t.sent <+: w.t.received)
  | unread (h : Unread w)
  | reading (b : Buf) (h : Holding w b) (mask : w.mask = readMask) (empty : b.unread = [])
  | writing (b : Buf) (h : Holding w b) (mask : w.mask = writeMask)

/-- The reading direction is registered while there are bytes to send. -/
def Stranded (w : World) : Prop := ∃ b, Holding w b ∧ w.mask = readMask ∧ b.unread ≠ []

theorem EchoEnd.turn {mask : UInt32} {left : Bool} (h : EchoEnd mask left w)
    (hmask : mask = readMask ∨ mask = writeMask) :
    (mask = readMask ∧ left = true → Stranded w) ∧
      (¬ (mask = readMask ∧ left = true) → Turn w) := by
  cases h with
  | closed hgone hsent hnone =>
    refine ⟨fun hleft => ?_, fun _ => .closed hgone hsent⟩
    rw [hnone] at hleft
    exact absurd hleft.2 (by decide)
  | switched b hb hregistered hsome =>
    constructor
    · intro hleft
      exact ⟨b, hb, hregistered.trans hleft.1, hsome.1 hleft.2⟩
    · intro hnot
      rcases hmask with hread | hwrite
      · refine .reading b hb (hregistered.trans hread) ?_
        by_contra hne
        exact hnot ⟨hread, hsome.2 hne⟩
      · exact .writing b hb (hregistered.trans hwrite)

theorem reported_reading (hopen : w.c.fd ≠ -1) (hmask : w.mask = readMask)
    (hr : x.Reported w) : x.events &&& EPOLLOUT = 0 := by
  by_contra hne
  have hreg := (hr hopen).2 hne
  rw [hmask] at hreg
  exact hreg readMask_directions.2

theorem reported_writing (hopen : w.c.fd ≠ -1) (hmask : w.mask = writeMask)
    (hr : x.Reported w) : x.events &&& EPOLLIN = 0 := by
  by_contra hne
  have hreg := (hr hopen).1 hne
  rw [hmask] at hreg
  exact hreg writeMask_directions.1

theorem run_skips (h : w.c.fd = -1 ∨ x.events &&& EPOLLOUT = 0 ∧ x.events &&& EPOLLIN = 0) :
    x.run w = .ok () (x.enter w) := by
  apply eq_of_wp (y := modify x.enter)
  intro Q E hQ
  unfold EchoCall.run echoDispatch
  simp only [wp_bind, wp_get, wp_modify, wp_ite, wp_pure] at hQ ⊢
  refine ⟨fun _ => hQ, fun hopen => ?_⟩
  have hnone := h.resolve_left hopen
  exact ⟨fun hne => absurd hnone.1 hne, fun _ => ⟨fun hne => absurd hnone.2 hne, fun _ => hQ⟩⟩

def Leads (w : World) (x : EchoCall) : Prop :=
  wp x.run (fun _ w' => (x.Strands w → Stranded w') ∧ (¬ x.Strands w → Turn w'))
    (fun _ w' => w'.t.received = w'.t.sent ++ w'.unsent ∧ ¬ x.Strands w) w

theorem readMask_ne_writeMask : readMask ≠ writeMask := by decide

/-- A handler that ends with `mask` strands bytes when `mask` is for reading and `left` says that
there are some. -/
theorem leads_of_ends {y : Handler Unit} {w₁ : World} {mask : UInt32} {left : Bool}
    (h : wp y (fun _ => EchoEnd mask left) (fun _ => Paused left) w₁)
    (hmask : mask = readMask ∨ mask = writeMask)
    (hstrands : x.Strands w ↔ mask = readMask ∧ left = true) :
    wp y (fun _ w' => (x.Strands w → Stranded w') ∧ (¬ x.Strands w → Turn w'))
      (fun _ w' => w'.t.received = w'.t.sent ++ w'.unsent ∧ ¬ x.Strands w) w₁ := by
  rw [hstrands]
  apply wp_mono h
  · intro _ w' hend
    exact hend.turn hmask
  · intro _ w' hpaused
    refine ⟨hpaused.1, fun hleft => ?_⟩
    rw [hpaused.2] at hleft
    exact absurd hleft.2 (by decide)

/-- A reading call, whose loop takes bytes when `left` says so. -/
theorem leads_reading {left : Bool} (hopen : w.c.fd ≠ -1) (hmask : w.mask = readMask)
    (hr : x.Reported w) (hin : x.events &&& EPOLLIN ≠ 0)
    (h : wp echoRead (fun _ => EchoEnd (if x.switches then writeMask else w.mask) left)
      (fun _ => Paused left) ((x.enter w).onEv fun ev => { ev with rready := true }))
    (hleft : left = true ↔ takes ECHO_BUF_SIZE false x.kernel.recvs = true ∧
      (w.c.buf = none → x.allocates w.c.readHandler = true)) : Leads w x := by
  have hout := reported_reading hopen hmask hr
  have hstrands : x.Strands w ↔
      (if x.switches then writeMask else w.mask) = readMask ∧ left = true := by
    rw [hmask, hleft]
    unfold EchoCall.Strands
    cases x.switches with
    | true =>
      apply iff_of_false
      · simp [hout]
      · exact fun hne => readMask_ne_writeMask hne.1.symm
    | false => simp [hopen, hout, hin]
  have hends : (if x.switches then writeMask else w.mask) = readMask ∨
      (if x.switches then writeMask else w.mask) = writeMask := by
    rw [hmask]
    split
    · exact Or.inr rfl
    · exact Or.inl rfl
  have hcall := leads_of_ends h hends hstrands
  unfold Leads EchoCall.run echoDispatch
  simp only [wp_bind, wp_get, wp_modify, wp_ite, wp_pure]
  exact ⟨fun hgone => absurd hgone hopen, fun _ => ⟨fun hne => absurd hout hne,
    fun _ => ⟨fun _ => hcall, fun hne => absurd hin hne⟩⟩⟩

theorem leads_writing (h : Holding w b) (hmask : w.mask = writeMask) (hr : x.Reported w)
    (hout : x.events &&& EPOLLOUT ≠ 0) : Leads w x := by
  have hin := reported_writing h.opened hmask hr
  have hstrands : x.Strands w ↔ (if x.switches then readMask else w.mask) = readMask ∧
      stalls b.unread.length x.kernel.sends = true := by
    rw [hmask]
    unfold EchoCall.Strands
    rw [h.unsent]
    cases x.switches with
    | true => simp [h.opened, hin, hout]
    | false =>
      apply iff_of_false
      · simp [hin]
      · exact fun hne => readMask_ne_writeMask hne.1.symm
  have hends : (if x.switches then readMask else w.mask) = readMask ∨
      (if x.switches then readMask else w.mask) = writeMask := by
    rw [hmask]
    split
    · exact Or.inl rfl
    · exact Or.inr rfl
  have hentered : Holding ((x.enter w).onEv fun ev => { ev with wready := true }) b :=
    (h.onK _).onEv _
  have hcall := leads_of_ends (echoWrite_ends hentered) hends hstrands
  unfold Leads EchoCall.run echoDispatch
  simp only [wp_bind, wp_get, wp_modify, wp_ite, wp_pure]
  refine ⟨fun hgone => absurd hgone h.opened, fun _ =>
    ⟨fun _ => wp_mono hcall ?_ fun _ _ hstop => hstop, fun hne => absurd hout hne⟩⟩
  intro _ w' hw'
  exact ⟨fun hne => absurd hin hne, fun _ => hw'⟩

theorem turn_leads (h : Turn w) (hr : x.Reported w) : Leads w x := by
  by_cases hnone : w.c.fd = -1 ∨ x.events &&& EPOLLOUT = 0 ∧ x.events &&& EPOLLIN = 0
  · unfold Leads
    rw [wp_of_ok (run_skips hnone)]
    have hidle : ¬ x.Strands w := by
      intro hstrands
      have hquiet := hnone.resolve_left hstrands.1
      rcases hstrands.2 with hout | hin
      · exact hout.1 hquiet.1
      · exact hin.1 hquiet.2
    refine ⟨fun hstrands => absurd hstrands hidle, fun _ => ?_⟩
    cases h with
    | closed hgone hsent => exact .closed hgone hsent
    | unread h => exact .unread ⟨h.opened, h.pool, h.buf, h.mask, h.kept⟩
    | reading b h hmask hempty => exact .reading b (h.onK _) hmask hempty
    | writing b h hmask => exact .writing b (h.onK _) hmask
  · rw [not_or, not_and_or] at hnone
    cases h with
    | closed hgone hsent => exact absurd hgone hnone.1
    | unread h =>
      have hin := hnone.2.resolve_left fun hne => hne (reported_reading h.opened h.mask hr)
      have hread : Unread ((x.enter w).onEv fun ev => { ev with rready := true }) :=
        ⟨h.opened, h.pool, h.buf, h.mask, h.kept⟩
      apply leads_reading h.opened h.mask hr hin (echoRead_first hread)
      rw [Bool.and_eq_true]
      exact and_congr Iff.rfl ⟨fun halloc _ => halloc, fun halloc => halloc h.buf⟩
    | reading b h hmask hempty =>
      have hin := hnone.2.resolve_left fun hne => hne (reported_reading h.opened hmask hr)
      apply leads_reading h.opened hmask hr hin (echoRead_next ((h.onK _).onEv _) hempty)
      rw [h.buf]
      exact ⟨fun htakes => ⟨htakes, fun hne => absurd hne (by simp)⟩, fun htakes => htakes.1⟩
    | writing b h hmask =>
      have hout := hnone.2.resolve_right fun hne => hne (reported_writing h.opened hmask hr)
      exact leads_writing h hmask hr hout

theorem EchoStart.turn (h : EchoStart w) : Turn w := by
  refine .unread ⟨h.opened, h.pool, h.buf, h.mask, ?_⟩
  rw [h.received, h.sent]

theorem Turn.lossless (h : Turn w) : Lossless w := by
  cases h with
  | closed hgone hsent => exact ⟨hsent, fun hopen => absurd hgone hopen⟩
  | unread h =>
    have hkept : w.t.received = w.t.sent ++ w.unsent := by
      unfold World.unsent
      rw [h.buf, h.kept, List.append_nil]
    exact lossless_of_kept hkept
  | reading b h hmask hempty => exact h.lossless
  | writing b h hmask => exact h.lossless

/-- A call made in its turn echoes, also where it strands bytes. -/
theorem turn_echoes (h : Turn w) (hr : x.Reported w) : Echoes w x := by
  have hlossless : wp x.run (fun _ => Lossless) (fun _ => Lossless) w := by
    apply wp_mono (turn_leads h hr)
    · intro _ w' hw'
      by_cases hstrands : x.Strands w
      · obtain ⟨b, hb, _⟩ := hw'.1 hstrands
        exact hb.lossless
      · exact (hw'.2 hstrands).lossless
    · intro _ w' hw'
      exact lossless_of_kept hw'.1
  refine ⟨wp_after hlossless, fun hfd hin => ?_⟩
  cases h with
  | closed hgone _ => exact absurd hgone hfd
  | unread h =>
    unfold World.unsent
    rw [h.buf]
  | reading b h hmask hempty =>
    rw [h.unsent]
    exact hempty
  | writing b h hmask => exact absurd (reported_writing hfd hmask hr) hin

theorem turn_kept (h : Turn w) (hr : x.Reported w) (hs : ¬ x.Strands w)
    (hret : returns x.run w = true) : Turn (after x.run w) := by
  obtain ⟨_, hok⟩ := exists_ok_of_returns hret
  exact ((wp_of_ok hok).1 (turn_leads h hr)).2 hs

theorem turn_stranded (h : Turn w) (hr : x.Reported w) (hs : x.Strands w) :
    returns x.run w = true ∧ Stranded (after x.run w) := by
  have hret : returns x.run w = true := by
    by_contra hnot
    obtain ⟨e, w', he⟩ : ∃ e w', x.run w = .error e w' := by
      unfold returns at hnot
      cases hrun : x.run w with
      | ok a w' =>
        rw [hrun] at hnot
        exact absurd rfl hnot
      | error e w' => exact ⟨e, w', rfl⟩
    exact ((wp_of_error he).1 (turn_leads h hr)).2 hs
  obtain ⟨_, hok⟩ := exists_ok_of_returns hret
  exact ⟨hret, ((wp_of_ok hok).1 (turn_leads h hr)).1 hs⟩

theorem stranded_stays (h : Stranded w) (hr : x.Reported w) (hx : Echoes w x) :
    returns x.run w = true ∧ Stranded (after x.run w) := by
  obtain ⟨b, hb, hmask, hne⟩ := h
  have hin : x.events &&& EPOLLIN = 0 := by
    by_contra hin
    apply hne
    rw [← hb.unsent]
    exact hx.emptied hb.opened hin
  have hrun : x.run w = .ok () (x.enter w) := run_skips (Or.inr ⟨reported_reading hb.opened hmask hr, hin⟩)
  unfold returns after
  rw [hrun]
  exact ⟨rfl, b, hb.onK _, hmask, hne⟩

/-- From a new connection, whatever is reported next, the connection echoes up to and including
every call exactly when none of the calls before strands bytes. -/
theorem echo_faithful (w : World) (xs : List EchoCall) (hstart : EchoStart w)
    (hreported : EachCall EchoCall.run (fun w x => x.Reported w) w xs) :
    (∀ x, EachCall EchoCall.run (fun w x => x.Reported w) w (xs ++ [x]) →
      EachCall EchoCall.run Echoes w (xs ++ [x])) ↔
    EachCall EchoCall.run (fun w x => ¬ x.Strands w) w xs := by
  have hquiet : ∃ x : EchoCall, ∀ w, x.Reported w := by
    refine ⟨⟨0, w.k⟩, fun w _ => ⟨fun hin => ?_, fun hout => ?_⟩⟩
    · exact absurd (show (0 : UInt32) &&& EPOLLIN = 0 by decide) hin
    · exact absurd (show (0 : UInt32) &&& EPOLLOUT = 0 by decide) hout
  have hshow : ∀ w, Stranded w → ∃ x : EchoCall, x.Reported w ∧ ¬ Echoes w x := by
    intro w hw
    obtain ⟨b, hb, hmask, hne⟩ := hw
    refine ⟨⟨EPOLLIN, w.k⟩, fun _ => ⟨fun _ => ?_, fun hout => ?_⟩, fun hx => hne ?_⟩
    · rw [hmask]
      exact readMask_directions.1
    · exact absurd (show EPOLLIN &&& EPOLLOUT = 0 by decide) hout
    · rw [← hb.unsent]
      exact hx.emptied hb.opened (show EPOLLIN &&& EPOLLIN ≠ 0 by decide)
  apply eachCall_next_iff hquiet (fun _ _ => turn_echoes) (fun _ _ => turn_kept) _
    (fun _ _ => stranded_stays) hshow hstart.turn hreported
  intro w x h hr hnot
  exact turn_stranded h hr (not_not.1 hnot)

def echoWorld : World :=
  (sampleWorld [] []).onK fun k => { k with
    interest := Function.update k.interest 7 (some ⟨readMask, 7, 0⟩) }

theorem echoWorld_start : EchoStart echoWorld :=
  ⟨by decide, ⟨0, rfl⟩, rfl, by decide, rfl, rfl⟩

def arrives (bs : List UInt8) : EchoCall := ⟨EPOLLIN, sampleKernel [.data bs, .again] []⟩

def writable (sends : List SendResult) : EchoCall := ⟨EPOLLOUT, sampleKernel [] sends⟩

def echoCalls : List EchoCall :=
  [arrives [97, 98], writable [.sent 1, .sent 1], arrives [99], writable [.sent 1]]

/-- And what arrives next is echoed. -/
theorem echo_faithful_calls :
    EachCall EchoCall.run Echoes echoWorld (echoCalls ++ [arrives [100]]) :=
  (echo_faithful echoWorld echoCalls echoWorld_start (by decide)).2 (by decide) _ (by decide)

/-- The second of two bytes has not been sent when a third arrives. -/
theorem eagain_loses_a_byte : ¬ ∀ (w : World) (xs : List EchoCall), EchoStart w →
    EachCall EchoCall.run (fun w x => x.Reported w) w xs →
      EachCall EchoCall.run Echoes w xs := by
  intro h
  have hechoes := h echoWorld
    [arrives [97, 98], writable [.sent 1, .again], arrives [99], writable [.sent 1]]
    echoWorld_start (by decide)
  have hsent := (((hechoes.2 (by decide)).2 (by decide)).2 (by decide)).1.lossless.sent
  revert hsent
  decide

end Ehd
