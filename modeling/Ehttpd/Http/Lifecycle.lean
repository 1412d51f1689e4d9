import Ehttpd.Http.Walk

namespace Ehd.Http

open Program World

variable {w w' : World}

structure Accepted (w : World) : Prop where
  c : ∃ slot id fd pool, w.c = .accepted slot id fd pool ∧ fd ≠ -1 ∧ pool < w.k.pools
  t : w.t = {}

def Dispatches (w : World) (x : Handler Unit) : Prop :=
  ∃ events, Registered w events ∧ x = dispatch events

/-- The runs of one connection, while every kernel has the property `P`. -/
def Run (P : Kernel → Prop) : Option Stop → World → Prop :=
  Calls (fun w => Accepted w ∧ P w.k) Dispatches
    fun w w' => ∃ k, P k ∧ w.k.pools ≤ k.pools ∧ w' = { w with k := k }

theorem Accepted.connected (h : Accepted w) : Connected w := by
  obtain ⟨slot, id, fd, pool, hc, hfd, hpool⟩ := h.c
  have hclean : Clean w := by
    refine ⟨by rw [h.t]; exact List.nodup_nil, by rw [h.t], ?_⟩
    rintro ⟨n, -, hmem⟩
    rw [h.t] at hmem
    cases hmem
  refine ⟨⟨hclean, by rw [hc]; exact hfd, by rw [hc]; rfl, ⟨pool, by rw [hc]; rfl, hpool, ?_⟩, ?_⟩,
    by rw [hc]; rfl, by rw [hc]; rfl, by rw [hc]; rfl, by rw [hc]; rfl⟩
  · rw [h.t]
    exact List.not_mem_nil
  · rw [h.t]
    intro p hp
    cases hp

theorem openFrame_kernel {k : Kernel} (hk : w.k.pools ≤ k.pools) :
    OpenFrame w { w with k := k } :=
  ⟨rfl, rfl, rfl, hk, rfl, rfl, id⟩

theorem InLoop.onKernel {k : Kernel} (h : InLoop w) (hk : w.k.pools ≤ k.pools) :
    InLoop { w with k := k } := by
  rcases h with h | h | h | h | h
  · refine .closed ⟨h.fd, ?_⟩
    rcases h.released with hc | hd
    · exact Or.inl ⟨hc.nodup, hc.sound, hc.hangup⟩
    · exact Or.inr hd
  · exact .connected
      ⟨h.toOpen.frame (openFrame_kernel hk), h.data, h.readHandler, h.mask, h.buf⟩
  · exact .idle ⟨h.toOpen.frame (openFrame_kernel hk), h.data, h.readHandler, h.writeHandler,
      h.request, h.mask, h.buf⟩
  · have hreading : Reading { w with k := k } :=
      h.toReading.frame (openFrame_kernel hk) rfl rfl rfl rfl rfl rfl h.buf
    exact .waiting ⟨hreading, h.readHandler, h.unread⟩
  · exact .responding (h.frame (openFrame_kernel hk) rfl rfl rfl h.two h.sendable)

def Pc.ofRun : Option Stop → Pc
  | none => .loop
  | some e => .stopped e

theorem Run.ctl {P : Kernel → Prop} {o : Option Stop} (h : Run P o w) : Ctl (.ofRun o) w := by
  refine Calls.invariant (I := fun o w => Ctl (.ofRun o) w) ?_ ?_ ?_ h
  · rintro w ⟨haccepted, -⟩
    exact InLoop.connected haccepted.connected
  · rintro w x hctl ⟨events, hev, rfl⟩
    exact Walks.invariant (fun p w q w' hp hm => Move.ctl hp hm) (dispatch_goes hctl hev) hctl
  · rintro w w' hctl ⟨k, -, hk, rfl⟩
    exact InLoop.onKernel hctl hk

theorem Run.dispatch {P : Kernel → Prop} {events : UInt32} (h : Run P none w)
    (hev : Registered w events) (hret : returns (dispatch events) w = true) :
    Run P none (after (dispatch events) w) :=
  Calls.call h ⟨events, hev, rfl⟩ (eq_ok_of_returns hret)

theorem Run.stop {P : Kernel → Prop} {events : UInt32} {e : Stop} (h : Run P none w)
    (hev : Registered w events) (hstop : stopped (Ehd.dispatch events) w = some e) :
    Run P (some e) (after (Ehd.dispatch events) w) :=
  Calls.stop h ⟨events, hev, rfl⟩ (eq_error_of_stopped hstop)

def sampleKernel (recvs : List RecvResult) (sends : List SendResult) : Kernel :=
  { recvs, sends, allocOk := fun _ _ => true, stale := fun _ _ => 0, allocs := [], pools := 1
    epollOk := fun _ => true, epolls := 0, interest := fun _ => none, opened := fun fd => fd == 7
    stat := fun _ _ => none, openFd := fun _ _ => none, fsCalls := 0, files := fun _ => []
    content := fun _ _ => 0, arrayInitReturn := 0, growsInPlace := fun _ => true
    unsetActive := false, errno := .unset }

def ehdConfInit : Conf := ⟨ehdString "/var/www/html/", ehdString "index.html"⟩

/-- A connection that has just been accepted, and what its socket is going to give. -/
def sampleWorld (recvs : List RecvResult) (sends : List SendResult) : World :=
  { conf := ehdConfInit, c := .accepted 7 0 7 0, hc := {}, r := {}, k := sampleKernel recvs sends
    t := {} }

theorem sampleWorld_run {P : Kernel → Prop} {recvs : List RecvResult} {sends : List SendResult}
    (h : P (sampleKernel recvs sends)) : Run P none (sampleWorld recvs sends) :=
  Calls.init ⟨⟨⟨7, 0, 7, 0, rfl, by decide, Nat.one_pos⟩, rfl⟩, h⟩

theorem sampleKernel_reliable (recvs : List RecvResult) (sends : List SendResult) :
    (sampleKernel recvs sends).Reliable :=
  ⟨fun _ _ => rfl, fun _ => rfl⟩

def hangupWorld : World := sampleWorld [.data (ascii "GET / HTTP/1.1\x0d\n"), .data []] []

def pipelinedWorld : World :=
  sampleWorld [.data (ascii "GET / HTTP/1.1\x0d\n\x0d\nGET / HTTP/1.1\x0d\n\x0d\n")]
    [.sent 10000, .sent 10000]

def servedWorld : World :=
  sampleWorld [.data (ascii "GET / HTTP/1.1\x0d\n\x0d\n")] [.sent 10000, .sent 10000]

theorem hangup_run : Run (fun _ => True) none
    (after (dispatch EPOLLIN) (after (dispatch EPOLLIN) hangupWorld)) := by
  have hstart : Run (fun _ => True) none hangupWorld := sampleWorld_run trivial
  have hline : Run (fun _ => True) none (after (dispatch EPOLLIN) hangupWorld) := by
    apply hstart.dispatch
    · unfold Registered
      decide
    · decide +kernel
  apply hline.dispatch
  · unfold Registered
    decide +kernel
  · decide +kernel

theorem pipelined_run : Run (fun _ => True) none (after (dispatch EPOLLIN) pipelinedWorld) := by
  have hstart : Run (fun _ => True) none pipelinedWorld := sampleWorld_run trivial
  apply hstart.dispatch
  · unfold Registered
    decide
  · decide +kernel

theorem served_run : Run Kernel.Reliable none (after (dispatch EPOLLIN) servedWorld) := by
  have hstart : Run Kernel.Reliable none servedWorld := sampleWorld_run (sampleKernel_reliable _ _)
  apply hstart.dispatch
  · unfold Registered
    decide
  · decide +kernel

theorem Clean.iff (h : Clean w) :
    (w.t.destroyed.Nodup ∧ w.t.badAccess = false) ↔ ¬ HangupInHeaders w.t :=
  ⟨fun _ => h.hangup, fun _ => ⟨h.nodup, h.sound⟩⟩

/-- Every pool is destroyed at most once and no request structure is used after
its pool, exactly in the runs without a hangup in a header block. -/
theorem released_once_iff {o : Option Stop} (h : Run (fun _ => True) o w) :
    (w.t.destroyed.Nodup ∧ w.t.badAccess = false) ↔ ¬ HangupInHeaders w.t := by
  have hctl := h.ctl
  cases o with
  | none =>
    rcases hctl with hc | hc | hc | hc | hc
    · rcases hc.released with hclean | ⟨hdup, hhang⟩
      · exact hclean.iff
      · exact ⟨fun hn => absurd hn.1 hdup, fun hn => absurd hhang hn⟩
    · exact hc.toClean.iff
    · exact hc.toClean.iff
    · exact hc.toClean.iff
    · exact hc.toClean.iff
  | some e => exact hctl.1.iff

theorem released_once_iff_hangup :
    ¬ ((after (dispatch EPOLLIN) (after (dispatch EPOLLIN) hangupWorld)).t.destroyed.Nodup ∧
      (after (dispatch EPOLLIN) (after (dispatch EPOLLIN) hangupWorld)).t.badAccess = false) := by
  rw [released_once_iff hangup_run, not_not]
  -- `recv` has given 0 to the header block
  exact ⟨0, Or.inl rfl, by decide +kernel⟩

/-- A hangup after the request line destroys both pools twice. -/
theorem released_twice_after_hangup : ∃ w, Run (fun _ => True) none w ∧
    ¬ (w.t.destroyed.Nodup ∧ w.t.badAccess = false) := by
  refine ⟨_, hangup_run, ?_⟩
  have htwice : (after (dispatch EPOLLIN) (after (dispatch EPOLLIN) hangupWorld)).t.destroyed =
      [1, 0, 1, 0] := by
    decide +kernel
  rw [htwice]
  decide

/-- While no `ehd_http_keep_alive` finds unread bytes, no connection that is
registered for reading has any. -/
theorem nothing_parked (h : Run (fun _ => True) none w)
    (hkeep : ∀ bs ∈ w.t.keepAlives, bs = []) (hfd : w.c.fd ≠ -1)
    (hmask : w.c.ev.events = EPOLLIN ||| EPOLLET) :
    w.c.buf = none ∨ ∃ b, w.c.buf = some b ∧ b.pos = b.last := by
  have empty : ∀ b : Buf, InBuf b → b.unread = [] → b.pos = b.last := by
    intro b hin hnil
    have hlen : b.unread.length = 0 := by rw [hnil]; rfl
    have hpos := hin.pos
    simp only [Buf.unread, Buf.last, List.length_drop] at *
    omega
  rcases h.ctl with hc | hc | hc | hc | hc
  · exact absurd hc.fd hfd
  · exact Or.inl hc.buf
  · obtain ⟨b, hb, hin, -, hmem⟩ := hc.buf
    exact Or.inr ⟨b, hb, empty b hin (hkeep _ hmem)⟩
  · obtain ⟨b, hb, hnil, -⟩ := hc.unread
    exact Or.inr ⟨b, hb, empty b (hc.toServing.inBuf hb) hnil⟩
  · rw [hc.mask] at hmask
    exact absurd hmask (by decide)

theorem nothing_parked_served :
    (after (dispatch EPOLLIN) servedWorld).c.buf = none ∨
      ∃ b, (after (dispatch EPOLLIN) servedWorld).c.buf = some b ∧ b.pos = b.last := by
  have hrun : Run (fun _ => True) none (after (dispatch EPOLLIN) servedWorld) := by
    have hstart : Run (fun _ => True) none servedWorld := sampleWorld_run trivial
    apply hstart.dispatch
    · unfold Registered
      decide
    · decide +kernel
  apply nothing_parked hrun
  · decide +kernel
  · decide +kernel
  · decide +kernel

/-- The second of two requests that arrive together stays in the buffer. -/
theorem parked_after_pipelining : ∃ w, Run (fun _ => True) none w ∧ w.c.fd ≠ -1 ∧
    w.c.ev.events = EPOLLIN ||| EPOLLET ∧
    ¬ (w.c.buf = none ∨ ∃ b, w.c.buf = some b ∧ b.pos = b.last) := by
  refine ⟨_, pipelined_run, by decide +kernel, by decide +kernel, ?_⟩
  have hbuf : (after (dispatch EPOLLIN) pipelinedWorld).c.buf =
      some ⟨ascii "GET / HTTP/1.1\x0d\n\x0d\n", 0, 4096, 0, none⟩ := by
    decide +kernel
  rw [hbuf]
  rintro (hnone | ⟨b, hb, hpos⟩)
  · cases hnone
  · cases hb
    exact absurd hpos (by decide)

structure SameChances (k k' : Kernel) : Prop where
  allocOk : k'.allocOk = k.allocOk
  epollOk : k'.epollOk = k.epollOk

theorem SameChances.trans {k k' k'' : Kernel} (h : SameChances k k') (h' : SameChances k' k'') :
    SameChances k k'' :=
  ⟨h'.allocOk.trans h.allocOk, h'.epollOk.trans h.epollOk⟩

theorem SameChances.reliable {k k' : Kernel} (h : SameChances k k') (hk : k.Reliable) :
    k'.Reliable := by
  unfold Kernel.Reliable
  rw [h.allocOk, h.epollOk]
  exact hk

theorem Steady.chances {k k' : Kernel} (h : k.Steady k') : SameChances k k' :=
  ⟨h.allocOk, h.epollOk⟩

theorem chances_registered (w : World) (mask : UInt32) (ok : Bool) :
    SameChances w.k (w.registered mask ok).k :=
  ⟨rfl, rfl⟩

theorem chances_closeConnection (w : World) : SameChances w.k w.closeConnection.k := by
  unfold World.closeConnection
  split <;> exact ⟨rfl, rfl⟩

theorem chances_closeBoth (w : World) : SameChances w.k w.closeBoth.k := by
  have h := chances_closeConnection w.closeRequest
  rw [closeRequest_k] at h
  exact h

/-- Whether allocations and `epoll_ctl` succeed is not up to the handlers. -/
theorem Move.chances {p q : Pc} (h : Move (p, w) (q, w')) : SameChances w.k w'.k := by
  cases h with
  | start hr _ => rw [← hr.k]; exact ⟨rfl, rfl⟩
  | startFails _ hc => exact (Steady.chances hc.k).trans (chances_closeConnection _)
  | @startCloses _ w₁ w₂ b n hr _ _ hs =>
    have hopened : SameChances w₁.k (w₁.opened b n).k := ⟨rfl, rfl⟩
    rw [← hr.k]
    exact hopened.trans ((Steady.chances hs.k).trans (chances_closeBoth w₂))
  | resumeLine hr _ _ => rw [hr.k]; exact ⟨rfl, rfl⟩
  | resumeHeaders hr _ _ => rw [hr.k]; exact ⟨rfl, rfl⟩
  | resumeWrite hr _ => rw [hr.k]; exact ⟨rfl, rfl⟩
  | «have» _ _ _ => exact ⟨rfl, rfl⟩
  | recv _ _ _ _ ht _ _ => exact Steady.chances ht.k
  | idle _ _ _ => exact ⟨rfl, rfl⟩
  | wait _ _ _ _ ht => exact Steady.chances ht.k
  | hangup _ _ ht _ => exact (Steady.chances ht.k).trans (chances_closeBoth (noteRecv _ _ _))
  | hangupTwice _ _ ht _ =>
    exact ((Steady.chances ht.k).trans (chances_closeBoth (noteRecv _ _ _))).trans
      (chances_closeBoth _)
  | fail _ hs => exact (Steady.chances hs.k).trans (chances_closeBoth _)
  | noRoom _ hs => exact (Steady.chances hs.k).trans (chances_closeBoth _)
  | lineMore _ _ _ => exact ⟨rfl, rfl⟩
  | lineDone _ _ => exact ⟨rfl, rfl⟩
  | stored hs => exact Steady.chances hs.k
  | headerNext => exact ⟨rfl, rfl⟩
  | headerMore _ _ => exact ⟨rfl, rfl⟩
  | headerDone _ _ hs => exact Steady.chances hs.k
  | headersDone _ _ => exact ⟨rfl, rfl⟩
  | hand _ => exact ⟨rfl, rfl⟩
  | @build _ w₁ _ ha =>
    have hwriting : SameChances w₁.k w₁.writing.k := ⟨rfl, rfl⟩
    exact (Steady.chances ha.k).trans hwriting
  | @buildStops _ w₁ _ ha _ =>
    have hreg := chances_registered w₁.responding writeMask false
    exact (Steady.chances ha.k).trans (hreg.trans (chances_closeBoth _))
  | sent _ hw _ _ => exact Steady.chances hw.k
  | full _ hw _ => exact Steady.chances hw.k
  | @keepAlive _ pool _ w₁ _ b _ hw _ _ _ =>
    exact (Steady.chances hw.k).trans (chances_registered (w₁.idle b pool) readMask true)
  | @keepAliveFails _ pool _ w₁ _ b _ hw _ _ _ _ =>
    have hreg := chances_registered (w₁.idle b pool) readMask false
    exact (Steady.chances hw.k).trans (hreg.trans (chances_closeConnection _))
  | stop _ hs => exact Steady.chances hs.k
  | buildFails hs _ => exact Steady.chances hs.k

theorem Run.reliable {o : Option Stop} (h : Run Kernel.Reliable o w) : w.k.Reliable := by
  refine And.right (Calls.invariant (I := fun o w => Ctl (.ofRun o) w ∧ w.k.Reliable) ?_ ?_ ?_ h)
  · rintro w ⟨haccepted, hk⟩
    exact ⟨InLoop.connected haccepted.connected, hk⟩
  · rintro w x ⟨hctl, hk⟩ ⟨events, hev, rfl⟩
    exact Walks.invariant (I := fun p w => Ctl p w ∧ w.k.Reliable)
      (fun p w q w' hp hm => ⟨Move.ctl hp.1 hm, hm.chances.reliable hp.2⟩)
      (dispatch_goes hctl hev) ⟨hctl, hk⟩
  · rintro w w' ⟨hctl, -⟩ ⟨k, hk, hle, rfl⟩
    exact ⟨InLoop.onKernel hctl hle, hk⟩

def LiveRequest (w : World) : Prop :=
  w.c.data = .request ∧ w.r.home ∉ w.t.destroyed ∧ ∃ p, w.r.pool = some p ∧ p ∉ w.t.destroyed

/-- Registered for reading, with a handler that reads and its type of `c->data`. -/
structure ArmedForReading (w : World) : Prop where
  events : w.c.ev.events = EPOLLIN ||| EPOLLET
  handler : w.c.readHandler = .initConnection ∨ w.c.readHandler = .initRequest ∨
    w.c.readHandler = .processRequestLine ∨ w.c.readHandler = .processRequestHeaders
  request : w.c.readHandler = .processRequestLine ∨ w.c.readHandler = .processRequestHeaders →
    LiveRequest w
  connection : w.c.readHandler = .initConnection ∨ w.c.readHandler = .initRequest →
    w.c.data = .null ∨ w.c.data = .httpConnection

structure ArmedForWriting (w : World) : Prop where
  events : w.c.ev.events = EPOLLOUT ||| EPOLLET
  handler : w.c.writeHandler = some .writer
  request : LiveRequest w
  chain : 2 ≤ w.r.response.data.length

theorem Serving.liveRequest (h : Serving w) : LiveRequest w := by
  obtain ⟨p, hp, -, hmem, -⟩ := h.requestPool
  exact ⟨h.data, h.alive, p, hp, hmem⟩

/-- Whenever control is in the event loop, until the connection is closed, its
mask agrees with its handlers and `c->data`; so an event in a registered
direction calls a handler that fits, and no call ends but by waiting for the kernel. -/
theorem mask_and_handler_agree {o : Option Stop} (h : Run Kernel.Reliable o w) :
    (o = none → w.c.fd = -1 ∨ ArmedForReading w ∨ ArmedForWriting w) ∧
      (∀ events, o = none → w.c.fd ≠ -1 → Registered w events →
        (events &&& EPOLLIN ≠ 0 → w.c.readHandler ≠ .blockRead ∧ w.c.readHandler ≠ .eventAccept) ∧
        (events &&& EPOLLOUT ≠ 0 → w.c.writeHandler = some .writer)) ∧
      ∀ e, o = some e → e = .blocked := by
  have hctl := h.ctl
  have harmed : o = none → w.c.fd = -1 ∨ ArmedForReading w ∨ ArmedForWriting w := by
    rintro rfl
    -- what each of the five states at the loop has armed
    rcases hctl with hc | hc | hc | hc | hc
    · exact Or.inl hc.fd
    · refine Or.inr (Or.inl ⟨hc.mask, Or.inl hc.readHandler, ?_, fun _ => Or.inl hc.data⟩)
      rw [hc.readHandler]
      rintro (hrh | hrh) <;> cases hrh
    · refine Or.inr (Or.inl ⟨hc.mask, Or.inr (Or.inl hc.readHandler), ?_, fun _ => Or.inr hc.data⟩)
      rw [hc.readHandler]
      rintro (hrh | hrh) <;> cases hrh
    · have hlive := hc.toServing.liveRequest
      refine Or.inr (Or.inl ⟨hc.mask, ?_, fun _ => hlive, ?_⟩)
      · rcases hc.readHandler with hrh | ⟨hrh, -⟩
        · exact Or.inr (Or.inr (Or.inl hrh))
        · exact Or.inr (Or.inr (Or.inr hrh))
      · rcases hc.readHandler with hrh | ⟨hrh, -⟩
        · rw [hrh]
          rintro (h' | h') <;> cases h'
        · rw [hrh]
          rintro (h' | h') <;> cases h'
    · exact Or.inr (Or.inr ⟨hc.mask, hc.writeHandler, hc.toServing.liveRequest, hc.two.ge⟩)
  refine ⟨harmed, ?_, ?_⟩
  -- an event is reported only in the direction of the mask
  · intro events ho hfd hev
    rcases harmed ho with hclosed | hread | hwrite
    · exact absurd hclosed hfd
    · refine ⟨fun _ => ?_, fun hout => ?_⟩
      · rcases hread.handler with hrh | hrh | hrh | hrh <;> rw [hrh] <;> exact ⟨by simp, by simp⟩
      · have := hev.2 hout
        rw [hread.events] at this
        exact absurd readMask_directions.2 this
    · refine ⟨fun hin => ?_, fun _ => hwrite.handler⟩
      have := hev.1 hin
      rw [hwrite.events] at this
      exact absurd writeMask_directions.1 this
  · rintro e rfl
    exact hctl.2 h.reliable

theorem mask_and_handler_agree_served :
    (after (dispatch EPOLLIN) servedWorld).c.fd = -1 ∨
      ArmedForReading (after (dispatch EPOLLIN) servedWorld) ∨
      ArmedForWriting (after (dispatch EPOLLIN) servedWorld) :=
  (mask_and_handler_agree served_run).1 rfl

end Ehd.Http
