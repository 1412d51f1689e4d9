import Ehttpd.Http.InputBuffer
import Ehttpd.Http.Lifecycle

namespace Ehd.Http

open Program World

variable {w w' w₁ : World} {C : List UInt8}

structure Bare (r : Request) : Prop where
  headersN : r.headersN = 0
  fields : ∀ f, r.headersIn.fields f = none

/-- What follows the head that has been handed over, or all that is left of the stream. -/
def Behind (C : List UInt8) (w : World) : Prop :=
  ∃ b, w.c.buf = some b ∧ b = inputBuf b.bytes b.pos ∧ b.unread = C

def InLine (C : List UInt8) (w : World) : Prop :=
  ∃ b, w.c.buf = some b ∧ OpenLine C w.r.parse b ∧ Bare w.r

def LineRead (C : List UInt8) (w : World) : Prop :=
  ∃ b, w.c.buf = some b ∧ b = inputBuf C b.pos ∧ Bare w.r ∧
    parseRequestLine {} (inputBuf C 0) = (.ok, w.r.parse, inputBuf C b.pos)

def InBlock (C : List UInt8) (w : World) : Prop :=
  ∃ b X p m es q k, w.c.buf = some b ∧ OpenBlock C X p m es q k b w.r

def HeadRead (C : List UInt8) (w : World) : Prop :=
  ∃ b, w.c.buf = some b ∧ b = inputBuf b.bytes b.pos ∧ b.unread = C.drop b.pos ∧
    HandedFrom C (handedOver w.r b) b.pos

/-- What a connection in the event loop has received and not handed over. -/
structure Resting (C : List UInt8) (w : World) : Prop where
  connected : Connected w → C = []
  idle : Idle w → Behind C w
  line : Waiting w → w.c.readHandler = .processRequestLine → InLine C w
  headers : Waiting w → w.c.readHandler = .processRequestHeaders → InBlock C w
  responding : Responding w → Behind C w

def Holds (C : List UInt8) : Pc → World → Prop
  | .loop, w => Resting C w
  | .line, w | .parseLine, w => InLine C w
  | .copyUri, w => LineRead C w
  | .headers _, w | .parseHeader, w => InBlock C w
  | .hand, w => HeadRead C w
  | .build, w | .write _, w => Behind C w
  | .stopped _, _ => True

/-- The bytes received are the heads handed over and what the connection holds. -/
def Stream (p : Pc) (w : World) : Prop :=
  ∃ C, Heads w.t.received w.t.handed C ∧ Holds C p w

theorem resting_closed (hfd : w.c.fd = -1) : Resting C w where
  connected := fun h => absurd hfd h.fd
  idle := fun h => absurd hfd h.fd
  line := fun h => absurd hfd h.fd
  headers := fun h => absurd hfd h.fd
  responding := fun h => absurd hfd h.fd

theorem Connected.resting (h : Connected w) : Resting [] w where
  connected := fun _ => rfl
  idle := fun h' => by have := h.data.symm.trans h'.data; cases this
  line := fun h' => by have := h.data.symm.trans h'.data; cases this
  headers := fun h' => by have := h.data.symm.trans h'.data; cases this
  responding := fun h' => by have := h.data.symm.trans h'.data; cases this

theorem Idle.resting (h : Idle w) (hb : Behind C w) : Resting C w where
  connected := fun h' => by have := h.data.symm.trans h'.data; cases this
  idle := fun _ => hb
  line := fun h' => by have := h.data.symm.trans h'.data; cases this
  headers := fun h' => by have := h.data.symm.trans h'.data; cases this
  responding := fun h' => by have := h.data.symm.trans h'.data; cases this

theorem Waiting.resting (h : Waiting w)
    (hline : w.c.readHandler = .processRequestLine → InLine C w)
    (hheaders : w.c.readHandler = .processRequestHeaders → InBlock C w) : Resting C w where
  connected := fun h' => by have := h.data.symm.trans h'.data; cases this
  idle := fun h' => by have := h.data.symm.trans h'.data; cases this
  line := fun _ => hline
  headers := fun _ => hheaders
  responding := fun h' => by have := h.writeHandler.symm.trans h'.writeHandler; cases this

theorem Responding.resting (h : Responding w) (hb : Behind C w) : Resting C w where
  connected := fun h' => by have := h.data.symm.trans h'.data; cases this
  idle := fun h' => by have := h.data.symm.trans h'.data; cases this
  line := fun h' => by have := h.writeHandler.symm.trans h'.writeHandler; cases this
  headers := fun h' => by have := h.writeHandler.symm.trans h'.writeHandler; cases this
  responding := fun _ => hb

structure SameInput (w w' : World) : Prop where
  buf : w'.c.buf = w.c.buf
  r : w'.r = w.r

theorem InLine.same (h : InLine C w) (hs : SameInput w w') : InLine C w' := by
  unfold InLine
  rw [hs.buf, hs.r]
  exact h

theorem InBlock.same (h : InBlock C w) (hs : SameInput w w') : InBlock C w' := by
  unfold InBlock
  rw [hs.buf, hs.r]
  exact h

theorem Behind.same (h : Behind C w) (hbuf : w'.c.buf = w.c.buf) : Behind C w' := by
  unfold Behind
  rw [hbuf]
  exact h

structure SameStream (w w' : World) : Prop where
  received : w'.t.received = w.t.received
  handed : w'.t.handed = w.t.handed

theorem SameStream.trans {w'' : World} (h : SameStream w w') (h' : SameStream w' w'') :
    SameStream w w'' :=
  ⟨h'.received.trans h.received, h'.handed.trans h.handed⟩

theorem sameStream_of_t (h : w'.t = w.t) : SameStream w w' := by
  constructor
  · rw [h]
  · rw [h]

theorem SameStream.heads (h : SameStream w w') (hh : Heads w.t.received w.t.handed C) :
    Heads w'.t.received w'.t.handed C := by
  rw [h.received, h.handed]
  exact hh

theorem sameStream_closeConnection (w : World) : SameStream w w.closeConnection := by
  unfold World.closeConnection
  split
  · exact ⟨rfl, rfl⟩
  · exact ⟨rfl, rfl⟩

theorem sameStream_closeBoth (w : World) : SameStream w w.closeBoth := by
  have hrequest : SameStream w w.closeRequest := by
    unfold World.closeRequest World.touch
    split
    · split <;> exact ⟨rfl, rfl⟩
    · split <;> exact ⟨rfl, rfl⟩
  exact hrequest.trans (sameStream_closeConnection _)

theorem Scratch.sameStream (h : w.Scratch w') : SameStream w w' := by
  constructor
  · rw [h.t]
  · rw [h.t]

theorem Wrote.sameStream {last n : Nat} {b : Buf} {x : SendResult} (h : w.Wrote w' last b n x) :
    SameStream w w' := by
  obtain ⟨bs, -, ht⟩ := h.t
  constructor
  · rw [ht]
  · rw [ht]

theorem Answered.sameStream {ns : List (List UInt8)} {a : Answer} {f : File}
    (h : Answered ns w w' a f) : SameStream w w' := by
  obtain ⟨ps, os, ht, -⟩ := h.t
  constructor
  · rw [ht]
  · rw [ht]

theorem Took.sameStream (h : w.Took w' []) (b : Buf) (n : Int) : SameStream w (w'.noteRecv b n) := by
  constructor
  · show w'.t.received = _
    rw [h.t, List.append_nil]
  · show w'.t.handed = _
    rw [h.t]

theorem fd_closeConnection {p : Nat} (hp : w.c.pool = some p) : w.closeConnection.c.fd = -1 :=
  (closeConnection_t hp).2

theorem fd_closeBoth {p : Nat} (hp : w.c.pool = some p) : w.closeBoth.c.fd = -1 := by
  have hp' : w.closeRequest.c.pool = some p := by
    rw [closeRequest_c]
    exact hp
  exact fd_closeConnection hp'

theorem stream_closed (hh : Heads w.t.received w.t.handed C) (hs : SameStream w w')
    (hfd : w'.c.fd = -1) : Stream .loop w' :=
  ⟨C, hs.heads hh, resting_closed hfd⟩

theorem start_input (hs : Connected w ∨ Idle w) (h : Resting C w) :
    w.c.buf.getD (.temp EHD_DEFAULT_BUF_SIZE) = inputBuf C 0 := by
  rcases hs with hs | hs
  · rw [hs.buf, h.connected hs]
    rfl
  · obtain ⟨b, hb, heq, hunread⟩ := h.idle hs
    obtain ⟨b', hb', -, hpos, -⟩ := hs.buf
    have hsame : b' = b := Option.some.inj (hb'.symm.trans hb)
    rw [hsame] at hpos
    have hbytes : b.bytes = C := by
      rw [← hunread]
      unfold Buf.unread
      rw [hpos, List.drop_zero]
    rw [hb, Option.getD_some, heq, hpos, hbytes]

/-- Bytes are put at the end of the buffer. -/
theorem Reads.holds_append {p q : Pc} {b : Buf} {bs : List UInt8} (hread : Reads p q)
    (h : Holds C p w) (hb : w.c.buf = some b) (hb' : w'.c.buf = some (b.append bs))
    (hr : w'.r = w.r) : Holds (C ++ bs) q w' := by
  cases hread with
  | line =>
    obtain ⟨b₀, hb₀, hopen, hbare⟩ := h
    have hsame : b₀ = b := Option.some.inj (hb₀.symm.trans hb)
    rw [hsame] at hopen
    refine ⟨_, hb', ?_, ?_⟩
    · rw [hr]
      exact hopen.append bs
    · rw [hr]
      exact hbare
  | headers =>
    obtain ⟨b₀, X, p, m, es, q, k, hb₀, hopen⟩ := h
    have hsame : b₀ = b := Option.some.inj (hb₀.symm.trans hb)
    rw [hsame] at hopen
    refine ⟨_, X ++ bs, p, m, es, q, k, hb', ?_⟩
    rw [hr]
    exact hopen.append bs

theorem Reads.resting {p q : Pc} {b : Buf} (hread : Reads p q) (hctl : Ctl p w) (h : Holds C p w)
    (hw : Reading w') (hrh : w'.c.readHandler = w.c.readHandler) (hr : w'.r = w.r)
    (hb : w.c.buf = some b) (hb' : w'.c.buf = some b) (hnil : b.unread = []) : Resting C w' := by
  have hwait := hread.waiting hctl hw hrh hr hb hb' hnil
  have hs : SameInput w w' := ⟨hb'.trans hb.symm, hr⟩
  cases hread with
  | line =>
    refine hwait.resting (fun _ => InLine.same h hs) fun hheaders => ?_
    rw [hrh, hctl.2.1] at hheaders
    cases hheaders
  | headers =>
    refine hwait.resting (fun hline => ?_) fun _ => InBlock.same h hs
    rw [hrh, hctl.2.1] at hline
    cases hline

theorem lineMore_holds {b b' : Buf} {p : ParseState} (hin : InBuf b) (h : InLine C w)
    (hb : w.c.buf = some b) (hparse : parseRequestLine w.r.parse b = (.again, p, b')) :
    InLine C (w.parsed p b') := by
  obtain ⟨b₀, hb₀, hopen, hbare⟩ := h
  have hsame : b₀ = b := Option.some.inj (hb₀.symm.trans hb)
  rw [hsame] at hopen
  exact ⟨b', rfl, hopen.again hin.pos hparse, hbare.headersN, hbare.fields⟩

theorem lineDone_holds {b b' : Buf} {p : ParseState} (h : InLine C w) (hb : w.c.buf = some b)
    (hparse : parseRequestLine w.r.parse b = (.ok, p, b')) : LineRead C (w.parsed p b') := by
  obtain ⟨b₀, hb₀, hopen, hbare⟩ := h
  have hsame : b₀ = b := Option.some.inj (hb₀.symm.trans hb)
  rw [hsame] at hopen
  obtain ⟨hb', hall⟩ := hopen.done hparse
  exact ⟨b', rfl, hb', ⟨hbare.headersN, hbare.fields⟩, hall⟩

theorem CopiedUri.accepted {p : ParseState} {b : Buf} {uri : Str} (h : CopiedUri p b uri) :
    pathAccepted p b = true := by
  cases h with
  | complex _ harea hloop => exact pathAccepted_of_loop harea hloop
  | plain hplain _ =>
    unfold pathAccepted
    rw [hplain]
    rfl

theorem stored_holds (h : LineRead C w) (hs : Stored w w₁) : InBlock C w₁ := by
  obtain ⟨b, hb, heq, hbare, hline⟩ := h
  obtain ⟨b₀, hb₀, hc, huri⟩ := hs.c
  have hsame : b₀ = b := Option.some.inj (hb₀.symm.trans hb)
  rw [hsame] at hc huri
  have hpath : pathAccepted w.r.parse (inputBuf C b.pos) = true := by
    rw [← heq]
    exact huri.accepted
  have hbare' : w₁.r.headersN = 0 ∧ ∀ f, w₁.r.headersIn.fields f = none := by
    rw [hs.headersN, hs.fields]
    exact ⟨hbare.headersN, hbare.fields⟩
  obtain ⟨X, hX⟩ := openBlock_start hline hpath hs.parse hs.headers hbare'.1 hs.cookies hbare'.2
  refine ⟨_, X, _, _, _, _, _, ?_, hX⟩
  rw [hc, ← heq]

theorem headerMore_holds {b b' : Buf} {p : ParseState} (hin : InBuf b) (h : InBlock C w)
    (hb : w.c.buf = some b) (hparse : parseHeaderLine w.r.parse b = (.again, p, b')) :
    InBlock C (w.parsed p b') := by
  obtain ⟨b₀, X, p₀, m, es, q, k, hb₀, hopen⟩ := h
  have hsame : b₀ = b := Option.some.inj (hb₀.symm.trans hb)
  rw [hsame] at hopen
  exact ⟨b', X, p₀, m, es, q, k, rfl, hopen.again hin.pos hparse⟩

theorem headerDone_holds {b b' : Buf} {p : ParseState} (h : InBlock C w) (hb : w.c.buf = some b)
    (hparse : parseHeaderLine w.r.parse b = (.ok, p, b')) (hs : HeaderStored (w.parsed p b') w₁) :
    InBlock C w₁ := by
  obtain ⟨b₀, X, p₀, m, es, q, k, hb₀, hopen⟩ := h
  have hsame : b₀ = b := Option.some.inj (hb₀.symm.trans hb)
  rw [hsame] at hopen
  obtain ⟨b₁, hb₁, hc⟩ := hs.c
  have hsame₁ : b' = b₁ := Option.some.inj hb₁
  rw [← hsame₁] at hc
  have hr' : w₁.r.parse = p := by
    rw [hs.r]
    rfl
  obtain ⟨X', hX'⟩ := hopen.headerStored hparse hr' hs.headers hs.headersN (hs.noted b' rfl)
  refine ⟨_, X', _, _, _, _, _, ?_, hX'⟩
  rw [hc]
  rfl

theorem headersDone_holds {b b' : Buf} {p : ParseState} (h : InBlock C w) (hb : w.c.buf = some b)
    (hparse : parseHeaderLine w.r.parse b = (.headerDone, p, b')) {f : Connection → Connection}
    (hf : ∀ c, (f c).buf = c.buf) : HeadRead C ((w.parsed p b').onC f) := by
  obtain ⟨b₀, X, p₀, m, es, q, k, hb₀, hopen⟩ := h
  have hsame : b₀ = b := Option.some.inj (hb₀.symm.trans hb)
  rw [hsame] at hopen
  have hadv := parseHeaderLine_advances hparse
  have heq := inputBuf_at hopen.buf hadv
  refine ⟨b', hf _, ?_, ?_, hopen.headerDone hparse⟩
  · rw [heq]
    rfl
  · have hunread := congrArg (List.drop (b'.pos - b.pos)) hopen.unread
    have hle := hadv.le
    unfold Buf.unread at hunread
    rw [List.drop_drop, List.drop_drop, show b.pos + (b'.pos - b.pos) = b'.pos by omega] at hunread
    rw [← hunread, hadv.eq]
    rfl

/-- The head is handed over. -/
theorem hand_holds {b : Buf} (hin : InBuf b) (h : HeadRead C w) (hb : w.c.buf = some b)
    (hh : Heads w.t.received w.t.handed C) : Stream .build (w.handing b) := by
  obtain ⟨b₀, hb₀, heq, hunread, hhead⟩ := h
  have hsame : b₀ = b := Option.some.inj (hb₀.symm.trans hb)
  rw [hsame] at heq hunread hhead
  have hlen : C.length ≤ EHD_DEFAULT_BUF_SIZE := by
    have hlast := hin.last
    have hpos := pos_unread_length hin.pos
    have hle := hhead.bounds.2
    rw [hunread, List.length_drop] at hpos
    rw [hin.size] at hlast
    omega
  refine ⟨C.drop b.pos, ?_, b, hb, heq, hunread⟩
  show Heads w.t.received (w.t.handed ++ [handedOver w.r b]) (C.drop b.pos)
  apply hh.snoc
  rw [List.take_of_length_le hlen]
  exact hhead

theorem Holds.serving {p : Pc} (hctl : Ctl p w) (hp : p.Serves) (hs : w.Scratch w₁)
    (hh : Heads w.t.received w.t.handed C) : Stream .loop w₁.closeBoth := by
  have hpool := hs.pool.trans (hctl.serving (Or.inl hp)).home
  exact stream_closed hh ((Scratch.sameStream hs).trans (sameStream_closeBoth _)) (fd_closeBoth hpool)

/-- Every move keeps the stream. -/
theorem Move.stream {p q : Pc} (hctl : Ctl p w) (h : Stream p w) (hm : Move (p, w) (q, w')) :
    Stream q w' := by
  have hctl' := Move.ctl hctl hm
  obtain ⟨C, hh, hC⟩ := h
  cases hm with
  | start hr hs =>
    have hinput := start_input hs hC
    refine ⟨C, (sameStream_of_t hr.t).heads hh, _, rfl, ?_, rfl, fun _ => rfl⟩
    rw [hinput]
    exact openLine_new C
  | @startFails _ w₁ hs hc =>
    obtain ⟨cp, hcp, -⟩ := (start_open hs).pool
    exact stream_closed hh ((sameStream_of_t hc.t).trans (sameStream_closeConnection w₁))
      (fd_closeConnection (hc.pool.trans hcp))
  | @startCloses _ w₁ w₂ b n hr hs hb hsc =>
    obtain ⟨cp, hcp, -⟩ := (Reported.open (start_open hs) hr).pool
    have hopened : SameStream w (w₁.opened b n) := sameStream_of_t hr.t
    exact stream_closed hh (hopened.trans ((Scratch.sameStream hsc).trans (sameStream_closeBoth w₂)))
      (fd_closeBoth (hsc.pool.trans hcp))
  | resumeLine hr hw hrh =>
    exact ⟨C, (sameStream_of_t hr.t).heads hh,
      (hC.line hw hrh).same ⟨by rw [hr.c], hr.r⟩⟩
  | resumeHeaders hr hw hrh =>
    exact ⟨C, (sameStream_of_t hr.t).heads hh,
      (hC.headers hw hrh).same ⟨by rw [hr.c], hr.r⟩⟩
  | resumeWrite hr hw =>
    exact ⟨C, (sameStream_of_t hr.t).heads hh, (hC.responding hw).same (by rw [hr.c])⟩
  | «have» hread hb hne =>
    cases hread with
    | line => exact ⟨C, hh, hC⟩
    | headers => exact ⟨C, hh, hC⟩
  | @recv _ _ _ w₁ b bs hread hb hnil _ ht hne hlen =>
    -- what arrives is not handed over yet
    refine ⟨C ++ bs, ?_, hread.holds_append hC hb rfl ht.r⟩
    show Heads w₁.t.received w₁.t.handed (C ++ bs)
    rw [ht.t]
    exact hh.append bs
  | idle hread hb hnil =>
    exact ⟨C, hh, hread.resting hctl hC (hread.reading hctl).1 rfl rfl hb hb hnil⟩
  | @wait _ _ _ w₁ b hread hb hnil _ ht =>
    have hreading := ((hread.reading hctl).1.took ht).noteRecv (b := b) (n := EHD_AGAIN)
      (fun _ => by decide)
    refine ⟨C, (Took.sameStream ht b _).heads hh, hread.resting hctl hC hreading ?_ ht.r hb ?_ hnil⟩
    · show w₁.c.readHandler = w.c.readHandler
      rw [ht.c]
    · show w₁.c.buf = some b
      rw [ht.c]
      exact hb
  | @hangup _ w₁ b n _ _ ht hn =>
    have hpool := (hctl.1.took ht).home
    exact stream_closed hh ((Took.sameStream ht b n).trans (sameStream_closeBoth _))
      (fd_closeBoth (w := w₁.noteRecv b n) hpool)
  | @hangupTwice _ w₁ b n _ _ ht hn =>
    have hpool := (hctl.1.took ht).pool_hungUp b n
    exact stream_closed hh ((Took.sameStream ht b n).trans
      ((sameStream_closeBoth _).trans (sameStream_closeBoth _))) (fd_closeBoth hpool)
  | fail hp hs => exact Holds.serving hctl hp hs hh
  | noRoom hfull hs =>
    have hnoted : SameStream w w.noteNoRoom := ⟨rfl, rfl⟩
    exact stream_closed hh (hnoted.trans ((Scratch.sameStream hs).trans (sameStream_closeBoth _)))
      (fd_closeBoth (hs.pool.trans (hctl.serving (Or.inl hfull.serves)).home))
  | lineMore hb hparse hpos =>
    exact ⟨C, hh, lineMore_holds (hctl.1.toServing.inBuf hb) hC hb hparse⟩
  | lineDone hb hparse => exact ⟨C, hh, lineDone_holds hC hb hparse⟩
  | stored hs => exact ⟨C, (sameStream_of_t hs.t).heads hh, stored_holds hC hs⟩
  | headerNext => exact ⟨C, hh, hC⟩
  | headerMore hb hparse =>
    exact ⟨C, hh, headerMore_holds (hctl.1.toServing.inBuf hb) hC hb hparse⟩
  | headerDone hb hparse hs =>
    exact ⟨C, (sameStream_of_t hs.t).heads hh, headerDone_holds hC hb hparse hs⟩
  | headersDone hb hparse => exact ⟨C, hh, headersDone_holds hC hb hparse fun _ => rfl⟩
  | hand hb => exact hand_holds (Serving.inBuf (Reading.toServing hctl) hb) hC hb hh
  | @build _ w₁ _ ha =>
    have hwriting : SameStream w₁ w₁.writing := ⟨rfl, rfl⟩
    refine ⟨C, ((Answered.sameStream ha).trans hwriting).heads hh, Behind.same hC ?_⟩
    show w₁.c.buf = w.c.buf
    rw [ha.c]
  | @buildStops _ w₁ f ha hr =>
    have hreg : SameStream w₁ (w₁.responding.registered writeMask false) := ⟨rfl, rfl⟩
    have hclosed := hreg.trans (sameStream_closeBoth _)
    exact ⟨C, ((Answered.sameStream ha).trans hclosed).heads hh, trivial⟩
  | sent hb hw _ hlt =>
    exact ⟨C, (Wrote.sameStream hw).heads hh, Behind.same hC (by rw [hw.c])⟩
  | full hb hw _ =>
    exact ⟨C, (Wrote.sameStream hw).heads hh,
      (hctl.1.wrote hb hw).resting (Behind.same hC (by rw [hw.c]))⟩
  | @keepAlive m pool w w₁ b inBuf hb hw _ hbuf hpool =>
    -- the bytes behind the request move to the start of the buffer
    have hbehind : Behind C w₁ := Behind.same hC (by rw [hw.c])
    obtain ⟨b₀, hb₀, heq, hunread⟩ := hbehind
    have hsame : b₀ = inBuf := Option.some.inj (hb₀.symm.trans hbuf)
    rw [hsame] at heq hunread
    have hkeep : SameStream w₁ ((w₁.idle inBuf pool).registered readMask true) := ⟨rfl, rfl⟩
    refine ⟨C, ((Wrote.sameStream hw).trans hkeep).heads hh,
      ((hctl.1.wrote hb hw).idle hbuf hpool).resting ⟨moveUnread inBuf, rfl, ?_, hunread⟩⟩
    rw [heq]
    rfl
  | @keepAliveFails m pool w w₁ b inBuf hb hw _ hbuf hpool _ =>
    have hkeep : SameStream w₁ ((w₁.idle inBuf pool).registered readMask false) := ⟨rfl, rfl⟩
    exact stream_closed hh ((Wrote.sameStream hw).trans (hkeep.trans (sameStream_closeConnection _)))
      (fd_closeConnection (hctl.1.wrote hb hw).toServing.home)
  | stop hp hs => exact ⟨C, (Scratch.sameStream hs).heads hh, trivial⟩
  | buildFails hs _ => exact ⟨C, (Scratch.sameStream hs).heads hh, trivial⟩

theorem Accepted.stream (h : Accepted w) : Stream .loop w := by
  have hrecord : w.t.received = [] ∧ w.t.handed = [] := by
    rw [h.t]
    exact ⟨rfl, rfl⟩
  refine ⟨[], ?_, h.connected.resting⟩
  rw [hrecord.1, hrecord.2]
  exact .nil

/-- Another state of the kernel leaves the bytes where they are. -/
theorem Resting.onKernel {k : Kernel} (hctl : InLoop w) (hk : w.k.pools ≤ k.pools)
    (h : Resting C w) : Resting C { w with k := k } := by
  have hs : SameInput w { w with k := k } := ⟨rfl, rfl⟩
  rcases hctl with hc | hc | hc | hc | hc
  · exact resting_closed hc.fd
  · rw [h.connected hc]
    exact Connected.resting
      ⟨hc.toOpen.frame (openFrame_kernel hk), hc.data, hc.readHandler, hc.mask, hc.buf⟩
  · refine Idle.resting ⟨hc.toOpen.frame (openFrame_kernel hk), hc.data, hc.readHandler,
      hc.writeHandler, hc.request, hc.mask, hc.buf⟩ ?_
    exact (h.idle hc).same rfl
  · have hreading : Reading { w with k := k } :=
      hc.toReading.frame (openFrame_kernel hk) rfl rfl rfl rfl rfl rfl hc.buf
    refine Waiting.resting ⟨hreading, hc.readHandler, hc.unread⟩ ?_ ?_
    · intro hline
      exact (h.line hc hline).same hs
    · intro hheaders
      exact (h.headers hc hheaders).same hs
  · refine Responding.resting (hc.frame (openFrame_kernel hk) rfl rfl rfl hc.two hc.sendable) ?_
    exact (h.responding hc).same rfl

/-- In every state of a run the bytes received are the heads handed over and what the
connection holds. -/
theorem Run.stream {P : Kernel → Prop} {o : Option Stop} (h : Run P o w) : Stream (.ofRun o) w := by
  refine And.right
    (Calls.invariant (I := fun o w => Ctl (.ofRun o) w ∧ Stream (.ofRun o) w) ?_ ?_ ?_ h)
  · rintro w ⟨haccepted, -⟩
    exact ⟨InLoop.connected haccepted.connected, haccepted.stream⟩
  · rintro w x ⟨hctl, hstream⟩ ⟨events, hev, rfl⟩
    exact Walks.invariant (I := fun p w => Ctl p w ∧ Stream p w)
      (fun p w q w' hp hm => ⟨Move.ctl hp.1 hm, Move.stream hp.1 hp.2 hm⟩)
      (dispatch_goes hctl hev) ⟨hctl, hstream⟩
  · rintro w w' ⟨hctl, C, hh, hrest⟩ ⟨k, -, hk, rfl⟩
    exact ⟨InLoop.onKernel hctl hk, C, hh, Resting.onKernel hctl hk hrest⟩

/-- A point of a run: moves lead to it from a state in the event loop.  By `dispatch_goes`
the handlers pass no other points. -/
def Passes (P : Kernel → Prop) (p : Pc) (w : World) : Prop :=
  ∃ w₀, Run P none w₀ ∧ Relation.ReflTransGen Move (.loop, w₀) (p, w)

theorem Passes.facts {P : Kernel → Prop} {p : Pc} (h : Passes P p w) : Ctl p w ∧ Stream p w := by
  obtain ⟨w₀, hrun, hpath⟩ := h
  refine path_invariant (I := fun p w => Ctl p w ∧ Stream p w) ?_ hpath ⟨hrun.ctl, hrun.stream⟩
  intro p w q w' hp hm
  exact ⟨Move.ctl hp.1 hm, Move.stream hp.1 hp.2 hm⟩

def ReadingHead (w : World) : Prop := w.c.data = .request ∧ w.c.writeHandler = some .empty

/-- The bytes `left` of the stream are in the buffer of the connection: all of them unread, or
some read for the head that is being read. -/
def Remains (left : List UInt8) (w : World) : Prop :=
  match w.c.buf with
  | none => left = []
  | some b => (ReadingHead w → b.last = left.length ∧ b.unread = left.drop b.pos) ∧
      (¬ ReadingHead w → b.unread = left)

theorem Resting.remains (hctl : InLoop w) (h : Resting C w) (hfd : w.c.fd ≠ -1) : Remains C w := by
  have behind : ¬ ReadingHead w → Behind C w → Remains C w := by
    rintro hnot ⟨b, hb, -, hunread⟩
    unfold Remains
    rw [hb]
    exact ⟨fun hr => absurd hr hnot, fun _ => hunread⟩
  rcases hctl with hc | hc | hc | hc | hc
  · exact absurd hc.fd hfd
  · unfold Remains
    rw [hc.buf]
    exact h.connected hc
  · refine behind ?_ (h.idle hc)
    rintro ⟨hdata, -⟩
    rw [hc.data] at hdata
    cases hdata
  · have hreading : ReadingHead w := ⟨hc.data, hc.writeHandler⟩
    rcases hc.readHandler with hline | ⟨hheaders, -⟩
    · obtain ⟨b, hb, hopen, -⟩ := h.line hc hline
      unfold Remains
      rw [hb]
      refine ⟨fun _ => ?_, fun hnot => absurd hreading hnot⟩
      rw [hopen.buf]
      exact ⟨rfl, rfl⟩
    · obtain ⟨b, X, p, m, es, q, k, hb, hopen⟩ := h.headers hc hheaders
      unfold Remains
      rw [hb]
      refine ⟨fun _ => ⟨?_, hopen.unread⟩, fun hnot => absurd hreading hnot⟩
      rw [← hopen.length, hopen.buf]
      rfl
  · refine behind ?_ (h.responding hc)
    rintro ⟨-, hwrite⟩
    rw [hc.writeHandler] at hwrite
    cases hwrite

/-- Whatever the stream goes on with, the requests handed over are the first that the parsers
find in it when they are given one head at a time; the bytes behind them are what the
connection has in its buffer. -/
theorem chunking_is_invisible {P : Kernel → Prop} {o : Option Stop} (h : Run P o w) :
    (∀ more, w.t.handed.map Handed.toHead <+:
      requests (w.t.received ++ more).length (w.t.received ++ more)) ∧
    ∃ left, afterRequests w.t.handed.length w.t.received = some left ∧ left <:+ w.t.received ∧
      (o = none → w.c.fd ≠ -1 → Remains left w) := by
  obtain ⟨C, hh, hC⟩ := h.stream
  refine ⟨fun more => (hh.append more).prefix_requests, C, hh.afterRequests, ?_, ?_⟩
  · obtain ⟨taken, htaken⟩ := hh.split
    exact ⟨taken, htaken.symm⟩
  · rintro rfl hfd
    have hctl := h.ctl
    exact Resting.remains hctl hC hfd

/-- Two requests that arrive together: the first has been handed over, and the second is the
bytes that are left. -/
theorem chunking_is_invisible_pipelined :
    (after (dispatch EPOLLIN) pipelinedWorld).t.handed.map Handed.toHead <+:
        requests (after (dispatch EPOLLIN) pipelinedWorld).t.received.length
          (after (dispatch EPOLLIN) pipelinedWorld).t.received ∧
      (after (dispatch EPOLLIN) pipelinedWorld).t.handed.length = 1 ∧
      ∃ left, afterRequests 1 (after (dispatch EPOLLIN) pipelinedWorld).t.received = some left ∧
        Remains left (after (dispatch EPOLLIN) pipelinedWorld) := by
  have hone : (after (dispatch EPOLLIN) pipelinedWorld).t.handed.length = 1 := by decide +kernel
  have hfd : (after (dispatch EPOLLIN) pipelinedWorld).c.fd ≠ -1 := by decide +kernel
  have hrun := pipelined_run
  revert hrun hone hfd
  generalize after (dispatch EPOLLIN) pipelinedWorld = w
  intro hone hfd hrun
  obtain ⟨hheads, left, hleft, -, hremains⟩ := chunking_is_invisible hrun
  have hall := hheads []
  rw [List.append_nil] at hall
  rw [hone] at hleft
  exact ⟨hall, hone, left, hleft, hremains rfl hfd⟩

end Ehd.Http
