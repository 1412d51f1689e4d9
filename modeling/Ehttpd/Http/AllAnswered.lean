import Ehttpd.Http.BufferSpace
import Ehttpd.Http.Framing

namespace Ehd.Http

open Program Scanner World

variable {w w' : World} {C : List UInt8} {b : Buf} {p q : Pc}

/-- What the parser has stored of a request line is to be gone on with. -/
def LinePending (r : Request) : Prop := RequestLineSw.ofUint r.parse.state ≠ .done

/-- Wherever a request line is read, its parser has not come to the end. -/
def Pending : Pc → World → Prop
  | .line, w | .parseLine, w => LinePending w.r
  | .loop, w => w.c.fd ≠ -1 → ReadingHead w → w.c.readHandler = .processRequestLine →
      LinePending w.r
  | _, _ => True

theorem pending_closed (hfd : w.c.fd = -1) : Pending .loop w := fun hopen => absurd hfd hopen

theorem Reads.pending (hread : Reads p q) (w' : World) (hctl : Ctl p w) (h : Pending p w)
    (hr : w'.r = w.r) (hrh : w'.c.readHandler = w.c.readHandler) :
    Pending q w' ∧ Pending .loop w' := by
  cases hread with
  | line =>
    have hline : LinePending w'.r := by
      rw [hr]
      exact h
    exact ⟨hline, fun _ _ _ => hline⟩
  | headers =>
    refine ⟨trivial, fun _ _ hheaders => ?_⟩
    rw [hrh, hctl.2.1] at hheaders
    cases hheaders

/-- Every move keeps to this. -/
theorem Move.pending (hctl : Ctl p w) (h : Pending p w) (hm : Move (p, w) (q, w')) :
    Pending q w' := by
  cases hm with
  | start hr hs => exact fun hdone => nomatch hdone
  | startFails hs hc =>
    obtain ⟨cp, hcp, -⟩ := (start_open hs).pool
    exact pending_closed (fd_closeConnection (hc.pool.trans hcp))
  | startCloses hr hs hb hsc =>
    obtain ⟨cp, hcp, -⟩ := (Reported.open (start_open hs) hr).pool
    exact pending_closed (fd_closeBoth (hsc.pool.trans hcp))
  | resumeLine hr hw hrh =>
    show LinePending _
    rw [hr.r]
    exact h hw.fd ⟨hw.data, hw.writeHandler⟩ hrh
  | «have» hread hb hne => exact (hread.pending _ hctl h rfl rfl).1
  | @recv _ _ _ w₁ b bs hread hb hnil _ ht hne hlen =>
    refine (hread.pending ((w₁.noteRecv b bs.length).setBuf (b.append bs)) hctl h ht.r ?_).1
    show w₁.c.readHandler = _
    rw [ht.c]
  | idle hread hb hnil => exact (hread.pending _ hctl h rfl rfl).2
  | @wait _ _ _ w₁ b hread hb hnil _ ht =>
    refine (hread.pending (w₁.noteRecv b EHD_AGAIN) hctl h ht.r ?_).2
    show w₁.c.readHandler = _
    rw [ht.c]
  | @hangup _ w₁ b n _ _ ht hn =>
    exact pending_closed (fd_closeBoth (w := w₁.noteRecv b n) (hctl.1.took ht).home)
  | @hangupTwice _ w₁ b n _ _ ht hn =>
    exact pending_closed (fd_closeBoth ((hctl.1.took ht).pool_hungUp b n))
  | fail hp hs =>
    exact pending_closed (fd_closeBoth (hs.pool.trans (hctl.serving (Or.inl hp)).home))
  | noRoom hfull hs =>
    exact pending_closed (fd_closeBoth (hs.pool.trans (hctl.serving (Or.inl hfull.serves)).home))
  | lineMore hb hparse hpos =>
    -- the parser stores the state that it asks for more in
    obtain ⟨st, r', -, hst, rfl⟩ := parseRequestLine_again hparse
    show RequestLineSw.ofUint st.toUint ≠ .done
    rw [RequestLineSw.ofUint_toUint]
    exact hst
  | full hb hw hpos =>
    intro _ hreading _
    have hwriter := (hctl.1.wrote hb hw).writeHandler
    rw [hreading.2] at hwriter
    cases hwriter
  | keepAlive hb hw hpos hbuf hpool =>
    intro _ hreading _
    cases hreading.1
  | keepAliveFails hb hw hpos hbuf hpool _ =>
    exact pending_closed (fd_closeConnection (hctl.1.wrote hb hw).toServing.home)
  | _ => trivial

theorem Run.pending {P : Kernel → Prop} {o : Option Stop} (h : Run P o w) :
    Pending (.ofRun o) w := by
  refine And.right
    (Calls.invariant (I := fun o w => Ctl (.ofRun o) w ∧ Pending (.ofRun o) w) ?_ ?_ ?_ h)
  · rintro w ⟨haccepted, -⟩
    have hc := haccepted.connected
    refine ⟨InLoop.connected hc, fun _ hreading _ => ?_⟩
    have hdata := hreading.1
    rw [hc.data] at hdata
    cases hdata
  · rintro w x ⟨hctl, hpending⟩ ⟨events, hev, rfl⟩
    exact Walks.invariant (I := fun p w => Ctl p w ∧ Pending p w)
      (fun p w q w' hp hm => ⟨Move.ctl hp.1 hm, Move.pending hp.1 hp.2 hm⟩)
      (dispatch_goes hctl hev) ⟨hctl, hpending⟩
  · rintro w w' ⟨hctl, hpending⟩ ⟨k, -, hk, rfl⟩
    exact ⟨InLoop.onKernel hctl hk, hpending⟩

/-- The reference finds no head in the beginning of one. -/
theorem HeadIncomplete.parseHead (h : HeadIncomplete C) : parseHead C = none := by
  unfold Http.parseHead
  cases h with
  | line hparse => rw [hparse]
  | @headers p q q' m k es hparse hpath hlines hmore =>
    rw [hparse]
    dsimp only
    rw [if_pos hpath, Option.map_eq_none_iff]
    -- the header lines before the one that is not complete
    obtain ⟨hstate, hproxy, hm⟩ := requestLine_between hparse
    have hbetween := hlines.between hstate hproxy hm
    have hmany := hbetween.many
    have hle := hbetween.le
    obtain ⟨fuel, hfuel⟩ : ∃ fuel, C.length + 1 - es.length = fuel + 1 :=
      ⟨C.length - es.length, by omega⟩
    rw [readHeaders_lines hlines _ (by omega), hfuel, readHeaders, hmore]
    rfl

theorem InBuf.pos_of_read (h : InBuf b) (hnil : b.unread = []) : b.pos = b.last := by
  have hpos := h.pos
  have hlen := congrArg List.length hnil
  rw [Buf.unread, List.length_drop, List.length_nil] at hlen
  unfold Buf.last at *
  omega

/-- The parser has seen all of the bytes `C`. -/
theorem OpenLine.incomplete {r : Request} (h : OpenLine C r.parse b) (hin : InBuf b)
    (hnil : b.unread = []) (hpending : LinePending r) : HeadIncomplete C := by
  have hloop : requestLineLoop b.bytes (.ofUint r.parse.state) r.parse b.pos b.unread =
      .exit (.ofUint r.parse.state) r.parse b.pos := by
    rw [hnil]
    rfl
  have hparse := parseRequestLine_of_exit hpending hloop
  have hall := h.resume [] .again _ b (Or.inr rfl)
    (by rw [Buf.append, List.append_nil]; exact hparse)
  have hbuf : b = inputBuf C C.length := by
    have hpos : b.pos = C.length := by
      rw [hin.pos_of_read hnil, h.buf]
      rfl
    rw [← hpos]
    exact h.buf
  rw [List.append_nil, hbuf] at hall
  exact .line hall

theorem OpenBlock.incomplete {X : List UInt8} {p q : ParseState} {m k : Nat} {es : List HeaderIn}
    {r : Request} (h : OpenBlock C X p m es q k b r) (hin : InBuf b) (hnil : b.unread = [])
    (hstate : r.parse.InHeaders) : HeadIncomplete C := by
  have hat : b.pos = C.length := by
    rw [hin.pos_of_read hnil, ← h.length, h.buf]
    rfl
  have hunread : (inputBuf C b.pos).unread = [] := List.drop_eq_nil_of_le hat.ge
  have hloop : headerLineLoop (inputBuf C b.pos).bytes (.ofUint r.parse.state) r.parse
      (inputBuf C b.pos).pos (inputBuf C b.pos).unread =
        .exit (.ofUint r.parse.state) r.parse b.pos := by
    rw [hunread]
    rfl
  have hparse := parseHeaderLine_of_exit hstate hloop
  have hend : ({ inputBuf C b.pos with pos := (inputBuf C b.pos).pos + (inputBuf C b.pos).unread.length } : Buf) =
      inputBuf C C.length := by
    rw [hunread, hat]
    rfl
  rw [hend] at hparse
  have hall := h.resume [] .again _ (inputBuf C C.length) (by decide)
    (by rw [List.append_nil]; exact hparse)
  rw [List.append_nil] at hall
  exact .headers h.line h.path h.lines hall

/-- The head that is being read in a state of a run is not complete. -/
theorem Waiting.incomplete (h : Waiting w) (hrest : Resting C w) (hpending : Pending .loop w) :
    C.length ≤ EHD_DEFAULT_BUF_SIZE ∧ HeadIncomplete C := by
  obtain ⟨b, hb, hnil, -⟩ := h.unread
  have hin := h.toServing.inBuf hb
  have hlast := hin.last
  rw [hin.size] at hlast
  rcases h.readHandler with hline | ⟨hheaders, hstate⟩
  · obtain ⟨b₀, hb₀, hopen, -⟩ := hrest.line h hline
    obtain rfl : b₀ = b := Option.some.inj (hb₀.symm.trans hb)
    have hpend := hpending h.fd ⟨h.data, h.writeHandler⟩ hline
    rw [hopen.buf] at hlast
    exact ⟨hlast, hopen.incomplete hin hnil hpend⟩
  · obtain ⟨b₀, X, p, m, es, q, k, hb₀, hopen⟩ := hrest.headers h hheaders
    obtain rfl : b₀ = b := Option.some.inj (hb₀.symm.trans hb)
    rw [hopen.buf] at hlast
    have hlen : X.length ≤ EHD_DEFAULT_BUF_SIZE := hlast
    rw [hopen.length] at hlen
    exact ⟨hlen, hopen.incomplete hin hnil hstate⟩

theorem Heads.requests_of_none {s rest : List UInt8} {hs : List Handed} (h : Heads s hs rest)
    (hlen : rest.length ≤ EHD_DEFAULT_BUF_SIZE) (hnone : Http.parseHead rest = none) :
    hs.map Handed.toHead = requests s.length s := by
  rw [h.requests_eq _ (by have hle := h.length_le; omega)]
  have hno : ∀ fuel, requests fuel rest = [] := by
    intro fuel
    cases fuel with
    | zero => rfl
    | succ fuel => rw [requests, List.take_of_length_le hlen, hnone]
  rw [hno, List.append_nil]

/-- A connection that is registered for reading and has nothing unread has handed over every request
that is there. -/
theorem Run.all_handed {P : Kernel → Prop} (h : Run P none w) (hfd : w.c.fd ≠ -1)
    (hmask : w.c.ev.events = readMask) (hnil : ∀ b, w.c.buf = some b → b.unread = []) :
    w.t.handed.map Handed.toHead = requests w.t.received.length w.t.received := by
  obtain ⟨C, hheads, hrest⟩ := h.stream
  have hctl : InLoop w := h.ctl
  have hempty : C = [] → w.t.handed.map Handed.toHead = requests w.t.received.length w.t.received := by
    rintro rfl
    exact hheads.requests_of_none (Nat.zero_le _) rfl
  rcases hctl with hc | hc | hc | hc | hc
  · exact absurd hc.fd hfd
  · exact hempty (hrest.connected hc)
  · obtain ⟨b, hb, -, hunread⟩ := hrest.idle hc
    exact hempty (hunread.symm.trans (hnil b hb))
  · obtain ⟨hlen, hincomplete⟩ := hc.incomplete hrest h.pending
    exact hheads.requests_of_none hlen hincomplete.parseHead
  · rw [hc.mask] at hmask
    exact absurd hmask (by decide)

/-- A connection that is registered for reading, with nothing unread in its buffer, has answered
each request whose head has come, and no other: every answer is whole, and they are in order. -/
theorem no_request_left_waiting {P : Kernel → Prop} (h : Run P none w) (hfd : w.c.fd ≠ -1)
    (hmask : w.c.ev.events = readMask) (hnil : ∀ b, w.c.buf = some b → b.unread = []) :
    w.t.handed.map Handed.toHead = requests w.t.received.length w.t.received ∧
      ∃ done, OnWire w w.t.handed done none := by
  refine ⟨h.all_handed hfd hmask hnil, ?_⟩
  obtain ⟨done, hquiet⟩ := h.wire.reads hfd hmask
  exact ⟨done, hquiet.wire⟩

/-- The request has been answered, and the next has not begun. -/
theorem no_request_left_waiting_served :
    (after (dispatch EPOLLIN) servedWorld).t.handed.map Handed.toHead =
      requests (after (dispatch EPOLLIN) servedWorld).t.received.length
        (after (dispatch EPOLLIN) servedWorld).t.received ∧
      (after (dispatch EPOLLIN) servedWorld).t.handed.length = 1 := by
  have hbuf : (after (dispatch EPOLLIN) servedWorld).c.buf = some ⟨[], 0, 4096, 0, none⟩ := by
    decide +kernel
  have hall := no_request_left_waiting served_run (by decide +kernel) (by decide +kernel) ?_
  · exact ⟨hall.1, by decide +kernel⟩
  · intro b hb
    rw [hbuf] at hb
    cases hb
    rfl

end Ehd.Http
