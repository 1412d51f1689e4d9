import Ehttpd.Http.Control
import Mathlib.Data.List.Nodup

namespace Ehd.Http

open Program World

variable {w w' w₁ : World}

structure OpenFrame (w w' : World) : Prop where
  fd : w'.c.fd = w.c.fd
  closed : w'.c.ev.closed = w.c.ev.closed
  pool : w'.c.pool = w.c.pool
  pools : w.k.pools ≤ w'.k.pools
  destroyed : w'.t.destroyed = w.t.destroyed
  badAccess : w'.t.badAccess = w.t.badAccess
  hangup : HangupInHeaders w'.t → HangupInHeaders w.t

theorem Open.frame (h : Open w) (hf : OpenFrame w w') : Open w' where
  nodup := by rw [hf.destroyed]; exact h.nodup
  sound := by rw [hf.badAccess]; exact h.sound
  hangup := fun hh => h.hangup (hf.hangup hh)
  fd := by rw [hf.fd]; exact h.fd
  closed := by rw [hf.closed]; exact h.closed
  pool := by
    obtain ⟨p, hp, hlt, hmem⟩ := h.pool
    exact ⟨p, hf.pool.trans hp, lt_of_lt_of_le hlt hf.pools, by rw [hf.destroyed]; exact hmem⟩
  fresh := by
    intro p hp
    rw [hf.destroyed] at hp
    exact lt_of_lt_of_le (h.fresh p hp) hf.pools

theorem Serving.alive (h : Serving w) : w.r.home ∉ w.t.destroyed := by
  obtain ⟨p, hp, -, hmem⟩ := h.pool
  have heq : p = w.r.home := Option.some.inj (hp.symm.trans h.home)
  rw [← heq]
  exact hmem

theorem Serving.frame (h : Serving w) (hf : OpenFrame w w') (hdata : w'.c.data = w.c.data)
    (hhome : w'.r.home = w.r.home) (hpool : w'.r.pool = w.r.pool)
    (hbuf : ∃ b, w'.c.buf = some b ∧ InBuf b) : Serving w' where
  toOpen := h.toOpen.frame hf
  data := hdata.trans h.data
  home := by rw [hf.pool, hhome]; exact h.home
  requestPool := by
    obtain ⟨p, hp, hlt, hmem, hne⟩ := h.requestPool
    exact ⟨p, hpool.trans hp, lt_of_lt_of_le hlt hf.pools, by rw [hf.destroyed]; exact hmem,
      by rw [hhome]; exact hne⟩
  buf := hbuf

/-- A step that touches only the buffer, the flags of the event, the read
handler and what the parsers store. -/
theorem Reading.frame (h : Reading w) (hf : OpenFrame w w')
    (hc : w'.c = { w.c with readHandler := w'.c.readHandler, buf := w'.c.buf, ev := w'.c.ev })
    (hevents : w'.c.ev.events = w.c.ev.events) (hhome : w'.r.home = w.r.home)
    (hpool : w'.r.pool = w.r.pool) (hho : w'.r.headersOut = w.r.headersOut)
    (hresp : w'.r.response = w.r.response) (hbuf : ∃ b, w'.c.buf = some b ∧ InBuf b) :
    Reading w' where
  toServing := h.toServing.frame hf (by rw [hc]) hhome hpool hbuf
  mask := hevents.trans h.mask
  writeHandler := by rw [hc]; exact h.writeHandler
  headersOut := hho.trans h.headersOut
  response := hresp.trans h.response

theorem openFrame_took {bs : List UInt8} (h : w.Took w' bs) : OpenFrame w w' where
  fd := by rw [h.c]
  closed := h.closed
  pool := by rw [h.c]
  pools := h.k.pools.ge
  destroyed := by rw [h.t]
  badAccess := by rw [h.t]
  hangup := by rw [h.t]; exact id

theorem openFrame_reported (h : w.Reported w') : OpenFrame w w' where
  fd := by rw [h.c]
  closed := h.closed
  pool := by rw [h.c]
  pools := by rw [h.k]
  destroyed := by rw [h.t]
  badAccess := by rw [h.t]
  hangup := by rw [h.t]; exact id

/-- A result of `recv` that is no hangup in the header block. -/
theorem openFrame_noteRecv {b : Buf} {n : Int}
    (h : w.c.readHandler = .processRequestHeaders → n ≠ 0 ∧ n ≠ EHD_ERROR) :
    OpenFrame w (w.noteRecv b n) where
  fd := rfl
  closed := rfl
  pool := rfl
  pools := le_rfl
  destroyed := rfl
  badAccess := rfl
  hangup := by
    rintro ⟨m, hm, hmem⟩
    rcases List.mem_append.1 hmem with hmem | hmem
    · exact ⟨m, hm, hmem⟩
    · have heq := List.mem_singleton.1 hmem
      have hn := h (congrArg Prod.fst heq).symm
      have hmn : m = n := congrArg Prod.snd heq
      rw [hmn] at hm
      rcases hm with hm | hm
      · exact absurd hm hn.1
      · exact absurd hm hn.2

theorem Reading.took {bs : List UInt8} (h : Reading w) (ht : w.Took w' bs) : Reading w' := by
  refine h.frame (openFrame_took ht) ?_ ht.events (by rw [ht.r]) (by rw [ht.r]) (by rw [ht.r])
    (by rw [ht.r]) ?_
  · rw [ht.c]
  · rw [ht.c]
    exact h.buf

theorem Reading.reported (h : Reading w) (hr : w.Reported w') : Reading w' := by
  refine h.frame (openFrame_reported hr) ?_ hr.events (by rw [hr.r]) (by rw [hr.r]) (by rw [hr.r])
    (by rw [hr.r]) ?_
  · rw [hr.c]
  · rw [hr.c]
    exact h.buf

theorem Reading.noteRecv {b : Buf} {n : Int} (h : Reading w)
    (hn : w.c.readHandler = .processRequestHeaders → n ≠ 0 ∧ n ≠ EHD_ERROR) :
    Reading (w.noteRecv b n) :=
  h.frame (openFrame_noteRecv hn) rfl rfl rfl rfl rfl rfl h.buf

theorem Reading.setBuf {b : Buf} (h : Reading w) (hb : InBuf b) : Reading (w.setBuf b) :=
  h.frame ⟨rfl, rfl, rfl, le_rfl, rfl, rfl, id⟩ rfl rfl rfl rfl rfl rfl ⟨b, rfl, hb⟩

theorem Reading.parsed {p : ParseState} {b : Buf} (h : Reading w) (hb : InBuf b) :
    Reading (w.parsed p b) :=
  h.frame ⟨rfl, rfl, rfl, le_rfl, rfl, rfl, id⟩ rfl rfl rfl rfl rfl rfl ⟨b, rfl, hb⟩

theorem InBuf.append {b : Buf} {bs : List UInt8} (h : InBuf b) (hbs : bs.length ≤ b.room) :
    InBuf (b.append bs) where
  pos := by
    have := h.pos
    simp only [Buf.append, Buf.last, List.length_append] at *
    omega
  last := by
    have := h.last
    simp only [Buf.append, Buf.last, Buf.room, List.length_append] at *
    omega
  size := h.size

theorem InBuf.putNul {b : Buf} (h : InBuf b) (off : Nat) : InBuf (b.putNul off) where
  pos := by simpa [Buf.putNul, Buf.last] using h.pos
  last := by simpa [Buf.putNul, Buf.last] using h.last
  size := h.size

theorem InBuf.terminateHeader {b : Buf} (h : InBuf b) (e : HeaderIn) :
    InBuf (terminateHeader b e) :=
  (h.putNul _).putNul _

theorem inBuf_temp : InBuf (.temp EHD_DEFAULT_BUF_SIZE) :=
  ⟨Nat.le_refl _, Nat.zero_le _, rfl⟩

theorem InBuf.at_pos {b : Buf} {p : Nat} (h : InBuf b) (hp : p ≤ b.pos + b.unread.length) :
    InBuf { b with pos := p } where
  pos := by
    have := h.pos
    simp only [Buf.unread, Buf.last, List.length_drop] at *
    omega
  last := h.last
  size := h.size

theorem InBuf.advances {b b' : Buf} (h : InBuf b) (hadv : Advances b b') : InBuf b' := by
  rw [hadv.eq]
  exact h.at_pos hadv.le_unread

theorem InBuf.moveUnread {b : Buf} (h : InBuf b) : InBuf (moveUnread b) where
  pos := Nat.zero_le _
  last := by
    have := h.last
    simp only [Http.moveUnread, Buf.last, Buf.unread, List.length_drop] at *
    omega
  size := h.size

theorem closeRequest_record {rp : Nat} (hrp : w.r.pool = some rp) :
    w.closeRequest.t.destroyed = w.t.destroyed ++ [rp] ∧
      w.closeRequest.t.recvs = w.t.recvs := by
  unfold World.closeRequest World.touch
  rw [hrp]
  dsimp only
  split
  · exact ⟨rfl, rfl⟩
  · exact ⟨rfl, rfl⟩

theorem closeBoth_destroyed {rp cp : Nat} (hrp : w.r.pool = some rp) (hcp : w.c.pool = some cp) :
    w.closeBoth.t.destroyed = w.t.destroyed ++ [rp] ++ [cp] ∧
      w.closeBoth.t.recvs = w.t.recvs ∧ w.closeBoth.c.fd = -1 ∧
      w.closeBoth.c.pool = some cp ∧ w.closeBoth.r.pool = some rp := by
  have hc : w.closeRequest.c.pool = some cp := by rw [closeRequest_c]; exact hcp
  have hrecord := closeRequest_record hrp
  unfold World.closeBoth
  rw [World.closeConnection_eq hc]
  refine ⟨?_, hrecord.2, rfl, hc, ?_⟩
  · show w.closeRequest.t.destroyed ++ [cp] = _
    rw [hrecord.1]
  · show w.closeRequest.r.pool = some rp
    rw [closeRequest_r]
    exact hrp

theorem Reading.pool_hungUp (h : Reading w) (b : Buf) (n : Int) :
    (w.noteRecv b n).closeBoth.c.pool = some w.r.home := by
  obtain ⟨rp, hrp, -⟩ := h.requestPool
  exact (closeBoth_destroyed (w := w.noteRecv b n) hrp h.home).2.2.2.1

theorem closeBoth_t {rp cp : Nat} (halive : w.r.home ∉ w.t.destroyed)
    (hrp : w.r.pool = some rp) (hcp : w.c.pool = some cp) :
    w.closeBoth.t = { w.t with destroyed := w.t.destroyed ++ [rp] ++ [cp] } := by
  have hc : w.closeRequest.c.pool = some cp := by rw [closeRequest_c]; exact hcp
  unfold World.closeBoth
  rw [World.closeConnection_eq hc, World.closeRequest_eq halive hrp]
  rfl

/-- Closing a request in progress releases its two pools once. -/
theorem Serving.clean_closeBoth (h : Serving w) (hs : w.Scratch w₁) : Clean w₁.closeBoth := by
  obtain ⟨rp, hrp, -, hmem, hne⟩ := h.requestPool
  have hrp₁ : w₁.r.pool = some rp := hs.requestPool.trans hrp
  have hcp₁ : w₁.c.pool = some w.r.home := hs.pool.trans h.home
  have ht := closeBoth_t (hs.alive h.alive) hrp₁ hcp₁
  have hd := hs.destroyed
  refine ⟨?_, ?_, ?_⟩
  · rw [ht]
    show (w₁.t.destroyed ++ [rp] ++ [w.r.home]).Nodup
    rw [hd, List.append_assoc]
    refine List.nodup_append.2 ⟨h.nodup, by simpa using hne, ?_⟩
    intro a ha b hb heq
    subst heq
    rcases List.mem_cons.1 hb with hb | hb
    · exact hmem (hb ▸ ha)
    · exact h.alive (List.mem_singleton.1 hb ▸ ha)
  · rw [ht, hs.t]
    exact h.sound
  · rintro ⟨n, hn, hmem'⟩
    rw [ht, hs.t] at hmem'
    exact h.hangup ⟨n, hn, hmem'⟩

theorem Serving.closed_closeBoth (h : Serving w) (hs : w.Scratch w₁) : Closed w₁.closeBoth := by
  obtain ⟨rp, hrp, -, -, -⟩ := h.requestPool
  have hclosed := closeBoth_destroyed (hs.requestPool.trans hrp) (hs.pool.trans h.home)
  exact ⟨hclosed.2.2.1, Or.inl (h.clean_closeBoth hs)⟩

/-- After a hangup in the header block both pools are released a second time. -/
theorem Reading.closed_twice {b : Buf} {n : Int} (h : Reading w)
    (hrh : w.c.readHandler = .processRequestHeaders) (ht : w.Took w₁ [])
    (hn : n = 0 ∨ n = EHD_ERROR) : Closed (w₁.noteRecv b n).closeBoth.closeBoth := by
  have h₁ := h.took ht
  obtain ⟨rp, hrp, -, -, -⟩ := h₁.requestPool
  have once := closeBoth_destroyed (w := w₁.noteRecv b n) hrp h₁.home
  have twice := closeBoth_destroyed (w := (w₁.noteRecv b n).closeBoth) once.2.2.2.2 once.2.2.2.1
  refine ⟨twice.2.2.1, Or.inr ⟨?_, n, hn, ?_⟩⟩
  · rw [twice.1, once.1]
    intro hnodup
    have hdup := List.nodup_append.1 (List.nodup_append.1 hnodup).1
    exact hdup.2.2 rp (by simp) rp (by simp) rfl
  · rw [twice.2.1, once.2.1]
    have hrh₁ : w₁.c.readHandler = .processRequestHeaders := by rw [ht.c]; exact hrh
    show _ ∈ w₁.t.recvs ++ [(w₁.c.readHandler, n)]
    rw [hrh₁]
    exact List.mem_append_right _ (List.mem_singleton.2 rfl)

theorem closeConnection_t {cp : Nat} (hcp : w.c.pool = some cp) :
    w.closeConnection.t = { w.t with destroyed := w.t.destroyed ++ [cp] } ∧
      w.closeConnection.c.fd = -1 := by
  rw [World.closeConnection_eq hcp]
  exact ⟨rfl, rfl⟩

theorem closed_closeConnection {cp : Nat} (hclean : Clean w) (hcp : w.c.pool = some cp)
    (hmem : cp ∉ w.t.destroyed) : Closed w.closeConnection := by
  have ht := closeConnection_t hcp
  refine ⟨ht.2, Or.inl ⟨?_, ?_, ?_⟩⟩
  · rw [ht.1]
    refine List.nodup_append.2 ⟨hclean.nodup, by simp, ?_⟩
    intro a ha b hb heq
    rw [List.mem_singleton.1 hb] at heq
    exact hmem (heq ▸ ha)
  · rw [ht.1]
    exact hclean.sound
  · rintro ⟨n, hn, hmem'⟩
    rw [ht.1] at hmem'
    exact hclean.hangup ⟨n, hn, hmem'⟩

theorem Reported.open (h : Open w) (hr : w.Reported w₁) : Open w₁ :=
  h.frame (openFrame_reported hr)

theorem inBuf_start (h : Connected w ∨ Idle w) :
    InBuf (w.c.buf.getD (.temp EHD_DEFAULT_BUF_SIZE)) ∧
      (w.c.buf.getD (.temp EHD_DEFAULT_BUF_SIZE)).pos = 0 := by
  rcases h with h | h
  · rw [h.buf]
    exact ⟨inBuf_temp, rfl⟩
  · obtain ⟨b, hb, hin, hpos, -⟩ := h.buf
    rw [hb]
    exact ⟨hin, hpos⟩

theorem start_open (h : Connected w ∨ Idle w) : Open w := by
  rcases h with h | h
  · exact h.toOpen
  · exact h.toOpen

theorem start_mask (h : Connected w ∨ Idle w) : w.c.ev.events = readMask := by
  rcases h with h | h
  · exact h.mask
  · exact h.mask

/-- A new request is served from a pool of its own. -/
theorem reading_opened {b : Buf} {n : List Allocation} (h : Open w) (hmask : w.c.ev.events = readMask)
    (hb : InBuf b) : Reading (w.opened b n) := by
  obtain ⟨p, hp, hlt, hmem⟩ := h.pool
  have hhome : (w.opened b n).r.home = p := by
    show w.c.pool.getD 0 = p
    rw [hp]
    rfl
  have hopen : Open (w.opened b n) :=
    h.frame ⟨rfl, rfl, rfl, Nat.le_succ _, rfl, rfl, id⟩
  refine ⟨⟨hopen, rfl, ?_, ?_, b, rfl, hb⟩, hmask, rfl, rfl, rfl⟩
  · rw [hhome]
    exact hp
  · refine ⟨w.k.pools, rfl, Nat.lt_succ_self _, ?_, ?_⟩
    · intro hd
      exact absurd (h.fresh _ hd) (lt_irrefl _)
    · rw [hhome]
      exact hlt.ne'

theorem Took.scratch (h : w.Took w₁ []) : w.Scratch w₁ where
  conf := h.conf
  slot := by rw [h.c]
  id := by rw [h.c]
  fd := by rw [h.c]
  pool := by rw [h.c]
  home := by rw [h.r]
  requestPool := by rw [h.r]
  k := h.k
  t := by rw [h.t, List.append_nil]

theorem Serving.clean (h : Serving w) (hs : w.Scratch w₁) : Clean w₁ where
  nodup := by rw [hs.destroyed]; exact h.nodup
  sound := by rw [hs.t]; exact h.sound
  hangup := by rw [hs.t]; exact h.hangup

theorem Serving.noteNoRoom (h : Serving w) : Serving w.noteNoRoom :=
  h.frame ⟨rfl, rfl, rfl, le_rfl, rfl, rfl, id⟩ rfl rfl rfl h.buf

theorem Ctl.serving {p : Pc} (hp : p.Serves ∨ p = .build) (h : Ctl p w) : Serving w := by
  cases p with
  | loop | stopped => rcases hp with hp | hp <;> cases hp
  | line | parseLine | copyUri | headers | parseHeader => exact h.1.toServing
  | hand | build => exact h.toServing
  | write => exact h.1.toServing

theorem Responding.frame (h : Responding w) (hf : OpenFrame w w')
    (hc : w'.c = { w.c with ev := w'.c.ev }) (hevents : w'.c.ev.events = w.c.ev.events)
    (hr : w'.r = { w.r with response := { w.r.response with data := w'.r.response.data } })
    (htwo : w'.r.response.data.length = 2) (hsend : ∀ b ∈ w'.r.response.data, b.Sendable) :
    Responding w' where
  toServing := h.toServing.frame hf (by rw [hc]) (by rw [hr]) (by rw [hr]) (by rw [hc]; exact h.buf)
  mask := hevents.trans h.mask
  writeHandler := by rw [hc]; exact h.writeHandler
  two := htwo
  sendable := hsend
  last := by rw [hr]; exact h.last
  begin := by rw [hr]; exact h.begin

/-- Sending a part of the answer keeps the chain. -/
theorem Responding.wrote {last n : Nat} {b : Buf} {x : SendResult} (h : Responding w)
    (hb : w.r.response.data[last]? = some b) (hw : w.Wrote w₁ last b n x) : Responding w₁ := by
  obtain ⟨bs, -, ht⟩ := hw.t
  have hframe : OpenFrame w w₁ :=
    ⟨by rw [hw.c], hw.closed, by rw [hw.c], hw.k.pools.ge, by rw [ht], by rw [ht],
      by rw [ht]; exact id⟩
  have hdata : w₁.r.response.data = w.r.response.data.set last (b.advance n) := by rw [hw.r]
  refine h.frame hframe hw.c hw.events (by rw [hw.r]) ?_ ?_
  · rw [hdata, List.length_set]
    exact h.two
  · intro b' hb'
    rw [hdata] at hb'
    rcases List.mem_or_eq_of_mem_set hb' with hb' | rfl
    · exact h.sendable b' hb'
    · exact (h.sendable b (List.mem_of_getElem? hb)).advance n

/-- The chain of an answer is a buffer and a body. -/
theorem answered_two {ns : List (List UInt8)} {a : Answer} {f : File}
    (h : Answered ns w w₁ a f) :
    w₁.r.response.data.length = 2 ∧ ∀ b ∈ w₁.r.response.data, b.Sendable := by
  have hhead : ∀ hs : HeadersOut, (headOf hs).Sendable := by
    intro hs htype
    rw [(headOf_extends hs).eq] at htype
    exact absurd rfl htype
  have hbody : (a.body f).Sendable := by
    cases a with
    | page error => exact fun ht => absurd rfl ht
    | redirect => exact fun ht => absurd rfl ht
    | file name => exact fun _ => by simp [Answer.body, fileBody]
  rw [h.response]
  refine ⟨rfl, ?_⟩
  intro b hb
  rcases List.mem_cons.1 hb with rfl | hb
  · exact hhead _
  · rw [List.mem_singleton.1 hb]
    exact hbody

theorem Reading.writing {ns : List (List UInt8)} {a : Answer} {f : File} (h : Reading w)
    (ha : Answered ns w w₁ a f) : Responding w₁.writing := by
  have hs := ha.toFilling.scratch
  have htwo := answered_two ha
  have hframe : OpenFrame w w₁.writing :=
    ⟨hs.fd, by rw [show w₁.writing.c.ev.closed = w₁.c.ev.closed from rfl, ha.c], hs.pool,
      hs.k.pools.ge, hs.destroyed, by rw [show w₁.writing.t = w₁.t from rfl, hs.t],
      by rw [show w₁.writing.t = w₁.t from rfl, hs.t]; exact id⟩
  refine ⟨h.toServing.frame hframe ?_ hs.home hs.requestPool ?_, rfl, rfl, htwo.1, htwo.2, rfl, rfl⟩
  · rw [show w₁.writing.c.data = w₁.c.data from rfl, ha.c]
  · rw [show w₁.writing.c.buf = w₁.c.buf from rfl, ha.c]
    exact h.buf

/-- After the last byte of the answer, when the connection is registered again. -/
theorem Responding.idle {b : Buf} {pool : Nat} (h : Responding w) (hb : w.c.buf = some b)
    (hpool : w.r.pool = some pool) : Idle ((w.idle b pool).registered readMask true) := by
  obtain ⟨rp, hrp, hlt, hmem, hne⟩ := h.requestPool
  obtain ⟨cp, hcp, hclt, hcmem⟩ := h.toOpen.pool
  have hpr : rp = pool := Option.some.inj (hrp.symm.trans hpool)
  have hcr : cp = w.r.home := Option.some.inj (hcp.symm.trans h.home)
  subst hpr hcr
  have hin : InBuf b := by
    obtain ⟨b', hb', hin⟩ := h.buf
    rw [hb] at hb'
    cases hb'
    exact hin
  refine ⟨⟨⟨?_, h.sound, h.hangup⟩, h.fd, h.closed, ⟨_, hcp, hclt, ?_⟩, ?_⟩, rfl, rfl, rfl, rfl, rfl,
    moveUnread b, rfl, hin.moveUnread, rfl, ?_⟩
  · refine List.nodup_append.2 ⟨h.nodup, by simp, ?_⟩
    intro a ha c hc heq
    rw [List.mem_singleton.1 hc] at heq
    exact hmem (heq ▸ ha)
  · intro hd
    rcases List.mem_append.1 hd with hd | hd
    · exact hcmem hd
    · exact hne (List.mem_singleton.1 hd).symm
  · intro p hp
    rcases List.mem_append.1 hp with hp | hp
    · exact h.fresh p hp
    · rw [List.mem_singleton.1 hp]
      exact hlt
  · show b.unread ∈ w.t.keepAlives ++ [b.unread]
    simp

theorem Responding.closed_keepAlive {b : Buf} {pool : Nat} (h : Responding w)
    (hb : w.c.buf = some b) (hpool : w.r.pool = some pool) :
    Closed ((w.idle b pool).registered readMask false).closeConnection := by
  have hidle := h.idle hb hpool
  obtain ⟨cp, hcp, -, hcmem⟩ := hidle.toOpen.pool
  refine closed_closeConnection ⟨hidle.nodup, hidle.sound, hidle.hangup⟩ hcp hcmem

theorem Reads.ctl {p q : Pc} {b : Buf} (hread : Reads p q) (h : Ctl p w) (hw : Reading w')
    (hrh : w'.c.readHandler = w.c.readHandler) (hr : w'.r = w.r) (hb : w'.c.buf = some b)
    (hne : b.unread ≠ []) : Ctl q w' := by
  cases hread with
  | line => exact ⟨hw, hrh.trans h.2.1, b, hb, hne⟩
  | headers => exact ⟨hw, hrh.trans h.2.1, by rw [hr]; exact h.2.2⟩

theorem Reads.reading {p q : Pc} (hread : Reads p q) (h : Ctl p w) :
    Reading w ∧ (w.c.readHandler = .processRequestLine ∨
      w.c.readHandler = .processRequestHeaders ∧ w.r.parse.InHeaders) ∧
    ∀ b, w.c.buf = some b → b.unread = [] → w.c.readHandler = .processRequestLine →
      b.pos < b.size := by
  cases hread with
  | line =>
    obtain ⟨hreading, hrh, b, hb, hpos⟩ := h
    refine ⟨hreading, Or.inl hrh, fun b' hb' hnil _ => ?_⟩
    rw [hb] at hb'
    cases hb'
    exact hpos hnil
  | headers =>
    refine ⟨h.1, Or.inr h.2, fun b' _ _ hline => ?_⟩
    rw [h.2.1] at hline
    cases hline

theorem Reads.waiting {p q : Pc} {b : Buf} (hread : Reads p q) (h : Ctl p w) (hw : Reading w')
    (hrh : w'.c.readHandler = w.c.readHandler) (hr : w'.r = w.r) (hb : w.c.buf = some b)
    (hb' : w'.c.buf = some b) (hnil : b.unread = []) : Waiting w' := by
  obtain ⟨-, hreads, hpos⟩ := hread.reading h
  refine ⟨hw, by rw [hrh, hr]; exact hreads, b, hb', hnil, fun hline => hpos b hb hnil ?_⟩
  rw [← hrh]
  exact hline

theorem Reading.stored (h : Reading w) (hs : Stored w w₁) : Reading w₁ := by
  obtain ⟨b, hb, hc, -⟩ := hs.c
  obtain ⟨b', hb', hin⟩ := h.buf
  rw [hb] at hb'
  cases hb'
  have hframe : OpenFrame w w₁ :=
    ⟨by rw [hc], by rw [hc], by rw [hc], hs.k.pools.ge, by rw [hs.t], by rw [hs.t],
      by rw [hs.t]; exact id⟩
  refine h.frame hframe ?_ (by rw [hc]) hs.home hs.pool hs.headersOut hs.response ?_
  · rw [hc]
  · rw [hc]
    exact ⟨_, rfl, hin.putNul _⟩

theorem Reading.headerStored (h : Reading w) (hs : HeaderStored w w₁) : Reading w₁ := by
  obtain ⟨b, hb, hc⟩ := hs.c
  obtain ⟨b', hb', hin⟩ := h.buf
  rw [hb] at hb'
  cases hb'
  have hframe : OpenFrame w w₁ :=
    ⟨by rw [hc], by rw [hc], by rw [hc], hs.k.pools.ge, by rw [hs.t], by rw [hs.t],
      by rw [hs.t]; exact id⟩
  refine h.frame hframe ?_ (by rw [hc]) (by rw [hs.r]) (by rw [hs.r]) (by rw [hs.r])
    (by rw [hs.r]) ?_
  · rw [hc]
  · rw [hc]
    exact ⟨_, rfl, hin.terminateHeader _⟩

theorem Serving.inBuf {b : Buf} (h : Serving w) (hb : w.c.buf = some b) : InBuf b := by
  obtain ⟨b', hb', hin⟩ := h.buf
  rw [hb] at hb'
  cases hb'
  exact hin

theorem Reading.handing {b : Buf} (h : Reading w) : Reading (w.handing b) :=
  h.frame ⟨rfl, rfl, rfl, le_rfl, rfl, rfl, id⟩ rfl rfl rfl rfl rfl rfl h.buf

theorem Reading.onReadHandler {f : Connection → Connection}
    (hf : f w.c = { w.c with readHandler := (f w.c).readHandler }) (h : Reading w) :
    Reading (w.onC f) := by
  have hc : (w.onC f).c = f w.c := rfl
  refine h.frame ⟨?_, ?_, ?_, le_rfl, rfl, rfl, id⟩ ?_ ?_ rfl rfl rfl rfl ?_
  · rw [hc, hf]
  · rw [hc, hf]
  · rw [hc, hf]
  · rw [hc, hf]
  · rw [hc, hf]
  · rw [hc, hf]
    exact h.buf

theorem scratch_registered (w : World) :
    w.Scratch (w.responding.registered writeMask false) :=
  ⟨rfl, rfl, rfl, rfl, rfl, rfl, rfl, ⟨rfl, rfl, rfl, rfl, fun _ h => h⟩, rfl⟩

theorem closeBoth_reliable {cp : Nat} (hcp : w.c.pool = some cp) :
    w.closeBoth.k.Reliable ↔ w.k.Reliable := by
  have hc : w.closeRequest.c.pool = some cp := by rw [closeRequest_c]; exact hcp
  unfold World.closeBoth
  rw [World.closeConnection_eq hc]
  show (_ : Kernel).Reliable ↔ _
  simp only [Kernel.Reliable, World.closeFd, World.onK, World.destroyPool, World.onT, World.onC,
    closeRequest_k]

theorem InBuf.unread_append {b : Buf} {bs : List UInt8} (h : InBuf b) (hne : bs ≠ []) :
    (b.append bs).unread ≠ [] := by
  have hpos := h.pos
  have hlen : 0 < bs.length := List.length_pos_iff.2 hne
  refine List.ne_nil_of_length_pos ?_
  simp only [Buf.unread, Buf.append, Buf.last, List.length_drop, List.length_append] at *
  omega

theorem not_hangup_of_pos {k : Nat} (hk : 0 < k) : (k : Int) ≠ 0 ∧ (k : Int) ≠ EHD_ERROR := by
  unfold EHD_ERROR
  omega

/-- Every move keeps what is true at the points. -/
theorem Move.ctl {p q : Pc} (h : Ctl p w) (hm : Move (p, w) (q, w')) : Ctl q w' := by
  cases hm with
  | start hr hs =>
    have hin := inBuf_start hs
    refine ⟨reading_opened (Reported.open (start_open hs) hr) (hr.events.trans (start_mask hs))
      hin.1, rfl, _, rfl, fun _ => ?_⟩
    rw [hin.2, hin.1.size]
    decide
  | startFails hs hc =>
    have hopen := start_open hs
    obtain ⟨cp, hcp, -, hmem⟩ := hopen.pool
    refine .closed (closed_closeConnection ?_ (hc.pool.trans hcp) (by rw [hc.t]; exact hmem))
    exact ⟨by rw [hc.t]; exact hopen.nodup, by rw [hc.t]; exact hopen.sound,
      by rw [hc.t]; exact hopen.hangup⟩
  | startCloses hr hs hb hsc =>
    have hreading := reading_opened (n := ‹List Allocation›) (Reported.open (start_open hs) hr)
      (hr.events.trans (start_mask hs)) hb
    exact .closed (hreading.toServing.closed_closeBoth hsc)
  | resumeLine hr hw hrh =>
    -- only the flags of the event have changed
    obtain ⟨b, hb, hnil, hpos⟩ := hw.unread
    have hrh' : w'.c.readHandler = .processRequestLine := by rw [hr.c]; exact hrh
    have hb' : w'.c.buf = some b := by rw [hr.c]; exact hb
    exact ⟨hw.toReading.reported hr, hrh', b, hb', fun _ => hpos hrh⟩
  | resumeHeaders hr hw hrh =>
    have hin : w.r.parse.InHeaders := by
      rcases hw.readHandler with hline | hin
      · rw [hrh] at hline
        cases hline
      · exact hin.2
    exact ⟨hw.toReading.reported hr, by rw [hr.c]; exact hrh, by rw [hr.r]; exact hin⟩
  | resumeWrite hr hw =>
    refine ⟨hw.frame (openFrame_reported hr) hr.c hr.events (by rw [hr.r]) ?_ ?_, by omega⟩
    · rw [hr.r]
      exact hw.two
    · rw [hr.r]
      exact hw.sendable
  | «have» hread hb hne => exact hread.ctl h (hread.reading h).1 rfl rfl hb hne
  | @recv _ _ _ w₁ b bs hread hb hnil _ ht hne hlen =>
    have hreading := ((hread.reading h).1.took ht).noteRecv (b := b)
      (fun _ => not_hangup_of_pos (List.length_pos_iff.2 hne))
    have hin := ((hread.reading h).1.toServing.inBuf hb).append hlen
    refine hread.ctl h (hreading.setBuf hin) ?_ ht.r rfl
      (((hread.reading h).1.toServing.inBuf hb).unread_append hne)
    show w₁.c.readHandler = w.c.readHandler
    rw [ht.c]
  | idle hread hb hnil => exact .waiting (hread.waiting h (hread.reading h).1 rfl rfl hb hb hnil)
  | @wait _ _ _ w₁ b hread hb hnil _ ht =>
    have hreading := ((hread.reading h).1.took ht).noteRecv (b := b) (n := EHD_AGAIN)
      (fun _ => by decide)
    refine .waiting (hread.waiting h hreading ?_ ht.r hb ?_ hnil)
    · show w₁.c.readHandler = w.c.readHandler
      rw [ht.c]
    · show w₁.c.buf = some b
      rw [ht.c]
      exact hb
  | hangup _ _ ht hn =>
    -- in the request line everything is released once
    have hreading := h.1.took ht
    have hline := h.2.1
    refine .closed ((hreading.noteRecv fun hh => ?_).toServing.closed_closeBoth (.refl _))
    rw [ht.c, hline] at hh
    cases hh
  | hangupTwice _ _ ht hn => exact .closed (h.1.closed_twice h.2.1 ht hn)
  | fail hp hs => exact .closed ((h.serving (Or.inl hp)).closed_closeBoth hs)
  | noRoom hfull hs =>
    exact .closed ((h.serving (Or.inl hfull.serves)).noteNoRoom.closed_closeBoth hs)
  | lineMore hb hp hpos =>
    have hin := (h.1.toServing.inBuf hb).advances (parseRequestLine_advances hp)
    refine ⟨h.1.parsed hin, h.2.1, _, rfl, fun _ => ?_⟩
    have := hin.pos
    have := hin.last
    omega
  | @lineDone _ _ b' _ hb hp =>
    -- a line that is done leaves the parser in its first state
    obtain ⟨r', -, hdone⟩ := parseRequestLine_ok hp
    refine ⟨h.1.parsed ((h.1.toServing.inBuf hb).advances (parseRequestLine_advances hp)), ?_⟩
    have hstate := (requestLineDone_spec r' b'.pos).2
    rw [hdone] at hstate
    exact hstate
  | stored hs =>
    obtain ⟨b, -, hc, -⟩ := hs.c
    refine ⟨Reading.stored h.1 hs, by rw [hc], ?_⟩
    unfold ParseState.InHeaders
    rw [hs.parse]
    show (HeaderLineSw.ofUint w.r.parse.state).final = false
    rw [h.2]
    rfl
  | headerNext => exact h
  | headerMore hb hp =>
    exact ⟨h.1.parsed ((h.1.toServing.inBuf hb).advances (parseHeaderLine_advances hp)), h.2.1,
      parseHeaderLine_inHeaders hp (Or.inr rfl)⟩
  | @headerDone _ _ _ _ p hb hp hs =>
    have hreading := h.1.parsed (p := p) ((h.1.toServing.inBuf hb).advances (parseHeaderLine_advances hp))
    obtain ⟨b, -, hc⟩ := hs.c
    refine ⟨hreading.headerStored hs, by rw [hc]; exact h.2.1, ?_⟩
    rw [hs.r]
    exact parseHeaderLine_inHeaders hp (Or.inl rfl)
  | headersDone hb hp =>
    exact (h.1.parsed ((h.1.toServing.inBuf hb).advances (parseHeaderLine_advances hp))).onReadHandler rfl
  | hand hb => exact Reading.handing h
  | build ha => exact ⟨Reading.writing h ha, by omega⟩
  | @buildStops _ w₁ f ha hr =>
    -- everything has been released when the writer goes on
    have hs := ha.toFilling.scratch
    have hs' := hs.trans (scratch_registered w₁)
    refine ⟨(Reading.toServing h).clean_closeBoth hs', fun hr' => ?_⟩
    rw [closeBoth_reliable (hs'.pool.trans (Reading.toServing h).home), hs'.k.reliable] at hr'
    exact absurd hr' hr.not_reliable
  | sent hb hw _ hlt => exact ⟨h.1.wrote hb hw, hlt⟩
  | full hb hw _ => exact .responding (h.1.wrote hb hw)
  | keepAlive hb hw _ hbuf hpool => exact .idle ((h.1.wrote hb hw).idle hbuf hpool)
  | keepAliveFails hb hw _ hbuf hpool _ =>
    exact .closed ((h.1.wrote hb hw).closed_keepAlive hbuf hpool)
  | stop hp hs => exact ⟨(h.serving (Or.inl hp)).clean hs, fun _ => rfl⟩
  | buildFails hs hr =>
    exact ⟨(Reading.toServing h).clean hs, fun hr' => absurd hr' hr.not_reliable⟩

end Ehd.Http
