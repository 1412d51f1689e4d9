import Ehttpd.Http.RequestPath

namespace Ehd

theorem readAt_append (fd : Int) (offset : Nat) (bs bs' : List UInt8) :
    readAt fd offset (bs ++ bs') = readAt fd offset bs ++ readAt fd (offset + bs.length) bs' := by
  unfold readAt
  rw [List.mapIdx_append]
  congr 1
  apply List.mapIdx_eq_mapIdx_iff.2
  intro i hi
  rw [Nat.add_comm i, Nat.add_assoc]

namespace Buf

/-- The bytes `bs` are the first that were sent from a buffer: from memory the next bytes, from a
file the bytes from `sys_offset` on, with none left out and none twice. -/
structure Gave (b : Buf) (bs : List UInt8) (fs : List FileByte) : Prop where
  fits : bs.length ≤ b.left
  memory : b.type = 0 → bs <+: b.unread
  file : fs = b.origin bs

variable {b : Buf} {bs bs' : List UInt8} {fs : List FileByte}

theorem gave_nil (b : Buf) : b.Gave [] [] :=
  ⟨Nat.zero_le _, fun _ => List.nil_prefix, (origin_nil b).symm⟩

theorem origin_append (b : Buf) (bs bs' : List UInt8) :
    b.origin (bs ++ bs') = b.origin bs ++ (b.advance bs.length).origin bs' := by
  unfold origin
  rw [advance_type]
  by_cases htype : b.type = 0
  · rw [if_pos htype, if_pos htype, if_pos htype, List.append_nil]
  · rw [if_neg htype, if_neg htype, if_neg htype]
    unfold advance
    rw [if_neg htype]
    cases b.file with
    | none => rfl
    | some f => exact readAt_append _ _ _ _

/-- More bytes from the buffer as it is then. -/
theorem Gave.append (h : b.Gave bs fs) (hfits : bs'.length ≤ (b.advance bs.length).left)
    (hmemory : b.type = 0 → bs' = (b.advance bs.length).unread.take bs'.length) :
    b.Gave (bs ++ bs') (fs ++ (b.advance bs.length).origin bs') := by
  have hle := h.fits
  rw [left_advance] at hfits
  constructor
  · rw [List.length_append]
    omega
  · intro htype
    obtain ⟨rest, hrest⟩ := h.memory htype
    have hunread : (b.advance bs.length).unread = rest := by
      unfold advance
      rw [if_pos htype]
      show b.bytes.drop (b.pos + bs.length) = rest
      rw [← List.drop_drop]
      show b.unread.drop bs.length = rest
      rw [← hrest, List.drop_left]
    have htake := hmemory htype
    rw [hunread] at htake
    rw [← hrest, List.prefix_append_right_inj, htake]
    exact List.take_prefix _ _
  · rw [origin_append, ← h.file]

end Buf

namespace Http

open Program World

variable {w w' w₁ : World} {C : List UInt8}

structure Reply where
  head : Buf
  body : Buf

def Reply.length (r : Reply) : Nat := r.head.left + r.body.left

/-- The bytes `bs` of an answer have been sent, and those at `fs` were read from a file: a part
of the head, or the head and a part of the body. -/
inductive Reply.Sent (r : Reply) : List UInt8 → List FileByte → Prop
  | head {bs : List UInt8} : bs <+: r.head.bytes → Sent r bs []
  | body {bs : List UInt8} {fs : List FileByte} : r.body.Gave bs fs →
      Sent r (r.head.bytes ++ bs) fs

def Reply.Declares (r : Reply) : Prop :=
  ∃ (h : HeadersOut) (ts : List TableData),
    r.head.bytes = statusLine h ++ (ts.flatMap encodeHeader ++ CRLF) ∧
    ∃ t ∈ ts, t.key.bytes = ascii "Content-Length" ∧ t.value.bytes = decimal r.body.left

/-- The answer to the request `r`, for what `stat` and `open` say of its path. -/
def replyTo (conf : Conf) (r : Request) (k : Kernel) (f : File) : Reply where
  head := headOf ((answer conf r k).headersOut conf r.uri freshHeadersOut f)
  body := (answer conf r k).body f

/-- The answer is one that the handlers give to the request `x`, whose path is in `r->uri`. -/
def Reply.Answers (conf : Conf) (a : Reply) (x : Handed) : Prop :=
  ∃ r k f b, x = handedOver r b ∧ f.Opened ∧ a = replyTo conf r k f ∧ PathFor x.uri r.uri ∧
    r.uri.len ≤ 4097

structure Transfer where
  reply : Reply
  sent : List UInt8
  read : List FileByte

def Transfer.Partly (d : Transfer) : Prop := d.reply.Sent d.sent d.read

/-- All of the answer has been sent, and its head says how long the body is. -/
structure Transfer.Whole (d : Transfer) : Prop where
  partly : d.Partly
  length : d.sent.length = d.reply.length
  declares : d.reply.Declares

def ends : Nat → List Transfer → List Nat
  | _, [] => []
  | n, d :: ds => (n + d.sent.length) :: ends (n + d.sent.length) ds

theorem ends_concat (n : Nat) (ds : List Transfer) (d : Transfer) :
    ends n (ds ++ [d]) = ends n ds ++ [n + ((ds ++ [d]).flatMap Transfer.sent).length] := by
  induction ds generalizing n with
  | nil => simp [ends]
  | cons x ds ih =>
    rw [List.cons_append, ends, ih, ends, List.cons_append, List.flatMap_cons, List.length_append,
      Nat.add_assoc]

/-- What the kernel has accepted: the answers `done`, and a part of the answer `now`; they
answer the requests `asked`. -/
structure OnWire (w : World) (asked : List Handed) (done : List Transfer) (now : Option Transfer) :
    Prop where
  sent : w.t.sent = (done ++ now.toList).flatMap Transfer.sent
  read : w.t.fromFile = (done ++ now.toList).flatMap Transfer.read
  answers : List.Forall₂ (Reply.Answers w.conf) ((done ++ now.toList).map Transfer.reply) asked
  partly : ∀ d ∈ now, d.Partly
  whole : ∀ d ∈ done, d.Whole
  keptAt : w.t.keptAt = ends 0 done
  keepAlives : w.t.keepAlives.length = done.length

section

variable {conf : Conf} {uri : Str} {f : File}

theorem pageHeaders_length (h : HeadersOut) (error : Nat) :
    (pageHeaders h error).contentLengthN = ((pageBody error).left : Int) := by
  show (((pageBody error).last - (pageBody error).pos : Nat) : Int) =
    (((pageBody error).bytes.drop (pageBody error).pos).length : Int)
  rw [List.length_drop]
  rfl

theorem pageBody_left_le (error : Nat) : (pageBody error).left ≤ 2000 := by
  have hle := @page_length_le error
  show ((pageBody error).bytes.drop (pageBody error).pos).length ≤ 2000
  rw [List.length_drop]
  exact (Nat.sub_le _ _).trans hle

theorem contentLengthN_eq (hf : f.Opened) (a : Answer) :
    (a.headersOut conf uri freshHeadersOut f).contentLengthN = ((a.body f).left : Int) := by
  cases a with
  | page error => exact pageHeaders_length _ _
  | redirect => exact pageHeaders_length _ _
  | file name =>
    show ((f.size : Nat) : Int) = ((f.size - f.sysOffset : Nat) : Int)
    rw [hf.offset, Nat.sub_zero]

theorem body_left_lt (hf : f.Opened) (a : Answer) : (a.body f).left < 2 ^ 63 := by
  cases a with
  | page error => exact lt_of_le_of_lt (pageBody_left_le error) (by omega)
  | redirect => exact lt_of_le_of_lt (pageBody_left_le EHD_HTTP_MOVED_TEMPORARILY) (by omega)
  | file name =>
    have hsize := hf.size
    show f.size - f.sysOffset < _
    omega

theorem headOf_answer (hf : f.Opened) (hshort : uri.len ≤ 4097) (a : Answer) {h : HeadersOut}
    (hh : h = a.headersOut conf uri freshHeadersOut f) (hline : (statusLine h).length ≤ 14) :
    (headOf h).bytes = statusLine h ++ ((finalHeaders h).entries.flatMap encodeHeader ++ CRLF) := by
  have hcost := (listed_answer conf uri hf a).cost
  have hkey : (ehdString "Location").len = 8 := by decide
  have hlocation : headerCost (location conf uri) = 8 + (uri.len + 1) + 4 := by
    unfold headerCost location
    rw [hkey]
  rw [← hh] at hcost
  apply headOf_eq
  omega

theorem replyTo_head (conf : Conf) (r : Request) (k : Kernel) (f : File) :
    (replyTo conf r k f).head.type = 0 ∧ (replyTo conf r k f).head.pos = 0 := by
  unfold replyTo
  rw [(headOf_extends _).eq]
  exact ⟨rfl, rfl⟩

/-- A body that is not empty is declared. -/
theorem replyTo_declares {r : Request} {k : Kernel} (hf : f.Opened) (hshort : r.uri.len ≤ 4097)
    (hbody : 0 < (replyTo conf r k f).body.left) : (replyTo conf r k f).Declares := by
  obtain ⟨h, hh⟩ : ∃ h, h = (answer conf r k).headersOut conf r.uri freshHeadersOut f := ⟨_, rfl⟩
  have hstatus : h.status < 1000 := by
    rw [hh]
    exact answer_status _ _ _ _ _
  have hnone : h.statusLine = none ∧ h.server = none ∧ h.contentLength = none := by
    rw [hh]
    cases answer conf r k <;> exact ⟨rfl, rfl, rfl⟩
  have hn : h.contentLengthN = ((replyTo conf r k f).body.left : Int) := by
    rw [hh]
    exact contentLengthN_eq hf _
  have hhead := headOf_answer hf hshort _ hh (statusLine_length_le hnone.1 hstatus)
  have hkey : (ehdString "Content-Length").bytes = ascii "Content-Length" := by decide
  refine ⟨h, (finalHeaders h).entries, ?_, contentLengthHeader (replyTo conf r k f).body.left, ?_,
    hkey, contentLengthHeader_value (body_left_lt hf _)⟩
  · rw [← hhead, hh]
    rfl
  · rw [finalHeaders_entries hnone.2.1 hnone.2.2, hn, if_pos (by omega), Int.toNat_natCast]
    exact List.mem_append_right _ (List.mem_cons_of_mem _ List.mem_cons_self)

end

/-- The writer has reached the buffer at place `last` of the answer of `d`. -/
structure Midway (w : World) (done : List Transfer) (d : Transfer) (last : Nat) : Prop where
  wire : OnWire w w.t.handed done (some d)
  declares : 0 < d.reply.body.left → d.reply.Declares
  memory : d.reply.head.type = 0
  start : d.reply.head.pos = 0
  chain : w.r.response.data = chainAfter d.reply.head d.reply.body d.sent.length
  place : last = 1 → d.reply.head.left ≤ d.sent.length

section

variable {r : Reply} {sent bs : List UInt8} {read : List FileByte} {b : Buf} {last n : Nat}

theorem Reply.left_eq (hmemory : r.head.type = 0) (hstart : r.head.pos = 0) :
    r.head.left = r.head.bytes.length := by
  unfold Buf.left Buf.unread
  rw [if_pos hmemory, hstart, List.drop_zero]

theorem Reply.Sent.length_le (h : r.Sent sent read) (hmemory : r.head.type = 0)
    (hstart : r.head.pos = 0) : sent.length ≤ r.length := by
  have hleft := Reply.left_eq hmemory hstart
  unfold Reply.length
  cases h with
  | head hsent =>
    have := hsent.length_le
    omega
  | body hgave =>
    have := hgave.fits
    rw [List.length_append]
    omega

/-- The next bytes, from the buffer that the writer has reached. -/
theorem Reply.Sent.append (h : r.Sent sent read) (hmemory : r.head.type = 0)
    (hstart : r.head.pos = 0) (hlast : last < 2) (hplace : last = 1 → r.head.left ≤ sent.length)
    (hb : (chainAfter r.head r.body sent.length)[last]? = some b) (hfits : bs.length ≤ b.left)
    (hnext : b.type = 0 → bs = b.unread.take bs.length) :
    r.Sent (sent ++ bs) (read ++ b.origin bs) := by
  have hleft := Reply.left_eq hmemory hstart
  obtain rfl | rfl : last = 0 ∨ last = 1 := by omega
  · -- from the head
    obtain rfl : r.head.advance (min sent.length r.head.left) = b := Option.some.inj hb
    rw [Buf.left_advance] at hfits
    cases h with
    | head hsent =>
      obtain ⟨rest, hrest⟩ := hsent
      have hle : sent.length ≤ r.head.bytes.length := by
        rw [← hrest, List.length_append]
        exact Nat.le_add_right _ _
      have hmin : min sent.length r.head.left = sent.length := by omega
      rw [hmin] at hnext ⊢
      have hunread : (r.head.advance sent.length).unread = rest := by
        unfold Buf.advance Buf.unread
        rw [if_pos hmemory]
        show r.head.bytes.drop (r.head.pos + sent.length) = rest
        rw [hstart, Nat.zero_add, ← hrest, List.drop_left]
      have hbs := hnext (by rw [Buf.advance_type]; exact hmemory)
      rw [hunread] at hbs
      have horigin : (r.head.advance sent.length).origin bs = [] := by
        unfold Buf.origin
        rw [if_pos (by rw [Buf.advance_type]; exact hmemory)]
      rw [horigin]
      apply Reply.Sent.head
      rw [← hrest, List.prefix_append_right_inj, hbs]
      exact List.take_prefix _ _
    | @body bs₀ _ hgave =>
      -- nothing is left of it
      rw [List.length_append] at hfits
      have hnil : bs = [] := List.length_eq_zero_iff.1 (by omega)
      rw [hnil, List.append_nil, Buf.origin_nil, List.append_nil]
      exact .body hgave
  · -- from the body
    obtain rfl : r.body.advance (sent.length - r.head.left) = b := Option.some.inj hb
    have hreached := hplace rfl
    have hgo : ∀ {bs₀ : List UInt8}, r.body.Gave bs₀ read → sent = r.head.bytes ++ bs₀ →
        r.Sent (sent ++ bs) (read ++ (r.body.advance (sent.length - r.head.left)).origin bs) := by
      intro bs₀ hgave hsent
      have hlen : sent.length - r.head.left = bs₀.length := by
        rw [hsent, List.length_append]
        omega
      rw [hlen] at hfits hnext ⊢
      rw [Buf.advance_type] at hnext
      rw [hsent, List.append_assoc]
      exact .body (hgave.append hfits hnext)
    cases h with
    | head hsent =>
      have hwhole : sent = r.head.bytes := hsent.eq_of_length_le (by omega)
      exact hgo (Buf.gave_nil _) (by rw [List.append_nil]; exact hwhole)
    | body hgave => exact hgo hgave rfl

theorem chainAfter_set (head body : Buf) {acc : Nat} (hlast : last < 2)
    (hplace : last = 1 → head.left ≤ acc) (hb : (chainAfter head body acc)[last]? = some b)
    (hfits : n ≤ b.left) :
    (chainAfter head body acc).set last (b.advance n) = chainAfter head body (acc + n) := by
  obtain rfl | rfl : last = 0 ∨ last = 1 := by omega
  · obtain rfl : head.advance (min acc head.left) = b := Option.some.inj hb
    rw [Buf.left_advance] at hfits
    show [(head.advance (min acc head.left)).advance n, body.advance (acc - head.left)] =
      [head.advance (min (acc + n) head.left), body.advance (acc + n - head.left)]
    rw [Buf.advance_advance, show min acc head.left + n = min (acc + n) head.left by omega,
      show acc - head.left = acc + n - head.left by omega]
  · obtain rfl : body.advance (acc - head.left) = b := Option.some.inj hb
    have hreached := hplace rfl
    show [head.advance (min acc head.left), (body.advance (acc - head.left)).advance n] =
      [head.advance (min (acc + n) head.left), body.advance (acc + n - head.left)]
    rw [Buf.advance_advance, show min acc head.left = min (acc + n) head.left by omega,
      show acc - head.left + n = acc + n - head.left by omega]

end

section

variable {done : List Transfer} {d : Transfer} {last n : Nat} {b : Buf} {x : SendResult}

/-- The answer after one more transfer: at the end of the head the body is next, and at the end
of the body nothing is left. -/
theorem Midway.wrote (h : Midway w done d last) (hlast : last < 2)
    (hb : w.r.response.data[last]? = some b) (hw : w.Wrote w' last b n x) (hn : n ≤ b.left) :
    ∃ d', d'.reply = d.reply ∧ Midway w' done d' last ∧
      (n = b.left → d.reply.head.left ≤ d'.sent.length ∧
        (last = 1 → d'.sent.length = d.reply.length)) := by
  obtain ⟨bs, hbs, ht⟩ := hw.t
  have hchain := h.chain
  rw [hchain] at hb
  have hnext : b.type = 0 → bs = b.unread.take bs.length := by
    intro htype
    have hmemory := hw.memory htype
    rw [ht, ← hbs] at hmemory
    exact List.append_cancel_left hmemory
  have hfits : bs.length ≤ b.left := by
    rw [hbs]
    exact hn
  have hlen : (d.sent ++ bs).length = d.sent.length + n := by
    rw [List.length_append, hbs]
  have hwire := h.wire
  refine ⟨⟨d.reply, d.sent ++ bs, d.read ++ b.origin bs⟩, rfl, ?_, ?_⟩
  · refine ⟨⟨?_, ?_, ?_, ?_, hwire.whole, ?_, ?_⟩, h.declares, h.memory, h.start, ?_, ?_⟩
    · rw [ht]
      show w.t.sent ++ bs = _
      rw [hwire.sent]
      simp
    · rw [ht]
      show w.t.fromFile ++ b.origin bs = _
      rw [hwire.read]
      simp
    · have hhanded : w'.t.handed = w.t.handed := by rw [ht]
      have hsame : (done ++ (some (⟨d.reply, d.sent ++ bs, d.read ++ b.origin bs⟩ :
          Transfer)).toList).map Transfer.reply = (done ++ (some d).toList).map Transfer.reply := by
        simp
      rw [hhanded, hsame, hw.conf]
      exact hwire.answers
    · intro d' hd'
      cases hd'
      exact (hwire.partly d rfl).append h.memory h.start hlast h.place hb hfits hnext
    · rw [ht]
      exact hwire.keptAt
    · rw [ht]
      exact hwire.keepAlives
    · rw [hw.r]
      show w.r.response.data.set last (b.advance n) = _
      rw [hchain, chainAfter_set _ _ hlast h.place hb hn, ← hlen]
    · intro hone
      rw [hlen]
      exact (h.place hone).trans (Nat.le_add_right _ _)
  · intro hall
    -- what is left of this buffer is what the bytes sent so far leave of it
    obtain rfl | rfl : last = 0 ∨ last = 1 := by omega
    · obtain rfl : d.reply.head.advance (min d.sent.length d.reply.head.left) = b :=
        Option.some.inj hb
      rw [Buf.left_advance] at hall
      refine ⟨?_, fun hone => absurd hone (by decide)⟩
      show _ ≤ (d.sent ++ bs).length
      omega
    · obtain rfl : d.reply.body.advance (d.sent.length - d.reply.head.left) = b :=
        Option.some.inj hb
      have hreached := h.place rfl
      have hle := (hwire.partly d rfl).length_le h.memory h.start
      unfold Reply.length at hle
      rw [Buf.left_advance] at hall
      refine ⟨?_, fun _ => ?_⟩
      · show _ ≤ (d.sent ++ bs).length
        omega
      · show (d.sent ++ bs).length = d.reply.head.left + d.reply.body.left
        omega

end

structure SameWire (w w' : World) : Prop where
  conf : w'.conf = w.conf
  sent : w'.t.sent = w.t.sent
  fromFile : w'.t.fromFile = w.t.fromFile
  keptAt : w'.t.keptAt = w.t.keptAt
  keepAlives : w'.t.keepAlives = w.t.keepAlives
  handed : w'.t.handed = w.t.handed

/-- No answer is on its way, and a path that has been stored is not long. -/
structure Quiet (w : World) (done : List Transfer) : Prop where
  wire : OnWire w w.t.handed done none
  short : w.c.readHandler = .processRequestHeaders → w.r.uri.len ≤ 4097

def Ended (w : World) : Prop :=
  ∃ asked done now rest, OnWire w asked done now ∧ w.t.handed = asked ++ rest ∧ rest.length ≤ 1

def Wire : Pc → World → Prop
  | .loop, w => w.c.fd = -1 ∧ Ended w ∨ w.c.ev.events = readMask ∧ (∃ done, Quiet w done) ∨
      w.c.ev.events = writeMask ∧ ∃ done d, Midway w done d 0
  | .hand, w => (∃ done, Quiet w done) ∧ w.r.uri.len ≤ 4097
  | .build, w => ∃ asked done b, OnWire w asked done none ∧
      w.t.handed = asked ++ [handedOver w.r b] ∧ w.r.uri.len ≤ 4097
  | .write last, w => ∃ done d, Midway w done d last
  | .stopped _, w => Ended w
  | _, w => ∃ done, Quiet w done

section

variable {asked : List Handed} {done : List Transfer} {now : Option Transfer} {d : Transfer}
  {p q : Pc}

theorem SameWire.trans {w'' : World} (h : SameWire w w') (h' : SameWire w' w'') : SameWire w w'' :=
  ⟨h'.conf.trans h.conf, h'.sent.trans h.sent, h'.fromFile.trans h.fromFile,
    h'.keptAt.trans h.keptAt,
    h'.keepAlives.trans h.keepAlives, h'.handed.trans h.handed⟩

theorem sameWire_of_t (h : w'.t = w.t) (hconf : w'.conf = w.conf) : SameWire w w' := by
  refine ⟨hconf, ?_, ?_, ?_, ?_, ?_⟩ <;> rw [h]

theorem Scratch.sameWire (h : w.Scratch w') : SameWire w w' := by
  refine ⟨h.conf, ?_, ?_, ?_, ?_, ?_⟩ <;> rw [h.t]

theorem Filling.sameWire {ns : List (List UInt8)} (h : w.Filling ns w') : SameWire w w' :=
  Scratch.sameWire h.scratch

theorem Took.sameWire {bs : List UInt8} (h : w.Took w' bs) : SameWire w w' := by
  refine ⟨h.conf, ?_, ?_, ?_, ?_, ?_⟩ <;> rw [h.t]

theorem sameWire_closeConnection (w : World) : SameWire w w.closeConnection := by
  unfold World.closeConnection
  split
  · exact ⟨rfl, rfl, rfl, rfl, rfl, rfl⟩
  · exact ⟨rfl, rfl, rfl, rfl, rfl, rfl⟩

theorem sameWire_closeBoth (w : World) : SameWire w w.closeBoth := by
  have hrequest : SameWire w w.closeRequest := by
    unfold World.closeRequest World.touch
    split
    · split <;> exact ⟨rfl, rfl, rfl, rfl, rfl, rfl⟩
    · split <;> exact ⟨rfl, rfl, rfl, rfl, rfl, rfl⟩
  exact hrequest.trans (sameWire_closeConnection _)

theorem OnWire.same (h : OnWire w asked done now) (hs : SameWire w w') :
    OnWire w' asked done now where
  sent := by rw [hs.sent]; exact h.sent
  read := by rw [hs.fromFile]; exact h.read
  answers := by rw [hs.conf]; exact h.answers
  partly := h.partly
  whole := h.whole
  keptAt := by rw [hs.keptAt]; exact h.keptAt
  keepAlives := by rw [hs.keepAlives]; exact h.keepAlives

theorem Ended.same (h : Ended w) (hs : SameWire w w') : Ended w' := by
  obtain ⟨asked, done, now, rest, hwire, hrest⟩ := h
  exact ⟨asked, done, now, rest, hwire.same hs, by rw [hs.handed]; exact hrest⟩

theorem Quiet.same (h : Quiet w done) (hs : SameWire w w')
    (hshort : w'.c.readHandler = .processRequestHeaders → w'.r.uri.len ≤ 4097) : Quiet w' done where
  wire := by rw [hs.handed]; exact h.wire.same hs
  short := hshort

theorem Quiet.ended (h : Quiet w done) : Ended w :=
  ⟨_, done, none, [], h.wire, (List.append_nil _).symm, Nat.zero_le _⟩

theorem Midway.ended {last : Nat} (h : Midway w done d last) : Ended w :=
  ⟨_, done, some d, [], h.wire, (List.append_nil _).symm, Nat.zero_le _⟩

theorem Wire.ended (h : Wire p w) : Ended w := by
  cases p with
  | loop =>
    rcases h with ⟨-, h⟩ | ⟨-, done, h⟩ | ⟨-, done, d, h⟩
    · exact h
    · exact h.ended
    · exact h.ended
  | hand =>
    obtain ⟨⟨done, h⟩, -⟩ := h
    exact h.ended
  | build =>
    obtain ⟨asked, done, b, h, hhanded, -⟩ := h
    exact ⟨asked, done, none, _, h, hhanded, Nat.le_refl 1⟩
  | write last =>
    obtain ⟨done, d, h⟩ := h
    exact h.ended
  | stopped e => exact h
  | line | parseLine | copyUri | headers rc | parseHeader =>
    obtain ⟨done, h⟩ := h
    exact h.ended

theorem wire_closed (h : Wire p w) (hs : SameWire w w') (hfd : w'.c.fd = -1) : Wire .loop w' :=
  Or.inl ⟨hfd, h.ended.same hs⟩

theorem Wire.reads (h : Wire .loop w) (hfd : w.c.fd ≠ -1) (hmask : w.c.ev.events = readMask) :
    ∃ done, Quiet w done := by
  rcases h with ⟨hc, -⟩ | ⟨-, h⟩ | ⟨hc, -⟩
  · exact absurd hc hfd
  · exact h
  · rw [hmask] at hc
    exact absurd hc (by decide)

theorem Wire.writes (h : Wire .loop w) (hfd : w.c.fd ≠ -1) (hmask : w.c.ev.events = writeMask) :
    ∃ done d, Midway w done d 0 := by
  rcases h with ⟨hc, -⟩ | ⟨hc, -⟩ | ⟨-, h⟩
  · exact absurd hc hfd
  · rw [hmask] at hc
    exact absurd hc (by decide)
  · exact h

/-- The answer to the request that has just been handed over. -/
theorem midway_start {f : File} {ns : List (List UInt8)} {b : Buf}
    (hreading : Reading w) (hwire : OnWire w asked done none)
    (hhanded : w.t.handed = asked ++ [handedOver w.r b])
    (hpath : PathFor (handedOver w.r b).uri w.r.uri) (hshort : w.r.uri.len ≤ 4097)
    (ha : Answered ns w w₁ (answer w.conf w.r w.k) f) :
    Midway w₁.writing done ⟨replyTo w.conf w.r w.k f, [], []⟩ 0 := by
  have hsame : SameWire w w₁.writing :=
    (Filling.sameWire ha.toFilling).trans ⟨rfl, rfl, rfl, rfl, rfl, rfl⟩
  have hkept := hwire.same hsame
  obtain ⟨htype, hpos⟩ := replyTo_head w.conf w.r w.k f
  refine ⟨⟨?_, ?_, ?_, ?_, hkept.whole, hkept.keptAt, hkept.keepAlives⟩,
    replyTo_declares ha.opened hshort, htype, hpos, ?_, fun h => absurd h (by decide)⟩
  · rw [hkept.sent]
    simp
  · rw [hkept.read]
    simp
  · rw [hsame.handed, hhanded]
    have hanswers : (replyTo w.conf w.r w.k f).Answers w.conf (handedOver w.r b) :=
      ⟨w.r, w.k, f, b, rfl, ha.opened, rfl, hpath, hshort⟩
    have hall := List.rel_append hwire.answers (List.Forall₂.cons hanswers .nil)
    have hconf : w₁.writing.conf = w.conf := ha.conf
    rw [hconf]
    simpa using hall
  · intro d hd
    cases hd
    exact .head List.nil_prefix
  · show w₁.r.response.data = _
    rw [ha.response, hreading.headersOut]
    unfold chainAfter
    rw [List.length_nil, Nat.zero_min, Nat.zero_sub, Buf.advance_zero, Buf.advance_zero]
    rfl

/-- `ehd_http_keep_alive` is called where the answer ends. -/
theorem Midway.keepAlive {last : Nat} {mask : UInt32} {ok : Bool} {b : Buf} {pool : Nat}
    (h : Midway w done d last) (hlen : d.sent.length = d.reply.length)
    (hbody : 0 < d.reply.body.left) :
    Quiet ((w.idle b pool).registered mask ok) (done ++ [d]) := by
  have hwire := h.wire
  refine ⟨⟨?_, ?_, ?_, ?_, ?_, ?_, ?_⟩, fun hrh => ?_⟩
  · show w.t.sent = _
    rw [hwire.sent]
    simp
  · show w.t.fromFile = _
    rw [hwire.read]
    simp
  · have hall := hwire.answers
    simpa using hall
  · intro d' hd'
    cases hd'
  · intro d' hd'
    rcases List.mem_append.1 hd' with hd' | hd'
    · exact hwire.whole d' hd'
    · rw [List.mem_singleton.1 hd']
      exact ⟨hwire.partly d rfl, hlen, h.declares hbody⟩
  · show w.t.keptAt ++ [w.t.sent.length] = _
    rw [ends_concat, hwire.keptAt, hwire.sent, Nat.zero_add]
    rfl
  · show (w.t.keepAlives ++ [b.unread]).length = _
    rw [List.length_append, List.length_append, hwire.keepAlives]
    rfl
  · cases hrh

theorem Midway.body_pos {last : Nat} {b : Buf} (h : Midway w done d last)
    (hb : w.r.response.data[1]? = some b) (hpos : 0 < b.left) : 0 < d.reply.body.left := by
  rw [h.chain] at hb
  obtain rfl : d.reply.body.advance (d.sent.length - d.reply.head.left) = b := Option.some.inj hb
  rw [Buf.left_advance] at hpos
  omega

theorem Midway.finished {b : Buf} {x : SendResult} (h : Midway w done d 1)
    (hb : w.r.response.data[1]? = some b) (hw : w.Wrote w' 1 b b.left x) (hpos : 0 < b.left) :
    ∃ d', Midway w' done d' 1 ∧ d'.sent.length = d'.reply.length ∧ 0 < d'.reply.body.left := by
  obtain ⟨d', hreply, hmid, hall⟩ := h.wrote Nat.one_lt_two hb hw (Nat.le_refl _)
  refine ⟨d', hmid, ?_, ?_⟩
  · rw [hreply]
    exact (hall rfl).2 rfl
  · rw [hreply]
    exact h.body_pos hb hpos

/-- Every move keeps to the answers. -/
theorem Move.wire (hctl : Ctl p w) (hstream : Stream p w) (hasked : Asked p w) (h : Wire p w)
    (hm : Move (p, w) (q, w')) : Wire q w' := by
  cases hm with
  | @start _ w₁ n hr hs =>
    obtain ⟨done, hq⟩ := h.reads (start_open hs).fd (start_mask hs)
    exact ⟨done, hq.same (sameWire_of_t hr.t hr.conf) fun hrh => by cases hrh⟩
  | @startFails _ w₁ hs hc =>
    obtain ⟨cp, hcp, -⟩ := (start_open hs).pool
    exact wire_closed h ((sameWire_of_t hc.t hc.conf).trans (sameWire_closeConnection w₁))
      (fd_closeConnection (hc.pool.trans hcp))
  | @startCloses _ w₁ w₂ b n hr hs hb hsc =>
    obtain ⟨cp, hcp, -⟩ := (Reported.open (start_open hs) hr).pool
    have hopened : SameWire w (w₁.opened b n) := sameWire_of_t hr.t hr.conf
    exact wire_closed h (hopened.trans ((Scratch.sameWire hsc).trans (sameWire_closeBoth w₂)))
      (fd_closeBoth (hsc.pool.trans hcp))
  | resumeLine hr hw _ =>
    obtain ⟨done, hq⟩ := h.reads hw.fd hw.mask
    refine ⟨done, hq.same (sameWire_of_t hr.t hr.conf) ?_⟩
    rw [hr.c, hr.r]
    exact hq.short
  | resumeHeaders hr hw _ =>
    obtain ⟨done, hq⟩ := h.reads hw.fd hw.mask
    refine ⟨done, hq.same (sameWire_of_t hr.t hr.conf) ?_⟩
    rw [hr.c, hr.r]
    exact hq.short
  | resumeWrite hr hw =>
    -- the writer goes on where the socket was full
    obtain ⟨done, d, hmid⟩ := h.writes hw.fd hw.mask
    refine ⟨done, d, ?_, hmid.declares, hmid.memory, hmid.start, ?_, hmid.place⟩
    · rw [hr.t]
      exact hmid.wire.same (sameWire_of_t hr.t hr.conf)
    · rw [hr.r]
      exact hmid.chain
  | «have» hread hb hne => cases hread <;> exact h
  | @recv _ _ _ w₁ b bs hread hb hnil _ ht hne hlen =>
    have hsame : SameWire w ((w₁.noteRecv b bs.length).setBuf (b.append bs)) :=
      (Took.sameWire ht).trans ⟨rfl, rfl, rfl, rfl, rfl, rfl⟩
    have hgo : ∀ {done},
        Quiet w done → Quiet ((w₁.noteRecv b bs.length).setBuf (b.append bs)) done := by
      intro done hq
      apply hq.same hsame
      show w₁.c.readHandler = _ → w₁.r.uri.len ≤ 4097
      rw [ht.c, ht.r]
      exact hq.short
    cases hread with
    | line =>
      obtain ⟨done, hq⟩ := h
      exact ⟨done, hgo hq⟩
    | headers =>
      obtain ⟨done, hq⟩ := h
      exact ⟨done, hgo hq⟩
  | idle hread hb hnil =>
    have hmask := (hread.reading hctl).1.mask
    cases hread <;> exact Or.inr (Or.inl ⟨hmask, h⟩)
  | @wait _ _ _ w₁ b hread hb hnil _ ht =>
    have hmask : w₁.c.ev.events = readMask := ht.events.trans (hread.reading hctl).1.mask
    have hgo : (∃ done, Quiet w done) → Wire .loop (w₁.noteRecv b EHD_AGAIN) := by
      rintro ⟨done, hq⟩
      have hsame : SameWire w (w₁.noteRecv b EHD_AGAIN) :=
        (Took.sameWire ht).trans ⟨rfl, rfl, rfl, rfl, rfl, rfl⟩
      refine Or.inr (Or.inl ⟨hmask, done, hq.same hsame ?_⟩)
      show w₁.c.readHandler = _ → w₁.r.uri.len ≤ 4097
      rw [ht.c, ht.r]
      exact hq.short
    cases hread <;> exact hgo h
  | @hangup _ w₁ b n _ _ ht hn =>
    have hsame : SameWire w (w₁.noteRecv b n) :=
      (Took.sameWire ht).trans ⟨rfl, rfl, rfl, rfl, rfl, rfl⟩
    exact wire_closed h (hsame.trans (sameWire_closeBoth _))
      (fd_closeBoth (w := w₁.noteRecv b n) (hctl.1.took ht).home)
  | @hangupTwice _ w₁ b n _ _ ht hn =>
    have hpool := (hctl.1.took ht).pool_hungUp b n
    have hsame : SameWire w (w₁.noteRecv b n) :=
      (Took.sameWire ht).trans ⟨rfl, rfl, rfl, rfl, rfl, rfl⟩
    exact wire_closed h (hsame.trans ((sameWire_closeBoth _).trans (sameWire_closeBoth _)))
      (fd_closeBoth hpool)
  | fail hp hs =>
    exact wire_closed h ((Scratch.sameWire hs).trans (sameWire_closeBoth _))
      (fd_closeBoth (hs.pool.trans (hctl.serving (Or.inl hp)).home))
  | noRoom hfull hs =>
    have hnoted : SameWire w w.noteNoRoom := ⟨rfl, rfl, rfl, rfl, rfl, rfl⟩
    exact wire_closed h (hnoted.trans ((Scratch.sameWire hs).trans (sameWire_closeBoth _)))
      (fd_closeBoth (hs.pool.trans (hctl.serving (Or.inl hfull.serves)).home))
  | lineMore hb hparse hpos =>
    obtain ⟨done, hq⟩ := h
    exact ⟨done, hq.same ⟨rfl, rfl, rfl, rfl, rfl, rfl⟩ hq.short⟩
  | lineDone hb hparse =>
    obtain ⟨done, hq⟩ := h
    exact ⟨done, hq.same ⟨rfl, rfl, rfl, rfl, rfl, rfl⟩ hq.short⟩
  | stored hs =>
    obtain ⟨done, hq⟩ := h
    obtain ⟨C, -, hC⟩ := hstream
    obtain ⟨b, hb, hin⟩ := hctl.1.buf
    exact ⟨done, hq.same (sameWire_of_t hs.t hs.conf) fun _ => stored_short hC hin hb hs⟩
  | headerNext => exact h
  | headerMore hb hparse =>
    obtain ⟨done, hq⟩ := h
    exact ⟨done, hq.same ⟨rfl, rfl, rfl, rfl, rfl, rfl⟩ hq.short⟩
  | headerDone hb hparse hs =>
    obtain ⟨done, hq⟩ := h
    refine ⟨done, hq.same (sameWire_of_t hs.t hs.conf) fun _ => ?_⟩
    rw [hs.r]
    exact hq.short hctl.2.1
  | headersDone hb hparse =>
    obtain ⟨done, hq⟩ := h
    exact ⟨⟨done, hq.same ⟨rfl, rfl, rfl, rfl, rfl, rfl⟩ fun hrh => by cases hrh⟩,
      hq.short hctl.2.1⟩
  | hand hb =>
    -- one more request has been handed over than there are answers
    obtain ⟨⟨done, hq⟩, hshort⟩ := h
    exact ⟨w.t.handed, done, _, ⟨hq.wire.sent, hq.wire.read, hq.wire.answers, hq.wire.partly,
      hq.wire.whole, hq.wire.keptAt, hq.wire.keepAlives⟩, rfl, hshort⟩
  | build ha =>
    obtain ⟨asked, done, b, hwire, hhanded, hshort⟩ := h
    obtain ⟨-, hs, x, hx, -, hpath⟩ := hasked
    obtain ⟨-, hlast⟩ := List.append_inj' (hhanded.symm.trans hx) rfl
    obtain rfl : handedOver w.r b = x := (List.cons.inj hlast).1
    exact ⟨done, _, midway_start hctl hwire hhanded hpath hshort ha⟩
  | @buildStops _ w₁ f ha hr =>
    have hreg : SameWire w₁ (w₁.responding.registered writeMask false) :=
      ⟨rfl, rfl, rfl, rfl, rfl, rfl⟩
    exact h.ended.same ((Filling.sameWire ha.toFilling).trans (hreg.trans (sameWire_closeBoth _)))
  | @sent last last' n _ _ _ b hb hw hlast' hlt =>
    -- the writer stays at a buffer, or goes on when it is empty
    obtain ⟨done, d, hmid⟩ := h
    have hn : n ≤ b.left := by
      rcases hlast' with ⟨hn, -⟩ | ⟨hn, -⟩
      · exact hn.le
      · exact hn.le
    obtain ⟨d', hreply, hmid', hall⟩ := hmid.wrote hctl.2 hb hw hn
    refine ⟨done, d', hmid'.wire, hmid'.declares, hmid'.memory, hmid'.start, hmid'.chain, ?_⟩
    intro hone
    rcases hlast' with ⟨-, hsame⟩ | ⟨hwhole, -⟩
    · exact hmid'.place (hsame.symm.trans hone)
    · rw [hreply]
      exact (hall hwhole).1
  | @full last _ w₁ b hb hw _ =>
    obtain ⟨done, d, hmid⟩ := h
    obtain ⟨d', -, hmid', -⟩ := hmid.wrote hctl.2 hb hw (Nat.zero_le _)
    refine Or.inr (Or.inr ⟨(hctl.1.wrote hb hw).mask, done, d', hmid'.wire, hmid'.declares,
      hmid'.memory, hmid'.start, hmid'.chain, fun hone => absurd hone (by decide)⟩)
  | keepAlive hb hw hpos hbuf hpool =>
    -- the answer joins those that are done
    obtain ⟨done, d, hmid⟩ := h
    obtain ⟨d', hmid', hlen, hbody⟩ := hmid.finished hb hw hpos
    exact Or.inr (Or.inl ⟨rfl, _, hmid'.keepAlive hlen hbody⟩)
  | @keepAliveFails _ pool _ w₁ _ b hb hw hpos hbuf hpool _ =>
    obtain ⟨done, d, hmid⟩ := h
    obtain ⟨d', hmid', hlen, hbody⟩ := hmid.finished hb hw hpos
    have hq : Quiet ((w₁.idle b pool).registered readMask false) _ := hmid'.keepAlive hlen hbody
    exact Or.inl ⟨fd_closeConnection (hctl.1.wrote hb hw).toServing.home,
      hq.ended.same (sameWire_closeConnection _)⟩
  | stop _ hs => exact h.ended.same (Scratch.sameWire hs)
  | buildFails hs _ => exact h.ended.same (Scratch.sameWire hs)

end

theorem Accepted.wire (h : Accepted w) : Wire .loop w := by
  obtain ⟨slot, id, fd, pool, hc, -, -⟩ := h.c
  refine Or.inr (Or.inl ⟨by rw [hc]; rfl, [], ⟨?_, ?_, ?_, ?_, ?_, ?_, ?_⟩, ?_⟩)
  · rw [h.t]
    rfl
  · rw [h.t]
    rfl
  · rw [h.t]
    exact .nil
  · intro d hd
    cases hd
  · intro d hd
    cases hd
  · rw [h.t]
    rfl
  · rw [h.t]
    rfl
  · rw [hc]
    intro hrh
    cases hrh

/-- In every state of a run what has been sent keeps to the answers. -/
theorem Run.wire {P : Kernel → Prop} {o : Option Stop} (h : Run P o w) : Wire (.ofRun o) w := by
  refine And.right (And.right (And.right (Calls.invariant (I := fun o w => Ctl (.ofRun o) w ∧
    Stream (.ofRun o) w ∧ Asked (.ofRun o) w ∧ Wire (.ofRun o) w) ?_ ?_ ?_ h)))
  · rintro w ⟨haccepted, -⟩
    have hc := haccepted.connected
    refine ⟨InLoop.connected hc, haccepted.stream, fun _ hreading _ => ?_, haccepted.wire⟩
    have hdata := hreading.1
    rw [hc.data] at hdata
    cases hdata
  · rintro w x ⟨hctl, hstream, hasked, hwire⟩ ⟨events, hev, rfl⟩
    refine Walks.invariant (I := fun p w => Ctl p w ∧ Stream p w ∧ Asked p w ∧ Wire p w) ?_
      (dispatch_goes hctl hev) ⟨hctl, hstream, hasked, hwire⟩
    rintro p w q w' ⟨hp, hs, ha, hw⟩ hm
    exact ⟨Move.ctl hp hm, Move.stream hp hs hm, Move.asked hp hs ha hm, Move.wire hp hs ha hw hm⟩
  · rintro w w' ⟨hctl, ⟨C, hh, hrest⟩, hasked, hwire⟩ ⟨k, -, hk, rfl⟩
    refine ⟨InLoop.onKernel hctl hk, ⟨C, hh, Resting.onKernel hctl hk hrest⟩, hasked, ?_⟩
    rcases hwire with ⟨hfd, he⟩ | ⟨hmask, done, hq⟩ | ⟨hmask, done, d, hmid⟩
    · exact Or.inl ⟨hfd, he.same ⟨rfl, rfl, rfl, rfl, rfl, rfl⟩⟩
    · exact Or.inr (Or.inl ⟨hmask, done, hq.same ⟨rfl, rfl, rfl, rfl, rfl, rfl⟩ hq.short⟩)
    · exact Or.inr (Or.inr ⟨hmask, done, d, hmid.wire.same ⟨rfl, rfl, rfl, rfl, rfl, rfl⟩,
        hmid.declares, hmid.memory, hmid.start, hmid.chain, hmid.place⟩)

/-- In every run the kernel has accepted whole answers, in the order of the requests, and then a
part of one more: a part of its head, or its head and the first bytes of its body, which a
file gives from its start on.  At each `ehd_http_keep_alive` the answer was whole, and its head
said how long the body was. -/
theorem wire_framing {P : Kernel → Prop} {o : Option Stop} (h : Run P o w) :
    ∃ asked done now rest, OnWire w asked done now ∧
      w.t.handed = asked ++ rest ∧ rest.length ≤ 1 :=
  h.wire.ended

theorem wire_framing_served :
    ∃ d : Transfer, d.Whole ∧ (after (dispatch EPOLLIN) servedWorld).t.sent = d.sent ∧
      (after (dispatch EPOLLIN) servedWorld).t.keptAt = [d.sent.length] := by
  have hhanded : (after (dispatch EPOLLIN) servedWorld).t.handed.length = 1 := by decide +kernel
  have hkept : (after (dispatch EPOLLIN) servedWorld).t.keepAlives.length = 1 := by decide +kernel
  have hrun := served_run
  revert hhanded hkept hrun
  generalize after (dispatch EPOLLIN) servedWorld = w
  intro hhanded hkept hrun
  obtain ⟨asked, done, now, rest, hwire, hsplit, -⟩ := wire_framing hrun
  have hdone : done.length = 1 := hwire.keepAlives.symm.trans hkept
  obtain ⟨d, rfl⟩ := List.length_eq_one_iff.1 hdone
  have hlen := hwire.answers.length_eq
  rw [hsplit, List.length_append, ← hlen] at hhanded
  have hnow : now = none := by
    cases now with
    | none => rfl
    | some d' =>
      rw [List.length_map, List.length_append] at hhanded
      have hone : (some d').toList.length = 1 := rfl
      omega
  rw [hnow] at hwire
  refine ⟨d, hwire.whole d (List.mem_singleton_self d), ?_, ?_⟩
  · rw [hwire.sent]
    simp
  · rw [hwire.keptAt]
    simp [ends]

end Http

end Ehd
