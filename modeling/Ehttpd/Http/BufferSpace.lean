import Ehttpd.Http.Terminators

namespace Ehd.Http

open Program Scanner World Relation

variable {w w' : World} {b b' : Buf} {C : List UInt8} {p q : ParseState} {pc : Pc}

/-- The results `rs'` are left of `rs` after `recv` has returned 0, perhaps after some
interrupted calls: the other side has closed. -/
def PeerClosed (rs rs' : List RecvResult) : Prop :=
  ∃ skipped, (∀ x ∈ skipped, x = .intr) ∧ rs = skipped ++ .data [] :: rs'

/-- Into some room `recv` stores no more than fits, and it returns 0 only at the end of the
stream. -/
theorem recv_room {size : Nat} (hsize : 0 < size) : wp (recv size) (fun x w' =>
    x.2.length ≤ size ∧ (x.1 = 0 → PeerClosed w.k.recvs w'.k.recvs)) (fun _ _ => True) w := by
  have go : ∀ (rs : List RecvResult) (w : World), w.k.recvs = rs → wp (recv.go size rs)
      (fun x w' => x.2.length ≤ size ∧ (x.1 = 0 → PeerClosed rs w'.k.recvs))
      (fun _ _ => True) w := by
    intro rs
    induction rs with
    | nil => exact fun _ _ => trivial
    | cons x rest ih =>
      intro w hrs
      cases x with
      | data bs =>
        simp only [recv.go, wp_bind, wp_modify, wp_pure]
        refine ⟨List.length_take_le _ _, fun hzero => ⟨[], by simp, ?_⟩⟩
        have hnil : bs = [] := by
          have hlen : (bs.take size).length = 0 := by exact_mod_cast hzero
          rw [List.length_take] at hlen
          exact List.length_eq_zero_iff.1 (by omega)
        subst hnil
        rfl
      | intr =>
        simp only [recv.go, wp_bind, wp_modify]
        refine wp_mono (ih _ rfl) ?_ fun _ _ h => h
        intro x w' h
        refine ⟨h.1, fun hzero => ?_⟩
        obtain ⟨skipped, hskipped, hrest⟩ := h.2 hzero
        refine ⟨.intr :: skipped, ?_, by rw [hrest]; rfl⟩
        intro y hy
        rcases List.mem_cons.1 hy with rfl | hy
        · rfl
        · exact hskipped y hy
      | again =>
        simp only [recv.go, wp_bind, wp_modify, wp_pure]
        exact ⟨Nat.zero_le _, fun hzero => absurd hzero (by decide)⟩
      | fail =>
        simp only [recv.go, wp_bind, wp_modify, wp_pure]
        exact ⟨Nat.zero_le _, fun hzero => absurd hzero (by decide)⟩
  unfold recv
  rw [if_neg (by omega), wp_bind, wp_get]
  exact go _ w rfl

theorem stopped_reason {s : Pc × World} {e : Stop} (hs : ∀ e, s.1 ≠ .stopped e)
    (h : ReflTransGen Move s (.stopped e, w')) : e ≠ .outOfFuel := by
  rcases ReflTransGen.cases_tail h with heq | ⟨t, -, hmove⟩
  · exact absurd (congrArg Prod.fst heq).symm (hs e)
  · obtain ⟨p, w⟩ := t
    cases hmove with
    | «have» hread => cases hread
    | recv hread => cases hread
    | buildStops => exact fun h => nomatch h
    | stop => exact fun h => nomatch h
    | buildFails => exact fun h => nomatch h

theorem Goes.enough {s : Pc × World} {x : Handler Unit} (hs : ∀ e, s.1 ≠ .stopped e)
    (h : Goes s x w) : wp x (fun _ _ => True) (fun e _ => e ≠ .outOfFuel) w :=
  wp_mono h (fun _ _ _ => trivial) fun _ _ hpath => stopped_reason hs hpath

/-- The bytes are the beginning of a head: the parsers, which have seen all of them, ask for
more. -/
inductive HeadIncomplete (bytes : List UInt8) : Prop
  | line {p : ParseState} : parseRequestLine {} (inputBuf bytes 0) =
      (.again, p, inputBuf bytes bytes.length) → HeadIncomplete bytes
  | headers {p q q' : ParseState} {m k : Nat} {es : List HeaderIn} :
      parseRequestLine {} (inputBuf bytes 0) = (.ok, p, inputBuf bytes m) →
      pathAccepted p (inputBuf bytes m) = true → HeaderLines bytes p m es q k →
      parseHeaderLine q (inputBuf bytes k) = (.again, q', inputBuf bytes bytes.length) →
      HeadIncomplete bytes

/-- When the requests `x.1` have been handed over and the bytes `x.2` have come in, the buffer is
full of bytes that follow these requests, and they are the beginning of a head. -/
def FullOfHead (x : Nat × List UInt8) : Prop :=
  ∃ C, afterRequests x.1 x.2 = some C ∧ C.length = EHD_DEFAULT_BUF_SIZE ∧ HeadIncomplete C

theorem InLine.full (hin : InBuf b) (h : InLine C w) (hb : w.c.buf = some b)
    (hparse : parseRequestLine w.r.parse b = (.again, q, b')) (hfull : b'.pos = b'.size) :
    C.length = EHD_DEFAULT_BUF_SIZE ∧ HeadIncomplete C := by
  obtain ⟨b₀, hb₀, hopen, -⟩ := h
  have hsame : b₀ = b := Option.some.inj (hb₀.symm.trans hb)
  rw [hsame] at hopen
  have hadv := parseRequestLine_advances hparse
  have hin' := hin.advances hadv
  have heq := inputBuf_at hopen.buf hadv
  have hlast : b'.last = C.length := by
    rw [heq]
    rfl
  have hpos := hin'.pos
  have hle := hin'.last
  have hlen : C.length = EHD_DEFAULT_BUF_SIZE := by
    rw [← hin'.size]
    omega
  refine ⟨hlen, .line (p := q) ?_⟩
  have hall := hopen.resume [] .again q b' (Or.inr rfl) (by rw [Buf.append, List.append_nil]; exact hparse)
  rw [List.append_nil] at hall
  rw [hall, heq, hlen, ← hin'.size, ← hfull]

theorem InBlock.full (hin : InBuf b) (h : InBlock C w) (hb : w.c.buf = some b)
    (hstate : w.r.parse.InHeaders) (hfull : b.pos = b.size) :
    C.length = EHD_DEFAULT_BUF_SIZE ∧ HeadIncomplete C := by
  obtain ⟨b₀, X, p, m, es, q, k, hb₀, hopen⟩ := h
  have hsame : b₀ = b := Option.some.inj (hb₀.symm.trans hb)
  rw [hsame] at hopen
  have hlast : b.last = C.length := by
    rw [← hopen.length, hopen.buf]
    rfl
  have hpos := hin.pos
  have hle := hin.last
  have hlen : C.length = EHD_DEFAULT_BUF_SIZE := by
    rw [← hin.size]
    omega
  have hat : b.pos = C.length := by
    rw [hfull, hin.size, hlen]
  -- nothing is left to parse
  have hnone : ∃ q', parseHeaderLine w.r.parse (inputBuf C b.pos) =
      (.again, q', inputBuf C C.length) := by
    have hunread : (inputBuf C b.pos).unread = [] := List.drop_eq_nil_of_le hat.ge
    have hloop : headerLineLoop (inputBuf C b.pos).bytes (.ofUint w.r.parse.state) w.r.parse
        (inputBuf C b.pos).pos (inputBuf C b.pos).unread =
          .exit (.ofUint w.r.parse.state) w.r.parse
            ((inputBuf C b.pos).pos + (inputBuf C b.pos).unread.length) := by
      rw [hunread]
      rfl
    have hcall := parseHeaderLine_of_exit hstate hloop
    rw [hunread] at hcall
    rw [hat] at hcall ⊢
    exact ⟨_, hcall⟩
  obtain ⟨q', hnone⟩ := hnone
  have hall := hopen.resume [] .again q' (inputBuf C C.length) (by decide)
  rw [List.append_nil] at hall
  exact ⟨hlen, .headers hopen.line hopen.path hopen.lines (hall hnone)⟩

structure SameNotes (w w' : World) : Prop where
  reads : w'.t.reads = w.t.reads
  noRoom : w'.t.noRoom = w.t.noRoom

theorem SameNotes.trans {w'' : World} (h : SameNotes w w') (h' : SameNotes w' w'') :
    SameNotes w w'' :=
  ⟨h'.reads.trans h.reads, h'.noRoom.trans h.noRoom⟩

theorem sameNotes_of_t (h : w'.t = w.t) : SameNotes w w' := ⟨by rw [h], by rw [h]⟩

theorem sameNotes_closeConnection (w : World) : SameNotes w w.closeConnection := by
  unfold World.closeConnection
  split
  · exact ⟨rfl, rfl⟩
  · exact ⟨rfl, rfl⟩

theorem sameNotes_closeBoth (w : World) : SameNotes w w.closeBoth := by
  have hrequest : SameNotes w w.closeRequest := by
    unfold World.closeRequest World.touch
    split
    · split <;> exact ⟨rfl, rfl⟩
    · split <;> exact ⟨rfl, rfl⟩
  exact hrequest.trans (sameNotes_closeConnection _)

theorem Scratch.sameNotes (h : w.Scratch w') : SameNotes w w' := ⟨by rw [h.t], by rw [h.t]⟩

theorem Wrote.sameNotes {last n : Nat} {x : SendResult} (h : w.Wrote w' last b n x) :
    SameNotes w w' := by
  obtain ⟨bs, -, ht⟩ := h.t
  exact ⟨by rw [ht], by rw [ht]⟩

theorem Answered.sameNotes {ns : List (List UInt8)} {a : Answer} {f : File}
    (h : Answered ns w w' a f) : SameNotes w w' := by
  obtain ⟨ps, os, ht, -⟩ := h.t
  exact ⟨by rw [ht], by rw [ht]⟩

/-- What a move notes: nothing, a call of `ehd_recv` for all of the room, which there is, or that
the buffer is full. -/
inductive Notes (p : Pc) (w w' : World) : Prop
  | same (h : SameNotes w w')
  | read {b : Buf} (hp : p.Serves) (hb : w.c.buf = some b) (hroom : 0 < b.room)
      (hreads : w'.t.reads = w.t.reads ++ [(b.last, b.room)]) (h : w'.t.noRoom = w.t.noRoom)
  | noRoom (hfull : Full p w) (hreads : w'.t.reads = w.t.reads)
      (h : w'.t.noRoom = w.t.noRoom ++ [(w.t.handed.length, w.t.received)])

theorem Reads.serves {p q : Pc} (h : Reads p q) : p.Serves := by
  cases h <;> exact trivial

theorem Took.notes {bs : List UInt8} {n : Int} {w₁ : World} (hp : pc.Serves)
    (hb : w.c.buf = some b) (hroom : 0 < b.room) (ht : w.Took w₁ bs)
    (h : SameNotes (w₁.noteRecv b n) w') : Notes pc w w' := by
  refine .read hp hb hroom (h.reads.trans ?_) (h.noRoom.trans ?_)
  · show w₁.t.reads ++ [(b.last, b.room)] = _
    rw [ht.t]
  · show w₁.t.noRoom = _
    rw [ht.t]

theorem Move.notes {pc' : Pc} (hm : Move (pc, w) (pc', w')) : Notes pc w w' := by
  cases hm with
  | start hr _ => exact .same (sameNotes_of_t hr.t)
  | startFails _ hc =>
    exact .same ((sameNotes_of_t hc.t).trans (sameNotes_closeConnection _))
  | @startCloses _ w₁ _ b n hr _ _ hs =>
    have hopened : SameNotes w (w₁.opened b n) := sameNotes_of_t hr.t
    exact .same (hopened.trans ((Scratch.sameNotes hs).trans (sameNotes_closeBoth _)))
  | resumeLine hr _ _ => exact .same (sameNotes_of_t hr.t)
  | resumeHeaders hr _ _ => exact .same (sameNotes_of_t hr.t)
  | resumeWrite hr _ => exact .same (sameNotes_of_t hr.t)
  | «have» _ _ _ => exact .same ⟨rfl, rfl⟩
  | recv hread hb _ hroom ht _ _ => exact Took.notes hread.serves hb hroom ht ⟨rfl, rfl⟩
  | idle _ _ _ => exact .same ⟨rfl, rfl⟩
  | wait hread hb _ hroom ht => exact Took.notes hread.serves hb hroom ht ⟨rfl, rfl⟩
  | hangup hb hroom ht _ => exact Took.notes trivial hb hroom ht (sameNotes_closeBoth _)
  | hangupTwice hb hroom ht _ =>
    exact Took.notes trivial hb hroom ht ((sameNotes_closeBoth _).trans (sameNotes_closeBoth _))
  | fail _ hs => exact .same ((Scratch.sameNotes hs).trans (sameNotes_closeBoth _))
  | noRoom hfull hs =>
    have hsame := (Scratch.sameNotes hs).trans (sameNotes_closeBoth _)
    exact .noRoom hfull hsame.reads hsame.noRoom
  | lineMore _ _ _ => exact .same ⟨rfl, rfl⟩
  | lineDone _ _ => exact .same ⟨rfl, rfl⟩
  | stored hs => exact .same (sameNotes_of_t hs.t)
  | headerNext => exact .same ⟨rfl, rfl⟩
  | headerMore _ _ => exact .same ⟨rfl, rfl⟩
  | headerDone _ _ hs => exact .same (sameNotes_of_t hs.t)
  | headersDone _ _ => exact .same ⟨rfl, rfl⟩
  | hand _ => exact .same ⟨rfl, rfl⟩
  | @build _ w₁ _ ha =>
    have hwriting : SameNotes w₁ w₁.writing := ⟨rfl, rfl⟩
    exact .same ((Answered.sameNotes ha).trans hwriting)
  | @buildStops _ w₁ _ ha _ =>
    have hreg : SameNotes w₁ (w₁.responding.registered writeMask false) := ⟨rfl, rfl⟩
    exact .same ((Answered.sameNotes ha).trans (hreg.trans (sameNotes_closeBoth _)))
  | sent _ hw _ _ => exact .same (Wrote.sameNotes hw)
  | full _ hw _ => exact .same (Wrote.sameNotes hw)
  | @keepAlive _ pool _ w₁ _ inBuf _ hw _ _ _ =>
    have hkeep : SameNotes w₁ ((w₁.idle inBuf pool).registered readMask true) := ⟨rfl, rfl⟩
    exact .same ((Wrote.sameNotes hw).trans hkeep)
  | @keepAliveFails _ pool _ w₁ _ inBuf _ hw _ _ _ _ =>
    have hkeep : SameNotes w₁ ((w₁.idle inBuf pool).registered readMask false) := ⟨rfl, rfl⟩
    exact .same ((Wrote.sameNotes hw).trans (hkeep.trans (sameNotes_closeConnection _)))
  | stop _ hs => exact .same (Scratch.sameNotes hs)
  | buildFails hs _ => exact .same (Scratch.sameNotes hs)

/-- Every call of `ehd_recv` is for all of `[last, end)`, which is not empty, and a request is
closed for want of room only when its head fills the buffer and is not complete. -/
structure Disciplined (t : Trace) : Prop where
  reads : ∀ x ∈ t.reads, 0 < x.2 ∧ x.1 + x.2 = EHD_DEFAULT_BUF_SIZE
  noRoom : ∀ x ∈ t.noRoom, FullOfHead x

theorem SameNotes.disciplined (h : SameNotes w w') (hd : Disciplined w.t) : Disciplined w'.t where
  reads := by
    rw [h.reads]
    exact hd.reads
  noRoom := by
    rw [h.noRoom]
    exact hd.noRoom

theorem Full.fullOfHead (hctl : Ctl pc w) (hs : Stream pc w) (h : Full pc w) :
    FullOfHead (w.t.handed.length, w.t.received) := by
  obtain ⟨C, hheads, hC⟩ := hs
  refine ⟨C, hheads.afterRequests, ?_⟩
  cases h with
  | line hb hparse hfull => exact InLine.full (hctl.1.toServing.inBuf hb) hC hb hparse hfull
  | headers hb hfull => exact InBlock.full (hctl.1.toServing.inBuf hb) hC hb hctl.2.2 hfull

theorem Move.disciplined {pc' : Pc} (hctl : Ctl pc w) (hs : Stream pc w) (hd : Disciplined w.t)
    (hm : Move (pc, w) (pc', w')) : Disciplined w'.t := by
  cases hm.notes with
  | same h => exact h.disciplined hd
  | @read b hp hb hroom hreads hnoRoom =>
    refine ⟨?_, ?_⟩
    · intro x hx
      rw [hreads] at hx
      rcases List.mem_append.1 hx with hx | hx
      · exact hd.reads x hx
      · -- the call that is made now
        obtain rfl := List.mem_singleton.1 hx
        have hin := (hctl.serving (Or.inl hp)).inBuf hb
        refine ⟨hroom, ?_⟩
        rw [← hin.size]
        exact Nat.add_sub_cancel' hin.last
    · rw [hnoRoom]
      exact hd.noRoom
  | noRoom hfull hreads hnoRoom =>
    refine ⟨?_, ?_⟩
    · rw [hreads]
      exact hd.reads
    · intro x hx
      rw [hnoRoom] at hx
      rcases List.mem_append.1 hx with hx | hx
      · exact hd.noRoom x hx
      · obtain rfl := List.mem_singleton.1 hx
        exact hfull.fullOfHead hctl hs

theorem Accepted.disciplined (h : Accepted w) : Disciplined w.t := by
  rw [h.t]
  exact ⟨(fun x hx => nomatch hx), fun x hx => nomatch hx⟩

structure Known (p : Pc) (w : World) : Prop where
  ctl : Ctl p w
  stream : Stream p w
  disciplined : Disciplined w.t

theorem Move.known {pc' : Pc} (h : Known pc w) (hm : Move (pc, w) (pc', w')) : Known pc' w' :=
  ⟨Move.ctl h.ctl hm, Move.stream h.ctl h.stream hm,
    Move.disciplined h.ctl h.stream h.disciplined hm⟩

theorem Run.known {P : Kernel → Prop} {o : Option Stop} (h : Run P o w) : Known (.ofRun o) w := by
  refine Calls.invariant (I := fun o w => Known (.ofRun o) w) ?_ ?_ ?_ h
  · rintro w ⟨haccepted, -⟩
    exact ⟨InLoop.connected haccepted.connected, haccepted.stream, haccepted.disciplined⟩
  · rintro w x hknown ⟨events, hev, rfl⟩
    exact Walks.invariant (I := Known) (fun p w q w' hp hm => Move.known hp hm)
      (dispatch_goes hknown.ctl hev) hknown
  · rintro w w' ⟨hctl, ⟨C, hh, hrest⟩, hd⟩ ⟨k, -, hk, rfl⟩
    exact ⟨InLoop.onKernel hctl hk, ⟨C, hh, Resting.onKernel hctl hk hrest⟩, hd⟩

theorem Passes.known {P : Kernel → Prop} (h : Passes P pc w) : Known pc w := by
  obtain ⟨w₀, hrun, hpath⟩ := h
  exact path_invariant (I := Known) (fun _ _ _ _ hp hm => Move.known hp hm) hpath hrun.known

/-- `ehd_recv` has not been called, or once, to fill all the room in the buffer `b`. -/
def FillsRoom (b : Buf) (w w' : World) : Prop :=
  w'.t.reads = w.t.reads ∨
    b.unread = [] ∧ 0 < b.room ∧ w'.t.reads = w.t.reads ++ [(b.last, b.room)]

theorem readRequestHeader_fills (halive : w.r.home ∉ w.t.destroyed) (hb : w.c.buf = some b)
    (hroom : b.unread = [] → 0 < b.room) :
    wp readRequestHeader (fun _ => FillsRoom b w) (fun _ _ => True) w := by
  have called : b.unread = [] → ∀ w₁ w₂ bs n, w.Took w₁ bs → SameNotes (w₁.noteRecv b n) w₂ →
      FillsRoom b w w₂ := by
    intro hnil w₁ w₂ bs n ht hsame
    refine Or.inr ⟨hnil, hroom hnil, hsame.reads.trans ?_⟩
    show w₁.t.reads ++ [(b.last, b.room)] = _
    rw [ht.t]
  refine readRequestHeader_rule halive hb (fun _ => Or.inl rfl) ?_ (fun _ => Or.inl rfl) ?_ ?_
    fun _ _ _ => trivial
  · exact fun hnil w₁ bs ht _ _ => called hnil w₁ _ bs _ ht ⟨rfl, rfl⟩
  · exact fun hnil w₁ ht => called hnil w₁ _ [] _ ht ⟨rfl, rfl⟩
  · exact fun hnil w₁ n ht _ => called hnil w₁ _ [] n ht (sameNotes_closeBoth _)

theorem requestHeadersRead_fills (hin : InBuf b) (halive : w.r.home ∉ w.t.destroyed)
    (hb : w.c.buf = some b) :
    wp (requestHeadersRead .again) (fun _ => FillsRoom b w) (fun _ _ => True) w := by
  unfold requestHeadersRead
  rw [if_pos rfl, wp_bind, wp_getHeaderInBuf halive hb]
  by_cases hfull : b.pos = b.size
  · rw [if_pos hfull, wp_bind, wp_modify, wp_bind, wp_closeBoth, wp_pure]
    exact Or.inl (sameNotes_closeBoth w.noteNoRoom).reads
  · rw [if_neg hfull, wp_bind]
    refine wp_mono (readRequestHeader_fills halive hb fun hnil => hin.room_pos hnil hfull)
      (fun n w' h => ?_) fun _ _ h => h
    split
    · exact h
    · split
      · rw [wp_bind, wp_closeBoth, wp_pure]
        unfold FillsRoom
        rw [(sameNotes_closeBoth w').reads]
        exact h
      · exact h

/-- At every point of a run: the input buffer is well formed; every call of `ehd_recv` so far was
for all of `[last, end)`, which is not empty, and 0 from such a call means that the other side has
closed; the next call is of that kind too; both loops end; and a request has been closed for want
of room only when its head fills the buffer and is not complete. -/
theorem input_buffer_discipline {P : Kernel → Prop} (h : Passes P pc w) :
    (pc ≠ .loop → (∀ e, pc ≠ .stopped e) → ∃ b, w.c.buf = some b ∧ InBuf b) ∧
    (pc = .loop → w.c.fd ≠ -1 → w.c.data ≠ .null → ∃ b, w.c.buf = some b ∧ InBuf b) ∧
    (∀ x ∈ w.t.reads, 0 < x.2 ∧ x.1 + x.2 = EHD_DEFAULT_BUF_SIZE ∧
      ∀ v, wp (recv x.2) (fun y v' => y.2.length ≤ x.2 ∧
        (y.1 = 0 → PeerClosed v.k.recvs v'.k.recvs)) (fun _ _ => True) v) ∧
    (pc = .line → ∀ b, w.c.buf = some b →
      wp readRequestHeader (fun _ => FillsRoom b w) (fun _ _ => True) w) ∧
    (pc = .headers .again → ∀ b, w.c.buf = some b →
      wp (requestHeadersRead .again) (fun _ => FillsRoom b w) (fun _ _ => True) w) ∧
    (pc = .line → wp processRequestLine (fun _ _ => True) (fun e _ => e ≠ .outOfFuel) w) ∧
    (pc = .headers .again →
      wp processRequestHeaders (fun _ _ => True) (fun e _ => e ≠ .outOfFuel) w) ∧
    (∀ x ∈ w.t.noRoom, FullOfHead x) := by
  obtain ⟨hctl, -, hd⟩ := h.known
  refine ⟨?_, ?_, ?_, ?_, ?_, ?_, ?_, hd.noRoom⟩
  · intro hloop hstopped
    have hserves : pc.Serves ∨ pc = .build := by
      cases pc with
      | loop => exact absurd rfl hloop
      | stopped e => exact absurd rfl (hstopped e)
      | build => exact Or.inr rfl
      | line | parseLine | copyUri | headers | parseHeader | hand | write => exact Or.inl trivial
    exact (hctl.serving hserves).buf
  · rintro rfl hfd hdata
    rcases hctl with hc | hc | hc | hc | hc
    · exact absurd hc.fd hfd
    · exact absurd hc.data hdata
    · obtain ⟨b, hb, hin, -⟩ := hc.buf
      exact ⟨b, hb, hin⟩
    -- a request waits for its rest
    · exact hc.buf
    · exact hc.buf
  · intro x hx
    obtain ⟨hpos, hend⟩ := hd.reads x hx
    exact ⟨hpos, hend, fun v => recv_room hpos⟩
  · rintro rfl b hb
    obtain ⟨b', hb', hne⟩ := hctl.2.2
    have hsame : b' = b := Option.some.inj (hb'.symm.trans hb)
    rw [hsame] at hne
    have hin := hctl.1.toServing.inBuf hb
    exact readRequestHeader_fills hctl.1.toServing.alive hb
      fun hnil => hin.room_pos hnil (hne hnil).ne
  · rintro rfl b hb
    exact requestHeadersRead_fills (hctl.1.toServing.inBuf hb) hctl.1.toServing.alive hb
  · rintro rfl
    exact Goes.enough (fun e h => by cases h) (processRequestLine_goes hctl)
  · rintro rfl
    exact Goes.enough (fun e h => by cases h) (processRequestHeaders_goes hctl)

/-- One request: its bytes are in the buffer, and the call that has read them was for all of it. -/
theorem input_buffer_discipline_served :
    (∃ b, ((servedReceived.noteRecv (.temp EHD_DEFAULT_BUF_SIZE) servedBytes.length).setBuf
      (inputBuf servedBytes 0)).c.buf = some b ∧ InBuf b ∧ b.unread = servedBytes) ∧
    ((0, EHD_DEFAULT_BUF_SIZE) ∈ servedReceived.t.reads ++ [(0, EHD_DEFAULT_BUF_SIZE)] ∧
      0 < EHD_DEFAULT_BUF_SIZE) := by
  have h := input_buffer_discipline served_passes
  obtain ⟨b, hb, hin⟩ := h.1 (fun h => nomatch h) (fun e h => nomatch h)
  have hmem : (0, EHD_DEFAULT_BUF_SIZE) ∈ servedReceived.t.reads ++ [(0, EHD_DEFAULT_BUF_SIZE)] :=
    List.mem_append_right _ (List.mem_singleton.2 rfl)
  refine ⟨⟨b, hb, hin, ?_⟩, hmem, (h.2.2.1 _ hmem).1⟩
  cases hb
  rfl

end Ehd.Http
