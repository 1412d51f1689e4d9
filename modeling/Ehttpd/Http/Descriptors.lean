import Ehttpd.Http.Framing

namespace Ehd.Http

open Program World

variable {w w' w₁ : World} {p q : Pc}

def Chained (w : World) (fd : Int) : Prop :=
  ∃ b ∈ w.r.response.data, ∃ f, b.file = some f ∧ f.fd = fd

def Unsent (w : World) : Prop := ∃ b ∈ w.r.response.data, 0 < b.left

/-- The descriptor belongs to the answer of an open connection, which is not finished. -/
structure Held (w : World) (fd : Int) : Prop where
  responding : Responding w
  unsent : Unsent w
  chained : Chained w fd

/-- Every descriptor that was opened for a request and is still open belongs to an answer on its
way. -/
def NoLeak (w : World) : Prop := ∀ x ∈ w.t.opens, w.k.opened x.fd = true → Held w x.fd

/-- No request that has opened a file is over: `stat` gave the size of the file,
`ehd_http_keep_alive` has not been called since, and the connection is not closed. -/
def Underway (w : World) : Prop :=
  ∀ x ∈ w.t.opens, x.sized = true ∧ w.t.keepAlives.length < x.request ∧ w.c.fd ≠ -1

def Counted (w : World) : Prop := ∀ x ∈ w.t.opens, x.request ≤ w.t.handed.length

def OfLast (w : World) : Prop :=
  ∀ x ∈ w.t.opens, x.request = w.t.handed.length → x.sized = true → Chained w x.fd

/-- What is known of the opened files at each point; of a closed connection nothing is. -/
def Books : Pc → World → Prop
  | .loop, w => w.c.fd = -1 ∨
      Counted w ∧ (w.c.ev.events = writeMask → OfLast w ∧ Unsent w)
  | .build, w => ∀ x ∈ w.t.opens, x.request < w.t.handed.length
  | .write _, w => Counted w ∧ OfLast w
  | .stopped _, _ => True
  | _, w => Counted w

structure SameBooks (w w' : World) : Prop where
  handed : w'.t.handed = w.t.handed
  opens : w'.t.opens = w.t.opens

theorem sameBooks_of_t (h : w'.t = w.t) : SameBooks w w' := by
  constructor <;> rw [h]

theorem Took.sameBooks {bs : List UInt8} (h : w.Took w' bs) : SameBooks w w' := by
  constructor <;> rw [h.t]

theorem Wrote.sameBooks {last n : Nat} {b : Buf} {x : SendResult} (h : w.Wrote w' last b n x) :
    SameBooks w w' := by
  obtain ⟨bs, -, ht⟩ := h.t
  constructor <;> rw [ht]

theorem Counted.same (h : Counted w) (hs : SameBooks w w') : Counted w' := by
  intro x hx
  rw [hs.opens] at hx
  rw [hs.handed]
  exact h x hx

theorem OfLast.same (h : OfLast w) (hs : SameBooks w w') (hr : w'.r.response.data = w.r.response.data) :
    OfLast w' := by
  intro x hx hlast hsized
  rw [hs.opens] at hx
  rw [hs.handed] at hlast
  unfold Chained
  rw [hr]
  exact h x hx hlast hsized

theorem file_advance {b : Buf} {f : File} (n : Nat) (h : b.file = some f) :
    ∃ f', (b.advance n).file = some f' ∧ f'.fd = f.fd := by
  unfold Buf.advance
  split
  · exact ⟨f, h, rfl⟩
  · exact ⟨{ f with sysOffset := f.sysOffset + n }, by simp [h], rfl⟩

theorem Wrote.chained {last n : Nat} {b : Buf} {x : SendResult} {fd : Int}
    (hb : w.r.response.data[last]? = some b) (h : w.Wrote w' last b n x) (hc : Chained w fd) :
    Chained w' fd := by
  obtain ⟨b', hmem, f, hf, hfd⟩ := hc
  obtain ⟨i, hi, rfl⟩ := List.getElem_of_mem hmem
  have hdata : w'.r.response.data = w.r.response.data.set last (b.advance n) := by rw [h.r]
  by_cases hlast : i = last
  · -- the buffer that has been written
    subst hlast
    rw [List.getElem?_eq_getElem hi] at hb
    obtain rfl := Option.some.inj hb
    obtain ⟨f', hf', hfd'⟩ := file_advance n hf
    refine ⟨_, ?_, f', hf', hfd'.trans hfd⟩
    rw [hdata]
    exact List.mem_set hi _
  · refine ⟨_, ?_, f, hf, hfd⟩
    rw [hdata]
    apply List.mem_of_getElem? (i := i)
    rw [List.getElem?_set_ne (Ne.symm hlast), List.getElem?_eq_getElem hi]

theorem Wrote.ofLast {last n : Nat} {b : Buf} {x : SendResult}
    (hb : w.r.response.data[last]? = some b) (h : w.Wrote w' last b n x) (hl : OfLast w) :
    OfLast w' := by
  intro y hy hlast hsized
  have hs := Wrote.sameBooks h
  rw [hs.opens] at hy
  rw [hs.handed] at hlast
  exact Wrote.chained hb h (hl y hy hlast hsized)

theorem Wrote.unsent {last : Nat} {b : Buf} {x : SendResult}
    (hb : w.r.response.data[last]? = some b) (h : w.Wrote w' last b 0 x) (hpos : 0 < b.left) :
    Unsent w' := by
  obtain ⟨hlt, -⟩ := List.getElem?_eq_some_iff.1 hb
  refine ⟨b, ?_, hpos⟩
  have hdata : w'.r.response.data = w.r.response.data.set last (b.advance 0) := by rw [h.r]
  rw [hdata, Buf.advance_zero]
  exact List.mem_set hlt _

theorem books_reading (h : Counted w) (hmask : w.c.ev.events = readMask) : Books .loop w := by
  refine Or.inr ⟨h, fun hwrite => ?_⟩
  rw [hmask] at hwrite
  exact absurd hwrite (by decide)

theorem Books.open (h : Books .loop w) (hfd : w.c.fd ≠ -1) :
    Counted w ∧ (w.c.ev.events = writeMask → OfLast w ∧ Unsent w) := by
  rcases h with hc | h
  · exact absurd hc hfd
  · exact h

/-- The file that a handler opens is the one of its answer. -/
theorem Answered.books {ns : List (List UInt8)} {a : Answer} {f : File}
    (h : ∀ x ∈ w.t.opens, x.request < w.t.handed.length) (ha : Answered ns w w₁ a f) :
    Counted w₁ ∧ OfLast w₁ := by
  have hhanded : w₁.t.handed = w.t.handed := (Filling.sameWire ha.toFilling).handed
  obtain ⟨os, hos, hnew⟩ := ha.opens
  constructor
  · intro x hx
    rw [hos] at hx
    rw [hhanded]
    rcases List.mem_append.1 hx with hx | hx
    · exact (h x hx).le
    · exact (hnew x hx).1.le
  · intro x hx hlast hsized
    rw [hos] at hx
    rw [hhanded] at hlast
    rcases List.mem_append.1 hx with hx | hx
    · exact absurd hlast (h x hx).ne
    · obtain ⟨hbody, hfd⟩ := (hnew x hx).2 hsized
      refine ⟨fileBody f, ?_, f, rfl, hfd⟩
      rw [ha.response, hbody]
      exact List.mem_cons_of_mem _ (List.mem_singleton_self _)

/-- Every move keeps the books. -/
theorem Move.books (hctl : Ctl p w) (h : Books p w) (hm : Move (p, w) (q, w')) : Books q w' := by
  cases hm with
  | start hr hs => exact (h.open (start_open hs).fd).1.same (sameBooks_of_t hr.t)
  | startFails hs hc =>
    obtain ⟨cp, hcp, -⟩ := (start_open hs).pool
    exact Or.inl (fd_closeConnection (hc.pool.trans hcp))
  | startCloses hr hs hb hsc =>
    obtain ⟨cp, hcp, -⟩ := (Reported.open (start_open hs) hr).pool
    exact Or.inl (fd_closeBoth (hsc.pool.trans hcp))
  | resumeLine hr hw _ => exact (h.open hw.fd).1.same (sameBooks_of_t hr.t)
  | resumeHeaders hr hw _ => exact (h.open hw.fd).1.same (sameBooks_of_t hr.t)
  | resumeWrite hr hw =>
    obtain ⟨hcounted, hwrite⟩ := h.open hw.fd
    have hs := sameBooks_of_t hr.t
    exact ⟨hcounted.same hs, (hwrite hw.mask).1.same hs (by rw [hr.r])⟩
  | «have» hread _ _ => cases hread <;> exact h
  | @recv _ _ _ w₁ b bs hread _ _ _ ht _ _ =>
    have hs : SameBooks w ((w₁.noteRecv b bs.length).setBuf (b.append bs)) :=
      ⟨(Took.sameBooks ht).handed, (Took.sameBooks ht).opens⟩
    cases hread
    · exact Counted.same h hs
    · exact Counted.same h hs
  | idle hread _ _ =>
    have hmask := (hread.reading hctl).1.mask
    cases hread
    · exact books_reading h hmask
    · exact books_reading h hmask
  | @wait _ _ _ w₁ b hread _ _ _ ht =>
    have hmask : w₁.c.ev.events = readMask := ht.events.trans (hread.reading hctl).1.mask
    have hs : SameBooks w (w₁.noteRecv b EHD_AGAIN) :=
      ⟨(Took.sameBooks ht).handed, (Took.sameBooks ht).opens⟩
    cases hread
    · exact books_reading (Counted.same h hs) hmask
    · exact books_reading (Counted.same h hs) hmask
  | @hangup _ w₁ b n _ _ ht _ =>
    exact Or.inl (fd_closeBoth (w := w₁.noteRecv b n) (hctl.1.took ht).home)
  | @hangupTwice _ w₁ b n _ _ ht _ =>
    exact Or.inl (fd_closeBoth ((hctl.1.took ht).pool_hungUp b n))
  | fail hp hs => exact Or.inl (fd_closeBoth (hs.pool.trans (hctl.serving (Or.inl hp)).home))
  | noRoom hfull hs =>
    exact Or.inl (fd_closeBoth (hs.pool.trans (hctl.serving (Or.inl hfull.serves)).home))
  | lineMore _ _ _ => exact Counted.same h ⟨rfl, rfl⟩
  | lineDone _ _ => exact Counted.same h ⟨rfl, rfl⟩
  | stored hs => exact Counted.same h (sameBooks_of_t hs.t)
  | headerNext => exact h
  | headerMore _ _ => exact Counted.same h ⟨rfl, rfl⟩
  | @headerDone _ w₁ b b' p' _ _ hs =>
    have hsame : SameBooks (w.parsed p' b') w' := sameBooks_of_t hs.t
    exact Counted.same h ⟨hsame.handed, hsame.opens⟩
  | headersDone _ _ => exact Counted.same h ⟨rfl, rfl⟩
  | @hand _ b _ =>
    -- the descriptors noted so far belong to requests handed over before
    intro x hx
    have hle := h x hx
    show x.request < (w.t.handed ++ [handedOver w.r b]).length
    rw [List.length_append]
    exact Nat.lt_succ_of_le hle
  | build ha =>
    obtain ⟨hcounted, hlast⟩ := Answered.books h ha
    exact ⟨hcounted.same ⟨rfl, rfl⟩, hlast.same ⟨rfl, rfl⟩ rfl⟩
  | sent hb hw _ _ => exact ⟨h.1.same (Wrote.sameBooks hw), Wrote.ofLast hb hw h.2⟩
  | full hb hw hpos =>
    exact Or.inr ⟨h.1.same (Wrote.sameBooks hw),
      fun _ => ⟨Wrote.ofLast hb hw h.2, Wrote.unsent hb hw hpos⟩⟩
  | @keepAlive m pool _ w₁ b inBuf _ hw _ _ _ =>
    have hs := Wrote.sameBooks hw
    have hcounted : Counted ((w₁.idle inBuf pool).registered readMask true) :=
      h.1.same ⟨hs.handed, hs.opens⟩
    exact books_reading hcounted rfl
  | keepAliveFails hb hw _ _ _ _ =>
    exact Or.inl (fd_closeConnection (hctl.1.wrote hb hw).toServing.home)
  | _ => trivial

theorem Run.books {P : Kernel → Prop} {o : Option Stop} (h : Run P o w) : Books (.ofRun o) w := by
  refine And.right (Calls.invariant
    (I := fun o w => Ctl (.ofRun o) w ∧ Books (.ofRun o) w) ?_ ?_ ?_ h)
  · rintro w ⟨haccepted, -⟩
    refine ⟨InLoop.connected haccepted.connected, books_reading ?_ haccepted.connected.mask⟩
    intro x hx
    rw [haccepted.t] at hx
    cases hx
  · rintro w x ⟨hctl, hbooks⟩ ⟨events, hev, rfl⟩
    exact Walks.invariant (I := fun p w => Ctl p w ∧ Books p w)
      (fun p w q w' hp hm => ⟨Move.ctl hp.1 hm, Move.books hp.1 hp.2 hm⟩)
      (dispatch_goes hctl hev) ⟨hctl, hbooks⟩
  · rintro w w' ⟨hctl, hbooks⟩ ⟨k, -, hk, rfl⟩
    exact ⟨InLoop.onKernel hctl hk, hbooks⟩

/-- An answer has been finished for each request but the one that is being answered. -/
theorem Wire.kept (hctl : InLoop w) (h : Wire .loop w) (hfd : w.c.fd ≠ -1) :
    w.t.handed.length = w.t.keepAlives.length ∨
      Responding w ∧ w.t.handed.length = w.t.keepAlives.length + 1 := by
  have hquiet : w.c.ev.events = readMask → w.t.handed.length = w.t.keepAlives.length := by
    intro hmask
    obtain ⟨done, hq⟩ := h.reads hfd hmask
    have hlen := hq.wire.answers.length_eq
    rw [List.length_map, List.length_append] at hlen
    rw [hq.wire.keepAlives, ← hlen]
    rfl
  rcases hctl with hc | hc | hc | hc | hc
  · exact absurd hc.fd hfd
  · exact Or.inl (hquiet hc.mask)
  · exact Or.inl (hquiet hc.mask)
  · exact Or.inl (hquiet hc.mask)
  · obtain ⟨done, d, hmid⟩ := h.writes hfd hc.mask
    have hlen := hmid.wire.answers.length_eq
    rw [List.length_map, List.length_append] at hlen
    refine Or.inr ⟨hc, ?_⟩
    rw [hmid.wire.keepAlives, ← hlen]
    rfl

/-- While no request that has opened a file is over, every descriptor of a file belongs to the
answer that is being sent. -/
theorem descriptors_held {P : Kernel → Prop} (h : Run P none w) (hunder : Underway w) :
    NoLeak w := by
  intro x hx _
  obtain ⟨hsized, hkept, hfd⟩ := hunder x hx
  obtain ⟨hcounted, hwrite⟩ := h.books.open hfd
  have hle := hcounted x hx
  rcases h.wire.kept h.ctl hfd with hlen | ⟨hresp, hlen⟩
  · -- the request of `x` would be one more
    omega
  · obtain ⟨hlast, hunsent⟩ := hwrite hresp.mask
    exact ⟨hresp, hunsent, hlast x hx (by omega) hsized⟩

theorem five_inRange : 5 < 2 ^ 63 := by decide

def fileKernel (sends : List SendResult) : Kernel :=
  { sampleKernel [.data (ascii "GET /a HTTP/1.1\x0d\n\x0d\n")] sends with
    stat := fun _ _ => some ⟨.reg, 5, five_inRange⟩
    openFd := fun _ _ => some 9 }

/-- A request for the file, and how much of the answer the socket takes. -/
def fileWorld (sends : List SendResult) : World :=
  { sampleWorld [] [] with k := fileKernel sends }

theorem fileWorld_run {sends : List SendResult}
    (h : returns (dispatch EPOLLIN) (fileWorld sends) = true) :
    Run (fun _ => True) none (after (dispatch EPOLLIN) (fileWorld sends)) := by
  have hstart : Run (fun _ => True) none (fileWorld sends) :=
    Calls.init ⟨⟨⟨7, 0, 7, 0, rfl, by decide, Nat.one_pos⟩, rfl⟩, trivial⟩
  apply hstart.dispatch
  · unfold Registered
    show (EPOLLIN &&& EPOLLIN ≠ 0 → readMask &&& EPOLLIN ≠ 0) ∧
      (EPOLLIN &&& EPOLLOUT ≠ 0 → readMask &&& EPOLLOUT ≠ 0)
    decide
  · exact h

theorem descriptors_held_head_sent :
    Held (after (dispatch EPOLLIN) (fileWorld [.sent 10000, .again])) 9 := by
  have hret : returns (dispatch EPOLLIN) (fileWorld [.sent 10000, .again]) = true := by
    decide +kernel
  have hrun := fileWorld_run hret
  have hopens : (after (dispatch EPOLLIN) (fileWorld [.sent 10000, .again])).t.opens =
      [⟨1, 9, true⟩] := by
    decide +kernel
  have hkept : (after (dispatch EPOLLIN)
      (fileWorld [.sent 10000, .again])).t.keepAlives.length < 1 := by
    decide +kernel
  have hfd : (after (dispatch EPOLLIN) (fileWorld [.sent 10000, .again])).c.fd ≠ -1 := by
    decide +kernel
  have hopen : (after (dispatch EPOLLIN) (fileWorld [.sent 10000, .again])).k.opened 9 = true := by
    decide +kernel
  revert hrun hopens hkept hfd hopen
  generalize after (dispatch EPOLLIN) (fileWorld [.sent 10000, .again]) = w
  intro hrun hopens hkept hfd hopen
  have hunder : Underway w := by
    intro x hx
    rw [hopens] at hx
    obtain rfl := List.mem_singleton.1 hx
    exact ⟨rfl, hkept, hfd⟩
  refine descriptors_held hrun hunder ⟨1, 9, true⟩ ?_ hopen
  rw [hopens]
  exact List.mem_singleton_self _

/-- The file stays open when its request has been answered. -/
theorem descriptor_leaked : ¬ ∀ w : World, Run (fun _ => True) none w → NoLeak w := by
  have hret : returns (dispatch EPOLLIN) (fileWorld [.sent 10000, .sent 10000]) = true := by
    decide +kernel
  have hrun := fileWorld_run hret
  have hopens : (after (dispatch EPOLLIN) (fileWorld [.sent 10000, .sent 10000])).t.opens =
      [⟨1, 9, true⟩] := by
    decide +kernel
  have hopen : (after (dispatch EPOLLIN)
      (fileWorld [.sent 10000, .sent 10000])).k.opened 9 = true := by
    decide +kernel
  have hmask : (after (dispatch EPOLLIN)
      (fileWorld [.sent 10000, .sent 10000])).c.ev.events = readMask := by
    decide +kernel
  revert hrun hopens hopen hmask
  generalize after (dispatch EPOLLIN) (fileWorld [.sent 10000, .sent 10000]) = w
  intro hrun hopens hopen hmask h
  have hheld : Held w 9 := by
    apply h w hrun ⟨1, 9, true⟩ _ hopen
    rw [hopens]
    exact List.mem_singleton_self _
  -- nothing is being sent
  rw [hheld.responding.mask] at hmask
  exact absurd hmask (by decide)

end Ehd.Http
