import Ehttpd.Http.Reply

namespace Ehd

open Program

namespace Buf

def left (b : Buf) : Nat :=
  if b.type = 0 then b.unread.length
  else
    match b.file with
    | none => 0
    | some f => f.size - f.sysOffset

def advance (b : Buf) (n : Nat) : Buf :=
  if b.type = 0 then { b with pos := b.pos + n }
  else { b with file := b.file.map fun f => { f with sysOffset := f.sysOffset + n } }

/-- Where bytes that are sent from a buffer are read from, when that is a file. -/
def origin (b : Buf) (bs : List UInt8) : List FileByte :=
  if b.type = 0 then []
  else
    match b.file with
    | none => []
    | some f => readAt f.fd f.sysOffset bs

def Sendable (b : Buf) : Prop := b.type ≠ 0 → b.file ≠ none

@[simp] theorem advance_type (b : Buf) (n : Nat) : (b.advance n).type = b.type := by
  unfold advance; split <;> rfl

theorem Sendable.advance {b : Buf} (h : b.Sendable) (n : Nat) : (b.advance n).Sendable := by
  intro ht
  rw [advance_type] at ht
  unfold Buf.advance
  rw [if_neg ht]
  simpa using h ht

theorem left_advance (b : Buf) (n : Nat) : (b.advance n).left = b.left - n := by
  unfold left
  rw [advance_type]
  by_cases h : b.type = 0
  · rw [if_pos h, if_pos h]
    unfold advance
    rw [if_pos h]
    simp only [unread, List.length_drop]
    omega
  · rw [if_neg h, if_neg h]
    unfold advance
    rw [if_neg h]
    cases b.file with
    | none => simp
    | some f =>
      simp only [Option.map_some]
      omega

@[simp] theorem advance_zero (b : Buf) : b.advance 0 = b := by
  unfold advance
  split
  · rfl
  · cases b with
    | mk bytes pos size type file => cases file <;> rfl

@[simp] theorem origin_nil (b : Buf) : b.origin [] = [] := by
  unfold origin
  split
  · rfl
  · cases b.file <;> rfl

theorem advance_advance (b : Buf) (m n : Nat) : (b.advance m).advance n = b.advance (m + n) := by
  unfold advance
  by_cases h : b.type = 0
  · simp only [if_pos h, Nat.add_assoc]
  · simp only [if_neg h]
    cases b.file with
    | none => rfl
    | some f => simp only [Option.map_some, Nat.add_assoc]

end Buf

namespace World

/-- `n` bytes of the buffer `b` at place `last` of the chain have been sent, and
the result `x` has been used up; the results skipped before it were `EINTR`. -/
structure Wrote (w w' : World) (last : Nat) (b : Buf) (n : Nat) (x : SendResult) : Prop where
  conf : w'.conf = w.conf
  c : w'.c = { w.c with ev := w'.c.ev }
  events : w'.c.ev.events = w.c.ev.events
  closed : w'.c.ev.closed = w.c.ev.closed
  hc : w'.hc = w.hc
  r : w'.r = { w.r with response := { w.r.response with
    data := w.r.response.data.set last (b.advance n) } }
  k : w.k.Steady w'.k
  recvs : w'.k.recvs = w.k.recvs
  sends : ∃ skipped, (∀ y ∈ skipped, y = .intr) ∧ w.k.sends = skipped ++ x :: w'.k.sends
  t : ∃ bs, bs.length = n ∧ w'.t = { w.t with
    sent := w.t.sent ++ bs, fromFile := w.t.fromFile ++ b.origin bs }
  /-- from memory, the next bytes were sent -/
  memory : b.type = 0 → w'.t.sent = w.t.sent ++ b.unread.take n

structure Stalled (w w' : World) : Prop where
  conf : w'.conf = w.conf
  c : w'.c = { w.c with ev := w'.c.ev }
  events : w'.c.ev.events = w.c.ev.events
  closed : w'.c.ev.closed = w.c.ev.closed
  hc : w'.hc = w.hc
  r : w'.r = w.r
  k : w.k.Steady w'.k
  recvs : w'.k.recvs = w.k.recvs
  t : w'.t = w.t

theorem Stalled.refl (w : World) : w.Stalled w :=
  ⟨rfl, rfl, rfl, rfl, rfl, rfl, .refl _, rfl, rfl⟩

def NextSend (k k' : Kernel) (x : SendResult) : Prop :=
  ∃ skipped, (∀ y ∈ skipped, y = .intr) ∧ k.sends = skipped ++ x :: k'.sends

end World

variable {w : World} {E : Stop → World → Prop}

/-- The loop of `ehd_send`, by induction on the results to come. -/
theorem send_go_rule {bs : List UInt8} {Q : Int → World → Prop} {skipped ss : List SendResult}
    {w₀ : World} (hstall : w₀.Stalled w) (hskipped : ∀ y ∈ skipped, y = .intr)
    (hss : w.k.sends = ss) (hw₀ : w₀.k.sends = skipped ++ ss)
    (hsent : ∀ w' m sent, World.NextSend w₀.k w'.k (.sent m) →
      w₀.Stalled { w' with t := w₀.t } → sent = bs.take m →
      w'.t = { w₀.t with sent := w₀.t.sent ++ sent } → Q ((min m bs.length : Nat) : Int) w')
    (hagain : ∀ w', World.NextSend w₀.k w'.k .again → w₀.Stalled w' → w'.k.errno = .again →
      Q EHD_AGAIN w')
    (hfail : ∀ w', World.NextSend w₀.k w'.k .fail → w₀.Stalled w' → w'.k.errno = .other →
      Q EHD_ERROR w')
    (hblock : ∀ w', (∀ y ∈ w₀.k.sends, y = .intr) → w₀.Stalled w' → E .blocked w') :
    wp (send.go bs ss) Q E w := by
  induction ss generalizing w skipped with
  | nil =>
    refine hblock w ?_ hstall
    rw [hw₀, List.append_nil]
    exact hskipped
  | cons x rest ih =>
    -- a result that takes no bytes leaves all but the flags of the event
    have hstall' : ∀ (f : Event → Event) (e : Errno),
        (∀ ev, (f ev).events = ev.events ∧ (f ev).closed = ev.closed) →
        w₀.Stalled ((w.onK fun k => { k with sends := rest, errno := e }).onEv f) := by
      intro f e hf
      refine ⟨hstall.conf, ?_, (hf _).1.trans hstall.events, (hf _).2.trans hstall.closed,
        hstall.hc, hstall.r, hstall.k.trans ⟨rfl, rfl, rfl, rfl, fun _ h => h⟩, hstall.recvs,
        hstall.t⟩
      simp only [World.onEv, World.onC, World.onK]
      rw [hstall.c]
    cases x with
    | sent m =>
      simp only [send.go, wp_bind, wp_modify, wp_pure]
      have h := hstall' (fun ev => { ev with wready := ev.wready && !(min m bs.length < bs.length) })
        w.k.errno (fun ev => ⟨rfl, rfl⟩)
      refine hsent _ m (bs.take m) ⟨skipped, hskipped, hw₀⟩
        ⟨h.conf, h.c, h.events, h.closed, h.hc, h.r, h.k, h.recvs, rfl⟩ rfl ?_
      show { w.t with sent := w.t.sent ++ bs.take m } = _
      rw [hstall.t]
    | intr =>
      simp only [send.go, wp_bind, wp_modify]
      -- an interrupted call is made again
      have hstall₁ := hstall' id .intr fun ev => ⟨rfl, rfl⟩
      refine @ih _ (skipped ++ [SendResult.intr]) hstall₁ ?_ rfl ?_
      · intro y hy
        rcases List.mem_append.1 hy with hy | hy
        · exact hskipped y hy
        · exact List.mem_singleton.1 hy
      · rw [hw₀, List.append_assoc]; rfl
    | again =>
      simp only [send.go, wp_bind, wp_modify, wp_pure]
      exact hagain _ ⟨skipped, hskipped, hw₀⟩
        (hstall' (fun ev => { ev with wready := false }) .again fun ev => ⟨rfl, rfl⟩) rfl
    | fail =>
      simp only [send.go, wp_bind, wp_modify, wp_pure]
      exact hfail _ ⟨skipped, hskipped, hw₀⟩
        (hstall' (fun ev => { ev with rready := false, error := true }) .other
          fun ev => ⟨rfl, rfl⟩) rfl

/-- `ehd_send` of a buffer in memory. -/
theorem send_rule {bs : List UInt8} {Q : Int → World → Prop}
    (hempty : bs.length = 0 → ∀ w', w.Stalled w' → Q 0 w')
    (hsent : 0 < bs.length → ∀ w' m sent, World.NextSend w.k w'.k (.sent m) →
      w.Stalled { w' with t := w.t } → sent = bs.take m →
      w'.t = { w.t with sent := w.t.sent ++ sent } → Q ((min m bs.length : Nat) : Int) w')
    (hagain : 0 < bs.length → ∀ w', World.NextSend w.k w'.k .again → w.Stalled w' →
      w'.k.errno = .again → Q EHD_AGAIN w')
    (hfail : 0 < bs.length → ∀ w', World.NextSend w.k w'.k .fail → w.Stalled w' →
      w'.k.errno = .other → Q EHD_ERROR w')
    (hblock : 0 < bs.length → ∀ w', (∀ y ∈ w.k.sends, y = .intr) → w.Stalled w' → E .blocked w') :
    wp (send bs) Q E w := by
  unfold send
  by_cases hbs : bs.length = 0
  · rw [if_pos hbs]
    exact hempty hbs _ ⟨rfl, rfl, rfl, rfl, rfl, rfl, .refl _, rfl, rfl⟩
  · have hpos : 0 < bs.length := Nat.pos_of_ne_zero hbs
    rw [if_neg hbs, wp_bind, wp_get]
    have hskipped : ∀ y ∈ ([] : List SendResult), y = .intr := by simp
    exact send_go_rule (.refl w) hskipped rfl rfl (hsent hpos) (hagain hpos) (hfail hpos)
      (hblock hpos)

/-- `sendfile` takes the next result whatever it is. -/
theorem sendfile_rule {fd : Int} {offset count : Nat} {Q : Int → World → Prop}
    (hempty : count = 0 → Q 0 w)
    (hsent : 0 < count → ∀ w' m sent, World.NextSend w.k w'.k (.sent m) →
      w.Stalled { w' with t := w.t } → sent.length = min m count →
      w'.t = { w.t with
        sent := w.t.sent ++ sent, fromFile := w.t.fromFile ++ readAt fd offset sent } →
      Q ((min m count : Nat) : Int) w')
    (hagain : 0 < count → ∀ w', World.NextSend w.k w'.k .again → w.Stalled w' →
      w'.k.errno = .again → Q (-1) w')
    (hfail : 0 < count → ∀ w' x, World.NextSend w.k w'.k x → x = .intr ∨ x = .fail →
      w.Stalled w' → w'.k.errno ≠ .again → Q (-1) w')
    (hblock : 0 < count → w.k.sends = [] → E .blocked w) :
    wp (sendfile fd offset count) Q E w := by
  unfold sendfile
  by_cases hcount : count = 0
  · rw [if_pos hcount]
    exact hempty hcount
  · have hpos : 0 < count := Nat.pos_of_ne_zero hcount
    have hk : ∀ rest e, w.k.Steady { w.k with sends := rest, errno := e } :=
      fun rest e => ⟨rfl, rfl, rfl, rfl, fun _ h => h⟩
    rw [if_neg hcount, wp_bind, wp_get]
    cases hs : w.k.sends with
    | nil => exact hblock hpos hs
    | cons x rest =>
      cases x with
      | sent m =>
        simp only [wp_bind, wp_modify, wp_pure]
        refine hsent hpos _ m _ ⟨[], by simp, hs⟩
          ⟨rfl, rfl, rfl, rfl, rfl, rfl, hk rest w.k.errno, rfl, rfl⟩ ?_ rfl
        simp [Kernel.fileBytes]
      | again =>
        simp only [wp_bind, wp_modify, wp_pure]
        exact hagain hpos _ ⟨[], by simp, hs⟩
          ⟨rfl, rfl, rfl, rfl, rfl, rfl, hk rest .again, rfl, rfl⟩ rfl
      | intr =>
        simp only [wp_bind, wp_modify, wp_pure]
        exact hfail hpos _ .intr ⟨[], by simp, hs⟩ (Or.inl rfl)
          ⟨rfl, rfl, rfl, rfl, rfl, rfl, hk rest .intr, rfl, rfl⟩ (by simp)
      | fail =>
        simp only [wp_bind, wp_modify, wp_pure]
        exact hfail hpos _ .fail ⟨[], by simp, hs⟩ (Or.inr rfl)
          ⟨rfl, rfl, rfl, rfl, rfl, rfl, hk rest .other, rfl, rfl⟩ (by simp)

namespace Http

def GivesUp (x : SendResult) : Prop := x ≠ .again ∧ ∀ m, 0 < m → x ≠ .sent m

/-- The five ways a round of `ehd_http_writer` goes on: at the same buffer, at
the next one, with `ehd_http_keep_alive`, back to the event loop, or closing
everything; the sixth is that there is no result yet. -/
structure Round (fuel last : Nat) (b : Buf) (w : World) (Q : Unit → World → Prop)
    (E : Stop → World → Prop) : Prop where
  more : ∀ w' m n, w.Wrote w' last b n (.sent m) → 0 < n → n = min m b.left → n < b.left →
    wp (writerLoop fuel last) Q E w'
  next : ∀ w' m, w.Wrote w' last b b.left (.sent m) → 0 < b.left → b.left ≤ m →
    last + 1 ≠ w.r.response.data.length → wp (writerLoop fuel (last + 1)) Q E w'
  done : ∀ w' m, w.Wrote w' last b b.left (.sent m) → 0 < b.left → b.left ≤ m →
    last + 1 = w.r.response.data.length → wp keepAlive Q E w'
  wait : ∀ w', w.Wrote w' last b 0 .again → 0 < b.left → Q () w'
  close : ∀ w', w.Stalled w' → (b.left = 0 ∨ ∃ x, World.NextSend w.k w'.k x ∧ GivesUp x) →
    Q () w'.closeBoth
  block : 0 < b.left → ∀ w', (∀ y ∈ w.k.sends, y = .intr) → w.Stalled w' → E .blocked w'

theorem set_getElem? {chain : List Buf} {last : Nat} {b : Buf} (hb : chain[last]? = some b) :
    chain.set last b = chain := by
  obtain ⟨hlast, rfl⟩ := List.getElem?_eq_some_iff.1 hb
  exact List.set_getElem_self hlast

/-- The store after a transfer of `n` bytes. -/
theorem wrote_of_stalled {last n : Nat} {b : Buf} {w' : World} {x : SendResult}
    {sent : List UInt8} (h : w.Stalled { w' with t := w.t }) (hx : World.NextSend w.k w'.k x)
    (hlen : sent.length = n)
    (ht : w'.t = { w.t with
      sent := w.t.sent ++ sent, fromFile := w.t.fromFile ++ b.origin sent })
    (hmem : b.type = 0 → sent = b.unread.take n) :
    w.Wrote (w'.onR fun r => { r with response := { r.response with
      data := r.response.data.set last (b.advance n) } }) last b n x := by
  refine ⟨h.conf, h.c, h.events, h.closed, h.hc, ?_, h.k, h.recvs, hx, ⟨sent, hlen, ht⟩, ?_⟩
  · have hr : w'.r = w.r := h.r
    rw [World.onR_r, hr]
  · intro htype
    rw [← hmem htype]
    show w'.t.sent = _
    rw [ht]

theorem onR_set_zero {last : Nat} {b : Buf} (hb : w.r.response.data[last]? = some b) {w' : World}
    (h : w.Stalled w') :
    (w'.onR fun r => { r with response := { r.response with
      data := r.response.data.set last (b.advance 0) } }) = w' := by
  have hset : w'.r.response.data.set last (b.advance 0) = w'.r.response.data := by
    rw [h.r, Buf.advance_zero, set_getElem? hb]
  simp only [World.onR, hset]

/-- One transfer, of memory or of a file. -/
theorem transfer_rule {last : Nat} {b : Buf} {Q : Int × Bool → World → Prop}
    (hb : w.r.response.data[last]? = some b) (hsendable : b.Sendable)
    (hempty : b.left = 0 → ∀ w' whole, w.Stalled w' → Q (0, whole) w')
    (hsent : 0 < b.left → ∀ w' m, w.Wrote w' last b (min m b.left) (.sent m) →
      Q (((min m b.left : Nat) : Int), decide (b.left ≤ m)) w')
    (hagain : 0 < b.left → ∀ w' n whole, n < 0 → World.NextSend w.k w'.k .again →
      w.Stalled w' → w'.k.errno = .again → Q (n, whole) w')
    (hfail : 0 < b.left → ∀ w' n whole x, n < 0 → World.NextSend w.k w'.k x →
      x = .intr ∨ x = .fail → w.Stalled w' → w'.k.errno ≠ .again → Q (n, whole) w')
    (hblock : 0 < b.left → ∀ w', (∀ y ∈ w.k.sends, y = .intr) → w.Stalled w' →
      E .blocked w') :
    wp (transfer last b) Q E w := by
  unfold transfer setChainBuf
  by_cases htype : b.type = 0
  -- a buffer in memory: `send` from `pos` on
  · have hleft : b.left = b.unread.length := if_pos htype
    have hadv : ∀ n, { b with pos := b.pos + n } = b.advance n := fun n => by
      unfold Buf.advance
      rw [if_pos htype]
    rw [if_pos htype, wp_bind]
    refine send_rule (fun hlen w' h => ?_) (fun hpos w' m sent hx h hsent₁ ht => ?_)
      (fun hpos w' hx h herr => ?_) (fun hpos w' hx h herr => ?_)
      (fun hpos => hblock (by omega))
    all_goals simp only [wp_bind, wp_modify, wp_pure, hadv]
    · rw [Int.toNat_zero, onR_set_zero hb h]
      exact hempty (hleft.trans hlen) w' _ h
    · have hlen : sent.length = min m b.unread.length := by rw [hsent₁, List.length_take]
      have hmem : sent = b.unread.take (min m b.left) := by
        rw [hsent₁, hleft, List.take_eq_take_min]
      rw [← hleft] at hpos hlen ⊢
      rw [Int.toNat_natCast]
      -- `pos` comes to `last` when the kernel takes all that is left
      have hwhole : (b.pos + min m b.left == (b.advance (min m b.left)).last) =
          decide (b.left ≤ m) := by
        rw [← hadv, Bool.beq_eq_decide_eq, decide_eq_decide]
        have hlen : b.left = b.bytes.length - b.pos := by
          rw [hleft, Buf.unread, List.length_drop]
        simp only [Buf.last]
        omega
      rw [hwhole]
      have ht' : w'.t = { w.t with
          sent := w.t.sent ++ sent, fromFile := w.t.fromFile ++ b.origin sent } := by
        rw [ht, Buf.origin, if_pos htype, List.append_nil]
      exact hsent hpos _ m (wrote_of_stalled h hx hlen ht' fun _ => hmem)
    · rw [show EHD_AGAIN.toNat = 0 from rfl, onR_set_zero hb h]
      exact hagain (by omega) w' _ _ (by decide) hx h herr
    · rw [show EHD_ERROR.toNat = 0 from rfl, onR_set_zero hb h]
      exact hfail (by omega) w' _ _ _ (by decide) hx (Or.inr rfl) h (by rw [herr]; simp)
  · rw [if_neg htype]
    cases hf : b.file with
    | none => exact absurd hf (hsendable htype)
    | some f =>
      -- a file: `sendfile` from its offset on
      have hleft : b.left = f.size - f.sysOffset := by
        unfold Buf.left
        rw [if_neg htype, hf]
      have hadv : ∀ n, { b with file := some { f with sysOffset := f.sysOffset + n } } =
          b.advance n := fun n => by
        unfold Buf.advance
        rw [if_neg htype, hf]
        rfl
      simp only
      rw [wp_bind, ← hleft]
      refine sendfile_rule (fun hlen => ?_) (fun hpos w' m sent hx h hlen ht => ?_)
        (fun hpos w' hx h herr => ?_) (fun hpos w' x hx hxx h herr => ?_) (fun hpos hnil => ?_)
      · simp only [wp_bind, wp_modify, wp_pure, hadv]
        rw [Int.toNat_zero, onR_set_zero hb (.refl w)]
        exact hempty hlen w _ (.refl w)
      · simp only [wp_bind, wp_modify, wp_pure, hadv]
        rw [Int.toNat_natCast]
        have hwhole : (f.sysOffset + min m b.left == f.size) = decide (b.left ≤ m) := by
          rw [Bool.beq_eq_decide_eq, decide_eq_decide]
          omega
        rw [hwhole]
        have ht' : w'.t = { w.t with
            sent := w.t.sent ++ sent, fromFile := w.t.fromFile ++ b.origin sent } := by
          rw [ht, Buf.origin, if_neg htype, hf]
        exact hsent hpos _ m (wrote_of_stalled h hx hlen ht' fun ht₀ => absurd ht₀ htype)
      · simp only [wp_bind, wp_modify, wp_pure, hadv]
        rw [show (-1 : Int).toNat = 0 from rfl, onR_set_zero hb h]
        exact hagain hpos w' _ _ (by decide) hx h herr
      · simp only [wp_bind, wp_modify, wp_pure, hadv]
        rw [show (-1 : Int).toNat = 0 from rfl, onR_set_zero hb h]
        exact hfail hpos w' _ _ x (by decide) hx hxx h herr
      · exact hblock hpos w (by simp [hnil]) (.refl w)

theorem writerLoop_rule {fuel last : Nat} {b : Buf} {Q : Unit → World → Prop}
    (hb : w.r.response.data[last]? = some b) (hsendable : b.Sendable)
    (hround : Round fuel last b w Q E) : wp (writerLoop (fuel + 1) last) Q E w := by
  unfold writerLoop
  rw [wp_bind, wp_get]
  simp only [hb]
  rw [wp_bind]
  refine transfer_rule hb hsendable (fun hlen w' whole h => ?_) (fun hpos w' m h => ?_)
    (fun hpos w' n whole hn hx h herr => ?_) (fun hpos w' n whole x hn hx hxx h herr => ?_)
    hround.block
  · simp only [gt_iff_lt, Int.lt_irrefl, if_false, if_true]
    exact hround.close w' h (Or.inl hlen)
  · by_cases hm : m = 0
    -- a transfer of nothing closes the connection
    · subst hm
      obtain ⟨bs, hbs, ht⟩ := h.t
      have hbs' : bs = [] := List.length_eq_zero_iff.1 (by simpa using hbs)
      have hr : w'.r = w.r := by
        rw [h.r, Nat.zero_min, Buf.advance_zero, set_getElem? hb]
      simp only [Nat.zero_min, Nat.cast_zero, gt_iff_lt, Int.lt_irrefl, if_false, if_true]
      refine hround.close w' ⟨h.conf, h.c, h.events, h.closed, h.hc, hr, h.k, h.recvs, ?_⟩
        (Or.inr ⟨_, h.sends, by simp, ?_⟩)
      · rw [ht, hbs', List.append_nil, Buf.origin_nil, List.append_nil]
      · intro m' hm' heq
        cases heq
        omega
    · have hpos' : ((min m b.left : Nat) : Int) > 0 := by omega
      simp only [if_pos hpos']
      by_cases hall : b.left ≤ m
      · have hmin : min m b.left = b.left := by omega
        rw [hmin] at h
        simp only [hall, decide_true, if_true]
        by_cases hlast : last + 1 = w.r.response.data.length
        · rw [if_pos hlast]
          exact hround.done w' m h hpos hall hlast
        · rw [if_neg hlast]
          exact hround.next w' m h hpos hall hlast
      · simp only [hall, decide_false, Bool.false_eq_true, if_false]
        exact hround.more w' m _ h (by omega) rfl (by omega)
  · have hn' : ¬ n > 0 := by omega
    have hn₀ : n ≠ 0 := by omega
    simp only [if_neg hn', if_neg hn₀]
    rw [wp_bind, wp_get, if_pos herr]
    -- a full socket has taken nothing
    have hw : w.Wrote w' last b 0 .again := by
      have ht : w'.t = { w.t with
          sent := w.t.sent ++ [], fromFile := w.t.fromFile ++ b.origin [] } := by
        rw [h.t, Buf.origin_nil, List.append_nil, List.append_nil]
      have hstalled : w.Stalled { w' with t := w.t } :=
        ⟨h.conf, h.c, h.events, h.closed, h.hc, h.r, h.k, h.recvs, rfl⟩
      have hw := @wrote_of_stalled w last _ b _ _ _ hstalled hx rfl ht fun _ => rfl
      rwa [List.length_nil, onR_set_zero hb h] at hw
    exact hround.wait w' hw hpos
  · have hn' : ¬ n > 0 := by omega
    have hn₀ : n ≠ 0 := by omega
    simp only [if_neg hn', if_neg hn₀]
    rw [wp_bind, wp_get, if_neg herr]
    refine hround.close w' h (Or.inr ⟨x, hx, ?_⟩)
    rcases hxx with rfl | rfl <;> exact ⟨by simp, by simp⟩

end Http

def readMask : UInt32 := EHD_READ_EVENT ||| EPOLLET
def writeMask : UInt32 := EHD_WRITE_EVENT ||| EPOLLET

namespace World

/-- `w` when `ehd_http_keep_alive` registers for reading again: the connection
has no request, and what was unread stands at the start of the buffer. -/
@[simps] def idle (w : World) (b : Buf) (pool : Nat) : World :=
  { w with
    hc := { request := false }
    c := { w.c with
      data := .httpConnection, readHandler := .initRequest, writeHandler := some .empty
      buf := some (Http.moveUnread b) }
    t := { w.t with
      keepAlives := w.t.keepAlives ++ [b.unread], keptAt := w.t.keptAt ++ [w.t.sent.length]
      destroyed := w.t.destroyed ++ [pool] } }

@[simps!] def responding (w : World) : World :=
  w.onC fun c => { c with writeHandler := some .writer }

@[simps!] def writing (w : World) : World :=
  (w.responding.registered writeMask true).onR fun r => { r with
    response := { r.response with last := 0, begin := true } }

@[simps!] def handing (w : World) (b : Buf) : World :=
  (w.onT fun t => { t with handed := t.handed ++ [Http.handedOver w.r b] }).onR fun r =>
    { r with parse := { r.parse with state := 0 } }

end World

namespace Http

theorem handler_eq {b : Buf} (halive : w.r.home ∉ w.t.destroyed) (hb : w.c.buf = some b) :
    handler w = (if w.r.parse.method = .get then fileWriterHandler
      else specialResponseHandler EHD_HTTP_NOT_IMPLEMENTED) (w.handing b) := by
  apply eq_of_wp
  intro Q E h
  unfold handler
  rw [wp_bind, wp_getHeaderInBuf halive hb, wp_bind, wp_modify, wp_bind,
    wp_modifyRequest (by simpa using halive), wp_bind, wp_getRequest (by simpa using halive)]
  exact h

theorem keepAlive_rule {Q : Unit → World → Prop} {b : Buf} {pool : Nat}
    (halive : w.r.home ∉ w.t.destroyed) (hb : w.c.buf = some b) (hp : w.r.pool = some pool)
    (hok : Q () ((w.idle b pool).registered readMask true))
    (hfail : w.k.EpollFails → Q () ((w.idle b pool).registered readMask false).closeConnection) :
    wp keepAlive Q E w := by
  unfold keepAlive
  rw [wp_bind, wp_getHeaderInBuf halive hb]
  simp only [wp_bind, wp_modify]
  rw [wp_setHeaderInBuf (by simpa using halive), wp_closeRequest, World.closeRequest_eq
    (by simpa using halive) (by simpa using hp)]
  refine epollAdd_rule ?_ fun hr => ?_
  · rw [if_neg (by decide)]
    exact hok
  · rw [if_pos rfl, wp_closeConnection]
    exact hfail hr

/-- A failed registration closes everything, and the writer then reads `c->data`. -/
theorem startWriting_rule {Q : Unit → World → Prop} {pool : Nat}
    (halive : w.r.home ∉ w.t.destroyed) (hdata : w.c.data = .request)
    (hpool : w.c.pool = some pool) (hbegin : w.r.response.begin = false)
    (hok : wp (writerLoop (w.k.sends.length + 1) 0) Q E w.writing)
    (hfail : w.k.EpollFails → E .nullDeref (w.responding.registered writeMask false).closeBoth) :
    wp startWriting Q E w := by
  unfold startWriting armForWriting
  rw [wp_bind, wp_modify, wp_bind, wp_bind]
  refine epollAdd_rule ?_ fun hr => ?_
  · rw [if_neg (by decide), wp_pure]
    unfold writer
    rw [wp_bind, wp_get, if_neg (by simp [hdata]), wp_bind, wp_get, if_neg (by simp [hdata])]
    unfold beginResponse
    rw [wp_bind, wp_bind, wp_getRequest (by simpa using halive)]
    rw [if_pos (by simp [hbegin]), wp_modifyRequest (by simpa using halive), wp_bind,
      wp_getRequest (by simpa using halive), wp_bind, wp_get]
    exact hok
  · rw [if_pos rfl, wp_closeBoth]
    unfold writer
    have hnull : ((w.onC fun c => { c with writeHandler := some .writer }).registered
        (EHD_WRITE_EVENT ||| EPOLLET) false).closeBoth.c.data = .null := by
      unfold World.closeBoth
      rw [World.closeConnection_eq (by simpa using hpool)]
      rfl
    rw [wp_bind, wp_get, if_pos hnull]
    exact hfail hr

theorem writer_rule {Q : Unit → World → Prop} (halive : w.r.home ∉ w.t.destroyed)
    (hdata : w.c.data = .request) (hbegin : w.r.response.begin = true)
    (hok : wp (writerLoop (w.k.sends.length + 1) w.r.response.last) Q E w) :
    wp writer Q E w := by
  unfold writer beginResponse
  rw [wp_bind, wp_get, if_neg (by simp [hdata]), wp_bind, wp_get, if_neg (by simp [hdata]),
    wp_bind, wp_bind, wp_getRequest halive, if_neg (by simp [hbegin]), wp_pure, wp_bind,
    wp_getRequest halive, wp_bind, wp_get]
  exact hok

/-- `ehd_http_handler` reaches the writer with the answer to the request. -/
theorem handler_rule {Q : Unit → World → Prop} {b : Buf}
    (halive : w.r.home ∉ w.t.destroyed) (hb : w.c.buf = some b)
    (hline : w.r.headersOut.statusLine = none)
    (hfail : Fails (names w.conf w.r.uri) (w.handing b) E)
    (hok : ∀ w' f,
      Answered (names w.conf w.r.uri) (w.handing b) w' (answer w.conf w.r w.k) f →
      (w.r.parse.method = .get → cString (rootName w.conf w.r.uri) ∈ w'.t.paths) →
      wp startWriting Q E w') :
    wp handler Q E w := by
  unfold handler
  rw [wp_bind, wp_getHeaderInBuf halive hb, wp_bind, wp_modify, wp_bind,
    wp_modifyRequest (by simpa using halive), wp_bind, wp_getRequest (by simpa using halive)]
  have halive' : (w.handing b).r.home ∉ (w.handing b).t.destroyed := by simpa using halive
  show wp (if w.r.parse.method = .get then fileWriterHandler
    else specialResponseHandler EHD_HTTP_NOT_IMPLEMENTED) Q E (w.handing b)
  unfold answer at hok
  by_cases hget : w.r.parse.method = .get
  · rw [if_pos hget] at hok ⊢
    exact fileWriterHandler_rule halive' hfail hline
      fun w' f ha hasked => hok w' f ha fun _ => hasked
  · rw [if_neg hget] at hok ⊢
    exact page_rule (.refl _) rfl rfl halive' hfail hline (by decide)
      fun w' f ha _ => hok w' f ha fun h => absurd h hget

end Http

end Ehd
