import Ehttpd.Http.Lifecycle

namespace Ehd.Http

open Program World

/-- A result of `send` or `sendfile` for a positive count on a live socket. -/
def Partial (x : SendResult) : Prop := x = .again ∨ ∃ m, 0 < m ∧ x = .sent m

/-- The bytes accepted after the result `x` when `acc` have been: a call offers
the rest of the head, of `h` bytes, or the rest of all `total`. -/
def accept (h total acc : Nat) : SendResult → Nat
  | .sent m => acc + min m ((if acc < h then h else total) - acc)
  | _ => acc

def accepted (h total : Nat) (xs : List SendResult) : Nat := xs.foldl (accept h total) 0

abbrev acceptedOf (head body : Buf) (xs : List SendResult) : Nat :=
  accepted head.left (head.left + body.left) xs

/-- An `EAGAIN` arrives when the head has been accepted and the answer has not. -/
def StallsInBody (h total : Nat) (xs : List SendResult) : Prop :=
  ∃ pre post, xs = pre ++ .again :: post ∧ h ≤ accepted h total pre ∧ accepted h total pre < total

section Accept

variable {h total : Nat}

@[simp] theorem accepted_nil : accepted h total [] = 0 := rfl

theorem accepted_concat (xs : List SendResult) (x : SendResult) :
    accepted h total (xs ++ [x]) = accept h total (accepted h total xs) x := by
  simp [accepted]

@[simp] theorem accepted_again (xs : List SendResult) :
    accepted h total (xs ++ [.again]) = accepted h total xs := accepted_concat xs .again

theorem le_accept (acc : Nat) (x : SendResult) : acc ≤ accept h total acc x := by
  unfold accept
  split <;> omega

theorem accepted_le_append (xs ys : List SendResult) :
    accepted h total xs ≤ accepted h total (xs ++ ys) := by
  induction ys using List.reverseRecOn with
  | nil => simp
  | append_singleton ys y ih =>
    rw [← List.append_assoc, accepted_concat]
    exact ih.trans (le_accept _ _)

end Accept

structure Armed (w : World) (head body : Buf) : Prop where
  fd : w.c.fd ≠ -1
  data : w.c.data = .request
  writeHandler : w.c.writeHandler = some .writer
  buf : ∃ b, w.c.buf = some b
  pool : w.c.pool = some w.r.home
  alive : w.r.home ∉ w.t.destroyed
  requestPool : ∃ p, w.r.pool = some p
  chain : w.r.response.data = [head, body]
  begin : w.r.response.begin = false
  headLeft : 0 < head.left
  bodyLeft : 0 < body.left
  headSendable : head.Sendable
  bodySendable : body.Sendable
  sends : ∀ x ∈ w.k.sends, Partial x

def chainAfter (head body : Buf) (acc : Nat) : List Buf :=
  [head.advance (min acc head.left), body.advance (acc - head.left)]

/-- `s` is `w` after the results `pre`: this many bytes of the chain have been sent. -/
structure Sending (w : World) (head body : Buf) (pre : List SendResult) (s : World) : Prop where
  c : s.c = { w.c with ev := s.c.ev }
  r : s.r = { w.r with response :=
    ⟨chainAfter head body (acceptedOf head body pre), 0, true⟩ }
  k : w.k.Steady s.k
  sends : w.k.sends = pre ++ s.k.sends
  t : ∃ bs, bs.length = acceptedOf head body pre ∧
    s.t = { w.t with sent := w.t.sent ++ bs, fromFile := s.t.fromFile }

structure Kept (w : World) (head body : Buf) (pre : List SendResult) (s : World) : Prop where
  sends : w.k.sends = pre ++ s.k.sends
  accepted : acceptedOf head body pre = head.left + body.left
  sent : s.t.sent.length = w.t.sent.length + (head.left + body.left)
  keepAlives : s.t.keepAlives.length = w.t.keepAlives.length + 1
  fd : s.c.fd = w.c.fd ∧ s.c.writeHandler = some .empty ∨ s.c.fd = -1 ∧ ¬ w.k.Reliable

/-- The connection has been closed before the kernel had accepted the answer. -/
structure Lost (w : World) (head body : Buf) (s : World) : Prop where
  sent : s.t.sent.length < w.t.sent.length + (head.left + body.left)
  fd : s.c.fd = -1

/-- The kernel has given its last result and the answer is not complete. -/
structure Starved (w : World) (head body : Buf) (s : World) : Prop where
  short : acceptedOf head body w.k.sends < head.left + body.left
  c : s.c = { w.c with ev := s.c.ev }
  t : ∃ bs, bs.length = acceptedOf head body w.k.sends ∧
    s.t = { w.t with sent := w.t.sent ++ bs, fromFile := s.t.fromFile }

/-- The calls of the writer: the first, and then one for each of `n` `EPOLLOUT`s. -/
def invocations : Nat → Handler Unit
  | 0 => writer
  | n + 1 => do
    invocations n
    dispatch EPOLLOUT

/-- While the answer, of `total` bytes, is not complete, nothing has been closed; once it is
complete, `ehd_http_keep_alive` has been called once, and only it may have
closed the connection, when it cannot register it. -/
def Survives (w : World) (total : Nat) (s : World) : Prop :=
  (s.t.sent.length < w.t.sent.length + total →
    s.c.fd = w.c.fd ∧ s.t.destroyed = w.t.destroyed ∧ s.t.keepAlives = w.t.keepAlives) ∧
  (w.t.sent.length + total ≤ s.t.sent.length →
    s.t.keepAlives.length = w.t.keepAlives.length + 1 ∧ (s.c.fd = w.c.fd ∨ ¬ w.k.Reliable))

variable {w s : World} {head body : Buf} {pre : List SendResult}

theorem Sending.survives (h : Sending w head body pre s)
    (hacc : acceptedOf head body pre < head.left + body.left) :
    Survives w (head.left + body.left) s := by
  obtain ⟨bs, hbs, ht⟩ := h.t
  have hlen : s.t.sent.length = w.t.sent.length + bs.length := by rw [ht]; simp
  constructor
  · intro _
    rw [h.c, ht]
    exact ⟨rfl, rfl, rfl⟩
  · intro hle
    omega

theorem Starved.survives (h : Starved w head body s) : Survives w (head.left + body.left) s := by
  obtain ⟨bs, hbs, ht⟩ := h.t
  have hshort := h.short
  have hlen : s.t.sent.length = w.t.sent.length + bs.length := by rw [ht]; simp
  constructor
  · intro _
    rw [h.c, ht]
    exact ⟨rfl, rfl, rfl⟩
  · intro hle
    omega

theorem Kept.survives (h : Kept w head body pre s) : Survives w (head.left + body.left) s := by
  have hsent := h.sent
  constructor
  · intro hlt
    omega
  · intro _
    refine ⟨h.keepAlives, ?_⟩
    rcases h.fd with hfd | hfd
    · exact Or.inl hfd.1
    · exact Or.inr hfd.2

theorem Lost.not_survives (harmed : Armed w head body) (h : Lost w head body s) :
    ¬ Survives w (head.left + body.left) s := by
  intro hs
  have hfd := (hs.1 h.sent).1
  rw [h.fd] at hfd
  exact harmed.fd hfd.symm

def At (head body : Buf) (last acc : Nat) : Prop :=
  last = 0 ∧ acc < head.left ∨
    last = 1 ∧ head.left ≤ acc ∧ acc < head.left + body.left

theorem At.lt {last acc : Nat} (h : At head body last acc) : acc < head.left + body.left := by
  rcases h with ⟨-, h⟩ | ⟨-, -, h⟩ <;> omega

theorem next_of_partial {xs rest : List SendResult} {x : SendResult} (hxs : ∀ y ∈ xs, Partial y)
    (h : ∃ skipped, (∀ y ∈ skipped, y = SendResult.intr) ∧ xs = skipped ++ x :: rest) :
    xs = x :: rest := by
  obtain ⟨skipped, hskipped, heq⟩ := h
  cases skipped with
  | nil => exact heq
  | cons y ys =>
    have hy : y = .intr := hskipped y List.mem_cons_self
    have hpart : Partial y := hxs y (by rw [heq]; exact List.mem_cons_self)
    rw [hy] at hpart
    rcases hpart with hc | ⟨m, -, hc⟩ <;> cases hc

theorem Sending.partials (h : Sending w head body pre s) (harmed : Armed w head body) :
    ∀ x ∈ s.k.sends, Partial x := by
  intro x hx
  apply harmed.sends
  rw [h.sends]
  exact List.mem_append_right _ hx

/-- The buffer at which the writer stands, and what is left of it. -/
theorem chainAfter_at {last acc : Nat} (hat : At head body last acc) :
    ∃ b, (chainAfter head body acc)[last]? = some b ∧ 0 < b.left ∧
      acc + b.left = (if acc < head.left then head.left else head.left + body.left) ∧
      ∀ n ≤ b.left, (chainAfter head body acc).set last (b.advance n) =
        chainAfter head body (acc + n) := by
  unfold chainAfter
  rcases hat with ⟨rfl, hacc⟩ | ⟨rfl, hacc, htotal⟩
  · have hmin : min acc head.left = acc := by omega
    have hzero : acc - head.left = 0 := by omega
    rw [hmin, hzero, if_pos hacc]
    refine ⟨head.advance acc, rfl, ?_, ?_, ?_⟩
    · rw [Buf.left_advance]
      omega
    · rw [Buf.left_advance]
      omega
    · intro n hn
      rw [Buf.left_advance] at hn
      rw [Buf.advance_advance, show min (acc + n) head.left = acc + n by omega,
        show acc + n - head.left = 0 by omega]
      rfl
  · have hmin : min acc head.left = head.left := by omega
    have hnot : ¬ acc < head.left := by omega
    rw [hmin, if_neg hnot]
    refine ⟨body.advance (acc - head.left), rfl, ?_, ?_, ?_⟩
    · rw [Buf.left_advance]
      omega
    · rw [Buf.left_advance]
      omega
    · intro n hn
      rw [Buf.left_advance] at hn
      rw [Buf.advance_advance, show min (acc + n) head.left = head.left by omega,
        show acc - head.left + n = acc + n - head.left by omega]
      rfl

theorem chainAfter_sendable {acc : Nat} {b : Buf} (harmed : Armed w head body)
    (hb : b ∈ chainAfter head body acc) : b.Sendable := by
  unfold chainAfter at hb
  rcases List.mem_cons.1 hb with rfl | hb
  · exact harmed.headSendable.advance _
  · rw [List.mem_singleton.1 hb]
    exact harmed.bodySendable.advance _

theorem acceptedOf_sent {b : Buf} (hleft : acceptedOf head body pre + b.left =
    if acceptedOf head body pre < head.left then head.left else head.left + body.left) (m : Nat) :
    acceptedOf head body (pre ++ [.sent m]) = acceptedOf head body pre + min m b.left := by
  unfold acceptedOf at *
  rw [accepted_concat, accept, ← hleft, Nat.add_sub_cancel_left]

/-- After one result: `n` bytes more have been sent. -/
theorem Sending.wrote {last n : Nat} {b : Buf} {x : SendResult} {s' : World}
    (h : Sending w head body pre s) (harmed : Armed w head body)
    (hw : s.Wrote s' last b n x)
    (hacc : acceptedOf head body (pre ++ [x]) =
      acceptedOf head body pre + n)
    (hset : (chainAfter head body (acceptedOf head body pre)).set last
      (b.advance n) = chainAfter head body (acceptedOf head body pre + n)) :
    Sending w head body (pre ++ [x]) s' where
  c := by rw [hw.c, h.c]
  r := by
    rw [hacc, hw.r, ← hset, h.r]
  k := h.k.trans hw.k
  sends := by
    rw [h.sends, next_of_partial (h.partials harmed) hw.sends, List.append_assoc]
    rfl
  t := by
    obtain ⟨bs, hbs, ht⟩ := h.t
    obtain ⟨bs', hbs', ht'⟩ := hw.t
    refine ⟨bs ++ bs', ?_, ?_⟩
    · rw [List.length_append, hbs, hbs', hacc]
    · rw [ht', ht, List.append_assoc]

/-- How a call of the writer ends that has not reached the body with nothing to send. -/
def Delivers (w : World) (head body : Buf) (pre : List SendResult) : Unit → World → Prop :=
  fun _ s => (∃ post, Sending w head body (pre ++ post ++ [.again]) s ∧
    (∀ x ∈ post, x ≠ .again) ∧
    acceptedOf head body (pre ++ post) < head.left + body.left) ∨
    ∃ post, Kept w head body (pre ++ post) s ∧ ∀ x ∈ post, x ≠ .again

def Starves (w : World) (head body : Buf) (pre : List SendResult) : Stop → World → Prop :=
  fun _ s => Starved w head body s ∧
    ∃ post, w.k.sends = pre ++ post ∧ ∀ x ∈ post, x ≠ .again

theorem Delivers.of_sent {m : Nat} {u : Unit}
    (h : Delivers w head body (pre ++ [.sent m]) u s) : Delivers w head body pre u s := by
  have append : ∀ post, pre ++ [SendResult.sent m] ++ post = pre ++ (.sent m :: post) := by
    intro post
    simp
  have sent : ∀ post : List SendResult, (∀ x ∈ post, x ≠ .again) →
      ∀ x ∈ SendResult.sent m :: post, x ≠ .again := by
    intro post hpost x hx
    rcases List.mem_cons.1 hx with rfl | hx
    · simp
    · exact hpost x hx
  rcases h with ⟨post, hs, hpost, hlt⟩ | ⟨post, hs, hpost⟩
  · rw [append] at hs hlt
    exact Or.inl ⟨_, hs, sent post hpost, hlt⟩
  · rw [append] at hs
    exact Or.inr ⟨_, hs, sent post hpost⟩

theorem Starves.of_sent {m : Nat} {e : Stop}
    (h : Starves w head body (pre ++ [.sent m]) e s) : Starves w head body pre e s := by
  obtain ⟨hs, post, hpost, hne⟩ := h
  refine ⟨hs, .sent m :: post, by rw [hpost]; simp, ?_⟩
  intro x hx
  rcases List.mem_cons.1 hx with rfl | hx
  · simp
  · exact hne x hx

/-- `ehd_http_keep_alive` after the last byte. -/
theorem keepAlive_kept (harmed : Armed w head body) (h : Sending w head body pre s)
    (hall : acceptedOf head body pre = head.left + body.left) :
    wp keepAlive (fun _ => Kept w head body pre) (fun _ _ => False) s := by
  obtain ⟨b, hb⟩ := harmed.buf
  obtain ⟨pool, hpool⟩ := harmed.requestPool
  obtain ⟨bs, hbs, ht⟩ := h.t
  have hlen : s.t.sent.length = w.t.sent.length + (head.left + body.left) := by
    rw [ht, ← hall, ← hbs]
    exact List.length_append
  have hkeep : (s.t.keepAlives ++ [b.unread]).length = w.t.keepAlives.length + 1 := by
    rw [ht]
    exact List.length_append
  have hcpool : s.c.pool = some w.r.home := by rw [h.c]; exact harmed.pool
  apply keepAlive_rule (b := b)
  · rw [h.r, ht]
    exact harmed.alive
  · rw [h.c]
    exact hb
  · rw [h.r]
    exact hpool
  · refine ⟨h.sends, hall, hlen, hkeep, Or.inl ⟨?_, rfl⟩⟩
    show s.c.fd = w.c.fd
    rw [h.c]
  · intro hrel
    have hidle : ((s.idle b pool).registered readMask false).c.pool = some w.r.home := hcpool
    rw [closeConnection_eq hidle]
    exact ⟨h.sends, hall, hlen, hkeep, Or.inr ⟨rfl, (h.k.epollFails.1 hrel).not_reliable⟩⟩

/-- The rounds of the writer, by induction on the number of results to come: with
something to send at every round, the writer ends at an `EAGAIN` or with the answer. -/
theorem writerLoop_delivers (harmed : Armed w head body) : ∀ (fuel last : Nat)
    (pre : List SendResult) (s : World), Sending w head body pre s →
    At head body last (acceptedOf head body pre) → s.k.sends.length < fuel →
    wp (writerLoop fuel last) (Delivers w head body pre) (Starves w head body pre) s := by
  intro fuel
  induction fuel with
  | zero =>
    intro last pre s _ _ hfuel
    omega
  | succ fuel ih =>
    intro last pre s h hat hfuel
    obtain ⟨b, hb, hpos, hleft, hset⟩ := chainAfter_at hat
    have htotal := hat.lt
    have hdata : s.r.response.data = chainAfter head body (acceptedOf head body pre) := by
      rw [h.r]
    -- one more result sends no more than the buffer has left
    have hsent : ∀ m, acceptedOf head body (pre ++ [.sent m]) =
        acceptedOf head body pre + min m b.left := fun m => acceptedOf_sent hleft m
    have hused : ∀ {s' : World} {x : SendResult} {n : Nat}, s.Wrote s' last b n x →
        s'.k.sends.length < fuel := by
      intro s' x n hw
      have hnext := next_of_partial (h.partials harmed) hw.sends
      rw [hnext, List.length_cons] at hfuel
      omega
    -- in the head a full send completes the head, in the body the response
    have hhead : last = 0 → acceptedOf head body pre + b.left = head.left := by
      intro hlast
      rcases hat with ⟨-, hacc⟩ | ⟨h1, -⟩
      · rwa [if_pos hacc] at hleft
      · omega
    have hbody : last = 1 → acceptedOf head body pre + b.left = head.left + body.left := by
      intro hlast
      rcases hat with ⟨h0, -⟩ | ⟨-, hacc, -⟩
      · omega
      · rwa [if_neg (by omega)] at hleft
    apply writerLoop_rule (b := b)
    · rw [hdata]
      exact hb
    · exact chainAfter_sendable harmed (List.mem_of_getElem? hb)
    constructor
    · -- a part of the buffer
      intro s' m n hw hn hmin hlt
      have h' := h.wrote harmed hw (by rw [hsent, hmin]) (hset n (by omega))
      have hat' : At head body last (acceptedOf head body (pre ++ [.sent m])) := by
        rw [hsent, ← hmin]
        rcases hat with ⟨h0, hacc⟩ | ⟨h1, hacc, -⟩
        · have := hhead h0
          exact Or.inl ⟨h0, by omega⟩
        · have := hbody h1
          exact Or.inr ⟨h1, by omega, by omega⟩
      exact wp_mono (ih last _ s' h' hat' (hused hw)) (fun _ _ => Delivers.of_sent)
        fun _ _ => Starves.of_sent
    · -- the whole head
      intro s' m hw _ hm hlast
      have hlast₀ : last = 0 := by
        rcases hat with ⟨h0, -⟩ | ⟨h1, -⟩
        · exact h0
        · rw [hdata, h1] at hlast
          exact absurd rfl hlast
      have hsent' := hsent m
      rw [Nat.min_eq_right hm] at hsent'
      have h' := h.wrote harmed hw hsent' (hset _ (Nat.le_refl _))
      have hat' : At head body (last + 1) (acceptedOf head body (pre ++ [.sent m])) := by
        rw [hsent', hhead hlast₀, hlast₀]
        exact Or.inr ⟨rfl, Nat.le_refl _, Nat.lt_add_of_pos_right harmed.bodyLeft⟩
      exact wp_mono (ih _ _ s' h' hat' (hused hw)) (fun _ _ => Delivers.of_sent)
        fun _ _ => Starves.of_sent
    · -- the whole body
      intro s' m hw _ hm hlast
      have hlast₁ : last = 1 := by
        rcases hat with ⟨h0, -⟩ | ⟨h1, -⟩
        · rw [hdata, h0] at hlast
          cases hlast
        · exact h1
      have hsent' := hsent m
      rw [Nat.min_eq_right hm] at hsent'
      have h' := h.wrote harmed hw hsent' (hset _ (Nat.le_refl _))
      rw [hbody hlast₁] at hsent'
      refine wp_mono (keepAlive_kept harmed h' hsent') ?_ (fun _ _ hf => hf.elim)
      intro _ s'' hkept
      refine Or.inr ⟨[.sent m], hkept, ?_⟩
      simp
    · -- `EAGAIN`
      intro s' hw _
      have h' := h.wrote harmed hw (accepted_again pre) (hset 0 (Nat.zero_le _))
      refine Or.inl ⟨[], ?_, by simp, ?_⟩
      · rw [List.append_nil]
        exact h'
      · rw [List.append_nil]
        exact htotal
    · -- no result of a live socket closes the connection
      intro s' _ hgives
      rcases hgives with hnone | ⟨x, hx, hagain, hsome⟩
      · omega
      · have hnext := next_of_partial (h.partials harmed) hx
        have hpart : Partial x := by
          apply h.partials harmed
          rw [hnext]
          exact List.mem_cons_self
        rcases hpart with hp | ⟨m, hm, hp⟩
        · exact absurd hp hagain
        · exact absurd hp (hsome m hm)
    · -- no result is left
      intro _ s' hall hs
      -- a list of `EINTR`s alone has no partial result in it
      have hnil : s.k.sends = [] := by
        cases hsends : s.k.sends with
        | nil => rfl
        | cons x xs =>
          have hmem : x ∈ s.k.sends := by rw [hsends]; exact List.mem_cons_self
          have hx := hall x hmem
          have hpart := h.partials harmed x hmem
          rw [hx] at hpart
          rcases hpart with hc | ⟨m, -, hc⟩ <;> cases hc
      have hpre : w.k.sends = pre := by rw [h.sends, hnil, List.append_nil]
      obtain ⟨bs, hbs, ht⟩ := h.t
      refine ⟨⟨?_, ?_, bs, ?_, ?_⟩, [], by rw [hpre, List.append_nil], by simp⟩
      · rw [hpre]
        exact htotal
      · rw [hs.c, h.c]
      · rw [hpre]
        exact hbs
      · rw [hs.t, ht]

/-- The call of the writer by the handler. -/
theorem writer_first (harmed : Armed w head body) :
    wp writer (Delivers w head body []) (Starves w head body []) w := by
  have halive := harmed.alive
  unfold writer beginResponse
  rw [wp_bind, wp_get, if_neg (by simp [harmed.data]), wp_bind, wp_get,
    if_neg (by simp [harmed.data]), wp_bind, wp_bind, wp_getRequest halive,
    if_pos (by simp [harmed.begin]), wp_modifyRequest halive, wp_bind,
    wp_getRequest (by exact halive), wp_bind, wp_get]
  apply writerLoop_delivers harmed
  · refine ⟨rfl, ?_, .refl _, rfl, [], rfl, ?_⟩
    · have hchain : chainAfter head body (acceptedOf head body []) = [head, body] := by
        simp [chainAfter]
      rw [hchain, ← harmed.chain]
      rfl
    · rw [List.append_nil]
      rfl
  · exact Or.inl ⟨rfl, harmed.headLeft⟩
  · exact Nat.lt_succ_self _

def HeadStalls (head body : Buf) (pre : List SendResult) : Prop :=
  ∀ xs ys, pre = xs ++ .again :: ys → acceptedOf head body xs < head.left

theorem headStalls_of_no_again (h : ∀ x ∈ pre, x ≠ .again) : HeadStalls head body pre := by
  intro xs ys heq
  refine absurd rfl (h .again ?_)
  rw [heq]
  exact List.mem_append_right _ List.mem_cons_self

theorem HeadStalls.append {post : List SendResult} (h : HeadStalls head body pre)
    (hacc : acceptedOf head body pre < head.left) (hpost : ∀ x ∈ post, x ≠ .again) :
    HeadStalls head body (pre ++ [.again] ++ post) := by
  intro xs ys heq
  rw [List.append_assoc, List.singleton_append] at heq
  rcases List.append_eq_append_iff.1 heq with ⟨zs, hxs, hzs⟩ | ⟨zs, hpre, hzs⟩
  · cases zs with
    | nil =>
      rw [List.append_nil] at hxs
      rwa [hxs]
    | cons z zs =>
      -- the `EAGAIN` would be in `post`
      rw [List.cons_append] at hzs
      injection hzs with _ hzs
      refine absurd rfl (hpost .again ?_)
      rw [hzs]
      exact List.mem_append_right _ List.mem_cons_self
  · cases zs with
    | nil =>
      rw [List.append_nil] at hpre
      rwa [← hpre]
    | cons z zs =>
      rw [List.cons_append] at hzs
      injection hzs with hz hzs
      exact h xs zs (by rw [hpre, ← hz])

inductive Progress (w : World) (head body : Buf) (n : Nat) (s : World) : Prop
  | waits (pre : List SendResult) (h : Sending w head body (pre ++ [.again]) s)
      (hcount : pre.count .again = n)
      (hlt : acceptedOf head body pre < head.left + body.left) (hstalls : HeadStalls head body pre)
  | kept (pre : List SendResult) (h : Kept w head body pre s) (hstalls : HeadStalls head body pre)
  | lost (h : Lost w head body s)
      (hstalls : StallsInBody head.left (head.left + body.left) w.k.sends)

theorem count_no_again {post : List SendResult} (h : ∀ x ∈ post, x ≠ .again) :
    post.count .again = 0 := by
  apply List.count_eq_zero.2
  intro hmem
  exact h _ hmem rfl

theorem dispatch_rule {Q : Unit → World → Prop} {E : Stop → World → Prop}
    (hclosed : s.c.fd = -1 → Q () s)
    (hempty : s.c.fd ≠ -1 → s.c.writeHandler = some .empty →
      Q () (s.onEv fun ev => { ev with wready := true }))
    (hwriter : s.c.fd ≠ -1 → s.c.writeHandler ≠ some .empty → s.c.writeHandler = some .writer ∧
      wp writer Q E (s.onEv fun ev => { ev with wready := true })) :
    wp (dispatch EPOLLOUT) Q E s := by
  have hread : reportReadable EPOLLOUT = pure () := if_neg (by decide)
  have hout : EPOLLOUT &&& EPOLLOUT ≠ 0 := by decide
  unfold dispatch
  rw [wp_bind, wp_get]
  by_cases hfd : s.c.fd = -1
  · rw [if_pos hfd]
    exact hclosed hfd
  · rw [if_neg hfd, wp_bind, hread]
    unfold reportWritable callWriteHandler
    rw [if_pos hout, wp_bind, wp_modify, wp_bind, wp_get]
    by_cases hh : s.c.writeHandler = some .empty
    · simp only [onEv_c_writeHandler, hh, wp_pure]
      exact hempty hfd hh
    · obtain ⟨hw, hwp⟩ := hwriter hfd hh
      simp only [onEv_c_writeHandler, hw, wp_pure]
      exact hwp

theorem Sending.onEv (h : Sending w head body pre s) (f : Event → Event) :
    Sending w head body pre (s.onEv f) := by
  refine ⟨?_, h.r, h.k, h.sends, h.t⟩
  show { s.c with ev := f s.c.ev } = _
  rw [h.c]
  rfl

/-- A call of the writer that starts with a head that has been sent closes the connection. -/
theorem writerLoop_loses (harmed : Armed w head body) {fuel : Nat}
    (h : Sending w head body pre s) (hhead : head.left ≤ acceptedOf head body pre)
    (hlt : acceptedOf head body pre < head.left + body.left) :
    wp (writerLoop (fuel + 1) 0) (fun _ => Lost w head body) (fun _ _ => False) s := by
  have hleft : (head.advance (min (acceptedOf head body pre) head.left)).left = 0 := by
    rw [Buf.left_advance]
    omega
  obtain ⟨pool, hpool⟩ := harmed.requestPool
  obtain ⟨bs, hbs, ht⟩ := h.t
  apply writerLoop_rule (b := head.advance (min (acceptedOf head body pre) head.left))
  · rw [h.r]
    rfl
  · exact harmed.headSendable.advance _
  constructor
  · intro _ _ _ _ _ _ hpos
    omega
  · intro _ _ _ hpos
    omega
  · intro _ _ _ hpos
    omega
  · intro _ _ hpos
    omega
  · intro s' hs _
    have hrp : s'.r.pool = some pool := by rw [hs.r, h.r]; exact hpool
    have hcp : s'.c.pool = some w.r.home := by rw [hs.c, h.c]; exact harmed.pool
    have halive : s'.r.home ∉ s'.t.destroyed := by rw [hs.r, h.r, hs.t, ht]; exact harmed.alive
    refine ⟨?_, (closeBoth_destroyed hrp hcp).2.2.1⟩
    rw [closeBoth_t halive hrp hcp, hs.t, ht]
    show (w.t.sent ++ bs).length < _
    rw [List.length_append, hbs]
    omega
  · intro hpos
    omega

/-- One more call of the writer. -/
theorem dispatch_progress (harmed : Armed w head body) {n : Nat} (h : Progress w head body n s) :
    wp (dispatch EPOLLOUT) (fun _ => Progress w head body (n + 1))
      (fun _ s' => Starved w head body s' ∧ HeadStalls head body w.k.sends) s := by
  rcases h with ⟨pre, h, hcount, hlt, hstalls⟩ | ⟨pre, h, hstalls⟩ | ⟨h, hstalls⟩
  · have hagain : acceptedOf head body (pre ++ [.again]) = acceptedOf head body pre :=
      accepted_again pre
    have h' := h.onEv fun ev => { ev with wready := true }
    obtain ⟨bs, -, ht⟩ := h.t
    -- it still waits: the event is the next `EPOLLOUT`
    apply dispatch_rule
    · intro hfd
      rw [h.c] at hfd
      exact absurd hfd harmed.fd
    · intro _ hempty
      rw [h.c] at hempty
      exact absurd (harmed.writeHandler.symm.trans hempty) (by simp)
    · intro _ _
      refine ⟨by rw [h.c]; exact harmed.writeHandler, ?_⟩
      apply writer_rule
      · rw [h'.r]
        show w.r.home ∉ s.t.destroyed
        rw [ht]
        exact harmed.alive
      · rw [h'.c]
        exact harmed.data
      · rw [h'.r]
      rw [show (s.onEv fun ev => { ev with wready := true }).r.response.last = 0 by rw [h'.r]]
      by_cases hacc : acceptedOf head body pre < head.left
      · -- the writer resumes in the head
        have hat : At head body 0 (acceptedOf head body (pre ++ [.again])) :=
          Or.inl ⟨rfl, by rw [hagain]; exact hacc⟩
        refine wp_mono (writerLoop_delivers harmed _ 0 _ _ h' hat (Nat.lt_succ_self _)) ?_ ?_
        · rintro _ s' (⟨post, hs, hpost, hlt'⟩ | ⟨post, hs, hpost⟩)
          · refine .waits _ hs ?_ hlt' (hstalls.append hacc hpost)
            rw [List.count_append, List.count_append, hcount, count_no_again hpost]
            rfl
          · exact .kept _ hs (hstalls.append hacc hpost)
        · rintro _ s' ⟨hs, post, hsends, hpost⟩
          refine ⟨hs, ?_⟩
          rw [hsends]
          exact hstalls.append hacc hpost
      · -- it starts again at a head that has been sent
        refine wp_mono (writerLoop_loses harmed h' (by rw [hagain]; omega) (by rw [hagain]; exact hlt))
          ?_ (fun _ _ hf => hf.elim)
        intro _ s' hlost
        refine .lost hlost ⟨pre, s.k.sends, ?_, Nat.le_of_not_lt hacc, hlt⟩
        rw [h.sends, List.append_assoc]
        rfl
  -- the response is out, and no write handler is left to call
  · have hfds := h.fd
    apply dispatch_rule
    · intro _
      exact .kept _ h hstalls
    · intro _ _
      exact .kept _ ⟨h.sends, h.accepted, h.sent, h.keepAlives, h.fd⟩ hstalls
    · intro hopen hne
      rcases hfds with ⟨-, hempty⟩ | ⟨hfd, -⟩
      · exact absurd hempty hne
      · exact absurd hfd hopen
  · have hfd := h.fd
    apply dispatch_rule
    · intro _
      exact .lost h hstalls
    · intro hopen
      exact absurd hfd hopen
    · intro hopen
      exact absurd hfd hopen

theorem invocations_progress (harmed : Armed w head body) (n : Nat) :
    wp (invocations n) (fun _ => Progress w head body n)
      (fun _ s' => Starved w head body s' ∧ HeadStalls head body w.k.sends) w := by
  induction n with
  | zero =>
    refine wp_mono (writer_first harmed) ?_ ?_
    · rintro _ s' (⟨post, hs, hpost, hlt⟩ | ⟨post, hs, hpost⟩)
      · exact .waits _ hs (count_no_again hpost) hlt (headStalls_of_no_again hpost)
      · exact .kept _ hs (headStalls_of_no_again hpost)
    · rintro _ s' ⟨hs, post, hsends, hpost⟩
      refine ⟨hs, ?_⟩
      rw [hsends]
      exact headStalls_of_no_again hpost
  | succ n ih =>
    show wp (invocations n >>= fun _ => dispatch EPOLLOUT) _ _ w
    rw [wp_bind]
    exact wp_mono ih (fun _ s' hs => dispatch_progress harmed hs) (fun _ _ hs => hs)

theorem after_invocations (harmed : Armed w head body) (n : Nat) :
    Progress w head body n (after (invocations n) w) ∨
      Starved w head body (after (invocations n) w) ∧ HeadStalls head body w.k.sends := by
  refine wp_after (P := fun s => Progress w head body n s ∨
    Starved w head body s ∧ HeadStalls head body w.k.sends) ?_
  exact wp_mono (invocations_progress harmed n) (fun _ _ h => Or.inl h) fun _ _ h => Or.inr h

theorem mark_or_prefix {xs ys pre rest : List SendResult}
    (h : xs ++ .again :: ys = pre ++ rest) :
    (∃ zs, pre = xs ++ .again :: zs) ∨ ∃ zs, xs = pre ++ zs := by
  rcases List.append_eq_append_iff.1 h with ⟨zs, hpre, hzs⟩ | ⟨zs, hxs, -⟩
  · cases zs with
    | nil => exact Or.inr ⟨[], by rw [hpre]; simp⟩
    | cons z zs =>
      rw [List.cons_append] at hzs
      injection hzs with hz hzs
      exact Or.inl ⟨zs, by rw [hpre, hz]⟩
  · exact Or.inr ⟨zs, hxs⟩

/-- After enough calls an `EAGAIN` in the body has closed the connection. -/
theorem lost_of_stalls (harmed : Armed w head body) {xs ys : List SendResult}
    (hsends : w.k.sends = xs ++ .again :: ys) (hhead : head.left ≤ acceptedOf head body xs)
    (hlt : acceptedOf head body xs < head.left + body.left) :
    Lost w head body (after (invocations (xs.count .again + 1)) w) := by
  have early : ∀ {pre : List SendResult}, HeadStalls head body pre →
      ¬ ∃ zs, pre = xs ++ .again :: zs := by
    rintro pre hstalls ⟨zs, hpre⟩
    have := hstalls xs zs hpre
    omega
  rcases after_invocations harmed (xs.count .again + 1) with hp | ⟨-, hstalls⟩
  · rcases hp with ⟨pre, h, hcount, -, hstalls⟩ | ⟨pre, h, hstalls⟩ | ⟨h, -⟩
    · have hcut := h.sends
      rw [hsends, List.append_assoc] at hcut
      rcases mark_or_prefix hcut with hpre | ⟨zs, hxs⟩
      · exact absurd hpre (early hstalls)
      · -- fewer `EAGAIN`s have arrived than there were calls
        rw [hxs, List.count_append] at hcount
        omega
    · have hcut := h.sends
      rw [hsends] at hcut
      rcases mark_or_prefix hcut with hpre | ⟨zs, hxs⟩
      · exact absurd hpre (early hstalls)
      · have hacc : accepted head.left (head.left + body.left) pre ≤
            accepted head.left (head.left + body.left) (pre ++ zs) := accepted_le_append pre zs
        have hfull := h.accepted
        rw [← hxs] at hacc
        unfold acceptedOf at hfull hlt
        omega
    · exact h
  · exact absurd ⟨ys, hsends⟩ (early hstalls)

/-- Whatever the calls of the writer, the answer survives exactly when no `EAGAIN`
arrives in its body. -/
theorem survives_iff (harmed : Armed w head body) :
    (∀ n, Survives w (head.left + body.left) (after (invocations n) w)) ↔
      ¬ StallsInBody head.left (head.left + body.left) w.k.sends := by
  constructor
  · rintro hsurvives ⟨xs, ys, hsends, hhead, hlt⟩
    exact (lost_of_stalls harmed hsends hhead hlt).not_survives harmed (hsurvives _)
  · intro hno n
    rcases after_invocations harmed n with hp | ⟨h, -⟩
    · rcases hp with ⟨pre, h, -, hlt, -⟩ | ⟨pre, h, -⟩ | ⟨-, hstalls⟩
      · apply h.survives
        show accepted _ _ _ < _
        rw [accepted_again]
        exact hlt
      · exact h.survives
      · exact absurd hstalls hno
    · exact h.survives

def Answer.headBuf (w : World) (a : Answer) (f : File) : Buf :=
  headOf (a.headersOut w.conf w.r.uri w.r.headersOut f)

def atWriter (w : World) : World := w.responding.registered writeMask true

theorem Answered.armed {w₀ : World} {ns : List (List UInt8)} {a : Answer} {f : File}
    (hreading : Reading w₀) (ha : Answered ns w₀ w a f) (hbody : 0 < (a.body f).left)
    (hsends : ∀ x ∈ w.k.sends, Partial x) : Armed (atWriter w) (a.headBuf w₀ f) (a.body f) := by
  have htwo := answered_two ha
  have hchain : w.r.response.data = [a.headBuf w₀ f, a.body f] := by
    rw [ha.response]
    rfl
  obtain ⟨b, hb, -⟩ := hreading.buf
  obtain ⟨p, hp, -⟩ := hreading.requestPool
  have hc := ha.c
  have hr := ha.r
  rw [hchain] at htwo
  -- building the response changes neither the connection nor the pools
  refine ⟨?_, ?_, rfl, ⟨b, ?_⟩, ?_, ?_, ⟨p, ?_⟩, hchain, ?_, ?_, hbody, htwo.2 _ (by simp),
    htwo.2 _ (by simp), hsends⟩
  · show w.c.fd ≠ -1
    rw [hc]
    exact hreading.fd
  · show w.c.data = .request
    rw [hc]
    exact hreading.data
  · show w.c.buf = some b
    rw [hc]
    exact hb
  · show w.c.pool = some w.r.home
    rw [hc, hr]
    exact hreading.home
  · show w.r.home ∉ w.t.destroyed
    exact ha.alive hreading.alive
  · show w.r.pool = some p
    rw [hr]
    exact hp
  · show w.r.response.begin = false
    rw [ha.response, hreading.response]
  · -- the head has at least its status line
    have hhead := headOf_extends (a.headersOut w₀.conf w₀.r.uri w₀.r.headersOut f)
    have hline := List.length_pos_iff.2
      (statusLine_ne_nil (a.headersOut w₀.conf w₀.r.uri w₀.r.headersOut f))
    have hlen := hhead.bytes.length_le
    unfold Answer.headBuf
    rw [hhead.eq]
    simp only [Buf.left, Buf.unread, Buf.append, Buf.temp, if_true, List.drop_zero,
      List.nil_append] at hlen ⊢
    omega

/-- An answer that a handler has built, with a body that is not empty, is delivered
by any number of calls of the writer, exactly when no `EAGAIN` arrives while
the head has been accepted and the body has not. -/
theorem survives_full_socket_iff {w₀ : World} {ns : List (List UInt8)} {a : Answer} {f : File}
    (hreading : Reading w₀) (ha : Answered ns w₀ w a f) (hbody : 0 < (a.body f).left)
    (hsends : ∀ x ∈ w.k.sends, Partial x) :
    (∀ n, Survives (atWriter w) ((a.headBuf w₀ f).left + (a.body f).left)
      (after (invocations n) (atWriter w))) ↔
      ¬ StallsInBody (a.headBuf w₀ f).left ((a.headBuf w₀ f).left + (a.body f).left) w.k.sends :=
  survives_iff (ha.armed hreading hbody hsends)

def sampleRequest (sends : List SendResult) : World :=
  { sampleWorld [] sends with
    c := { Connection.accepted 7 0 7 0 with
      data := .request, readHandler := .blockRead, writeHandler := some .empty
      buf := some (.temp EHD_DEFAULT_BUF_SIZE) }
    hc := { request := true }
    r := { home := 0, pool := some 1, headersOut := freshHeadersOut }
    k := { sampleKernel [] sends with pools := 2 } }

theorem sampleRequest_reading (sends : List SendResult) : Reading (sampleRequest sends) := by
  have hclean : Clean (sampleRequest sends) := by
    refine ⟨List.nodup_nil, rfl, ?_⟩
    rintro ⟨n, -, hmem⟩
    cases hmem
  have hopen : Open (sampleRequest sends) := by
    refine ⟨hclean, ?_, rfl, ⟨0, rfl, Nat.two_pos, List.not_mem_nil⟩, ?_⟩
    · show (7 : Int) ≠ -1
      decide
    intro p hp
    cases hp
  exact ⟨⟨hopen, rfl, rfl, ⟨1, rfl, Nat.one_lt_two, List.not_mem_nil, Nat.one_ne_zero⟩,
    ⟨_, rfl, inBuf_temp⟩⟩, rfl, rfl, rfl, rfl⟩

def sampleAnswered (sends : List SendResult) : World :=
  (sampleRequest sends).onR fun r => { r with
    headersOut := { pageHeaders freshHeadersOut EHD_HTTP_NOT_IMPLEMENTED with
      headers := finalHeaders (pageHeaders freshHeadersOut EHD_HTTP_NOT_IMPLEMENTED) }
    response := ⟨[headOf (pageHeaders freshHeadersOut EHD_HTTP_NOT_IMPLEMENTED),
      pageBody EHD_HTTP_NOT_IMPLEMENTED], 1, false⟩ }

theorem sampleAnswered_answered (sends : List SendResult) :
    Answered [] (sampleRequest sends) (sampleAnswered sends) (.page EHD_HTTP_NOT_IMPLEMENTED)
      ⟨0, ehdNullString, 0, 0⟩ :=
  ⟨.onR _ _ rfl, rfl, rfl, opened_none, opens_of_eq rfl⟩

abbrev sampleHead (sends : List SendResult) : Buf :=
  (Answer.page EHD_HTTP_NOT_IMPLEMENTED).headBuf (sampleRequest sends) ⟨0, ehdNullString, 0, 0⟩

abbrev sampleBody : Buf := (Answer.page EHD_HTTP_NOT_IMPLEMENTED).body ⟨0, ehdNullString, 0, 0⟩

def stallInHead : List SendResult := [.sent 10, .again, .sent 10000, .sent 10000]

theorem survives_full_socket_in_head :
    ¬ StallsInBody (sampleHead stallInHead).left
      ((sampleHead stallInHead).left + sampleBody.left) (sampleAnswered stallInHead).k.sends ∧
    ∀ n, Survives (atWriter (sampleAnswered stallInHead))
      ((sampleHead stallInHead).left + sampleBody.left)
      (after (invocations n) (atWriter (sampleAnswered stallInHead))) := by
  have hbody : 0 < sampleBody.left := by decide +kernel
  have hsends : ∀ x ∈ (sampleAnswered stallInHead).k.sends, Partial x := by
    intro x hx
    simp only [sampleAnswered, sampleRequest, sampleKernel, World.onR_k, stallInHead,
      List.mem_cons, List.not_mem_nil, or_false] at hx
    rcases hx with rfl | rfl | rfl | rfl
    · exact Or.inr ⟨10, by omega, rfl⟩
    · exact Or.inl rfl
    · exact Or.inr ⟨10000, by omega, rfl⟩
    · exact Or.inr ⟨10000, by omega, rfl⟩
  have hiff := survives_full_socket_iff (sampleRequest_reading stallInHead)
    (sampleAnswered_answered stallInHead) hbody hsends
  rw [hiff, and_self]
  rintro ⟨pre, post, heq, hhead, -⟩
  have hpre : pre = [.sent 10] := by
    have hsplit : stallInHead = pre ++ .again :: post := heq
    unfold stallInHead at hsplit
    match pre, hsplit with
    | [], h => cases h
    | [x], h => injection h with hx _; rw [← hx]
    | x :: y :: rest, h =>
      -- no other `EAGAIN` comes
      injection h with _ h
      injection h with _ h
      have hmem : SendResult.again ∈ [SendResult.sent 10000, .sent 10000] := by
        rw [h]
        exact List.mem_append_right _ List.mem_cons_self
      exact absurd hmem (by decide)
  rw [hpre] at hhead
  exact absurd hhead (by decide +kernel)

/-- An `EAGAIN` after the head closes the connection at the next call. -/
theorem lost_in_body : ¬ ∀ n,
    Survives (atWriter (sampleAnswered [.sent 10000, .again]))
      ((sampleHead [.sent 10000, .again]).left + sampleBody.left)
      (after (invocations n) (atWriter (sampleAnswered [.sent 10000, .again]))) := by
  intro h
  have hlost : (after (invocations 1) (atWriter (sampleAnswered [.sent 10000, .again]))).c.fd =
      -1 := by
    decide +kernel
  have hsent : (after (invocations 1) (atWriter (sampleAnswered [.sent 10000, .again]))).t.sent.length <
      (atWriter (sampleAnswered [.sent 10000, .again])).t.sent.length +
        ((sampleHead [.sent 10000, .again]).left + sampleBody.left) := by
    decide +kernel
  have hopen := ((h 1).1 hsent).1
  rw [hlost] at hopen
  exact absurd hopen (by decide)

end Ehd.Http
