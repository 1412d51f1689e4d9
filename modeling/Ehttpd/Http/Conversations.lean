import Ehttpd.Http.ClientRequests
import Ehttpd.Http.ClientResponses

namespace Ehd.Http

open Program World Framed ClientResponse

variable {w : World} {q₁ : Pc}

def Clear (raw : List UInt8) : Prop := ∀ path, pathOf raw = some path → 0 ∉ path ∧ CR ∉ path

/-- The response answers the request `x`, for what `stat` says in the kernel `k` and for the bytes
`bs` of a file. -/
def Tells (conf : Conf) (res : ClientResponse) (x : Head) : Prop :=
  ∃ uri k bs, pathOf x.uri = some uri.bytes ∧ uri.len = uri.bytes.length ∧
    res = ofAnswer uri bs
      (if x.method = .get then fileAnswer conf uri k else .page EHD_HTTP_NOT_IMPLEMENTED)

variable {conf : Conf} {a : Reply} {x : Handed} {sent : List UInt8} {fs : List FileByte}

theorem gave_all {b : Buf} {bs : List UInt8} (h : b.Gave bs fs) :
    ∃ bs', bs <+: bs' ∧ AllOf b bs' := by
  by_cases htype : b.type = 0
  · refine ⟨b.unread, h.memory htype, ?_, fun _ => rfl⟩
    unfold Buf.left
    rw [if_pos htype]
  · refine ⟨bs ++ List.replicate (b.left - bs.length) 0, List.prefix_append _ _, ?_,
      fun hc => absurd hc htype⟩
    have hfits := h.fits
    rw [List.length_append, List.length_replicate]
    omega

/-- What has been sent of an answer goes on to a response to the request. -/
theorem Reply.Answers.framed (h : a.Answers conf x) (hsound : conf.Sound) (hclear : Clear x.uri)
    (hsent : a.Sent sent fs) :
    ∃ text res, sent <+: text ∧ text.length = a.length ∧ Frames reader text res ∧
      Tells conf res x.toHead := by
  obtain ⟨r, k, f, b, hx, hf, rfl, ⟨t, hpath, hstands⟩, hshort⟩ := h
  obtain ⟨hnul, hcr⟩ := hclear _ hpath
  have hbytes := hstands.bytes_eq hnul
  obtain ⟨htype, hpos⟩ := replyTo_head conf r k f
  -- the bytes of the body that have been sent
  obtain ⟨bs, fs', hpre, hgave⟩ : ∃ bs fs', sent <+: (replyTo conf r k f).head.bytes ++ bs ∧
      (replyTo conf r k f).body.Gave bs fs' := by
    cases hsent with
    | head hsent =>
      refine ⟨[], [], ?_, Buf.gave_nil _⟩
      rw [List.append_nil]
      exact hsent
    | body hgave => exact ⟨_, _, List.prefix_refl _, hgave⟩
  obtain ⟨bs', hmore, hall⟩ := gave_all hgave
  have hframed : Frames reader ((replyTo conf r k f).head.bytes ++ bs')
      (ofAnswer r.uri bs' (answer conf r k)) :=
    answer_framed hsound hf hshort hstands.fits (fun _ => hbytes ▸ hcr) (answer_status _ _ _ _ _) hall
  refine ⟨_, _, hpre.trans ((List.prefix_append_right_inj _).2 hmore), ?_, hframed, r.uri, k, bs',
    by rw [hbytes]; exact hpath, (uri_bytes_length hstands.fits).symm, ?_⟩
  · unfold Reply.length
    rw [List.length_append, hall.length, Reply.left_eq htype hpos]
  · rw [hx]
    rfl

theorem Reply.Answers.read (h : a.Answers conf x) (hsound : conf.Sound) (hclear : Clear x.uri)
    (hsent : a.Sent sent fs) (hlen : sent.length = a.length) :
    ∃ res, Frames reader sent res ∧ Tells conf res x.toHead := by
  obtain ⟨text, res, hpre, htext, hframed, htells⟩ := h.framed hsound hclear hsent
  obtain rfl := hpre.eq_of_length (hlen.trans htext.symm)
  exact ⟨res, hframed, htells⟩

theorem Reply.Answers.unread (h : a.Answers conf x) (hsound : conf.Sound) (hclear : Clear x.uri)
    (hsent : a.Sent sent fs) (hlen : sent.length ≠ a.length) : reader sent = none := by
  obtain ⟨text, res, hpre, htext, hframed, -⟩ := h.framed hsound hclear hsent
  refine reader_stable.incomplete hframed hpre ?_
  rintro rfl
  exact hlen htext

/-- Answers that have been sent are responses to their requests, in their order. -/
theorem answers_read {ds : List Transfer} {xs : List Handed}
    (h : List.Forall₂ (Reply.Answers conf) (ds.map Transfer.reply) xs) (hsound : conf.Sound)
    (hclear : ∀ x ∈ xs, Clear x.uri)
    (hds : ∀ d ∈ ds, d.Partly ∧ d.sent.length = d.reply.length) :
    ∃ rs, List.Forall₂ (Frames reader) (ds.map Transfer.sent) rs ∧
      List.Forall₂ (Tells conf) rs (xs.map Handed.toHead) := by
  induction ds generalizing xs with
  | nil =>
    cases h
    exact ⟨[], .nil, .nil⟩
  | cons d ds ih =>
    cases h with
    | @cons _ x _ xs hd hrest =>
      obtain ⟨hpartly, hlen⟩ := hds d List.mem_cons_self
      obtain ⟨res, hframed, htells⟩ := hd.read hsound (hclear x List.mem_cons_self) hpartly hlen
      obtain ⟨rs, hrs, hall⟩ := ih hrest (fun y hy => hclear y (List.mem_cons_of_mem _ hy))
        fun e he => hds e (List.mem_cons_of_mem _ he)
      exact ⟨res :: rs, .cons hframed hrs, .cons htells hall⟩

/-- A client that has read the bytes `sent` has got the responses `rs`, which answer the first of
the requests `xs`, and a part of one more. -/
structure Hears (conf : Conf) (sent : List UInt8) (xs : List Head) (rs : List ClientResponse)
    (rest : List UInt8) : Prop where
  read : ∀ n, readAll reader (rs.length + n) sent = (rs, rest)
  le : rs.length ≤ xs.length
  tells : List.Forall₂ (Tells conf) rs (xs.take rs.length)

variable {asked : List Handed} {done : List Transfer} {now : Option Transfer}

/-- What is on the wire is heard. -/
theorem OnWire.hears (h : OnWire w asked done now) (hsound : w.conf.Sound)
    (hclear : ∀ x ∈ asked, Clear x.uri) :
    ∃ rs rest, Hears w.conf w.t.sent (asked.map Handed.toHead) rs rest ∧
      done.length ≤ rs.length ∧ (now = none → rs.length = asked.length ∧ rest = []) := by
  -- the answers that are whole, and what has been sent of one that is not
  obtain ⟨ds, rest, hds, hsent, hwhole, hrest, hle, hnone⟩ : ∃ ds rest, ds <+: done ++ now.toList ∧
      w.t.sent = ds.flatMap Transfer.sent ++ rest ∧
      (∀ d ∈ ds, d.Partly ∧ d.sent.length = d.reply.length) ∧ reader rest = none ∧
      done.length ≤ ds.length ∧ (now = none → ds = done ∧ rest = []) := by
    have hdone : ∀ d ∈ done, d.Partly ∧ d.sent.length = d.reply.length := fun d hd =>
      ⟨(h.whole d hd).partly, (h.whole d hd).length⟩
    cases now with
    | none =>
      refine ⟨done, [], List.prefix_append _ _, ?_, hdone, rfl, Nat.le_refl _, fun _ => ⟨rfl, rfl⟩⟩
      rw [h.sent]
      simp
    | some d =>
      by_cases hlen : d.sent.length = d.reply.length
      · refine ⟨done ++ [d], [], List.prefix_refl _, ?_, ?_, rfl, ?_, nofun⟩
        · rw [h.sent]
          simp
        · intro e he
          rcases List.mem_append.1 he with he | he
          · exact hdone e he
          · rw [List.mem_singleton.1 he]
            exact ⟨h.partly d rfl, hlen⟩
        · rw [List.length_append]
          exact Nat.le_add_right _ _
      · refine ⟨done, d.sent, List.prefix_append _ _, ?_, hdone, ?_, Nat.le_refl _, nofun⟩
        · rw [h.sent]
          simp
        · have hlast := List.forall₂_drop done.length h.answers
          rw [List.map_append, List.drop_left' (by rw [List.length_map])] at hlast
          obtain ⟨x, xs, hfor, -, hxs⟩ := List.forall₂_cons_left_iff.1 hlast
          have hx : x ∈ asked := List.mem_of_mem_drop (hxs ▸ List.mem_cons_self)
          exact hfor.unread hsound (hclear x hx) (h.partly d rfl) hlen
  have htold := List.forall₂_take ds.length h.answers
  rw [← List.map_take, ← List.prefix_iff_eq_take.1 hds] at htold
  obtain ⟨rs, hframed, htells⟩ := answers_read htold hsound
    (fun x hx => hclear x (List.mem_of_mem_take hx)) hwhole
  have hrs : rs.length = ds.length := by
    rw [← hframed.length_eq, List.length_map]
  have hlen := htold.length_eq
  rw [List.length_map, List.length_take] at hlen
  refine ⟨rs, rest, ⟨fun n => ?_, ?_, ?_⟩, hle.trans hrs.ge, fun hnow => ?_⟩
  · have hread := readAll_framed hframed n rest
    rw [List.length_map, ← hrs, readAll_none hrest, List.append_nil, ← List.flatMap_def,
      ← hsent] at hread
    exact hread
  · rw [List.length_map]
    omega
  · rw [← List.map_take, hrs]
    exact htells
  · obtain ⟨rfl, hnil⟩ := hnone hnow
    have hall := h.answers.length_eq
    rw [hnow, Option.toList_none, List.append_nil, List.length_map] at hall
    exact ⟨hrs.trans hall, hnil⟩

theorem Hears.append {xs ys : List Head} {rs : List ClientResponse} {rest : List UInt8}
    (h : Hears conf sent xs rs rest) : Hears conf sent (xs ++ ys) rs rest where
  read := h.read
  le := by
    rw [List.length_append]
    exact Nat.le_add_right_of_le h.le
  tells := by
    rw [List.take_append_of_le_length h.le]
    exact h.tells

/-- Where control is in the event loop, a connection that waits for input has been answered. -/
theorem Wire.hears (h : Wire q₁ w) (hsound : w.conf.Sound)
    (hclear : ∀ x ∈ w.t.handed, Clear x.uri) :
    ∃ rs rest, Hears w.conf w.t.sent (w.t.handed.map Handed.toHead) rs rest ∧
      w.t.keepAlives.length ≤ rs.length ∧
      (q₁ = .loop → w.c.fd ≠ -1 → w.c.ev.events = readMask →
        rs.length = w.t.handed.length ∧ rest = []) := by
  by_cases hreads : q₁ = .loop ∧ w.c.fd ≠ -1 ∧ w.c.ev.events = readMask
  · obtain ⟨rfl, hfd, hmask⟩ := hreads
    obtain ⟨done, hq⟩ := h.reads hfd hmask
    obtain ⟨rs, rest, hhears, hle, hall⟩ := hq.wire.hears hsound hclear
    exact ⟨rs, rest, hhears, hq.wire.keepAlives.trans_le hle, fun _ _ _ => hall rfl⟩
  · obtain ⟨asked, done, now, last, hwire, hhanded, -⟩ := h.ended
    obtain ⟨rs, rest, hhears, hle, -⟩ := hwire.hears hsound fun x hx =>
      hclear x (hhanded ▸ List.mem_append_left _ hx)
    refine ⟨rs, rest, ?_, hwire.keepAlives.trans_le hle, fun hloop hfd hmask =>
      absurd ⟨hloop, hfd, hmask⟩ hreads⟩
    rw [hhanded, List.map_append]
    exact hhears.append

/-- In every run a client that reads what the kernel has accepted, one response after the other,
reads the answers to the requests that have been handed over, in their order, and a part of the
next; it reads each that `ehd_http_keep_alive` has ended, and when the connection waits for input it
has read all of them. -/
theorem responses_round_trip {P : Kernel → Prop} {o : Option Stop} (h : Run P o w)
    (hsound : w.conf.Sound) (hclear : ∀ x ∈ w.t.handed, Clear x.uri) :
    ∃ rs rest, Hears w.conf w.t.sent (w.t.handed.map Handed.toHead) rs rest ∧
      w.t.keepAlives.length ≤ rs.length ∧
      (o = none → w.c.fd ≠ -1 → w.c.ev.events = readMask →
        rs.length = w.t.handed.length ∧ rest = []) := by
  obtain ⟨rs, rest, hhears, hle, hall⟩ := h.wire.hears hsound hclear
  refine ⟨rs, rest, hhears, hle, fun ho => hall ?_⟩
  rw [ho]
  rfl

/-- The client reads one response. -/
theorem responses_round_trip_served : ∃ rs, rs.length = 1 ∧
    Hears (after (dispatch EPOLLIN) servedWorld).conf (after (dispatch EPOLLIN) servedWorld).t.sent
      [⟨.get, [47], []⟩] rs [] := by
  have hsound : (after (dispatch EPOLLIN) servedWorld).conf.Sound := by
    constructor <;> decide +kernel
  have hhanded : (after (dispatch EPOLLIN) servedWorld).t.handed.map Handed.toHead =
      [⟨.get, [47], []⟩] := by decide +kernel
  have hroot : pathOf [47] = some [47] := by decide
  have hclear : ∀ x ∈ (after (dispatch EPOLLIN) servedWorld).t.handed, Clear x.uri := by
    intro x hx path hpath
    have hx' := List.mem_map_of_mem (f := Handed.toHead) hx
    rw [hhanded, List.mem_singleton] at hx'
    rw [show x.uri = [47] from congrArg Head.uri hx', hroot] at hpath
    cases hpath
    decide
  obtain ⟨rs, rest, hhears, -, hall⟩ :=
    responses_round_trip served_run hsound hclear
  obtain ⟨hlen, rfl⟩ := hall rfl (by decide +kernel) (by decide +kernel)
  have hone : (after (dispatch EPOLLIN) servedWorld).t.handed.length = 1 := by decide +kernel
  rw [hhanded] at hhears
  exact ⟨rs, hlen.trans hone, hhears⟩

end Ehd.Http
