import Ehttpd.Http.ResponseHead
import Ehttpd.Lib.Lockstep

namespace Ehd

open Program

/-- `w` with other stale memory, and with what was copied into such memory. -/
def World.recast (w : World) (stale : Nat → Nat → UInt8) (uri unparsedUri exten : Str) : World :=
  (w.onR fun r => { r with uri := uri, unparsedUri := unparsedUri, exten := exten }).onK fun k =>
    { k with stale := stale }

/-- Two worlds that differ in stale memory only; `U` relates their copies of the path. -/
def Twin (U : Str → Str → Prop) (s t : World) : Prop :=
  ∃ stale uri unparsedUri exten, t = s.recast stale uri unparsedUri exten ∧ U s.r.uri uri

abbrev Blind (U : Str → Str → Prop) {α : Type} (x : Handler α) : Prop := Lockstep (Twin U) x x

variable {U : Str → Str → Prop} {α : Type}

theorem twin_map {f : World → World}
    (h : ∀ s m u v e, f (s.recast m u v e) = (f s).recast m u v e) (huri : ∀ s, (f s).r.uri = s.r.uri) :
    ∀ s t, Twin U s t → Twin U (f s) (f t) := by
  rintro s t ⟨m, u, v, e, rfl, hu⟩
  refine ⟨m, u, v, e, h s m u v e, ?_⟩
  rw [huri]
  exact hu

section

variable (s : World) (m : Nat → Nat → UInt8) (u v e : Str)

theorem touch_recast : (s.recast m u v e).touch = s.touch.recast m u v e := by
  unfold World.touch
  by_cases hgone : s.r.home ∈ s.t.destroyed
  · rw [if_pos hgone]
    exact if_pos hgone
  · rw [if_neg hgone]
    exact if_neg hgone

theorem closeRequest_recast :
    (s.recast m u v e).closeRequest = s.closeRequest.recast m u v e := by
  unfold World.closeRequest
  rw [touch_recast]
  have hpool : (s.recast m u v e).r.pool = s.r.pool := rfl
  rw [hpool]
  cases s.r.pool <;> rfl

theorem closeConnection_recast :
    (s.recast m u v e).closeConnection = s.closeConnection.recast m u v e := by
  unfold World.closeConnection
  have hpool : (s.recast m u v e).c.pool = s.c.pool := rfl
  rw [hpool]
  cases s.c.pool <;> rfl

end

theorem twin_touch : ∀ s t, Twin U s t → Twin U s.touch t.touch := by
  apply twin_map touch_recast
  intro s
  rw [World.touch_r]

theorem twin_closeRequest : ∀ s t, Twin U s t → Twin U s.closeRequest t.closeRequest := by
  apply twin_map closeRequest_recast
  intro s
  rw [World.closeRequest_r]

theorem twin_closeConnection : ∀ s t, Twin U s t → Twin U s.closeConnection t.closeConnection := by
  apply twin_map closeConnection_recast
  intro s
  unfold World.closeConnection
  split <;> rfl

theorem blind_get_bind {k : World → Handler α} (hk : ∀ s, Blind U (k s))
    (h : ∀ s m u v e, k (s.recast m u v e) = k s) : Blind U (get >>= k) := by
  apply lockstep_get_bind
  intro s t hst
  have hks := hk s s t hst
  obtain ⟨m, u, v, e, rfl, -⟩ := hst
  rw [h]
  exact hks

theorem blind_modify_bind {f : World → World} {k : PUnit → Handler α}
    (h : ∀ s m u v e, f (s.recast m u v e) = (f s).recast m u v e) (huri : ∀ s, (f s).r.uri = s.r.uri)
    (hk : ∀ u, Blind U (k u)) : Blind U (modify f >>= k) :=
  lockstep_modify_bind (twin_map h huri) hk

theorem blind_get_set_bind {f : World → World} {k : World → Handler α}
    (h : ∀ s m u v e, f (s.recast m u v e) = (f s).recast m u v e) (huri : ∀ s, (f s).r.uri = s.r.uri)
    (hk : ∀ s, Blind U (k s)) (hsame : ∀ s m u v e, k (s.recast m u v e) = k s) :
    Blind U (do let w ← get; set (f w); k w) := by
  apply lockstep_get_bind
  intro s t hst
  have hst' := twin_map h huri s t hst
  have hks := hk s (f s) (f t) hst'
  obtain ⟨m, u, v, e, rfl, -⟩ := hst
  show Agree (Twin U) Eq (k s) (k (s.recast m u v e)) (f s) (f (s.recast m u v e))
  rw [hsame]
  exact hks

theorem blind_getRequest_bind {k : Http.Request → Handler α}
    (h : ∀ r u v e, U r.uri u → Lockstep (Twin U) (k r)
      (k { r with uri := u, unparsedUri := v, exten := e })) : Blind U (getRequest >>= k) := by
  intro s t hst
  have hread : Agree (Twin U)
      (fun r r' => ∃ u v e, r' = { r with uri := u, unparsedUri := v, exten := e } ∧ U r.uri u)
      getRequest getRequest s t := by
    obtain ⟨m, u, v, e, ht, hu⟩ := twin_touch s t hst
    refine ⟨⟨u, v, e, ?_, hu⟩, m, u, v, e, ht, hu⟩
    rw [ht]
    rfl
  apply agree_bind hread
  rintro r r' s' t' ⟨u, v, e, rfl, hu⟩ hst'
  exact h r u v e hu s' t' hst'

theorem blind_modifyRequest {f : Http.Request → Http.Request}
    (h : ∀ r u v e, f { r with uri := u, unparsedUri := v, exten := e } =
      { f r with uri := u, unparsedUri := v, exten := e }) (huri : ∀ r, (f r).uri = r.uri) :
    Blind U (modifyRequest f) := by
  unfold modifyRequest
  apply lockstep_modify
  intro s t hst
  have hset : ∀ s t : World, Twin U s t → Twin U (s.onR f) (t.onR f) := by
    apply twin_map
    · intro s m u v e
      show ({ s with
        r := f { s.r with uri := u, unparsedUri := v, exten := e }
        k := { s.k with stale := m } } : World) = _
      rw [h]
      rfl
    · intro s
      exact huri s.r
  exact hset _ _ (twin_touch s t hst)

theorem blind_getHeaderInBuf : Blind U getHeaderInBuf := by
  unfold getHeaderInBuf
  apply lockstep_modify_bind twin_touch
  intro _
  apply blind_get_bind
  · intro s
    split
    · exact lockstep_pure _
    · exact lockstep_throw _
  · intro s m u v e
    rfl

theorem blind_setHeaderInBuf (b : Buf) : Blind U (setHeaderInBuf b) := by
  unfold setHeaderInBuf
  apply lockstep_modify
  intro s t hst
  have hset : ∀ s t : World, Twin U s t → Twin U (s.setBuf b) (t.setBuf b) :=
    twin_map (fun _ _ _ _ _ => rfl) fun _ => rfl
  exact hset _ _ (twin_touch s t hst)

theorem blind_allocate {call : World → AllocCall}
    (h : ∀ s m u v e, call (s.recast m u v e) = call s) : Blind U (allocate call) := by
  unfold allocate
  refine blind_get_set_bind ?_ (fun _ => rfl) (fun s => lockstep_pure _) fun _ _ _ _ _ => rfl
  intro s m u v e
  rw [h]
  rfl

theorem blind_pcalloc (size : Nat) : Blind U (pcalloc rpool size) := by
  unfold pcalloc
  apply lockstep_bind (blind_allocate fun _ _ _ _ _ => rfl)
  intro ok
  exact lockstep_ite (lockstep_pure _) (lockstep_pure _)

theorem blind_createTempBuf (size : Nat) : Blind U (createTempBuf rpool size) := by
  unfold createTempBuf
  apply lockstep_bind (blind_allocate fun _ _ _ _ _ => rfl)
  intro ok
  apply lockstep_ite _ (lockstep_pure _)
  apply lockstep_bind (blind_allocate fun _ _ _ _ _ => rfl)
  intro ok'
  exact lockstep_ite (lockstep_pure _) (lockstep_pure _)

theorem blind_listRoom {β : Type} (l : EList β) : Blind U (listRoom l) := by
  unfold listRoom
  apply lockstep_ite _ (lockstep_pure _)
  apply lockstep_bind (blind_allocate fun _ _ _ _ _ => rfl)
  intro ok
  exact lockstep_ite (blind_allocate fun _ _ _ _ _ => rfl) (lockstep_pure _)

theorem blind_sysStat (path : List UInt8) : Blind U (sysStat path) := by
  unfold sysStat
  exact blind_get_set_bind (fun _ _ _ _ _ => rfl) (fun _ => rfl) (fun s => lockstep_pure _)
    fun _ _ _ _ _ => rfl

theorem blind_sysOpen (path : List UInt8) : Blind U (sysOpen path) := by
  unfold sysOpen
  refine blind_get_set_bind (fun _ _ _ _ _ => rfl) (fun _ => rfl) ?_ fun _ _ _ _ _ => rfl
  intro s
  split
  · exact lockstep_pure _
  · apply lockstep_ite (lockstep_pure _)
    exact blind_modify_bind (fun _ _ _ _ _ => rfl) (fun _ => rfl) fun _ => lockstep_pure _

theorem blind_fileOpenRs (name : Str) : Blind U (fileOpenRs name) := by
  unfold fileOpenRs
  apply lockstep_bind (blind_sysOpen _)
  intro fd
  cases fd with
  | none => exact lockstep_pure _
  | some fd =>
    apply lockstep_bind (blind_sysStat _)
    intro st
    refine blind_modify_bind (fun _ _ _ _ _ => rfl) (fun _ => rfl) fun _ => ?_
    cases st with
    | none => exact lockstep_pure _
    | some st => exact lockstep_pure _

theorem blind_epollCtl (entry : Option Interest) : Blind U (epollCtl entry) := by
  unfold epollCtl
  refine blind_get_set_bind (fun _ _ _ _ _ => rfl) (fun _ => rfl) ?_ fun _ _ _ _ _ => rfl
  intro s
  apply lockstep_ite _ (lockstep_pure _)
  exact blind_modify_bind (fun _ _ _ _ _ => rfl) (fun _ => rfl) fun _ => lockstep_pure _

theorem blind_epollAdd (event flags : UInt32) : Blind U (Event.epollAdd event flags) := by
  unfold Event.epollAdd
  refine blind_modify_bind (fun _ _ _ _ _ => rfl) (fun _ => rfl) fun _ => ?_
  apply blind_get_bind
  · intro s
    apply lockstep_bind (blind_epollCtl _)
    intro ok
    exact lockstep_ite (lockstep_pure _) (lockstep_pure _)
  · intro s m u v e
    rfl

namespace Http

theorem blind_closeBoth : Blind U closeBoth :=
  lockstep_bind (lockstep_modify twin_closeRequest) fun _ => lockstep_modify twin_closeConnection

theorem blind_keepAlive : Blind U keepAlive := by
  unfold keepAlive
  apply lockstep_bind blind_getHeaderInBuf
  intro b
  refine blind_modify_bind (fun _ _ _ _ _ => rfl) (fun _ => rfl) fun _ => ?_
  refine blind_modify_bind (fun _ _ _ _ _ => rfl) (fun _ => rfl) fun _ => ?_
  refine blind_modify_bind (fun _ _ _ _ _ => rfl) (fun _ => rfl) fun _ => ?_
  apply lockstep_bind (blind_setHeaderInBuf _)
  intro _
  refine lockstep_modify_bind twin_closeRequest fun _ => ?_
  refine blind_modify_bind (fun _ _ _ _ _ => rfl) (fun _ => rfl) fun _ => ?_
  apply lockstep_bind (blind_epollAdd _ _)
  intro rc
  exact lockstep_ite (lockstep_modify twin_closeConnection) (lockstep_pure _)

theorem blind_send (bs : List UInt8) : Blind U (send bs) := by
  have go : ∀ rs : List SendResult, Blind U (send.go bs rs) := by
    intro rs
    induction rs with
    | nil => exact lockstep_throw _
    | cons r rs ih =>
      cases r with
      | sent m =>
        unfold send.go
        refine blind_modify_bind (fun _ _ _ _ _ => rfl) (fun _ => rfl) fun _ => ?_
        refine blind_modify_bind (fun _ _ _ _ _ => rfl) (fun _ => rfl) fun _ => ?_
        exact blind_modify_bind (fun _ _ _ _ _ => rfl) (fun _ => rfl) fun _ => lockstep_pure _
      | intr =>
        unfold send.go
        exact blind_modify_bind (fun _ _ _ _ _ => rfl) (fun _ => rfl) fun _ => ih
      | again =>
        unfold send.go
        refine blind_modify_bind (fun _ _ _ _ _ => rfl) (fun _ => rfl) fun _ => ?_
        exact blind_modify_bind (fun _ _ _ _ _ => rfl) (fun _ => rfl) fun _ => lockstep_pure _
      | fail =>
        unfold send.go
        refine blind_modify_bind (fun _ _ _ _ _ => rfl) (fun _ => rfl) fun _ => ?_
        exact blind_modify_bind (fun _ _ _ _ _ => rfl) (fun _ => rfl) fun _ => lockstep_pure _
  unfold send
  apply lockstep_ite
  · exact blind_modify_bind (fun _ _ _ _ _ => rfl) (fun _ => rfl) fun _ => lockstep_pure _
  · apply blind_get_bind
    · intro s
      exact go s.k.sends
    · intro s m u v e
      rfl

theorem blind_sendfile (fd : Int) (offset count : Nat) : Blind U (sendfile fd offset count) := by
  unfold sendfile
  apply lockstep_ite (lockstep_pure _)
  apply blind_get_bind
  · intro s
    split
    · exact lockstep_throw _
    · refine blind_modify_bind (fun _ _ _ _ _ => rfl) (fun _ => rfl) fun _ => ?_
      exact blind_modify_bind (fun _ _ _ _ _ => rfl) (fun _ => rfl) fun _ => lockstep_pure _
    · exact blind_modify_bind (fun _ _ _ _ _ => rfl) (fun _ => rfl) fun _ => lockstep_pure _
    · exact blind_modify_bind (fun _ _ _ _ _ => rfl) (fun _ => rfl) fun _ => lockstep_pure _
    · exact blind_modify_bind (fun _ _ _ _ _ => rfl) (fun _ => rfl) fun _ => lockstep_pure _
  · intro s m u v e
    rfl

theorem blind_transfer (last : Nat) (b : Buf) : Blind U (transfer last b) := by
  unfold transfer setChainBuf
  apply lockstep_ite
  · apply lockstep_bind (blind_send _)
    intro n
    exact blind_modify_bind (fun _ _ _ _ _ => rfl) (fun _ => rfl) fun _ => lockstep_pure _
  · split
    · exact lockstep_throw _
    · apply lockstep_bind (blind_sendfile _ _ _)
      intro n
      exact blind_modify_bind (fun _ _ _ _ _ => rfl) (fun _ => rfl) fun _ => lockstep_pure _

theorem blind_writerLoop : ∀ fuel last, Blind U (writerLoop fuel last) := by
  intro fuel
  induction fuel with
  | zero =>
    intro last
    exact lockstep_throw _
  | succ fuel ih =>
    intro last
    unfold writerLoop
    refine blind_get_bind ?_ fun _ _ _ _ _ => rfl
    intro s
    dsimp only
    split
    · exact lockstep_throw _
    · apply lockstep_bind (blind_transfer _ _)
      rintro ⟨n, whole⟩
      dsimp only
      apply lockstep_ite
      · apply lockstep_ite
        · exact lockstep_ite blind_keepAlive (ih _)
        · exact ih _
      · apply lockstep_ite blind_closeBoth
        refine blind_get_bind ?_ fun _ _ _ _ _ => rfl
        intro s'
        exact lockstep_ite (lockstep_pure _) blind_closeBoth

theorem blind_writer : Blind U writer := by
  unfold writer beginResponse
  refine blind_get_bind ?_ fun _ _ _ _ _ => rfl
  intro s
  apply lockstep_ite (lockstep_throw _)
  refine blind_get_bind ?_ fun _ _ _ _ _ => rfl
  intro s'
  apply lockstep_ite (lockstep_throw _)
  apply lockstep_bind
  · apply blind_getRequest_bind
    intro r u v e _
    exact lockstep_ite (blind_modifyRequest (fun _ _ _ _ => rfl) fun _ => rfl) (lockstep_pure _)
  · intro _
    apply blind_getRequest_bind
    intro r u v e _
    refine blind_get_bind ?_ fun _ _ _ _ _ => rfl
    intro s''
    exact blind_writerLoop _ _

theorem blind_startWriting : Blind U startWriting := by
  unfold startWriting armForWriting
  refine blind_modify_bind (fun _ _ _ _ _ => rfl) (fun _ => rfl) fun _ => ?_
  apply lockstep_bind _ fun _ => blind_writer
  apply lockstep_bind (blind_epollAdd _ _)
  intro rc
  exact lockstep_ite blind_closeBoth (lockstep_pure _)

/-- What epoll reports as writable goes to the writer. -/
theorem blind_dispatch : Blind U (dispatch EPOLLOUT) := by
  have hwrite : Blind U callWriteHandler := by
    unfold callWriteHandler
    refine blind_get_bind ?_ fun _ _ _ _ _ => rfl
    intro s
    split
    · exact lockstep_throw _
    · exact lockstep_pure _
    · exact blind_writer
  unfold dispatch
  refine blind_get_bind ?_ fun _ _ _ _ _ => rfl
  intro s
  apply lockstep_ite (lockstep_pure _)
  apply lockstep_bind
  · unfold reportWritable
    apply lockstep_ite _ (lockstep_pure _)
    exact blind_modify_bind (fun _ _ _ _ _ => rfl) (fun _ => rfl) fun _ => hwrite
  · intro _
    unfold reportReadable
    rw [if_neg (by decide)]
    exact lockstep_pure _

theorem blind_pushHeaderOut (t : TableData) : Blind U (pushHeaderOut t) := by
  unfold pushHeaderOut
  apply blind_getRequest_bind
  intro r u v e _
  apply lockstep_bind (blind_listRoom _)
  intro ok
  exact lockstep_ite (blind_modifyRequest (fun _ _ _ _ => rfl) fun _ => rfl) (lockstep_throw _)

theorem blind_pushServer : Blind U pushServer := by
  unfold pushServer
  apply blind_getRequest_bind
  intro r u v e _
  exact lockstep_ite (blind_pushHeaderOut _) (lockstep_pure _)

theorem blind_pushContentLength : Blind U pushContentLength := by
  unfold pushContentLength
  apply blind_getRequest_bind
  intro r u v e _
  apply lockstep_ite _ (lockstep_pure _)
  apply lockstep_bind (blind_listRoom _)
  intro ok
  apply lockstep_ite _ (lockstep_throw _)
  apply lockstep_bind (blind_pcalloc _)
  intro area
  cases area with
  | none => exact lockstep_throw _
  | some area => exact blind_modifyRequest (fun _ _ _ _ => rfl) fun _ => rfl

theorem blind_responseGenHeader : Blind U responseGenHeader := by
  unfold responseGenHeader
  apply lockstep_bind (blind_allocate fun _ _ _ _ _ => rfl)
  intro ok
  apply lockstep_ite (lockstep_throw _)
  apply lockstep_bind (blind_createTempBuf _)
  intro b
  cases b with
  | none => exact lockstep_throw _
  | some b =>
    apply blind_getRequest_bind
    intro r u v e _
    apply lockstep_ite (lockstep_throw _)
    apply lockstep_bind blind_pushServer
    intro _
    apply lockstep_bind blind_pushContentLength
    intro _
    apply blind_getRequest_bind
    intro r' u' v' e' _
    exact blind_modifyRequest (fun _ _ _ _ => rfl) fun _ => rfl

theorem blind_chainBody (b : Buf) : Blind U (chainBody b) :=
  blind_modifyRequest (fun _ _ _ _ => rfl) fun _ => rfl

theorem blind_specialResponseHandler (error : Nat) : Blind U (specialResponseHandler error) := by
  unfold specialResponseHandler
  apply lockstep_bind (blind_pushHeaderOut _)
  intro _
  apply lockstep_bind (blind_createTempBuf _)
  intro b
  cases b with
  | none => exact lockstep_throw _
  | some b =>
    dsimp only
    refine lockstep_bind (blind_modifyRequest (fun _ _ _ _ => rfl) fun _ => rfl) fun _ => ?_
    apply lockstep_bind blind_responseGenHeader
    intro _
    apply lockstep_bind (blind_allocate fun _ _ _ _ _ => rfl)
    intro ok
    apply lockstep_ite _ (lockstep_throw _)
    exact lockstep_bind (blind_chainBody _) fun _ => blind_startWriting

structure SameUri (u v : Str) : Prop where
  len : v.len = u.len
  bytes : v.bytes = u.bytes
  head : u.bytes.head? = some 47
  short : u.len < 2 ^ 63

section

variable {u v : Str}

theorem SameUri.length_pos (h : SameUri u v) : 0 < u.len := by
  have hhead := h.head
  have hle := bytes_length_le u
  cases hbytes : u.bytes with
  | nil =>
    rw [hbytes] at hhead
    cases hhead
  | cons c cs =>
    rw [hbytes, List.length_cons] at hle
    omega

theorem getD_bytes (u : Str) {i : Nat} (hi : i < u.len) : u.bytes.getD i 0 = u.data.getD i 0 := by
  unfold Str.bytes
  rw [List.getD_eq_getElem?_getD, List.getD_eq_getElem?_getD, List.getElem?_take_of_lt hi]

theorem SameUri.getD (h : SameUri u v) {i : Nat} (hi : i < u.len) :
    v.data.getD i 0 = u.data.getD i 0 := by
  rw [← getD_bytes v (by rw [h.len]; exact hi), ← getD_bytes u hi, h.bytes]

theorem SameUri.first (h : SameUri u v) : u.data.getD 0 0 = 47 := by
  rw [← getD_bytes u h.length_pos, List.getD_eq_getElem?_getD, ← List.head?_eq_getElem?, h.head]
  rfl

/-- The comparison with an extension stays inside the path, which starts with a slash. -/
theorem SameUri.extMatches (h : SameUri u v) {ext : List UInt8} (hext : 47 ∉ ext) (j : Nat)
    (hshort : ext.length < 2 ^ 63) (hj : j ≤ ext.length) (hlen : ext.length < u.len + j) :
    extMatches ext v j = extMatches ext u j := by
  induction j with
  | zero => rfl
  | succ j ih =>
    have hshort' := h.short
    unfold Http.extMatches
    rw [h.len]
    have hindex : (u.len + 2 ^ 64 - ext.length + j) % 2 ^ 64 = u.len + j - ext.length := by
      rw [show u.len + 2 ^ 64 - ext.length + j = (u.len + j - ext.length) + 2 ^ 64 by omega,
        Nat.add_mod_right, Nat.mod_eq_of_lt (by omega)]
    rw [hindex, h.getD (by omega)]
    split
    · rfl
    · next hmatch =>
      apply ih (by omega)
      -- the first byte of the path is in no extension
      by_contra hend
      have hzero : u.len + j - ext.length = 0 := by omega
      rw [hzero, h.first, not_not] at hmatch
      apply hext
      rw [← hmatch, List.getD_eq_getElem?_getD, List.getElem?_eq_getElem (by omega)]
      exact List.getElem_mem _

theorem SameUri.contentType (h : SameUri u v) : contentType v = contentType u := by
  have hmime : ∀ e ∈ mime, 47 ∉ e.1 ∧ e.1.length ≤ 5 := by decide
  have hpos := h.length_pos
  have hsame : ∀ e ∈ mime, Http.extMatches e.1 v e.1.length = Http.extMatches e.1 u e.1.length := by
    intro e he
    obtain ⟨hslash, hlen⟩ := hmime e he
    exact h.extMatches hslash e.1.length (by omega) (Nat.le_refl _) (by omega)
  unfold Http.contentType
  rw [← List.head?_filter, ← List.head?_filter, List.filter_congr hsame]

theorem SameUri.memcpy (h : SameUri u v) (area : List UInt8) (off : Nat) :
    memcpy area off v.data v.len = memcpy area off u.data u.len := by
  show area.take off ++ v.bytes ++ area.drop (off + v.len) =
    area.take off ++ u.bytes ++ area.drop (off + u.len)
  rw [h.bytes, h.len]

theorem SameUri.serveDirectory (h : SameUri u v) (conf : Conf) (area : List UInt8) :
    serveDirectory conf v area = serveDirectory conf u area := by
  have hpos := h.length_pos
  unfold Http.serveDirectory
  rw [h.memcpy, h.len, h.getD (by omega)]

end

theorem blind_serveFile (name : Str) : Blind SameUri (serveFile name) := by
  unfold serveFile
  apply lockstep_bind
  · unfold pushContentType
    apply blind_getRequest_bind
    intro r u v e hu
    dsimp only
    rw [hu.contentType]
    split
    · exact lockstep_pure _
    · exact blind_pushHeaderOut _
  · intro _
    apply lockstep_bind (blind_allocate fun _ _ _ _ _ => rfl)
    intro ok
    apply lockstep_ite (lockstep_throw _)
    apply lockstep_bind (blind_fileOpenRs _)
    intro f
    dsimp only
    refine lockstep_bind (blind_modifyRequest (fun _ _ _ _ => rfl) fun _ => rfl) fun _ => ?_
    apply lockstep_bind blind_responseGenHeader
    intro _
    apply lockstep_bind (blind_allocate fun _ _ _ _ _ => rfl)
    intro ok₁
    apply lockstep_ite (lockstep_throw _)
    apply lockstep_bind (blind_allocate fun _ _ _ _ _ => rfl)
    intro ok₂
    apply lockstep_ite (lockstep_throw _)
    exact lockstep_bind (blind_chainBody _) fun _ => blind_startWriting

theorem blind_serveDirectory (conf : Conf) (uri : Str) (area : List UInt8) :
    Blind SameUri (serveDirectory conf uri area) := by
  unfold serveDirectory
  apply lockstep_ite
  · exact lockstep_bind (blind_pushHeaderOut _) fun _ => blind_specialResponseHandler _
  · apply lockstep_bind (blind_sysStat _)
    intro st
    cases st with
    | none => exact blind_specialResponseHandler _
    | some st => exact blind_serveFile _

/-- The file handler, when the two copies of the path hold the same bytes. -/
theorem blind_fileWriterHandler : Blind SameUri fileWriterHandler := by
  unfold fileWriterHandler
  refine blind_get_bind ?_ fun _ _ _ _ _ => rfl
  intro s
  dsimp only
  apply blind_getRequest_bind
  intro r u v e hu
  dsimp only
  rw [hu.len]
  apply lockstep_bind (blind_pcalloc _)
  intro area
  cases area with
  | none => exact lockstep_throw _
  | some area =>
    dsimp only
    have hcopy : ∀ area : List UInt8, memcpy area s.conf.root.len u.data r.uri.len =
        memcpy area s.conf.root.len r.uri.data r.uri.len := by
      intro area
      rw [← hu.memcpy, hu.len]
    rw [hcopy]
    apply lockstep_bind (blind_sysStat _)
    intro st
    cases st with
    | none => exact blind_specialResponseHandler _
    | some st =>
      dsimp only
      rw [hu.serveDirectory]
      apply lockstep_ite (blind_serveDirectory _ _ _)
      exact lockstep_ite (blind_specialResponseHandler _) (blind_serveFile _)

/-- `ehd_http_handler`, and then one call of the writer for each of `n` `EPOLLOUT`s. -/
def responses : Nat → Handler Unit
  | 0 => handler
  | n + 1 => do
    responses n
    dispatch EPOLLOUT

/-- Two worlds in which `ehd_http_handler` is given the same request, the one that the
parser has found in `b` and marked `p`; the memory it was copied to had been stale. -/
structure Alike (p : ParseState) (b : Buf) (s t : World) : Prop where
  reading : Reading s
  method : s.r.parse.method = p.method
  uri : CopiedUri p b s.r.uri
  uri' : CopiedUri p b t.r.uri
  recast : ∃ stale unparsedUri exten, t = s.recast stale t.r.uri unparsedUri exten

section

variable {s t : World} {p : ParseState} {b b' : Buf}

/-- The two runs go on in lockstep when the path holds the same bytes, or is not looked at. -/
theorem agree_handler {U : Str → Str → Prop} (halike : Alike p b s t) (huri : U s.r.uri t.r.uri)
    (hget : p.method = .get → Blind U fileWriterHandler) :
    Agree (Twin U) Eq handler handler s t := by
  obtain ⟨inBuf, hb, -⟩ := halike.reading.buf
  have halive := halike.reading.alive
  obtain ⟨m, v, e, ht⟩ := halike.recast
  have halive' : t.r.home ∉ t.t.destroyed := by
    rw [ht]
    exact halive
  have hb' : t.c.buf = some inBuf := by
    rw [ht]
    exact hb
  have hmethod : t.r.parse.method = s.r.parse.method := by rw [ht]; rfl
  have htwin : Twin U (s.handing inBuf) (t.handing inBuf) := by
    refine ⟨m, t.r.uri, v, e, ?_, huri⟩
    rw [ht]
    rfl
  unfold Agree
  rw [handler_eq halive hb, handler_eq halive' hb', hmethod, halike.method]
  by_cases hp : p.method = .get
  · rw [if_pos hp]
    exact hget hp _ _ htwin
  · rw [if_neg hp]
    exact blind_specialResponseHandler _ _ _ htwin

theorem agree_responses {U : Str → Str → Prop} (n : Nat)
    (h : Agree (Twin U) Eq handler handler s t) :
    Agree (Twin U) Eq (responses n) (responses n) s t := by
  induction n with
  | zero => exact h
  | succ n ih =>
    apply agree_bind ih
    intro _ _ s' t' _ hst'
    exact blind_dispatch s' t' hst'

theorem sent_of_agree {U : Str → Str → Prop} {x y : Handler Unit} (h : Agree (Twin U) Eq x y s t) :
    (after x s).t.sent = (after y t).t.sent := by
  have htwin : Twin U (after x s) (after y t) := h.after
  obtain ⟨m, u, v, e, heq, -⟩ := htwin
  rw [heq]
  rfl

/-- The path was copied whole: no NUL stands before its last byte, or it was normalised. -/
def CopiedWhole (p : ParseState) (b : Buf) : Prop :=
  p.complexUri = true ∨ 0 ∉ (target p b).dropLast

/-- A path without a NUL before its last byte is copied as it is. -/
theorem CopiedUri.whole {uri : Str} (h : CopiedUri p b uri)
    (hpath : PathAt b.bytes p (p.uriStart + p.uriLen) fun _ => True)
    (hcomplex : p.complexUri = false) (hnul : 0 ∉ (target p b).dropLast) :
    uri.len = p.uriLen ∧ uri.bytes = target p b := by
  cases h with
  | complex hc _ _ =>
    rw [hcomplex] at hc
    cases hc
  | plain _ harea =>
    refine ⟨rfl, ?_⟩
    have hlong : p.uriLen ≤ (b.bytes.drop p.uriStart).length := by
      have hle := hpath.le
      rw [List.length_drop]
      omega
    exact take_cpystrn _ _ _ harea hlong hnul

/-- Two copies of one path, into any memory. -/
theorem sameUri_of_copied {u v : Str} (hpath : PathAt b.bytes p (p.uriStart + p.uriLen) fun _ => True)
    (hbuf : InBuf b) (hu : CopiedUri p b u) (hv : CopiedUri p b v) (hwhole : CopiedWhole p b) :
    SameUri u v := by
  obtain ⟨t, -, hstands⟩ := hu.standsFor hpath
  have hshort : u.len < 2 ^ 63 := by
    have hle := hpath.le
    have hlast := hbuf.last
    have hsize := hbuf.size
    unfold Buf.last EHD_DEFAULT_BUF_SIZE at *
    have hfits := hstands.fits
    have hdata := hu.data_length
    omega
  cases hcomplex : p.complexUri with
  | true =>
    obtain ⟨t₁, ht₁, hok₁, hbytes₁, hfits₁⟩ := hu.resolved hpath hcomplex
    obtain ⟨t₂, ht₂, hok₂, hbytes₂, hfits₂⟩ := hv.resolved hpath hcomplex
    rw [ht₁] at ht₂
    cases ht₂
    refine ⟨?_, ?_, hstands.head, hshort⟩
    · rw [← uri_bytes_length hfits₁, ← uri_bytes_length hfits₂, hbytes₁, hbytes₂]
    · rw [hbytes₁, hbytes₂]
  | false =>
    have hnul : 0 ∉ (target p b).dropLast := by
      rcases hwhole with hc | hnul
      · rw [hcomplex] at hc
        cases hc
      · exact hnul
    obtain ⟨hlen₁, hbytes₁⟩ := hu.whole hpath hcomplex hnul
    obtain ⟨hlen₂, hbytes₂⟩ := hv.whole hpath hcomplex hnul
    exact ⟨by rw [hlen₁, hlen₂], by rw [hbytes₁, hbytes₂], hstands.head, hshort⟩

end

/-- What stands behind a NUL is what was there before the copy. -/
theorem cpystrn_stale (area src : List UInt8) (n : Nat) (harea : area.length = n + 1)
    (hnul : 0 ∈ (src.take n).dropLast) :
    (cpystrn area src (n + 1)).getD (n - 1) 0 = area.getD (n - 1) 0 := by
  induction n generalizing area src with
  | zero => cases hnul
  | succ n ih =>
    cases area with
    | nil => cases harea
    | cons a area =>
      rw [List.length_cons] at harea
      cases src with
      | nil => cases hnul
      | cons c src =>
        rw [List.take_succ_cons] at hnul
        cases n with
        | zero => cases hnul
        | succ n =>
          by_cases hc : c = 0
          · rw [hc, cpystrn_nul]
            rfl
          · rw [cpystrn_cons hc]
            have hrest : 0 ∈ (src.take (n + 1)).dropLast := by
              cases hsrc : src.take (n + 1) with
              | nil =>
                rw [hsrc] at hnul
                cases hnul
              | cons c' cs =>
                rw [hsrc, List.dropLast_cons_cons] at hnul
                rcases List.mem_cons.1 hnul with h0 | hmem
                · exact absurd h0.symm hc
                · exact hmem
            exact ih area src (by omega) hrest

/-- `sampleRedirect` on a socket that takes the head of the answer, and then no more. -/
def headOnly (uri : Str) : World := (sampleRedirect uri).onK fun k => { k with sends := [.sent 10000] }

theorem headOnly_reading (uri : Str) : Reading (headOnly uri) := by
  have h := sampleRedirect_reading uri
  exact ⟨⟨⟨⟨h.nodup, h.sound, h.hangup⟩, h.fd, h.closed, h.toOpen.pool, h.fresh⟩, h.data, h.home,
    h.requestPool, h.buf⟩, h.mask, h.writeHandler, h.headersOut, h.response⟩

def redirectHeaders (uri : Str) : HeadersOut :=
  Answer.redirect.headersOut ehdConfInit uri freshHeadersOut ⟨0, ehdNullString, 0, 0⟩

def redirectRest : List UInt8 :=
  [htmlType, serverHeader,
    contentLengthHeader (pageBody EHD_HTTP_MOVED_TEMPORARILY).last].flatMap encodeHeader ++ CRLF

theorem redirectHead_eq {uri : Str} (hlen : uri.len ≤ 4097) :
    (headOf (redirectHeaders uri)).bytes = statusLine (redirectHeaders uri) ++
      (encodeHeader (location ehdConfInit uri) ++ redirectRest) ∧
    (headOf (redirectHeaders uri)).bytes.length ≤ 10000 := by
  have hlisted := listed_redirect ehdConfInit uri ⟨0, ehdNullString, 0, 0⟩
  have hcost := hlisted.cost
  have hkey : (ehdString "Location").len = 8 := by decide
  have hloc : headerCost (location ehdConfInit uri) = 8 + (uri.len + 1) + 4 := by
    unfold headerCost location
    rw [hkey]
  have hline : (statusLine (redirectHeaders uri)).length ≤ 14 :=
    statusLine_length_le rfl (show errorStatus EHD_HTTP_MOVED_TEMPORARILY < 1000 by decide)
  have hfits : (statusLine (redirectHeaders uri)).length +
      ((finalHeaders (redirectHeaders uri)).entries.map headerCost).sum + 2 ≤ 8192 := by
    unfold redirectHeaders at hline ⊢
    omega
  have hentries : (finalHeaders (redirectHeaders uri)).entries = [location ehdConfInit uri, htmlType,
      serverHeader, contentLengthHeader (pageBody EHD_HTTP_MOVED_TEMPORARILY).last] :=
    redirect_entries _ _ _
  have heq := headOf_eq hfits
  constructor
  · rw [heq, hentries, List.flatMap_cons, List.append_assoc]
    rfl
  · have hall := encodedHeaders_length_le (finalHeaders (redirectHeaders uri)).entries
    have hcrlf : CRLF.length = 2 := rfl
    rw [heq, List.length_append, List.length_append]
    omega

theorem nextSend_headOnly {k k' : Kernel} {x : SendResult} (hk : k.sends = [.sent 10000])
    (h : World.NextSend k k' x) : x = .sent 10000 ∧ k'.sends = [] := by
  obtain ⟨skipped, hskipped, heq⟩ := h
  rw [hk] at heq
  cases skipped with
  | nil =>
    injection heq with hx hrest
    exact ⟨hx.symm, hrest.symm⟩
  | cons y ys =>
    injection heq with hy _
    have := hskipped y List.mem_cons_self
    rw [← hy] at this
    cases this

theorem nextSend_nil {k k' : Kernel} {x : SendResult} (hk : k.sends = [])
    (h : World.NextSend k k' x) : False := by
  obtain ⟨skipped, -, heq⟩ := h
  rw [hk] at heq
  cases skipped <;> cases heq

/-- Without a result of `send` the writer waits. -/
theorem writerLoop_waits {w : World} {last fuel : Nat} {b : Buf} (hb : w.r.response.data[last]? = some b)
    (hsend : b.Sendable) (hleft : b.left ≠ 0) (hk : w.k.sends = []) :
    wp (writerLoop (fuel + 1) last) (fun _ s => s.t.sent = w.t.sent) (fun _ s => s.t.sent = w.t.sent)
      w := by
  apply writerLoop_rule hb hsend
  constructor
  · intro w' m n hwrote _ _ _
    exact (nextSend_nil hk hwrote.sends).elim
  · intro w' m hwrote _ _ _
    exact (nextSend_nil hk hwrote.sends).elim
  · intro w' m hwrote _ _ _
    exact (nextSend_nil hk hwrote.sends).elim
  · intro w' hwrote _
    exact (nextSend_nil hk hwrote.sends).elim
  · rintro w' - (hzero | ⟨x, hx, -⟩)
    · exact absurd hzero hleft
    · exact (nextSend_nil hk hx).elim
  · intro _ w' _ hstall
    rw [hstall.t]

/-- With one result it sends the head, when that is short, and then waits. -/
theorem writerLoop_sendsHead {w : World} {fuel : Nat} {head body : Buf}
    (hdata : w.r.response.data = [head, body]) (hhead : head.type = 0) (hbody : body.Sendable)
    (hleft : head.left ≤ 10000) (hne : head.left ≠ 0) (hne' : body.left ≠ 0)
    (hk : w.k.sends = [.sent 10000]) :
    wp (writerLoop (fuel + 2) 0) (fun _ s => s.t.sent = w.t.sent ++ head.unread)
      (fun _ s => s.t.sent = w.t.sent ++ head.unread) w := by
  have hb : w.r.response.data[0]? = some head := by
    rw [hdata]
    rfl
  have hsend : head.Sendable := fun ht => absurd hhead ht
  apply writerLoop_rule hb hsend
  constructor
  · intro w' m n hwrote _ hn hlt
    obtain ⟨hx, -⟩ := nextSend_headOnly hk hwrote.sends
    cases hx
    omega
  · intro w' m hwrote _ _ _
    obtain ⟨-, hk'⟩ := nextSend_headOnly hk hwrote.sends
    have hall : head.left = head.unread.length := if_pos hhead
    have hsent := hwrote.memory hhead
    rw [hall, List.take_length] at hsent
    have hb' : w'.r.response.data[1]? = some body := by
      rw [hwrote.r]
      show (w.r.response.data.set 0 _)[1]? = _
      rw [hdata]
      rfl
    rw [← hsent]
    exact writerLoop_waits hb' hbody hne' hk'
  · intro w' m _ _ _ hlast
    rw [hdata] at hlast
    cases hlast
  · intro w' hwrote _
    cases (nextSend_headOnly hk hwrote.sends).1
  · rintro w' - (hzero | ⟨x, hx, -, hsent⟩)
    · exact absurd hzero hne
    · exact absurd (nextSend_headOnly hk hx).1 (hsent 10000 (by omega))
  · intro _ w' hintr _
    have := hintr (.sent 10000) (by rw [hk]; exact List.mem_cons_self)
    cases this

/-- It sends the head, and waits. -/
theorem sent_headOnly {uri : Str} (hlen : uri.len ≤ 4097)
    (hlast : uri.data.getD (uri.len - 1) 0 ≠ 47) :
    (after handler (headOnly uri)).t.sent = (headOf (redirectHeaders uri)).bytes := by
  have hreading := headOnly_reading uri
  have hrel : (headOnly uri).k.Reliable := ⟨fun _ _ => rfl, fun _ => rfl⟩
  have hanswer : answer (headOnly uri).conf (headOnly uri).r (headOnly uri).k = .redirect :=
    (answer_redirect_iff _).2 ⟨rfl, hlast, _, rfl, rfl⟩
  obtain ⟨-, hshort⟩ := redirectHead_eq hlen
  obtain ⟨inBuf, hb, -⟩ := hreading.buf
  obtain ⟨pool, hpool, -⟩ := hreading.toOpen.pool
  obtain ⟨hunread, htype⟩ : (headOf (redirectHeaders uri)).unread = (headOf (redirectHeaders uri)).bytes ∧
      (headOf (redirectHeaders uri)).type = 0 := by
    rw [(headOf_extends _).eq]
    exact ⟨rfl, rfl⟩
  have hleft : (headOf (redirectHeaders uri)).left = (headOf (redirectHeaders uri)).bytes.length := by
    unfold Buf.left
    rw [if_pos htype, hunread]
  have hne : (headOf (redirectHeaders uri)).bytes.length ≠ 0 := by
    have hprefix := (headOf_extends (redirectHeaders uri)).bytes.length_le
    have hline := List.length_pos_iff.2 (statusLine_ne_nil (redirectHeaders uri))
    have happend : ((Buf.temp 8192).append (statusLine (redirectHeaders uri))).bytes =
        statusLine (redirectHeaders uri) := rfl
    rw [happend] at hprefix
    omega
  apply wp_after (P := fun s : World => s.t.sent = (headOf (redirectHeaders uri)).bytes)
  -- nothing fails in this kernel, so the handler comes to the writer
  apply handler_rule hreading.alive hb rfl
  · intro s hs hrefuses
    exact absurd (hs.k.reliable.2 hrel) hrefuses.not_reliable
  · intro s f ha _
    rw [hanswer] at ha
    have hdata : s.r.response.data = [headOf (redirectHeaders uri), pageBody EHD_HTTP_MOVED_TEMPORARILY] :=
      congrArg Response.data ha.response
    have hsends : s.writing.k.sends = [.sent 10000] := ha.sends
    have hnone : s.writing.t.sent = [] := by
      obtain ⟨ps, os, ht, -⟩ := ha.t
      show s.t.sent = []
      rw [ht]
      rfl
    -- one `send` takes the whole head and none is left for the body
    have hwriter := @writerLoop_sendsHead s.writing 0 _ _ hdata htype
      (fun ht => absurd rfl ht) (by omega) (by omega) (by decide +kernel) hsends
    rw [hunread, hnone, List.nil_append] at hwriter
    apply startWriting_rule (ha.alive (hreading.handing (b := inBuf)).alive)
    · rw [ha.c]
      exact hreading.data
    · rw [ha.c]
      exact hpool
    · rw [ha.response]
      rfl
    · have hfuel : s.k.sends.length + 1 = 2 := by
        have hs : s.k.sends = [.sent 10000] := hsends
        rw [hs]
        rfl
      rw [hfuel]
      exact hwriter
    · intro hfails
      exact absurd (ha.k.reliable.2 hrel) hfails.not_reliable

theorem redirectHead_injective {u v : Str} (hu : u.len ≤ 4097) (hv : v.len ≤ 4097)
    (hu' : u.len ≤ u.data.length) (hv' : v.len ≤ v.data.length)
    (h : (headOf (redirectHeaders u)).bytes = (headOf (redirectHeaders v)).bytes) :
    u.bytes = v.bytes := by
  have hline : statusLine (redirectHeaders u) = statusLine (redirectHeaders v) := rfl
  rw [(redirectHead_eq hu).1, (redirectHead_eq hv).1, hline] at h
  have hencode := List.append_cancel_right (List.append_cancel_left h)
  have hkey : (location ehdConfInit u).key = (location ehdConfInit v).key := rfl
  unfold encodeHeader at hencode
  rw [hkey] at hencode
  have hvalue := List.append_cancel_left (List.append_cancel_right hencode)
  rw [location_value ehdConfInit_sound hu', location_value ehdConfInit_sound hv'] at hvalue
  exact List.append_cancel_right hvalue

def copiedInto (c : UInt8) (p : ParseState) (b : Buf) : Str :=
  ⟨p.uriLen, cpystrn (List.replicate (p.uriLen + 1) c) (b.bytes.drop p.uriStart) (p.uriLen + 1)⟩

section

variable {p : ParseState} {b b' : Buf}

theorem copiedInto_copied (c : UInt8) (hcomplex : p.complexUri = false) :
    CopiedUri p b (copiedInto c p b) := .plain hcomplex List.length_replicate

theorem copiedInto_last (c : UInt8) (hpos : 0 < p.uriLen) (hnul : 0 ∈ (target p b).dropLast) :
    (copiedInto c p b).data.getD ((copiedInto c p b).len - 1) 0 = c := by
  have hstale := cpystrn_stale (List.replicate (p.uriLen + 1) c) (b.bytes.drop p.uriStart) p.uriLen
    List.length_replicate hnul
  show (cpystrn _ _ _).getD (p.uriLen - 1) 0 = c
  rw [hstale, List.getD_eq_getElem?_getD, List.getElem?_replicate, if_pos (by omega)]
  rfl

/-- For an accepted request head, whatever `stat`, `open`, `send` and `sendfile` do: the
bytes of the response are the same in any memory, exactly when the path was
copied whole, or the request is not a GET and its path is not looked at. -/
theorem responses_same_iff (hparse : parseRequestLine {} b = (.ok, p, b')) (hbuf : InBuf b) :
    (∀ s t, Alike p b' s t →
      ∀ n, (after (responses n) s).t.sent = (after (responses n) t).t.sent) ↔
      (p.method = .get → CopiedWhole p b') := by
  have hadv := parseRequestLine_advances hparse
  have hpath : PathAt b'.bytes p (p.uriStart + p.uriLen) fun _ => True := by
    rw [show b'.bytes = b.bytes by rw [hadv.eq]]
    exact parseRequestLine_path hparse
  have hbuf' : InBuf b' := hbuf.advances hadv
  constructor
  · intro hsame hget
    by_contra hpart
    unfold CopiedWhole at hpart
    obtain ⟨hcomplex, hnul⟩ := not_or.1 hpart
    rw [Bool.not_eq_true] at hcomplex
    rw [not_not] at hnul
    have hpos : 0 < p.uriLen := by
      have := hpath.lt
      omega
    have hshort : p.uriLen ≤ 4097 := by
      have hle := hpath.le
      have hlast := hbuf'.last
      have hsize := hbuf'.size
      unfold Buf.last EHD_DEFAULT_BUF_SIZE at *
      omega
    -- the same request, copied into two memories, on a server where the path is a directory
    have hcopied : ∀ c, CopiedUri p b' (headOnly (copiedInto c p b')).r.uri :=
      fun c => copiedInto_copied c hcomplex
    have hlast : ∀ c, (copiedInto c p b').data.getD ((copiedInto c p b').len - 1) 0 = c :=
      fun c => copiedInto_last c hpos hnul
    have hfits : ∀ c, (copiedInto c p b').len ≤ (copiedInto c p b').data.length := by
      intro c
      rw [(copiedInto_copied c hcomplex).data_length]
      exact Nat.le_succ _
    have halike : Alike p b' (headOnly (copiedInto 1 p b')) (headOnly (copiedInto 2 p b')) :=
      ⟨headOnly_reading _, hget.symm, hcopied 1, hcopied 2, _, _, _, rfl⟩
    have hsent := hsame _ _ halike 0
    unfold responses at hsent
    rw [sent_headOnly hshort (by rw [hlast]; decide), sent_headOnly hshort (by rw [hlast]; decide)]
      at hsent
    have hbytes := redirectHead_injective hshort hshort (hfits 1) (hfits 2) hsent
    have hone := getD_bytes (copiedInto 1 p b') (show p.uriLen - 1 < p.uriLen by omega)
    have htwo := getD_bytes (copiedInto 2 p b') (show p.uriLen - 1 < p.uriLen by omega)
    rw [hbytes, htwo] at hone
    have hdiff : (2 : UInt8) = 1 := (hlast 2).symm.trans (hone.trans (hlast 1))
    exact absurd hdiff (by decide)
  · intro hwhole s t halike n
    by_cases hget : p.method = .get
    · have huri := sameUri_of_copied hpath hbuf' halike.uri halike.uri' (hwhole hget)
      have hagree := agree_handler halike huri fun _ => blind_fileWriterHandler
      exact sent_of_agree (agree_responses n hagree)
    · have hagree : Agree (Twin fun _ _ => True) Eq handler handler s t :=
        agree_handler halike trivial fun h => absurd h hget
      exact sent_of_agree (agree_responses n hagree)

theorem responses_same_plain :
    CopiedWhole (lineState "GET /a HTTP/1.1\n") (lineRest "GET /a HTTP/1.1\n") ∧
    ∀ s t, Alike (lineState "GET /a HTTP/1.1\n") (lineRest "GET /a HTTP/1.1\n") s t →
      ∀ n, (after (responses n) s).t.sent = (after (responses n) t).t.sent := by
  have hparse : parseRequestLine {} (lineBuf "GET /a HTTP/1.1\n") =
      (.ok, lineState "GET /a HTTP/1.1\n", lineRest "GET /a HTTP/1.1\n") := by
    decide
  have hbuf : InBuf (lineBuf "GET /a HTTP/1.1\n") := by
    constructor <;> decide
  have hwhole : CopiedWhole (lineState "GET /a HTTP/1.1\n") (lineRest "GET /a HTTP/1.1\n") := by
    right
    decide
  exact ⟨hwhole, (responses_same_iff hparse hbuf).2 fun _ => hwhole⟩

/-- Behind a NUL in a path the client is sent stale memory. -/
theorem stale_bytes_sent : ∃ (b b' : Buf) (p : ParseState) (s t : World),
    parseRequestLine {} b = (.ok, p, b') ∧ InBuf b ∧ Alike p b' s t ∧
    ¬ ∀ n, (after (responses n) s).t.sent = (after (responses n) t).t.sent := by
  have hbuf : InBuf (lineBuf "GET /a\x00bc HTTP/1.1\n") := by
    constructor <;> decide
  have hcomplex : (lineState "GET /a\x00bc HTTP/1.1\n").complexUri = false := by
    decide
  have hget : (lineState "GET /a\x00bc HTTP/1.1\n").method = .get := by
    decide
  refine ⟨lineBuf "GET /a\x00bc HTTP/1.1\n", lineRest "GET /a\x00bc HTTP/1.1\n",
    lineState "GET /a\x00bc HTTP/1.1\n",
    headOnly (copiedInto 1 (lineState "GET /a\x00bc HTTP/1.1\n") (lineRest "GET /a\x00bc HTTP/1.1\n")),
    headOnly (copiedInto 2 (lineState "GET /a\x00bc HTTP/1.1\n") (lineRest "GET /a\x00bc HTTP/1.1\n")),
    ?_, hbuf, ?_, ?_⟩
  · decide
  · exact ⟨headOnly_reading _, hget.symm, copiedInto_copied 1 hcomplex, copiedInto_copied 2 hcomplex,
      _, _, _, rfl⟩
  · intro h
    have hzero := h 0
    revert hzero
    decide +kernel

end

end Http

end Ehd
