import Ehttpd.Http.Lifecycle
import Ehttpd.Http.ServedFile

namespace Ehd

open Program

namespace Http

variable {w w' : World} {α : Type}

abbrev KeepsMask (x : Handler α) : Prop := Keeps (fun w => w.c.ev.events) x

theorem mask_detached : Detached fun w : World => w.c.ev.events where
  touch w := by
    unfold World.touch
    split <;> rfl
  onR _ _ := rfl
  alloced _ _ := rfl

theorem getHeaderInBuf_mask : KeepsMask getHeaderInBuf := by
  unfold getHeaderInBuf
  refine keeps_modify_bind mask_detached.touch fun _ => keeps_bind keeps_get fun w => ?_
  cases w.c.buf with
  | none => exact keeps_throw _
  | some b => exact keeps_pure _

theorem setHeaderInBuf_mask (b : Buf) : KeepsMask (setHeaderInBuf b) :=
  keeps_modify fun w => mask_detached.touch w

theorem palloc_mask {pool : World → Nat} (size : Nat) : KeepsMask (palloc pool size) := by
  unfold palloc
  refine keeps_bind keeps_get fun w => keeps_bind (allocate_keeps mask_detached) fun ok => ?_
  exact keeps_ite (keeps_pure _) (keeps_pure _)

theorem closeBoth_mask : KeepsMask closeBoth := by
  have hrequest : ∀ w : World, w.closeRequest.c.ev.events = w.c.ev.events := by
    intro w
    rw [World.closeRequest_c]
  unfold closeBoth
  refine keeps_bind (keeps_modify hrequest) fun _ => keeps_modify fun w => ?_
  unfold World.closeConnection
  split <;> rfl

theorem recv_mask (size : Nat) : KeepsMask (recv size) := by
  have go : ∀ rs, KeepsMask (recv.go size rs) := by
    intro rs
    induction rs with
    | nil => exact keeps_throw _
    | cons x rest ih =>
      cases x with
      | data bs =>
        exact keeps_modify_bind (fun _ => rfl) fun _ => keeps_modify_bind (fun _ => rfl) fun _ =>
          keeps_modify_bind (fun _ => rfl) fun _ => keeps_pure _
      | intr => exact keeps_modify_bind (fun _ => rfl) fun _ => ih
      | again =>
        exact keeps_modify_bind (fun _ => rfl) fun _ => keeps_modify_bind (fun _ => rfl) fun _ =>
          keeps_pure _
      | fail =>
        exact keeps_modify_bind (fun _ => rfl) fun _ => keeps_modify_bind (fun _ => rfl) fun _ =>
          keeps_pure _
  unfold recv
  apply keeps_ite
  · exact keeps_modify_bind (fun _ => rfl) fun _ => keeps_pure _
  · exact keeps_bind keeps_get fun w => go _

theorem runParseRequestLine_mask : KeepsMask runParseRequestLine := by
  unfold runParseRequestLine
  refine keeps_bind getHeaderInBuf_mask fun b => keeps_bind (getRequest_keeps mask_detached) fun r => ?_
  refine keeps_bind (modifyRequest_keeps mask_detached _) fun _ => ?_
  exact keeps_bind (setHeaderInBuf_mask _) fun _ => keeps_pure _

theorem runParseHeaderLine_mask : KeepsMask runParseHeaderLine := by
  unfold runParseHeaderLine
  refine keeps_bind getHeaderInBuf_mask fun b => keeps_bind (getRequest_keeps mask_detached) fun r => ?_
  refine keeps_bind (modifyRequest_keeps mask_detached _) fun _ => ?_
  exact keeps_bind (setHeaderInBuf_mask _) fun _ => keeps_pure _

theorem pushCookie_mask (h : Nat) : KeepsMask (pushCookie h) := by
  have hstore : ∀ n, KeepsMask (pushCookie.store h n) := fun n =>
    keeps_bind (modifyRequest_keeps mask_detached _) fun _ => keeps_pure _
  unfold pushCookie
  refine keeps_bind (getRequest_keeps mask_detached) fun r => keeps_bind keeps_get fun w => ?_
  refine keeps_ite (keeps_ite (keeps_bind (keeps_modify fun _ => rfl) fun _ => hstore _) ?_)
    (hstore _)
  exact keeps_bind (allocate_keeps mask_detached) fun ok => keeps_ite (hstore _) (keeps_pure _)

theorem noteHeader_mask (key : List UInt8) (len place : Nat) :
    KeepsMask (noteHeader key len place) := by
  unfold noteHeader
  apply keeps_ite (pushCookie_mask _)
  cases findHeaderField key len with
  | none => exact keeps_pure _
  | some f => exact keeps_bind (modifyRequest_keeps mask_detached _) fun _ => keeps_pure _

theorem headerLineParsed_mask : KeepsMask headerLineParsed := by
  unfold headerLineParsed
  refine keeps_bind (modifyRequest_keeps mask_detached _) fun _ => ?_
  refine keeps_bind (getRequest_keeps mask_detached) fun r => ?_
  refine keeps_bind (listRoom_keeps mask_detached _) fun ok => keeps_ite ?_ (keeps_pure _)
  refine keeps_bind (modifyRequest_keeps mask_detached _) fun _ => ?_
  refine keeps_bind getHeaderInBuf_mask fun b => keeps_bind (setHeaderInBuf_mask _) fun _ => ?_
  exact noteHeader_mask _ _ _

theorem parseComplexUri_mask : KeepsMask parseComplexUri := by
  unfold parseComplexUri
  refine keeps_bind (getRequest_keeps mask_detached) fun r => keeps_bind getHeaderInBuf_mask fun b => ?_
  cases uriLoop (.init r.uri.data) (b.span r.parse.uriStart r.uri.len) with
  | none => exact keeps_pure _
  | some s =>
    refine keeps_bind (modifyRequest_keeps mask_detached _) fun _ => ?_
    cases s.uriExt with
    | none => exact keeps_pure _
    | some e =>
      refine keeps_bind (palloc_mask _) fun area => ?_
      cases area with
      | none => exact keeps_pure _
      | some area => exact keeps_bind (modifyRequest_keeps mask_detached _) fun _ => keeps_pure _

theorem setRequestLine_mask : KeepsMask setRequestLine := by
  unfold setRequestLine
  refine keeps_bind (getRequest_keeps mask_detached) fun r => ?_
  refine keeps_bind (modifyRequest_keeps mask_detached _) fun _ => ?_
  refine keeps_bind getHeaderInBuf_mask fun b => keeps_bind (setHeaderInBuf_mask _) fun _ => ?_
  exact keeps_ite (modifyRequest_keeps mask_detached _) (keeps_pure _)

theorem copyExten_mask : KeepsMask copyExten := by
  unfold copyExten
  refine keeps_bind (getRequest_keeps mask_detached) fun r => ?_
  dsimp only
  cases r.parse.uriExt with
  | none => exact keeps_pure _
  | some e =>
    refine keeps_bind (palloc_mask _) fun area => ?_
    cases area with
    | none => exact keeps_pure _
    | some area =>
      refine keeps_bind getHeaderInBuf_mask fun b => ?_
      exact keeps_bind (modifyRequest_keeps mask_detached _) fun _ => keeps_pure _

theorem arrayInit_mask : KeepsMask arrayInit := by
  unfold arrayInit
  refine keeps_bind (allocate_keeps mask_detached) fun ok => keeps_ite ?_ (keeps_pure _)
  refine keeps_bind (modifyRequest_keeps mask_detached _) fun _ => ?_
  exact keeps_bind keeps_get fun w => keeps_pure _

/-- The handler may go back: the request is over, the socket has nothing more to read, or it has
refused more. -/
def Emptied (w : World) : Prop :=
  w.c.pool = none ∨ w.c.data ≠ .request ∨ w.c.ev.events = readMask ∧ w.c.ev.rready = false ∨
    w.c.ev.events = writeMask ∧ w.k.errno = .again

abbrev Empties (x : Handler Unit) (w : World) : Prop :=
  wp x (fun _ => Emptied) (fun _ _ => True) w

theorem emptied_closeConnection (w : World) : Emptied w.closeConnection := by
  unfold World.closeConnection
  cases hp : w.c.pool with
  | none => exact Or.inl hp
  | some pool => exact Or.inr (Or.inl fun h => nomatch h)

theorem closeConnection_empties : Empties closeConnection w := emptied_closeConnection w

theorem closeBoth_empties : Empties closeBoth w := emptied_closeConnection w.closeRequest

theorem empties_bind {β : Type} {x : Handler β} {k : β → Handler Unit}
    (hk : ∀ b s, Empties (k b) s) : Empties (x >>= k) w :=
  wp_bind_of_keeps (f := fun _ => ()) (fun _ => rfl) fun b s _ => hk b s

theorem empties_bind_keeps {β γ : Type} {f : World → γ} {v : γ} {x : Handler β}
    {k : β → Handler Unit} (hx : Keeps f x) (h : f w = v)
    (hk : ∀ b s, f s = v → Empties (k b) s) : Empties (x >>= k) w :=
  wp_bind_of_keeps hx fun b s hs => hk b s (hs.trans h)

theorem empties_ite {c : Prop} [Decidable c] {x y : Handler Unit} (hx : Empties x w)
    (hy : Empties y w) : Empties (if c then x else y) w := by
  split
  · exact hx
  · exact hy

theorem empties_throw (e : Stop) : Empties (throw e) w := trivial

/-- Between two requests a connection has no request to go on with. -/
theorem keepAlive_empties : Empties keepAlive w := by
  have hregister : Keeps (fun w : World => w.c.data) (Event.epollAdd EHD_READ_EVENT EPOLLET) := by
    apply keeps_of_wp
    intro s
    exact epollAdd_rule rfl fun _ => rfl
  have hstore : ∀ b, Keeps (fun w : World => w.c.data) (setHeaderInBuf b) := by
    refine fun b => keeps_modify fun w => ?_
    show w.touch.c.data = _
    unfold World.touch
    split <;> rfl
  have hclose : Keeps (fun w : World => w.c.data) closeRequest :=
    keeps_modify fun w => by rw [World.closeRequest_c]
  unfold keepAlive
  refine empties_bind fun b s => empties_bind fun _ s => ?_
  show wp _ _ _ _
  rw [wp_bind, wp_modify]
  refine empties_bind_keeps (f := fun w => w.c.data) (v := .httpConnection)
    (keeps_modify fun _ => rfl) rfl fun _ s hs => ?_
  refine empties_bind_keeps (hstore _) hs fun _ s hs => ?_
  refine empties_bind_keeps hclose hs fun _ s hs => ?_
  refine empties_bind_keeps (f := fun w => w.c.data) (keeps_modify fun _ => rfl) hs fun _ s hs => ?_
  refine empties_bind_keeps hregister hs fun rc s hs => ?_
  refine empties_ite closeConnection_empties (Or.inr (Or.inl ?_))
  rw [hs]
  decide

theorem transfer_mask (last : Nat) (b : Buf) : KeepsMask (transfer last b) := by
  have hset : ∀ b, KeepsMask (setChainBuf last b) := fun b => keeps_modify fun _ => rfl
  have hgo : ∀ bs ss, KeepsMask (send.go bs ss) := by
    intro bs ss
    induction ss with
    | nil => exact keeps_throw _
    | cons x rest ih =>
      cases x with
      | sent m =>
        exact keeps_modify_bind (fun _ => rfl) fun _ => keeps_modify_bind (fun _ => rfl) fun _ =>
          keeps_modify_bind (fun _ => rfl) fun _ => keeps_pure _
      | intr => exact keeps_modify_bind (fun _ => rfl) fun _ => ih
      | again =>
        exact keeps_modify_bind (fun _ => rfl) fun _ => keeps_modify_bind (fun _ => rfl) fun _ =>
          keeps_pure _
      | fail =>
        exact keeps_modify_bind (fun _ => rfl) fun _ => keeps_modify_bind (fun _ => rfl) fun _ =>
          keeps_pure _
  unfold transfer
  apply keeps_ite
  · refine keeps_bind ?_ fun n => keeps_bind (hset _) fun _ => keeps_pure _
    unfold send
    apply keeps_ite
    · exact keeps_modify_bind (fun _ => rfl) fun _ => keeps_pure _
    · exact keeps_bind keeps_get fun w => hgo _ _
  · cases b.file with
    | none => exact keeps_throw _
    | some f =>
      refine keeps_bind ?_ fun n => keeps_bind (hset _) fun _ => keeps_pure _
      unfold sendfile
      refine keeps_ite (keeps_pure _) (keeps_bind keeps_get fun w => ?_)
      cases w.k.sends with
      | nil => exact keeps_throw _
      | cons x rest =>
        cases x with
        | sent m =>
          exact keeps_modify_bind (fun _ => rfl) fun _ => keeps_modify_bind (fun _ => rfl) fun _ =>
            keeps_pure _
        | again => exact keeps_modify_bind (fun _ => rfl) fun _ => keeps_pure _
        | intr => exact keeps_modify_bind (fun _ => rfl) fun _ => keeps_pure _
        | fail => exact keeps_modify_bind (fun _ => rfl) fun _ => keeps_pure _

/-- The loop of the writer returns from a connection that goes on only when the socket is full. -/
theorem writerLoop_empties (fuel last : Nat) (h : w.c.ev.events = writeMask) :
    Empties (writerLoop fuel last) w := by
  induction fuel generalizing last w with
  | zero => exact empties_throw _
  | succ fuel ih =>
    unfold writerLoop
    show wp _ _ _ _
    rw [wp_bind, wp_get]
    dsimp only
    cases w.r.response.data[last]? with
    | none => exact empties_throw _
    | some b =>
      refine empties_bind_keeps (transfer_mask last b) h fun x s hs => ?_
      refine empties_ite (empties_ite (empties_ite keepAlive_empties (ih _ hs)) (ih _ hs)) ?_
      refine empties_ite closeBoth_empties ?_
      show wp _ _ _ _
      rw [wp_bind, wp_get]
      -- `errno` decides whether the writer waits
      by_cases herrno : s.k.errno = .again
      · rw [if_pos herrno]
        exact Or.inr (Or.inr (Or.inr ⟨hs, herrno⟩))
      · rw [if_neg herrno]
        exact closeBoth_empties

theorem writer_empties (h : w.c.ev.events = writeMask) : Empties writer w := by
  unfold writer
  show wp _ _ _ _
  rw [wp_bind, wp_get]
  refine empties_ite (empties_throw _) ?_
  show wp _ _ _ _
  rw [wp_bind, wp_get]
  refine empties_ite (empties_throw _) ?_
  have hbegin : KeepsMask beginResponse := by
    unfold beginResponse
    refine keeps_bind (getRequest_keeps mask_detached) fun r => ?_
    exact keeps_ite (modifyRequest_keeps mask_detached _) (keeps_pure _)
  refine empties_bind_keeps hbegin h fun _ s hs => ?_
  refine empties_bind_keeps (getRequest_keeps mask_detached) hs fun r s hs => ?_
  show wp _ _ _ _
  rw [wp_bind, wp_get]
  exact writerLoop_empties _ _ hs

theorem startWriting_empties : Empties startWriting w := by
  unfold startWriting
  refine empties_bind fun _ s => ?_
  show wp _ _ _ _
  unfold armForWriting
  rw [wp_bind, wp_bind]
  refine epollAdd_rule ?_ fun _ => ?_
  · rw [if_neg (by decide), wp_pure]
    exact writer_empties rfl
  · -- `epoll_ctl` has failed, and everything is closed before the writer is called
    rw [if_pos rfl]
    refine wp_mono (closeBoth_mask.wp _) (fun _ s' hs => ?_) fun _ _ _ => trivial
    exact writer_empties hs

theorem specialResponseHandler_empties (error : Nat) : Empties (specialResponseHandler error) w := by
  unfold specialResponseHandler
  refine empties_bind fun _ s => empties_bind fun b s => ?_
  cases b with
  | none => exact empties_throw _
  | some b =>
    refine empties_bind fun _ s => empties_bind fun _ s => empties_bind fun ok s => ?_
    exact empties_ite (empties_bind fun _ s => startWriting_empties) (empties_throw _)

theorem serveFile_empties (filename : Str) : Empties (serveFile filename) w := by
  unfold serveFile
  refine empties_bind fun _ s => empties_bind fun ok s => empties_ite (empties_throw _) ?_
  refine empties_bind fun f s => empties_bind fun _ s => empties_bind fun _ s => ?_
  refine empties_bind fun ok s => empties_ite (empties_throw _) ?_
  refine empties_bind fun ok s => empties_ite (empties_throw _) ?_
  exact empties_bind fun _ s => startWriting_empties

theorem serveDirectory_empties (conf : Conf) (uri : Str) (area : List UInt8) :
    Empties (serveDirectory conf uri area) w := by
  unfold serveDirectory
  apply empties_ite
  · exact empties_bind fun _ s => specialResponseHandler_empties _
  · refine empties_bind fun st s => ?_
    cases st with
    | none => exact specialResponseHandler_empties _
    | some st => exact serveFile_empties _

theorem fileWriterHandler_empties : Empties fileWriterHandler w := by
  unfold fileWriterHandler
  refine empties_bind fun w₁ s => empties_bind fun r s => empties_bind fun area s => ?_
  cases area with
  | none => exact empties_throw _
  | some area =>
    refine empties_bind fun st s => ?_
    cases st with
    | none => exact specialResponseHandler_empties _
    | some st =>
      refine empties_ite (serveDirectory_empties _ _ _) ?_
      exact empties_ite (specialResponseHandler_empties _) (serveFile_empties _)

theorem handler_empties : Empties handler w := by
  unfold handler
  refine empties_bind fun b s => empties_bind fun _ s => empties_bind fun _ s => ?_
  refine empties_bind fun r s => ?_
  exact empties_ite fileWriterHandler_empties (specialResponseHandler_empties _)

/-- `ehd_recv` has nothing more to give. -/
theorem recv_drains (size : Nat) : wp (recv size)
    (fun x w' => x.1 = EHD_AGAIN → w'.c.ev.rready = false) (fun _ _ => True) w := by
  have go : ∀ rs w, wp (recv.go size rs)
      (fun x w' => x.1 = EHD_AGAIN → w'.c.ev.rready = false) (fun _ _ => True) w := by
    intro rs
    induction rs with
    | nil => exact fun _ => trivial
    | cons x rest ih =>
      intro w
      cases x with
      | data bs =>
        rw [recv.go]
        simp only [wp_bind, wp_modify, wp_pure]
        intro hagain
        unfold EHD_AGAIN at hagain
        omega
      | intr =>
        rw [recv.go]
        simp only [wp_bind, wp_modify]
        exact ih _
      | again =>
        rw [recv.go]
        simp only [wp_bind, wp_modify, wp_pure]
        exact fun _ => rfl
      | fail =>
        rw [recv.go]
        simp only [wp_bind, wp_modify, wp_pure]
        exact fun _ => rfl
  unfold recv
  rw [wp_ite]
  refine ⟨fun _ => ?_, fun _ => ?_⟩
  · exact fun _ => rfl
  · rw [wp_bind, wp_get]
    exact go _ w

/-- When `ehd_http_read_request_header` has no bytes for its caller, the caller may go back. -/
theorem readRequestHeader_empties (h : w.c.ev.events = readMask) : wp readRequestHeader
    (fun n w' => w'.c.ev.events = readMask ∧ (n = EHD_AGAIN ∨ n = EHD_ERROR → Emptied w'))
    (fun _ _ => True) w := by
  unfold readRequestHeader
  refine wp_bind_of_keeps getHeaderInBuf_mask fun b s hs => ?_
  have hmask : s.c.ev.events = readMask := hs.trans h
  rw [wp_ite]
  refine ⟨fun _ => ⟨hmask, fun hn => ?_⟩, fun _ => ?_⟩
  · -- unread bytes: their number is neither code
    unfold EHD_AGAIN EHD_ERROR at hn
    omega
  · rw [wp_bind, wp_get, wp_ite]
    refine ⟨fun hready => ?_, fun _ => ?_⟩
    · rw [Bool.not_eq_true'] at hready
      exact ⟨hmask, fun _ => Or.inr (Or.inr (Or.inl ⟨hmask, hready⟩))⟩
    · rw [wp_bind, recvAt, wp_bind]
      refine wp_mono (wp_and (recv_drains b.room) ((recv_mask b.room).wp s)) ?_ fun _ _ _ => trivial
      rintro ⟨n, bs⟩ s' ⟨hdrained, hsame⟩
      have hmask' : s'.c.ev.events = readMask := hsame.trans hmask
      dsimp only
      rw [wp_bind, wp_modify, wp_pure]
      by_cases hagain : n = EHD_AGAIN
      · rw [if_pos hagain]
        exact ⟨hmask', fun _ => Or.inr (Or.inr (Or.inl ⟨hmask', hdrained hagain⟩))⟩
      rw [if_neg hagain]
      by_cases hend : n = 0 ∨ n = EHD_ERROR
      · rw [if_pos hend]
        rw [wp_bind, wp_closeBoth, wp_pure]
        refine ⟨?_, fun _ => emptied_closeConnection _⟩
        exact (closeBoth_mask _).trans hmask'
      · rw [if_neg hend]
        refine wp_bind_of_keeps (setHeaderInBuf_mask _) fun _ s₁ hs₁ => ⟨hs₁.trans hmask', ?_⟩
        rintro (hn | hn)
        · exact absurd hn hagain
        · exact absurd (Or.inr hn) hend

theorem headersDone_empties : Empties headersDone w := by
  unfold headersDone
  refine empties_bind fun _ s => empties_bind fun rc s => empties_ite closeBoth_empties ?_
  exact empties_bind fun _ s => handler_empties

theorem requestHeadersRead_empties (rc : Rc) (h : w.c.ev.events = readMask) :
    wp (requestHeadersRead rc)
      (fun ok w' => w'.c.ev.events = readMask ∧ (ok = false → Emptied w')) (fun _ _ => True) w := by
  have hclose : ∀ s : World, s.c.ev.events = readMask → wp (closeBoth >>= fun _ => pure false)
      (fun ok w' => w'.c.ev.events = readMask ∧ (ok = false → Emptied w')) (fun _ _ => True) s := by
    intro s hs
    rw [wp_bind, wp_closeBoth, wp_pure]
    exact ⟨(closeBoth_mask s).trans hs, fun _ => emptied_closeConnection _⟩
  unfold requestHeadersRead
  rw [wp_ite]
  refine ⟨fun _ => ?_, fun _ => ⟨h, fun hok => nomatch hok⟩⟩
  refine wp_bind_of_keeps getHeaderInBuf_mask fun b s hs => ?_
  have hmask : s.c.ev.events = readMask := hs.trans h
  rw [wp_ite]
  refine ⟨fun _ => ?_, fun _ => ?_⟩
  · rw [wp_bind, wp_modify]
    exact hclose _ hmask
  rw [wp_bind]
  refine wp_mono (readRequestHeader_empties hmask) (fun n s' hn => ?_) fun _ _ _ => trivial
  obtain ⟨hmask', hemptied⟩ := hn
  by_cases hagain : n = EHD_AGAIN
  · rw [if_pos hagain]
    exact ⟨hmask', fun _ => hemptied (Or.inl hagain)⟩
  rw [if_neg hagain]
  by_cases herror : n = EHD_ERROR
  · rw [if_pos herror]
    exact hclose s' hmask'
  · rw [if_neg herror]
    exact ⟨hmask', fun hok => nomatch hok⟩

theorem processRequestHeadersLoop_empties (fuel : Nat) (rc : Rc) (h : w.c.ev.events = readMask) :
    Empties (processRequestHeadersLoop fuel rc) w := by
  induction fuel generalizing rc w with
  | zero => exact empties_throw _
  | succ fuel ih =>
    unfold processRequestHeadersLoop
    show wp _ _ _ _
    rw [wp_bind]
    refine wp_mono (requestHeadersRead_empties rc h) (fun ok s hok => ?_) fun _ _ _ => trivial
    obtain ⟨hs, hemptied⟩ := hok
    cases ok with
    | false => exact hemptied rfl
    | true =>
      refine empties_bind_keeps runParseHeaderLine_mask hs fun rc s hs => ?_
      -- another round, the end of the head, or a failure
      cases rc with
      | ok =>
        refine empties_bind_keeps headerLineParsed_mask hs fun ok s hs => ?_
        exact empties_ite (ih _ hs) closeBoth_empties
      | headerDone => exact headersDone_empties
      | again => exact ih _ hs
      | _ => exact closeBoth_empties

theorem processRequestHeaders_empties (h : w.c.ev.events = readMask) :
    Empties processRequestHeaders w := by
  unfold processRequestHeaders
  refine empties_bind_keeps (f := fun w => w.c.ev.events) keeps_get h fun w₁ s hs => ?_
  cases w₁.c.data with
  | null => exact empties_throw _
  | httpConnection => exact empties_throw _
  | request =>
    refine empties_bind_keeps getHeaderInBuf_mask hs fun b s hs => ?_
    exact empties_bind_keeps keeps_get hs fun _ s hs => processRequestHeadersLoop_empties _ _ hs

theorem requestLineParsed_empties (h : w.c.ev.events = readMask) : Empties requestLineParsed w := by
  unfold requestLineParsed
  refine empties_bind_keeps setRequestLine_mask h fun _ s hs => ?_
  refine empties_bind_keeps copyExten_mask hs fun ok s hs => empties_ite ?_ closeBoth_empties
  refine empties_bind_keeps setRequestLine_mask hs fun _ s hs => ?_
  refine empties_bind_keeps copyExten_mask hs fun ok s hs => empties_ite ?_ closeBoth_empties
  refine empties_bind_keeps (allocate_keeps mask_detached) hs fun ok s hs =>
    empties_ite ?_ closeBoth_empties
  refine empties_bind_keeps (modifyRequest_keeps mask_detached _) hs fun _ s hs => ?_
  refine empties_bind_keeps arrayInit_mask hs fun rc s hs => empties_ite closeBoth_empties ?_
  refine empties_bind_keeps (f := fun w => w.c.ev.events) (keeps_modify fun _ => rfl) hs fun _ s hs => ?_
  exact processRequestHeaders_empties hs

theorem copyUri_empties (h : w.c.ev.events = readMask) : Empties copyUri w := by
  unfold copyUri
  refine empties_bind_keeps (getRequest_keeps mask_detached) h fun r s hs => ?_
  refine empties_bind_keeps getHeaderInBuf_mask hs fun b s hs => ?_
  refine empties_bind_keeps (palloc_mask _) hs fun area s hs => ?_
  cases area with
  | none => exact closeBoth_empties
  | some area =>
    refine empties_bind_keeps (modifyRequest_keeps mask_detached _) hs fun _ s hs => ?_
    refine empties_bind_keeps (palloc_mask _) hs fun area s hs => ?_
    cases area with
    | none => exact closeBoth_empties
    | some area =>
      apply empties_ite
      · refine empties_bind_keeps (modifyRequest_keeps mask_detached _) hs fun _ s hs => ?_
        refine empties_bind_keeps parseComplexUri_mask hs fun rc s hs => ?_
        exact empties_ite (requestLineParsed_empties hs) closeBoth_empties
      · refine empties_bind_keeps (modifyRequest_keeps mask_detached _) hs fun _ s hs => ?_
        exact requestLineParsed_empties hs

theorem processRequestLineLoop_empties (fuel : Nat) (h : w.c.ev.events = readMask) :
    Empties (processRequestLineLoop fuel) w := by
  induction fuel generalizing w with
  | zero => exact empties_throw _
  | succ fuel ih =>
    unfold processRequestLineLoop
    show wp _ _ _ _
    rw [wp_bind]
    refine wp_mono (readRequestHeader_empties h) (fun n s hn => ?_) fun _ _ _ => trivial
    obtain ⟨hs, hemptied⟩ := hn
    by_cases hagain : n = EHD_AGAIN
    · rw [if_pos hagain]
      exact hemptied (Or.inl hagain)
    rw [if_neg hagain]
    by_cases herror : n = EHD_ERROR
    · rw [if_pos herror]
      exact hemptied (Or.inr herror)
    rw [if_neg herror]
    refine empties_bind_keeps runParseRequestLine_mask hs fun rc s hs => ?_
    cases rc with
    | ok => exact copyUri_empties hs
    | again =>
      refine empties_bind_keeps getHeaderInBuf_mask hs fun b s hs => ?_
      exact empties_ite closeBoth_empties (ih hs)
    | _ => exact closeBoth_empties

theorem processRequestLine_empties (h : w.c.ev.events = readMask) : Empties processRequestLine w := by
  unfold processRequestLine
  refine empties_bind_keeps (f := fun w => w.c.ev.events) keeps_get h fun w₁ s hs => ?_
  cases w₁.c.data with
  | null => exact empties_throw _
  | httpConnection => exact empties_throw _
  | request =>
    refine empties_bind_keeps getHeaderInBuf_mask hs fun b s hs => ?_
    exact empties_bind_keeps keeps_get hs fun _ s hs => processRequestLineLoop_empties _ hs

/-- `ehd_http_init_request`. -/
theorem initRequest_empties (h : w.c.ev.events = readMask) : Empties initRequest w := by
  have hpool : KeepsMask (createPool Palloc.EHD_DEFAULT_POOL_SIZE) := by
    unfold createPool
    refine keeps_bind (allocate_keeps mask_detached) fun ok => keeps_ite ?_ (keeps_pure _)
    exact keeps_of_wp fun s => rfl
  have hnew : KeepsMask newRequest := by
    unfold newRequest
    refine keeps_bind keeps_get fun w => keeps_ite ?_ ?_
    · exact keeps_bind (modifyRequest_keeps mask_detached _) fun _ => keeps_pure _
    · refine keeps_bind (allocate_keeps mask_detached) fun ok => keeps_ite ?_ (keeps_pure _)
      exact keeps_bind (keeps_modify fun _ => rfl) fun _ => keeps_pure _
  have hstart : ∀ s : World, s.c.ev.events = readMask → Empties startRequest.startPool s := by
    intro s hs
    unfold startRequest.startPool
    refine empties_bind_keeps hpool hs fun pool s hs => ?_
    cases pool with
    | none => exact closeConnection_empties
    | some pool =>
      refine empties_bind_keeps (modifyRequest_keeps mask_detached _) hs fun _ s hs => ?_
      refine empties_bind_keeps (allocate_keeps mask_detached) hs fun ok s hs => ?_
      refine empties_ite ?_ closeBoth_empties
      refine empties_bind_keeps (modifyRequest_keeps mask_detached _) hs fun _ s hs => ?_
      refine empties_bind_keeps (f := fun w => w.c.ev.events) (keeps_modify fun _ => rfl) hs
        fun _ s hs => ?_
      exact processRequestLine_empties hs
  have hwith : ∀ s : World, s.c.ev.events = readMask → Empties initRequest.initWith s := by
    intro s hs
    unfold initRequest.initWith
    refine empties_bind_keeps hnew hs fun ok s hs => empties_ite ?_ closeConnection_empties
    refine empties_bind_keeps (f := fun w => w.c.ev.events) (keeps_modify fun _ => rfl) hs
      fun _ s hs => ?_
    unfold startRequest
    refine empties_bind_keeps (f := fun w => w.c.ev.events) keeps_get hs fun w₁ s hs => ?_
    refine empties_ite ?_ (hstart s hs)
    refine empties_bind_keeps (createTempBuf_keeps mask_detached _) hs fun b s hs => ?_
    cases b with
    | none => exact closeConnection_empties
    | some b =>
      refine empties_bind_keeps (f := fun w => w.c.ev.events) (keeps_modify fun _ => rfl) hs
        fun _ s hs => ?_
      exact hstart s hs
  unfold initRequest
  refine empties_bind_keeps (f := fun w => w.c.ev.events) keeps_get h fun w₁ s hs => ?_
  cases w₁.c.data with
  | request => exact empties_throw _
  | httpConnection => exact hwith s hs
  | null =>
    refine empties_bind_keeps (allocate_keeps mask_detached) hs fun ok s hs => ?_
    refine empties_ite ?_ closeConnection_empties
    refine empties_bind_keeps (f := fun w => w.c.ev.events) (keeps_modify fun _ => rfl) hs
      fun _ s hs => ?_
    exact hwith s hs

/-- A connection that is registered for reading. -/
theorem callReadHandler_empties (hreads : Connected w ∨ Idle w ∨ Waiting w) (f : Event → Event)
    (hf : ∀ ev, (f ev).events = ev.events ∧ (f ev).closed = ev.closed) :
    Empties callReadHandler (w.onEv f) := by
  unfold callReadHandler
  show wp _ _ _ _
  rw [wp_bind, wp_get]
  have hrh : (w.onEv f).c.readHandler = w.c.readHandler := rfl
  have hmask : w.c.ev.events = readMask → (w.onEv f).c.ev.events = readMask := (hf _).1.trans
  rw [hrh]
  rcases hreads with hc | hc | hc
  · rw [hc.readHandler]
    show Empties initConnection _
    unfold initConnection
    refine empties_bind_keeps (f := fun w => (w.c.ev.events, w.c.ev.closed)) (v := (readMask, false))
      (keeps_modify fun _ => rfl) ?_ fun _ s hs => ?_
    · show ((f _).events, (f _).closed) = _
      rw [(hf _).1, (hf _).2, hc.mask, hc.closed]
    · show wp _ _ _ _
      rw [wp_bind, wp_get]
      rw [Prod.mk.injEq] at hs
      rw [hs.2, if_pos (by decide)]
      exact initRequest_empties hs.1
  · rw [hc.readHandler]
    exact initRequest_empties (hmask hc.mask)
  · rcases hc.readHandler with hline | ⟨hheaders, -⟩
    · rw [hline]
      exact processRequestLine_empties (hmask hc.mask)
    · rw [hheaders]
      exact processRequestHeaders_empties (hmask hc.mask)

/-- A dispatch that reports its direction. -/
theorem dispatch_empties {events : UInt32} (h : InLoop w) (hev : Registered w events)
    (hdir : events &&& EPOLLIN ≠ 0 ∨ events &&& EPOLLOUT ≠ 0) (hfd : w.c.fd ≠ -1) :
    Empties (dispatch events) w := by
  unfold dispatch reportWritable reportReadable
  show wp _ _ _ _
  rw [wp_bind, wp_get, if_neg hfd, wp_bind]
  have hreading : w.c.ev.events = readMask → Connected w ∨ Idle w ∨ Waiting w →
      wp (if events &&& EPOLLOUT ≠ 0 then do
          modify (·.onEv fun ev => { ev with wready := true })
          callWriteHandler
        else return ()) (fun _ s => Empties (if events &&& EPOLLIN ≠ 0 then do
          modify (·.onEv fun ev => { ev with rready := true })
          callReadHandler
        else return ()) s) (fun _ _ => True) w := by
    intro hmask hreads
    have hout : ¬ (events &&& EPOLLOUT ≠ 0) := by
      intro hout
      have hbit := hev.2 hout
      rw [hmask] at hbit
      exact hbit readMask_directions.2
    rw [if_neg hout, wp_pure, if_pos (hdir.resolve_right hout)]
    show wp _ _ _ _
    rw [wp_bind, wp_modify]
    exact callReadHandler_empties hreads _ fun ev => ⟨rfl, rfl⟩
  rcases h with hc | hc | hc | hc | hc
  · exact absurd hc.fd hfd
  · exact hreading hc.mask (Or.inl hc)
  · exact hreading hc.mask (Or.inr (Or.inl hc))
  · exact hreading hc.mask (Or.inr (Or.inr hc))
  · have hin : ¬ (events &&& EPOLLIN ≠ 0) := by
      intro hin
      have hbit := hev.1 hin
      rw [hc.mask] at hbit
      exact hbit writeMask_directions.1
    rw [if_pos (hdir.resolve_left hin), wp_bind, wp_modify, if_neg hin]
    unfold callWriteHandler
    rw [wp_bind, wp_get]
    have hwh : (w.onEv fun ev => { ev with wready := true }).c.writeHandler = some .writer :=
      hc.writeHandler
    rw [hwh]
    exact writer_empties hc.mask

/-- After each event that a run reports: a connection that waits for more of a head has taken all
that its socket had, and one that waits for room to write has just been refused by `send` or
`sendfile`.  So epoll reports either again. -/
theorem edges_are_consumed {P : Kernel → Prop} {events : UInt32} (h : Run P none w)
    (hev : Registered w events) (hdir : events &&& EPOLLIN ≠ 0 ∨ events &&& EPOLLOUT ≠ 0)
    (hd : dispatch events w = .ok () w') (hfd : w'.c.fd ≠ -1) :
    (w'.c.ev.events = readMask → w'.c.data = .request → w'.c.ev.rready = false) ∧
      (w'.c.ev.events = writeMask → w'.k.errno = .again) := by
  have hrun : Run P none w' := Calls.call h ⟨events, hev, rfl⟩ hd
  have hloop : InLoop w' := hrun.ctl
  have hopen : w.c.fd ≠ -1 := by
    intro hclosed
    have hsame : dispatch events w = .ok () w := by
      show (if w.c.fd = -1 then pure () else _ : Handler Unit) w = _
      rw [if_pos hclosed]
      rfl
    rw [hsame] at hd
    cases hd
    exact hfd hclosed
  have hemptied : Emptied w' := (wp_of_ok hd).1 (dispatch_empties h.ctl hev hdir hopen)
  have hpool : w'.c.pool ≠ none := by
    intro hnone
    rcases hloop with hc | hc | hc | hc | hc
    · exact hfd hc.fd
    all_goals
      obtain ⟨p, hp, -⟩ := hc.pool
      rw [hp] at hnone
      cases hnone
  refine ⟨fun hmask hdata => ?_, fun hmask => ?_⟩
  · rcases hemptied with hnone | hover | ⟨-, hready⟩ | ⟨hwrite, -⟩
    · exact absurd hnone hpool
    · exact absurd hdata hover
    · exact hready
    · rw [hmask] at hwrite
      exact absurd hwrite (by decide)
  · rcases hemptied with hnone | hover | ⟨hread, -⟩ | ⟨-, herrno⟩
    · exact absurd hnone hpool
    · -- a connection that is registered for writing has a request
      rcases hloop with hc | hc | hc | hc | hc
      · exact absurd hc.fd hfd
      · exact absurd (hc.mask.symm.trans hmask) (by decide)
      · exact absurd (hc.mask.symm.trans hmask) (by decide)
      · exact absurd (hc.mask.symm.trans hmask) (by decide)
      · exact absurd hc.data hover
    · rw [hmask] at hread
      exact absurd hread (by decide)
    · exact herrno

/-- A slow client: a part of the request line, and then a socket that takes a part of the answer. -/
def slowWorld : World :=
  sampleWorld [.data (ascii "GET / HT"), .data (ascii "TP/1.1\x0d\n\x0d\n")] [.sent 7, .again]

theorem edges_are_consumed_slow :
    (after (dispatch EPOLLIN) slowWorld).c.ev.rready = false ∧
      (after (dispatch EPOLLIN) (after (dispatch EPOLLIN) slowWorld)).k.errno = .again := by
  have hstart : Run Kernel.Reliable none slowWorld := sampleWorld_run (sampleKernel_reliable _ _)
  have hwait : Run Kernel.Reliable none (after (dispatch EPOLLIN) slowWorld) := by
    apply hstart.dispatch
    · unfold Registered
      decide
    · decide +kernel
  constructor
  · refine (edges_are_consumed hstart ?_ (Or.inl (by decide)) (eq_ok_of_returns (by decide +kernel))
      (by decide +kernel)).1 (by decide +kernel) (by decide +kernel)
    unfold Registered
    decide
  · refine (edges_are_consumed hwait ?_ (Or.inl (by decide)) (eq_ok_of_returns (by decide +kernel))
      (by decide +kernel)).2 (by decide +kernel)
    unfold Registered
    decide +kernel

end Http

end Ehd
