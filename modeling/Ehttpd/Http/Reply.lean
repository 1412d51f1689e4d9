import Ehttpd.Http.Rules
import Mathlib.Data.Nat.Digits.Lemmas
import Mathlib.Tactic.NormNum

namespace Ehd

open Program

namespace Http

def rootName (conf : Conf) (uri : Str) : List UInt8 :=
  memcpy (memcpy (List.replicate (conf.root.len + uri.len + conf.index.len + 2) 0)
    0 conf.root.data conf.root.len) conf.root.len uri.data uri.len

def indexName (conf : Conf) (uri : Str) : List UInt8 :=
  memcpy (rootName conf uri) (conf.root.len + uri.len) conf.index.data conf.index.len

def names (conf : Conf) (uri : Str) : List (List UInt8) :=
  [cString (rootName conf uri), cString (indexName conf uri)]

inductive Answer
  | page (error : Nat)
  | redirect
  | file (name : Str)
  deriving DecidableEq, Repr

def directoryAnswer (conf : Conf) (uri : Str) (index : Option Stat) : Answer :=
  if uri.data.getD (uri.len - 1) 0 ≠ 47 then .redirect
  else
    match index with
    | none => .page EHD_HTTP_FORBIDDEN
    | some _ => .file ⟨conf.root.len + uri.len + conf.index.len, indexName conf uri⟩

def fileAnswer (conf : Conf) (uri : Str) (k : Kernel) : Answer :=
  match k.stat k.fsCalls (cString (rootName conf uri)) with
  | none => .page EHD_HTTP_NOT_FOUND
  | some s =>
    if s.mode = .dir then
      directoryAnswer conf uri (k.stat (k.fsCalls + 1) (cString (indexName conf uri)))
    else if s.mode ≠ .reg then .page EHD_HTTP_NOT_FOUND
    else .file ⟨conf.root.len + uri.len, rootName conf uri⟩

def answer (conf : Conf) (r : Request) (k : Kernel) : Answer :=
  if r.parse.method = .get then fileAnswer conf r.uri k else .page EHD_HTTP_NOT_IMPLEMENTED

def pageBody (error : Nat) : Buf :=
  let page := errorPages.getD (errorIndex error) []
  ((Buf.temp (page.length + errorTail.length)).append page).append errorTail

def fileBody (f : File) : Buf := { bytes := [], pos := 0, size := 0, type := 1, file := some f }

def location (conf : Conf) (uri : Str) : TableData :=
  ⟨ehdString "Location",
    ⟨uri.len + 1, (memcpy (rootName conf uri) 0 uri.data uri.len).set uri.len 47⟩⟩

def htmlType : TableData := ⟨ehdString "Content-Type", ehdString "text/html"⟩

def pageHeaders (h : HeadersOut) (error : Nat) : HeadersOut :=
  { h with
    headers := h.headers.push htmlType
    contentLengthN := ((pageBody error).last - (pageBody error).pos : Nat)
    status := errorStatus error }

def fileHeaders (h : HeadersOut) (uri : Str) (f : File) : HeadersOut :=
  { h with
    headers := match contentType uri with
      | none => h.headers
      | some ty => h.headers.push ⟨ehdString "Content-Type", ⟨ty.length, ty⟩⟩
    status := 200
    contentLengthN := f.size }

namespace Answer

/-- `headers_out` before the head is generated; `h` is what the request came
with and `f` the open file. -/
def headersOut (conf : Conf) (uri : Str) (h : HeadersOut) (f : File) : Answer → HeadersOut
  | page error => pageHeaders h error
  | redirect =>
    pageHeaders { h with headers := h.headers.push (location conf uri) } EHD_HTTP_MOVED_TEMPORARILY
  | file _ => fileHeaders h uri f

def body (f : File) : Answer → Buf
  | page error => pageBody error
  | redirect => pageBody EHD_HTTP_MOVED_TEMPORARILY
  | file _ => fileBody f

end Answer

def serverHeader : TableData := ⟨ehdString "Server", ⟨EHD_VERSION.length, EHD_VERSION⟩⟩

def contentLengthHeader (n : Nat) : TableData :=
  ⟨ehdString "Content-Length", ⟨(decimal n).length, snprintf 20 (decimal n)⟩⟩

/-- `headers_out.headers` as `ehd_http_response_gen_header` completes it. -/
def finalHeaders (h : HeadersOut) : EList TableData :=
  let l := if h.server = none then h.headers.push serverHeader else h.headers
  if h.contentLength = none ∧ h.contentLengthN > 0 then
    l.push (contentLengthHeader h.contentLengthN.toNat)
  else l

def headOf (h : HeadersOut) : Buf :=
  writeHeadEnd ((finalHeaders h).entries.foldl writeHeader ((Buf.temp 8192).append (statusLine h)))

structure Extends (b b' : Buf) : Prop where
  eq : b' = { b with bytes := b'.bytes }
  bytes : b.bytes <+: b'.bytes

theorem Extends.trans {b b' b'' : Buf} (h : Extends b b') (h' : Extends b' b'') : Extends b b'' :=
  ⟨by rw [h'.eq, h.eq], h.bytes.trans h'.bytes⟩

theorem extends_refl (b : Buf) : Extends b b := ⟨rfl, List.prefix_refl _⟩

theorem extends_append (b : Buf) (bs : List UInt8) : Extends b (b.append bs) :=
  ⟨rfl, List.prefix_append _ _⟩

theorem writeHeader_extends (b : Buf) (t : TableData) : Extends b (writeHeader b t) := by
  unfold writeHeader
  dsimp only
  split
  · split
    · exact (extends_append _ _).trans (extends_append _ _)
    · exact extends_append _ _
  · exact extends_refl b

theorem foldl_writeHeader_extends (ts : List TableData) (b : Buf) :
    Extends b (ts.foldl writeHeader b) := by
  induction ts generalizing b with
  | nil => exact extends_refl b
  | cons t ts ih =>
    rw [List.foldl_cons]
    exact (writeHeader_extends b t).trans (ih _)

theorem writeHeadEnd_extends (b : Buf) : Extends b (writeHeadEnd b) := by
  unfold writeHeadEnd
  split
  · exact extends_append _ _
  · exact extends_refl b

theorem headOf_extends (h : HeadersOut) :
    Extends ((Buf.temp 8192).append (statusLine h)) (headOf h) :=
  (foldl_writeHeader_extends _ _).trans (writeHeadEnd_extends _)

theorem statusLine_ne_nil (h : HeadersOut) : statusLine h ≠ [] := by
  have hver : ascii "HTTP/1.1 " ≠ [] := by decide
  unfold statusLine
  cases h.statusLine <;> simp [hver]

end Http

structure File.Opened (f : File) : Prop where
  offset : f.sysOffset = 0
  size : f.size < 2 ^ 63

theorem opened_none : File.Opened ⟨0, ehdNullString, 0, 0⟩ := ⟨rfl, by decide⟩

/-- A step of a handler that builds a response: it fills `headers_out` and the
chain, and gives only the strings `ns` to `stat` and `open`. -/
structure World.Filling (ns : List (List UInt8)) (w w' : World) : Prop where
  conf : w'.conf = w.conf
  c : w'.c = w.c
  hc : w'.hc = w.hc
  r : w'.r = { w.r with headersOut := w'.r.headersOut, response := w'.r.response }
  k : w.k.Steady w'.k
  recvs : w'.k.recvs = w.k.recvs
  sends : w'.k.sends = w.k.sends
  t : ∃ ps os, w'.t = { w.t with paths := w.t.paths ++ ps, opens := w.t.opens ++ os } ∧
    ∀ p ∈ ps, p ∈ ns

namespace World.Filling

variable {ns : List (List UInt8)} {w w' w'' : World}

theorem refl (w : World) : w.Filling ns w :=
  ⟨rfl, rfl, rfl, rfl, .refl _, rfl, rfl, [], [], by simp, by simp⟩

theorem trans (h : w.Filling ns w') (h' : w'.Filling ns w'') : w.Filling ns w'' where
  conf := h'.conf.trans h.conf
  c := h'.c.trans h.c
  hc := h'.hc.trans h.hc
  r := by rw [h'.r, h.r]
  k := h.k.trans h'.k
  recvs := h'.recvs.trans h.recvs
  sends := h'.sends.trans h.sends
  t := by
    obtain ⟨ps, os, ht, hmem⟩ := h.t
    obtain ⟨ps', os', ht', hmem'⟩ := h'.t
    refine ⟨ps ++ ps', os ++ os', by rw [ht', ht]; simp, fun p hp => ?_⟩
    rcases List.mem_append.1 hp with h | h
    · exact hmem p h
    · exact hmem' p h

theorem onK (w : World) (f : Kernel → Kernel) (hk : w.k.Steady (f w.k))
    (hrecvs : (f w.k).recvs = w.k.recvs) (hsends : (f w.k).sends = w.k.sends) :
    w.Filling ns (w.onK f) :=
  ⟨rfl, rfl, rfl, rfl, hk, hrecvs, hsends, [], [], by simp, by simp⟩

theorem alloced (w : World) (n : List Allocation) : w.Filling ns (w.alloced n) :=
  onK w _ ⟨rfl, rfl, rfl, rfl, fun _ h => h⟩ rfl rfl

theorem onR (w : World) (f : Http.Request → Http.Request)
    (hf : f w.r = { w.r with headersOut := (f w.r).headersOut, response := (f w.r).response }) :
    w.Filling ns (w.onR f) :=
  ⟨rfl, rfl, rfl, hf, .refl _, rfl, rfl, [], [], by simp, by simp⟩

theorem named (w : World) {path : List UInt8} (h : path ∈ ns) : w.Filling ns (w.namePath path) :=
  ⟨rfl, rfl, rfl, rfl, ⟨rfl, rfl, rfl, rfl, fun _ h => h⟩, rfl, rfl, [path], [],
    by rw [List.append_nil]; rfl, by simpa using h⟩

theorem noted (w : World) (x : FileOpen) :
    w.Filling ns (w.onT fun t => { t with opens := t.opens ++ [x] }) :=
  ⟨rfl, rfl, rfl, rfl, .refl _, rfl, rfl, [], [x], by simp, by simp⟩

theorem home (h : w.Filling ns w') : w'.r.home = w.r.home := by rw [h.r]

theorem destroyed (h : w.Filling ns w') : w'.t.destroyed = w.t.destroyed := by
  obtain ⟨ps, os, ht, -⟩ := h.t
  rw [ht]

theorem alive (h : w.Filling ns w') (hw : w.r.home ∉ w.t.destroyed) :
    w'.r.home ∉ w'.t.destroyed := by
  rw [h.home, h.destroyed]; exact hw

theorem scratch (h : w.Filling ns w') : w.Scratch w' where
  conf := h.conf
  slot := by rw [h.c]
  id := by rw [h.c]
  fd := by rw [h.c]
  pool := by rw [h.c]
  home := h.home
  requestPool := by rw [h.r]
  k := h.k
  t := by obtain ⟨ps, os, ht, -⟩ := h.t; rw [ht]

end World.Filling

namespace Http

variable {w : World} {E : Stop → World → Prop} {ns : List (List UInt8)}

def Fails (ns : List (List UInt8)) (w : World) (E : Stop → World → Prop) : Prop :=
  ∀ w', w.Filling ns w' → w'.k.Refused w.c.readHandler → E .nullAlloc w'

theorem Fails.of_filling {w' : World} (h : Fails ns w E) (hw : w.Filling ns w') :
    Fails ns w' E :=
  fun w'' h' hr => h w'' (hw.trans h') (by rwa [hw.c] at hr)

theorem pushHeaderOut_rule {Q : Unit → World → Prop} {t : TableData}
    (halive : w.r.home ∉ w.t.destroyed) (hfail : Fails ns w E)
    (hok : ∀ w', w.Filling ns w' → w'.r.response = w.r.response →
      w'.r.headersOut = { w.r.headersOut with headers := w.r.headersOut.headers.push t } →
      w'.t = w.t → Q () w') :
    wp (pushHeaderOut t) Q E w := by
  unfold pushHeaderOut
  rw [wp_bind, wp_getRequest halive, wp_bind]
  refine listRoom_rule (fun n => ?_) (fun n hr => ?_)
  · rw [if_pos rfl, wp_modifyRequest (by simpa using halive)]
    exact hok _ ((World.Filling.alloced w n).trans (.onR _ _ rfl)) rfl rfl rfl
  · exact hfail _ (.alloced w n) hr

/-- The entry for `Server`. -/
theorem pushServer_rule {Q : Unit → World → Prop} (halive : w.r.home ∉ w.t.destroyed)
    (hfail : Fails ns w E)
    (hok : ∀ w', w.Filling ns w' → w'.r.response = w.r.response →
      w'.r.headersOut = { w.r.headersOut with
        headers := if w.r.headersOut.server = none then w.r.headersOut.headers.push serverHeader
          else w.r.headersOut.headers } →
      w'.t = w.t → Q () w') :
    wp pushServer Q E w := by
  unfold pushServer
  rw [wp_bind, wp_getRequest halive]
  by_cases hs : w.r.headersOut.server = none
  · rw [if_pos hs]
    refine pushHeaderOut_rule halive hfail fun w' h hresp hho ht => hok w' h hresp ?_ ht
    rw [hho, if_pos hs]; rfl
  · rw [if_neg hs]
    exact hok w (.refl w) rfl (by rw [if_neg hs]) rfl

/-- The entry for `Content-Length`. -/
theorem pushContentLength_rule {Q : Unit → World → Prop} (halive : w.r.home ∉ w.t.destroyed)
    (hfail : Fails ns w E)
    (hok : ∀ w', w.Filling ns w' → w'.r.response = w.r.response →
      w'.r.headersOut = { w.r.headersOut with
        headers :=
          if w.r.headersOut.contentLength = none ∧ w.r.headersOut.contentLengthN > 0 then
            w.r.headersOut.headers.push (contentLengthHeader w.r.headersOut.contentLengthN.toNat)
          else w.r.headersOut.headers } →
      w'.t = w.t → Q () w') :
    wp pushContentLength Q E w := by
  unfold pushContentLength
  rw [wp_bind, wp_getRequest halive]
  by_cases hc : w.r.headersOut.contentLength = none ∧ w.r.headersOut.contentLengthN > 0
  · rw [if_pos hc, wp_bind]
    refine listRoom_rule (fun n => ?_) (fun n hr => hfail _ (.alloced w n) hr)
    rw [if_pos rfl, wp_bind]
    refine pcalloc_rule (fun n' => ?_) (fun n' hr => hfail _ (.alloced w n') hr)
    simp only [World.alloced_alloced]
    rw [wp_modifyRequest (by simpa using halive)]
    refine hok _ ((World.Filling.alloced w n').trans (.onR _ _ rfl)) rfl ?_ rfl
    simp only [World.onR_r, World.alloced_r, if_pos hc]
    rfl
  · rw [if_neg hc]
    exact hok w (.refl w) rfl (by rw [if_neg hc]) rfl

/-- The head is generated from `headers_out`; its status line has to fit. -/
theorem responseGenHeader_rule {Q : Unit → World → Prop}
    (halive : w.r.home ∉ w.t.destroyed) (hfail : Fails ns w E)
    (hline : (statusLine w.r.headersOut).length < 8192)
    (hok : ∀ w', w.Filling ns w' →
      w'.r.headersOut = { w.r.headersOut with headers := finalHeaders w.r.headersOut } →
      w'.r.response = { w.r.response with data := [headOf w.r.headersOut], last := 0 } →
      w'.t = w.t → Q () w') :
    wp responseGenHeader Q E w := by
  unfold responseGenHeader
  rw [wp_bind]
  refine allocate_rule (fun n => ?_) (fun n hr => hfail _ (.alloced w n) hr)
  rw [if_neg (by simp), wp_bind]
  refine createTempBuf_rule (fun n' => ?_) (fun n' hr => hfail _ (.alloced w n') hr)
  simp only [World.alloced_alloced]
  have h₁ : w.Filling ns (w.alloced n') := .alloced w n'
  rw [wp_bind, wp_getRequest (h₁.alive halive)]
  have hroom : ¬ (statusLine w.r.headersOut).length ≥ (Buf.temp 8192).room := by
    have : (Buf.temp 8192).room = 8192 := rfl
    omega
  simp only [World.alloced_r, if_neg hroom]
  rw [wp_bind]
  refine pushServer_rule (h₁.alive halive) (hfail.of_filling h₁) fun w₂ h₂ hresp₂ hho₂ ht₂ => ?_
  replace h₂ := h₁.trans h₂
  rw [wp_bind]
  refine pushContentLength_rule (h₂.alive halive) (hfail.of_filling h₂)
    fun w₃ h₃ hresp₃ hho₃ ht₃ => ?_
  replace h₃ := h₂.trans h₃
  rw [wp_bind, wp_getRequest (h₃.alive halive), wp_modifyRequest (h₃.alive halive)]
  have hho : w₃.r.headersOut =
      { w.r.headersOut with headers := finalHeaders w.r.headersOut } := by
    rw [hho₃, hho₂]
    rfl
  refine hok _ (h₃.trans (.onR _ _ rfl)) hho ?_ (ht₃.trans ht₂)
  simp only [World.onR_r, hho, hresp₃, hresp₂, headOf, World.alloced_r]

/-- `w'` is `w` after a handler has opened files: those whose size is known are the
file `f` of the body `b`. -/
def Opens (w w' : World) (b : Buf) (f : File) : Prop :=
  ∃ os, w'.t.opens = w.t.opens ++ os ∧ ∀ x ∈ os, x.request = w.t.handed.length ∧
    (x.sized = true → b = fileBody f ∧ f.fd = x.fd)

/-- The state in which a handler starts to write the answer `a`: the chain
holds its head and its body. -/
structure Answered (ns : List (List UInt8)) (w w' : World) (a : Answer) (f : File) : Prop
    extends w.Filling ns w' where
  headersOut : w'.r.headersOut =
    { a.headersOut w.conf w.r.uri w.r.headersOut f with
      headers := finalHeaders (a.headersOut w.conf w.r.uri w.r.headersOut f) }
  response : w'.r.response =
    { w.r.response with
      data := [headOf (a.headersOut w.conf w.r.uri w.r.headersOut f), a.body f], last := 1 }
  opened : f.Opened
  opens : Opens w w' (a.body f) f

theorem opens_of_eq {w' : World} {b : Buf} {f : File} (h : w'.t.opens = w.t.opens) :
    Opens w w' b f := by
  refine ⟨[], by rw [h, List.append_nil], ?_⟩
  intro x hx
  cases hx

theorem chainBody_rule {Q : Unit → World → Prop} {b : Buf} (halive : w.r.home ∉ w.t.destroyed)
    (hok : Q () (w.onR fun r => { r with response := { r.response with
      data := r.response.data ++ [b], last := r.response.last + 1 } })) :
    wp (chainBody b) Q E w := by
  unfold chainBody
  rwa [wp_modifyRequest halive]

theorem statusLine_length_le {h : HeadersOut} (hline : h.statusLine = none)
    (hstatus : h.status < 1000) : (statusLine h).length ≤ 14 := by
  have hdec : (decimal h.status).length ≤ 3 := by
    unfold decimal
    split
    · simp
    · rw [List.length_map, List.length_reverse]
      exact (Nat.digits_length_le_iff (by omega) _).2 hstatus
  have hver : (ascii "HTTP/1.1 ").length = 9 := by decide
  have hcrlf : CRLF.length = 2 := rfl
  simp only [statusLine, hline, List.length_append, hver, hcrlf]
  omega

theorem statusLine_length_lt {h : HeadersOut} (hline : h.statusLine = none)
    (hstatus : h.status < 1000) : (statusLine h).length < 8192 := by
  have := statusLine_length_le hline hstatus
  omega

/-- `ehd_http_special_response_handler` reaches the writer with the page. -/
theorem specialResponseHandler_rule {Q : Unit → World → Prop} {error : Nat}
    (halive : w.r.home ∉ w.t.destroyed) (hfail : Fails ns w E)
    (hline : w.r.headersOut.statusLine = none) (hstatus : errorStatus error < 1000)
    (hok : ∀ w', w.Filling ns w' →
      w'.r.headersOut = { pageHeaders w.r.headersOut error with
        headers := finalHeaders (pageHeaders w.r.headersOut error) } →
      w'.r.response = { w.r.response with
        data := [headOf (pageHeaders w.r.headersOut error), pageBody error], last := 1 } →
      w'.t = w.t → wp startWriting Q E w') :
    wp (specialResponseHandler error) Q E w := by
  unfold specialResponseHandler
  rw [wp_bind]
  refine pushHeaderOut_rule halive hfail fun w₁ h₁ hresp₁ hho₁ ht₁ => ?_
  rw [wp_bind]
  refine createTempBuf_rule (fun n => ?_)
    (fun n hr => hfail.of_filling h₁ _ (.alloced w₁ n) hr)
  replace h₁ := h₁.trans (.alloced w₁ n)
  rw [wp_bind, wp_modifyRequest (h₁.alive halive), wp_bind]
  generalize hw₂ : (w₁.alloced n).onR _ = w₂
  have h₂ : w.Filling ns w₂ := hw₂ ▸ h₁.trans (.onR _ _ rfl)
  have hho₂ : w₂.r.headersOut = pageHeaders w.r.headersOut error := by
    rw [← hw₂]
    simp only [World.onR_r, World.alloced_r, hho₁]
    rfl
  have hresp₂ : w₂.r.response = w.r.response := by rw [← hw₂]; exact hresp₁
  have ht₂ : w₂.t = w.t := by rw [← hw₂]; exact ht₁
  refine responseGenHeader_rule (h₂.alive halive) (hfail.of_filling h₂) ?_
    fun w₃ h₃ hho₃ hresp₃ ht₃ => ?_
  · exact statusLine_length_lt (by rw [hho₂]; exact hline) (by rw [hho₂]; exact hstatus)
  replace h₃ := h₂.trans h₃
  rw [wp_bind]
  refine allocate_rule (fun m => ?_) (fun m hr => hfail.of_filling h₃ _ (.alloced w₃ m) hr)
  replace h₃ := h₃.trans (.alloced w₃ m)
  rw [if_pos rfl, wp_bind]
  refine chainBody_rule (h₃.alive halive) ?_
  refine hok _ (h₃.trans (.onR _ _ rfl)) ?_ ?_ (ht₃.trans ht₂)
  · simp only [World.onR_r, World.alloced_r, hho₃, hho₂]
  · simp only [World.onR_r, World.alloced_r, hresp₃, hresp₂, hho₂]
    rfl

theorem sysOpen_rule {Q : Option Int → World → Prop} {path : List UInt8} (hpath : path ∈ ns)
    (hok : ∀ w' o, w.Filling ns w' → w'.r = w.r → (∀ p ∈ w.t.paths, p ∈ w'.t.paths) →
      w'.t.opens = w.t.opens → Q o w') :
    wp (sysOpen path) Q E w := by
  have hmem : ∀ p ∈ w.t.paths, p ∈ w.t.paths ++ [path] := by
    intro p hp
    exact List.mem_append_left _ hp
  have h := World.Filling.named w hpath
  simp only [sysOpen, wp_bind, wp_get, wp_set]
  cases w.k.openFd w.k.fsCalls path with
  | none => exact hok _ _ h rfl hmem rfl
  | some fd =>
    simp only [wp_ite, wp_bind, wp_modify, wp_pure]
    refine ⟨fun _ => hok _ _ h rfl hmem rfl,
      fun _ => hok _ _ (h.trans (.onK _ _ ?_ rfl rfl)) rfl hmem rfl⟩
    refine ⟨rfl, rfl, rfl, rfl, fun fd' hfd' => ?_⟩
    show Function.update w.k.opened fd true fd' = true
    by_cases heq : fd' = fd
    · rw [heq, Function.update_self]
    · rwa [Function.update_of_ne heq]

/-- `ehd_file_open_rs` gives only its name to `open` and `stat`. -/
theorem fileOpenRs_rule {Q : Option File → World → Prop} {name : Str}
    (hname : cString name.data ∈ ns)
    (hok : ∀ w' o, w.Filling ns w' → w'.r = w.r → (∀ p ∈ w.t.paths, p ∈ w'.t.paths) →
      (∀ f, o = some f → f.Opened) →
      Opens w w' (fileBody (o.getD ⟨0, ehdNullString, 0, 0⟩)) (o.getD ⟨0, ehdNullString, 0, 0⟩) →
      Q o w') :
    wp (fileOpenRs name) Q E w := by
  unfold fileOpenRs
  rw [wp_bind]
  refine sysOpen_rule hname fun w₁ o h₁ hr₁ hp₁ ho₁ => ?_
  cases o with
  | none => exact hok w₁ none h₁ hr₁ hp₁ (by simp) (opens_of_eq ho₁)
  | some fd =>
    simp only [sysStat, wp_bind, wp_get, wp_set, wp_modify, wp_pure]
    have h₂ := (h₁.trans (.named w₁ hname)).trans (.noted _ ⟨w₁.t.handed.length, fd,
      (w₁.k.stat w₁.k.fsCalls (cString name.data)).isSome⟩)
    have hp₂ : ∀ p ∈ w.t.paths, p ∈ (w₁.namePath (cString name.data)).t.paths := by
      intro p hp
      exact List.mem_append_left _ (hp₁ p hp)
    have hhanded : w₁.t.handed = w.t.handed := by
      obtain ⟨ps, os, ht, -⟩ := h₁.t
      rw [ht]
    cases hs : w₁.k.stat w₁.k.fsCalls (cString name.data) with
    | none =>
      rw [hs] at h₂
      refine hok _ none h₂ hr₁ hp₂ (by simp) ⟨_, congrArg (· ++ _) ho₁, ?_⟩
      intro x hx
      rw [List.mem_singleton.1 hx]
      exact ⟨congrArg List.length hhanded, fun h => absurd h (by simp)⟩
    | some s =>
      rw [hs] at h₂
      refine hok _ (some _) h₂ hr₁ hp₂ ?_ ⟨_, congrArg (· ++ _) ho₁, ?_⟩
      · intro f hf
        cases hf
        exact ⟨rfl, s.inRange⟩
      · intro x hx
        rw [List.mem_singleton.1 hx]
        exact ⟨congrArg List.length hhanded, fun _ => ⟨rfl, rfl⟩⟩

/-- The loop over the table `mime`. -/
theorem pushContentType_rule {Q : Unit → World → Prop} (halive : w.r.home ∉ w.t.destroyed)
    (hfail : Fails ns w E)
    (hok : ∀ w', w.Filling ns w' → w'.r.response = w.r.response →
      w'.r.headersOut = { w.r.headersOut with
        headers := match contentType w.r.uri with
          | none => w.r.headersOut.headers
          | some ty => w.r.headersOut.headers.push
            ⟨ehdString "Content-Type", ⟨ty.length, ty⟩⟩ } →
      w'.t = w.t → Q () w') :
    wp pushContentType Q E w := by
  unfold pushContentType
  rw [wp_bind, wp_getRequest halive]
  cases hty : contentType w.r.uri with
  | none => exact hok w (.refl w) rfl (by rw [hty]) rfl
  | some ty =>
    refine pushHeaderOut_rule halive hfail fun w' h hresp hho ht => hok w' h hresp ?_ ht
    rw [hho, hty]

/-- A served file reaches the writer with its body; what `open` and `fstat`
say decides only which file it is. -/
theorem serveFile_rule {Q : Unit → World → Prop} {name : Str}
    (halive : w.r.home ∉ w.t.destroyed) (hfail : Fails ns w E)
    (hline : w.r.headersOut.statusLine = none) (hname : cString name.data ∈ ns)
    (hok : ∀ w' f, w.Filling ns w' → f.Opened → Opens w w' (fileBody f) f →
      (∀ p ∈ w.t.paths, p ∈ w'.t.paths) →
      w'.r.headersOut = { fileHeaders w.r.headersOut w.r.uri f with
        headers := finalHeaders (fileHeaders w.r.headersOut w.r.uri f) } →
      w'.r.response = { w.r.response with
        data := [headOf (fileHeaders w.r.headersOut w.r.uri f), fileBody f], last := 1 } →
      wp startWriting Q E w') :
    wp (serveFile name) Q E w := by
  unfold serveFile
  rw [wp_bind]
  refine pushContentType_rule halive hfail fun w₁ h₁ hresp₁ hho₁ ht₁ => ?_
  rw [wp_bind]
  refine allocate_rule (fun n => ?_) (fun n hr => hfail.of_filling h₁ _ (.alloced w₁ n) hr)
  replace h₁ := h₁.trans (.alloced w₁ n)
  rw [if_neg (by simp), wp_bind]
  refine fileOpenRs_rule hname fun w₂ o h₂ hr₂ hp₂ hoff ho₂ => ?_
  replace h₂ := h₁.trans h₂
  -- a failed open leaves the zeroes of the file structure
  have hopened : (o.getD ⟨0, ehdNullString, 0, 0⟩).Opened := by
    cases o with
    | none => exact opened_none
    | some f => exact hoff f rfl
  generalize o.getD ⟨0, ehdNullString, 0, 0⟩ = f at hopened ho₂
  rw [wp_bind, wp_modifyRequest (h₂.alive halive), wp_bind]
  generalize hw₃ : w₂.onR _ = w₃
  have h₃ : w.Filling ns w₃ := hw₃ ▸ h₂.trans (.onR _ _ rfl)
  have hho₃ : w₃.r.headersOut = fileHeaders w.r.headersOut w.r.uri f := by
    rw [← hw₃]
    simp only [World.onR_r, hr₂, World.alloced_r, hho₁]
    rfl
  have hresp₃ : w₃.r.response = w.r.response := by
    rw [← hw₃]
    simp only [World.onR_r, hr₂, World.alloced_r, hresp₁]
  have ht₃ : w₃.t = w₂.t := by rw [← hw₃]; rfl
  refine responseGenHeader_rule (h₃.alive halive) (hfail.of_filling h₃) ?_
    fun w₄ h₄ hho₄ hresp₄ ht₄ => ?_
  · refine statusLine_length_lt (by rw [hho₃]; exact hline) ?_
    rw [hho₃]
    show 200 < 1000
    omega
  replace h₄ := h₃.trans h₄
  rw [wp_bind]
  refine allocate_rule (fun m => ?_) (fun m hr => hfail.of_filling h₄ _ (.alloced w₄ m) hr)
  replace h₄ := h₄.trans (.alloced w₄ m)
  rw [if_neg (by simp), wp_bind]
  refine allocate_rule (fun m' => ?_) (fun m' hr => hfail.of_filling h₄ _ (.alloced _ m') hr)
  replace h₄ := h₄.trans (.alloced (w₄.alloced m) m')
  rw [if_neg (by simp), wp_bind]
  refine chainBody_rule (h₄.alive halive) ?_
  -- the chain now holds the head and the body
  refine hok _ f (h₄.trans (.onR _ _ rfl)) hopened ?_ ?_ ?_ ?_
  · obtain ⟨os, hos, hmem⟩ := ho₂
    refine ⟨os, ?_, ?_⟩
    · simp only [World.onR_t, World.alloced_t, ht₄, ht₃, hos, ht₁]
    · simpa only [World.alloced_t, ht₁] using hmem
  · intro p hp
    simp only [World.onR_t, World.alloced_t, ht₄, ht₃]
    exact hp₂ p (by rw [World.alloced_t, ht₁]; exact hp)
  · simp only [World.onR_r, World.alloced_r, hho₄, hho₃]
  · simp only [World.onR_r, World.alloced_r, hresp₄, hresp₃, hho₃]
    rfl

/-- What has to be shown of the writer after a handler has stored the answer `a`;
`w₀` is where the handler began. -/
def Starts (ns : List (List UInt8)) (w₀ w : World) (a : Answer) (Q : Unit → World → Prop)
    (E : Stop → World → Prop) : Prop :=
  ∀ w' f, Answered ns w₀ w' a f → (∀ p ∈ w.t.paths, p ∈ w'.t.paths) → wp startWriting Q E w'

theorem page_rule {Q : Unit → World → Prop} {w₀ : World} {error : Nat} (h : w₀.Filling ns w)
    (hr : w.r = w₀.r) (ho : w.t.opens = w₀.t.opens) (halive : w₀.r.home ∉ w₀.t.destroyed) (hfail : Fails ns w₀ E)
    (hline : w₀.r.headersOut.statusLine = none) (hstatus : errorStatus error < 1000)
    (hok : Starts ns w₀ w (.page error) Q E) : wp (specialResponseHandler error) Q E w := by
  refine specialResponseHandler_rule (h.alive halive) (hfail.of_filling h)
    (by rw [hr]; exact hline) hstatus fun w' h' hho hresp ht => ?_
  refine hok w' ⟨0, ehdNullString, 0, 0⟩ ⟨h.trans h', ?_, ?_, opened_none, ?_⟩ ?_
  · rw [hho, hr]; rfl
  · rw [hresp, hr]; rfl
  · apply opens_of_eq
    rw [ht, ho]
  · intro p hp
    rw [ht]; exact hp

theorem file_rule {Q : Unit → World → Prop} {w₀ : World} {name : Str} (h : w₀.Filling ns w)
    (hr : w.r = w₀.r) (ho : w.t.opens = w₀.t.opens) (halive : w₀.r.home ∉ w₀.t.destroyed) (hfail : Fails ns w₀ E)
    (hline : w₀.r.headersOut.statusLine = none) (hname : cString name.data ∈ ns)
    (hok : Starts ns w₀ w (.file name) Q E) : wp (serveFile name) Q E w := by
  refine serveFile_rule (h.alive halive) (hfail.of_filling h) (by rw [hr]; exact hline) hname
    fun w' f h' hopened hopens hp hho hresp => ?_
  refine hok w' f ⟨h.trans h', ?_, ?_, hopened, ?_⟩ hp
  · rw [hho, hr]; rfl
  · rw [hresp, hr]; rfl
  · have hhanded : w.t.handed = w₀.t.handed := by
      obtain ⟨ps, os, ht, -⟩ := h.t
      rw [ht]
    obtain ⟨os, hos, hmem⟩ := hopens
    rw [hhanded] at hmem
    exact ⟨os, by rw [hos, ho], hmem⟩

theorem redirect_rule {Q : Unit → World → Prop} {w₀ : World} (h : w₀.Filling ns w)
    (hr : w.r = w₀.r) (ho : w.t.opens = w₀.t.opens) (halive : w₀.r.home ∉ w₀.t.destroyed) (hfail : Fails ns w₀ E)
    (hline : w₀.r.headersOut.statusLine = none)
    (hok : Starts ns w₀ w .redirect Q E) :
    wp (do
      pushHeaderOut (location w₀.conf w₀.r.uri)
      specialResponseHandler EHD_HTTP_MOVED_TEMPORARILY) Q E w := by
  rw [wp_bind]
  refine pushHeaderOut_rule (h.alive halive) (hfail.of_filling h) fun w₁ h₁ hresp₁ hho₁ ht₁ => ?_
  replace h₁ := h.trans h₁
  refine specialResponseHandler_rule (h₁.alive halive) (hfail.of_filling h₁)
    (by rw [hho₁, hr]; exact hline) (by decide) fun w' h' hho hresp ht => ?_
  refine hok w' ⟨0, ehdNullString, 0, 0⟩ ⟨h₁.trans h', ?_, ?_, opened_none, ?_⟩ ?_
  · rw [hho, hho₁, hr]; rfl
  · rw [hresp, hho₁, hresp₁, hr]; rfl
  · apply opens_of_eq
    rw [ht, ht₁, ho]
  · intro p hp
    rw [ht, ht₁]; exact hp

@[simp] theorem wp_sysStat {Q : Option Stat → World → Prop} {path : List UInt8} :
    wp (sysStat path) Q E w ↔ Q (w.k.stat w.k.fsCalls path) (w.namePath path) := Iff.rfl

theorem serveDirectory_rule {Q : Unit → World → Prop} {w₀ : World} (h : w₀.Filling ns w)
    (hindex : cString (indexName w₀.conf w₀.r.uri) ∈ ns) (hr : w.r = w₀.r)
    (ho : w.t.opens = w₀.t.opens) (halive : w₀.r.home ∉ w₀.t.destroyed) (hfail : Fails ns w₀ E)
    (hline : w₀.r.headersOut.statusLine = none)
    (hok : Starts ns w₀ w (directoryAnswer w₀.conf w₀.r.uri
      (w.k.stat w.k.fsCalls (cString (indexName w₀.conf w₀.r.uri)))) Q E) :
    wp (serveDirectory w₀.conf w₀.r.uri (rootName w₀.conf w₀.r.uri)) Q E w := by
  unfold serveDirectory
  unfold directoryAnswer at hok
  by_cases hslash : w₀.r.uri.data.getD (w₀.r.uri.len - 1) 0 ≠ 47
  · rw [if_pos hslash] at hok ⊢
    exact redirect_rule h hr ho halive hfail hline hok
  · rw [if_neg hslash] at hok ⊢
    have h' := h.trans (.named w hindex)
    have hpaths : ∀ p ∈ w.t.paths, p ∈ (w.namePath (cString (indexName w₀.conf w₀.r.uri))).t.paths :=
      fun p hp => List.mem_append_left _ hp
    show wp (sysStat (cString (indexName w₀.conf w₀.r.uri)) >>= _) Q E w
    rw [wp_bind, wp_sysStat]
    cases hs : w.k.stat w.k.fsCalls (cString (indexName w₀.conf w₀.r.uri)) with
    | none =>
      rw [hs] at hok
      exact page_rule h' hr ho halive hfail hline (by decide)
        fun w' f ha hp => hok w' f ha fun p hp' => hp p (hpaths p hp')
    | some s =>
      rw [hs] at hok
      exact file_rule h' hr ho halive hfail hline hindex
        fun w' f ha hp => hok w' f ha fun p hp' => hp p (hpaths p hp')

/-- The name that is asked for after the first `stat`, if any is: that of the index in a
directory. -/
def laterName (conf : Conf) (uri : Str) (first : Option Stat) : List UInt8 :=
  if first.any fun s => s.mode = .dir then cString (indexName conf uri)
  else cString (rootName conf uri)

def nameCall (w : World) : AllocCall :=
  .palloc true (rpool w) (w.conf.root.len + w.r.uri.len + w.conf.index.len + 2)

def asked (w : World) : World :=
  (w.alloced (w.noted nameCall true)).namePath (cString (rootName w.conf w.r.uri))

/-- The handler after its first `stat` gives only the names `ns` to `stat` and `open`, and
reaches the writer with its answer. -/
theorem fileWriterHandler_asked {Q : Unit → World → Prop} (halive : w.r.home ∉ w.t.destroyed)
    (hline : w.r.headersOut.statusLine = none)
    (hrefused : w.k.allocOk w.c.readHandler w.k.allocs.length = false →
      E .nullAlloc (w.alloced (w.noted nameCall false)))
    (hname : laterName w.conf w.r.uri
      (w.k.stat w.k.fsCalls (cString (rootName w.conf w.r.uri))) ∈ ns)
    (hfail : Fails ns (asked w) E)
    (hok : ∀ w' f, Answered ns (asked w) w' (fileAnswer w.conf w.r.uri w.k) f →
      wp startWriting Q E w') :
    wp fileWriterHandler Q E w := by
  unfold fileWriterHandler
  rw [wp_bind, wp_get, wp_bind, wp_getRequest halive]
  simp only
  rw [wp_bind]
  unfold pcalloc
  rw [wp_bind, wp_allocate]
  refine ⟨fun _ => ?_, hrefused⟩
  show wp (sysStat (cString (rootName w.conf w.r.uri)) >>= _) Q E
    (w.alloced (w.noted nameCall true))
  rw [wp_bind, wp_sysStat]
  have hrefl : (asked w).Filling ns (asked w) := .refl _
  have halive' : (asked w).r.home ∉ (asked w).t.destroyed := halive
  have hline' : (asked w).r.headersOut.statusLine = none := hline
  simp only [World.alloced_k_stat, World.alloced_k_fsCalls]
  unfold laterName at hname
  cases hs : w.k.stat w.k.fsCalls (cString (rootName w.conf w.r.uri)) with
  | none =>
    simp only [fileAnswer, hs] at hok
    exact page_rule hrefl rfl rfl halive' hfail hline' (by decide) fun w' f ha _ => hok w' f ha
  | some s =>
    simp only [fileAnswer, hs] at hok
    rw [hs] at hname
    by_cases hdir : s.mode = .dir
    · rw [if_pos (by simpa using hdir)] at hname
      simp only [if_pos hdir] at hok ⊢
      exact @serveDirectory_rule (asked w) E ns Q (asked w) hrefl hname rfl rfl halive' hfail hline'
        fun w' f ha _ => hok w' f ha
    · rw [if_neg (by simpa using hdir)] at hname
      simp only [if_neg hdir] at hok ⊢
      by_cases hreg : s.mode ≠ .reg
      · simp only [if_pos hreg] at hok ⊢
        exact page_rule hrefl rfl rfl halive' hfail hline' (by decide) fun w' f ha _ => hok w' f ha
      · simp only [if_neg hreg] at hok ⊢
        exact file_rule hrefl rfl rfl halive' hfail hline' hname fun w' f ha _ => hok w' f ha

/-- `ehd_http_file_writer_handler` asks for the name of the path and reaches the
writer with its answer. -/
theorem fileWriterHandler_rule {Q : Unit → World → Prop}
    (halive : w.r.home ∉ w.t.destroyed) (hfail : Fails (names w.conf w.r.uri) w E)
    (hline : w.r.headersOut.statusLine = none)
    (hok : ∀ w' f, Answered (names w.conf w.r.uri) w w' (fileAnswer w.conf w.r.uri w.k) f →
      cString (rootName w.conf w.r.uri) ∈ w'.t.paths → wp startWriting Q E w') :
    wp fileWriterHandler Q E w := by
  have hroot : cString (rootName w.conf w.r.uri) ∈ names w.conf w.r.uri := by
    simp [names]
  have h : w.Filling (names w.conf w.r.uri) (asked w) :=
    (World.Filling.alloced w _).trans (.named _ hroot)
  have hname : laterName w.conf w.r.uri
      (w.k.stat w.k.fsCalls (cString (rootName w.conf w.r.uri))) ∈ names w.conf w.r.uri := by
    unfold laterName names
    split
    · exact List.mem_cons_of_mem _ List.mem_cons_self
    · exact List.mem_cons_self
  refine fileWriterHandler_asked halive hline ?_ hname (hfail.of_filling h) ?_
  · intro hrefused
    exact hfail _ (.alloced w _) (World.refused_noted hrefused)
  · intro w' f ha
    apply hok w' f ⟨h.trans ha.toFilling, ha.headersOut, ha.response, ha.opened, ha.opens⟩
    obtain ⟨ps, os, ht, -⟩ := ha.t
    rw [ht]
    show _ ∈ (w.t.paths ++ [_]) ++ ps
    simp

end Http

end Ehd
