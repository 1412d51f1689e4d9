import Ehttpd.Http.Delivery
import Ehttpd.Http.Target

namespace Ehd

open Program DotSegments

/-- The calls of `stat` and `open`: their names, the descriptors, and the results to come. -/
structure FileCalls where
  paths : List (List UInt8)
  opens : List FileOpen
  stat : Nat → List UInt8 → Option Stat
  openFd : Nat → List UInt8 → Option Int
  fsCalls : Nat

namespace World

def files (w : World) : FileCalls := ⟨w.t.paths, w.t.opens, w.k.stat, w.k.openFd, w.k.fsCalls⟩

theorem touch_files (w : World) : w.touch.files = w.files := by
  unfold touch
  split <;> rfl

theorem closeRequest_files (w : World) : w.closeRequest.files = w.files := by
  unfold closeRequest
  split
  · exact touch_files w
  · exact touch_files w

theorem closeConnection_files (w : World) : w.closeConnection.files = w.files := by
  unfold closeConnection
  split <;> rfl

end World

abbrev AsksNothing {α : Type} (x : Handler α) : Prop := Keeps World.files x

abbrev NamesNothing {α : Type} (x : Handler α) : Prop := Keeps (fun w => w.t.paths) x

namespace Http

theorem getRequest_asks : AsksNothing getRequest := by
  unfold getRequest
  apply keeps_bind
  · exact keeps_modify World.touch_files
  · intro _
    exact keeps_bind keeps_get fun _ => keeps_pure _

theorem modifyRequest_asks (f : Request → Request) : AsksNothing (modifyRequest f) :=
  keeps_modify fun w => World.touch_files w

theorem getHeaderInBuf_asks : AsksNothing getHeaderInBuf := by
  unfold getHeaderInBuf
  apply keeps_bind
  · exact keeps_modify World.touch_files
  · intro _
    apply keeps_bind keeps_get
    intro w
    split
    · exact keeps_pure _
    · exact keeps_throw _

theorem closeRequest_asks : AsksNothing closeRequest := keeps_modify World.closeRequest_files

theorem closeConnection_asks : AsksNothing closeConnection :=
  keeps_modify World.closeConnection_files

theorem closeBoth_asks : AsksNothing closeBoth :=
  keeps_bind closeRequest_asks fun _ => closeConnection_asks

theorem epollCtl_asks (entry : Option Interest) : AsksNothing (epollCtl entry) := by
  apply keeps_of_wp
  intro w
  unfold epollCtl
  simp only [wp_bind, wp_get, wp_set, wp_ite, wp_modify, wp_pure]
  exact ⟨fun _ => rfl, fun _ => rfl⟩

theorem epollAdd_asks (event flags : UInt32) : AsksNothing (Event.epollAdd event flags) := by
  unfold Event.epollAdd
  apply keeps_bind
  · exact keeps_modify fun _ => rfl
  · intro _
    apply keeps_bind keeps_get
    intro w
    apply keeps_bind (epollCtl_asks _)
    intro ok
    exact keeps_ite (keeps_pure _) (keeps_pure _)

theorem keepAlive_asks : AsksNothing keepAlive := by
  unfold keepAlive
  apply keeps_bind getHeaderInBuf_asks
  intro b
  refine keeps_modify_bind (fun _ => rfl) fun _ => ?_
  refine keeps_modify_bind (fun _ => rfl) fun _ => ?_
  refine keeps_modify_bind (fun _ => rfl) fun _ => ?_
  refine keeps_modify_bind (fun w => World.touch_files w) fun _ => ?_
  apply keeps_bind closeRequest_asks
  intro _
  refine keeps_modify_bind (fun _ => rfl) fun _ => ?_
  apply keeps_bind (epollAdd_asks _ _)
  intro rc
  exact keeps_ite closeConnection_asks (keeps_pure _)

theorem send_asks (bs : List UInt8) : AsksNothing (send bs) := by
  have go : ∀ rs : List SendResult, AsksNothing (send.go bs rs) := by
    intro rs
    induction rs with
    | nil => exact keeps_throw _
    | cons r rs ih =>
      cases r with
      | sent m =>
        unfold send.go
        refine keeps_modify_bind (fun _ => rfl) fun _ => ?_
        refine keeps_modify_bind (fun _ => rfl) fun _ => ?_
        exact keeps_modify_bind (fun _ => rfl) fun _ => keeps_pure _
      | intr =>
        unfold send.go
        exact keeps_modify_bind (fun _ => rfl) fun _ => ih
      | again =>
        unfold send.go
        refine keeps_modify_bind (fun _ => rfl) fun _ => ?_
        exact keeps_modify_bind (fun _ => rfl) fun _ => keeps_pure _
      | fail =>
        unfold send.go
        refine keeps_modify_bind (fun _ => rfl) fun _ => ?_
        exact keeps_modify_bind (fun _ => rfl) fun _ => keeps_pure _
  unfold send
  apply keeps_ite
  · exact keeps_modify_bind (fun _ => rfl) fun _ => keeps_pure _
  · exact keeps_bind keeps_get fun w => go w.k.sends

theorem sendfile_asks (fd : Int) (offset count : Nat) : AsksNothing (sendfile fd offset count) := by
  unfold sendfile
  apply keeps_ite (keeps_pure _)
  apply keeps_bind keeps_get
  intro w
  split
  · exact keeps_throw _
  · refine keeps_modify_bind (fun _ => rfl) fun _ => ?_
    exact keeps_modify_bind (fun _ => rfl) fun _ => keeps_pure _
  · exact keeps_modify_bind (fun _ => rfl) fun _ => keeps_pure _
  · exact keeps_modify_bind (fun _ => rfl) fun _ => keeps_pure _
  · exact keeps_modify_bind (fun _ => rfl) fun _ => keeps_pure _

theorem transfer_asks (last : Nat) (b : Buf) : AsksNothing (transfer last b) := by
  unfold transfer setChainBuf
  apply keeps_ite
  · apply keeps_bind (send_asks _)
    intro n
    exact keeps_modify_bind (fun _ => rfl) fun _ => keeps_pure _
  · split
    · exact keeps_throw _
    · apply keeps_bind (sendfile_asks _ _ _)
      intro n
      exact keeps_modify_bind (fun _ => rfl) fun _ => keeps_pure _

theorem writerLoop_asks : ∀ fuel last, AsksNothing (writerLoop fuel last) := by
  intro fuel
  induction fuel with
  | zero =>
    intro last
    exact keeps_throw _
  | succ fuel ih =>
    intro last
    unfold writerLoop
    apply keeps_bind keeps_get
    intro w
    dsimp only
    split
    · exact keeps_throw _
    · apply keeps_bind (transfer_asks _ _)
      rintro ⟨n, whole⟩
      dsimp only
      apply keeps_ite
      · apply keeps_ite
        · exact keeps_ite keepAlive_asks (ih _)
        · exact ih _
      · apply keeps_ite closeBoth_asks
        apply keeps_bind keeps_get
        intro w'
        exact keeps_ite (keeps_pure _) closeBoth_asks

theorem startWriting_asks : AsksNothing startWriting := by
  unfold startWriting armForWriting writer beginResponse
  refine keeps_modify_bind (fun _ => rfl) fun _ => ?_
  apply keeps_bind
  · apply keeps_bind (epollAdd_asks _ _)
    intro rc
    exact keeps_ite closeBoth_asks (keeps_pure _)
  · intro _
    apply keeps_bind keeps_get
    intro w
    apply keeps_ite (keeps_throw _)
    apply keeps_bind keeps_get
    intro w'
    apply keeps_ite (keeps_throw _)
    apply keeps_bind
    · apply keeps_bind getRequest_asks
      intro r
      exact keeps_ite (modifyRequest_asks _) (keeps_pure _)
    · intro _
      apply keeps_bind getRequest_asks
      intro r
      exact keeps_bind keeps_get fun w'' => writerLoop_asks _ _

theorem startWriting_names : NamesNothing startWriting := fun w =>
  congrArg FileCalls.paths (startWriting_asks w)

/-- `r->uri` stands for the trail `t`: as a C string it is the path of `t`. -/
structure StandsFor (uri : Str) (t : Trail UInt8) : Prop where
  ok : t.Ok 47 46
  cstr : cString uri.bytes = cString (t.text 47)
  len : uri.len = (t.text 47).length
  fits : uri.len ≤ uri.data.length

section

variable {b : Buf} {p : ParseState} {uri : Str}

def target (p : ParseState) (b : Buf) : List UInt8 := b.span p.uriStart p.uriLen

theorem target_head (h : PathAt b.bytes p (p.uriStart + p.uriLen) fun _ => True) :
    (target p b).head? = some 47 := by
  have hlt := h.lt
  unfold target Buf.span
  rw [List.head?_take, if_neg (by omega), List.head?_drop]
  exact h.slash

theorem target_length (h : PathAt b.bytes p (p.uriStart + p.uriLen) fun _ => True) :
    (target p b).length = p.uriLen := by
  have hle := h.le
  unfold target Buf.span
  rw [List.length_take, List.length_drop]
  omega

/-- A path that is marked complex is stored resolved. -/
theorem CopiedUri.resolved (h : CopiedUri p b uri)
    (hpath : PathAt b.bytes p (p.uriStart + p.uriLen) fun _ => True) (hcomplex : p.complexUri = true) :
    ∃ t, resolve (target p b) = some t ∧ t.Ok 47 46 ∧ uri.bytes = t.text 47 ∧
      uri.len ≤ uri.data.length := by
  cases h with
  | @complex area s _ harea hloop =>
    have hlen := target_length hpath
    have hshort : (target p b).length < area.length := by omega
    obtain ⟨t, ht, hw⟩ := uriLoop_resolve hshort (target_head hpath) hloop
    refine ⟨t, ht, hw.ok, ?_, ?_⟩
    · show (s.data.set s.u 0).take s.u = _
      rw [List.take_set_of_le (Nat.le_refl _), hw.text]
    · show s.u ≤ (s.data.set s.u 0).length
      rw [List.length_set]
      exact hw.fits
  | plain hplain _ =>
    rw [hcomplex] at hplain
    cases hplain

/-- Any other is copied up to its first NUL. -/
theorem CopiedUri.copied (h : CopiedUri p b uri)
    (hpath : PathAt b.bytes p (p.uriStart + p.uriLen) fun _ => True)
    (hcomplex : p.complexUri = false) :
    ∃ t, Plain t ∧ target p b = t.text 47 ∧ cString uri.bytes = cString (target p b) ∧
      uri.len = p.uriLen ∧ uri.data.length = p.uriLen + 1 := by
  cases h with
  | complex hc _ _ =>
    rw [hcomplex] at hc
    cases hc
  | plain _ harea =>
    obtain ⟨t, ht, htext, -⟩ := hpath.plain hcomplex
    refine ⟨t, ht, ?_, cString_cpystrn _ _ _ harea, rfl, ?_⟩
    · rw [← htext, Nat.add_sub_cancel_left]
      rfl
    · show (cpystrn _ _ _).length = _
      rw [cpystrn_length, harea]

def trailOf (p : ParseState) (b : Buf) (t : Trail UInt8) : Prop :=
  if p.complexUri then resolve (target p b) = some t else Plain t ∧ target p b = t.text 47

theorem CopiedUri.standsFor (h : CopiedUri p b uri)
    (hpath : PathAt b.bytes p (p.uriStart + p.uriLen) fun _ => True) :
    ∃ t, trailOf p b t ∧ StandsFor uri t := by
  unfold trailOf
  cases hcomplex : p.complexUri with
  | true =>
    obtain ⟨t, ht, hok, hbytes, hfits⟩ := h.resolved hpath hcomplex
    refine ⟨t, ht, hok, by rw [hbytes], ?_, hfits⟩
    rw [← hbytes]
    unfold Str.bytes
    rw [List.length_take]
    omega
  | false =>
    obtain ⟨t, ht, htext, hcstr, hlen, hdata⟩ := h.copied hpath hcomplex
    refine ⟨t, ⟨ht, htext⟩, ht.toOk, by rw [hcstr, htext], ?_, by omega⟩
    rw [hlen, ← target_length hpath, htext]

end

end Http

/-- `conf->root` and `conf->index` are strings without a NUL, and the index is a
name that is not made of dots. -/
structure Conf.Sound (conf : Conf) : Prop where
  root : conf.root.data.length = conf.root.len
  rootNul : 0 ∉ conf.root.data
  index : conf.index.data.length = conf.index.len
  indexNul : 0 ∉ conf.index.data
  indexSlash : 47 ∉ conf.index.data
  indexName : ∃ c ∈ conf.index.data, c ≠ 46

namespace Http

theorem ehdConfInit_sound : ehdConfInit.Sound := by
  constructor <;> decide

def Below (conf : Conf) (path : List UInt8) : Prop :=
  ∃ s, path = conf.root.data ++ s ∧ [46, 46] ∉ s.splitOn 47

/-- The path of the request line, as it is stored, ends in two dots: they follow its
last slash, and its end or a NUL follows them. -/
def EndsInDotDot (p : ParseState) (b : Buf) : Prop :=
  p.complexUri = true ∧ ∃ t, resolve (target p b) = some t ∧ t.lastName 0 = [46, 46]

section

variable {conf : Conf} {uri : Str} {t : Trail UInt8}

theorem uri_bytes_length (hfits : uri.len ≤ uri.data.length) : uri.bytes.length = uri.len := by
  unfold Str.bytes
  rw [List.length_take]
  omega

theorem rootName_eq (hs : conf.Sound) (uri : Str) :
    rootName conf uri = conf.root.data ++ (uri.bytes ++ List.replicate (conf.index.len + 2) 0) := by
  have hroot : conf.root.data.take conf.root.len = conf.root.data :=
    List.take_of_length_le hs.root.le
  have harea : conf.root.len + uri.len + conf.index.len + 2 - conf.root.len =
      uri.len + (conf.index.len + 2) := by omega
  unfold rootName memcpy
  rw [hroot, List.take_zero, List.nil_append, Nat.zero_add, List.drop_replicate, harea,
    List.take_left' hs.root, List.append_assoc]
  congr 1
  show uri.bytes ++ _ = _
  congr 1
  rw [← hs.root, List.drop_append, List.drop_replicate]
  simp

theorem indexName_eq (hs : conf.Sound) (hfits : uri.len ≤ uri.data.length) :
    indexName conf uri = conf.root.data ++ (uri.bytes ++ (conf.index.data ++ [0, 0])) := by
  have hindex : conf.index.data.take conf.index.len = conf.index.data :=
    List.take_of_length_le hs.index.le
  have hlen : (conf.root.data ++ uri.bytes).length = conf.root.len + uri.len := by
    rw [List.length_append, hs.root, uri_bytes_length hfits]
  unfold indexName memcpy
  rw [rootName_eq hs, ← List.append_assoc, List.take_left' hlen, hindex]
  have hdrop : (conf.root.data ++ uri.bytes ++ List.replicate (conf.index.len + 2) (0 : UInt8)).drop
      (conf.root.len + uri.len + conf.index.len) = [0, 0] := by
    rw [← hlen, List.drop_append, List.drop_replicate]
    simp
  rw [hdrop]
  simp

theorem cString_append_of_not_mem {xs : List UInt8} (h : 0 ∉ xs) (ys : List UInt8) :
    cString (xs ++ ys) = xs ++ cString ys := Trail.takeWhile_of_not_mem h ys

theorem cString_append_of_mem {xs : List UInt8} (h : 0 ∈ xs) (ys : List UInt8) :
    cString (xs ++ ys) = cString xs := Trail.takeWhile_of_mem h ys

theorem cString_of_not_mem {xs : List UInt8} (h : 0 ∉ xs) : cString xs = xs := by
  have := cString_append_of_not_mem h []
  simpa [cString] using this

theorem cString_rootName (hs : conf.Sound) (h : StandsFor uri t) :
    cString (rootName conf uri) = conf.root.data ++ cString (t.text 47) := by
  rw [rootName_eq hs, cString_append_of_not_mem hs.rootNul, ← h.cstr]
  by_cases hnul : 0 ∈ uri.bytes
  · rw [cString_append_of_mem hnul]
  · rw [cString_append_of_not_mem hnul, cString_of_not_mem hnul, List.replicate_succ]
    simp [cString]

theorem StandsFor.bytes (h : StandsFor uri t) (hnul : 0 ∉ uri.bytes) : uri.bytes = t.text 47 := by
  have hcstr := h.cstr
  rw [cString_of_not_mem hnul] at hcstr
  have hlen : (cString (t.text 47)).length = (t.text 47).length := by
    rw [← hcstr, uri_bytes_length h.fits, h.len]
  rw [hcstr]
  exact (List.takeWhile_prefix _).eq_of_length hlen

/-- With the index behind it a path has no other segments of two dots. -/
theorem index_not_dotDot (hs : conf.Sound) (hok : t.Ok 47 46) :
    [46, 46] ∉ (t.text 47 ++ conf.index.data).splitOn 47 := by
  have htext : t.text 47 ++ conf.index.data =
      (⟨t.names, t.cur ++ conf.index.data⟩ : Trail UInt8).text 47 := by
    simp [Trail.text]
  have hok' : (⟨t.names, t.cur ++ conf.index.data⟩ : Trail UInt8).Ok 47 46 := by
    refine ⟨hok.names, ?_⟩
    intro hmem
    rcases List.mem_append.1 hmem with hmem | hmem
    · exact hok.cur hmem
    · exact hs.indexSlash hmem
  rw [htext, hok'.dotDot_mem]
  intro hcur
  obtain ⟨c, hc, hne⟩ := hs.indexName
  have hmem : c ∈ [46, 46] := by
    rw [← hcur]
    exact List.mem_append_right _ hc
  rcases List.mem_cons.1 hmem with he | hmem
  · exact hne he
  · exact hne (List.mem_singleton.1 hmem)

/-- Both names are below the root unless the path ends in two dots. -/
theorem names_below (hs : conf.Sound) (h : StandsFor uri t) (hlast : t.lastName 0 ≠ [46, 46]) :
    ∀ path ∈ names conf uri, Below conf path := by
  have hroot : [46, 46] ∉ (cString (t.text 47)).splitOn 47 := by
    intro hmem
    exact hlast ((h.ok.dotDot_mem_takeWhile (by decide)).1 hmem)
  intro path hpath
  rcases List.mem_cons.1 hpath with rfl | hpath
  · exact ⟨_, cString_rootName hs h, hroot⟩
  · rw [List.mem_singleton.1 hpath, indexName_eq hs h.fits, cString_append_of_not_mem hs.rootNul]
    by_cases hnul : 0 ∈ uri.bytes
    · rw [cString_append_of_mem hnul, h.cstr]
      exact ⟨_, rfl, hroot⟩
    · rw [cString_append_of_not_mem hnul, cString_append_of_not_mem hs.indexNul, h.bytes hnul]
      refine ⟨_, rfl, ?_⟩
      have hend : cString [0, 0] = [] := rfl
      rw [hend, List.append_nil]
      exact index_not_dotDot hs h.ok

theorem rootName_not_below (hs : conf.Sound) (h : StandsFor uri t)
    (hlast : t.lastName 0 = [46, 46]) : ¬ Below conf (cString (rootName conf uri)) := by
  rintro ⟨s, hpath, hs'⟩
  rw [cString_rootName hs h] at hpath
  rw [← List.append_cancel_left hpath] at hs'
  exact hs' ((h.ok.dotDot_mem_takeWhile (by decide)).2 hlast)

theorem plain_lastName (h : Plain t) : t.lastName 0 ≠ [46, 46] := by
  have hhead : ∀ n : List UInt8, n.head? ≠ some 46 → n.takeWhile (· ≠ 0) ≠ [46, 46] := by
    intro n hn heq
    cases n with
    | nil => cases heq
    | cons c n =>
      rw [List.takeWhile_cons] at heq
      split at heq
      · injection heq with hc _
        exact hn (by rw [hc]; rfl)
      · cases heq
  have names : ∀ ns : List (List UInt8), (∀ n ∈ ns, n.head? ≠ some 46) →
      (Trail.cut 0 ns t.cur).cur ≠ [46, 46] := by
    intro ns
    induction ns with
    | nil =>
      intro _
      exact hhead _ (h.noDot _ (by simp))
    | cons n ns ih =>
      intro hns
      unfold Trail.cut
      split
      · exact hhead n (hns n List.mem_cons_self)
      · exact ih fun n' hn' => hns n' (List.mem_cons_of_mem _ hn')
  exact names t.names fun n hn => h.noDot n (List.mem_append_left _ hn)

theorem trailOf_lastName {p : ParseState} {b : Buf} (ht : trailOf p b t) :
    t.lastName 0 = [46, 46] ↔ EndsInDotDot p b := by
  unfold trailOf at ht
  unfold EndsInDotDot
  cases hcomplex : p.complexUri with
  | true =>
    rw [hcomplex, if_pos rfl] at ht
    constructor
    · intro hlast
      exact ⟨rfl, t, ht, hlast⟩
    · rintro ⟨-, t', ht', hlast⟩
      rw [ht] at ht'
      cases ht'
      exact hlast
  | false =>
    rw [hcomplex, if_neg (by simp)] at ht
    constructor
    · intro hlast
      exact absurd hlast (plain_lastName ht.1)
    · rintro ⟨hc, -⟩
      cases hc

end

/-- The handler names the first of its two names, and nothing else but the second. -/
theorem fileWriterHandler_names {w : World} (halive : w.r.home ∉ w.t.destroyed)
    (hline : w.r.headersOut.statusLine = none) :
    wp fileWriterHandler
      (fun _ s => (∀ path ∈ s.t.paths, path ∈ w.t.paths ∨ path ∈ names w.conf w.r.uri) ∧
        cString (rootName w.conf w.r.uri) ∈ s.t.paths)
      (fun _ s => (∀ path ∈ s.t.paths, path ∈ w.t.paths ∨ path ∈ names w.conf w.r.uri) ∧
        (w.k.Reliable → cString (rootName w.conf w.r.uri) ∈ s.t.paths)) w := by
  have hfilling : ∀ {s : World}, w.Filling (names w.conf w.r.uri) s →
      ∀ path ∈ s.t.paths, path ∈ w.t.paths ∨ path ∈ names w.conf w.r.uri := by
    intro s hs path hpath
    obtain ⟨ps, os, ht, hps⟩ := hs.t
    rw [ht] at hpath
    rcases List.mem_append.1 hpath with hpath | hpath
    · exact Or.inl hpath
    · exact Or.inr (hps path hpath)
  apply fileWriterHandler_rule halive
  · intro s hs hrefuses
    exact ⟨hfilling hs, fun hr => absurd (hs.k.reliable.2 hr) hrefuses.not_reliable⟩
  · exact hline
  · intro s f ha hasked
    refine wp_mono (startWriting_names.wp s) ?_ ?_
    · intro _ s' hs'
      rw [hs']
      exact ⟨hfilling ha.toFilling, hasked⟩
    · intro _ s' hs'
      rw [hs']
      exact ⟨hfilling ha.toFilling, fun _ => hasked⟩

theorem after_fileWriterHandler {w : World} (halive : w.r.home ∉ w.t.destroyed)
    (hline : w.r.headersOut.statusLine = none) :
    (∀ path ∈ (after fileWriterHandler w).t.paths,
      path ∈ w.t.paths ∨ path ∈ names w.conf w.r.uri) ∧
    (w.k.Reliable → cString (rootName w.conf w.r.uri) ∈ (after fileWriterHandler w).t.paths) := by
  refine wp_after (P := fun s : World => (∀ path ∈ s.t.paths, path ∈ w.t.paths ∨
    path ∈ names w.conf w.r.uri) ∧ (w.k.Reliable → cString (rootName w.conf w.r.uri) ∈ s.t.paths)) ?_
  refine wp_mono (fileWriterHandler_names halive hline) ?_ fun _ _ h => h
  intro _ s hs
  exact ⟨hs.1, fun _ => hs.2⟩

theorem reading_withUri {w : World} (h : Reading w) (uri : Str) :
    Reading (w.onR fun r => { r with uri := uri }) :=
  ⟨⟨⟨⟨h.nodup, h.sound, h.hangup⟩, h.fd, h.closed, h.toOpen.pool, h.fresh⟩, h.data, h.home,
    h.requestPool, h.buf⟩, h.mask, h.writeHandler, h.headersOut, h.response⟩

/-- For an accepted request line, whatever the memory and the rest of the process
are like, every path that the handler gives to `stat` and `open` is below the
root: exactly when the path of the request does not end in two dots. -/
theorem below_root_iff {b b' : Buf} {p : ParseState} (hparse : parseRequestLine {} b = (.ok, p, b'))
    (haccept : ∃ uri, CopiedUri p b' uri) :
    (∀ w : World, Reading w → w.conf.Sound → CopiedUri p b' w.r.uri →
      ∀ path ∈ (after fileWriterHandler w).t.paths, path ∈ w.t.paths ∨ Below w.conf path) ↔
      ¬ EndsInDotDot p b' := by
  have hbytes : b'.bytes = b.bytes := by rw [(parseRequestLine_advances hparse).eq]
  have hpath : PathAt b'.bytes p (p.uriStart + p.uriLen) fun _ => True := by
    rw [hbytes]
    exact parseRequestLine_path hparse
  constructor
  · intro hall hends
    obtain ⟨uri, huri⟩ := haccept
    obtain ⟨t, ht, hstands⟩ := huri.standsFor hpath
    have hlast := (trailOf_lastName ht).2 hends
    -- a request with this path, of a process in which everything succeeds
    let w : World := (sampleRequest []).onR fun r => { r with uri := uri }
    have hreading : Reading w := reading_withUri (sampleRequest_reading []) uri
    have hnames := after_fileWriterHandler (w := w) hreading.alive (by rw [hreading.headersOut]; rfl)
    have hasked := hnames.2 (sampleKernel_reliable [] [])
    rcases hall w hreading ehdConfInit_sound huri _ hasked with hold | hbelow
    · cases hold
    · exact rootName_not_below ehdConfInit_sound hstands hlast hbelow
  · intro hends w hreading hsound huri path hpath'
    obtain ⟨t, ht, hstands⟩ := huri.standsFor hpath
    have hlast : t.lastName 0 ≠ [46, 46] := fun h => hends ((trailOf_lastName ht).1 h)
    have hnames := after_fileWriterHandler (w := w) hreading.alive (by rw [hreading.headersOut]; rfl)
    rcases hnames.1 path hpath' with hold | hname
    · exact Or.inl hold
    · exact Or.inr (names_below hsound hstands hlast path hname)

def lineBuf (line : String) : Buf := { bytes := ascii line, pos := 0, size := EHD_DEFAULT_BUF_SIZE }

/-- What `ehd_http_parse_request_line` stores for it, and where it leaves the buffer. -/
def lineState (line : String) : ParseState := (parseRequestLine {} (lineBuf line)).2.1

def lineRest (line : String) : Buf := (parseRequestLine {} (lineBuf line)).2.2

theorem copiedUri_of_accepted {p : ParseState} {b : Buf} (hcomplex : p.complexUri = true)
    (h : (uriLoop (.init (List.replicate (p.uriLen + 1) 0)) (target p b)).isSome = true) :
    ∃ uri, CopiedUri p b uri := by
  obtain ⟨s, hs⟩ := Option.isSome_iff_exists.1 h
  exact ⟨_, .complex hcomplex (by simp) hs⟩

theorem copiedUri_of_plain {p : ParseState} {b : Buf} {uri : Str} (area : List UInt8)
    (hplain : p.complexUri = false) (harea : area.length = p.uriLen + 1)
    (huri : uri = ⟨p.uriLen, cpystrn area (b.bytes.drop p.uriStart) (p.uriLen + 1)⟩) :
    CopiedUri p b uri := by
  rw [huri]
  exact .plain hplain harea

theorem below_root_resolved :
    ¬ EndsInDotDot (lineState "GET /a/%2E./..b HTTP/1.1\n") (lineRest "GET /a/%2E./..b HTTP/1.1\n") ∧
    ∀ w : World, Reading w → w.conf.Sound →
      CopiedUri (lineState "GET /a/%2E./..b HTTP/1.1\n") (lineRest "GET /a/%2E./..b HTTP/1.1\n")
        w.r.uri →
      ∀ path ∈ (after fileWriterHandler w).t.paths, path ∈ w.t.paths ∨ Below w.conf path := by
  have hparse : parseRequestLine {} (lineBuf "GET /a/%2E./..b HTTP/1.1\n") =
      (.ok, lineState "GET /a/%2E./..b HTTP/1.1\n", lineRest "GET /a/%2E./..b HTTP/1.1\n") := by
    decide +kernel
  have haccept : ∃ uri, CopiedUri (lineState "GET /a/%2E./..b HTTP/1.1\n")
      (lineRest "GET /a/%2E./..b HTTP/1.1\n") uri :=
    copiedUri_of_accepted (by decide +kernel) (by decide +kernel)
  have hresolve : resolve (target (lineState "GET /a/%2E./..b HTTP/1.1\n")
      (lineRest "GET /a/%2E./..b HTTP/1.1\n")) = some ⟨[], ascii "..b"⟩ := by
    decide +kernel
  have hends : ¬ EndsInDotDot (lineState "GET /a/%2E./..b HTTP/1.1\n")
      (lineRest "GET /a/%2E./..b HTTP/1.1\n") := by
    rintro ⟨-, t, ht, hlast⟩
    rw [hresolve] at ht
    cases ht
    exact absurd hlast (by decide +kernel)
  exact ⟨hends, (below_root_iff hparse haccept).2 hends⟩

/-- `GET /..` makes the handler ask for the directory above the root. -/
theorem above_root : ∃ (b b' : Buf) (p : ParseState) (w : World),
    parseRequestLine {} b = (.ok, p, b') ∧ Reading w ∧ w.conf.Sound ∧ CopiedUri p b' w.r.uri ∧
    ¬ ∀ path ∈ (after fileWriterHandler w).t.paths, path ∈ w.t.paths ∨ Below w.conf path := by
  have hloop : uriLoop (.init [0, 0, 0, 0])
      (target (lineState "GET /.. HTTP/1.1\n") (lineRest "GET /.. HTTP/1.1\n")) =
      some ⟨.dotDot, .usual, 0, 3, [47, 46, 46, 0], none⟩ := by
    decide +kernel
  refine ⟨lineBuf "GET /.. HTTP/1.1\n", lineRest "GET /.. HTTP/1.1\n",
    lineState "GET /.. HTTP/1.1\n",
    (sampleRequest []).onR fun r => { r with uri := ⟨3, [47, 46, 46, 0]⟩ }, by decide +kernel,
    reading_withUri (sampleRequest_reading []) _, ehdConfInit_sound,
    .complex (by decide +kernel) (by decide +kernel) hloop, ?_⟩
  intro hall
  have hasked : ascii "/var/www/html//.." ∈ (after fileWriterHandler
      ((sampleRequest []).onR fun r => { r with uri := ⟨3, [47, 46, 46, 0]⟩ })).t.paths := by
    decide +kernel
  rcases hall _ hasked with hold | ⟨s, hs, hsegments⟩
  · cases hold
  · have htail : s = ascii "/.." := by
      have hpath : ascii "/var/www/html/" ++ ascii "/.." = ascii "/var/www/html/" ++ s := hs
      exact (List.append_cancel_left hpath).symm
    rw [htail] at hsegments
    exact hsegments (by decide)

end Http

end Ehd
