import Ehttpd.Http.FileMemory
import Mathlib.Data.List.DropRight

namespace Ehd.Http

open Program DotSegments

section

variable {w : World}

/-- The handler asks for the root and the path, and then for one name only. -/
def AsksFor (w s : World) : Prop :=
  ∃ rest, s.t.paths = w.t.paths ++ cString (rootName w.conf w.r.uri) :: rest ∧
    ∀ path ∈ rest, path = laterName w.conf w.r.uri
      (w.k.stat w.k.fsCalls (cString (rootName w.conf w.r.uri)))

theorem asksFor_of_filling {s : World} (h : (asked w).Filling [laterName w.conf w.r.uri
    (w.k.stat w.k.fsCalls (cString (rootName w.conf w.r.uri)))] s) : AsksFor w s := by
  obtain ⟨ps, os, ht, hps⟩ := h.t
  refine ⟨ps, ?_, fun path hpath => List.mem_singleton.1 (hps path hpath)⟩
  rw [ht]
  show (w.t.paths ++ [_]) ++ ps = _
  rw [List.append_assoc]
  rfl

theorem fileWriterHandler_asksFor (hreading : Reading w)
    (hgot : w.k.allocOk w.c.readHandler w.k.allocs.length = true) :
    AsksFor w (after fileWriterHandler w) := by
  have hrun : wp fileWriterHandler (fun _ s => AsksFor w s) (fun _ s => AsksFor w s) w := by
    apply fileWriterHandler_asked hreading.alive (by rw [hreading.headersOut]; rfl)
      _ (List.mem_singleton.2 rfl)
    · intro s hs _
      exact asksFor_of_filling hs
    · intro s f ha
      have hs := asksFor_of_filling ha.toFilling
      have hkeep : ∀ s', s'.t.paths = s.t.paths → AsksFor w s' := by
        intro s' heq
        unfold AsksFor at hs ⊢
        rw [heq]
        exact hs
      exact wp_mono (startWriting_names.wp s) (fun _ s' h => hkeep s' h) fun _ s' h => hkeep s' h
    · intro hrefused
      rw [hgot] at hrefused
      cases hrefused
  exact wp_after hrun

end

/-- The names `ps` are those of `r->uri`: the root and all of the path, and then only that,
with the index behind it in a directory. -/
def WholeNames (conf : Conf) (uri : Str) (dir : Bool) (ps : List (List UInt8)) : Prop :=
  ∃ rest, ps = (conf.root.bytes ++ uri.bytes) :: rest ∧
    ∀ path ∈ rest, path = conf.root.bytes ++ uri.bytes ++ if dir then conf.index.bytes else []

def HasNul (p : ParseState) (b : Buf) : Prop := ∃ t, trailOf p b t ∧ 0 ∈ t.text 47

section

variable {conf : Conf} {uri : Str} {t : Trail UInt8}

theorem not_mem_cString (area : List UInt8) : 0 ∉ cString area := by
  intro hmem
  have h := List.mem_takeWhile_imp hmem
  simp at h

/-- The stored path holds a NUL when the path it stands for does. -/
theorem StandsFor.nul_iff (h : StandsFor uri t) : 0 ∈ uri.bytes ↔ 0 ∈ t.text 47 := by
  have hcstr := h.cstr
  constructor
  · intro hmem
    by_contra hnot
    rw [cString_of_not_mem hnot] at hcstr
    have hlen : (cString uri.bytes).length = uri.bytes.length := by
      rw [hcstr, uri_bytes_length h.fits, h.len]
    have hwhole : cString uri.bytes = uri.bytes :=
      (List.takeWhile_prefix _).eq_of_length hlen
    exact not_mem_cString uri.bytes (by rw [hwhole]; exact hmem)
  · intro hmem
    by_contra hnot
    rw [h.bytes hnot] at hnot
    exact hnot hmem

theorem root_bytes_eq (hs : conf.Sound) : conf.root.bytes = conf.root.data :=
  List.take_of_length_le hs.root.le

theorem index_bytes_eq (hs : conf.Sound) : conf.index.bytes = conf.index.data :=
  List.take_of_length_le hs.index.le

theorem cString_rootName_whole (hs : conf.Sound) (hnul : 0 ∉ uri.bytes) :
    cString (rootName conf uri) = conf.root.bytes ++ uri.bytes := by
  rw [rootName_eq hs, cString_append_of_not_mem hs.rootNul, cString_append_of_not_mem hnul,
    List.replicate_succ, root_bytes_eq hs]
  simp [cString]

theorem cString_indexName_whole (hs : conf.Sound) (hfits : uri.len ≤ uri.data.length)
    (hnul : 0 ∉ uri.bytes) :
    cString (indexName conf uri) = conf.root.bytes ++ uri.bytes ++ conf.index.bytes := by
  rw [indexName_eq hs hfits, cString_append_of_not_mem hs.rootNul, cString_append_of_not_mem hnul,
    cString_append_of_not_mem hs.indexNul, root_bytes_eq hs, index_bytes_eq hs, List.append_assoc]
  simp [cString]

theorem trailOf_unique {p : ParseState} {b : Buf} {t' : Trail UInt8} (h : trailOf p b t)
    (h' : trailOf p b t') : t.text 47 = t'.text 47 := by
  unfold trailOf at h h'
  split at h
  · rename_i hc
    rw [if_pos hc, h] at h'
    rw [Option.some.inj h']
  · rename_i hc
    rw [if_neg hc] at h'
    rw [← h.2, ← h'.2]

end

/-- For an accepted request that gets past the first `stat`, whatever that has said: every
string that the handler gives to `stat` and `open` is the root with all of `r->uri` behind
it, and in a directory the index, exactly when the path of the request holds no NUL. -/
theorem opens_what_it_checks_iff {b b' : Buf} {p : ParseState} {w : World} {s : Stat}
    (hparse : parseRequestLine {} b = (.ok, p, b')) (hreading : Reading w)
    (hsound : w.conf.Sound) (huri : CopiedUri p b' w.r.uri)
    (hgot : w.k.allocOk w.c.readHandler w.k.allocs.length = true)
    (hstat : w.k.stat w.k.fsCalls (cString (rootName w.conf w.r.uri)) = some s) :
    ∃ ps, (after fileWriterHandler w).t.paths = w.t.paths ++ ps ∧
      (WholeNames w.conf w.r.uri (s.mode = .dir) ps ↔ ¬ HasNul p b') := by
  have hbytes : b'.bytes = b.bytes := by rw [(parseRequestLine_advances hparse).eq]
  have hpath := parseRequestLine_path hparse
  rw [← hbytes] at hpath
  obtain ⟨t, ht, hstands⟩ := huri.standsFor hpath
  have hnul : HasNul p b' ↔ 0 ∈ w.r.uri.bytes := by
    rw [hstands.nul_iff]
    constructor
    · rintro ⟨t', ht', hmem⟩
      rw [trailOf_unique ht ht']
      exact hmem
    · intro hmem
      exact ⟨t, ht, hmem⟩
  obtain ⟨rest, hpaths, hrest⟩ := fileWriterHandler_asksFor hreading hgot
  refine ⟨_, hpaths, ?_⟩
  rw [hnul]
  constructor
  · rintro ⟨rest', hwhole, -⟩ hmem
    injection hwhole with hfirst _
    apply not_mem_cString (rootName w.conf w.r.uri)
    rw [hfirst]
    exact List.mem_append_right _ hmem
  · intro hnot
    refine ⟨rest, by rw [cString_rootName_whole hsound hnot], ?_⟩
    intro path hmem
    rw [hrest path hmem, hstat]
    unfold laterName
    by_cases hdir : s.mode = .dir
    · simp only [Option.any_some, hdir, decide_true, if_true]
      exact cString_indexName_whole hsound hstands.fits hnot
    · simp only [Option.any_some, hdir, decide_false, Bool.false_eq_true, if_false,
        List.append_nil]
      exact cString_rootName_whole hsound hnot

def sampleFile (uri : Str) : World :=
  { sampleRedirect uri with
    k := { (sampleRedirect uri).k with
      stat := fun _ _ => some ⟨.reg, 5, by decide⟩, openFd := fun _ _ => some 9 } }

theorem sampleFile_reading (uri : Str) : Reading (sampleFile uri) := by
  have h := sampleRedirect_reading uri
  exact ⟨⟨⟨⟨h.nodup, h.sound, h.hangup⟩, h.fd, h.closed, h.toOpen.pool, h.fresh⟩, rfl, h.home,
    h.requestPool, h.buf⟩, rfl, rfl, rfl, rfl⟩

/-- `GET /a.html HTTP/1.1` names one file. -/
theorem opens_what_it_checks_file :
    ∃ ps, (after fileWriterHandler (sampleFile ⟨7, ascii "/a.html\x00"⟩)).t.paths = [] ++ ps ∧
      WholeNames ehdConfInit ⟨7, ascii "/a.html\x00"⟩ false ps := by
  have hparse : parseRequestLine {} (lineBuf "GET /a.html HTTP/1.1\n") =
      (.ok, lineState "GET /a.html HTTP/1.1\n", lineRest "GET /a.html HTTP/1.1\n") := by
    decide
  have huri : CopiedUri (lineState "GET /a.html HTTP/1.1\n") (lineRest "GET /a.html HTTP/1.1\n")
      ⟨7, ascii "/a.html\x00"⟩ :=
    copiedUri_of_plain (List.replicate 8 0) (by decide) (by decide)
      (by decide)
  obtain ⟨ps, hpaths, hwhole⟩ := opens_what_it_checks_iff hparse (sampleFile_reading _)
    ehdConfInit_sound huri rfl rfl
  have hplain : (lineState "GET /a.html HTTP/1.1\n").complexUri = false := by decide
  have htarget : 0 ∉ target (lineState "GET /a.html HTTP/1.1\n")
      (lineRest "GET /a.html HTTP/1.1\n") := by
    decide
  refine ⟨ps, hpaths, hwhole.2 ?_⟩
  rintro ⟨t, ht, hnul⟩
  unfold trailOf at ht
  rw [if_neg (by rw [hplain]; decide)] at ht
  rw [ht.2] at htarget
  exact htarget hnul

/-- `GET /a%00b HTTP/1.1` is checked as `/a\0b`, and `/a` is opened. -/
theorem opens_another_name : ∃ (b b' : Buf) (p : ParseState) (w : World) (s : Stat),
    parseRequestLine {} b = (.ok, p, b') ∧ Reading w ∧ w.conf.Sound ∧ CopiedUri p b' w.r.uri ∧
    w.k.allocOk w.c.readHandler w.k.allocs.length = true ∧
    w.k.stat w.k.fsCalls (cString (rootName w.conf w.r.uri)) = some s ∧
    ¬ ∃ ps, (after fileWriterHandler w).t.paths = w.t.paths ++ ps ∧
      WholeNames w.conf w.r.uri (s.mode = .dir) ps := by
  have hloop : uriLoop (.init (List.replicate 7 0))
      (target (lineState "GET /a%00b HTTP/1.1\n") (lineRest "GET /a%00b HTTP/1.1\n")) =
      some ⟨.usual, .usual, 0, 4, ascii "/a\x00b\x00\x00\x00", none⟩ := by
    decide
  refine ⟨lineBuf "GET /a%00b HTTP/1.1\n", lineRest "GET /a%00b HTTP/1.1\n",
    lineState "GET /a%00b HTTP/1.1\n",
    sampleFile ⟨4, ascii "/a\x00b\x00\x00\x00"⟩, _,
    by decide, sampleFile_reading _, ehdConfInit_sound,
    .complex (by decide) (by decide) hloop, rfl, rfl, ?_⟩
  rintro ⟨ps, hpaths, rest, hps, -⟩
  have hfirst : (after fileWriterHandler
      (sampleFile ⟨4, ascii "/a\x00b\x00\x00\x00"⟩)).t.paths.head? =
      some (ascii "/var/www/html//a") := by
    decide +kernel
  rw [hpaths, hps] at hfirst
  have hwhole : ehdConfInit.root.bytes ++ ascii "/a\x00b" = ascii "/var/www/html//a" :=
    Option.some.inj hfirst
  exact absurd hwhole (by decide)

def lastSegment (path : List UInt8) : List UInt8 := path.rtakeWhile (· ≠ 47)

def extensionOf (path : List UInt8) : Option (List UInt8) :=
  if 46 ∈ lastSegment path then some ((lastSegment path).rtakeWhile (· ≠ 46)) else none

def typeOf (path : List UInt8) : Option (List UInt8) := (extensionOf path).bind fun ext => List.lookup ext mime

section

variable {xs ys : List UInt8} {a : UInt8}

theorem suffix_rtakeWhile_iff (h : a ∉ ys) : ys <:+ xs.rtakeWhile (· ≠ a) ↔ ys <:+ xs := by
  constructor
  · intro hsuffix
    exact hsuffix.trans (List.rtakeWhile_suffix _ _)
  · rintro ⟨zs, rfl⟩
    have hall : ∀ y ∈ ys.reverse, decide (y ≠ a) = true := by
      intro y hy
      rw [decide_eq_true_eq]
      rintro rfl
      exact h (List.mem_reverse.1 hy)
    unfold List.rtakeWhile
    rw [List.reverse_append, List.takeWhile_append_of_pos hall, List.reverse_append,
      List.reverse_reverse]
    exact List.suffix_append _ _

/-- What follows the last `a`. -/
theorem rtakeWhile_eq_iff (h : a ∉ ys) :
    a ∈ xs ∧ xs.rtakeWhile (· ≠ a) = ys ↔ (a :: ys) <:+ xs := by
  have hlast : ∀ zs us : List UInt8, a ∉ us → (zs ++ a :: us).rtakeWhile (· ≠ a) = us := by
    intro zs us hus
    have hall : ∀ y ∈ us.reverse, decide (y ≠ a) = true := by
      intro y hy
      rw [decide_eq_true_eq]
      rintro rfl
      exact hus (List.mem_reverse.1 hy)
    unfold List.rtakeWhile
    rw [List.reverse_append, List.reverse_cons, List.append_assoc,
      List.takeWhile_append_of_pos hall]
    simp
  constructor
  · rintro ⟨hmem, heq⟩
    obtain ⟨us, zs, hsplit, hus⟩ := List.eq_append_cons_of_mem (List.mem_reverse.2 hmem)
    have hxs : xs = zs.reverse ++ a :: us.reverse := by
      rw [← List.reverse_reverse xs, hsplit]
      simp
    have hus' : us.reverse = ys := by
      rw [← heq, hxs, hlast _ _ (by simpa using hus)]
    rw [hxs, hus']
    exact List.suffix_append _ _
  · rintro ⟨zs, rfl⟩
    exact ⟨by simp, hlast zs ys h⟩

theorem extensionOf_eq_some {path ext : List UInt8} (hdot : 46 ∉ ext) (hslash : 47 ∉ ext) :
    extensionOf path = some ext ↔ (46 :: ext) <:+ path := by
  have hslash' : (47 : UInt8) ∉ 46 :: ext := by
    intro hmem
    rcases List.mem_cons.1 hmem with heq | hmem
    · cases heq
    · exact hslash hmem
  rw [← suffix_rtakeWhile_iff hslash', ← rtakeWhile_eq_iff hdot]
  unfold extensionOf lastSegment
  rw [Option.ite_none_right_eq_some, Option.some.injEq]

end

theorem mime_no_dot : ∀ e ∈ mime, 46 ∉ e.1 := by decide

theorem mime_apart : ∀ e ∈ mime, ∀ e' ∈ mime, e.1 <:+ e'.1 → e = e' := by decide

theorem mime_lookup_iff {ext ty : List UInt8} : List.lookup ext mime = some ty ↔ (ext, ty) ∈ mime := by
  have hkeys : ∀ e ∈ mime, List.lookup e.1 mime = some e.2 := by decide
  constructor
  · intro h
    obtain ⟨l₁, l₂, hsplit, -⟩ := List.lookup_eq_some_iff.1 h
    rw [hsplit]
    simp
  · intro hmem
    exact hkeys _ hmem

theorem typeOf_iff {path ty : List UInt8} :
    typeOf path = some ty ↔ ∃ e ∈ mime, (46 :: e.1) <:+ path ∧ e.2 = ty := by
  unfold typeOf
  constructor
  · intro h
    obtain ⟨ext, hext, hlookup⟩ := Option.bind_eq_some_iff.1 h
    have hmem := mime_lookup_iff.1 hlookup
    rw [extensionOf_eq_some (mime_no_dot _ hmem) (mime_extensions _ hmem).2] at hext
    exact ⟨_, hmem, hext, rfl⟩
  · rintro ⟨e, hmem, hsuffix, rfl⟩
    rw [(extensionOf_eq_some (mime_no_dot _ hmem) (mime_extensions _ hmem).2).2 hsuffix]
    exact mime_lookup_iff.2 hmem

/-- The loop finds the entry whose extension the path ends in; there is one at most. -/
theorem contentType_iff {uri : Str} {ty : List UInt8} (h : StoredPath uri) :
    contentType uri = some ty ↔ ∃ e ∈ mime, e.1 <:+ uri.bytes ∧ e.2 = ty := by
  have hmatch : ∀ e ∈ mime, extMatches e.1 uri e.1.length = true ↔ e.1 <:+ uri.bytes := by
    intro e he
    obtain ⟨hlen, hslash⟩ := mime_extensions e he
    exact extMatches_iff h hlen hslash
  have hfound : ∀ e, mime.find? (fun e => extMatches e.1 uri e.1.length) = some e →
      e.1 <:+ uri.bytes := by
    intro e hfind
    have hfirst := List.find?_some (p := fun e : List UInt8 × List UInt8 =>
      extMatches e.1 uri e.1.length) hfind
    exact (hmatch e (List.mem_of_find?_eq_some hfind)).1 hfirst
  unfold contentType
  rw [Option.map_eq_some_iff]
  constructor
  · rintro ⟨e, hfind, rfl⟩
    have hmem := List.mem_of_find?_eq_some hfind
    exact ⟨e, hmem, hfound e hfind, rfl⟩
  · rintro ⟨e, hmem, hsuffix, rfl⟩
    have hsome : (mime.find? fun e => extMatches e.1 uri e.1.length).isSome := by
      rw [List.find?_isSome]
      exact ⟨e, hmem, (hmatch e hmem).2 hsuffix⟩
    obtain ⟨e', hfind⟩ := Option.isSome_iff_exists.1 hsome
    have hmem' := List.mem_of_find?_eq_some hfind
    have hsuffix' := hfound e' hfind
    refine ⟨e', hfind, ?_⟩
    rcases List.suffix_or_suffix_of_suffix hsuffix hsuffix' with hs | hs
    · rw [mime_apart e hmem e' hmem' hs]
    · rw [mime_apart e' hmem' e hmem hs]

/-- The types of two names agree when the table says the same of both. -/
theorem types_agree_iff {P Q : List UInt8 → Prop} :
    (∀ ty, (∃ e ∈ mime, P e.1 ∧ e.2 = ty) ↔ ∃ e ∈ mime, Q e.1 ∧ e.2 = ty) ↔
      ∀ e ∈ mime, P e.1 ↔ Q e.1 := by
  have htypes : ∀ e ∈ mime, ∀ e' ∈ mime, e.2 = e'.2 → e = e' := by decide
  constructor
  · intro h e he
    constructor
    · intro hp
      obtain ⟨e', he', hq, hty⟩ := (h e.2).1 ⟨e, he, hp, rfl⟩
      rw [← htypes e' he' e he hty]
      exact hq
    · intro hq
      obtain ⟨e', he', hp, hty⟩ := (h e.2).2 ⟨e, he, hq, rfl⟩
      rw [← htypes e' he' e he hty]
      exact hp
  · intro h ty
    constructor
    · rintro ⟨e, he, hp, hty⟩
      exact ⟨e, he, (h e he).1 hp, hty⟩
    · rintro ⟨e, he, hq, hty⟩
      exact ⟨e, he, (h e he).2 hq, hty⟩

/-- The head that has been built decodes, with the type of the name `path`. -/
def TypedByName (s : World) (path : List UInt8) : Prop :=
  ∃ head body hs, s.r.response.data.map Buf.bytes = [head, body] ∧
    statusLine s.r.headersOut <+: head ∧ Decodes head (statusLine s.r.headersOut).length hs ∧
    ∀ ty, (ascii "Content-Type", ty) ∈ hs ↔ typeOf path = some ty

/-- The path ends in the letters of an extension exactly when a dot and these letters end it
before its first NUL; and the index of a directory has no extension of the table. -/
def DotsTell (w : World) : Prop :=
  if (w.k.stat w.k.fsCalls (cString (rootName w.conf w.r.uri))).any fun s => s.mode = .dir then
    ∀ e ∈ mime, ¬ (46 :: e.1) <:+ cString (indexName w.conf w.r.uri)
  else ∀ e ∈ mime, e.1 <:+ w.r.uri.bytes ↔ (46 :: e.1) <:+ cString w.r.uri.bytes

section

variable {w s s' : World} {path : List UInt8}

theorem SameHead.typed (h : SameHead s s') : TypedByName s' path ↔ TypedByName s path := by
  unfold TypedByName
  rw [h.headersOut, h.bytes]

/-- The only header `Content-Type` of a file is the one that the loop over `mime` has pushed. -/
theorem file_type_iff (uri : Str) (f : File) (ty : List UInt8) :
    (ascii "Content-Type", ty) ∈ ((finalHeaders (fileHeaders freshHeadersOut uri f)).entries.map
      fun t => (t.key.bytes, t.value.bytes)) ↔ contentType uri = some ty := by
  have hserver : serverHeader.key.bytes ≠ ascii "Content-Type" := by decide
  have hlength : (contentLengthHeader f.size).key.bytes ≠ ascii "Content-Type" := by
    show (ehdString "Content-Length").bytes ≠ _
    decide
  have hkey : (ehdString "Content-Type").bytes = ascii "Content-Type" := by decide
  rw [file_entries, List.mem_map]
  constructor
  · rintro ⟨t, ht, heq⟩
    have hname : t.key.bytes = ascii "Content-Type" := congrArg Prod.fst heq
    have hvalue : t.value.bytes = ty := congrArg Prod.snd heq
    rcases List.mem_append.1 ht with ht | ht
    · obtain ⟨ty', hty', rfl⟩ := Option.map_eq_some_iff.1 (Option.mem_toList.1 ht)
      rw [hty', ← hvalue]
      show some ty' = some (ty'.take ty'.length)
      rw [List.take_length]
    · rcases List.mem_cons.1 ht with rfl | ht
      · exact absurd hname hserver
      · split at ht
        · rw [List.mem_singleton.1 ht] at hname
          exact absurd hname hlength
        · cases ht
  · intro h
    refine ⟨⟨ehdString "Content-Type", ⟨ty.length, ty⟩⟩, ?_, ?_⟩
    · rw [h]
      exact List.mem_append_left _ (List.mem_singleton.2 rfl)
    · rw [hkey]
      show (_, ty.take ty.length) = _
      rw [List.take_length]

/-- The head of a file gives the type that the loop has found. -/
theorem HeadOf.typed_iff {name : Str} {f : File} (hserved : answer w.conf w.r w.k = .file name)
    (h : HeadOf w.conf w.r.uri (answer w.conf w.r w.k) f s) (hdecodes : HeadDecodes s) :
    TypedByName s path ↔ ∀ ty, contentType w.r.uri = some ty ↔ typeOf path = some ty := by
  have hheaders := h.headersOut
  rw [hserved] at hheaders
  have hentries : ∀ ty, (ascii "Content-Type", ty) ∈ (s.r.headersOut.headers.entries.map
      fun t => (t.key.bytes, t.value.bytes)) ↔ contentType w.r.uri = some ty := by
    intro ty
    rw [hheaders]
    exact file_type_iff w.r.uri f ty
  obtain ⟨head, body, hchain, hprefix, hdecodes⟩ := hdecodes
  constructor
  · rintro ⟨head', body', hs, hchain', -, hdecodes', htyped⟩
    rw [hchain] at hchain'
    injection hchain' with hhead _
    rw [← hhead] at hdecodes'
    unfold Decodes at hdecodes hdecodes'
    rw [hdecodes] at hdecodes'
    have hsame : (s.r.headersOut.headers.entries.map fun t => (t.key.bytes, t.value.bytes)) = hs :=
      congrArg Prod.fst (Option.some.inj hdecodes')
    intro ty
    rw [← htyped ty, ← hentries ty, hsame]
  · intro htyped
    refine ⟨head, body, _, hchain, hprefix, hdecodes, ?_⟩
    intro ty
    rw [hentries ty]
    exact htyped ty

/-- The file that is served: the index of a directory, or the file at the path. -/
theorem answer_file {name : Str} (h : answer w.conf w.r w.k = .file name) :
    ∃ s, w.k.stat w.k.fsCalls (cString (rootName w.conf w.r.uri)) = some s ∧
      (s.mode = .dir ∧ w.r.uri.data.getD (w.r.uri.len - 1) 0 = 47 ∧
          name.data = indexName w.conf w.r.uri ∨
        s.mode ≠ .dir ∧ name.data = rootName w.conf w.r.uri) := by
  unfold answer fileAnswer at h
  split_ifs at h
  cases hstat : w.k.stat w.k.fsCalls (cString (rootName w.conf w.r.uri)) with
  | none =>
    rw [hstat] at h
    cases h
  | some s =>
    refine ⟨s, rfl, ?_⟩
    rw [hstat] at h
    dsimp only at h
    by_cases hdir : s.mode = .dir
    · rw [if_pos hdir] at h
      unfold directoryAnswer at h
      split at h
      · cases h
      · rename_i hslash
        split at h
        · cases h
        · cases h
          exact Or.inl ⟨hdir, not_not.1 hslash, rfl⟩
    · rw [if_neg hdir] at h
      split at h
      · cases h
      · cases h
        exact Or.inr ⟨hdir, rfl⟩

theorem not_suffix_of_slash {uri : Str} {ext : List UInt8} (h : StoredPath uri) (hne : ext ≠ [])
    (hslash : 47 ∉ ext) (hlast : uri.data.getD (uri.len - 1) 0 = 47) : ¬ ext <:+ uri.bytes := by
  intro hsuffix
  have hpos := h.nonempty
  have hfits := h.fits
  have hend : uri.bytes.getLast? = some 47 := by
    rw [List.getLast?_eq_getElem?, uri_bytes_length hfits]
    unfold Str.bytes
    rw [List.getElem?_take, if_pos (by omega), ← hlast, List.getD_eq_getElem?_getD,
      List.getElem?_eq_getElem (by omega)]
    rfl
  obtain ⟨xs, hxs⟩ := hsuffix
  rw [← hxs, List.getLast?_append_of_ne_nil _ hne] at hend
  exact hslash (List.mem_of_getLast? hend)

theorem suffix_of_root {root path ext : List UInt8} (hhead : path.head? = some 47)
    (hslash : 47 ∉ ext) : ext <:+ root ++ path ↔ ext <:+ path := by
  constructor
  · intro hsuffix
    rcases List.suffix_or_suffix_of_suffix hsuffix (List.suffix_append root path) with h | h
    · exact h
    · exact absurd (h.subset (List.mem_of_mem_head? hhead)) hslash
  · intro hsuffix
    exact hsuffix.trans (List.suffix_append _ _)

/-- For an accepted request that is answered with a file: the head has the type of the file
that is opened, by the extension of its name, exactly when dots tell the extensions. -/
theorem content_type_iff {b b' : Buf} {p : ParseState} {name : Str}
    (hparse : parseRequestLine {} b = (.ok, p, b')) (hbuf : InBuf b) (hreading : Reading w)
    (hsound : w.conf.Sound) (huri : CopiedUri p b' w.r.uri)
    (hserved : answer w.conf w.r w.k = .file name)
    (hdone : returns handler w = true ∨ w.k.Reliable) :
    TypedByName (after handler w) (cString name.data) ↔ DotsTell w := by
  obtain ⟨t, hstands⟩ := huri.stands hparse
  have hshort := huri.short hparse hbuf
  have hstored := huri.stored hparse (by
    have hlast := hbuf.last
    have hsize := hbuf.size
    unfold Buf.last EHD_DEFAULT_BUF_SIZE at *
    omega)
  -- both sides ask the same of every extension of the table
  have htypes : (∀ ty, contentType w.r.uri = some ty ↔ typeOf (cString name.data) = some ty) ↔
      ∀ e ∈ mime, e.1 <:+ w.r.uri.bytes ↔ (46 :: e.1) <:+ cString name.data := by
    simp only [contentType_iff hstored, typeOf_iff]
    exact types_agree_iff (P := fun ext => ext <:+ w.r.uri.bytes)
      (Q := fun ext => (46 :: ext) <:+ cString name.data)
  have hname : TypedByName (after handler w) (cString name.data) ↔
      ∀ e ∈ mime, e.1 <:+ w.r.uri.bytes ↔ (46 :: e.1) <:+ cString name.data := by
    rw [← htypes]
    apply after_handler_head (P := fun s => TypedByName s (cString name.data) ↔
      ∀ ty, contentType w.r.uri = some ty ↔ typeOf (cString name.data) = some ty) hreading hdone
    · intro s s' hsame hs
      rw [hsame.typed]
      exact hs
    · intro s f hf hhead
      apply hhead.typed_iff hserved
      rw [hhead.decodes_iff hsound hstands hshort hf, hserved]
      rintro ⟨hredirect, -⟩
      cases hredirect
  rw [hname]
  unfold DotsTell
  obtain ⟨s, hstat, ⟨hdir, hlast, hdata⟩ | ⟨hdir, hdata⟩⟩ := answer_file hserved
  · -- no extension ends the path of a directory
    have hempty : ∀ e ∈ mime, e.1 ≠ [] := by decide
    rw [hstat, if_pos (by simpa using hdir), hdata]
    apply forall₂_congr
    intro e he
    have hnot := not_suffix_of_slash hstored (hempty e he) (mime_extensions e he).2 hlast
    constructor
    · intro h hsuffix
      exact hnot (h.2 hsuffix)
    · intro h
      exact ⟨fun hsuffix => absurd hsuffix hnot, fun hsuffix => absurd hsuffix h⟩
  · rw [hstat, if_neg (by simpa using hdir), hdata, cString_rootName hsound hstands, ← hstands.cstr]
    apply forall₂_congr
    intro e he
    -- the opened name ends as the path does, and a dot is no part of the root
    have hhead : (cString w.r.uri.bytes).head? = some 47 := by
      rw [hstands.cstr]
      rfl
    have hslash : (47 : UInt8) ∉ 46 :: e.1 := by
      intro hmem
      rcases List.mem_cons.1 hmem with heq | hmem
      · cases heq
      · exact (mime_extensions e he).2 hmem
    rw [suffix_of_root hhead hslash]

end

/-- A file that is served with its type. -/
theorem content_type_html :
    TypedByName (after handler (sampleFile ⟨7, ascii "/a.html\x00"⟩))
      (ascii "/var/www/html//a.html") := by
  have hparse : parseRequestLine {} (lineBuf "GET /a.html HTTP/1.1\n") =
      (.ok, lineState "GET /a.html HTTP/1.1\n", lineRest "GET /a.html HTTP/1.1\n") := by
    decide
  have hbuf : InBuf (lineBuf "GET /a.html HTTP/1.1\n") := by
    constructor <;> decide
  have huri : CopiedUri (lineState "GET /a.html HTTP/1.1\n") (lineRest "GET /a.html HTTP/1.1\n")
      ⟨7, ascii "/a.html\x00"⟩ :=
    copiedUri_of_plain (List.replicate 8 0) (by decide) (by decide)
      (by decide)
  have hserved : answer ehdConfInit (sampleFile ⟨7, ascii "/a.html\x00"⟩).r
      (sampleFile ⟨7, ascii "/a.html\x00"⟩).k =
      .file ⟨21, rootName ehdConfInit ⟨7, ascii "/a.html\x00"⟩⟩ := by
    decide
  have htyped := content_type_iff hparse hbuf (sampleFile_reading _) ehdConfInit_sound huri hserved
    (Or.inr ⟨fun _ _ => rfl, fun _ => rfl⟩)
  have hname : cString (rootName ehdConfInit ⟨7, ascii "/a.html\x00"⟩) =
      ascii "/var/www/html//a.html" := by
    decide
  have htell : DotsTell (sampleFile ⟨7, ascii "/a.html\x00"⟩) := by
    unfold DotsTell
    decide
  rw [← hname]
  exact htyped.2 htell

/-- `GET /ahtml HTTP/1.1` gets the type of HTML, which no dot in the name of the file says. -/
theorem content_type_without_dot : ∃ (b b' : Buf) (p : ParseState) (w : World) (name : Str),
    parseRequestLine {} b = (.ok, p, b') ∧ InBuf b ∧ Reading w ∧ w.conf.Sound ∧
    CopiedUri p b' w.r.uri ∧ answer w.conf w.r w.k = .file name ∧ returns handler w = true ∧
    ¬ TypedByName (after handler w) (cString name.data) := by
  have hbuf : InBuf (lineBuf "GET /ahtml HTTP/1.1\n") := by
    constructor <;> decide
  have huri : CopiedUri (lineState "GET /ahtml HTTP/1.1\n") (lineRest "GET /ahtml HTTP/1.1\n")
      ⟨6, ascii "/ahtml\x00"⟩ :=
    copiedUri_of_plain (List.replicate 7 0) (by decide) (by decide)
      (by decide)
  refine ⟨lineBuf "GET /ahtml HTTP/1.1\n", lineRest "GET /ahtml HTTP/1.1\n",
    lineState "GET /ahtml HTTP/1.1\n", sampleFile ⟨6, ascii "/ahtml\x00"⟩,
    ⟨20, rootName ehdConfInit ⟨6, ascii "/ahtml\x00"⟩⟩, by decide, hbuf,
    sampleFile_reading _, ehdConfInit_sound, huri, by decide, by decide +kernel, ?_⟩
  rintro ⟨head, body, hs, hchain, hprefix, hdecodes, htyped⟩
  have hhead : head = ((after handler (sampleFile ⟨6, ascii "/ahtml\x00"⟩)).r.response.data.map
      Buf.bytes).headD [] := by
    rw [hchain]
    rfl
  have hline : (statusLine (after handler
      (sampleFile ⟨6, ascii "/ahtml\x00"⟩)).r.headersOut).length = 14 := by
    decide +kernel
  have hread : Decodes (((after handler (sampleFile ⟨6, ascii "/ahtml\x00"⟩)).r.response.data.map
      Buf.bytes).headD []) 14
      [(ascii "Content-Type", ascii "text/html"), (ascii "Server", EHD_VERSION),
        (ascii "Content-Length", ascii "5")] := by
    unfold Decodes
    decide +kernel
  rw [hhead, hline] at hdecodes
  unfold Decodes at hdecodes hread
  rw [hread] at hdecodes
  have hs' : _ = hs := congrArg Prod.fst (Option.some.inj hdecodes)
  have hnone : typeOf (cString (rootName ehdConfInit ⟨6, ascii "/ahtml\x00"⟩)) = none := by
    decide
  have hmem := (htyped (ascii "text/html")).1 (by rw [← hs']; exact List.mem_cons_self)
  rw [hnone] at hmem
  cases hmem

end Ehd.Http
