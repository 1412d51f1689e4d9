import Ehttpd.Http.Heads
import Mathlib.Tactic.IntervalCases

namespace Ehd.Http

open Program

instance (value : List UInt8) : Decidable (Trimmed value) :=
  decidable_of_iff (value ≠ [] ∧ value.head? ≠ some 32 ∧ value.getLast? ≠ some 32)
    ⟨fun h => ⟨h.1, h.2.1, h.2.2⟩, fun h => ⟨h.nonempty, h.first, h.last⟩⟩

instance (value : List UInt8) : Decidable (OneLine value) :=
  decidable_of_iff (CR ∉ value ∧ LF ∉ value) ⟨fun h => ⟨h.1, h.2⟩, fun h => ⟨h.cr, h.lf⟩⟩

instance (name : List UInt8) : Decidable (HeaderName name) :=
  decidable_of_iff (name ≠ [] ∧ name.all isHeaderNameChar = true)
    ⟨fun h => ⟨h.1, List.all_eq_true.1 h.2⟩, fun h => ⟨h.nonempty, List.all_eq_true.2 h.chars⟩⟩

/-- A header with a value that holds no line end and takes little room. -/
structure Short (t : TableData) : Prop where
  name : HeaderName t.key.bytes
  trimmed : Trimmed t.value.bytes
  oneLine : OneLine t.value.bytes
  cost : headerCost t ≤ 64

theorem finalHeaders_entries {h : HeadersOut} (hserver : h.server = none)
    (hlength : h.contentLength = none) :
    (finalHeaders h).entries = h.headers.entries ++ serverHeader ::
      if h.contentLengthN > 0 then [contentLengthHeader h.contentLengthN.toNat] else [] := by
  unfold finalHeaders
  rw [hserver, hlength, if_pos rfl]
  by_cases hn : h.contentLengthN > 0
  · rw [if_pos ⟨rfl, hn⟩, if_pos hn, EList.entries_push, EList.entries_push, List.append_assoc]
    rfl
  · rw [if_neg fun hc => hn hc.2, if_neg hn, EList.entries_push]

theorem serverHeader_short : Short serverHeader := by
  constructor <;> decide

theorem htmlType_short : Short htmlType := by
  constructor <;> decide

theorem mime_short : ∀ e ∈ mime, HeaderName (ehdString "Content-Type").bytes ∧ Trimmed e.2 ∧
    OneLine e.2 ∧ e.2.length ≤ 32 := by
  decide

theorem contentType_short {uri : Str} {ty : List UInt8} (h : contentType uri = some ty) :
    Short ⟨ehdString "Content-Type", ⟨ty.length, ty⟩⟩ := by
  unfold contentType at h
  obtain ⟨e, he, rfl⟩ := Option.map_eq_some_iff.1 h
  obtain ⟨hname, htrimmed, hline, hlen⟩ := mime_short e (List.mem_of_find?_eq_some he)
  have hbytes : (⟨e.2.length, e.2⟩ : Str).bytes = e.2 := List.take_length
  refine ⟨hname, by rwa [hbytes], by rwa [hbytes], ?_⟩
  have hkey : (ehdString "Content-Type").len = 12 := by decide
  show (ehdString "Content-Type").len + e.2.length + 4 ≤ 64
  omega

/-- A decimal number is made of digits. -/
theorem decimal_digits (n : Nat) : decimal n ≠ [] ∧ ∀ c ∈ decimal n, isDigit c = true := by
  unfold decimal
  split
  · constructor
    · decide
    · intro c hc
      rw [List.mem_singleton.1 hc]
      decide
  · next hn =>
    constructor
    · intro h
      have hdigits : Nat.digits 10 n = [] := by simpa using h
      exact hn (Nat.digits_eq_nil_iff_eq_zero.1 hdigits)
    · intro c hc
      obtain ⟨d, hd, rfl⟩ := List.mem_map.1 hc
      have hlt : d < 10 := Nat.digits_lt_base (by omega) (List.mem_reverse.1 hd)
      interval_cases d <;> decide

theorem decimal_length_le {n : Nat} (hn : n < 2 ^ 63) : (decimal n).length ≤ 19 := by
  unfold decimal
  split
  · simp
  · rw [List.length_map, List.length_reverse]
    apply (Nat.digits_length_le_iff (by omega) _).2
    exact hn.trans (by norm_num)

theorem contentLengthHeader_value {n : Nat} (hn : n < 2 ^ 63) :
    (contentLengthHeader n).value.bytes = decimal n := by
  have hlen := decimal_length_le hn
  show (snprintf 20 (decimal n)).take (decimal n).length = decimal n
  unfold snprintf
  rw [List.take_append_of_le_length, List.take_take]
  · rw [Nat.min_eq_left (by omega), List.take_left]
  · rw [List.length_take, List.length_append, List.length_replicate]
    omega

theorem contentLengthHeader_short {n : Nat} (hn : n < 2 ^ 63) : Short (contentLengthHeader n) := by
  have hlen := decimal_length_le hn
  obtain ⟨hne, hdigits⟩ := decimal_digits n
  have hbytes := contentLengthHeader_value hn
  refine ⟨by show HeaderName (ehdString "Content-Length").bytes; decide, ?_, ?_, ?_⟩
  · rw [hbytes]
    refine ⟨hne, ?_, ?_⟩
    · intro h
      have := hdigits 32 (List.mem_of_mem_head? (by rw [h]; rfl))
      cases this
    · intro h
      have := hdigits 32 (List.mem_of_getLast? h)
      cases this
  · rw [hbytes]
    constructor
    · intro h
      have := hdigits _ h
      cases this
    · intro h
      have := hdigits _ h
      cases this
  · have hkey : (ehdString "Content-Length").len = 14 := by decide
    show (ehdString "Content-Length").len + (decimal n).length + 4 ≤ 64
    omega

/-- The value of `Location` is the path with a slash behind it. -/
theorem location_value {conf : Conf} {uri : Str} (hsound : conf.Sound)
    (hfits : uri.len ≤ uri.data.length) :
    (location conf uri).value.bytes = uri.bytes ++ [47] := by
  have hlen := uri_bytes_length hfits
  have harea : uri.len < (rootName conf uri).length := by
    rw [rootName_eq hsound]
    simp only [List.length_append, List.length_replicate]
    omega
  obtain ⟨c, rest, hrest⟩ : ∃ c rest, (rootName conf uri).drop uri.len = c :: rest :=
    List.exists_cons_of_ne_nil fun h => by
      have := List.drop_eq_nil_iff.1 h
      omega
  show ((memcpy (rootName conf uri) 0 uri.data uri.len).set uri.len 47).take (uri.len + 1) = _
  unfold memcpy
  rw [List.take_zero, List.nil_append, Nat.zero_add, hrest]
  show ((uri.bytes ++ c :: rest).set uri.len 47).take (uri.len + 1) = _
  rw [← hlen, List.set_append_right _ _ (Nat.le_refl _), Nat.sub_self, List.set_cons_zero,
    List.take_append, List.take_of_length_le (Nat.le_succ _), Nat.add_sub_cancel_left]
  rfl

/-- A stored path starts with a slash. -/
theorem StandsFor.head {uri : Str} {t : DotSegments.Trail UInt8} (h : StandsFor uri t) :
    uri.bytes.head? = some 47 := by
  have hcstr := h.cstr
  obtain ⟨rest, htext⟩ : ∃ rest, t.text 47 = 47 :: rest := ⟨_, rfl⟩
  rw [htext] at hcstr
  cases hbytes : uri.bytes with
  | nil =>
    rw [hbytes] at hcstr
    cases hcstr
  | cons c cs =>
    have hslash : cString (47 :: rest) = 47 :: cString rest := rfl
    rw [hbytes, hslash] at hcstr
    unfold cString at hcstr
    rw [List.takeWhile_cons] at hcstr
    split at hcstr
    · injection hcstr with hc _
      rw [hc]
      rfl
    · cases hcstr

theorem page_length_le {error : Nat} : (pageBody error).last ≤ 2000 := by
  have hpages : ∀ page ∈ errorPages, page.length ≤ 1000 := by decide +kernel
  have htail : errorTail.length ≤ 1000 := by decide
  have hpage : (errorPages.getD (errorIndex error) []).length ≤ 1000 := by
    rw [List.getD_eq_getElem?_getD]
    cases hget : errorPages[errorIndex error]? with
    | none => exact Nat.zero_le _
    | some page => exact hpages page (List.mem_of_getElem? hget)
  show ([] ++ errorPages.getD (errorIndex error) [] ++ errorTail).length ≤ 2000
  rw [List.nil_append, List.length_append]
  omega

/-- The list of headers of an answer: short ones, and the `Location` of a redirect. -/
structure Listed (conf : Conf) (uri : Str) (a : Answer) (ts : List TableData) : Prop where
  short : ∀ t ∈ ts, Short t ∨ a = .redirect ∧ t = location conf uri
  redirect : a = .redirect → location conf uri ∈ ts
  cost : (ts.map headerCost).sum ≤ 3 * 64 + headerCost (location conf uri)

theorem pageHeaders_entries {h : HeadersOut} {error : Nat} (hserver : h.server = none)
    (hlength : h.contentLength = none) :
    (finalHeaders (pageHeaders h error)).entries = h.headers.entries ++
      [htmlType, serverHeader, contentLengthHeader (pageBody error).last] := by
  have hpos : 0 < (pageBody error).last := by
    have htail : 0 < errorTail.length := by decide
    show 0 < ([] ++ errorPages.getD (errorIndex error) [] ++ errorTail).length
    rw [List.length_append]
    omega
  have hn : (pageHeaders h error).contentLengthN = (pageBody error).last := rfl
  have hentries : (pageHeaders h error).headers.entries = h.headers.entries ++ [htmlType] :=
    EList.entries_push _ _
  have hfinal := @finalHeaders_entries (pageHeaders h error) hserver hlength
  rw [hfinal, hn, if_pos (by omega), Int.toNat_natCast, hentries, List.append_assoc]
  rfl

theorem pageLength_short (error : Nat) : Short (contentLengthHeader (pageBody error).last) := by
  have hle := @page_length_le error
  exact contentLengthHeader_short (by omega)

theorem listed_page (conf : Conf) (uri : Str) (f : File) (error : Nat) :
    Listed conf uri (.page error)
      (finalHeaders ((Answer.page error).headersOut conf uri freshHeadersOut f)).entries := by
  have hentries : (finalHeaders ((Answer.page error).headersOut conf uri freshHeadersOut f)).entries =
      [htmlType, serverHeader, contentLengthHeader (pageBody error).last] :=
    pageHeaders_entries rfl rfl
  rw [hentries]
  refine ⟨?_, ?_, ?_⟩
  · intro t ht
    left
    simp only [List.mem_cons, List.not_mem_nil, or_false] at ht
    rcases ht with rfl | rfl | rfl
    · exact htmlType_short
    · exact serverHeader_short
    · exact pageLength_short error
  · intro h
    cases h
  · have hhtml := htmlType_short.cost
    have hserver := serverHeader_short.cost
    have hlength := (pageLength_short error).cost
    simp only [List.map_cons, List.map_nil, List.sum_cons, List.sum_nil]
    omega

theorem redirect_entries (conf : Conf) (uri : Str) (f : File) :
    (finalHeaders (Answer.redirect.headersOut conf uri freshHeadersOut f)).entries =
      [location conf uri, htmlType, serverHeader,
        contentLengthHeader (pageBody EHD_HTTP_MOVED_TEMPORARILY).last] :=
  pageHeaders_entries rfl rfl

theorem listed_redirect (conf : Conf) (uri : Str) (f : File) :
    Listed conf uri .redirect
      (finalHeaders (Answer.redirect.headersOut conf uri freshHeadersOut f)).entries := by
  rw [redirect_entries]
  refine ⟨?_, ?_, ?_⟩
  · intro t ht
    simp only [List.mem_cons, List.not_mem_nil, or_false] at ht
    rcases ht with rfl | rfl | rfl | rfl
    · exact Or.inr ⟨rfl, rfl⟩
    · exact Or.inl htmlType_short
    · exact Or.inl serverHeader_short
    · exact Or.inl (pageLength_short _)
  · intro _
    exact List.mem_cons_self
  · have hhtml := htmlType_short.cost
    have hserver := serverHeader_short.cost
    have hlength := (pageLength_short EHD_HTTP_MOVED_TEMPORARILY).cost
    simp only [List.map_cons, List.map_nil, List.sum_cons, List.sum_nil]
    omega

theorem file_entries (uri : Str) (f : File) :
    (finalHeaders (fileHeaders freshHeadersOut uri f)).entries =
      ((contentType uri).map fun ty => (⟨ehdString "Content-Type", ⟨ty.length, ty⟩⟩ : TableData)).toList
        ++ serverHeader :: if 0 < f.size then [contentLengthHeader f.size] else [] := by
  have hn : (fileHeaders freshHeadersOut uri f).contentLengthN = f.size := rfl
  rw [finalHeaders_entries rfl rfl, hn]
  simp only [gt_iff_lt, Nat.cast_pos, Int.toNat_natCast]
  congr 1
  unfold fileHeaders
  cases contentType uri with
  | none => rfl
  | some ty => exact EList.entries_push _ _

theorem listed_file (conf : Conf) (uri : Str) {f : File} (hf : f.Opened) (name : Str) :
    Listed conf uri (.file name)
      (finalHeaders ((Answer.file name).headersOut conf uri freshHeadersOut f)).entries := by
  have hentries : (finalHeaders ((Answer.file name).headersOut conf uri freshHeadersOut f)).entries =
      ((contentType uri).map fun ty => (⟨ehdString "Content-Type", ⟨ty.length, ty⟩⟩ : TableData)).toList
        ++ serverHeader :: if 0 < f.size then [contentLengthHeader f.size] else [] :=
    file_entries uri f
  rw [hentries]
  have hlength := contentLengthHeader_short hf.size
  have hshort : ∀ t ∈ ((contentType uri).map fun ty =>
      (⟨ehdString "Content-Type", ⟨ty.length, ty⟩⟩ : TableData)).toList, Short t := by
    intro t ht
    obtain ⟨ty, hty, rfl⟩ := Option.map_eq_some_iff.1 (Option.mem_toList.1 ht)
    exact contentType_short hty
  refine ⟨?_, ?_, ?_⟩
  · intro t ht
    left
    rcases List.mem_append.1 ht with ht | ht
    · exact hshort t ht
    · rcases List.mem_cons.1 ht with rfl | ht
      · exact serverHeader_short
      · split at ht
        · rw [List.mem_singleton.1 ht]
          exact hlength
        · cases ht
  · intro h
    cases h
  · have hserver := serverHeader_short.cost
    have hrest : ((if 0 < f.size then [contentLengthHeader f.size] else []).map headerCost).sum ≤ 64 := by
      split
      · rw [List.map_singleton, List.sum_singleton]
        exact hlength.cost
      · exact Nat.zero_le _
    rw [List.map_append, List.sum_append, List.map_cons, List.sum_cons]
    cases hty : contentType uri with
    | none =>
      simp only [Option.map_none, Option.toList_none, List.map_nil, List.sum_nil]
      omega
    | some ty =>
      have hcost := (contentType_short hty).cost
      simp only [Option.map_some, Option.toList_some, List.map_singleton, List.sum_singleton]
      omega

theorem listed_answer (conf : Conf) (uri : Str) {f : File} (hf : f.Opened) (a : Answer) :
    Listed conf uri a (finalHeaders (a.headersOut conf uri freshHeadersOut f)).entries := by
  cases a with
  | page error => exact listed_page conf uri f error
  | redirect => exact listed_redirect conf uri f
  | file name => exact listed_file conf uri hf name

section

variable {conf : Conf} {uri : Str} {f : File} {a : Answer}

/-- The head of an answer decodes unless it redirects to a path with a line end. -/
theorem headOf_decodes_iff {t : DotSegments.Trail UInt8} (hsound : conf.Sound)
    (hstands : StandsFor uri t) (hshort : uri.len ≤ 4097) (hf : f.Opened) {h : HeadersOut}
    (hh : h = a.headersOut conf uri freshHeadersOut f) (hline : (statusLine h).length ≤ 14) :
    Decodes (headOf h).bytes (statusLine h).length
      ((finalHeaders h).entries.map fun t => (t.key.bytes, t.value.bytes)) ↔
      ¬ (a = .redirect ∧ ¬ OneLine uri.bytes) := by
  have hlisted := listed_answer conf uri hf a
  rw [← hh] at hlisted
  have hvalue := location_value hsound hstands.fits
  have hkey : (ehdString "Location").len = 8 := by decide
  have hcost : headerCost (location conf uri) = 8 + (uri.len + 1) + 4 := by
    unfold headerCost location
    rw [hkey]
  constructor
  -- a header read back has no line end, and the redirect's would have one
  · rintro hdecodes ⟨hredirect, hends⟩
    have hmem : ((location conf uri).key.bytes, (location conf uri).value.bytes) ∈
        (finalHeaders h).entries.map fun t => (t.key.bytes, t.value.bytes) :=
      List.mem_map_of_mem (hlisted.redirect hredirect)
    have hclean := readHeaders_clean rfl hdecodes _ hmem
    rw [hvalue] at hclean
    apply hends
    constructor
    · intro hcr
      exact hclean.cr (List.mem_append_left _ hcr)
    · intro hlf
      exact hclean.lf (List.mem_append_left _ hlf)
  -- every other header is short, and its bytes are fixed
  · intro hends
    have hroom := hlisted.cost
    have hbytes := headOf_eq (h := h) (by omega)
    have hunread : (headAt (headOf h).bytes (statusLine h).length).unread =
        (finalHeaders h).entries.flatMap encodeHeader ++ CRLF := by
      show (headOf h).bytes.drop (statusLine h).length = _
      rw [hbytes, List.drop_left]
    have hgood : ∀ t ∈ (finalHeaders h).entries,
        HeaderName t.key.bytes ∧ HeaderValue t.value.bytes := by
      intro t ht
      rcases hlisted.short t ht with hs | ⟨hredirect, rfl⟩
      · exact ⟨hs.name, hs.trimmed, hs.oneLine⟩
      · have hclean : OneLine uri.bytes := by
          by_contra hno
          exact hends ⟨hredirect, hno⟩
        refine ⟨?_, ?_⟩
        · show HeaderName (ehdString "Location").bytes
          decide
        · rw [hvalue]
          refine ⟨⟨by simp, ?_, by simp⟩, ?_, ?_⟩
          · -- the path starts with a slash
            rw [List.head?_append, hstands.head]
            simp
          · intro hcr
            rcases List.mem_append.1 hcr with hcr | hcr
            · exact hclean.cr hcr
            · cases List.mem_singleton.1 hcr
          · intro hlf
            rcases List.mem_append.1 hlf with hlf | hlf
            · exact hclean.lf hlf
            · cases List.mem_singleton.1 hlf
    have hfuel : (finalHeaders h).entries.length < (headOf h).bytes.length + 1 := by
      have hlen := length_le_encodedHeaders (finalHeaders h).entries
      rw [hbytes, List.length_append, List.length_append]
      omega
    exact readHeaders_encode _ rfl hgood hunread hfuel

end

section

variable {w w' : World} {E : Stop → World → Prop}

/-- The client is sent to another path: `stat` says that the path names a
directory, and it does not end in a slash. -/
def Redirects (w : World) : Prop :=
  w.r.parse.method = .get ∧ w.r.uri.data.getD (w.r.uri.len - 1) 0 ≠ 47 ∧
    ∃ s, w.k.stat w.k.fsCalls (cString (rootName w.conf w.r.uri)) = some s ∧ s.mode = .dir

theorem answer_redirect_iff (w : World) : answer w.conf w.r w.k = .redirect ↔ Redirects w := by
  unfold answer Redirects fileAnswer directoryAnswer
  by_cases hget : w.r.parse.method = .get
  · rw [if_pos hget]
    cases hstat : w.k.stat w.k.fsCalls (cString (rootName w.conf w.r.uri)) with
    | none => simp
    | some s =>
      dsimp only
      by_cases hdir : s.mode = .dir
      · rw [if_pos hdir]
        by_cases hslash : w.r.uri.data.getD (w.r.uri.len - 1) 0 ≠ 47
        · rw [if_pos hslash]
          simp only [true_iff]
          exact ⟨hget, hslash, s, rfl, hdir⟩
        · rw [if_neg hslash]
          constructor
          · intro h
            split at h <;> cases h
          · rintro ⟨-, hne, -⟩
            exact absurd hne hslash
      · rw [if_neg hdir]
        constructor
        · intro h
          split at h <;> cases h
        · rintro ⟨-, -, s', hs', hdir'⟩
          cases hs'
          exact absurd hdir' hdir
  · rw [if_neg hget]
    simp [hget]

theorem answer_status (conf : Conf) (r : Request) (k : Kernel) (h : HeadersOut) (f : File) :
    ((answer conf r k).headersOut conf r.uri h f).status < 1000 := by
  unfold answer fileAnswer directoryAnswer
  split
  · split
    · exact show errorStatus EHD_HTTP_NOT_FOUND < 1000 by decide
    · split
      · split
        · exact show errorStatus EHD_HTTP_MOVED_TEMPORARILY < 1000 by decide
        · split
          · exact show errorStatus EHD_HTTP_FORBIDDEN < 1000 by decide
          · exact show 200 < 1000 by omega
      · split
        · exact show errorStatus EHD_HTTP_NOT_FOUND < 1000 by decide
        · exact show 200 < 1000 by omega
  · exact show errorStatus EHD_HTTP_NOT_IMPLEMENTED < 1000 by decide

/-- The head of the answer that has been built, decoded, gives `headers_out.headers`. -/
def HeadDecodes (w : World) : Prop :=
  ∃ head body, w.r.response.data.map Buf.bytes = [head, body] ∧
    statusLine w.r.headersOut <+: head ∧
    Decodes head (statusLine w.r.headersOut).length
      (w.r.headersOut.headers.entries.map fun t => (t.key.bytes, t.value.bytes))

structure SameHead (w w' : World) : Prop where
  headersOut : w'.r.headersOut = w.r.headersOut
  bytes : w'.r.response.data.map Buf.bytes = w.r.response.data.map Buf.bytes

theorem SameHead.decodes (h : SameHead w w') : HeadDecodes w' ↔ HeadDecodes w := by
  unfold HeadDecodes
  rw [h.headersOut, h.bytes]

/-- What sending leaves alone of a buffer: it moves only `pos` and `sys_offset`. -/
def still (b : Buf) : List UInt8 × Bool := (b.bytes, b.file.isSome)

structure SameChain (w w' : World) : Prop where
  headersOut : w'.r.headersOut = w.r.headersOut
  chain : w'.r.response.data.map still = w.r.response.data.map still

theorem SameChain.trans {w'' : World} (h : SameChain w w') (h' : SameChain w' w'') :
    SameChain w w'' :=
  ⟨h'.headersOut.trans h.headersOut, h'.chain.trans h.chain⟩

theorem SameChain.head (h : SameChain w w') : SameHead w w' := by
  have hbytes : ∀ bs : List Buf, bs.map Buf.bytes = (bs.map still).map Prod.fst := by
    intro bs
    rw [List.map_map]
    rfl
  exact ⟨h.headersOut, by rw [hbytes, hbytes, h.chain]⟩

theorem sameChain_of_r (h : w'.r = w.r) : SameChain w w' := ⟨by rw [h], by rw [h]⟩

theorem sameChain_wrote {last n : Nat} {b : Buf} {x : SendResult}
    (hb : w.r.response.data[last]? = some b) (h : w.Wrote w' last b n x) : SameChain w w' := by
  have hstill : still (b.advance n) = still b := by
    unfold still Buf.advance
    split
    · rfl
    · simp
  constructor
  · rw [h.r]
  · rw [h.r]
    show (w.r.response.data.set last (b.advance n)).map still = _
    rw [List.map_set, hstill]
    apply List.ext_getElem?
    intro i
    by_cases hi : last = i
    · rw [hi, List.getElem?_set_self', List.getElem?_map, ← hi, hb]
      rfl
    · rw [List.getElem?_set_ne hi]

theorem closeBoth_r (w : World) : w.closeBoth.r = w.r := by
  have hclose : ∀ v : World, v.closeConnection.r = v.r := by
    intro v
    unfold World.closeConnection
    split <;> rfl
  unfold World.closeBoth
  rw [hclose, World.closeRequest_r]

/-- The rounds of the writer, by induction on their number. -/
theorem writerLoop_sameChain : ∀ (fuel last : Nat) (w : World), Responding w → last < 2 →
    wp (writerLoop fuel last) (fun _ => SameChain w) (fun _ => SameChain w) w := by
  intro fuel
  induction fuel with
  | zero =>
    intro last w _ _
    exact ⟨rfl, rfl⟩
  | succ fuel ih =>
    intro last w hw hlast
    have hlast' : last < w.r.response.data.length := by
      rw [hw.two]
      exact hlast
    have hb : w.r.response.data[last]? = some w.r.response.data[last] :=
      List.getElem?_eq_getElem hlast'
    generalize w.r.response.data[last] = b at hb
    -- the rest of the rounds, after a transfer
    have hgo : ∀ w' n x last', w.Wrote w' last b n x → last' < 2 →
        wp (writerLoop fuel last') (fun _ => SameChain w) (fun _ => SameChain w) w' := by
      intro w' n x last' hwrote hlt
      have hsame := sameChain_wrote hb hwrote
      exact wp_mono (ih last' w' (hw.wrote hb hwrote) hlt) (fun _ _ h => hsame.trans h)
        fun _ _ h => hsame.trans h
    apply writerLoop_rule hb (hw.sendable b (List.mem_of_getElem? hb))
    constructor
    · intro w' m n hwrote _ _ _
      exact hgo w' _ _ _ hwrote hlast
    · intro w' m hwrote _ _ hne
      rw [hw.two] at hne
      exact hgo w' _ _ _ hwrote (by omega)
    · intro w' m hwrote _ _ _
      have hw' := hw.wrote hb hwrote
      have hsame := sameChain_wrote hb hwrote
      obtain ⟨inBuf, hbuf, -⟩ := hw'.buf
      obtain ⟨pool, hpool, -⟩ := hw'.requestPool
      apply keepAlive_rule hw'.alive hbuf hpool
      · exact hsame.trans (sameChain_of_r rfl)
      · intro _
        apply hsame.trans
        apply sameChain_of_r
        unfold World.closeConnection
        split <;> rfl
    · intro w' hwrote _
      exact sameChain_wrote hb hwrote
    · intro w' hstall _
      exact sameChain_of_r ((closeBoth_r w').trans hstall.r)
    · intro _ w' _ hstall
      exact sameChain_of_r hstall.r

theorem startWriting_sameChain {ns : List (List UInt8)} {a : Answer} {f : File} {w₀ : World}
    (hreading : Reading w₀) (ha : Answered ns w₀ w a f) :
    wp startWriting (fun _ => SameChain w) (fun _ s => w.k.Reliable → SameChain w s) w := by
  have hwriting := hreading.writing ha
  have hc := ha.c
  have hresponse := ha.response
  apply startWriting_rule (ha.alive hreading.alive)
  · rw [hc]
    exact hreading.data
  · rw [hc]
    exact hreading.home
  · rw [hresponse, hreading.response]
  · have hsame : SameChain w w.writing := ⟨rfl, rfl⟩
    exact wp_mono (writerLoop_sameChain _ 0 _ hwriting Nat.two_pos) (fun _ _ h => hsame.trans h)
      fun _ _ h _ => hsame.trans h
  · intro hfails hr
    exact absurd hr hfails.not_reliable

theorem CopiedUri.data_length {p : ParseState} {b : Buf} {uri : Str} (h : CopiedUri p b uri) :
    uri.data.length = p.uriLen + 1 := by
  cases h with
  | complex _ harea hloop =>
    rw [List.length_set, uriLoop_data hloop]
    exact harea
  | plain _ harea => rw [cpystrn_length, harea]

theorem CopiedUri.stands {b b' : Buf} {p : ParseState} {uri : Str} (h : CopiedUri p b' uri)
    (hparse : parseRequestLine {} b = (.ok, p, b')) : ∃ t, StandsFor uri t := by
  have hbytes : b'.bytes = b.bytes := by rw [(parseRequestLine_advances hparse).eq]
  have hpath := parseRequestLine_path hparse
  rw [← hbytes] at hpath
  obtain ⟨t, -, hstands⟩ := h.standsFor hpath
  exact ⟨t, hstands⟩

theorem CopiedUri.short {b b' : Buf} {p : ParseState} {uri : Str} (h : CopiedUri p b' uri)
    (hparse : parseRequestLine {} b = (.ok, p, b')) (hbuf : InBuf b) : uri.len ≤ 4097 := by
  have hbytes : b'.bytes = b.bytes := by rw [(parseRequestLine_advances hparse).eq]
  have hpath := parseRequestLine_path hparse
  have hle := hpath.le
  have hlast := hbuf.last
  have hsize := hbuf.size
  rw [← hbytes] at hpath
  obtain ⟨t, -, hstands⟩ := h.standsFor hpath
  have hfits := hstands.fits
  have hdata := h.data_length
  unfold Buf.last EHD_DEFAULT_BUF_SIZE at *
  omega

/-- Where the handler starts to write an answer, the chain holds its head and body. -/
structure HeadOf (conf : Conf) (uri : Str) (a : Answer) (f : File) (s : World) : Prop where
  headersOut : s.r.headersOut = { a.headersOut conf uri freshHeadersOut f with
    headers := finalHeaders (a.headersOut conf uri freshHeadersOut f) }
  bytes : s.r.response.data.map Buf.bytes =
    [(headOf (a.headersOut conf uri freshHeadersOut f)).bytes, (a.body f).bytes]

theorem Answered.head {b : Buf} {s : World} {a : Answer} {f : File} (hreading : Reading w)
    (ha : Answered (names w.conf w.r.uri) (w.handing b) s a f) : HeadOf w.conf w.r.uri a f s := by
  have hfresh : (w.handing b).r.headersOut = freshHeadersOut := hreading.headersOut
  constructor
  · rw [ha.headersOut, hfresh]
    rfl
  · rw [ha.response, hfresh]
    rfl

/-- What is true of every head that the handler may build is true of the one that it has
built, when it has. -/
theorem after_handler_head {P : World → Prop} (hreading : Reading w)
    (hdone : returns handler w = true ∨ w.k.Reliable)
    (hsame : ∀ s s', SameHead s s' → P s → P s')
    (hhead : ∀ s f, f.Opened → HeadOf w.conf w.r.uri (answer w.conf w.r w.k) f s → P s) :
    P (after handler w) := by
  obtain ⟨b, hb, -⟩ := hreading.buf
  have halive := hreading.alive
  have hfresh := hreading.headersOut
  have hhanding : Reading (w.handing b) := hreading.handing
  have hrun : wp handler (fun _ s => P s) (fun _ s => w.k.Reliable → P s) w := by
    apply handler_rule halive hb (by rw [hfresh]; rfl)
    · intro s hs hrefuses hr
      exact absurd (hs.k.reliable.2 hr) hrefuses.not_reliable
    · intro s f ha _
      have hs : P s := hhead s f ha.opened (ha.head hreading)
      have hsteady : s.k.Reliable ↔ w.k.Reliable := ha.k.reliable
      apply wp_mono (startWriting_sameChain hhanding ha)
      · intro _ s' h
        exact hsame s s' h.head hs
      · intro _ s' h hrel
        exact hsame s s' (h (hsteady.2 hrel)).head hs
  unfold wp at hrun
  unfold returns at hdone
  unfold after
  cases hx : handler w with
  | ok _ s =>
    rw [hx] at hrun
    exact hrun
  | error e s =>
    rw [hx] at hrun hdone
    apply hrun
    rcases hdone with hret | hrel
    · cases hret
    · exact hrel

theorem HeadOf.decodes_iff {t : DotSegments.Trail UInt8} {f : File} {s : World}
    (hsound : w.conf.Sound) (hstands : StandsFor w.r.uri t) (hshort : w.r.uri.len ≤ 4097)
    (hf : f.Opened) (h : HeadOf w.conf w.r.uri (answer w.conf w.r w.k) f s) :
    HeadDecodes s ↔ ¬ (answer w.conf w.r w.k = .redirect ∧ ¬ OneLine w.r.uri.bytes) := by
  obtain ⟨ho, hho⟩ : ∃ ho, ho = (answer w.conf w.r w.k).headersOut w.conf w.r.uri
    freshHeadersOut f := ⟨_, rfl⟩
  have hheaders := h.headersOut
  have hchain := h.bytes
  rw [← hho] at hheaders hchain
  have hstatus : ho.status < 1000 := by
    rw [hho]
    exact answer_status _ _ _ _ _
  have hline : ho.statusLine = none := by
    rw [hho]
    cases answer w.conf w.r w.k <;> rfl
  have hprefix : statusLine ho <+: (headOf ho).bytes := (headOf_extends ho).bytes
  rw [← headOf_decodes_iff hsound hstands hshort hf hho (statusLine_length_le hline hstatus)]
  unfold HeadDecodes
  rw [hchain, hheaders]
  constructor
  · rintro ⟨head, body, heq, -, hdecodes⟩
    injection heq with hhead _
    rw [← hhead] at hdecodes
    exact hdecodes
  · intro hdecodes
    exact ⟨_, _, rfl, hprefix, hdecodes⟩

/-- For an accepted request, whatever `stat` says: the head of the answer decodes to
the headers it was made of, exactly when the client is not sent to a path with
a line end in it. -/
theorem head_decodes_iff {b b' : Buf} {p : ParseState}
    (hparse : parseRequestLine {} b = (.ok, p, b')) (hbuf : InBuf b) (hreading : Reading w)
    (hsound : w.conf.Sound) (huri : CopiedUri p b' w.r.uri)
    (hdone : returns handler w = true ∨ w.k.Reliable) :
    HeadDecodes (after handler w) ↔
      ¬ (Redirects w ∧ (CR ∈ w.r.uri.bytes ∨ LF ∈ w.r.uri.bytes)) := by
  obtain ⟨t, hstands⟩ := huri.stands hparse
  have hshort := huri.short hparse hbuf
  have honeLine : ¬ OneLine w.r.uri.bytes ↔ CR ∈ w.r.uri.bytes ∨ LF ∈ w.r.uri.bytes := by
    constructor
    · intro h
      by_contra hno
      exact h ⟨fun hc => hno (Or.inl hc), fun hl => hno (Or.inr hl)⟩
    · rintro (hc | hl) h
      · exact h.cr hc
      · exact h.lf hl
  rw [← honeLine, ← answer_redirect_iff]
  apply after_handler_head (P := fun s => HeadDecodes s ↔
    ¬ (answer w.conf w.r w.k = .redirect ∧ ¬ OneLine w.r.uri.bytes)) hreading hdone
  · intro s s' hsame hs
    rw [hsame.decodes]
    exact hs
  · intro s f hf hhead
    exact hhead.decodes_iff hsound hstands hshort hf

end

def sampleRedirect (uri : Str) : World :=
  { sampleRequest [.sent 10000, .sent 10000] with
    r := { home := 0, pool := some 1, parse := { method := .get }, uri := uri
           headersOut := freshHeadersOut }
    k := { sampleKernel [] [.sent 10000, .sent 10000] with
      pools := 2, stat := fun _ _ => some ⟨.dir, 0, by decide⟩ } }

theorem sampleRedirect_reading (uri : Str) : Reading (sampleRedirect uri) := by
  have h := sampleRequest_reading [.sent 10000, .sent 10000]
  exact ⟨⟨⟨⟨h.nodup, h.sound, h.hangup⟩, h.fd, h.closed, h.toOpen.pool, h.fresh⟩, rfl, h.home,
    h.requestPool, h.buf⟩, rfl, rfl, rfl, rfl⟩

theorem sampleRedirect_reliable (uri : Str) : (sampleRedirect uri).k.Reliable :=
  ⟨fun _ _ => rfl, fun _ => rfl⟩

/-- The redirect from `/a` to `/a/` decodes. -/
theorem head_decodes_redirect :
    HeadDecodes (after handler (sampleRedirect ⟨2, ascii "/a\x00"⟩)) := by
  have hparse : parseRequestLine {} (lineBuf "GET /a HTTP/1.1\n") =
      (.ok, lineState "GET /a HTTP/1.1\n", lineRest "GET /a HTTP/1.1\n") := by
    decide
  have hbuf : InBuf (lineBuf "GET /a HTTP/1.1\n") := by
    constructor <;> decide
  have huri : CopiedUri (lineState "GET /a HTTP/1.1\n") (lineRest "GET /a HTTP/1.1\n")
      ⟨2, ascii "/a\x00"⟩ :=
    copiedUri_of_plain [0, 0, 0] (by decide) (by decide) (by decide)
  apply (head_decodes_iff hparse hbuf (sampleRedirect_reading _) ehdConfInit_sound huri
    (Or.inr (sampleRedirect_reliable _))).2
  rintro ⟨-, hends⟩
  revert hends
  decide

/-- A directory whose name holds an escaped line end puts two headers into the head. -/
theorem header_injected : ∃ (b b' : Buf) (p : ParseState) (w : World),
    parseRequestLine {} b = (.ok, p, b') ∧ InBuf b ∧ Reading w ∧ w.conf.Sound ∧
    CopiedUri p b' w.r.uri ∧ returns handler w = true ∧ ¬ HeadDecodes (after handler w) := by
  have hbuf : InBuf (lineBuf "GET /a%0d%0ab:c HTTP/1.1\n") := by
    constructor <;> decide
  have hloop : uriLoop (.init (List.replicate 12 0))
      (target (lineState "GET /a%0d%0ab:c HTTP/1.1\n") (lineRest "GET /a%0d%0ab:c HTTP/1.1\n")) =
      some ⟨.usual, .usual, 0, 7, ascii "/a\x0d\nb:c\x00\x00\x00\x00\x00", none⟩ := by
    decide
  refine ⟨_, lineRest "GET /a%0d%0ab:c HTTP/1.1\n", lineState "GET /a%0d%0ab:c HTTP/1.1\n",
    sampleRedirect ⟨7, ascii "/a\x0d\nb:c\x00\x00\x00\x00\x00"⟩, ?_, hbuf,
    sampleRedirect_reading _, ehdConfInit_sound, ?_, ?_, ?_⟩
  · decide
  · exact .complex (by decide) (by decide) hloop
  · decide +kernel
  · rintro ⟨head, body, hchain, -, hdecodes⟩
    have hhead : head = ((after handler (sampleRedirect
        ⟨7, ascii "/a\x0d\nb:c\x00\x00\x00\x00\x00"⟩)).r.response.data.map Buf.bytes).headD [] := by
      rw [hchain]
      rfl
    rw [hhead] at hdecodes
    unfold Decodes at hdecodes
    revert hdecodes
    decide +kernel

end Ehd.Http
