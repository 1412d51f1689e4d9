import Ehttpd.Http.RequestStream

namespace Ehd.Http

variable {C more : List UInt8} {p p' q q' : ParseState} {b b' : Buf} {r r' : Request}
  {es : List HeaderIn} {m k : Nat}

theorem inputBuf_at (h : b = inputBuf C b.pos) (hadv : Advances b b') : b' = inputBuf C b'.pos := by
  rw [hadv.eq, h]
  rfl

/-- The request line is being read, and `p` is what the parser has left. -/
structure OpenLine (C : List UInt8) (p : ParseState) (b : Buf) : Prop where
  buf : b = inputBuf C b.pos
  resume : ∀ more rc q x, rc = .ok ∨ rc = .again →
    parseRequestLine p (b.append more) = (rc, q, x) →
    parseRequestLine {} (inputBuf (C ++ more) 0) = (rc, q, x)

theorem openLine_new (C : List UInt8) : OpenLine C {} (inputBuf C 0) :=
  ⟨rfl, fun _ _ _ _ _ h => h⟩

theorem OpenLine.append (h : OpenLine C p b) (bs : List UInt8) :
    OpenLine (C ++ bs) p (b.append bs) where
  buf := by
    conv => lhs; rw [h.buf]
    rfl
  resume := by
    intro more rc q x hrc hparse
    have happend : (b.append bs).append more = b.append (bs ++ more) := by
      unfold Buf.append
      rw [List.append_assoc]
    rw [happend] at hparse
    rw [List.append_assoc]
    exact h.resume _ rc q x hrc hparse

theorem OpenLine.again (h : OpenLine C p b) (hb : b.pos ≤ b.last)
    (hparse : parseRequestLine p b = (.again, p', b')) : OpenLine C p' b' where
  buf := inputBuf_at h.buf (parseRequestLine_advances hparse)
  resume := by
    intro more rc q x hrc hmore
    exact h.resume more rc q x hrc (parseRequestLine_resume hb hparse more hrc hmore)

theorem OpenLine.done (h : OpenLine C p b) (hparse : parseRequestLine p b = (.ok, p', b')) :
    b' = inputBuf C b'.pos ∧ parseRequestLine {} (inputBuf C 0) = (.ok, p', inputBuf C b'.pos) := by
  have hb' := inputBuf_at h.buf (parseRequestLine_advances hparse)
  have hnil : b.append [] = b := by
    unfold Buf.append
    rw [List.append_nil]
  have hall := h.resume [] .ok p' b' (Or.inl rfl) (by rw [hnil]; exact hparse)
  rw [List.append_nil] at hall
  refine ⟨hb', ?_⟩
  rw [← hb']
  exact hall

/-- The bytes `X` of the buffer differ from `C` only before `k`, and not in the URI nor in
the headers `es`. -/
structure Terminated (C X : List UInt8) (p : ParseState) (es : List HeaderIn) (k : Nat) : Prop where
  length : X.length = C.length
  behind : X.drop k = C.drop k
  uri : (X.drop p.uriStart).take (p.uriEnd - p.uriStart) =
    (C.drop p.uriStart).take (p.uriEnd - p.uriStart)
  content : ∀ e ∈ es, e.content X = e.content C

theorem terminated_refl (C : List UInt8) (p : ParseState) (es : List HeaderIn) (k : Nat) :
    Terminated C C p es k := ⟨rfl, rfl, rfl, fun _ _ => rfl⟩

theorem piece_set {X : List UInt8} {start len i : Nat} (h : start + len ≤ i ∨ i < start)
    (x : UInt8) : ((X.set i x).drop start).take len = (X.drop start).take len := by
  rcases h with h | h
  · by_cases hle : start ≤ i
    · rw [List.drop_set, if_neg (by omega), List.take_set_of_le (by omega)]
    · omega
  · rw [List.drop_set, if_pos h]

/-- A terminator behind the URI, and outside of the headers. -/
theorem Terminated.put {X : List UInt8} {i : Nat} (h : Terminated C X p es k) (hik : i < k)
    (huri : p.uriEnd ≤ i)
    (hes : ∀ e ∈ es, (e.key.start + e.key.len ≤ i ∨ i < e.key.start) ∧
      (e.value.start + e.value.len ≤ i ∨ i < e.value.start)) :
    Terminated C (X.set i 0) p es k where
  length := by rw [List.length_set]; exact h.length
  behind := by rw [List.drop_set, if_pos hik]; exact h.behind
  uri := by
    rw [← h.uri]
    by_cases hstart : p.uriStart ≤ p.uriEnd
    · apply piece_set
      omega
    · rw [Nat.sub_eq_zero_of_le (by omega), List.take_zero, List.take_zero]
  content := by
    intro e he
    obtain ⟨hkey, hvalue⟩ := hes e he
    rw [← h.content e he]
    unfold HeaderIn.content
    rw [piece_set hkey, piece_set hvalue]

/-- A header behind `k` is the same in the buffer and in the bytes received. -/
theorem Terminated.push {X : List UInt8} {e : HeaderIn} (h : Terminated C X p es k)
    (hkey : k ≤ e.key.start) (hvalue : k ≤ e.value.start) {k' : Nat} (hk : k ≤ k') :
    Terminated C X p (es ++ [e]) k' := by
  have hdrop : ∀ start, k ≤ start → X.drop start = C.drop start := by
    intro start hle
    have h' := congrArg (List.drop (start - k)) h.behind
    rw [List.drop_drop, List.drop_drop, show k + (start - k) = start by omega] at h'
    exact h'
  refine ⟨h.length, hdrop k' hk, h.uri, ?_⟩
  intro e' he'
  rcases List.mem_append.1 he' with he' | he'
  · exact h.content e' he'
  · rw [List.mem_singleton.1 he']
    unfold HeaderIn.content
    rw [hdrop _ hkey, hdrop _ hvalue]

/-- A name with a terminator behind it. -/
theorem cString_terminated {X name : List UInt8} {i : Nat}
    (hname : (X.drop i).take name.length = name) (hzero : 0 ∉ name)
    (hend : X[i + name.length]? = some 0) : cString (X.drop i) = name := by
  have htail : (X.drop i).drop name.length = 0 :: X.drop (i + name.length + 1) := by
    obtain ⟨hlt, hget⟩ := List.getElem?_eq_some_iff.1 hend
    rw [List.drop_drop, List.drop_eq_getElem_cons hlt, hget]
  have hparts : X.drop i = name ++ 0 :: X.drop (i + name.length + 1) := by
    rw [← htail]
    conv => rhs; lhs; rw [← hname]
    exact (List.take_append_drop _ _).symm
  rw [hparts]
  unfold cString
  rw [List.takeWhile_append_of_pos]
  · simp
  · intro ch hch
    rw [decide_eq_true_iff]
    intro h
    exact hzero (h ▸ hch)

/-- A head whose request line and first headers have been read: the marks `p`, the headers
`es` and what the parser keeps, `q`, are those of one call after the other on `C`. -/
structure OpenBlock (C X : List UInt8) (p : ParseState) (m : Nat) (es : List HeaderIn)
    (q : ParseState) (k : Nat) (b : Buf) (r : Request) : Prop
    extends Terminated C X p es k where
  line : parseRequestLine {} (inputBuf C 0) = (.ok, p, inputBuf C m)
  path : pathAccepted p (inputBuf C m) = true
  lines : HeaderLines C p m es q k
  buf : b = inputBuf X b.pos
  le : k ≤ b.pos
  same : SameLine p r.parse
  entries : r.headersIn.headers.entries = es
  noted : Noted (es.map fun e => (e.content C).1) r.headersN r.headersIn.cookies.data
    r.headersIn.fields
  resume : ∀ more rc q' x, rc ≠ .invalidHeader →
    parseHeaderLine r.parse (inputBuf (C ++ more) b.pos) = (rc, q', x) →
    parseHeaderLine q (inputBuf (C ++ more) k) = (rc, { q' with uriExt := q.uriExt }, x)

namespace OpenBlock

variable {X : List UInt8}

theorem between (h : OpenBlock C X p m es q k b r) : Between C p m es q k := by
  obtain ⟨hstate, hproxy, hm⟩ := requestLine_between h.line
  exact h.lines.between hstate hproxy hm

theorem proxy (h : OpenBlock C X p m es q k b r) : r.parse.proxy = false := by
  rw [h.same.proxy]
  exact parseRequestLine_proxy rfl h.line

theorem unread (h : OpenBlock C X p m es q k b r) : b.unread = C.drop b.pos := by
  have hdrop := congrArg (List.drop (b.pos - k)) h.behind
  have hle := h.le
  rw [List.drop_drop, List.drop_drop, show k + (b.pos - k) = b.pos by omega] at hdrop
  rw [← hdrop]
  conv => lhs; rw [h.buf]
  rfl

theorem parse (h : OpenBlock C X p m es q k b r) {rc : Rc}
    (hparse : parseHeaderLine r.parse b = (rc, q', b')) :
    parseHeaderLine r.parse (inputBuf C b.pos) = (rc, q', inputBuf C b'.pos) := by
  apply parseHeaderLine_unread h.proxy _ _ hparse
  · rfl
  · exact h.unread.symm

theorem parse_all (h : OpenBlock C X p m es q k b r) {rc : Rc} (hrc : rc ≠ .invalidHeader)
    (hparse : parseHeaderLine r.parse b = (rc, q', b')) :
    parseHeaderLine q (inputBuf C k) = (rc, { q' with uriExt := q.uriExt }, inputBuf C b'.pos) := by
  have hall := h.resume [] rc q' (inputBuf C b'.pos) hrc
  rw [List.append_nil] at hall
  exact hall (h.parse hparse)

theorem uri_le (h : OpenBlock C X p m es q k b r) : p.uriEnd < k := by
  obtain ⟨e, -, -, huri, hlt⟩ := requestLine_ends h.line
  have hmany := h.between.many
  omega

/-- More bytes have arrived. -/
theorem append (h : OpenBlock C X p m es q k b r) (bs : List UInt8) :
    OpenBlock (C ++ bs) (X ++ bs) p m es q k (b.append bs) r := by
  have hb := h.between
  obtain ⟨hstate, hproxy, hm⟩ := requestLine_between h.line
  have huri := h.uri_le
  have hk := hb.le
  have hkX : k ≤ X.length := by
    rw [h.length]
    exact hk
  have hcontent : ∀ e ∈ es, ∀ Y : List UInt8, k ≤ Y.length → e.content (Y ++ bs) = e.content Y := by
    intro e he Y hY
    obtain ⟨hkey, hvalue⟩ := hb.inside e he
    exact content_append (by omega) (by omega) bs
  have hpath : p.uriStart + p.uriLen ≤ C.length := (parseRequestLine_path h.line).le
  refine ⟨⟨?_, ?_, ?_, ?_⟩, parseRequestLine_append (Nat.zero_le _) h.line bs, ?_,
    h.lines.append hstate hproxy hm bs, ?_, h.le, h.same, h.entries, ?_, ?_⟩
  · rw [List.length_append, List.length_append, h.length]
  · rw [List.drop_append_of_le_length hkX, List.drop_append_of_le_length hk, h.behind]
  · rw [uri_append (by omega) bs, uri_append (by omega) bs]
    exact h.uri
  · intro e he
    rw [hcontent e he X hkX, hcontent e he C hk]
    exact h.content e he
  · rw [pathAccepted_append hpath bs]
    exact h.path
  · conv => lhs; rw [h.buf]
    rfl
  · have hnames : (es.map fun e => (e.content (C ++ bs)).1) = es.map fun e => (e.content C).1 := by
      apply List.map_congr_left
      intro e he
      rw [hcontent e he C hk]
    rw [hnames]
    exact h.noted
  · intro more rc q' x hrc hparse
    rw [List.append_assoc] at hparse ⊢
    exact h.resume _ rc q' x hrc hparse

/-- The parser asks for more. -/
theorem again (h : OpenBlock C X p m es q k b r) (hb : b.pos ≤ b.last)
    (hparse : parseHeaderLine r.parse b = (.again, p', b')) :
    OpenBlock C X p m es q k b' { r with parse := p' } := by
  have hadv := parseHeaderLine_advances hparse
  refine ⟨h.toTerminated, h.line, h.path, h.lines, inputBuf_at h.buf hadv, h.le.trans hadv.le,
    h.same.trans (parseHeaderLine_sameLine hparse), h.entries, h.noted, ?_⟩
  intro more rc q' x hrc hmore
  have hlast : b.pos ≤ C.length := by
    have hX : b.last = X.length := by
      rw [h.buf]
      rfl
    rw [← h.length, ← hX]
    exact hb
  exact h.resume more rc q' x hrc
    (parseHeaderLine_resume hlast (h.parse hparse) more hrc hmore)

/-- A header has been read, and stored. -/
theorem headerStored (h : OpenBlock C X p m es q k b r)
    (hparse : parseHeaderLine r.parse b = (.ok, p', b')) (hr' : r'.parse = p')
    (hentries : r'.headersIn.headers.entries = r.headersIn.headers.entries ++ [p'.header])
    (hcount : r'.headersN = r.headersN + 1)
    (hnoted : (r'.headersIn.cookies.data, r'.headersIn.fields) = r.headersIn.noted
      (cString ((terminateHeader b' p'.header).bytes.drop p'.header.key.start))
      p'.header.key.len r.headersIn.headers.entries.length) :
    ∃ X', OpenBlock C X' p m (es ++ [p'.header]) { p' with uriExt := q.uriExt } b'.pos
      (terminateHeader b' p'.header) r' := by
  have hb := h.between
  have hadv := parseHeaderLine_advances hparse
  have hline := h.parse_all (by decide) hparse
  obtain ⟨name, value, ending, v, hheader, hunread, hq', hpos⟩ :=
    parseHeaderLine_line_parts hb.state (hb.same.proxy.trans (parseRequestLine_proxy rfl h.line))
      hline
  obtain ⟨hkey, hvalue, hend⟩ := header_inside hheader (r := q) k
  have hp' : p'.header = (q.headerMarks k name value).header := by
    have := congrArg ParseState.header hq'
    exact this
  rw [← hp'] at hkey hvalue hend
  change b'.pos = k + (headerLine name value ending).length at hpos
  have huri := h.uri_le
  have hbytes : b'.bytes = X := by
    rw [hadv.eq, h.buf]
    rfl
  have hstart : p'.header.key.start = k := by rw [hkey]
  have hlen : p'.header.key.len = name.length := by rw [hkey]
  -- the bytes of the name
  have hname : (C.drop k).take name.length = name := by
    change C.drop k = name ++ 58 :: (value ++ ending) ++ v at hunread
    rw [hunread, List.append_assoc]
    exact List.take_left
  have hterm : Terminated C ((X.set (k + name.length) 0).set
      (p'.header.value.start + p'.header.value.len) 0) p (es ++ [p'.header]) b'.pos := by
    have hpush := h.toTerminated.push (e := p'.header) (by omega) (by omega)
      (show k ≤ b'.pos by omega)
    refine (hpush.put (i := k + name.length) (by omega) (by omega) ?_).put (by omega) (by omega) ?_
    · intro e he
      rcases List.mem_append.1 he with he | he
      · obtain ⟨h₁, h₂⟩ := hb.inside e he
        omega
      · rw [List.mem_singleton.1 he]
        omega
    · intro e he
      rcases List.mem_append.1 he with he | he
      · obtain ⟨h₁, h₂⟩ := hb.inside e he
        omega
      · rw [List.mem_singleton.1 he]
        omega
  have hbuf : terminateHeader b' p'.header = inputBuf ((X.set (k + name.length) 0).set
      (p'.header.value.start + p'.header.value.len) 0) b'.pos := by
    unfold terminateHeader
    rw [hstart, hlen, hadv.eq, h.buf]
    rfl
  refine ⟨_, hterm, h.line, h.path, .snoc h.lines hline, hbuf, Nat.le_refl _, ?_, ?_, ?_, ?_⟩
  · rw [hr']
    exact h.same.trans (parseHeaderLine_sameLine hparse)
  · rw [hentries, h.entries]
  · have hzero : (0 : UInt8) ∉ name := by
      intro hmem
      have := hheader.chars 0 hmem
      unfold IsNameChar isUpper isLower isDigit at this
      simp at this
    have hcontent : (p'.header.content C).1 = name := by
      unfold HeaderIn.content
      rw [hstart, hlen]
      exact hname
    have hcstring : cString ((terminateHeader b' p'.header).bytes.drop p'.header.key.start) =
        name := by
      rw [hbuf, hstart]
      apply cString_terminated _ hzero
      · show ((X.set _ _).set _ _)[_]? = _
        rw [List.getElem?_set_ne (by omega), List.getElem?_set_self]
        rw [h.length]
        have hle := (parseHeaderLine_advances hline).le_unread
        rw [show (inputBuf C k).unread = C.drop k from rfl, List.length_drop] at hle
        change b'.pos ≤ k + (C.length - k) at hle
        have := hb.le
        omega
      · have hspan := congrArg Prod.fst (hterm.content p'.header (by simp))
        rw [hcontent] at hspan
        unfold HeaderIn.content at hspan
        rw [hstart, hlen] at hspan
        exact hspan
    rw [hcstring, hlen, h.entries] at hnoted
    rw [List.map_append, List.map_singleton, hcontent, hcount]
    have hpush := h.noted.push name
    rw [List.length_map, ← hnoted] at hpush
    exact hpush
  · rw [hr']
    intro more rc q' x _ hmore
    exact parseHeaderLine_uriExt q.uriExt hmore

/-- The head is complete. -/
theorem headerDone (h : OpenBlock C X p m es q k b r)
    (hparse : parseHeaderLine r.parse b = (.headerDone, p', b')) :
    HandedFrom C (handedOver { r with parse := p' } b') b'.pos := by
  have hadv := parseHeaderLine_advances hparse
  have hsame := h.same.trans (parseHeaderLine_sameLine hparse)
  have hparsed : HeadParsed C p m es q k b'.pos :=
    ⟨h.line, h.path, h.lines, _, h.parse_all (by decide) hparse⟩
  have hbytes : b'.bytes = X := by
    rw [hadv.eq, h.buf]
    rfl
  have hheaders : (handedOver { r with parse := p' } b').headers = es.map (·.content C) := by
    show (r.headersIn.headers.entries.map fun e => e.content b'.bytes) = _
    rw [h.entries, hbytes]
    exact List.map_congr_left h.content
  refine ⟨⟨p, m, es, q, k, hparsed, ?_⟩, ?_⟩
  · show Head.mk p'.method ((b'.bytes.drop p'.uriStart).take (p'.uriEnd - p'.uriStart)) _ = _
    rw [hbytes, hsame.method, hsame.uriStart, hsame.uriEnd, h.uri]
    exact congrArg (Head.mk _ _) hheaders
  · rw [hheaders, List.map_map]
    exact h.noted

end OpenBlock

/-- The header block starts behind the request line, which has been terminated. -/
theorem openBlock_start (hline : parseRequestLine {} (inputBuf C 0) = (.ok, p, inputBuf C m))
    (hpath : pathAccepted p (inputBuf C m) = true)
    (hparse : r.parse = { p with uriExt := r.parse.uriExt })
    (hentries : r.headersIn.headers.entries = []) (hcount : r.headersN = 0)
    (hcookies : r.headersIn.cookies.data = []) (hfields : ∀ f, r.headersIn.fields f = none) :
    ∃ X, OpenBlock C X p m [] p m ((inputBuf C m).putNul
      (p.requestStart + (p.requestEnd.getD 0 - p.requestStart))) r := by
  obtain ⟨e, he, hstart, huri, hlt⟩ := requestLine_ends hline
  have hend : p.requestStart + (p.requestEnd.getD 0 - p.requestStart) = e := by
    rw [he, Option.getD_some]
    omega
  have hterm : Terminated C (C.set e 0) p [] m :=
    (terminated_refl C p [] m).put hlt huri (by simp)
  rw [hend]
  refine ⟨_, hterm, hline, hpath, .nil, rfl, Nat.le_refl _, ?_, hentries, ?_, ?_⟩
  · rw [hparse]
    exact ⟨rfl, rfl, rfl, rfl⟩
  · rw [hcount, hcookies]
    exact noted_nil hfields
  · intro more rc q' x _ hmore
    rw [hparse] at hmore
    have hext := parseHeaderLine_uriExt p.uriExt hmore
    exact hext

end Ehd.Http
