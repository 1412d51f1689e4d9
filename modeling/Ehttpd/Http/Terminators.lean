import Ehttpd.Http.Chunks

namespace Ehd.Http

open Program World

variable {w w' : World} {b b' : Buf} {p q q' : ParseState} {ss : List Span}

def IsDelimiter (ch : UInt8) : Prop := ch = CR ∨ ch = LF ∨ ch = 58 ∨ ch = 32

/-- `b'` is `b` with a NUL for a delimiter that has been read and lies in none of the spans. -/
structure Harmless (ss : List Span) (b b' : Buf) : Prop where
  put : ∃ off ch, b' = b.putNul off ∧ off < b.pos ∧ b.bytes[off]? = some ch ∧ IsDelimiter ch ∧
    ∀ s ∈ ss, off < s.start ∨ s.start + s.len ≤ off
  unread : b'.unread = b.unread
  kept : ∀ s ∈ ss, b'.span s.start s.len = b.span s.start s.len

theorem harmless_putNul {off : Nat} {ch : UInt8} (hpos : off < b.pos)
    (hch : b.bytes[off]? = some ch) (hdelimiter : IsDelimiter ch)
    (houtside : ∀ s ∈ ss, off < s.start ∨ s.start + s.len ≤ off) :
    Harmless ss b (b.putNul off) where
  put := ⟨off, ch, rfl, hpos, hch, hdelimiter, houtside⟩
  unread := by
    show (b.bytes.set off 0).drop b.pos = b.bytes.drop b.pos
    rw [List.drop_set, if_pos hpos]
  kept := by
    intro s hs
    exact piece_set (houtside s hs).symm 0

/-- What is recorded of a request line: the line, the method, `method_name` with the space
behind the method, and the URI. -/
def ParseState.lineSpans (p : ParseState) : List Span :=
  [⟨p.requestStart, p.requestEnd.getD 0 - p.requestStart⟩,
    ⟨p.requestStart, p.methodEnd - p.requestStart⟩,
    ⟨p.requestStart, p.methodEnd - p.requestStart + 1⟩,
    ⟨p.uriStart, p.uriEnd - p.uriStart⟩]

/-- They lie before what ends the line. -/
theorem Ordered.lineSpans {bytes : List UInt8} {pos e : Nat} (h : Ordered bytes p pos)
    (he : p.requestEnd = some e) : ∀ s ∈ p.lineSpans, s.start + s.len ≤ e := by
  obtain ⟨e', he', huri, -, -⟩ := h.line
  have hsame : e' = e := Option.some.inj (he'.symm.trans he)
  have hmethod := h.method
  have hstart := h.uriStart
  have hpath := h.uri
  intro s hs
  unfold ParseState.lineSpans at hs
  rw [he, Option.getD_some] at hs
  simp only [List.mem_cons, List.not_mem_nil, or_false] at hs
  rcases hs with rfl | rfl | rfl | rfl
  · show p.requestStart + (e - p.requestStart) ≤ e
    omega
  · show p.requestStart + (p.methodEnd - p.requestStart) ≤ e
    omega
  · show p.requestStart + (p.methodEnd - p.requestStart + 1) ≤ e
    omega
  · show p.uriStart + (p.uriEnd - p.uriStart) ≤ e
    omega

theorem putLineNul_harmless (h : Ordered b.bytes p b.pos) :
    Harmless p.lineSpans b (putLineNul p b) := by
  obtain ⟨e, he, huri, hlt, hends⟩ := h.line
  have hmethod := h.method
  have hstart := h.uriStart
  have hpath := h.uri
  have hoff : p.requestStart + (p.requestEnd.getD 0 - p.requestStart) = e := by
    rw [he, Option.getD_some]
    omega
  unfold putLineNul
  rw [hoff]
  have houtside : ∀ s ∈ p.lineSpans, e < s.start ∨ s.start + s.len ≤ e :=
    fun s hs => Or.inr (h.lineSpans he s hs)
  rcases hends with hcr | hlf
  · exact harmless_putNul hlt hcr (Or.inl rfl) houtside
  · exact harmless_putNul hlt hlf (Or.inr (Or.inl rfl)) houtside

/-- No length that is computed from the marks of a request line wraps around: each is the
difference of two marks in order. -/
structure NoUnderflow (p : ParseState) : Prop where
  line : p.requestStart ≤ p.requestEnd.getD 0
  method : p.requestStart ≤ p.methodEnd
  unparsed : p.uriStart ≤ p.uriEnd
  path : p.uriStart + p.uriLen = p.pathEnd p.uriEnd
  exten : ∀ x, p.uriExt = some x → x ≤ p.pathEnd p.uriEnd

/-- The path lies in the URI, and a complex path has lost the mark of its extension when the
extension is copied. -/
theorem Ordered.noUnderflow {bytes : List UInt8} {pos : Nat} (h : Ordered bytes p pos) :
    NoUnderflow { p with uriExt := if p.complexUri then none else p.uriExt } := by
  obtain ⟨e, he, huri, -, -⟩ := h.line
  have hmethod := h.method
  have hstart := h.uriStart
  have hpath := h.uri
  refine ⟨?_, by show p.requestStart ≤ p.methodEnd; omega, by show p.uriStart ≤ p.uriEnd; omega, ?_,
    ?_⟩
  · show p.requestStart ≤ p.requestEnd.getD 0
    rw [he, Option.getD_some]
    omega
  · show p.uriStart + p.uriLen = p.pathEnd p.uriEnd
    unfold ParseState.uriLen ParseState.pathEnd
    cases hargs : p.argsStart with
    | none =>
      show p.uriStart + (p.uriEnd - p.uriStart) = p.uriEnd
      omega
    | some a =>
      have := h.args a hargs
      show p.uriStart + (a - 1 - p.uriStart) = a - 1
      omega
  · intro x hx
    change (if p.complexUri then none else p.uriExt) = some x at hx
    cases hcomplex : p.complexUri with
    | true =>
      rw [hcomplex] at hx
      cases hx
    | false =>
      rw [hcomplex] at hx
      exact (h.ext hcomplex x hx).2

/-- `ehd_http_parse_complex_uri` leaves no mark of an extension when it accepts the path. -/
theorem parseComplexUri_ext {E : Stop → World → Prop} (halive : w.r.home ∉ w.t.destroyed)
    (hb : w.c.buf = some b) :
    wp parseComplexUri (fun rc w' => rc = .ok → w'.r.parse.uriExt = none) E w := by
  unfold parseComplexUri
  rw [wp_bind, wp_getRequest halive, wp_bind, wp_getHeaderInBuf halive hb]
  cases uriLoop (.init w.r.uri.data) (b.span w.r.parse.uriStart w.r.uri.len) with
  | none => exact fun h => nomatch h
  | some s =>
    dsimp only
    rw [wp_bind, wp_modifyRequest halive]
    cases hext : s.uriExt with
    | none => exact fun _ => rfl
    | some e =>
      dsimp only
      rw [wp_bind]
      refine palloc_rule (fun n area _ => ?_) (fun n _ => fun h => nomatch h)
      dsimp only
      rw [wp_bind, wp_modifyRequest (by exact halive), wp_pure]
      exact fun _ => rfl

def HeaderIn.spans (e : HeaderIn) : List Span := [e.key, e.value]

/-- The colon, and what follows the value. -/
theorem header_delimiters {bytes name value ending v : List UInt8} {r : ParseState} {k : Nat}
    (hline : IsHeaderLine name value ending)
    (h : bytes.drop k = headerLine name value ending ++ v) :
    bytes[k + name.length]? = some 58 ∧
      ∃ ch, bytes[(r.headerMarks k name value).header.value.start +
        (r.headerMarks k name value).header.value.len]? = some ch ∧ IsDelimiter ch := by
  have hat : ∀ i, bytes[k + i]? = (headerLine name value ending ++ v)[i]? := by
    intro i
    rw [← h, List.getElem?_drop]
  obtain ⟨spaces, hparts, hspaces, -⟩ := value_parts value
  constructor
  · rw [hat]
    unfold headerLine
    simp
  · have hend : (r.headerMarks k name value).header.value.start +
        (r.headerMarks k name value).header.value.len =
          k + (name.length + 1 + (value.takeWhile (· == 32)).length + (trimmed value).length) := by
      unfold ParseState.headerMarks ParseState.header
      simp only
      omega
    have hlist : headerLine name value ending ++ v = (name ++ [58] ++ value.takeWhile (· == 32) ++
        trimmed value) ++ (spaces ++ ending ++ v) := by
      unfold headerLine
      nth_rewrite 1 [hparts]
      simp
    have hlen : (name ++ [58] ++ value.takeWhile (· == 32) ++ trimmed value).length =
        name.length + 1 + (value.takeWhile (· == 32)).length + (trimmed value).length := by
      simp only [List.length_append, List.length_singleton]
    rw [hend, hat, hlist, ← hlen, List.getElem?_append_right (Nat.le_refl _), Nat.sub_self]
    cases spaces with
    | cons ch chs => exact ⟨ch, rfl, Or.inr (Or.inr (Or.inr (hspaces ch List.mem_cons_self)))⟩
    | nil =>
      cases hline.ends with
      | lf => exact ⟨LF, rfl, Or.inr (Or.inl rfl)⟩
      | crlf => exact ⟨CR, rfl, Or.inl rfl⟩

theorem HeaderLines.onlyHeader {bytes : List UInt8} {es : List HeaderIn} {n m : Nat}
    (h : HeaderLines bytes p n es q m) : OnlyHeader p q := by
  induction h with
  | nil => rfl
  | snoc _ hline ih => exact ih.trans (parseHeaderLine_onlyHeader hline)

theorem OnlyHeader.lineSpans (h : OnlyHeader p q) : q.lineSpans = p.lineSpans := by
  unfold OnlyHeader at h
  rw [h]
  rfl

/-- Both terminators of a header that has been read in a run are harmless: to the request
line, to the headers before it and to the header itself. -/
theorem OpenBlock.terminators {C X : List UInt8} {es : List HeaderIn} {m k : Nat} {r : Request}
    (h : OpenBlock C X p m es q k b r) (hparse : parseHeaderLine r.parse b = (.ok, q', b')) :
    ∃ b₁, Harmless (q'.lineSpans ++ (r.headersIn.headers.entries ++ [q'.header]).flatMap
        HeaderIn.spans) b' b₁ ∧
      Harmless (q'.lineSpans ++ (r.headersIn.headers.entries ++ [q'.header]).flatMap
        HeaderIn.spans) b₁ (terminateHeader b' q'.header) := by
  have hb := h.between
  have hadv := parseHeaderLine_advances hparse
  have hline := h.parse_all (by decide) hparse
  obtain ⟨name, value, ending, v, hheader, hunread, hq', hpos⟩ :=
    parseHeaderLine_line_parts hb.state (hb.same.proxy.trans (parseRequestLine_proxy rfl h.line))
      hline
  obtain ⟨hkey, hvalue, hend⟩ := header_inside hheader (r := q) k
  have hq : q'.header = (q.headerMarks k name value).header := by
    have := congrArg ParseState.header hq'
    exact this
  rw [← hq] at hkey hvalue hend
  change b'.pos = k + (headerLine name value ending).length at hpos
  have hbytes : b'.bytes = X := by
    rw [hadv.eq, h.buf]
    rfl
  have hstart : q'.header.key.start = k := by rw [hkey]
  have hlen : q'.header.key.len = name.length := by rw [hkey]
  have hX : X.drop k = headerLine name value ending ++ v := h.behind.trans hunread
  obtain ⟨hcolon, ch, hch, hdelimiter⟩ := header_delimiters (r := q) hheader hX
  rw [← hq] at hch
  -- what was recorded before lies before `k`
  have hmarks : q'.lineSpans = p.lineSpans := by
    have hall := h.lines.onlyHeader.trans (parseHeaderLine_onlyHeader hline)
    exact hall.lineSpans
  have hordered := requestLine_ordered h.line
  obtain ⟨e, he, -, hlt, -⟩ := hordered.line
  have hmany := hb.many
  change e < m at hlt
  have hbefore : ∀ s ∈ q'.lineSpans ++ (r.headersIn.headers.entries ++ [q'.header]).flatMap
      HeaderIn.spans, s.start + s.len ≤ k ∨ s = q'.header.key ∨ s = q'.header.value := by
    intro s hs
    rw [hmarks, h.entries] at hs
    rcases List.mem_append.1 hs with hs | hs
    · have := hordered.lineSpans he s hs
      omega
    · obtain ⟨f, hf, hs⟩ := List.mem_flatMap.1 hs
      unfold HeaderIn.spans at hs
      simp only [List.mem_cons, List.not_mem_nil, or_false] at hs
      rcases List.mem_append.1 hf with hf | hf
      · obtain ⟨h₁, h₂⟩ := hb.inside f hf
        rcases hs with rfl | rfl
        · exact Or.inl h₁
        · exact Or.inl h₂
      · rw [List.mem_singleton.1 hf] at hs
        exact Or.inr hs
  unfold terminateHeader
  rw [hstart, hlen]
  refine ⟨b'.putNul (k + name.length), ?_, ?_⟩
  · apply harmless_putNul (by omega) (by rw [hbytes]; exact hcolon) (Or.inr (Or.inr (Or.inl rfl)))
    intro s hs
    rcases hbefore s hs with hs | rfl | rfl <;> omega
  · have hbyte : (b'.putNul (k + name.length)).bytes[q'.header.value.start +
        q'.header.value.len]? = some ch := by
      show (b'.bytes.set _ 0)[_]? = some ch
      rw [hbytes, List.getElem?_set_ne (by omega)]
      exact hch
    have hread : q'.header.value.start + q'.header.value.len <
        (b'.putNul (k + name.length)).pos := by
      show _ < b'.pos
      omega
    apply harmless_putNul hread hbyte hdelimiter
    intro s hs
    rcases hbefore s hs with hs | rfl | rfl <;> omega

/-- At every point of a run: a request line that is accepted has its marks in order, and no
length computed from them wraps around; while the URI is copied the buffer gets no NUL but one,
behind the request line, and a complex path has lost its mark of an extension; while a header
is stored the buffer gets none but two, behind its name and its value; and these are harmless. -/
theorem terminators_harmless {P : Kernel → Prop} {pc : Pc} (h : Passes P pc w) :
    (pc = .parseLine → ∀ b q b', w.c.buf = some b →
      parseRequestLine w.r.parse b = (.ok, q, b') → Ordered b'.bytes q b'.pos ∧
        NoUnderflow { q with uriExt := if q.complexUri then none else q.uriExt }) ∧
    (pc = .copyUri → ∃ b b', w.c.buf = some b ∧ Harmless w.r.parse.lineSpans b b' ∧
      ∀ (Q : Unit → World → Prop) (E : Stop → World → Prop),
        (∀ w' : World, w'.c.buf = some b' → wp processRequestHeaders Q E w') →
        (∀ w' : World, w'.c.buf = some b ∨ w'.c.buf = some b' → Q () w'.closeBoth) →
        wp copyUri Q E w) ∧
    (∀ (w₁ : World) (b : Buf) (E : Stop → World → Prop), w₁.r.home ∉ w₁.t.destroyed →
      w₁.c.buf = some b →
        wp parseComplexUri (fun rc w' => rc = .ok → w'.r.parse.uriExt = none) E w₁) ∧
    (pc = .parseHeader → ∀ b q b', w.c.buf = some b →
      parseHeaderLine w.r.parse b = (.ok, q, b') → ∃ b₁ b₂,
        Harmless (q.lineSpans ++ (w.r.headersIn.headers.entries ++ [q.header]).flatMap
          HeaderIn.spans) b' b₁ ∧
        Harmless (q.lineSpans ++ (w.r.headersIn.headers.entries ++ [q.header]).flatMap
          HeaderIn.spans) b₁ b₂ ∧
        ∀ E, wp headerLineParsed (fun stored w' => w'.c.buf = some b₂ ∨
          stored = false ∧ w'.c.buf = some b') E (w.parsed q b')) := by
  obtain ⟨hctl, C, -, hC⟩ := h.facts
  refine ⟨?_, ?_, fun w₁ b E halive hb => parseComplexUri_ext halive hb, ?_⟩
  · rintro rfl b q b' hb hparse
    obtain ⟨b₀, hb₀, hopen, -⟩ := hC
    have hsame : b₀ = b := Option.some.inj (hb₀.symm.trans hb)
    rw [hsame] at hopen
    obtain ⟨hb', hall⟩ := hopen.done hparse
    have hordered : Ordered C q b'.pos := requestLine_ordered hall
    refine ⟨?_, hordered.noUnderflow⟩
    rw [hb']
    exact hordered
  · rintro rfl
    obtain ⟨b, hb, heq, -, hline⟩ := hC
    -- the buffer holds what has been received, so the marks are in order in it
    have hmarks : Ordered C w.r.parse b.pos := requestLine_ordered hline
    have hordered : Ordered b.bytes w.r.parse b.pos := by
      rw [heq]
      exact hmarks
    refine ⟨b, putLineNul w.r.parse b, hb, putLineNul_harmless hordered, ?_⟩
    intro Q E hheaders hclose
    have halive : w.r.home ∉ w.t.destroyed := Serving.alive (Reading.toServing hctl.1)
    refine copyUri_rule halive hb (fun w' hs => ?_) (fun w' _ hbuf => hclose w' hbuf)
    obtain ⟨b₀, hb₀, hc, -⟩ := hs.c
    have hsame : b₀ = b := Option.some.inj (hb₀.symm.trans hb)
    apply hheaders
    rw [hc, hsame]
    rfl
  · rintro rfl b q b' hb hparse
    obtain ⟨b₀, X, p, m, es, q₀, k, hb₀, hopen⟩ := hC
    have hsame : b₀ = b := Option.some.inj (hb₀.symm.trans hb)
    rw [hsame] at hopen
    obtain ⟨b₁, hfirst, hsecond⟩ := hopen.terminators hparse
    refine ⟨b₁, terminateHeader b' q.header, hfirst, hsecond, fun E => ?_⟩
    have halive : w.r.home ∉ w.t.destroyed := Serving.alive (Reading.toServing hctl.1)
    refine headerLineParsed_rule (w := w.parsed q b') halive rfl (fun w' hs => ?_)
      (fun w' _ hbuf => ?_)
    · obtain ⟨b₂, hb₂, hc⟩ := hs.c
      have hsame₂ : b' = b₂ := Option.some.inj hb₂
      refine Or.inl ?_
      rw [hc, ← hsame₂]
      rfl
    · rcases hbuf with hbuf | hbuf
      · exact Or.inr ⟨rfl, hbuf⟩
      · exact Or.inl hbuf

/-- `servedWorld` when its request starts, and when its bytes have been received. -/
def servedStart : World :=
  (servedWorld.onEv fun ev => { ev with rready := true }).opened (.temp EHD_DEFAULT_BUF_SIZE) []

def servedBytes : List UInt8 := ascii "GET / HTTP/1.1\x0d\n\x0d\n"

def servedReceived : World :=
  (servedStart.onK fun k => { k with recvs := [] }).onT fun t => { t with received := servedBytes }

theorem served_passes : Passes (fun _ => True) .parseLine
    ((servedReceived.noteRecv (.temp EHD_DEFAULT_BUF_SIZE) servedBytes.length).setBuf
      (inputBuf servedBytes 0)) := by
  have hrun : Run (fun _ => True) none servedWorld := sampleWorld_run trivial
  have hconnected : Connected servedWorld := by
    rcases hrun.ctl with h | h | h | h | h
    · exact absurd h.fd (by decide)
    · exact h
    · exact nomatch h.data
    · exact nomatch h.data
    · exact nomatch h.data
  have hstart : Move (.loop, servedWorld) (.line, servedStart) :=
    .start (n := []) ⟨rfl, rfl, rfl, rfl, rfl, rfl, rfl, rfl⟩ (Or.inl hconnected)
  have htook : servedStart.Took servedReceived servedBytes :=
    ⟨rfl, rfl, rfl, rfl, rfl, rfl, ⟨rfl, rfl, rfl, rfl, fun _ h => h⟩, rfl, by decide⟩
  have hrecv := Move.recv (b := .temp EHD_DEFAULT_BUF_SIZE) .line rfl rfl (by decide)
    htook (by decide) (by decide)
  exact ⟨servedWorld, hrun, .tail (.single hstart) hrecv⟩

theorem terminators_harmless_served :
    (parseRequestLine {} (inputBuf servedBytes 0)).1 = .ok ∧
      Ordered servedBytes (parseRequestLine {} (inputBuf servedBytes 0)).2.1 16 := by
  have hok : (parseRequestLine {} (inputBuf servedBytes 0)).1 = .ok := by decide
  have hpos : (parseRequestLine {} (inputBuf servedBytes 0)).2.2 = inputBuf servedBytes 16 := by
    decide
  exact ⟨hok, ((terminators_harmless served_passes).1 rfl _ _ _ rfl
    (Prod.ext hok (Prod.ext rfl hpos))).1⟩

end Ehd.Http
