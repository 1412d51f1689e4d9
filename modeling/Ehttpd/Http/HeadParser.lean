import Ehttpd.Http.Marks

namespace Ehd.Http

open Scanner

/-- The input buffer with the bytes `bytes`, of which `pos` have been read. -/
def inputBuf (bytes : List UInt8) (pos : Nat) : Buf :=
  { bytes := bytes, pos := pos, size := EHD_DEFAULT_BUF_SIZE }

/-- `ehd_http_parse_complex_uri` when `complex_uri` is set: whether it accepts the path. -/
def pathAccepted (p : ParseState) (b : Buf) : Bool :=
  !p.complexUri ||
    (uriLoop (.init (List.replicate (p.uriLen + 1) 0)) (b.span p.uriStart p.uriLen)).isSome

/-- The head at the start of `bytes`, and how many bytes it takes: the request line, the
path, and header lines until `HEADER_DONE`. -/
def parseHead (bytes : List UInt8) : Option (Head × Nat) :=
  match parseRequestLine {} (inputBuf bytes 0) with
  | (.ok, p, b) =>
    if pathAccepted p b then
      (readHeaders (bytes.length + 1) p b).map fun rest =>
        (⟨p.method, b.span p.uriStart (p.uriEnd - p.uriStart), rest.1⟩, rest.2.pos)
    else none
  | _ => none

/-- The heads of a stream, up to the first that is refused or that does not end within
`EHD_DEFAULT_BUF_SIZE` bytes. -/
def requests : Nat → List UInt8 → List Head
  | 0, _ => []
  | fuel + 1, s =>
    match parseHead (s.take EHD_DEFAULT_BUF_SIZE) with
    | none => []
    | some (head, n) => head :: requests fuel (s.drop n)

def afterRequests : Nat → List UInt8 → Option (List UInt8)
  | 0, s => some s
  | n + 1, s =>
    match parseHead (s.take EHD_DEFAULT_BUF_SIZE) with
    | none => none
    | some (_, k) => afterRequests n (s.drop k)

section Lines

variable {bytes : List UInt8} {p q q' : ParseState} {n m k : Nat} {es : List HeaderIn}

/-- Header lines from `n` to `m`, with what the parser keeps between them. -/
inductive HeaderLines (bytes : List UInt8) (p : ParseState) (n : Nat) :
    List HeaderIn → ParseState → Nat → Prop
  | nil : HeaderLines bytes p n [] p n
  | snoc {es : List HeaderIn} {q q' : ParseState} {m m' : Nat} (h : HeaderLines bytes p n es q m)
    (hline : parseHeaderLine q (inputBuf bytes m) = (.ok, q', inputBuf bytes m')) :
    HeaderLines bytes p n (es ++ [q'.header]) q' m'

def HeaderIn.content (bytes : List UInt8) (e : HeaderIn) : List UInt8 × List UInt8 :=
  ((bytes.drop e.key.start).take e.key.len, (bytes.drop e.value.start).take e.value.len)

theorem readHeaders_lines (h : HeaderLines bytes p n es q m) :
    ∀ fuel, es.length ≤ fuel → readHeaders fuel p (inputBuf bytes n) =
      (readHeaders (fuel - es.length) q (inputBuf bytes m)).map fun rest =>
        (es.map (·.content bytes) ++ rest.1, rest.2) := by
  induction h with
  | nil =>
    intro fuel _
    show _ = (readHeaders fuel p (inputBuf bytes n)).map id
    rw [Option.map_id]
    rfl
  | @snoc es q q' m m' _ hline ih =>
    intro fuel hfuel
    rw [List.length_append, List.length_singleton] at hfuel ⊢
    rw [ih fuel (by omega)]
    obtain ⟨rest, hrest⟩ : ∃ rest, fuel - es.length = rest + 1 := ⟨fuel - es.length - 1, by omega⟩
    rw [hrest, show fuel - (es.length + 1) = rest by omega]
    conv => lhs; rw [readHeaders, hline]
    rw [Option.map_map]
    congr 1
    funext x
    rw [List.map_append, List.append_assoc]
    rfl

/-- A line that has been read, from the start state. -/
theorem parseHeaderLine_line_parts {r r' : ParseState} {b b' : Buf} (hr : r.state = 0)
    (hproxy : r.proxy = false) (h : parseHeaderLine r b = (.ok, r', b')) :
    ∃ name value ending v, IsHeaderLine name value ending ∧
      b.unread = headerLine name value ending ++ v ∧
      r' = { r.headerMarks b.pos name value with state := 0 } ∧
      b'.pos = b.pos + (headerLine name value ending).length := by
  obtain ⟨_, ⟨v, hv⟩, name, value, ending, rfl, hline⟩ :=
    (parseHeaderLine_line_iff hr hproxy).1 (congrArg Prod.fst h)
  have hloop : headerLineLoop b.bytes .start r b.pos (headerLine name value ending ++ v) = _ :=
    hline.scan
  have hstart : HeaderLineSw.ofUint r.state = .start := by rw [hr]; rfl
  rw [hv, ← hstart] at hloop
  rw [parseHeaderLine_of_done hloop] at h
  cases h
  exact ⟨name, value, ending, v, hline, hv.symm, rfl, rfl⟩

theorem parseHeaderLine_end_parts {r r' : ParseState} {b b' : Buf} (hr : r.state = 0)
    (hproxy : r.proxy = false) (h : parseHeaderLine r b = (.headerDone, r', b')) :
    ∃ ending v, IsLineEnd ending ∧ b.unread = ending ++ v ∧ b'.pos = b.pos + ending.length := by
  have hstart : HeaderLineSw.ofUint r.state = .start := by rw [hr]; rfl
  obtain ⟨e, ⟨v, hv⟩, he⟩ := (parseHeaderLine_block_iff hr hproxy).1 (congrArg Prod.fst h)
  obtain ⟨r₁, hloop⟩ := (exit_iff (r := r) (p := b.pos) (headerLine_controls b.bytes) hproxy rfl).2
    ⟨e, ⟨v, hv⟩, headerEnd_leads.2 he, rfl⟩
  have hloop' : headerLineLoop b.bytes (.ofUint r.state) r b.pos b.unread =
      .exit .headerDone r₁ (b.pos + e.length) := by
    rw [hstart]
    exact hloop
  rw [parseHeaderLine_of_headerDone hloop'] at h
  cases h
  exact ⟨e, v, he, hv.symm, rfl⟩

/-- The marks of a header lie inside its line. -/
theorem header_inside {name value ending : List UInt8} (hline : IsHeaderLine name value ending)
    {r : ParseState} (m : Nat) :
    (r.headerMarks m name value).header.key = ⟨m, name.length⟩ ∧
      m + name.length < (r.headerMarks m name value).header.value.start ∧
      (r.headerMarks m name value).header.value.start +
        (r.headerMarks m name value).header.value.len <
          m + (headerLine name value ending).length := by
  obtain ⟨spaces, hparts, -, -⟩ := value_parts value
  have hlen := congrArg List.length hparts
  simp only [List.length_append] at hlen
  have hend : 0 < ending.length := by
    cases hline.ends with
    | lf => exact Nat.one_pos
    | crlf => exact Nat.two_pos
  have htotal : (headerLine name value ending).length =
      name.length + 1 + value.length + ending.length := by
    unfold headerLine
    simp only [List.length_append, List.length_cons]
    omega
  rw [htotal]
  unfold ParseState.headerMarks ParseState.header
  simp only
  refine ⟨?_, ?_, ?_⟩
  · rw [Nat.add_sub_cancel_left]
  · omega
  · omega

structure Between (bytes : List UInt8) (p : ParseState) (n : Nat) (es : List HeaderIn)
    (q : ParseState) (m : Nat) : Prop where
  state : q.state = 0
  same : SameLine p q
  many : n + es.length ≤ m
  le : m ≤ bytes.length
  inside : ∀ e ∈ es, e.key.start + e.key.len ≤ m ∧ e.value.start + e.value.len ≤ m

theorem HeaderLines.between (h : HeaderLines bytes p n es q m) (hp : p.state = 0)
    (hproxy : p.proxy = false) (hn : n ≤ bytes.length) : Between bytes p n es q m := by
  induction h with
  | nil => exact ⟨hp, .refl p, Nat.le_refl _, hn, by simp⟩
  | @snoc es q q' m m' h hline ih =>
    have hproxy' : q.proxy = false := ih.same.proxy.trans hproxy
    obtain ⟨name, value, ending, v, hheader, hunread, hq', hm'⟩ :=
      parseHeaderLine_line_parts ih.state hproxy' hline
    obtain ⟨hkey, hvalue, hend⟩ := header_inside hheader (r := q) m
    have hpos : m' = m + (headerLine name value ending).length := hm'
    have hlen := congrArg List.length hunread
    rw [List.length_append] at hlen
    have hroom : (inputBuf bytes m).unread.length = bytes.length - m := List.length_drop
    have hle := ih.le
    have hmany := ih.many
    have hheader' : q'.header = (q.headerMarks m name value).header := by rw [hq']; rfl
    refine ⟨by rw [hq'], ih.same.trans (parseHeaderLine_sameLine hline), ?_, by omega, ?_⟩
    · rw [List.length_append, List.length_singleton]
      omega
    · intro e he
      rcases List.mem_append.1 he with he | he
      · obtain ⟨h₁, h₂⟩ := ih.inside e he
        exact ⟨by omega, by omega⟩
      · rw [List.mem_singleton.1 he, hheader', hkey]
        refine ⟨?_, by omega⟩
        show m + name.length ≤ m'
        omega

theorem HeaderLines.append (h : HeaderLines bytes p n es q m) (hp : p.state = 0)
    (hproxy : p.proxy = false) (hn : n ≤ bytes.length) (more : List UInt8) :
    HeaderLines (bytes ++ more) p n es q m := by
  induction h with
  | nil => exact .nil
  | @snoc es q q' m m' h hline ih =>
    have hb := h.between hp hproxy hn
    refine .snoc ih ?_
    exact parseHeaderLine_append hb.le hline (Or.inl rfl) more

theorem content_append {e : HeaderIn} (hkey : e.key.start + e.key.len ≤ bytes.length)
    (hvalue : e.value.start + e.value.len ≤ bytes.length) (more : List UInt8) :
    e.content (bytes ++ more) = e.content bytes := by
  have hpiece : ∀ start len, start + len ≤ bytes.length →
      ((bytes ++ more).drop start).take len = (bytes.drop start).take len := by
    intro start len h
    rw [List.drop_append_of_le_length (by omega), List.take_append_of_le_length]
    rw [List.length_drop]
    omega
  unfold HeaderIn.content
  rw [hpiece _ _ hkey, hpiece _ _ hvalue]

end Lines

section Parts

variable {bytes : List UInt8} {p q : ParseState} {n m k : Nat} {es : List HeaderIn}

/-- The parts of a head that has been parsed: the request line up to `m`, the header lines
up to `k`, and the end of the headers up to `n`. -/
structure HeadParsed (bytes : List UInt8) (p : ParseState) (m : Nat) (es : List HeaderIn)
    (q : ParseState) (k n : Nat) : Prop where
  line : parseRequestLine {} (inputBuf bytes 0) = (.ok, p, inputBuf bytes m)
  path : pathAccepted p (inputBuf bytes m) = true
  lines : HeaderLines bytes p m es q k
  done : ∃ q', parseHeaderLine q (inputBuf bytes k) = (.headerDone, q', inputBuf bytes n)

def headOfParts (bytes : List UInt8) (p : ParseState) (es : List HeaderIn) : Head :=
  ⟨p.method, (bytes.drop p.uriStart).take (p.uriEnd - p.uriStart), es.map (·.content bytes)⟩

theorem requestLine_between (h : parseRequestLine {} (inputBuf bytes 0) = (.ok, p, inputBuf bytes m)) :
    p.state = 0 ∧ p.proxy = false ∧ m ≤ bytes.length := by
  obtain ⟨r', -, hdone⟩ := parseRequestLine_ok h
  have hadv := (parseRequestLine_advances h).le_unread
  have hlen : (inputBuf bytes 0).unread.length = bytes.length := by
    show (bytes.drop 0).length = _
    rfl
  refine ⟨?_, parseRequestLine_proxy rfl h, ?_⟩
  · have hstate := (requestLineDone_spec r' m).2
    rw [show requestLineDone r' m = (.ok, p) from hdone] at hstate
    exact hstate
  · rw [hlen] at hadv
    change m ≤ 0 + bytes.length at hadv
    omega

theorem HeadParsed.between (h : HeadParsed bytes p m es q k n) : Between bytes p m es q k := by
  obtain ⟨hstate, hproxy, hm⟩ := requestLine_between h.line
  exact h.lines.between hstate hproxy hm

theorem HeadParsed.bounds (h : HeadParsed bytes p m es q k n) : k < n ∧ n ≤ bytes.length := by
  have hb := h.between
  obtain ⟨hstate, hproxy, hm⟩ := requestLine_between h.line
  obtain ⟨q', hdone⟩ := h.done
  obtain ⟨ending, v, he, hunread, hn⟩ :=
    parseHeaderLine_end_parts hb.state (hb.same.proxy.trans hproxy) hdone
  have hend : 0 < ending.length := by
    cases he with
    | lf => exact Nat.one_pos
    | crlf => exact Nat.two_pos
  have hlen := congrArg List.length hunread
  rw [List.length_append] at hlen
  have hroom : (inputBuf bytes k).unread.length = bytes.length - k := List.length_drop
  have hpos : n = k + ending.length := hn
  have hle := hb.le
  omega

/-- The parts make a head. -/
theorem HeadParsed.parseHead (h : HeadParsed bytes p m es q k n) :
    parseHead bytes = some (headOfParts bytes p es, n) := by
  have hb := h.between
  have hmany := hb.many
  have hle := hb.le
  obtain ⟨q', hdone⟩ := h.done
  obtain ⟨fuel, hfuel⟩ : ∃ fuel, bytes.length + 1 - es.length = fuel + 1 :=
    ⟨bytes.length - es.length, by omega⟩
  have hread := readHeaders_lines h.lines (bytes.length + 1) (by omega)
  have hlast : readHeaders (fuel + 1) q (inputBuf bytes k) = some ([], inputBuf bytes n) := by
    rw [readHeaders, hdone]
  rw [hfuel, hlast] at hread
  unfold Http.parseHead
  rw [h.line]
  simp only
  rw [if_pos h.path, hread]
  simp [headOfParts, inputBuf, Buf.span]

end Parts

theorem requestLine_ends {bytes : List UInt8} {p : ParseState} {m : Nat}
    (h : parseRequestLine {} (inputBuf bytes 0) = (.ok, p, inputBuf bytes m)) :
    ∃ e, p.requestEnd = some e ∧ p.requestStart ≤ p.uriEnd ∧ p.uriEnd ≤ e ∧ e < m := by
  have hmarks := requestLine_ordered h
  obtain ⟨e, he, huri, hlt, -⟩ := hmarks.line
  have hmethod := hmarks.method
  have hstart := hmarks.uriStart
  have hpath := hmarks.uri
  exact ⟨e, he, by omega, huri, hlt⟩

section Area

variable {s t : UriScan} {data : List UInt8} {room : Nat} {ch : UInt8}

/-- Another area with the same bytes written into it, and room for `room` more. -/
structure SameText (s : UriScan) (data : List UInt8) (room : Nat) : Prop where
  text : data.take s.u = s.data.take s.u
  fits : s.u + room ≤ s.data.length
  fits' : s.u + room ≤ data.length

theorem scanBack_congr {data data' : List UInt8} {j : Nat}
    (h : ∀ i < j, data'.getD i 0 = data.getD i 0) : scanBack data' j = scanBack data j := by
  induction j with
  | zero => rfl
  | succ j ih =>
    unfold scanBack
    rw [h j (Nat.lt_succ_self j), ih fun i hi => h i (Nat.lt_succ_of_lt hi)]

theorem SameText.shorter (h : SameText s data (room + 1)) (hu : t.u ≤ s.u)
    (hdata : t.data = s.data) : SameText t data room := by
  have hfits := h.fits
  have hfits' := h.fits'
  refine ⟨?_, by rw [hdata]; omega, by omega⟩
  have htake := congrArg (List.take t.u) h.text
  rw [List.take_take, List.take_take, Nat.min_eq_left hu] at htake
  rw [hdata]
  exact htake

theorem SameText.put (h : SameText s data (room + 1)) (hu : t.u = s.u + 1)
    (hdata : t.data = s.data.set s.u ch) : SameText t (data.set s.u ch) room := by
  have hfits := h.fits
  have hfits' := h.fits'
  refine ⟨?_, ?_, ?_⟩
  · rw [hu, hdata, List.take_add_one, List.take_add_one, List.take_set_of_le (Nat.le_refl _),
      List.take_set_of_le (Nat.le_refl _), h.text, List.getElem?_set_self (by omega),
      List.getElem?_set_self (by omega)]
  · rw [hu, hdata, List.length_set]
    omega
  · rw [hu, List.length_set]
    omega

theorem SameText.back (h : SameText s data (room + 1)) :
    scanBack data (s.u - 4) = scanBack s.data (s.u - 4) := by
  apply scanBack_congr
  intro i hi
  have hget := congrArg (fun l : List UInt8 => l[i]?) h.text
  simp only [List.getElem?_take] at hget
  rw [if_pos (by omega), if_pos (by omega)] at hget
  rw [List.getD_eq_getElem?_getD, List.getD_eq_getElem?_getD, hget]

/-- What one byte does does not depend on what the area held before. -/
theorem uriSwitch_area (h : SameText s data (room + 1)) (hs : uriSwitch s ch = some t) :
    ∃ data', uriSwitch { s with data := data } ch = some { t with data := data' } ∧
      SameText t data' room := by
  have hback := h.back
  have hle := scanBack_le s.data (s.u - 4)
  obtain ⟨st, sw, digit, u, data₀, ext⟩ := s
  cases st
  case dotDot =>
    simp only [uriSwitch] at hs hback hle ⊢
    rw [hback]
    split_ifs at hs ⊢
    · cases hs
      refine ⟨_, rfl, h.shorter ?_ rfl⟩
      show scanBack data₀ (u - 4) ≤ u
      omega
    · cases hs
      exact ⟨_, rfl, h.shorter (Nat.le_refl _) rfl⟩
    · cases hs
      exact ⟨_, rfl, h.put rfl rfl⟩
  case quoted | quotedSecond => cases hs
  all_goals
    simp only [uriSwitch] at hs ⊢
    split_ifs at hs ⊢
    all_goals
      cases hs
      first
      | exact ⟨_, rfl, h.put rfl rfl⟩
      | exact ⟨_, rfl, h.shorter (Nat.le_refl _) rfl⟩
      | exact ⟨_, rfl, h.shorter (Nat.sub_le _ _) rfl⟩

theorem uriStep_area (h : SameText s data (room + 1)) (hs : uriStep s ch = some t) :
    ∃ data', uriStep { s with data := data } ch = some { t with data := data' } ∧
      SameText t data' room := by
  obtain ⟨st, sw, digit, u, data₀, ext⟩ := s
  cases st with
  | quoted =>
    simp only [uriStep] at hs ⊢
    cases hd : hexDigit ch with
    | none =>
      rw [hd] at hs
      cases hs
    | some d =>
      rw [hd] at hs
      cases hs
      exact ⟨data, rfl, h.shorter (Nat.le_refl _) rfl⟩
  | quotedSecond =>
    simp only [uriStep] at hs ⊢
    cases hd : hexDigit ch with
    | none =>
      rw [hd] at hs
      cases hs
    | some d =>
      simp only [hd] at hs ⊢
      by_cases hpercent : (digit <<< 4) + d = 37
      · rw [if_pos hpercent] at hs ⊢
        cases hs
        exact ⟨_, rfl, h.put rfl rfl⟩
      · rw [if_neg hpercent] at hs ⊢
        have h' : SameText ⟨sw, sw, digit, u, data₀, ext⟩ data (room + 1) :=
          ⟨h.text, h.fits, h.fits'⟩
        exact uriSwitch_area h' hs
  | _ => exact uriSwitch_area h hs

theorem uriLoop_area (path : List UInt8) : ∀ (s : UriScan) (data : List UInt8) (t : UriScan),
    SameText s data path.length → uriLoop s path = some t →
    (uriLoop { s with data := data } path).isSome = true := by
  induction path with
  | nil =>
    intro s data t _ _
    rfl
  | cons ch path ih =>
    intro s data t h hs
    obtain ⟨s₁, h₁, hs⟩ := uriLoop_cons hs
    obtain ⟨data', hstep, h'⟩ := uriStep_area h h₁
    show ((uriStep { s with data := data } ch).bind _).isSome = true
    rw [hstep]
    exact ih s₁ data' t h' hs

/-- A path that was accepted with one area is accepted with another. -/
theorem pathAccepted_of_loop {p : ParseState} {b : Buf} {area : List UInt8}
    (harea : area.length = p.uriLen + 1)
    (hs : uriLoop (.init area) (b.span p.uriStart p.uriLen) = some t) : pathAccepted p b = true := by
  have hlen : (b.span p.uriStart p.uriLen).length ≤ p.uriLen := List.length_take_le _ _
  have hsame : SameText (.init area) (List.replicate (p.uriLen + 1) 0)
      (b.span p.uriStart p.uriLen).length := by
    refine ⟨rfl, ?_, ?_⟩
    · show 0 + _ ≤ area.length
      omega
    · show 0 + _ ≤ (List.replicate (p.uriLen + 1) (0 : UInt8)).length
      rw [List.length_replicate]
      omega
  unfold pathAccepted
  have hloop := uriLoop_area _ _ _ _ hsame hs
  rw [Bool.or_eq_true]
  exact Or.inr hloop

end Area

end Ehd.Http
