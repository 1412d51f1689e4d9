import Ehttpd.Http.DocumentRoot

namespace Ehd.Http

open Scanner

def encodeHeader (t : TableData) : List UInt8 := t.key.bytes ++ [58, 32] ++ t.value.bytes ++ CRLF

def headerCost (t : TableData) : Nat := t.key.len + t.value.len + 4

theorem bytes_length_le (s : Str) : s.bytes.length ≤ s.len := List.length_take_le _ _

theorem room_append (b : Buf) (bs : List UInt8) : (b.append bs).room = b.room - bs.length := by
  show b.size - (b.bytes ++ bs).length = b.size - b.bytes.length - bs.length
  rw [List.length_append]
  omega

theorem encodeHeader_length_le (t : TableData) : (encodeHeader t).length ≤ headerCost t := by
  have hkey := bytes_length_le t.key
  have hvalue := bytes_length_le t.value
  unfold encodeHeader headerCost
  simp only [List.length_append]
  show _ + 2 + _ + 2 ≤ _
  omega

theorem writeHeader_eq {b : Buf} {t : TableData} (h : headerCost t < b.room) :
    writeHeader b t = b.append (encodeHeader t) := by
  have hkey := bytes_length_le t.key
  unfold headerCost at h
  have hroom : b.room > t.key.len + 2 := by omega
  have hroom' : (b.append (t.key.bytes ++ [58, 32])).room > t.value.len + 2 := by
    rw [room_append, List.length_append]
    show _ - (_ + 2) > _
    omega
  unfold writeHeader
  dsimp only
  rw [if_pos hroom, if_pos hroom']
  unfold encodeHeader Buf.append
  simp only [List.append_assoc]

theorem encodedHeaders_length_le (ts : List TableData) :
    (ts.flatMap encodeHeader).length ≤ (ts.map headerCost).sum := by
  induction ts with
  | nil => exact Nat.le_refl 0
  | cons t ts ih =>
    have hlen := encodeHeader_length_le t
    rw [List.flatMap_cons, List.length_append, List.map_cons, List.sum_cons]
    omega

theorem length_le_encodedHeaders (ts : List TableData) :
    ts.length ≤ (ts.flatMap encodeHeader).length := by
  induction ts with
  | nil => exact Nat.le_refl 0
  | cons t ts ih =>
    have hcrlf : CRLF.length = 2 := rfl
    have hline : 2 ≤ (encodeHeader t).length := by
      unfold encodeHeader
      rw [List.length_append]
      omega
    rw [List.flatMap_cons, List.length_append, List.length_cons]
    omega

theorem foldl_writeHeader {b : Buf} (ts : List TableData) (h : (ts.map headerCost).sum < b.room) :
    ts.foldl writeHeader b = b.append (ts.flatMap encodeHeader) ∧
      b.room ≤ (b.append (ts.flatMap encodeHeader)).room + (ts.map headerCost).sum := by
  induction ts generalizing b with
  | nil =>
    refine ⟨?_, ?_⟩
    · simp [Buf.append]
    · rw [room_append]
      simp
  | cons t ts ih =>
    rw [List.map_cons, List.sum_cons] at h
    have hlen := encodeHeader_length_le t
    have hroom : (b.append (encodeHeader t)).room = b.room - (encodeHeader t).length :=
      room_append _ _
    obtain ⟨heq, hle⟩ := ih (b := b.append (encodeHeader t)) (by omega)
    have happend : (b.append (encodeHeader t)).append (ts.flatMap encodeHeader) =
        b.append ((t :: ts).flatMap encodeHeader) := by
      unfold Buf.append
      rw [List.flatMap_cons, List.append_assoc]
    rw [happend] at heq hle
    refine ⟨?_, ?_⟩
    · rw [List.foldl_cons, writeHeader_eq (by omega), heq]
    · rw [List.map_cons, List.sum_cons]
      omega

theorem headOf_eq {h : HeadersOut}
    (hfits : (statusLine h).length + ((finalHeaders h).entries.map headerCost).sum + 2 ≤ 8192) :
    (headOf h).bytes = statusLine h ++ ((finalHeaders h).entries.flatMap encodeHeader ++ CRLF) := by
  have hroom : ((Buf.temp 8192).append (statusLine h)).room = 8192 - (statusLine h).length := by
    rw [room_append]
    rfl
  obtain ⟨heq, hle⟩ := foldl_writeHeader (b := (Buf.temp 8192).append (statusLine h))
    (finalHeaders h).entries (by omega)
  unfold headOf
  rw [heq]
  unfold writeHeadEnd
  rw [if_pos (by omega)]
  unfold Buf.append Buf.temp
  simp only [List.nil_append, List.append_assoc]

/-- Run `ehd_http_parse_header_line` until `HEADER_DONE`: the headers, and the
buffer after them. -/
def readHeaders : Nat → ParseState → Buf → Option (List (List UInt8 × List UInt8) × Buf)
  | 0, _, _ => none
  | fuel + 1, r, b =>
    match parseHeaderLine r b with
    | (.ok, r', b') =>
      (readHeaders fuel r' b').map fun rest =>
        ((b'.span r'.header.key.start r'.header.key.len,
          b'.span r'.header.value.start r'.header.value.len) :: rest.1, rest.2)
    | (.headerDone, _, b') => some ([], b')
    | _ => none

def headAt (head : List UInt8) (pos : Nat) : Buf := { bytes := head, pos := pos, size := head.length }

/-- The header lines from `start` on give `entries`, and end where the head ends. -/
def Decodes (head : List UInt8) (start : Nat) (entries : List (List UInt8 × List UInt8)) : Prop :=
  readHeaders (head.length + 1) {} (headAt head start) = some (entries, headAt head head.length)

structure HeaderName (name : List UInt8) : Prop where
  nonempty : name ≠ []
  chars : ∀ c ∈ name, isHeaderNameChar c = true

structure Trimmed (value : List UInt8) : Prop where
  nonempty : value ≠ []
  first : value.head? ≠ some 32
  last : value.getLast? ≠ some 32

structure OneLine (value : List UInt8) : Prop where
  cr : CR ∉ value
  lf : LF ∉ value

structure HeaderValue (value : List UInt8) : Prop extends Trimmed value, OneLine value

section

variable {buf : List UInt8} {r : ParseState} {p : Nat}

theorem scan_cons_next {st st' : HeaderLineSw} {r' : ParseState} {ch : UInt8} {rest : List UInt8}
    (hst : st.final = false) (h : headerLineStep buf st r (p + 1) ch = .next st' r') :
    headerLineLoop buf st r p (ch :: rest) = headerLineLoop buf st' r' (p + 1) rest := by
  unfold headerLineLoop
  rw [scan, if_neg (by simp [hst]), h]

theorem scan_name {name : List UInt8} (h : ∀ c ∈ name, isHeaderNameChar c = true)
    (rest : List UInt8) :
    headerLineLoop buf .name r p (name ++ rest) =
      headerLineLoop buf .name r (p + name.length) rest := by
  induction name generalizing p with
  | nil => rfl
  | cons c name ih =>
    have hc := h c List.mem_cons_self
    have hcolon : c ≠ 58 := by
      rintro rfl
      cases hc
    have hstep : headerLineStep buf .name r (p + 1) c = .next .name r := by
      by_cases hlower : isLower (c ||| 0x20) = true
      · simp [headerLineStep, hlower]
      · simp [headerLineStep, hlower, hcolon, hc]
    rw [List.cons_append, scan_cons_next rfl hstep, ih fun c' hc' => h c' (List.mem_cons_of_mem _ hc'),
      List.length_cons, Nat.add_assoc, Nat.add_comm 1]

/-- The bytes of a value, after its first. -/
theorem scan_value {value : List UInt8} (hcr : CR ∉ value) (hlf : LF ∉ value)
    (rest : List UInt8) (st : HeaderLineSw) (hst : st = .value ∨ st = .spaceAfterValue) :
    ∃ st' e, (st' = .value ∨ st' = .spaceAfterValue) ∧ (value = [] → st' = st) ∧
      (value ≠ [] → value.getLast? ≠ some 32 → st' = .value) ∧
      headerLineLoop buf st r p (value ++ rest) =
        headerLineLoop buf st' { r with headerEnd := e } (p + value.length) rest := by
  induction value generalizing st r p with
  | nil =>
    refine ⟨st, r.headerEnd, hst, fun _ => rfl, ?_, rfl⟩
    intro h
    exact absurd rfl h
  | cons c value ih =>
    have hcCR : c ≠ CR := fun h => hcr (h ▸ List.mem_cons_self)
    have hcLF : c ≠ LF := fun h => hlf (h ▸ List.mem_cons_self)
    -- a blank may end the value, any other character goes on with it
    obtain ⟨st₁, e₁, hst₁, hspace, hstep⟩ : ∃ st₁ e₁, (st₁ = .value ∨ st₁ = .spaceAfterValue) ∧
        (c ≠ 32 → st₁ = .value) ∧
        headerLineStep buf st r (p + 1) c = .next st₁ { r with headerEnd := e₁ } := by
      by_cases hc : c = 32
      · rcases hst with rfl | rfl
        · exact ⟨.spaceAfterValue, p, Or.inr rfl, fun h => absurd hc h,
            by simp [headerLineStep, hc]⟩
        · exact ⟨.spaceAfterValue, r.headerEnd, Or.inr rfl, fun h => absurd hc h,
            by simp [headerLineStep, hc]⟩
      · rcases hst with rfl | rfl
        · exact ⟨.value, r.headerEnd, Or.inl rfl, fun _ => rfl,
            by simp [headerLineStep, hc, hcCR, hcLF]⟩
        · exact ⟨.value, r.headerEnd, Or.inl rfl, fun _ => rfl,
            by simp [headerLineStep, hc, hcCR, hcLF]⟩
    have hfinal : st.final = false := by rcases hst with rfl | rfl <;> rfl
    obtain ⟨st', e, hst', hnil, hlast, heq⟩ := ih (r := { r with headerEnd := e₁ }) (p := p + 1)
      (fun h => hcr (List.mem_cons_of_mem _ h)) (fun h => hlf (List.mem_cons_of_mem _ h)) st₁ hst₁
    refine ⟨st', e, hst', by simp, ?_, ?_⟩
    · intro _ h32
      -- the last character decides
      by_cases hv : value = []
      · rw [hnil hv]
        apply hspace
        rintro rfl
        rw [hv] at h32
        exact h32 rfl
      · apply hlast hv
        rwa [List.getLast?_cons, List.getLast?_eq_some_getLast hv, Option.getD_some,
          ← List.getLast?_eq_some_getLast hv] at h32
    · rw [List.cons_append, scan_cons_next hfinal hstep, heq, List.length_cons,
        Nat.add_assoc p 1, Nat.add_comm 1]

/-- A whole header line, up to its line end. -/
theorem scan_line {name value : List UInt8} (hname : HeaderName name) (hvalue : HeaderValue value)
    (rest : List UInt8) :
    ∃ r', headerLineLoop buf .start r p (name ++ [58, 32] ++ value ++ CRLF ++ rest) =
        .exit .done r' (p + (name.length + 2 + value.length + 2)) ∧
      r'.header = ⟨⟨p, name.length⟩, ⟨p + name.length + 2, value.length⟩⟩ := by
  obtain ⟨n, ns, rfl⟩ : ∃ n ns, name = n :: ns := List.exists_cons_of_ne_nil hname.nonempty
  obtain ⟨v, vs, rfl⟩ : ∃ v vs, value = v :: vs := List.exists_cons_of_ne_nil hvalue.nonempty
  have hn := hname.chars n List.mem_cons_self
  have hnCR : n ≠ CR := by
    rintro rfl
    cases hn
  have hnLF : n ≠ LF := by
    rintro rfl
    cases hn
  have hv32 : v ≠ 32 := by
    rintro rfl
    exact hvalue.first rfl
  have hvCR : v ≠ CR := fun h => hvalue.cr (h ▸ List.mem_cons_self)
  have hvLF : v ≠ LF := fun h => hvalue.lf (h ▸ List.mem_cons_self)
  -- the record when the value starts
  obtain ⟨r₁, hr₁⟩ : ∃ r₁ : ParseState, r₁ = { r with
      headerNameStart := p
      headerNameEnd := p + 1 + ns.length
      headerStart := p + 1 + ns.length + 2 } := ⟨_, rfl⟩
  have hfirst : headerLineStep buf .start r (p + 1) n =
      .next .name { r with headerNameStart := p } := by
    simp [headerLineStep, hnCR, hnLF, hn]
  have hcolon : headerLineStep buf .name { r with headerNameStart := p } (p + 1 + ns.length + 1) 58 =
      .next .spaceBeforeValue { r with
        headerNameStart := p, headerNameEnd := p + 1 + ns.length } := by
    have h58 : isLower (58 ||| 0x20) = false := by decide
    simp [headerLineStep, h58]
  have hspace : headerLineStep buf .spaceBeforeValue { r with
      headerNameStart := p, headerNameEnd := p + 1 + ns.length } (p + 1 + ns.length + 1 + 1) 32 =
      .next .spaceBeforeValue { r with
        headerNameStart := p, headerNameEnd := p + 1 + ns.length } := by
    simp [headerLineStep]
  have hstart : headerLineStep buf .spaceBeforeValue { r with
      headerNameStart := p, headerNameEnd := p + 1 + ns.length }
      (p + 1 + ns.length + 1 + 1 + 1) v = .next .value r₁ := by
    rw [hr₁]
    simp [headerLineStep, hv32, hvCR, hvLF]
  obtain ⟨st', e, -, hnil, hlast, hscan⟩ := @scan_value buf r₁ (p + 1 + ns.length + 1 + 1 + 1) vs
    (fun h => hvalue.cr (List.mem_cons_of_mem _ h)) (fun h => hvalue.lf (List.mem_cons_of_mem _ h))
    (CRLF ++ rest) .value (Or.inl rfl)
  have hst' : st' = .value := by
    by_cases hvs : vs = []
    · exact hnil hvs
    · apply hlast hvs
      have h32 := hvalue.last
      rwa [List.getLast?_cons, List.getLast?_eq_some_getLast hvs, Option.getD_some,
        ← List.getLast?_eq_some_getLast hvs] at h32
  subst hst'
  obtain ⟨q, hq⟩ : ∃ q, q = p + 1 + ns.length + 1 + 1 + 1 + vs.length := ⟨_, rfl⟩
  have hcr : headerLineStep buf .value { r₁ with headerEnd := e } (q + 1) CR =
      .next .almostDone { r₁ with headerEnd := q } := by
    have h13 : CR ≠ 32 := by decide
    simp [headerLineStep, h13]
  have hlf : headerLineStep buf .almostDone { r₁ with headerEnd := q } (q + 1 + 1) LF =
      .next .done { r₁ with headerEnd := q } := by
    simp [headerLineStep]
  refine ⟨{ r₁ with headerEnd := q }, ?_, ?_⟩
  · have hlist : n :: ns ++ [58, 32] ++ v :: vs ++ CRLF ++ rest =
        n :: (ns ++ 58 :: 32 :: v :: (vs ++ (CRLF ++ rest))) := by simp
    have htail : CRLF ++ rest = CR :: LF :: rest := rfl
    rw [hlist, scan_cons_next rfl hfirst,
      scan_name fun c hc => hname.chars c (List.mem_cons_of_mem _ hc),
      scan_cons_next rfl hcolon, scan_cons_next rfl hspace, scan_cons_next rfl hstart, hscan, htail,
      ← hq, scan_cons_next rfl hcr, scan_cons_next rfl hlf]
    have hfinal : HeaderLineSw.final .done = true := rfl
    unfold headerLineLoop
    rw [scan_of_final hfinal]
    simp only [List.length_cons]
    congr 1
    omega
  · rw [hr₁]
    unfold ParseState.header
    simp only [List.length_cons, HeaderIn.mk.injEq, Span.mk.injEq, true_and]
    omega

theorem parseHeaderLine_line {b : Buf} {name value rest : List UInt8} (hr : r.state = 0)
    (hname : HeaderName name) (hvalue : HeaderValue value)
    (hb : b.unread = name ++ [58, 32] ++ value ++ CRLF ++ rest) :
    ∃ r', parseHeaderLine r b = (.ok, r', { b with
        pos := b.pos + (name.length + 2 + value.length + 2) }) ∧ r'.state = 0 ∧
      r'.header = ⟨⟨b.pos, name.length⟩, ⟨b.pos + name.length + 2, value.length⟩⟩ := by
  obtain ⟨r', hloop, hheader⟩ := @scan_line b.bytes r b.pos _ _ hname hvalue rest
  refine ⟨{ r' with state := 0 }, ?_, rfl, hheader⟩
  unfold parseHeaderLine
  rw [hr, hb]
  have hstart : HeaderLineSw.ofUint 0 = .start := rfl
  rw [hstart, hloop]

theorem parseHeaderLine_end {b : Buf} (hr : r.state = 0) (hb : b.unread = CRLF) :
    ∃ r', parseHeaderLine r b = (.headerDone, r', { b with pos := b.pos + 2 }) := by
  unfold parseHeaderLine
  rw [hr, hb]
  exact ⟨_, rfl⟩

/-- What was written is read, entry for entry. -/
theorem readHeaders_encode {b : Buf} (ts : List TableData) (hr : r.state = 0)
    (hts : ∀ t ∈ ts, HeaderName t.key.bytes ∧ HeaderValue t.value.bytes)
    (hb : b.unread = ts.flatMap encodeHeader ++ CRLF) {fuel : Nat} (hfuel : ts.length < fuel) :
    readHeaders fuel r b =
      some (ts.map fun t => (t.key.bytes, t.value.bytes), { b with pos := b.last }) := by
  induction ts generalizing r b fuel with
  | nil =>
    obtain ⟨fuel, rfl⟩ : ∃ n, fuel = n + 1 := Nat.exists_eq_succ_of_ne_zero (by omega)
    obtain ⟨r', hparse⟩ := parseHeaderLine_end hr hb
    have hlast : b.pos + 2 = b.last := by
      have hlen := congrArg List.length hb
      simp only [Buf.unread, List.length_drop, List.flatMap_nil, List.nil_append] at hlen
      have htwo : CRLF.length = 2 := rfl
      unfold Buf.last
      omega
    unfold readHeaders
    rw [hparse, hlast]
    rfl
  | cons t ts ih =>
    obtain ⟨fuel, rfl⟩ : ∃ n, fuel = n + 1 := Nat.exists_eq_succ_of_ne_zero (by omega)
    obtain ⟨hname, hvalue⟩ := hts t List.mem_cons_self
    have hencode : encodeHeader t = t.key.bytes ++ [58, 32] ++ t.value.bytes ++ CRLF := rfl
    rw [List.flatMap_cons, List.append_assoc, hencode] at hb
    obtain ⟨r', hparse, hr', hheader⟩ := parseHeaderLine_line hr hname hvalue hb
    obtain ⟨b', hb'⟩ : ∃ b' : Buf, b' = { b with
      pos := b.pos + (t.key.bytes.length + 2 + t.value.bytes.length + 2) } := ⟨_, rfl⟩
    rw [← hb'] at hparse
    have hline : (t.key.bytes ++ [58, 32] ++ t.value.bytes ++ CRLF).length =
        t.key.bytes.length + 2 + t.value.bytes.length + 2 := by
      simp only [List.length_append]
      rfl
    -- one line has been read
    have hrest : b'.unread = ts.flatMap encodeHeader ++ CRLF := by
      rw [hb']
      show b.bytes.drop (b.pos + _) = _
      rw [← List.drop_drop]
      show b.unread.drop _ = _
      rw [hb, ← hline, List.drop_left]
    have hkey : b'.span b.pos t.key.bytes.length = t.key.bytes := by
      rw [hb']
      show b.unread.take _ = _
      rw [hb]
      simp only [List.append_assoc, List.take_left]
    have hval : b'.span (b.pos + t.key.bytes.length + 2) t.value.bytes.length = t.value.bytes := by
      rw [hb']
      show (b.bytes.drop (b.pos + t.key.bytes.length + 2)).take _ = _
      rw [Nat.add_assoc, ← List.drop_drop]
      show (b.unread.drop _).take _ = _
      have hskip : t.key.bytes.length + 2 = (t.key.bytes ++ [58, 32]).length := by simp
      rw [hb, hskip]
      simp only [List.append_assoc]
      rw [← List.append_assoc, List.drop_left, List.take_left]
    have hshorter : ts.length < fuel := by
      rw [List.length_cons] at hfuel
      omega
    -- and the others are read behind it
    have ih' := ih hr' (fun t' ht' => hts t' (List.mem_cons_of_mem _ ht')) hrest hshorter
    have hend : { b' with pos := b'.last } = { b with pos := b.last } := by
      rw [hb']
      rfl
    unfold readHeaders
    rw [hparse]
    simp only [ih', hheader, hkey, hval, hend, Option.map_some, List.map_cons]

end

section

variable {buf : List UInt8} {r r' : ParseState} {p : Nat}

def CleanTo (buf : List UInt8) (r : ParseState) (e : Nat) : Prop :=
  ∀ i c, r.headerStart ≤ i → i < e → buf[i]? = some c → c ≠ CR ∧ c ≠ LF

def ValueInv (buf : List UInt8) (st : HeaderLineSw) (r : ParseState) (p : Nat) : Prop :=
  match st with
  | .value => CleanTo buf r p
  | .spaceAfterValue => CleanTo buf r p ∧ r.headerEnd ≤ p
  | .almostDone | .done => CleanTo buf r r.headerEnd
  | _ => True

theorem CleanTo.next {ch : UInt8} (h : CleanTo buf r p) (hch : buf[p]? = some ch) (hcr : ch ≠ CR)
    (hlf : ch ≠ LF) : CleanTo buf r (p + 1) := by
  intro i c hstart hi hc
  by_cases hip : i = p
  · rw [hip, hch] at hc
    rw [← Option.some.inj hc]
    exact ⟨hcr, hlf⟩
  · exact h i c hstart (by omega) hc

theorem headerLineStep_value {st st' : HeaderLineSw} {ch : UInt8} (hI : ValueInv buf st r p)
    (hch : buf[p]? = some ch) (hs : headerLineStep buf st r (p + 1) ch = .next st' r') :
    ValueInv buf st' r' (p + 1) := by
  cases st with
  | spaceBeforeValue =>
    simp only [headerLineStep, Nat.add_sub_cancel] at hs
    split_ifs at hs with hsp hcr hlf
    · cases hs
      trivial
    · cases hs
      intro i c hstart hi _
      simp only at hstart hi
      omega
    · cases hs
      intro i c hstart hi _
      simp only at hstart hi
      omega
    · cases hs
      -- the value starts at this byte
      intro i c hstart hi hc
      simp only at hstart
      have hip : i = p := by omega
      rw [hip, hch] at hc
      rw [← Option.some.inj hc]
      exact ⟨hcr, hlf⟩
  | value =>
    simp only [headerLineStep, Nat.add_sub_cancel] at hs
    split_ifs at hs with hsp hcr hlf
    · cases hs
      exact ⟨CleanTo.next hI hch (by rw [hsp]; decide) (by rw [hsp]; decide), Nat.le_succ p⟩
    · cases hs
      exact hI
    · cases hs
      exact hI
    · cases hs
      exact CleanTo.next hI hch hcr hlf
  | spaceAfterValue =>
    obtain ⟨hclean, hend⟩ := hI
    simp only [headerLineStep] at hs
    split_ifs at hs with hsp hcr hlf
    · cases hs
      exact ⟨hclean.next hch (by rw [hsp]; decide) (by rw [hsp]; decide), Nat.le_succ_of_le hend⟩
    · cases hs
      intro i c hstart hi hc
      exact hclean i c hstart (by omega) hc
    · cases hs
      intro i c hstart hi hc
      exact hclean i c hstart (by omega) hc
    · cases hs
      exact hclean.next hch hcr hlf
  | almostDone =>
    simp only [headerLineStep] at hs
    split_ifs at hs
    cases hs
    exact hI
  | start | name | ignoreLine | headerAlmostDone =>
    simp only [headerLineStep] at hs
    split_ifs at hs <;> cases hs <;> trivial
  | done | headerDone =>
    simp only [headerLineStep] at hs
    cases hs
    exact hI

/-- A value that has been read holds no line end. -/
theorem parseHeaderLine_value {b b' : Buf} (hr : r.state = 0)
    (h : parseHeaderLine r b = (.ok, r', b')) :
    r'.state = 0 ∧ ∀ c ∈ b'.span r'.header.value.start r'.header.value.len, c ≠ CR ∧ c ≠ LF := by
  have hbytes : b'.bytes = b.bytes := by rw [(parseHeaderLine_advances h).eq]
  obtain ⟨r₁, hloop, hr'⟩ := parseHeaderLine_ok h
  rw [hr] at hloop
  have hI : ValueInv b.bytes .done r₁ b'.pos := by
    refine scan_invariant_drop (I := ValueInv b.bytes) ?_ hloop trivial
    intro st r p x st' r' hI hx _ hs
    exact headerLineStep_value hI hx hs
  subst hr'
  refine ⟨rfl, ?_⟩
  intro c hc
  unfold Buf.span at hc
  rw [hbytes] at hc
  obtain ⟨i, hi, hget⟩ := List.getElem_of_mem hc
  rw [List.length_take] at hi
  rw [List.getElem_take, List.getElem_drop] at hget
  have hlen : i < r₁.headerEnd - r₁.headerStart := by
    have : i < r₁.header.value.len := by
      show i < ({ r₁ with state := 0 } : ParseState).header.value.len
      omega
    exact this
  refine hI (r₁.headerStart + i) c (Nat.le_add_right _ _) (by omega) ?_
  rw [← hget]
  exact List.getElem?_eq_getElem _

theorem readHeaders_clean {fuel : Nat} {b e : Buf} {entries : List (List UInt8 × List UInt8)}
    (hr : r.state = 0) (h : readHeaders fuel r b = some (entries, e)) :
    ∀ entry ∈ entries, OneLine entry.2 := by
  induction fuel generalizing r b entries with
  | zero => cases h
  | succ fuel ih =>
    unfold readHeaders at h
    split at h
    · next r' b' hparse =>
      obtain ⟨hr', hvalue⟩ := parseHeaderLine_value hr hparse
      obtain ⟨⟨rest, e'⟩, hrest, heq⟩ := Option.map_eq_some_iff.1 h
      cases heq
      intro entry hentry
      rcases List.mem_cons.1 hentry with rfl | hentry
      · exact ⟨fun hm => (hvalue _ hm).1 rfl, fun hm => (hvalue _ hm).2 rfl⟩
      · exact ih hr' hrest entry hentry
    · cases h
      intro entry hentry
      cases hentry
    · cases h

end

end Ehd.Http
