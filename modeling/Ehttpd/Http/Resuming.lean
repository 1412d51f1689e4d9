import Ehttpd.Http.HeaderLine
import Ehttpd.Lib.Resumable

namespace Ehd.Http

open Scanner

variable {r r' q : ParseState} {b b' x : Buf} {rc : Rc}

theorem pos_unread_length (hb : b.pos ≤ b.last) : b.pos + b.unread.length = b.last := by
  unfold Buf.unread Buf.last at *
  rw [List.length_drop]
  omega

section OnBuf

variable {σ : Type} {P : Parser σ ParseState Rc UInt8}

def onBuf (P : Parser σ ParseState Rc UInt8) (r : ParseState) (b : Buf) :
    Rc × ParseState × Buf :=
  ((P.call b.bytes r b.pos).1, (P.call b.bytes r b.pos).2.1,
    { b with pos := (P.call b.bytes r b.pos).2.2 })

theorem onBuf_resume (hP : P.Lawful) (hmore : P.more = .again) (hb : b.pos ≤ b.last)
    (h : onBuf P r b = (.again, r', b')) (bs : List UInt8) (hrc : ¬ P.rejects rc)
    (h' : onBuf P r' (b'.append bs) = (rc, q, x)) : onBuf P r (b.append bs) = (rc, q, x) := by
  have hcode : (P.call b.bytes r b.pos).1 = P.more := by
    rw [hmore]
    exact congrArg Prod.fst h
  obtain rfl : (P.call b.bytes r b.pos).2.1 = r' := congrArg (fun t => t.2.1) h
  obtain rfl : { b with pos := (P.call b.bytes r b.pos).2.2 } = b' := congrArg (fun t => t.2.2) h
  have hagree := Parser.call_resume hP hb hcode bs
  have hrc' : ¬ P.rejects (P.call (b.bytes ++ bs) r b.pos).1 := by
    rw [← hagree.code]
    exact (congrArg Prod.fst h').symm ▸ hrc
  have hsame := Prod.ext hagree.code (hagree.rest hrc')
  rw [← h']
  show ((P.call (b.bytes ++ bs) r b.pos).1, (P.call (b.bytes ++ bs) r b.pos).2.1,
    ({ b.append bs with pos := (P.call (b.bytes ++ bs) r b.pos).2.2 } : Buf)) = _
  rw [← hsame]
  rfl

theorem onBuf_append (hP : P.Lawful) (hmore : P.more = .again) (hb : b.pos ≤ b.last)
    (h : onBuf P r b = (rc, r', b')) (hrc : rc ≠ .again) (bs : List UInt8) :
    onBuf P r (b.append bs) = (rc, r', b'.append bs) := by
  obtain rfl : (P.call b.bytes r b.pos).1 = rc := congrArg Prod.fst h
  obtain rfl : (P.call b.bytes r b.pos).2.1 = r' := congrArg (fun t => t.2.1) h
  obtain rfl : { b with pos := (P.call b.bytes r b.pos).2.2 } = b' := congrArg (fun t => t.2.2) h
  rw [← hmore] at hrc
  have hsame := Parser.call_append hP hb hrc bs
  show ((P.call (b.bytes ++ bs) r b.pos).1, (P.call (b.bytes ++ bs) r b.pos).2.1,
    ({ b.append bs with pos := (P.call (b.bytes ++ bs) r b.pos).2.2 } : Buf)) = _
  rw [hsame]
  rfl

end OnBuf

theorem methodOf_congr {m m' : Nat → UInt8} {len : Nat} (h : ∀ i < len, m i = m' i) :
    methodOf r m len = methodOf r m' len := by
  unfold methodOf
  by_cases h3 : len = 3
  · rw [if_pos h3, if_pos h3, h 0 (by omega), h 1 (by omega), h 2 (by omega)]
  · rw [if_neg h3, if_neg h3]
    by_cases h4 : len = 4
    · rw [if_pos h4, if_pos h4, h 0 (by omega), h 1 (by omega), h 2 (by omega), h 3 (by omega)]
    · rw [if_neg h4, if_neg h4]

theorem requestLineStep_congr {buf buf' : List UInt8} {n p : Nat} {st : RequestLineSw} {ch : UInt8}
    (h : buf.take n = buf'.take n) (hp : p ≤ n) :
    requestLineStep buf st r p ch = requestLineStep buf' st r p ch := by
  cases st
  case method =>
    simp only [requestLineStep]
    have hm : methodOf r (fun i => buf.getD (r.requestStart + i) 0) (p - 1 - r.requestStart) =
        methodOf r (fun i => buf'.getD (r.requestStart + i) 0) (p - 1 - r.requestStart) := by
      apply methodOf_congr
      intro i hi
      have hget := congrArg (fun l : List UInt8 => l[r.requestStart + i]?) h
      simp only [List.getElem?_take] at hget
      rw [if_pos (by omega), if_pos (by omega)] at hget
      rw [List.getD_eq_getElem?_getD, List.getD_eq_getElem?_getD, hget]
    rw [hm]
  all_goals rfl

theorem requestLineStep_state {buf : List UInt8} {n p : Nat} {st : RequestLineSw} {ch : UInt8} :
    requestLineStep buf st { r with state := n } p ch =
      (requestLineStep buf st r p ch).map fun r => { r with state := n } := by
  cases st <;> simp only [requestLineStep]
  all_goals (repeat' split)
  all_goals rfl

theorem requestLineDone_state (n p : Nat) :
    requestLineDone { r with state := n } p = requestLineDone r p := rfl

def requestLineParser : Parser RequestLineSw ParseState Rc UInt8 where
  final := (· == .done)
  step := requestLineStep
  load r := .ofUint r.state
  save st r := { r with state := st.toUint }
  finish _ r p := requestLineDone r p
  more := .again
  rejects rc := rc = .invalidMethod ∨ rc = .invalidRequest

theorem requestLineParser_lawful : requestLineParser.Lawful where
  load_save st _ := RequestLineSw.ofUint_toUint st
  save_save _ _ _ := rfl
  step_save _ _ _ _ _ _ := requestLineStep_state
  finish_save _ st r p := requestLineDone_state st.toUint p
  step_congr _ _ _ _ _ _ _ h hp := requestLineStep_congr h hp
  stop _ _ _ _ _ _ _ h := requestLineStep_stop h
  more := by
    intro h
    rcases h with h | h
    · cases h
    · cases h
  finish_ne _ r p _ := by
    show (requestLineDone r p).1 ≠ .again
    rcases (requestLineDone_spec r p).1 with h | h
    · rw [h]
      decide
    · rw [h]
      decide

theorem parseRequestLine_of_exit {st : RequestLineSw} {p : Nat} (hst : st ≠ .done)
    (hloop : requestLineLoop b.bytes (.ofUint r.state) r b.pos b.unread = .exit st r' p) :
    parseRequestLine r b = (.again, { r' with state := st.toUint }, { b with pos := p }) := by
  unfold parseRequestLine
  rw [hloop]
  cases st <;> first | rfl | exact absurd rfl hst

theorem parseRequestLine_eq : parseRequestLine = onBuf requestLineParser := by
  funext r b
  cases hloop : requestLineLoop b.bytes (.ofUint r.state) r b.pos b.unread with
  | stop rc r' =>
    unfold onBuf
    rw [Parser.call_of_stop (P := requestLineParser) hloop]
    exact parseRequestLine_of_stop hloop
  | exit st r' p =>
    unfold onBuf
    by_cases hst : st = .done
    · subst hst
      rw [Parser.call_of_final (P := requestLineParser) rfl hloop]
      exact parseRequestLine_of_done hloop
    · rw [Parser.call_of_exit (P := requestLineParser) (beq_eq_false_iff_ne.2 hst) hloop]
      exact parseRequestLine_of_exit hst hloop

theorem parseRequestLine_resume (hb : b.pos ≤ b.last)
    (h : parseRequestLine r b = (.again, r', b')) (bs : List UInt8) (hrc : rc = .ok ∨ rc = .again)
    (h' : parseRequestLine r' (b'.append bs) = (rc, q, x)) :
    parseRequestLine r (b.append bs) = (rc, q, x) := by
  rw [parseRequestLine_eq] at *
  apply onBuf_resume requestLineParser_lawful rfl hb h bs _ h'
  intro hrejects
  rcases hrejects with rfl | rfl <;> rcases hrc with h | h <;> cases h

theorem parseRequestLine_append (hb : b.pos ≤ b.last)
    (h : parseRequestLine r b = (.ok, r', b')) (bs : List UInt8) :
    parseRequestLine r (b.append bs) = (.ok, r', b'.append bs) := by
  rw [parseRequestLine_eq] at *
  exact onBuf_append requestLineParser_lawful rfl hb h (by decide) bs

/-- The request line never sets `proxy`. -/
theorem parseRequestLine_proxy (hr : r.proxy = false) (h : parseRequestLine r b = (rc, r', b')) :
    r'.proxy = false := by
  have hkeeps : ∀ st r p ch st' r', True → r.proxy = false →
      requestLineStep b.bytes st r p ch = .next st' r' → True ∧ r'.proxy = false := by
    intro st r p ch st' r' _ hr hs
    cases st <;> simp only [requestLineStep] at hs
    all_goals (repeat' split at hs)
    all_goals (cases hs <;> exact ⟨trivial, hr⟩)
  have hstop : ∀ st r p ch rc r', True → r.proxy = false →
      requestLineStep b.bytes st r p ch = .stop rc r' → r'.proxy = false := by
    intro st r p ch rc r' _ hr hs
    cases st <;> simp only [requestLineStep] at hs
    all_goals (repeat' split at hs)
    all_goals (cases hs <;> exact hr)
  have hrecord : (scan (· == RequestLineSw.done) (requestLineStep b.bytes) (.ofUint r.state) r b.pos
      b.unread).record.proxy = false :=
    scan_keeps hkeeps hstop trivial hr
  unfold parseRequestLine requestLineLoop at h
  split at h
  · rename_i rc' r₁ hloop
    rw [hloop] at hrecord
    cases h
    exact hrecord
  · rename_i r₁ p hloop
    rw [hloop] at hrecord
    have hr₁ : r₁.proxy = false := hrecord
    obtain rfl : (requestLineDone r₁ p).2 = r' := congrArg (fun t => t.2.1) h
    rw [requestLineDone_record]
    exact hr₁
  · rename_i st r₁ p _ hloop
    rw [hloop] at hrecord
    cases h
    exact hrecord

theorem headerLineStep_congr {buf buf' : List UInt8} {p : Nat} {st : HeaderLineSw} {ch : UInt8}
    (hr : r.proxy = false) : headerLineStep buf st r p ch = headerLineStep buf' st r p ch := by
  cases st
  case name => simp only [headerLineStep, hr, Bool.false_eq_true, false_and, and_false, if_false]
  all_goals rfl

theorem headerLineLoop_congr {buf : List UInt8} (buf' : List UInt8) {st : HeaderLineSw} {p : Nat}
    {xs : List UInt8} (hr : r.proxy = false) :
    headerLineLoop buf st r p xs = headerLineLoop buf' st r p xs :=
  scan_congr (I := fun r => r.proxy = false) (n := p + xs.length)
    (fun _ _ _ _ hr _ => headerLineStep_congr hr) (headerLine_controls buf).keeps hr (Nat.le_refl _)

theorem headerLineStep_state {buf : List UInt8} {n p : Nat} {st : HeaderLineSw} {ch : UInt8} :
    headerLineStep buf st { r with state := n } p ch =
      (headerLineStep buf st r p ch).map fun r => { r with state := n } := by
  cases st <;> simp only [headerLineStep]
  all_goals (repeat' split)
  all_goals rfl

theorem headerLineStep_uriExt {buf : List UInt8} {e : Option Nat} {p : Nat} {st : HeaderLineSw}
    {ch : UInt8} : headerLineStep buf st { r with uriExt := e } p ch =
      (headerLineStep buf st r p ch).map fun r => { r with uriExt := e } := by
  cases st <;> simp only [headerLineStep]
  all_goals (repeat' split)
  all_goals rfl

structure SameLine (r r' : ParseState) : Prop where
  method : r'.method = r.method
  uriStart : r'.uriStart = r.uriStart
  uriEnd : r'.uriEnd = r.uriEnd
  proxy : r'.proxy = r.proxy

theorem SameLine.refl (r : ParseState) : SameLine r r := ⟨rfl, rfl, rfl, rfl⟩

theorem SameLine.trans {r r' r'' : ParseState} (h : SameLine r r') (h' : SameLine r' r'') :
    SameLine r r'' :=
  ⟨h'.method.trans h.method, h'.uriStart.trans h.uriStart, h'.uriEnd.trans h.uriEnd,
    h'.proxy.trans h.proxy⟩

/-- The header lines write nothing but the marks of the header and the state. -/
def OnlyHeader (r r' : ParseState) : Prop :=
  r' = { r with
    state := r'.state
    headerNameStart := r'.headerNameStart
    headerNameEnd := r'.headerNameEnd
    headerStart := r'.headerStart
    headerEnd := r'.headerEnd }

theorem OnlyHeader.trans {r r' r'' : ParseState} (h : OnlyHeader r r') (h' : OnlyHeader r' r'') :
    OnlyHeader r r'' := by
  unfold OnlyHeader at *
  rw [h', h]

theorem parseHeaderLine_onlyHeader (h : parseHeaderLine r b = (rc, r', b')) : OnlyHeader r r' := by
  have hkeeps : ∀ st r₁ p ch st' r₂, True → OnlyHeader r r₁ →
      headerLineStep b.bytes st r₁ p ch = .next st' r₂ → True ∧ OnlyHeader r r₂ := by
    intro st r₁ p ch st' r₂ _ hr hs
    cases st <;> simp only [headerLineStep] at hs
    all_goals (repeat' split at hs)
    all_goals (cases hs <;> exact ⟨trivial, hr.trans rfl⟩)
  have hstop : ∀ st r₁ p ch rc r₂, True → OnlyHeader r r₁ →
      headerLineStep b.bytes st r₁ p ch = .stop rc r₂ → OnlyHeader r r₂ := by
    intro st r₁ p ch rc r₂ _ hr hs
    cases st <;> simp only [headerLineStep] at hs
    all_goals (repeat' split at hs)
    all_goals (cases hs <;> exact hr.trans rfl)
  have hrecord : OnlyHeader r (scan HeaderLineSw.final (headerLineStep b.bytes) (.ofUint r.state) r
      b.pos b.unread).record :=
    scan_keeps hkeeps hstop trivial rfl
  unfold parseHeaderLine headerLineLoop at h
  split at h
  all_goals
    rename_i hloop
    rw [hloop] at hrecord
    cases h
    exact hrecord.trans rfl

theorem OnlyHeader.sameLine {r r' : ParseState} (h : OnlyHeader r r') : SameLine r r' := by
  unfold OnlyHeader at h
  rw [h]
  exact ⟨rfl, rfl, rfl, rfl⟩

theorem parseHeaderLine_sameLine (h : parseHeaderLine r b = (rc, r', b')) : SameLine r r' :=
  (parseHeaderLine_onlyHeader h).sameLine

theorem parseHeaderLine_unread {c : Buf} (hr : r.proxy = false) (hpos : c.pos = b.pos)
    (hunread : c.unread = b.unread) (h : parseHeaderLine r b = (rc, r', b')) :
    parseHeaderLine r c = (rc, r', { c with pos := b'.pos }) := by
  unfold parseHeaderLine at h ⊢
  rw [hpos, hunread, headerLineLoop_congr b.bytes hr]
  split at h
  all_goals
    cases h
    first | rfl | rw [← hpos]

/-- The extension of the URI is not looked at. -/
theorem parseHeaderLine_uriExt (e : Option Nat) (h : parseHeaderLine r b = (rc, r', b')) :
    parseHeaderLine { r with uriExt := e } b = (rc, { r' with uriExt := e }, b') := by
  have hmap : headerLineLoop b.bytes (.ofUint r.state) { r with uriExt := e } b.pos b.unread =
      (headerLineLoop b.bytes (.ofUint r.state) r b.pos b.unread).map fun r =>
        { r with uriExt := e } := scan_map (fun _ _ _ _ => headerLineStep_uriExt) _ _ _ _
  cases hloop : headerLineLoop b.bytes (.ofUint r.state) r b.pos b.unread with
  | stop rc' r₁ =>
    rw [hloop] at hmap
    rw [parseHeaderLine_of_stop hloop] at h
    cases h
    exact parseHeaderLine_of_stop hmap
  | exit st r₁ p =>
    rw [hloop] at hmap
    cases hst : st.final with
    | false =>
      rw [parseHeaderLine_of_exit hst hloop] at h
      cases h
      exact parseHeaderLine_of_exit (r := { r with uriExt := e }) hst hmap
    | true =>
      cases st with
      | done =>
        rw [parseHeaderLine_of_done hloop] at h
        cases h
        exact parseHeaderLine_of_done (r := { r with uriExt := e }) hmap
      | headerDone =>
        rw [parseHeaderLine_of_headerDone hloop] at h
        cases h
        exact parseHeaderLine_of_headerDone (r := { r with uriExt := e }) hmap
      | _ => cases hst

/-- With a proxy they look at bytes that have been passed. -/
theorem headerLineStep_take {buf buf' : List UInt8} {n p : Nat} {st : HeaderLineSw} {ch : UInt8}
    (h : buf.take n = buf'.take n) (hp : p ≤ n) :
    headerLineStep buf st r p ch = headerLineStep buf' st r p ch := by
  cases st
  case name =>
    have hproxy : (p - r.headerStart = 5 ∧ (buf.drop r.headerStart).take 4 = ascii "HTTP") ↔
        (p - r.headerStart = 5 ∧ (buf'.drop r.headerStart).take 4 = ascii "HTTP") := by
      apply and_congr_right
      intro h5
      have hdrop := congrArg (fun l : List UInt8 => (l.drop r.headerStart).take 4) h
      simp only [List.drop_take, List.take_take] at hdrop
      rw [Nat.min_eq_left (by omega)] at hdrop
      rw [hdrop]
    simp only [headerLineStep, hproxy]
  all_goals rfl

def headerLineParser : Parser HeaderLineSw ParseState Rc UInt8 where
  final := HeaderLineSw.final
  step := headerLineStep
  load r := .ofUint r.state
  save st r := { r with state := st.toUint }
  finish st r _ := (if st = .done then .ok else .headerDone, { r with state := 0 })
  more := .again
  rejects rc := rc = .invalidHeader

theorem headerLineParser_lawful : headerLineParser.Lawful where
  load_save st _ := HeaderLineSw.ofUint_toUint st
  save_save _ _ _ := rfl
  step_save _ _ _ _ _ _ := headerLineStep_state
  finish_save _ _ _ _ := rfl
  step_congr _ _ _ _ _ _ _ h hp := headerLineStep_take h hp
  stop _ _ _ _ _ _ _ h := headerLineStep_stop h
  more := by
    intro h
    cases h
  finish_ne st _ _ _ := by
    show (if st = .done then Rc.ok else Rc.headerDone) ≠ .again
    split
    · decide
    · decide

theorem parseHeaderLine_eq : parseHeaderLine = onBuf headerLineParser := by
  funext r b
  cases hloop : headerLineLoop b.bytes (.ofUint r.state) r b.pos b.unread with
  | stop rc r' =>
    unfold onBuf
    rw [Parser.call_of_stop (P := headerLineParser) hloop, parseHeaderLine_of_stop hloop]
    rw [← scan_stop (C := (Rc.invalidHeader = ·)) (fun _ _ _ _ _ _ h => (headerLineStep_stop h).symm)
      hloop]
  | exit st r' p =>
    unfold onBuf
    cases hst : st.final with
    | false =>
      rw [Parser.call_of_exit (P := headerLineParser) hst hloop, (scan_exit hloop).2.2 hst]
      rw [(scan_exit hloop).2.2 hst] at hloop
      exact parseHeaderLine_of_exit hst hloop
    | true =>
      rw [Parser.call_of_final (P := headerLineParser) hst hloop]
      cases st with
      | done => exact parseHeaderLine_of_done hloop
      | headerDone => exact parseHeaderLine_of_headerDone hloop
      | _ => cases hst

theorem parseHeaderLine_resume (hb : b.pos ≤ b.last)
    (h : parseHeaderLine r b = (.again, r', b')) (bs : List UInt8) (hrc : rc ≠ .invalidHeader)
    (h' : parseHeaderLine r' (b'.append bs) = (rc, q, x)) :
    parseHeaderLine r (b.append bs) = (rc, q, x) := by
  rw [parseHeaderLine_eq] at *
  exact onBuf_resume headerLineParser_lawful rfl hb h bs hrc h'

/-- A header line that has been read, or the end of the headers, is read with anything
behind it. -/
theorem parseHeaderLine_append (hb : b.pos ≤ b.last) (h : parseHeaderLine r b = (rc, r', b'))
    (hrc : rc = .ok ∨ rc = .headerDone) (bs : List UInt8) :
    parseHeaderLine r (b.append bs) = (rc, r', b'.append bs) := by
  rw [parseHeaderLine_eq] at *
  apply onBuf_append headerLineParser_lawful rfl hb h _ bs
  rcases hrc with rfl | rfl
  · decide
  · decide

/-- Calls of a parser while pieces are revealed behind `b->last`: one on what the
buffer holds, and one after each piece, until the result is not `EHD_AGAIN`. -/
def parsePieces (parse : ParseState → Buf → Rc × ParseState × Buf) (r : ParseState) (b : Buf) :
    List (List UInt8) → Rc × ParseState × Buf
  | [] => parse r b
  | w :: ws =>
    match parse r b with
    | (.again, r', b') => parsePieces parse r' (b'.append w) ws
    | outcome => outcome

/-- One return code; after `EHD_OK`, `EHD_HTTP_PARSE_HEADER_DONE` and `EHD_AGAIN` one
request and one `b->pos` too. -/
structure SameOutcome (x y : Rc × ParseState × Buf) : Prop where
  code : x.1 = y.1
  request : y.1 = .ok ∨ y.1 = .headerDone ∨ y.1 = .again → x.2.1 = y.2.1
  pos : y.1 = .ok ∨ y.1 = .headerDone ∨ y.1 = .again → x.2.2.pos = y.2.2.pos

/-- The calls on the pieces are the calls of the scanner. -/
theorem parsePieces_onBuf {σ : Type} (P : Parser σ ParseState Rc UInt8) (hmore : P.more = .again)
    (r : ParseState) (b : Buf) (ws : List (List UInt8)) :
    (parsePieces (onBuf P) r b ws).1 = (P.calls b.bytes r b.pos ws).1 ∧
      (parsePieces (onBuf P) r b ws).2.1 = (P.calls b.bytes r b.pos ws).2.1 ∧
      (parsePieces (onBuf P) r b ws).2.2.pos = (P.calls b.bytes r b.pos ws).2.2 := by
  induction ws generalizing r b with
  | nil => exact ⟨rfl, rfl, rfl⟩
  | cons w ws ih =>
    unfold parsePieces Parser.calls onBuf
    by_cases hcode : (P.call b.bytes r b.pos).1 = P.more
    · rw [if_pos hcode, hcode, hmore]
      exact ih _ _
    · rw [if_neg hcode]
      rw [hmore] at hcode
      split
      · rename_i heq
        exact absurd (congrArg Prod.fst heq) hcode
      · exact ⟨rfl, rfl, rfl⟩

theorem parsePieces_same {σ : Type} {P : Parser σ ParseState Rc UInt8} (hP : P.Lawful)
    (hmore : P.more = .again)
    (hgoes : ∀ rc, rc = .ok ∨ rc = .headerDone ∨ rc = .again → ¬ P.rejects rc)
    (hb : b.pos ≤ b.last) (ws : List (List UInt8)) :
    SameOutcome (parsePieces (onBuf P) r b ws) (onBuf P r (b.append ws.flatten)) := by
  obtain ⟨hcode, hrecord, hpos⟩ := parsePieces_onBuf P hmore r b ws
  have hagree := Parser.calls_agree (r := r) hP ws hb
  constructor
  · rw [hcode]
    exact hagree.code
  · intro hrc
    rw [hrecord, hagree.rest (hgoes _ hrc)]
    rfl
  · intro hrc
    rw [hpos, hagree.rest (hgoes _ hrc)]
    rfl

theorem requestLineParser_goes (rc : Rc) (hrc : rc = .ok ∨ rc = .headerDone ∨ rc = .again) :
    ¬ requestLineParser.rejects rc := by
  intro hrejects
  rcases hrejects with rfl | rfl <;> rcases hrc with h | h | h <;> cases h

/-- Both parsers give on the pieces of a text what they give on all of it, from every
request and at every place of the buffer. -/
theorem parsers_resume (r : ParseState) (b : Buf) (hb : b.pos ≤ b.last) (ws : List (List UInt8)) :
    SameOutcome (parsePieces parseRequestLine r b ws) (parseRequestLine r (b.append ws.flatten)) ∧
      SameOutcome (parsePieces parseHeaderLine r b ws)
        (parseHeaderLine r (b.append ws.flatten)) := by
  constructor
  · rw [parseRequestLine_eq]
    exact parsePieces_same requestLineParser_lawful rfl requestLineParser_goes hb ws
  · rw [parseHeaderLine_eq]
    apply parsePieces_same headerLineParser_lawful rfl _ hb
    intro rc hrc hrejects
    cases hrejects
    rcases hrc with h | h | h <;> cases h

/-- A request line cut inside the method, before and behind its `CR`; a header line cut
inside its name and behind a space of its value. -/
theorem parsers_resume_cuts :
    (SameOutcome
      (parsePieces parseRequestLine {} (.temp 64) [ascii "GE", ascii "T /a HTTP/1.1", [CR], [LF]])
      (parseRequestLine {}
        ((Buf.temp 64).append [ascii "GE", ascii "T /a HTTP/1.1", [CR], [LF]].flatten)) ∧
      (parsePieces parseRequestLine {} (.temp 64)
        [ascii "GE", ascii "T /a HTTP/1.1", [CR], [LF]]).1 = .ok) ∧
    (SameOutcome
      (parsePieces parseHeaderLine {} (.temp 64) [ascii "Ho", ascii "st: a ", ascii "b", [CR, LF]])
      (parseHeaderLine {}
        ((Buf.temp 64).append [ascii "Ho", ascii "st: a ", ascii "b", [CR, LF]].flatten)) ∧
      (parsePieces parseHeaderLine {} (.temp 64)
        [ascii "Ho", ascii "st: a ", ascii "b", [CR, LF]]).1 = .ok) :=
  ⟨⟨(parsers_resume {} (.temp 64) (by decide) _).1, by decide⟩,
    ⟨(parsers_resume {} (.temp 64) (by decide) _).2, by decide⟩⟩

end Ehd.Http
