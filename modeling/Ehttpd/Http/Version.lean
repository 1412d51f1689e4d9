import Ehttpd.Http.AbsoluteForm

namespace Ehd.Http

open Scanner Pattern

variable {lead method spaces target us tail : List UInt8}

inductive IsTarget : List UInt8 → Prop
  | origin : IsTarget [47]
  | absolute {schema host : List UInt8} : IsSchema schema → (∀ c ∈ host, IsHostChar c) →
      IsTarget (schema ++ colonSlashSlash ++ host ++ [47])
  | withPort {schema host port : List UInt8} : IsSchema schema → (∀ c ∈ host, IsHostChar c) →
      (∀ c ∈ port, c ≠ 47) → IsTarget (schema ++ colonSlashSlash ++ host ++ 58 :: (port ++ [47]))

structure IsRequestHead (lead method spaces target us : List UInt8) : Prop
    extends MethodPart lead method spaces where
  authority : IsTarget target
  path : ∀ ch ∈ us, IsUriChar ch

def requestHead (lead method spaces target us : List UInt8) : List UInt8 :=
  lead ++ method ++ spaces ++ target ++ us

def PlainTail (tail : List UInt8) : Prop :=
  ∃ blanks e, tail = blanks ++ e ∧ (∀ c ∈ blanks, c = 32) ∧ IsLineEnd e

def VersionTail (major minor tail : List UInt8) : Prop :=
  ∃ blanks e, tail = blanks ++ httpSlash ++ major ++ 46 :: minor ++ e ∧ (∀ c ∈ blanks, c = 32) ∧
    blanks ≠ [] ∧ IsMajor major ∧ IsMinor minor ∧ IsLineEnd e

theorem lineTail_cases : LineTail tail ↔ PlainTail tail ∨ ∃ major minor, VersionTail major minor tail := by
  constructor
  · intro h
    cases h with
    | plain hblanks he => exact Or.inl ⟨_, _, rfl, hblanks, he⟩
    | version hblanks hne hmajor hminor he =>
      exact Or.inr ⟨_, _, _, _, rfl, hblanks, hne, hmajor, hminor, he⟩
  · rintro (⟨blanks, e, rfl, hblanks, he⟩ |
      ⟨major, minor, blanks, e, rfl, hblanks, hne, hmajor, hminor, he⟩)
    · exact .plain hblanks he
    · exact .version hblanks hne hmajor hminor he

theorem isTarget_of_schema {c : UInt8} {w : List UInt8} (hc : IsLetter c) (h : Schema w) :
    ∃ target rest, c :: w = target ++ rest ∧ IsTarget target ∧ UriRest rest := by
  obtain ⟨letters, _, rfl, hletters, c₁, _, rfl, rfl, c₂, _, rfl, rfl, c₃, _, rfl, rfl,
    host, v, rfl, hhost, hv⟩ := h
  have hs : IsSchema (c :: letters) := by
    refine ⟨by simp, ?_⟩
    intro d hd
    rcases List.mem_cons.1 hd with rfl | hd
    · exact hc
    · exact hletters d hd
  rcases hv with ⟨c₄, _, rfl, rfl, port, _, rfl, hport, c₅, rest, rfl, rfl, hrest⟩ |
    ⟨c₄, rest, rfl, rfl, hrest⟩
  · refine ⟨_, rest, ?_, .withPort hs hhost hport, hrest⟩
    simp [colonSlashSlash]
  · refine ⟨_, rest, ?_, .absolute hs hhost, hrest⟩
    simp [colonSlashSlash]

theorem isTarget_of_target {w : List UInt8} (h : Target w) : ∃ blanks target rest,
    w = blanks ++ target ++ rest ∧ (∀ c ∈ blanks, c = 32) ∧ IsTarget target ∧ UriRest rest := by
  obtain ⟨blanks, v, rfl, hblanks, hv⟩ := h
  rcases hv with ⟨c, rest, rfl, rfl, hrest⟩ | ⟨c, w, rfl, hc, hschema⟩
  · exact ⟨blanks, [47], rest, by simp, hblanks, .origin, hrest⟩
  · obtain ⟨target, rest, hsplit, htarget, hrest⟩ := isTarget_of_schema hc hschema
    exact ⟨blanks, target, rest, by rw [hsplit, List.append_assoc], hblanks, htarget, hrest⟩

/-- What leads to the end of a line has the parts of one. -/
theorem requestLine_parts {line : List UInt8} (h : RequestLineLeads .start line .done) :
    ∃ lead method spaces target us tail, line = requestHead lead method spaces target us ++ tail ∧
      IsRequestHead lead method spaces target us ∧ LineTail tail := by
  obtain ⟨lead, _, rfl, hlead, ch, _, rfl, hch, letters, _, rfl, hletters, c, w, rfl, rfl, htarget⟩ :=
    requestLine_leads_iff.1 h
  obtain ⟨blanks, target, rest, rfl, hblanks, hauthority, hrest⟩ := isTarget_of_target htarget
  obtain ⟨us, tail, rfl, hus, htail⟩ := uriRest_iff.1 hrest
  refine ⟨lead, ch :: letters, 32 :: blanks, target, us, tail, ?_,
    ⟨⟨hlead, ?_, by simp, ?_, by simp⟩, hauthority, hus⟩, htail⟩
  · simp [requestHead]
  · intro c hc
    rcases List.mem_cons.1 hc with rfl | hc
    · exact hch
    · exact hletters c hc
  · intro c hc
    rcases List.mem_cons.1 hc with rfl | hc
    · rfl
    · exact hblanks c hc

variable {buf : List UInt8} {r : ParseState} {p : Nat}

structure SameMethod (r r' : ParseState) : Prop where
  requestStart : r'.requestStart = r.requestStart
  method : r'.method = r.method
  httpMajor : r'.httpMajor = r.httpMajor

/-- What the scan leaves of a target whose first slash stands before `q`. -/
structure AuthorityRead (r r' : ParseState) (q : Nat) : Prop extends SameMethod r r' where
  uriStart : r'.uriStart + 1 = q
  argsStart : r'.argsStart = r.argsStart
  complexUri : r'.complexUri = r.complexUri

theorem IsTarget.scan (h : IsTarget target) : ∃ r', AuthorityRead r r' (p + target.length) ∧ ∀ v,
    requestLineLoop buf .spacesBeforeUri r p (target ++ v) =
      requestLineLoop buf .afterSlashInUri r' (p + target.length) v := by
  cases h with
  | origin =>
    refine ⟨{ r with uriStart := p }, ⟨⟨rfl, rfl, rfl⟩, rfl, rfl, rfl⟩, fun v => ?_⟩
    exact scan_slash
  | @absolute schema host hs hhost =>
    obtain ⟨q, hq⟩ : ∃ q, q = p + (schema ++ colonSlashSlash ++ host).length := ⟨_, rfl⟩
    have hlen : p + (schema ++ colonSlashSlash ++ host ++ [47]).length = q + 1 := by
      rw [hq, @List.length_append _ _ [47], List.length_singleton, Nat.add_assoc]
    rw [hlen]
    refine ⟨{ r.schemaMarks p schema.length with hostEnd := q, uriStart := q },
      ⟨⟨rfl, rfl, rfl⟩, rfl, rfl, rfl⟩, fun v => ?_⟩
    rw [List.append_assoc _ [47], scan_authority hs hhost, ← hq]
    exact scan_host_slash
  | @withPort schema host port hs hhost hport =>
    obtain ⟨q, hq⟩ : ∃ q, q = p + (schema ++ colonSlashSlash ++ host).length := ⟨_, rfl⟩
    have hlen : p + (schema ++ colonSlashSlash ++ host ++ 58 :: (port ++ [47])).length =
        q + 1 + port.length + 1 := by
      rw [hq, @List.length_append _ _ (58 :: (port ++ [47])), List.length_cons,
        @List.length_append _ port, List.length_singleton]
      omega
    rw [hlen]
    refine ⟨{ r.schemaMarks p schema.length with
        hostEnd := q, portEnd := q + 1 + port.length, uriStart := q + 1 + port.length },
      ⟨⟨rfl, rfl, rfl⟩, rfl, rfl, rfl⟩, fun v => ?_⟩
    have hlist : schema ++ colonSlashSlash ++ host ++ 58 :: (port ++ [47]) ++ v =
        schema ++ colonSlashSlash ++ host ++ 58 :: (port ++ 47 :: v) := by simp
    rw [hlist, scan_authority hs hhost, scan_host_colon, scan_port hport, ← hq]
    exact scan_port_slash

/-- Up to the end of the URI. -/
theorem IsRequestHead.scan (h : IsRequestHead lead method spaces target us) : ∃ st r' q,
    st.InUri ∧ SameMethod (r.methodMarks buf (p + lead.length) method.length) r' ∧ ∀ v,
      requestLineLoop buf .start r p (requestHead lead method spaces target us ++ v) =
        requestLineLoop buf st r' q v := by
  obtain ⟨r₁, hsame, htarget⟩ := @IsTarget.scan target buf
    (r.methodMarks buf (p + lead.length) method.length)
    (p + (lead ++ method ++ spaces).length) h.authority
  obtain ⟨st, r', hst, hmarks, huri⟩ := @scan_uri buf r₁
    (p + (lead ++ method ++ spaces).length + target.length) .afterSlashInUri trivial us h.path
  refine ⟨st, r', p + (lead ++ method ++ spaces).length + target.length + us.length, hst, ⟨?_, ?_, ?_⟩, fun v => ?_⟩
  · rw [hmarks.eq]
    exact hsame.requestStart
  · rw [hmarks.eq]
    exact hsame.method
  · rw [hmarks.eq]
    exact hsame.httpMajor
  · have hlist : requestHead lead method spaces target us ++ v =
        lead ++ method ++ spaces ++ (target ++ (us ++ v)) := by simp [requestHead]
    rw [hlist, h.toMethodPart.scan, htarget]
    exact huri v

/-- The parser reaches the end of exactly the lines with these parts. -/
theorem requestLine_accepted_iff {b : Buf} (hr : r.state = 0) :
    ((parseRequestLine r b).1 = .ok ∨ (parseRequestLine r b).1 = .invalid09Method) ↔
      ∃ lead method spaces target us tail, IsRequestHead lead method spaces target us ∧
        LineTail tail ∧ requestHead lead method spaces target us ++ tail <+: b.unread := by
  have hstart : RequestLineSw.ofUint r.state = .start := by rw [hr]; rfl
  rw [parseRequestLine_done_iff, hstart]
  constructor
  · rintro ⟨r', q, hloop⟩
    obtain ⟨line, hpre, hleads, -⟩ :=
      (exit_iff (requestLine_controls b.bytes) trivial rfl).1 ⟨r', hloop⟩
    obtain ⟨lead, method, spaces, target, us, tail, rfl, hhead, htail⟩ := requestLine_parts hleads
    exact ⟨lead, method, spaces, target, us, tail, hhead, htail, hpre⟩
  · rintro ⟨lead, method, spaces, target, us, tail, hhead, htail, v, hv⟩
    obtain ⟨st, r', q, hst, -, hscan⟩ := @IsRequestHead.scan _ _ _ _ _ b.bytes r b.pos hhead
    rw [← hv, List.append_assoc, hscan]
    cases htail with
    | plain hblanks he => exact ⟨_, _, scan_plain_tail hst hblanks he⟩
    | version hblanks hne hmajor hminor he =>
      exact ⟨_, _, scan_version_tail hst hblanks hne hmajor hminor he⟩

def decimalValue (digits : List UInt8) : Nat :=
  digits.foldl (fun n ch => n * 10 + (ch.toNat - 48)) 0

theorem number_toNat {digits : List UInt8} (h : ∀ c ∈ digits, isDigit c) (n : UInt32) (m : Nat)
    (hm : n.toNat = m % 2 ^ 32) : (number n digits).toNat =
      digits.foldl (fun n ch => n * 10 + (ch.toNat - 48)) m % 2 ^ 32 := by
  induction digits generalizing n m with
  | nil => exact hm
  | cons ch digits ih =>
    have hlow : 48 ≤ ch.toNat := isDigit_low (h ch List.mem_cons_self)
    apply ih fun c hc => h c (List.mem_cons_of_mem _ hc)
    have hlt := ch.toNat_lt
    rw [UInt32.toNat_sub, UInt32.toNat_add, UInt32.toNat_mul, UInt8.toNat_toUInt32, hm]
    simp only [UInt32.reduceToNat]
    omega

theorem number_value {digits : List UInt8} (h : ∀ c ∈ digits, isDigit c) :
    (number 0 digits).toNat = decimalValue digits % 2 ^ 32 :=
  number_toNat h 0 0 rfl

theorem IsMajor.digits {major : List UInt8} (h : IsMajor major) : ∀ c ∈ major, isDigit c := by
  cases major with
  | nil => exact absurd h id
  | cons ch digits =>
    intro c hc
    rcases List.mem_cons.1 hc with rfl | hc
    · unfold isDigit
      have := h.1
      grind
    · exact h.2 c hc

/-- The method that stands at `start` in the buffer is recognised as `GET` exactly if it is. -/
theorem methodOf_get_iff {start : Nat} (hr : r.method ≠ .get)
    (hbuf : method <+: buf.drop start) :
    methodOf r (fun i => buf.getD (start + i) 0) method.length = .get ↔ method = ascii "GET" := by
  have hget : ascii "GET" = [71, 69, 84] := by decide
  have hat : ∀ i, i < method.length → buf.getD (start + i) 0 = method.getD i 0 := by
    intro i hi
    obtain ⟨v, hv⟩ := hbuf
    rw [List.getD_eq_getElem?_getD, List.getD_eq_getElem?_getD, ← List.getElem?_drop, ← hv,
      List.getElem?_append_left hi]
  rw [hget]
  constructor
  · intro h
    unfold methodOf at h
    split at h
    · next hlen =>
      split at h
      · next hm =>
        simp only at hm
        rw [hat 0 (by omega), hat 1 (by omega), hat 2 (by omega)] at hm
        match method, hlen with
        | [a, b, c], _ =>
          obtain ⟨ha, hb, hc⟩ := hm
          rw [show a = 71 from ha, show b = 69 from hb, show c = 84 from hc]
      · exact absurd h hr
    · split at h
      · split at h
        · cases h
        · split at h
          · cases h
          · exact absurd h hr
      · exact absurd h hr
  · rintro rfl
    unfold methodOf
    have hlen : ([71, 69, 84] : List UInt8).length = 3 := rfl
    rw [if_pos hlen, if_pos]
    exact ⟨hat 0 (by decide), hat 1 (by decide), hat 2 (by decide)⟩

structure VersionParsed (b : Buf) : Prop where
  versioned : ∀ lead method spaces target us tail major minor,
    IsRequestHead lead method spaces target us → VersionTail major minor tail →
    requestHead lead method spaces target us ++ tail <+: b.unread →
    (parseRequestLine {} b).1 = .ok →
    (parseRequestLine {} b).2.1.httpMajor.toNat = decimalValue major ∧
      (parseRequestLine {} b).2.1.httpMinor.toNat = decimalValue minor ∧
      (parseRequestLine {} b).2.1.httpVersion.toNat =
        1000 * decimalValue major + decimalValue minor
  plain : ∀ lead method spaces target us tail,
    IsRequestHead lead method spaces target us → PlainTail tail →
    requestHead lead method spaces target us ++ tail <+: b.unread →
    (parseRequestLine {} b).2.1.httpVersion = 9 ∧
      ((parseRequestLine {} b).1 = .ok ↔ method = ascii "GET") ∧
      ((parseRequestLine {} b).1 = .invalid09Method ↔ method ≠ ascii "GET")

/-- The line has a version with two equal numbers that are not too large, or one that is
taken for the version 0.9 of another method than `GET`. -/
def VersionFits (b : Buf) : Prop :=
  ∀ lead method spaces target us tail, IsRequestHead lead method spaces target us →
    LineTail tail → requestHead lead method spaces target us ++ tail <+: b.unread →
    ¬ PlainTail tail ∧ ∀ major minor, VersionTail major minor tail →
      decimalValue major = decimalValue minor ∧ 1001 * decimalValue major < 2 ^ 32 ∨
        method ≠ ascii "GET" ∧ 1001 * decimalValue major % 2 ^ 32 = 9

variable {b : Buf}

theorem method_get_iff
    (hpre : requestHead lead method spaces target us ++ tail <+: b.unread) :
    (({} : ParseState).methodMarks b.bytes (b.pos + lead.length) method.length).method = .get ↔
      method = ascii "GET" := by
  apply methodOf_get_iff (by decide)
  obtain ⟨v, hv⟩ := hpre
  have hunread : b.unread = lead ++ (method ++ (spaces ++ target ++ us ++ tail ++ v)) := by
    rw [← hv]
    simp [requestHead]
  have hdrop : b.bytes.drop (b.pos + lead.length) = method ++ (spaces ++ target ++ us ++ tail ++ v) := by
    rw [← List.drop_drop, ← Buf.unread, hunread, List.drop_left]
  rw [hdrop]
  exact List.prefix_append _ _

theorem ended_same (r : ParseState) (q : Nat) (e : List UInt8) :
    (r.ended q e).method = r.method ∧ (r.ended q e).httpMajor = r.httpMajor ∧
      (r.ended q e).httpMinor = r.httpMinor := by
  unfold ParseState.ended
  split <;> exact ⟨rfl, rfl, rfl⟩

theorem IsRequestHead.parse_plain (h : IsRequestHead lead method spaces target us)
    (htail : PlainTail tail)
    (hpre : requestHead lead method spaces target us ++ tail <+: b.unread) :
    (parseRequestLine {} b).2.1.httpVersion = 0 := by
  obtain ⟨blanks, e, rfl, hblanks, he⟩ := htail
  obtain ⟨v, hv⟩ := hpre
  obtain ⟨st, r', q, hst, hsame, hscan⟩ := @IsRequestHead.scan _ _ _ _ _ b.bytes {} b.pos h
  have hloop := (hscan (blanks ++ e ++ v)).trans (scan_plain_tail hst hblanks he)
  rw [← List.append_assoc, hv] at hloop
  rw [parseRequestLine_of_done hloop]
  have hmajor : r'.httpMajor = 0 := hsame.httpMajor
  simp only [requestLineDone_record, (ended_same _ _ _).2.1, hmajor]
  rfl

/-- The result for a line with a version. -/
theorem IsRequestHead.parse_version {major minor : List UInt8}
    (h : IsRequestHead lead method spaces target us) (htail : VersionTail major minor tail)
    (hpre : requestHead lead method spaces target us ++ tail <+: b.unread) :
    (parseRequestLine {} b).2.1.httpMajor = number 0 major ∧
      (parseRequestLine {} b).2.1.httpMinor = number 0 minor ∧
      (parseRequestLine {} b).2.1.httpVersion.toNat = 1001 * decimalValue major % 2 ^ 32 ∧
      ((parseRequestLine {} b).1 = .ok ∨ (parseRequestLine {} b).1 = .invalid09Method) ∧
      ((parseRequestLine {} b).1 = .invalid09Method ↔
        method ≠ ascii "GET" ∧ 1001 * decimalValue major % 2 ^ 32 = 9) := by
  have hmethod := method_get_iff hpre
  obtain ⟨blanks, e, rfl, hblanks, hne, hmajor, hminor, he⟩ := htail
  obtain ⟨v, hv⟩ := hpre
  obtain ⟨st, r', q, hst, hsame, hscan⟩ := @IsRequestHead.scan _ _ _ _ _ b.bytes {} b.pos h
  have hloop := (hscan (blanks ++ httpSlash ++ major ++ 46 :: minor ++ e ++ v)).trans
    (scan_version_tail hst hblanks hne hmajor hminor he)
  rw [← List.append_assoc, hv] at hloop
  have hversion : (number 0 major * 1000 + number 0 major).toNat =
      1001 * decimalValue major % 2 ^ 32 := by
    rw [UInt32.toNat_add, UInt32.toNat_mul, number_value hmajor.digits]
    simp only [UInt32.reduceToNat]
    omega
  have hnine : number 0 major * 1000 + number 0 major = 9 ↔
      1001 * decimalValue major % 2 ^ 32 = 9 := by
    rw [← UInt32.toNat_inj, hversion]
    rfl
  rw [parseRequestLine_of_done hloop]
  refine ⟨?_, ?_, ?_, requestLineDone_rc _ _, ?_⟩
  · simp only [requestLineDone_record, (ended_same _ _ _).2.1]
  · simp only [requestLineDone_record, (ended_same _ _ _).2.2]
  · simp only [requestLineDone_record, (ended_same _ _ _).2.1]
    exact hversion
  · unfold requestLineDone
    simp only [(ended_same _ _ _).2.1, (ended_same _ _ _).1, hsame.method, hnine]
    split
    · next hc => exact ⟨fun _ => ⟨mt hmethod.2 hc.2, hc.1⟩, fun _ => rfl⟩
    · next hc =>
      refine ⟨fun heq => absurd heq (by simp), fun hcond => ?_⟩
      exact absurd ⟨hcond.2, mt hmethod.1 hcond.1⟩ hc

/-- For every input: the version of a line is as it should be exactly when its numbers are
equal and not too large. -/
theorem version_semantics_iff (b : Buf) : VersionParsed b ↔ VersionFits b := by
  constructor
  · intro hparsed lead method spaces target us tail hhead _ hpre
    constructor
    · intro hplain
      have hnine := (hparsed.plain _ _ _ _ _ _ hhead hplain hpre).1
      rw [hhead.parse_plain hplain hpre] at hnine
      exact absurd hnine (by decide)
    · intro major minor htail
      obtain ⟨hmajor, hminor, hversion, hrc, h09⟩ := hhead.parse_version htail hpre
      rcases hrc with hok | hbad
      · obtain ⟨hvalue, hvalue', hsum⟩ := hparsed.versioned _ _ _ _ _ _ _ _ hhead htail hpre hok
        rw [hversion] at hsum
        have hlt := (parseRequestLine {} b).2.1.httpMajor.toNat_lt
        have hlt' := (parseRequestLine {} b).2.1.httpMinor.toNat_lt
        rw [hvalue] at hlt
        rw [hvalue'] at hlt'
        -- nothing has been lost modulo `2 ^ 32`
        have hdiv := Nat.div_add_mod (1001 * decimalValue major) (2 ^ 32)
        rw [hsum] at hdiv
        have hzero : 1001 * decimalValue major / 2 ^ 32 = 0 := by
          by_contra hne
          have hpos := Nat.pos_of_ne_zero hne
          omega
        left
        omega
      · exact Or.inr (h09.1 hbad)
  · intro hfits
    constructor
    · intro lead method spaces target us tail major minor hhead htail hpre hok
      obtain ⟨hmajor, hminor, hversion, -, h09⟩ := hhead.parse_version htail hpre
      have hcases := (hfits _ _ _ _ _ _ hhead
        (lineTail_cases.2 (Or.inr ⟨major, minor, htail⟩)) hpre).2 major minor htail
      obtain ⟨blanks, e, rfl, -, -, hmaj, hmin, -⟩ := htail
      rcases hcases with ⟨heq, hlt⟩ | hbad
      · rw [hmajor, hminor, hversion, number_value hmaj.digits, number_value hmin.2]
        omega
      · rw [h09.2 hbad] at hok
        cases hok
    · intro lead method spaces target us tail hhead hplain hpre
      exact absurd hplain (hfits _ _ _ _ _ _ hhead (lineTail_cases.2 (Or.inl hplain)) hpre).1

def version10Line : Buf :=
  { bytes := ascii "GET / HTTP/1.0\x0d\n", pos := 0, size := EHD_DEFAULT_BUF_SIZE }

theorem version10_misread : ¬ VersionParsed version10Line := by
  intro hparsed
  have htail : VersionTail (ascii "1") (ascii "0") (ascii " HTTP/1.0\x0d\n") :=
    ⟨[32], [CR, LF], by decide, blank_space, by decide, isMajor_one, isMinor_digit (by decide), .crlf⟩
  have hversion := (hparsed.versioned [] (ascii "GET") [32] [47] [] _ _ _
    ⟨getMethod, .origin, by simp⟩ htail (by decide) (by decide)).2.2
  have hstored : (parseRequestLine {} version10Line).2.1.httpVersion = 1001 := by decide
  rw [hstored] at hversion
  exact absurd hversion (by decide)

end Ehd.Http
