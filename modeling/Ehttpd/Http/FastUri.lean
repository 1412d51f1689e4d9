import Ehttpd.Http.Normaliser

namespace Ehd.Http

open Program Scanner

/-- The loop writes `path` as it stands and comes to the state `sw`, with the extension
at `ext`. -/
def Copied (area path : List UInt8) (sw : UriSw) (ext : Option Nat) : Prop :=
  ∃ s, uriLoop (.init area) path = some s ∧ s.state = sw ∧ s.u = path.length ∧
    s.data.take s.u = path ∧ s.uriExt = ext

section Loop

variable {s s' : UriScan} {area path : List UInt8} {sw : UriSw} {ext : Option Nat} {ch : UInt8}

theorem uriLoop_concat (path : List UInt8) : ∀ s : UriScan,
    uriLoop s (path ++ [ch]) = (uriLoop s path).bind fun s' => uriStep s' ch := by
  induction path with
  | nil =>
    intro s
    show (uriStep s ch).bind some = uriStep s ch
    cases uriStep s ch <;> rfl
  | cons c path ih =>
    intro s
    show (uriStep s c).bind _ = ((uriStep s c).bind _).bind _
    cases uriStep s c with
    | none => rfl
    | some s₁ => exact ih s₁

/-- A byte that the loop writes. -/
theorem Copied.put (h : Copied area path sw ext) (hroom : path.length < area.length) (ch : UInt8)
    {sw' : UriSw} {ext' : Option Nat} (hstep : ∀ s : UriScan, s.state = sw → s.u = path.length →
      s.uriExt = ext → uriStep s ch = some { s.put ch with state := sw', uriExt := ext' }) :
    Copied area (path ++ [ch]) sw' ext' := by
  obtain ⟨s, hs, hstate, hu, htake, hext⟩ := h
  have hdata : s.data.length = area.length := uriLoop_data hs
  refine ⟨{ s.put ch with state := sw', uriExt := ext' }, ?_, rfl, ?_, ?_, rfl⟩
  · rw [uriLoop_concat, hs]
    exact hstep s hstate hu hext
  · show s.u + 1 = _
    rw [hu, List.length_append, List.length_singleton]
  · show (s.data.set s.u ch).take (s.u + 1) = _
    rw [List.take_add_one, List.take_set_of_le (Nat.le_refl _), htake,
      List.getElem?_set_self (by omega)]
    rfl

theorem Copied.letter (h : Copied area path sw ext) (hsw : sw = .slash ∨ sw = .usual)
    (hroom : path.length < area.length) (hslash : ch ≠ 47) (hdot : ch ≠ 46) (hpercent : ch ≠ 37) :
    Copied area (path ++ [ch]) .usual ext := by
  apply h.put hroom ch
  intro s hstate _ hext
  rcases hsw with rfl | rfl
  · simp [uriStep, uriSwitch, hstate, hslash, hdot, hpercent, UriScan.put, hext]
  · simp [uriStep, uriSwitch, hstate, hslash, hdot, hpercent, UriScan.put, hext]

theorem Copied.slash (h : Copied area path .usual ext) (hroom : path.length < area.length) :
    Copied area (path ++ [47]) .slash none := by
  apply h.put hroom 47
  intro s hstate _ _
  simp [uriStep, uriSwitch, hstate, UriScan.put]

theorem Copied.dot (h : Copied area path .usual ext) (hroom : path.length < area.length) :
    Copied area (path ++ [46]) .usual (some (path.length + 1)) := by
  apply h.put hroom 46
  intro s hstate hu _
  simp [uriStep, uriSwitch, hstate, UriScan.put, hu]

theorem copied_nil (area : List UInt8) : Copied area [] .usual none := ⟨_, rfl, rfl, rfl, rfl, rfl⟩

end Loop

/-- The loop would copy the bytes from `uri_start` to `e`, with the extension that the
parser has marked. -/
structure FastPath (buf : List UInt8) (r : ParseState) (e : Nat) (sw : UriSw) : Prop where
  lt : r.uriStart < e
  le : e ≤ buf.length
  copied : ∃ ext : Option Nat, r.uriExt = ext.map (r.uriStart + ·) ∧
    ∀ area : List UInt8, e - r.uriStart ≤ area.length →
      Copied area ((buf.drop r.uriStart).take (e - r.uriStart)) sw ext

/-- What the request-line parser knows in each state of a path that is not marked complex. -/
def FastInv (buf : List UInt8) (st : RequestLineSw) (r : ParseState) (p : Nat) : Prop :=
  match st with
  | .start | .method | .spaceAfterMethod | .spacesBeforeUri | .schema | .schemaSlash
  | .schemaSlashSlash | .host | .port => r.argsStart = none ∧ r.uriExt = none
  | .afterSlashInUri => r.argsStart = none ∧ (r.complexUri = false → FastPath buf r p .slash)
  | .checkUri => r.argsStart = none ∧ (r.complexUri = false → FastPath buf r p .usual)
  | .uri => r.complexUri = false → ∃ a sw, r.argsStart = some a ∧ FastPath buf r (a - 1) sw
  | _ => r.complexUri = false → ∃ sw, FastPath buf r (r.uriStart + r.uriLen) sw

section Parser

variable {buf : List UInt8} {st st' : RequestLineSw} {r r' : ParseState} {p e : Nat} {sw : UriSw}
  {ch : UInt8}

theorem FastPath.append (h : FastPath buf r e sw) (bs : List UInt8) :
    FastPath (buf ++ bs) r e sw := by
  have hlt := h.lt
  have hle := h.le
  have hspan : ((buf ++ bs).drop r.uriStart).take (e - r.uriStart) =
      (buf.drop r.uriStart).take (e - r.uriStart) := by
    rw [List.drop_append_of_le_length (by omega), List.take_append_of_le_length]
    rw [List.length_drop]
    omega
  refine ⟨h.lt, ?_, ?_⟩
  · rw [List.length_append]
    omega
  · rw [hspan]
    exact h.copied

theorem FastInv.append (h : FastInv buf st r p) (bs : List UInt8) : FastInv (buf ++ bs) st r p := by
  cases st with
  | start | method | spaceAfterMethod | spacesBeforeUri | schema | schemaSlash
  | schemaSlashSlash | host | port => exact h
  | afterSlashInUri | checkUri => exact ⟨h.1, fun hfast => (h.2 hfast).append bs⟩
  | uri =>
    intro hfast
    obtain ⟨a, sw, ha, hpath⟩ := h hfast
    exact ⟨a, sw, ha, hpath.append bs⟩
  | http09 | httpH | httpHT | httpHTT | httpHTTP | firstMajorDigit | majorDigit
  | firstMinorDigit | minorDigit | almostDone | done =>
    intro hfast
    obtain ⟨sw, hpath⟩ := h hfast
    exact ⟨sw, hpath.append bs⟩

theorem FastPath.congr (h : FastPath buf r e sw) (hstart : r'.uriStart = r.uriStart)
    (hext : r'.uriExt = r.uriExt) : FastPath buf r' e sw := by
  refine ⟨by rw [hstart]; exact h.lt, h.le, ?_⟩
  rw [hstart, hext]
  exact h.copied

theorem FastInv.saved (h : FastInv buf st r p) (n : Nat) :
    FastInv buf st { r with state := n } p := by
  cases st with
  | start | method | spaceAfterMethod | spacesBeforeUri | schema | schemaSlash
  | schemaSlashSlash | host | port => exact h
  | afterSlashInUri | checkUri => exact ⟨h.1, fun hfast => (h.2 hfast).congr rfl rfl⟩
  | uri =>
    intro hfast
    obtain ⟨a, sw, ha, hpath⟩ := h hfast
    exact ⟨a, sw, ha, hpath.congr rfl rfl⟩
  | http09 | httpH | httpHT | httpHTT | httpHTTP | firstMajorDigit | majorDigit
  | firstMinorDigit | minorDigit | almostDone | done =>
    intro hfast
    obtain ⟨sw, hpath⟩ := h hfast
    exact ⟨sw, hpath.congr rfl rfl⟩

/-- One more byte, that the loop copies too. -/
theorem FastPath.next {sw' : UriSw} (h : FastPath buf r p sw) (hch : buf[p]? = some ch)
    (hstart : r'.uriStart = r.uriStart)
    (hstep : ∀ ext : Option Nat, r.uriExt = ext.map (r.uriStart + ·) →
      ∃ ext' : Option Nat, r'.uriExt = ext'.map (r.uriStart + ·) ∧
        ∀ area path : List UInt8, path.length = p - r.uriStart → path.length < area.length →
          Copied area path sw ext → Copied area (path ++ [ch]) sw' ext') :
    FastPath buf r' (p + 1) sw' := by
  have hlt := h.lt
  have hbuf := lt_length_of_getElem? hch
  obtain ⟨ext, hext, hcopied⟩ := h.copied
  obtain ⟨ext', hext', hnext⟩ := hstep ext hext
  refine ⟨by rw [hstart]; omega, hbuf, ext', by rw [hstart]; exact hext', ?_⟩
  intro area harea
  rw [hstart] at harea ⊢
  rw [take_succ_path hlt hch]
  have hlen : ((buf.drop r.uriStart).take (p - r.uriStart)).length = p - r.uriStart := by
    rw [List.length_take, List.length_drop]
    omega
  apply hnext area _ hlen
  · rw [hlen]
    omega
  · apply hcopied
    omega

theorem fastPath_slash (hch : buf[p]? = some 47) (hstart : r'.uriStart = p)
    (hext : r'.uriExt = none) : FastPath buf r' (p + 1) .slash := by
  have hlt := lt_length_of_getElem? hch
  refine ⟨by omega, hlt, none, hext, ?_⟩
  intro area harea
  have hspan : (buf.drop r'.uriStart).take (p + 1 - r'.uriStart) = [] ++ [47] := by
    rw [hstart, show p + 1 - p = 0 + 1 by omega, List.take_add_one, List.take_zero,
      List.getElem?_drop, Nat.add_zero, hch]
    rfl
  rw [hspan]
  apply (copied_nil area).slash
  show 0 < area.length
  omega

theorem FastPath.letter (h : FastPath buf r p sw) (hsw : sw = .slash ∨ sw = .usual)
    (hch : buf[p]? = some ch) (hslash : ch ≠ 47) (hdot : ch ≠ 46) (hpercent : ch ≠ 37) :
    FastPath buf r (p + 1) .usual := by
  apply h.next hch rfl
  intro ext hext
  exact ⟨ext, hext, fun area path _ hroom hc => hc.letter hsw hroom hslash hdot hpercent⟩

theorem FastPath.slash (h : FastPath buf r p .usual) (hch : buf[p]? = some 47) :
    FastPath buf { r with uriExt := none } (p + 1) .slash := by
  refine FastPath.next h hch rfl ?_
  intro ext _
  exact ⟨none, rfl, fun area path _ hroom hc => hc.slash hroom⟩

theorem FastPath.dot (h : FastPath buf r p .usual) (hch : buf[p]? = some 46) :
    FastPath buf { r with uriExt := some (p + 1) } (p + 1) .usual := by
  have hlt := h.lt
  refine FastPath.next h hch rfl ?_
  intro ext _
  refine ⟨some (p - r.uriStart + 1), ?_, ?_⟩
  · show some (p + 1) = some (r.uriStart + (p - r.uriStart + 1))
    congr 1
    omega
  · intro area path hlen hroom hc
    rw [← hlen]
    exact hc.dot hroom

theorem FastPath.endsAt (h : FastPath buf r p sw) (hargs : r'.argsStart = none)
    (hstart : r'.uriStart = r.uriStart) (hext : r'.uriExt = r.uriExt) (hend : r'.uriEnd = p) :
    ∃ sw, FastPath buf r' (r'.uriStart + r'.uriLen) sw := by
  have hlt := h.lt
  have hlen : r'.uriStart + r'.uriLen = p := by
    rw [uriLen_none hargs, hend, hstart]
    omega
  rw [hlen]
  exact ⟨sw, h.congr hstart hext⟩

theorem FastPath.endsArgs {a : Nat} (h : FastPath buf r (a - 1) sw) (hargs : r'.argsStart = some a)
    (hstart : r'.uriStart = r.uriStart) (hext : r'.uriExt = r.uriExt) :
    ∃ sw, FastPath buf r' (r'.uriStart + r'.uriLen) sw := by
  have hlt := h.lt
  have hlen : r'.uriStart + r'.uriLen = a - 1 := by
    rw [uriLen_some hargs, hstart]
    omega
  rw [hlen]
  exact ⟨sw, h.congr hstart hext⟩

/-- One more byte of the request line, by cases on the state. -/
theorem requestLineStep_fast (hI : FastInv buf st r p) (hch : buf[p]? = some ch)
    (hs : requestLineStep buf st r (p + 1) ch = .next st' r') : FastInv buf st' r' (p + 1) := by
  cases st with
  | afterSlashInUri =>
    obtain ⟨hargs, hpath⟩ := hI
    simp only [requestLineStep, Nat.add_sub_cancel] at hs
    split_ifs at hs with hcr hlf hsp hdot hslash hquery
    · cases hs
      intro hfast
      exact (hpath hfast).endsAt hargs rfl rfl rfl
    · cases hs
      intro hfast
      exact (hpath hfast).endsAt hargs rfl rfl rfl
    · cases hs
      intro hfast
      exact (hpath hfast).endsAt hargs rfl rfl rfl
    · cases hs
      -- a dot or a slash here makes the path complex
      intro hfast
      cases hfast
    · cases hs
      refine ⟨hargs, ?_⟩
      intro hfast
      cases hfast
    · cases hs
      intro hfast
      -- the path ends before the question mark
      exact ⟨p + 1, .slash, rfl, (hpath hfast).congr rfl rfl⟩
    · cases hs
      refine ⟨hargs, ?_⟩
      intro hfast
      exact (hpath hfast).letter (Or.inl rfl) hch hslash (fun he => hdot (Or.inl he))
        fun he => hdot (Or.inr he)
  | checkUri =>
    obtain ⟨hargs, hpath⟩ := hI
    simp only [requestLineStep, Nat.add_sub_cancel] at hs
    split_ifs at hs with hcr hlf hsp hdot hslash hpercent hquery
    · cases hs
      intro hfast
      exact (hpath hfast).endsAt hargs rfl rfl rfl
    · cases hs
      intro hfast
      exact (hpath hfast).endsAt hargs rfl rfl rfl
    · cases hs
      intro hfast
      exact (hpath hfast).endsAt hargs rfl rfl rfl
    · cases hs
      rw [hdot] at hch
      exact ⟨hargs, fun hfast => (hpath hfast).dot hch⟩
    · cases hs
      rw [hslash] at hch
      exact ⟨hargs, fun hfast => (hpath hfast).slash hch⟩
    · cases hs
      intro hfast
      cases hfast
    · cases hs
      intro hfast
      exact ⟨p + 1, .usual, rfl, (hpath hfast).congr rfl rfl⟩
    · cases hs
      exact ⟨hargs, fun hfast => (hpath hfast).letter (Or.inr rfl) hch hslash hdot hpercent⟩
  | uri =>
    simp only [requestLineStep, Nat.add_sub_cancel] at hs
    split_ifs at hs with hcr hlf hsp
    all_goals
      cases hs
      intro hfast
      obtain ⟨a, sw, ha, hpath⟩ := hI hfast
    · exact hpath.endsArgs ha rfl rfl
    · exact hpath.endsArgs ha rfl rfl
    · exact hpath.endsArgs ha rfl rfl
    · exact ⟨a, sw, ha, hpath⟩
  | spacesBeforeUri =>
    simp only [requestLineStep, Nat.add_sub_cancel] at hs
    split_ifs at hs with hslash hsp hletter
    · cases hs
      -- after a host the path starts with the slash
      rw [hslash] at hch
      exact ⟨hI.1, fun _ => fastPath_slash hch rfl hI.2⟩
    · cases hs
      exact hI
    · cases hs
      exact hI
  | host =>
    simp only [requestLineStep, Nat.add_sub_cancel] at hs
    split_ifs at hs with hcolon hslash hletter
    · cases hs
      exact hI
    · cases hs
      rw [hslash] at hch
      exact ⟨hI.1, fun _ => fastPath_slash hch rfl hI.2⟩
    · cases hs
      exact hI
  | port =>
    simp only [requestLineStep, Nat.add_sub_cancel] at hs
    split_ifs at hs with hslash hdigit
    · cases hs
      rw [hslash] at hch
      exact ⟨hI.1, fun _ => fastPath_slash hch rfl hI.2⟩
    · cases hs
      exact hI
  | start | method | spaceAfterMethod | schema | schemaSlash | schemaSlashSlash =>
    simp only [requestLineStep] at hs
    split_ifs at hs <;> cases hs <;> exact hI
  | http09 | httpH | httpHT | httpHTT | httpHTTP | firstMajorDigit | majorDigit
  | firstMinorDigit | minorDigit | almostDone | done =>
    simp only [requestLineStep] at hs
    repeat' split at hs
    all_goals cases hs
    all_goals
      intro hfast
      obtain ⟨sw, hpath⟩ := hI hfast
      exact ⟨sw, hpath.congr rfl rfl⟩

end Parser

/-- A request and its buffer before a call of `ehd_http_parse_request_line`: at the first
call, or after calls that asked for more. -/
inductive LineCalls : ParseState → Buf → Prop
  | first (b : Buf) : LineCalls {} b
  | again {r r' : ParseState} {b b' : Buf} (h : LineCalls r b)
    (hcall : parseRequestLine r b = (.again, r', b')) (bs : List UInt8) :
    LineCalls r' (b'.append bs)

theorem LineCalls.fast {r : ParseState} {b : Buf} (h : LineCalls r b) :
    FastInv b.bytes (.ofUint r.state) r b.pos := by
  induction h with
  | first b => exact ⟨rfl, rfl⟩
  | @again r r' b b' _ hcall bs ih =>
    obtain ⟨st, r₁, hloop, -, hr'⟩ := parseRequestLine_again hcall
    have hbytes : b'.bytes = b.bytes := by rw [(parseRequestLine_advances hcall).eq]
    have hI : FastInv b.bytes st r₁ b'.pos := by
      refine scan_invariant_drop (I := FastInv b.bytes) ?_ hloop ih
      intro st r p x st' r' hI hx _ hs
      exact requestLineStep_fast hI hx hs
    have hstate : RequestLineSw.ofUint r'.state = st := by
      rw [hr']
      exact RequestLineSw.ofUint_toUint st
    rw [hstate]
    show FastInv (b'.bytes ++ bs) st r' b'.pos
    rw [hbytes]
    rw [hr']
    exact (hI.saved _).append bs

/-- The path of a request line that is accepted and not marked complex. -/
theorem LineCalls.fastPath {r p : ParseState} {b b' : Buf} (h : LineCalls r b)
    (hcall : parseRequestLine r b = (.ok, p, b')) (hfast : p.complexUri = false) :
    ∃ sw, FastPath b'.bytes p (p.uriStart + p.uriLen) sw := by
  obtain ⟨r', hloop, hdone⟩ := parseRequestLine_ok hcall
  have hbytes : b'.bytes = b.bytes := by rw [(parseRequestLine_advances hcall).eq]
  have hI : FastInv b.bytes .done r' b'.pos := by
    refine scan_invariant_drop (I := FastInv b.bytes) ?_ hloop h.fast
    intro st r p x st' r' hI hx _ hs
    exact requestLineStep_fast hI hx hs
  have hp : p = (requestLineDone r' b'.pos).2 := by rw [hdone]
  have hrecord : p.complexUri = r'.complexUri ∧ p.uriStart = r'.uriStart ∧
      p.uriLen = r'.uriLen ∧ p.uriExt = r'.uriExt := by
    rw [hp]
    unfold requestLineDone
    dsimp only
    split <;> exact ⟨rfl, rfl, rfl, rfl⟩
  obtain ⟨hcomplex, hstart, hlen, hext⟩ := hrecord
  obtain ⟨sw, hpath⟩ := hI (hcomplex ▸ hfast)
  refine ⟨sw, ?_⟩
  rw [hbytes, hlen]
  have hpath' : FastPath b.bytes p (r'.uriStart + r'.uriLen) sw := hpath.congr hstart hext
  rwa [← hstart] at hpath'

def UriScan.selected (s : UriScan) : Option (List UInt8) :=
  s.uriExt.map fun e => (s.data.take s.u).drop e

def ParseState.marked (p : ParseState) (b : Buf) : Option (List UInt8) :=
  p.uriExt.map fun e => b.span e (p.uriStart + p.uriLen - e)

def SameString (s : Str) (bytes : List UInt8) : Prop :=
  s.len = bytes.length ∧ cString s.bytes = cString bytes

/-- On a path that is not marked complex, `ehd_http_parse_complex_uri` would succeed, write
the path as it stands, and select the extension that is marked. -/
theorem fast_path_agrees {r p : ParseState} {b b' : Buf} {w : World} (hcalls : LineCalls r b)
    (hcall : parseRequestLine r b = (.ok, p, b')) (hfast : p.complexUri = false)
    (halive : w.r.home ∉ w.t.destroyed) (hbuf : w.c.buf = some b') (hparse : w.r.parse = p)
    (hlen : w.r.uri.len = p.uriLen) (harea : w.r.uri.data.length = p.uriLen + 1)
    (halloc : w.k.allocOk w.c.readHandler w.k.allocs.length = true) :
    (∃ s, uriLoop (.init w.r.uri.data) (b'.span p.uriStart p.uriLen) = some s ∧
        s.data.take s.u = b'.span p.uriStart p.uriLen ∧ s.selected = p.marked b') ∧
      wp parseComplexUri
        (fun rc w' => rc = .ok ∧ w'.r.uri.bytes = b'.span p.uriStart p.uriLen ∧
          match p.marked b' with
          | none => w'.r.exten = w.r.exten
          | some ext => SameString w'.r.exten ext)
        (fun _ _ => False) w := by
  obtain ⟨sw, hpath⟩ := hcalls.fastPath hcall hfast
  obtain ⟨ext, hext, hcopied⟩ := hpath.copied
  rw [Nat.add_sub_cancel_left] at hcopied
  obtain ⟨s, hs, -, hu, htake, huriExt⟩ := hcopied w.r.uri.data (by omega)
  have hspan : (b'.bytes.drop p.uriStart).take p.uriLen = b'.span p.uriStart p.uriLen := rfl
  rw [hspan] at hs hu htake
  -- the two marks, as offsets into the path
  have hmarked : p.marked b' = ext.map fun e => (b'.span p.uriStart p.uriLen).drop e := by
    unfold ParseState.marked
    rw [hext, Option.map_map]
    congr 1
    funext e
    show (b'.bytes.drop (p.uriStart + e)).take (p.uriStart + p.uriLen - (p.uriStart + e)) =
      ((b'.bytes.drop p.uriStart).take p.uriLen).drop e
    rw [List.drop_take, List.drop_drop]
    congr 1
    omega
  refine ⟨⟨s, hs, htake, ?_⟩, ?_⟩
  · unfold UriScan.selected
    rw [huriExt, hmarked, htake]
  · have hbytes : (s.data.set s.u 0).take s.u = b'.span p.uriStart p.uriLen := by
      rw [List.take_set_of_le (Nat.le_refl _), htake]
    unfold parseComplexUri
    rw [wp_bind, wp_getRequest halive, wp_bind, wp_getHeaderInBuf halive hbuf, hparse, hlen, hs]
    dsimp only
    rw [wp_bind, wp_modifyRequest halive, huriExt, hmarked]
    cases ext with
    | none => exact ⟨rfl, hbytes, rfl⟩
    | some e =>
      dsimp only
      rw [wp_bind, wp_palloc]
      constructor
      · intro _
        dsimp only
        rw [wp_bind, wp_modifyRequest (by exact halive), wp_pure]
        have hsrc : ((s.data.set s.u 0).drop e).take (s.u - e) =
            (b'.span p.uriStart p.uriLen).drop e := by
          rw [← hbytes, List.drop_take]
        refine ⟨rfl, hbytes, ?_, ?_⟩
        · show s.u - e = _
          rw [List.length_drop, hu]
        · show cString (List.take _ _) = cString ((b'.span p.uriStart p.uriLen).drop e)
          rw [← hsrc]
          apply cString_cpystrn
          simp
      · intro hfail
        exact absurd (halloc.symm.trans hfail) (by decide)

/-- A request whose line has been read, with the area for the copy of its path. -/
def sampleLine (line : String) : World :=
  { sampleRequest [] with
    c := { (sampleRequest []).c with buf := some (lineRest line) }
    r := { (sampleRequest []).r with
      parse := lineState line
      uri := ⟨(lineState line).uriLen, List.replicate ((lineState line).uriLen + 1) 0⟩ } }

theorem fast_path_agrees_sampleLine :
    wp parseComplexUri
      (fun rc w' => rc = .ok ∧ w'.r.uri.bytes = ascii "/a.b/c.html" ∧
        SameString w'.r.exten (ascii "html"))
      (fun _ _ => False) (sampleLine "GET /a.b/c.html?x HTTP/1.1\x0d\n") := by
  have hcall : parseRequestLine {} (lineBuf "GET /a.b/c.html?x HTTP/1.1\x0d\n") =
      (.ok, lineState "GET /a.b/c.html?x HTTP/1.1\x0d\n",
        lineRest "GET /a.b/c.html?x HTTP/1.1\x0d\n") := by decide
  have hspan : (lineRest "GET /a.b/c.html?x HTTP/1.1\x0d\n").span
      (lineState "GET /a.b/c.html?x HTTP/1.1\x0d\n").uriStart
      (lineState "GET /a.b/c.html?x HTTP/1.1\x0d\n").uriLen = ascii "/a.b/c.html" := by
    decide
  have hmarked : (lineState "GET /a.b/c.html?x HTTP/1.1\x0d\n").marked
      (lineRest "GET /a.b/c.html?x HTTP/1.1\x0d\n") = some (ascii "html") := by decide
  have hagrees := (@fast_path_agrees {} _ _ _ (sampleLine "GET /a.b/c.html?x HTTP/1.1\x0d\n")
    (.first _) hcall (by decide) (by exact List.not_mem_nil) rfl rfl rfl
    (List.length_replicate ..) rfl).2
  rw [hspan, hmarked] at hagrees
  exact hagrees

end Ehd.Http
