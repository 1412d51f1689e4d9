import Ehttpd.Http.RequestLineGrammar

namespace Ehd.Http

open Scanner

variable {buf : List UInt8} {r : ParseState} {p : Nat} {v : List UInt8}

theorem requestLine_one {st st' : RequestLineSw} {r' : ParseState} {ch : UInt8}
    (hst : (st == .done) = false) (h : requestLineStep buf st r (p + 1) ch = .next st' r') :
    requestLineLoop buf st r p (ch :: v) = requestLineLoop buf st' r' (p + 1) v := by
  unfold requestLineLoop
  rw [scan, if_neg (by simp [hst]), h]

structure MethodPart (lead method spaces : List UInt8) : Prop where
  breaks : ∀ ch ∈ lead, IsLineBreak ch
  letters : ∀ ch ∈ method, isUpper ch
  method_ne : method ≠ []
  blank : ∀ ch ∈ spaces, ch = 32
  spaces_ne : spaces ≠ []

theorem isUpper_ne_break {ch : UInt8} (h : isUpper ch) : ¬ (ch = CR ∨ ch = LF) := by
  unfold isUpper at h
  unfold CR LF
  grind

theorem isUpper_ne_space {ch : UInt8} (h : isUpper ch) : ch ≠ 32 := by
  unfold isUpper at h
  grind

/-- The line breaks before a request, and the first letter of the method. -/
theorem scan_lead {lead : List UInt8} {ch : UInt8} (hlead : ∀ c ∈ lead, IsLineBreak c)
    (hch : isUpper ch) :
    requestLineLoop buf .start r p (lead ++ ch :: v) =
      requestLineLoop buf .method { r with requestStart := p + lead.length }
        (p + lead.length + 1) v := by
  induction lead generalizing r p with
  | nil =>
    apply requestLine_one rfl
    simp only [requestLineStep]
    rw [if_neg (isUpper_ne_break hch), if_neg (not_not.2 hch)]
    rfl
  | cons c lead ih =>
    have hc : c = CR ∨ c = LF := hlead c List.mem_cons_self
    have hstep : requestLineStep buf .start r (p + 1) c =
        .next .start { r with requestStart := p } := by
      simp only [requestLineStep]
      rw [if_pos hc]
      rfl
    rw [List.cons_append]
    refine (requestLine_one rfl hstep).trans ?_
    refine (ih fun c' hc' => hlead c' (List.mem_cons_of_mem _ hc')).trans ?_
    rw [List.length_cons, Nat.add_assoc p 1, Nat.add_comm 1]

/-- The rest of the method, and the space that ends it. -/
theorem scan_method {letters : List UInt8} (h : ∀ c ∈ letters, isUpper c) :
    requestLineLoop buf .method r p (letters ++ 32 :: v) =
      requestLineLoop buf .spacesBeforeUri { r with
        methodEnd := p + letters.length
        method := methodOf r (fun i => buf.getD (r.requestStart + i) 0)
          (p + letters.length - r.requestStart) } (p + letters.length + 1) v := by
  have hletters : requestLineLoop buf .method r p (letters ++ 32 :: v) =
      requestLineLoop buf .method r (p + letters.length) (32 :: v) := by
    apply scan_many rfl _ h
    intro c hc q
    simp only [requestLineStep]
    rw [if_neg (isUpper_ne_space hc), if_neg (not_not.2 hc)]
  rw [hletters]
  apply requestLine_one rfl
  simp only [requestLineStep]
  rfl

theorem scan_spaces {spaces : List UInt8} (h : ∀ c ∈ spaces, c = 32) :
    requestLineLoop buf .spacesBeforeUri r p (spaces ++ v) =
      requestLineLoop buf .spacesBeforeUri r (p + spaces.length) v := by
  apply scan_many rfl _ h
  rintro c rfl q
  simp only [requestLineStep]
  rfl

def ParseState.methodMarks (r : ParseState) (buf : List UInt8) (start len : Nat) : ParseState :=
  { r with
    requestStart := start
    methodEnd := start + len
    method := methodOf r (fun i => buf.getD (start + i) 0) len }

/-- Up to the target. -/
theorem MethodPart.scan {lead method spaces : List UInt8} (h : MethodPart lead method spaces) :
    requestLineLoop buf .start r p (lead ++ method ++ spaces ++ v) =
      requestLineLoop buf .spacesBeforeUri (r.methodMarks buf (p + lead.length) method.length)
        (p + (lead ++ method ++ spaces).length) v := by
  obtain ⟨hlead, hmethod, hne, hspaces, hsne⟩ := h
  cases method with
  | nil => exact absurd rfl hne
  | cons ch letters =>
    cases spaces with
    | nil => exact absurd rfl hsne
    | cons c spaces =>
      obtain rfl := hspaces c List.mem_cons_self
      have hlist : lead ++ ch :: letters ++ 32 :: spaces ++ v =
          lead ++ ch :: (letters ++ 32 :: (spaces ++ v)) := by simp
      rw [hlist, scan_lead hlead (hmethod ch List.mem_cons_self),
        scan_method fun c hc => hmethod c (List.mem_cons_of_mem _ hc),
        scan_spaces fun c hc => hspaces c (List.mem_cons_of_mem _ hc)]
      have hend : p + lead.length + 1 + letters.length = p + lead.length + (ch :: letters).length := by
        rw [List.length_cons]
        omega
      have hpos : p + lead.length + 1 + letters.length + 1 + spaces.length =
          p + (lead ++ ch :: letters ++ 32 :: spaces).length := by
        simp only [List.length_append, List.length_cons]
        omega
      rw [hpos]
      simp only [hend, Nat.add_sub_cancel_left]
      rfl

theorem scan_slash :
    requestLineLoop buf .spacesBeforeUri r p (47 :: v) =
      requestLineLoop buf .afterSlashInUri { r with uriStart := p } (p + 1) v := by
  apply requestLine_one rfl
  simp only [requestLineStep]
  rfl

def RequestLineSw.InUri : RequestLineSw → Prop
  | afterSlashInUri | checkUri | uri => True
  | _ => False

structure UriMarks (r r' : ParseState) : Prop where
  eq : r' = { r with
    complexUri := r'.complexUri, uriExt := r'.uriExt, argsStart := r'.argsStart }

theorem uriMarks_trans {r r' r'' : ParseState} (h : UriMarks r r') (h' : UriMarks r' r'') :
    UriMarks r r'' := by
  constructor
  rw [h'.eq, h.eq]

theorem uriStep_inUri {st : RequestLineSw} (hst : st.InUri) {ch : UInt8} (hch : IsUriChar ch) :
    ∃ st' r', st'.InUri ∧ UriMarks r r' ∧ requestLineStep buf st r (p + 1) ch = .next st' r' := by
  obtain ⟨hsp, hcr, hlf⟩ := hch
  cases st with
  | afterSlashInUri =>
    simp only [requestLineStep]
    rw [if_neg hcr, if_neg hlf, if_neg hsp]
    split
    · exact ⟨.uri, _, trivial, ⟨rfl⟩, rfl⟩
    · split
      · exact ⟨.afterSlashInUri, _, trivial, ⟨rfl⟩, rfl⟩
      · split
        · exact ⟨.uri, _, trivial, ⟨rfl⟩, rfl⟩
        · exact ⟨.checkUri, r, trivial, ⟨rfl⟩, rfl⟩
  | checkUri =>
    simp only [requestLineStep]
    rw [if_neg hcr, if_neg hlf, if_neg hsp]
    split
    · exact ⟨.checkUri, _, trivial, ⟨rfl⟩, rfl⟩
    · split
      · exact ⟨.afterSlashInUri, _, trivial, ⟨rfl⟩, rfl⟩
      · split
        · exact ⟨.uri, _, trivial, ⟨rfl⟩, rfl⟩
        · split
          · exact ⟨.uri, _, trivial, ⟨rfl⟩, rfl⟩
          · exact ⟨.checkUri, r, trivial, ⟨rfl⟩, rfl⟩
  | uri =>
    simp only [requestLineStep]
    rw [if_neg hcr, if_neg hlf, if_neg hsp]
    exact ⟨.uri, r, trivial, ⟨rfl⟩, rfl⟩
  | _ => exact absurd hst id

theorem inUri_not_done {st : RequestLineSw} (h : st.InUri) : (st == .done) = false := by
  cases st <;> first | rfl | exact absurd h id

/-- The bytes of the URI. -/
theorem scan_uri {st : RequestLineSw} (hst : st.InUri) {us : List UInt8}
    (hus : ∀ ch ∈ us, IsUriChar ch) :
    ∃ st' r', st'.InUri ∧ UriMarks r r' ∧ ∀ v, requestLineLoop buf st r p (us ++ v) =
      requestLineLoop buf st' r' (p + us.length) v := by
  induction us generalizing st r p with
  | nil => exact ⟨st, r, hst, ⟨rfl⟩, fun v => rfl⟩
  | cons ch us ih =>
    obtain ⟨st₁, r₁, hst₁, hr₁, hstep⟩ :=
      @uriStep_inUri buf r p st hst _ (hus ch List.mem_cons_self)
    obtain ⟨st', r', hst', hr', hscan⟩ :=
      @ih r₁ (p + 1) st₁ hst₁ fun c hc => hus c (List.mem_cons_of_mem _ hc)
    refine ⟨st', r', hst', uriMarks_trans hr₁ hr', fun v => ?_⟩
    rw [List.cons_append]
    have hone : requestLineLoop buf st r p (ch :: (us ++ v)) =
        requestLineLoop buf st₁ r₁ (p + 1) (us ++ v) := requestLine_one (inUri_not_done hst) hstep
    rw [hone, hscan v, List.length_cons, Nat.add_assoc, Nat.add_comm 1]

inductive IsLineEnd : List UInt8 → Prop
  | lf : IsLineEnd [LF]
  | crlf : IsLineEnd [CR, LF]

/-- `r->request_end` after a line that ends with `e` at `p`; for a bare LF it is set later. -/
def ParseState.ended (r : ParseState) (p : Nat) (e : List UInt8) : ParseState :=
  if e = [LF] then r else { r with requestEnd := some p }

theorem scan_almostDone {q : Nat} :
    requestLineLoop buf .almostDone r (q + 1) (LF :: v) =
      .exit .done { r with requestEnd := some q } (q + 2) := by
  have hone : requestLineLoop buf .almostDone r (q + 1) (LF :: v) =
      requestLineLoop buf .done { r with requestEnd := some q } (q + 2) v := by
    apply requestLine_one rfl
    simp only [requestLineStep]
    rfl
  rw [hone]
  exact scan_of_final rfl _ _ _

/-- A line end takes the scan from `st` to the end, where it stores as `f` says. -/
theorem scan_lineEnd {st : RequestLineSw} {f : ParseState → ParseState} {e : List UInt8}
    (hst : (st == .done) = false) (he : IsLineEnd e)
    (hcr : requestLineStep buf st r (p + 1) CR = .next .almostDone (f r))
    (hlf : requestLineStep buf st r (p + 1) LF = .next .done (f r)) :
    requestLineLoop buf st r p (e ++ v) = .exit .done ((f r).ended p e) (p + e.length) := by
  cases he with
  | lf =>
    have hone : requestLineLoop buf st r p ([LF] ++ v) =
        requestLineLoop buf .done (f r) (p + 1) v := requestLine_one hst hlf
    rw [hone]
    exact scan_of_final rfl _ _ _
  | crlf =>
    have hone : requestLineLoop buf st r p ([CR, LF] ++ v) =
        requestLineLoop buf .almostDone (f r) (p + 1) (LF :: v) := requestLine_one hst hcr
    rw [hone]
    exact scan_almostDone

theorem scan_uri_end {st : RequestLineSw} (hst : st.InUri) {e : List UInt8} (he : IsLineEnd e) :
    requestLineLoop buf st r p (e ++ v) =
      .exit .done (ParseState.ended { r with uriEnd := p, httpMinor := 9 } p e) (p + e.length) := by
  apply @scan_lineEnd _ r p v st (fun r => { r with uriEnd := p, httpMinor := 9 }) e (inUri_not_done hst) he
  · cases st <;> first | rfl | exact absurd hst id
  · cases st <;> first | rfl | exact absurd hst id

theorem scan_uri_space {st : RequestLineSw} (hst : st.InUri) :
    requestLineLoop buf st r p (32 :: v) =
      requestLineLoop buf .http09 { r with uriEnd := p } (p + 1) v := by
  apply requestLine_one (inUri_not_done hst)
  cases st <;> first | rfl | exact absurd hst id

theorem scan_http09_spaces {spaces : List UInt8} (h : ∀ c ∈ spaces, c = 32) :
    requestLineLoop buf .http09 r p (spaces ++ v) =
      requestLineLoop buf .http09 r (p + spaces.length) v := by
  apply scan_many rfl _ h
  rintro c rfl q
  rfl

theorem scan_http09_end {e : List UInt8} (he : IsLineEnd e) :
    requestLineLoop buf .http09 r p (e ++ v) =
      .exit .done (ParseState.ended { r with httpMinor := 9 } p e) (p + e.length) := by
  apply @scan_lineEnd _ r p v .http09 (fun r => { r with httpMinor := 9 }) e rfl he
  · rfl
  · rfl

def number (n : UInt32) (digits : List UInt8) : UInt32 :=
  digits.foldl (fun n ch => n * 10 + ch.toUInt32 - 48) n

def IsMajor : List UInt8 → Prop
  | [] => False
  | ch :: digits => (49 ≤ ch ∧ ch ≤ 57) ∧ ∀ c ∈ digits, isDigit c

def IsMinor (digits : List UInt8) : Prop := digits ≠ [] ∧ ∀ c ∈ digits, isDigit c

theorem digit_value {ch : UInt8} (h : 48 ≤ ch) : (ch - 48).toUInt32 = 0 * 10 + ch.toUInt32 - 48 := by
  apply UInt32.toNat.inj
  have hle : 48 ≤ ch.toNat := h
  have hlt := ch.toNat_lt
  rw [UInt8.toNat_toUInt32, UInt8.toNat_sub_of_le _ _ h, UInt32.toNat_sub_of_le]
  · simp
  · rw [UInt32.le_iff_toNat_le]
    simpa using hle

theorem scan_majorDigits {digits : List UInt8} (h : ∀ c ∈ digits, isDigit c) :
    requestLineLoop buf .majorDigit r p (digits ++ v) =
      requestLineLoop buf .majorDigit { r with httpMajor := number r.httpMajor digits }
        (p + digits.length) v := by
  induction digits generalizing r p with
  | nil => rfl
  | cons ch digits ih =>
    have hch := h ch List.mem_cons_self
    have hone : requestLineLoop buf .majorDigit r p (ch :: (digits ++ v)) =
        requestLineLoop buf .majorDigit { r with
          httpMajor := r.httpMajor * 10 + ch.toUInt32 - 48 } (p + 1) (digits ++ v) := by
      apply requestLine_one rfl
      simp only [requestLineStep]
      rw [if_neg, if_neg (not_not.2 hch)]
      rintro rfl
      exact absurd hch (by decide)
    rw [List.cons_append, hone, ih fun c hc => h c (List.mem_cons_of_mem _ hc), List.length_cons,
      Nat.add_assoc, Nat.add_comm 1]
    rfl

theorem scan_minorDigits {digits : List UInt8} (h : ∀ c ∈ digits, isDigit c) :
    requestLineLoop buf .minorDigit r p (digits ++ v) =
      requestLineLoop buf .minorDigit { r with httpMinor := number r.httpMinor digits }
        (p + digits.length) v := by
  induction digits generalizing r p with
  | nil => rfl
  | cons ch digits ih =>
    have hch := h ch List.mem_cons_self
    have hone : requestLineLoop buf .minorDigit r p (ch :: (digits ++ v)) =
        requestLineLoop buf .minorDigit { r with
          httpMinor := r.httpMinor * 10 + ch.toUInt32 - 48 } (p + 1) (digits ++ v) := by
      apply requestLine_one rfl
      simp only [requestLineStep]
      rw [if_neg, if_neg, if_neg (not_not.2 hch)]
      · rintro rfl
        exact absurd hch (by decide)
      · rintro rfl
        exact absurd hch (by decide)
    rw [List.cons_append, hone, ih fun c hc => h c (List.mem_cons_of_mem _ hc), List.length_cons,
      Nat.add_assoc, Nat.add_comm 1]
    rfl

theorem scan_major {major : List UInt8} (h : IsMajor major) :
    requestLineLoop buf .firstMajorDigit r p (major ++ v) =
      requestLineLoop buf .majorDigit { r with httpMajor := number 0 major }
        (p + major.length) v := by
  cases major with
  | nil => exact absurd h id
  | cons ch digits =>
    obtain ⟨hch, hdigits⟩ := h
    have hlow : (48 : UInt8) ≤ ch := UInt8.le_trans (by decide) hch.1
    have hone : requestLineLoop buf .firstMajorDigit r p (ch :: (digits ++ v)) =
        requestLineLoop buf .majorDigit { r with httpMajor := (ch - 48).toUInt32 } (p + 1)
          (digits ++ v) := by
      apply requestLine_one rfl
      simp only [requestLineStep]
      rw [if_neg]
      grind
    rw [List.cons_append, hone, scan_majorDigits hdigits, digit_value hlow, List.length_cons,
      Nat.add_assoc, Nat.add_comm 1]
    rfl

theorem isDigit_low {ch : UInt8} (h : isDigit ch) : 48 ≤ ch := by
  unfold isDigit at h
  grind

theorem scan_minor {minor : List UInt8} (h : IsMinor minor) :
    requestLineLoop buf .firstMinorDigit r p (minor ++ v) =
      requestLineLoop buf .minorDigit { r with httpMinor := number 0 minor }
        (p + minor.length) v := by
  obtain ⟨hne, hdigits⟩ := h
  cases minor with
  | nil => exact absurd rfl hne
  | cons ch digits =>
    have hch := hdigits ch List.mem_cons_self
    have hone : requestLineLoop buf .firstMinorDigit r p (ch :: (digits ++ v)) =
        requestLineLoop buf .minorDigit { r with httpMinor := (ch - 48).toUInt32 } (p + 1)
          (digits ++ v) := by
      apply requestLine_one rfl
      simp only [requestLineStep]
      rw [if_neg (not_not.2 hch)]
    rw [List.cons_append, hone, scan_minorDigits fun c hc => hdigits c (List.mem_cons_of_mem _ hc),
      digit_value (isDigit_low hch), List.length_cons, Nat.add_assoc, Nat.add_comm 1]
    rfl

theorem scan_minor_end {e : List UInt8} (he : IsLineEnd e) :
    requestLineLoop buf .minorDigit r p (e ++ v) = .exit .done (r.ended p e) (p + e.length) := by
  apply @scan_lineEnd _ r p v .minorDigit (fun r => r) e rfl he
  · rfl
  · rfl

def httpSlash : List UInt8 := [72, 84, 84, 80, 47]

theorem scan_httpSlash :
    requestLineLoop buf .http09 r p (httpSlash ++ v) =
      requestLineLoop buf .firstMajorDigit r (p + 5) v := rfl

/-- `SP*` and a line end, or `SP+ HTTP/[1-9][0-9]*.[0-9]+` and a line end. -/
inductive LineTail : List UInt8 → Prop
  | plain {spaces e : List UInt8} : (∀ c ∈ spaces, c = 32) → IsLineEnd e → LineTail (spaces ++ e)
  | version {spaces major minor e : List UInt8} : (∀ c ∈ spaces, c = 32) → spaces ≠ [] →
      IsMajor major → IsMinor minor → IsLineEnd e →
      LineTail (spaces ++ httpSlash ++ major ++ 46 :: minor ++ e)

theorem blank_space : ∀ c ∈ ([32] : List UInt8), c = 32 := List.forall_mem_singleton.2 rfl

theorem isMajor_one : IsMajor [49] := ⟨by decide, nofun⟩

theorem isMinor_digit {ch : UInt8} (h : isDigit ch) : IsMinor [ch] :=
  ⟨List.cons_ne_nil ch [], List.forall_mem_singleton.2 h⟩

/-- A line without a version. -/
theorem scan_plain_tail {st : RequestLineSw} (hst : st.InUri) {spaces e : List UInt8}
    (hspaces : ∀ c ∈ spaces, c = 32) (he : IsLineEnd e) :
    requestLineLoop buf st r p (spaces ++ e ++ v) =
      .exit .done (ParseState.ended { r with uriEnd := p, httpMinor := 9 } (p + spaces.length) e)
        (p + (spaces ++ e).length) := by
  cases spaces with
  | nil => exact scan_uri_end hst he
  | cons c spaces =>
    obtain rfl := hspaces c List.mem_cons_self
    have hlist : 32 :: spaces ++ e ++ v = 32 :: (spaces ++ (e ++ v)) := by simp
    have hpos : p + 1 + spaces.length = p + (32 :: spaces).length := by
      rw [List.length_cons]
      omega
    rw [hlist, scan_uri_space hst, scan_http09_spaces fun c hc => hspaces c (List.mem_cons_of_mem _ hc),
      scan_http09_end he, hpos, List.length_append, Nat.add_assoc]

/-- A line with a version. -/
theorem scan_version_tail {st : RequestLineSw} (hst : st.InUri) {spaces major minor e : List UInt8}
    (hspaces : ∀ c ∈ spaces, c = 32) (hne : spaces ≠ []) (hmajor : IsMajor major)
    (hminor : IsMinor minor) (he : IsLineEnd e) :
    requestLineLoop buf st r p (spaces ++ httpSlash ++ major ++ 46 :: minor ++ e ++ v) =
      .exit .done (ParseState.ended { r with
          uriEnd := p, httpMajor := number 0 major, httpMinor := number 0 minor }
          (p + (spaces ++ httpSlash ++ major ++ 46 :: minor).length) e)
        (p + (spaces ++ httpSlash ++ major ++ 46 :: minor ++ e).length) := by
  cases spaces with
  | nil => exact absurd rfl hne
  | cons c spaces =>
    obtain rfl := hspaces c List.mem_cons_self
    have hlist : 32 :: spaces ++ httpSlash ++ major ++ 46 :: minor ++ e ++ v =
        32 :: (spaces ++ (httpSlash ++ (major ++ 46 :: (minor ++ (e ++ v))))) := by simp
    have hdot : ∀ (r : ParseState) (q : Nat) (w : List UInt8),
        requestLineLoop buf .majorDigit r q (46 :: w) =
          requestLineLoop buf .firstMinorDigit r (q + 1) w := fun _ _ _ => rfl
    have hpos : p + 1 + spaces.length + 5 + major.length + 1 + minor.length =
        p + (32 :: spaces ++ httpSlash ++ major ++ 46 :: minor).length := by
      simp only [List.length_append, List.length_cons, httpSlash, List.length_nil]
      omega
    rw [hlist, scan_uri_space hst, scan_http09_spaces fun c hc => hspaces c (List.mem_cons_of_mem _ hc),
      scan_httpSlash, scan_major hmajor, hdot, scan_minor hminor, scan_minor_end he, hpos]
    rw [@List.length_append _ _ e, Nat.add_assoc]

end Ehd.Http
