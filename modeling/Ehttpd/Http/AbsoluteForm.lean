import Ehttpd.Http.OriginForm

namespace Ehd.Http

open Scanner

variable {buf : List UInt8} {r : ParseState} {p : Nat} {v : List UInt8}

instance : DecidablePred IsLetter := fun ch => by unfold IsLetter; infer_instance

instance : DecidablePred IsHostChar := fun ch => by unfold IsHostChar; infer_instance

theorem scan_letter {ch : UInt8} (h : IsLetter ch) :
    requestLineLoop buf .spacesBeforeUri r p (ch :: v) =
      requestLineLoop buf .schema { r with schemaStart := p } (p + 1) v := by
  apply requestLine_one rfl
  have hslash : ch ≠ 47 := by
    rintro rfl
    exact absurd h (by decide)
  have hspace : ch ≠ 32 := by
    rintro rfl
    exact absurd h (by decide)
  have hletter : isUpper ch ∨ isLower ch := h
  simp only [requestLineStep]
  rw [if_neg hslash, if_neg hspace, if_pos hletter]
  rfl

theorem scan_schema {schema : List UInt8} (h : ∀ c ∈ schema, IsLetter c) :
    requestLineLoop buf .schema r p (schema ++ v) =
      requestLineLoop buf .schema r (p + schema.length) v := by
  apply scan_many rfl _ h
  intro ch hch q
  have hcolon : ch ≠ 58 := by
    rintro rfl
    exact absurd hch (by decide)
  have hletter : isUpper ch ∨ isLower ch := hch
  simp only [requestLineStep]
  rw [if_neg hcolon, if_pos hletter]

theorem scan_host {host : List UInt8} (h : ∀ c ∈ host, IsHostChar c) :
    requestLineLoop buf .host r p (host ++ v) =
      requestLineLoop buf .host r (p + host.length) v := by
  apply scan_many rfl _ h
  intro ch hch q
  have hcolon : ch ≠ 58 := by
    rintro rfl
    exact absurd hch (by decide)
  have hslash : ch ≠ 47 := by
    rintro rfl
    exact absurd hch (by decide)
  have hhost : isUpper ch ∨ isLower ch ∨ isDigit ch ∨ ch = 46 ∨ ch = 45 := hch
  simp only [requestLineStep]
  rw [if_neg hcolon, if_neg hslash, if_pos hhost]

theorem scan_port {port : List UInt8} (h : ∀ c ∈ port, c ≠ 47) :
    requestLineLoop buf .port r p (port ++ v) =
      requestLineLoop buf .port r (p + port.length) v := by
  apply scan_many rfl _ h
  intro ch hch q
  simp only [requestLineStep]
  rw [if_neg hch, if_neg]
  grind

/-- The marks of a scheme at `p` with `n` letters; `host_start` is set at the second slash. -/
def ParseState.schemaMarks (r : ParseState) (p n : Nat) : ParseState :=
  { r with schemaStart := p, schemaEnd := p + n, hostStart := p + n + 2 }

def colonSlashSlash : List UInt8 := [58, 47, 47]

theorem scan_colonSlashSlash :
    requestLineLoop buf .schema r p (colonSlashSlash ++ v) =
      requestLineLoop buf .host { r with schemaEnd := p, hostStart := p + 2 } (p + 3) v := rfl

structure IsSchema (schema : List UInt8) : Prop where
  ne : schema ≠ []
  letters : ∀ c ∈ schema, IsLetter c

theorem IsSchema.scan {schema : List UInt8} (h : IsSchema schema) :
    requestLineLoop buf .spacesBeforeUri r p (schema ++ v) =
      requestLineLoop buf .schema { r with schemaStart := p } (p + schema.length) v := by
  obtain ⟨hne, hletters⟩ := h
  cases schema with
  | nil => exact absurd rfl hne
  | cons ch schema =>
    rw [List.cons_append, scan_letter (hletters ch List.mem_cons_self),
      scan_schema fun c hc => hletters c (List.mem_cons_of_mem _ hc), List.length_cons,
      Nat.add_assoc, Nat.add_comm 1]

theorem scan_authority {schema host : List UInt8} (h : IsSchema schema)
    (hhost : ∀ c ∈ host, IsHostChar c) :
    requestLineLoop buf .spacesBeforeUri r p (schema ++ colonSlashSlash ++ host ++ v) =
      requestLineLoop buf .host (r.schemaMarks p schema.length)
        (p + (schema ++ colonSlashSlash ++ host).length) v := by
  have hlist : schema ++ colonSlashSlash ++ host ++ v =
      schema ++ (colonSlashSlash ++ (host ++ v)) := by simp
  have hpos : p + schema.length + 3 + host.length =
      p + (schema ++ colonSlashSlash ++ host).length := by
    simp only [List.length_append, colonSlashSlash, List.length_cons, List.length_nil]
    omega
  rw [hlist, h.scan, scan_colonSlashSlash, scan_host hhost, hpos]
  rfl

theorem scan_host_slash : requestLineLoop buf .host r p (47 :: v) =
    requestLineLoop buf .afterSlashInUri { r with hostEnd := p, uriStart := p } (p + 1) v := rfl

theorem scan_host_colon : requestLineLoop buf .host r p (58 :: v) =
    requestLineLoop buf .port { r with hostEnd := p } (p + 1) v := rfl

theorem scan_port_slash : requestLineLoop buf .port r p (47 :: v) =
    requestLineLoop buf .afterSlashInUri { r with portEnd := p, uriStart := p } (p + 1) v := rfl

def RequestLineSw.PastAuthority : RequestLineSw → Prop
  | .start | .method | .spaceAfterMethod | .spacesBeforeUri | .schema | .schemaSlash
  | .schemaSlashSlash | .host | .port => False
  | _ => True

structure SameAuthority (r r' : ParseState) : Prop where
  schemaStart : r'.schemaStart = r.schemaStart
  schemaEnd : r'.schemaEnd = r.schemaEnd
  hostStart : r'.hostStart = r.hostStart
  uriStart : r'.uriStart = r.uriStart

theorem pastAuthority_next {st st' : RequestLineSw} {r r' : ParseState} {ch : UInt8}
    (hst : st.PastAuthority) (h : requestLineStep buf st r p ch = .next st' r') :
    st'.PastAuthority ∧ SameAuthority r r' := by
  cases st <;> simp only [requestLineStep] at h
  all_goals (repeat' split at h)
  all_goals first
    | exact absurd hst id
    | (cases h <;> exact ⟨trivial, rfl, rfl, rfl, rfl⟩)

theorem pastAuthority_stop {st : RequestLineSw} {r r' : ParseState} {ch : UInt8} {rc : Rc}
    (hst : st.PastAuthority) (h : requestLineStep buf st r p ch = .stop rc r') :
    SameAuthority r r' := by
  cases st <;> simp only [requestLineStep] at h
  all_goals (repeat' split at h)
  all_goals first
    | exact absurd hst id
    | (cases h <;> exact ⟨rfl, rfl, rfl, rfl⟩)

theorem SameAuthority.trans {r r' r'' : ParseState} (h : SameAuthority r r')
    (h' : SameAuthority r' r'') : SameAuthority r r'' :=
  ⟨h'.schemaStart.trans h.schemaStart, h'.schemaEnd.trans h.schemaEnd,
    h'.hostStart.trans h.hostStart, h'.uriStart.trans h.uriStart⟩

theorem scan_sameAuthority {st : RequestLineSw} (hst : st.PastAuthority) :
    SameAuthority r (requestLineLoop buf st r p v).record := by
  apply scan_keeps (S := RequestLineSw.PastAuthority) (R := SameAuthority r) _ _ hst
  · exact ⟨rfl, rfl, rfl, rfl⟩
  · intro st r₁ q ch st' r' hst hr hs
    obtain ⟨hst', hsame⟩ := pastAuthority_next hst hs
    exact ⟨hst', hr.trans hsame⟩
  · intro st r₁ q ch rc r' hst hr hs
    exact hr.trans (pastAuthority_stop hst hs)

theorem parseRequestLine_sameAuthority (b : Buf) : SameAuthority
    (requestLineLoop b.bytes (.ofUint r.state) r b.pos b.unread).record
    (parseRequestLine r b).2.1 := by
  unfold parseRequestLine
  cases requestLineLoop b.bytes (.ofUint r.state) r b.pos b.unread with
  | stop rc r' => exact ⟨rfl, rfl, rfl, rfl⟩
  | exit st r' q =>
    by_cases hst : st = .done
    · subst hst
      simp only [requestLineDone_record]
      exact ⟨rfl, rfl, rfl, rfl⟩
    · cases st <;> first | exact absurd rfl hst | exact ⟨rfl, rfl, rfl, rfl⟩

inductive AbsoluteTarget (schema host : List UInt8) : Option (List UInt8) → List UInt8 → Prop
  | plain (rest : List UInt8) : IsSchema schema → (∀ c ∈ host, IsHostChar c) →
      AbsoluteTarget schema host none (schema ++ colonSlashSlash ++ host ++ 47 :: rest)
  | port (digits rest : List UInt8) : IsSchema schema → (∀ c ∈ host, IsHostChar c) →
      (∀ c ∈ digits, isDigit c) → AbsoluteTarget schema host (some digits)
        (schema ++ colonSlashSlash ++ host ++ 58 :: (digits ++ 47 :: rest))

structure Delimits (r : ParseState) (p : Nat) (schema host : List UInt8)
    (port : Option (List UInt8)) : Prop where
  schemaStart : r.schemaStart = p
  schemaEnd : r.schemaEnd = p + schema.length
  hostStart : r.hostStart = p + schema.length + 3
  hostEnd : r.hostEnd = p + schema.length + 3 + host.length
  portEnd : ∀ digits, port = some digits → r.portEnd = r.hostEnd + 1 + digits.length
  uriStart : r.uriStart = (if port = none then r.hostEnd else r.portEnd)

/-- What is asked of the parser for a target at `p`: past the authority, where it sets
`uri_start`, only with a target of the form, whose parts it has marked; what cannot become
one refused; and nothing taken behind the first LF. -/
structure AbsoluteParsed (b : Buf) (p : Nat) (target : List UInt8) : Prop where
  past : (parseRequestLine {} b).2.1.uriStart ≠ 0 → ∃ schema host port,
    AbsoluteTarget schema host port target ∧
      Delimits (parseRequestLine {} b).2.1 p schema host port
  refused : (¬ ∃ more schema host port, AbsoluteTarget schema host port (target ++ more)) →
    (parseRequestLine {} b).1 = .invalidRequest
  line : ∀ k, target[k]? = some LF → (parseRequestLine {} b).2.2.pos ≤ p + k + 1

def LeavesAuthority (target : List UInt8) : Prop :=
  ∃ schema host, IsSchema schema ∧ (∀ c ∈ host, IsHostChar c) ∧
    ((∃ rest, target = schema ++ colonSlashSlash ++ host ++ 47 :: rest) ∨
      ∃ digits ch rest, (∀ c ∈ digits, isDigit c) ∧ ¬ isDigit ch ∧
        target = schema ++ colonSlashSlash ++ host ++ 58 :: (digits ++ ch :: rest))

variable {lead method spaces target : List UInt8} {b : Buf}

theorem MethodPart.target_loop (h : MethodPart lead method spaces)
    (hw : b.unread = lead ++ method ++ spaces ++ target) :
    requestLineLoop b.bytes (.ofUint ({} : ParseState).state) {} b.pos b.unread =
      requestLineLoop b.bytes .spacesBeforeUri
        (({} : ParseState).methodMarks b.bytes (b.pos + lead.length) method.length)
        (b.pos + (lead ++ method ++ spaces).length) target := by
  rw [hw]
  exact h.scan

theorem parsed_of_stop {p : Nat} {r' : ParseState}
    (hloop : requestLineLoop b.bytes (.ofUint ({} : ParseState).state) {} b.pos b.unread =
      .stop .invalidRequest r') (huri : r'.uriStart = 0) (hp : b.pos ≤ p) :
    AbsoluteParsed b p target := by
  have hparse := parseRequestLine_of_stop hloop
  refine ⟨?_, ?_, ?_⟩
  · rw [hparse]
    intro hne
    exact absurd huri hne
  · rw [hparse]
    intro _
    rfl
  · rw [hparse]
    intro k _
    show b.pos ≤ p + k + 1
    omega

theorem parsed_of_more {p q : Nat} {r' : ParseState} {st : RequestLineSw}
    (hloop : requestLineLoop b.bytes (.ofUint ({} : ParseState).state) {} b.pos b.unread =
      .exit st r' q) (huri : r'.uriStart = 0)
    (hform : ∃ more schema host port, AbsoluteTarget schema host port (target ++ more))
    (hline : LF ∉ target) : AbsoluteParsed b p target := by
  have hsame := @parseRequestLine_sameAuthority {} b
  rw [hloop] at hsame
  refine ⟨?_, ?_, ?_⟩
  · intro hne
    exact absurd (hsame.uriStart.trans huri) hne
  · intro hno
    exact absurd hform hno
  · intro k hk
    exact absurd (List.mem_of_getElem? hk) hline

/-- Past the authority the marks of the host are wrong, whatever the target. -/
theorem not_parsed_of_past {p q n : Nat} {v : List UInt8} {r₁ : ParseState}
    (hloop : requestLineLoop b.bytes (.ofUint ({} : ParseState).state) {} b.pos b.unread =
      requestLineLoop b.bytes .afterSlashInUri r₁ q v)
    (hschema : r₁.schemaEnd = p + n) (hhost : r₁.hostStart = p + n + 2) (huri : r₁.uriStart ≠ 0) :
    ¬ AbsoluteParsed b p target := by
  intro hparsed
  have hsame := @parseRequestLine_sameAuthority {} b
  rw [hloop] at hsame
  have hkept := (@scan_sameAuthority b.bytes r₁ q v .afterSlashInUri trivial).trans hsame
  obtain ⟨schema, host, port, -, hmarks⟩ := hparsed.past (by rw [hkept.uriStart]; exact huri)
  have hend := hmarks.schemaEnd
  have hstart := hmarks.hostStart
  rw [hkept.schemaEnd, hschema] at hend
  rw [hkept.hostStart, hhost] at hstart
  omega

theorem letter_ne_lf {c : UInt8} (h : IsLetter c) : c ≠ LF := by
  rintro rfl
  exact absurd h (by decide)

theorem hostChar_ne_lf {c : UInt8} (h : IsHostChar c) : c ≠ LF := by
  rintro rfl
  exact absurd h (by decide)

theorem digit_ne_slash {c : UInt8} (h : isDigit c) : c ≠ 47 := by
  rintro rfl
  exact absurd h (by decide)

/-- Behind the host, what does not belong to a port cannot be repaired. -/
theorem not_absolute {schema host digits rest more : List UInt8} {ch : UInt8} (hs : IsSchema schema)
    (hhost : ∀ c ∈ host, IsHostChar c) (hdigits : ∀ c ∈ digits, isDigit c) (hch : ¬ isDigit ch)
    (hslash : ch ≠ 47) {schema' host' : List UInt8} {port : Option (List UInt8)} :
    ¬ AbsoluteTarget schema' host' port
      (schema ++ colonSlashSlash ++ host ++ 58 :: (digits ++ ch :: rest) ++ more) := by
  have hcolon : ¬ IsLetter 58 := by decide
  have hcolon' : ¬ IsHostChar 58 := by decide
  have hslash' : ¬ IsHostChar 47 := by decide
  have hlist : schema ++ colonSlashSlash ++ host ++ 58 :: (digits ++ ch :: rest) ++ more =
      schema ++ 58 :: ([47, 47] ++ (host ++ 58 :: (digits ++ ch :: (rest ++ more)))) := by
    simp [colonSlashSlash]
  rw [hlist]
  generalize htarget : schema ++ 58 :: ([47, 47] ++ (host ++ 58 :: (digits ++ ch :: (rest ++ more)))) =
    target
  intro h
  cases h with
  | plain rest' hs' hhost' =>
    have hlist' : schema' ++ colonSlashSlash ++ host' ++ 47 :: rest' =
        schema' ++ 58 :: ([47, 47] ++ (host' ++ 47 :: rest')) := by
      simp [colonSlashSlash]
    rw [hlist'] at htarget
    obtain ⟨-, -, htail⟩ := Pattern.span_unique hs.letters hcolon hs'.letters hcolon htarget
    obtain ⟨-, heq, -⟩ := Pattern.span_unique hhost hcolon' hhost' hslash'
      (List.append_cancel_left htail)
    cases heq
  | port digits' rest' hs' hhost' hdigits' =>
    have hlist' : schema' ++ colonSlashSlash ++ host' ++ 58 :: (digits' ++ 47 :: rest') =
        schema' ++ 58 :: ([47, 47] ++ (host' ++ 58 :: (digits' ++ 47 :: rest'))) := by
      simp [colonSlashSlash]
    rw [hlist'] at htarget
    obtain ⟨-, -, htail⟩ := Pattern.span_unique hs.letters hcolon hs'.letters hcolon htarget
    obtain ⟨-, -, htail'⟩ := Pattern.span_unique hhost hcolon' hhost' hcolon'
      (List.append_cancel_left htail)
    obtain ⟨-, heq, -⟩ := Pattern.span_unique (C := fun c => isDigit c) hdigits hch hdigits'
      (by decide) htail'
    exact hslash heq

/-- When the target leaves the authority, the parser fails it. -/
theorem LeavesAuthority.not_parsed (h : LeavesAuthority target)
    (hhead : MethodPart lead method spaces) (hw : b.unread = lead ++ method ++ spaces ++ target) :
    ¬ AbsoluteParsed b (b.pos + (lead ++ method ++ spaces).length) target := by
  obtain ⟨schema, host, hs, hhost, htarget⟩ := h
  have hloop := hhead.target_loop hw
  rcases htarget with ⟨rest, rfl⟩ | ⟨digits, ch, rest, hdigits, hch, rfl⟩
  · -- the slash comes right behind the host
    rw [scan_authority hs hhost, scan_host_slash] at hloop
    refine @not_parsed_of_past _ b _ _ schema.length _ _ hloop rfl rfl ?_
    simp only [List.length_append, colonSlashSlash, List.length_cons]
    omega
  · rw [scan_authority hs hhost, scan_host_colon] at hloop
    obtain ⟨port, v, hsplit, hport, hend⟩ := Pattern.exists_span (· ≠ 47) (digits ++ ch :: rest)
    rw [hsplit, scan_port hport] at hloop
    cases v with
    | cons x v =>
      -- another slash ends the port, whatever it holds
      obtain rfl : x = 47 := not_not.1 (hend x v rfl)
      rw [scan_port_slash] at hloop
      refine @not_parsed_of_past _ b _ _ schema.length _ _ hloop rfl rfl ?_
      simp only [List.length_append, colonSlashSlash, List.length_cons]
      omega
    | nil =>
      -- everything is taken for the port
      intro hparsed
      rw [List.append_nil] at hsplit
      have hslash : ch ≠ 47 := hport ch (by rw [← hsplit]; simp)
      have hrefused := hparsed.refused (by
        rintro ⟨more, schema', host', port', habs⟩
        exact not_absolute hs hhost hdigits hch hslash habs)
      have hagain : (parseRequestLine {} b).1 = .again :=
        parseRequestLine_again_iff.2 ⟨.port, _, _, rfl, hloop⟩
      rw [hagain] at hrefused
      cases hrefused

/-- How far a target gets that does not leave its authority: it ends in one of the parts,
or the next byte is refused there. -/
inductive WithinAuthority : List UInt8 → Prop
  | schema {schema : List UInt8} : IsSchema schema → WithinAuthority schema
  | schemaStops {schema rest : List UInt8} {ch : UInt8} : IsSchema schema → ¬ IsLetter ch →
      ch ≠ 58 → WithinAuthority (schema ++ ch :: rest)
  | colon {schema : List UInt8} : IsSchema schema → WithinAuthority (schema ++ [58])
  | colonStops {schema rest : List UInt8} {ch : UInt8} : IsSchema schema → ch ≠ 47 →
      WithinAuthority (schema ++ 58 :: ch :: rest)
  | slash {schema : List UInt8} : IsSchema schema → WithinAuthority (schema ++ [58, 47])
  | slashStops {schema rest : List UInt8} {ch : UInt8} : IsSchema schema → ch ≠ 47 →
      WithinAuthority (schema ++ 58 :: 47 :: ch :: rest)
  | host {schema host : List UInt8} : IsSchema schema → (∀ c ∈ host, IsHostChar c) →
      WithinAuthority (schema ++ colonSlashSlash ++ host)
  | hostStops {schema host rest : List UInt8} {ch : UInt8} : IsSchema schema →
      (∀ c ∈ host, IsHostChar c) → ¬ IsHostChar ch → ch ≠ 58 → ch ≠ 47 →
      WithinAuthority (schema ++ colonSlashSlash ++ host ++ ch :: rest)
  | port {schema host digits : List UInt8} : IsSchema schema → (∀ c ∈ host, IsHostChar c) →
      (∀ c ∈ digits, isDigit c) →
      WithinAuthority (schema ++ colonSlashSlash ++ host ++ 58 :: digits)

/-- Every target that starts with a letter leaves its authority, or stays within. -/
theorem leaves_or_within {c : UInt8} {rest : List UInt8} (hc : IsLetter c) :
    LeavesAuthority (c :: rest) ∨ WithinAuthority (c :: rest) := by
  obtain ⟨letters, w, rfl, hletters, hw⟩ := Pattern.exists_span IsLetter rest
  have hs : IsSchema (c :: letters) := by
    refine ⟨by simp, ?_⟩
    intro d hd
    rcases List.mem_cons.1 hd with rfl | hd
    · exact hc
    · exact hletters d hd
  -- each cut point is a state of the scanner before it leaves the authority
  rw [← List.cons_append]
  generalize c :: letters = schema at hs
  rcases w with _ | ⟨x, w⟩
  · rw [List.append_nil]
    exact Or.inr (.schema hs)
  by_cases hx : x = 58
  swap
  · exact Or.inr (.schemaStops hs (hw x w rfl) hx)
  subst hx
  rcases w with _ | ⟨y, w⟩
  · exact Or.inr (.colon hs)
  by_cases hy : y = 47
  swap
  · exact Or.inr (.colonStops hs hy)
  subst hy
  rcases w with _ | ⟨z, w⟩
  · exact Or.inr (.slash hs)
  by_cases hz : z = 47
  swap
  · exact Or.inr (.slashStops hs hz)
  subst hz
  obtain ⟨host, w', rfl, hhost, hw'⟩ := Pattern.exists_span IsHostChar w
  have hlist : schema ++ 58 :: 47 :: 47 :: (host ++ w') =
      schema ++ colonSlashSlash ++ host ++ w' := by simp [colonSlashSlash]
  rw [hlist]
  rcases w' with _ | ⟨x, w'⟩
  · rw [List.append_nil]
    exact Or.inr (.host hs hhost)
  by_cases hslash : x = 47
  · subst hslash
    exact Or.inl ⟨schema, host, hs, hhost, Or.inl ⟨w', rfl⟩⟩
  by_cases hcolon : x = 58
  swap
  · exact Or.inr (.hostStops hs hhost (hw' x w' rfl) hcolon hslash)
  subst hcolon
  obtain ⟨digits, v, rfl, hdigits, hv⟩ := Pattern.exists_span (fun c => isDigit c) w'
  rcases v with _ | ⟨ch, v⟩
  · rw [List.append_nil]
    exact Or.inr (.port hs hhost hdigits)
  · exact Or.inl ⟨schema, host, hs, hhost, Or.inr ⟨digits, ch, v, hdigits, hv ch v rfl, rfl⟩⟩

theorem IsSchema.extends {schema : List UInt8} (h : IsSchema schema) (k : Nat) :
    ∃ more schema' host port,
      AbsoluteTarget schema' host port (schema ++ colonSlashSlash.take k ++ more) := by
  refine ⟨colonSlashSlash.drop k ++ [47], schema, [], none, ?_⟩
  have hlist : schema ++ colonSlashSlash.take k ++ (colonSlashSlash.drop k ++ [47]) =
      schema ++ colonSlashSlash ++ [] ++ 47 :: [] := by
    rw [List.append_assoc, ← List.append_assoc (colonSlashSlash.take k), List.take_append_drop]
    simp
  rw [hlist]
  exact .plain [] h (by simp)

theorem requestLine_refused {st : RequestLineSw} {ch : UInt8} (hst : (st == .done) = false)
    (h : requestLineStep buf st r (p + 1) ch = .stop .invalidRequest r) :
    requestLineLoop buf st r p (ch :: v) = .stop .invalidRequest r := by
  unfold requestLineLoop
  rw [scan, if_neg (by simp [hst]), h]

theorem scan_schema_refused {ch : UInt8} (hch : ¬ IsLetter ch) (hcolon : ch ≠ 58) :
    requestLineLoop buf .schema r p (ch :: v) = .stop .invalidRequest r := by
  apply requestLine_refused rfl
  have hletter : ¬ (isUpper ch ∨ isLower ch) := hch
  simp only [requestLineStep]
  rw [if_neg hcolon, if_neg hletter]

theorem scan_colon : requestLineLoop buf .schema r p (58 :: v) =
    requestLineLoop buf .schemaSlash { r with schemaEnd := p } (p + 1) v := rfl

theorem scan_colon_refused {ch : UInt8} (hch : ch ≠ 47) :
    requestLineLoop buf .schemaSlash r p (ch :: v) = .stop .invalidRequest r := by
  apply requestLine_refused rfl
  simp only [requestLineStep]
  rw [if_neg hch]

theorem scan_colonSlash_refused {ch : UInt8} (hch : ch ≠ 47) :
    requestLineLoop buf .schemaSlashSlash r p (ch :: v) = .stop .invalidRequest r := by
  apply requestLine_refused rfl
  simp only [requestLineStep]
  rw [if_neg hch]

theorem scan_host_refused {ch : UInt8} (hch : ¬ IsHostChar ch) (hcolon : ch ≠ 58)
    (hslash : ch ≠ 47) : requestLineLoop buf .host r p (ch :: v) = .stop .invalidRequest r := by
  apply requestLine_refused rfl
  have hhost : ¬ (isUpper ch ∨ isLower ch ∨ isDigit ch ∨ ch = 46 ∨ ch = 45) := hch
  simp only [requestLineStep]
  rw [if_neg hcolon, if_neg hslash, if_neg hhost]

/-- Within the authority the parser does what is asked of it. -/
theorem WithinAuthority.parsed (h : WithinAuthority target)
    (hhead : MethodPart lead method spaces) (hw : b.unread = lead ++ method ++ spaces ++ target) :
    AbsoluteParsed b (b.pos + (lead ++ method ++ spaces).length) target := by
  have hloop := hhead.target_loop hw
  have hp : b.pos ≤ b.pos + (lead ++ method ++ spaces).length := Nat.le_add_right _ _
  have hletters : ∀ {schema : List UInt8}, IsSchema schema → LF ∉ schema :=
    fun hs hmem => letter_ne_lf (hs.letters _ hmem) rfl
  have hhosts : ∀ {host : List UInt8}, (∀ c ∈ host, IsHostChar c) → LF ∉ host :=
    fun hhost hmem => hostChar_ne_lf (hhost _ hmem) rfl
  cases h with
  | schema hs =>
    -- the input ends inside the schema
    rw [← List.append_nil target, hs.scan] at hloop
    have hext := hs.extends 0
    rw [List.take_zero, List.append_nil] at hext
    exact parsed_of_more hloop rfl hext (hletters hs)
  | schemaStops hs hch hcolon =>
    rw [hs.scan, scan_schema_refused hch hcolon] at hloop
    exact parsed_of_stop hloop rfl hp
  | colon hs =>
    rw [hs.scan, scan_colon] at hloop
    refine parsed_of_more hloop rfl (hs.extends 1) ?_
    rw [List.mem_append, not_or]
    exact ⟨hletters hs, by decide⟩
  | colonStops hs hch =>
    rw [hs.scan, scan_colon, scan_colon_refused hch] at hloop
    exact parsed_of_stop hloop rfl hp
  | slash hs =>
    rw [hs.scan, scan_colon] at hloop
    refine parsed_of_more hloop rfl (hs.extends 2) ?_
    rw [List.mem_append, not_or]
    exact ⟨hletters hs, by decide⟩
  | slashStops hs hch =>
    rw [hs.scan, scan_colon] at hloop
    have hslash : ∀ (r : ParseState) (q : Nat) (v : List UInt8),
        requestLineLoop b.bytes .schemaSlash r q (47 :: v) =
          requestLineLoop b.bytes .schemaSlashSlash r (q + 1) v := fun _ _ _ => rfl
    rw [hslash, scan_colonSlash_refused hch] at hloop
    exact parsed_of_stop hloop rfl hp
  | @host schema host hs hhost =>
    rw [← List.append_nil (schema ++ colonSlashSlash ++ host), scan_authority hs hhost] at hloop
    refine parsed_of_more hloop rfl ⟨[47], schema, host, none, .plain [] hs hhost⟩ ?_
    simp only [List.mem_append, not_or]
    exact ⟨⟨hletters hs, by decide⟩, hhosts hhost⟩
  | hostStops hs hhost hch hcolon hslash =>
    rw [scan_authority hs hhost, scan_host_refused hch hcolon hslash] at hloop
    exact parsed_of_stop hloop rfl hp
  | @port schema host digits hs hhost hdigits =>
    rw [scan_authority hs hhost, scan_host_colon, ← List.append_nil digits,
      scan_port fun c hc => digit_ne_slash (hdigits c hc)] at hloop
    -- a slash would complete the authority
    refine parsed_of_more hloop rfl ⟨[47], schema, host, some digits, ?_⟩ ?_
    · have hlist : schema ++ colonSlashSlash ++ host ++ 58 :: digits ++ [47] =
          schema ++ colonSlashSlash ++ host ++ 58 :: (digits ++ 47 :: []) := by simp
      rw [hlist]
      exact .port digits [] hs hhost hdigits
    · simp only [List.mem_append, List.mem_cons, not_or]
      refine ⟨⟨⟨hletters hs, by decide⟩, hhosts hhost⟩, by decide, ?_⟩
      intro hmem
      exact absurd (hdigits _ hmem) (by decide)

/-- For every request line whose target begins with a letter: what is asked of the parser
holds exactly when the target does not leave its authority or the digits of its port. -/
theorem absolute_form_iff {c : UInt8} {rest : List UInt8} (hhead : MethodPart lead method spaces)
    (hw : b.unread = lead ++ method ++ spaces ++ c :: rest) (hc : IsLetter c) :
    AbsoluteParsed b (b.pos + (lead ++ method ++ spaces).length) (c :: rest) ↔
      ¬ LeavesAuthority (c :: rest) := by
  constructor
  · intro hparsed hleaves
    exact hleaves.not_parsed hhead hw hparsed
  · intro hwithin
    rcases @leaves_or_within c rest hc with hleaves | h
    · exact absurd hleaves hwithin
    · exact h.parsed hhead hw

def hostLine : Buf := { bytes := ascii "GET http://a", pos := 0, size := EHD_DEFAULT_BUF_SIZE }

theorem absolute_form_iff_hostLine : AbsoluteParsed hostLine 4 (ascii "http://a") := by
  refine (@absolute_form_iff [] (ascii "GET") [32] hostLine 104 (ascii "ttp://a") getMethod rfl
    (by decide)).2 ?_
  rintro ⟨schema, host, -, -, ⟨rest, heq⟩ | ⟨digits, ch, rest, -, -, heq⟩⟩
  · -- a third slash
    have hcount := congrArg (List.count 47) heq
    rw [show List.count 47 (104 :: ascii "ttp://a") = 2 by decide, List.count_append,
      List.count_append, List.count_append, show List.count 47 colonSlashSlash = 2 by decide,
      List.count_cons_self] at hcount
    omega
  · -- a second colon
    have hcount := congrArg (List.count 58) heq
    rw [show List.count 58 (104 :: ascii "ttp://a") = 1 by decide, List.count_append,
      List.count_append, List.count_append, show List.count 58 colonSlashSlash = 1 by decide,
      List.count_cons_self] at hcount
    omega

def swallowedLine : Buf :=
  { bytes := ascii "GET http://a:8\x0d\nX: /", pos := 0, size := EHD_DEFAULT_BUF_SIZE }

theorem port_swallows_line :
    ¬ AbsoluteParsed swallowedLine 4 (ascii "http://a:8\x0d\nX: /") := by
  intro hparsed
  -- the call ends behind the second line
  have hpos := hparsed.line 11 (by decide)
  have hend : (parseRequestLine {} swallowedLine).2.2.pos = 20 := by decide
  rw [hend] at hpos
  exact absurd hpos (by decide)

end Ehd.Http
