import Ehttpd.Http.RequestLineScan

namespace Ehd.Http

open Scanner Pattern

structure IsOrigin (lead method spaces us tail : List UInt8) : Prop
    extends MethodPart lead method spaces where
  path : ∀ ch ∈ us, IsUriChar ch
  ends : LineTail tail

def originLine (lead method spaces us tail : List UInt8) : List UInt8 :=
  lead ++ method ++ spaces ++ 47 :: (us ++ tail)

def OriginLine (line : List UInt8) : Prop :=
  ∃ lead method spaces us tail, line = originLine lead method spaces us tail ∧
    IsOrigin lead method spaces us tail

variable {w : List UInt8}

theorem lineEnd_iff : LineEnd w ↔ IsLineEnd w := by
  constructor
  · rintro (⟨c, v, rfl, rfl, rfl⟩ | ⟨c, v, rfl, rfl, d, v, rfl, rfl, rfl⟩)
    · exact .lf
    · exact .crlf
  · intro h
    cases h with
    | lf => simp [LineEnd]
    | crlf => simp [LineEnd]

/-- What may follow the first `H`. -/
theorem version_iff : one (· = 72) Version w ↔ ∃ major minor e,
    w = httpSlash ++ major ++ 46 :: minor ++ e ∧ IsMajor major ∧ IsMinor minor ∧ IsLineEnd e := by
  constructor
  · rintro ⟨c₁, _, rfl, rfl, c₂, _, rfl, rfl, c₃, _, rfl, rfl, c₄, _, rfl, rfl, c₅, _, rfl, rfl,
      c, _, rfl, hc, digits, _, rfl, hdigits, c₆, _, rfl, rfl, d, _, rfl, hd, digits', e, rfl,
      hdigits', he⟩
    refine ⟨c :: digits, d :: digits', e, by simp [httpSlash], ⟨hc, hdigits⟩, ⟨by simp, ?_⟩,
      lineEnd_iff.1 he⟩
    intro c' hc'
    rcases List.mem_cons.1 hc' with rfl | hc'
    · exact hd
    · exact hdigits' c' hc'
  · rintro ⟨major, minor, e, rfl, hmajor, ⟨hne, hminor⟩, he⟩
    cases major with
    | nil => exact absurd hmajor id
    | cons c digits =>
      cases minor with
      | nil => exact absurd rfl hne
      | cons d digits' =>
        have hlist : httpSlash ++ c :: digits ++ 46 :: d :: digits' ++ e =
            72 :: 84 :: 84 :: 80 :: 47 :: c :: (digits ++ 46 :: d :: (digits' ++ e)) := by
          simp [httpSlash]
        rw [hlist]
        simp only [Version, VersionNumber, one_cons, true_and]
        refine ⟨hmajor.1, digits, _, rfl, hmajor.2, ?_⟩
        rw [one_cons, one_cons]
        exact ⟨rfl, hminor d List.mem_cons_self, digits', e, rfl,
          fun c' hc' => hminor c' (List.mem_cons_of_mem _ hc'), lineEnd_iff.2 he⟩

/-- The tails of a line. -/
theorem lineTail_iff : alt LineEnd (one (· = 32) AfterUri) w ↔ LineTail w := by
  constructor
  · rintro (he | ⟨c, _, rfl, rfl, spaces, v, rfl, hspaces, he | hv⟩)
    · exact @LineTail.plain [] w (by simp) (lineEnd_iff.1 he)
    · refine @LineTail.plain (32 :: spaces) v ?_ (lineEnd_iff.1 he)
      intro c hc
      rcases List.mem_cons.1 hc with rfl | hc
      · rfl
      · exact hspaces c hc
    · obtain ⟨major, minor, e, rfl, hmajor, hminor, he⟩ := version_iff.1 hv
      have hlist : 32 :: (spaces ++ (httpSlash ++ major ++ 46 :: minor ++ e)) =
          32 :: spaces ++ httpSlash ++ major ++ 46 :: minor ++ e := by simp
      rw [hlist]
      refine .version ?_ (by simp) hmajor hminor he
      intro c hc
      rcases List.mem_cons.1 hc with rfl | hc
      · rfl
      · exact hspaces c hc
  · intro h
    cases h with
    | @plain spaces e hspaces he =>
      cases spaces with
      | nil => exact Or.inl (lineEnd_iff.2 he)
      | cons c spaces =>
        exact Or.inr ⟨c, _, rfl, hspaces c List.mem_cons_self, spaces, e, rfl,
          fun c' hc' => hspaces c' (List.mem_cons_of_mem _ hc'), Or.inl (lineEnd_iff.2 he)⟩
    | @version spaces major minor e hspaces hne hmajor hminor he =>
      cases spaces with
      | nil => exact absurd rfl hne
      | cons c spaces =>
        refine Or.inr ⟨c, _, rfl, hspaces c List.mem_cons_self, spaces,
          httpSlash ++ major ++ 46 :: minor ++ e, by simp,
          fun c' hc' => hspaces c' (List.mem_cons_of_mem _ hc'), Or.inr ?_⟩
        exact version_iff.2 ⟨major, minor, e, rfl, hmajor, hminor, he⟩

theorem uriRest_iff : UriRest w ↔
    ∃ us tail, w = us ++ tail ∧ (∀ ch ∈ us, IsUriChar ch) ∧ LineTail tail := by
  constructor
  · rintro ⟨us, tail, rfl, hus, htail⟩
    exact ⟨us, tail, rfl, hus, lineTail_iff.1 htail⟩
  · rintro ⟨us, tail, rfl, hus, htail⟩
    exact ⟨us, tail, rfl, hus, lineTail_iff.2 htail⟩

variable {lead method spaces us tail rest line : List UInt8}

theorem MethodPart.leads (h : MethodPart lead method spaces) :
    RequestLineLeads .start (lead ++ method ++ spaces ++ [47]) .afterSlashInUri := by
  have hscan : requestLineLoop [] .start {} 0 (lead ++ method ++ spaces ++ [47]) =
      requestLineLoop [] .afterSlashInUri _ _ [] := h.scan.trans scan_slash
  obtain ⟨u, v, hw, hleads, -, hend⟩ :=
    leads_of_exit (requestLine_controls []) trivial hscan
  rcases hend with hend | rfl
  · cases hend
  · rw [List.append_nil] at hw
    rw [hw]
    exact hleads

theorem MethodPart.leads_iff (h : MethodPart lead method spaces) :
    RequestLineLeads .start (lead ++ method ++ spaces ++ 47 :: rest) .done ↔ UriRest rest := by
  have hlist : lead ++ method ++ spaces ++ 47 :: rest =
      lead ++ method ++ spaces ++ [47] ++ rest := by simp
  rw [hlist]
  constructor
  · intro hleads
    obtain ⟨s, hs, hs'⟩ := hleads.split
    obtain rfl := hs.unique h.leads
    exact requestLine_leads_iff.1 hs'
  · intro hrest
    exact h.leads.append (requestLine_leads_iff.2 hrest)

theorem OriginLine.leads (h : OriginLine line) : RequestLineLeads .start line .done := by
  obtain ⟨lead, method, spaces, us, tail, rfl, ho⟩ := h
  exact ho.toMethodPart.leads_iff.2 (uriRest_iff.2 ⟨us, tail, rfl, ho.path, ho.ends⟩)

theorem MethodPart.origin (h : MethodPart lead method spaces)
    (hleads : RequestLineLeads .start (lead ++ method ++ spaces ++ 47 :: rest) .done) :
    OriginLine (lead ++ method ++ spaces ++ 47 :: rest) := by
  obtain ⟨us, tail, rfl, hus, htail⟩ := uriRest_iff.1 (h.leads_iff.1 hleads)
  exact ⟨lead, method, spaces, us, tail, rfl, h, hus, htail⟩

/-- A complete line at the start of the input is longer than the head. -/
theorem MethodPart.prefix_origin (h : MethodPart lead method spaces)
    (hline : line <+: lead ++ method ++ spaces ++ 47 :: rest)
    (hleads : RequestLineLeads .start line .done) : OriginLine line := by
  have hlist : lead ++ method ++ spaces ++ 47 :: rest =
      lead ++ method ++ spaces ++ [47] ++ rest := by simp
  rw [hlist] at hline
  rcases List.prefix_or_prefix_of_prefix hline (List.prefix_append _ rest) with hshort | hlong
  · -- the line would end inside the head
    obtain ⟨v, hv⟩ := hshort
    have hhead := h.leads
    rw [← hv] at hhead
    obtain rfl := hleads.nil_of_append rfl hhead
    rw [List.append_nil] at hhead
    cases hleads.unique hhead
  · obtain ⟨u, rfl⟩ := hlong
    have hlist' : lead ++ method ++ spaces ++ [47] ++ u = lead ++ method ++ spaces ++ 47 :: u := by
      simp
    rw [hlist'] at hleads ⊢
    exact h.origin hleads

variable {r : ParseState} {b : Buf}

theorem requestLineDone_rc (r : ParseState) (q : Nat) :
    (requestLineDone r q).1 = .ok ∨ (requestLineDone r q).1 = .invalid09Method :=
  (requestLineDone_spec r q).1

theorem requestLineDone_record (r : ParseState) (q : Nat) : (requestLineDone r q).2 = { r with
    requestEnd := if r.requestEnd = none then some (q - 1) else r.requestEnd
    httpVersion := r.httpMajor * 1000 + r.httpMajor
    state := 0 } := by
  unfold requestLineDone
  dsimp only
  split <;> rfl

/-- The parser reaches the end of a line exactly when its loop does. -/
theorem parseRequestLine_done_iff :
    ((parseRequestLine r b).1 = .ok ∨ (parseRequestLine r b).1 = .invalid09Method) ↔
      ∃ r' p, requestLineLoop b.bytes (.ofUint r.state) r b.pos b.unread = .exit .done r' p := by
  constructor
  · intro h
    cases hloop : requestLineLoop b.bytes (.ofUint r.state) r b.pos b.unread with
    | stop rc r' =>
      have hstop := scan_stop (C := fun rc => rc = .invalidMethod ∨ rc = .invalidRequest)
        (fun _ _ _ _ _ _ hs => requestLineStep_stop hs) hloop
      unfold parseRequestLine at h
      rw [hloop] at h
      rcases hstop with rfl | rfl <;> rcases h with h | h <;> cases h
    | exit st r' p =>
      by_cases hst : st = .done
      · rw [hst]
        exact ⟨r', p, rfl⟩
      · unfold parseRequestLine at h
        rw [hloop] at h
        cases st <;> first | exact absurd rfl hst | (rcases h with h | h <;> cases h)
  · rintro ⟨r', p, hloop⟩
    unfold parseRequestLine
    rw [hloop]
    exact requestLineDone_rc r' p

theorem parseRequestLine_again_iff : (parseRequestLine r b).1 = .again ↔
    ∃ st r' p, (st == .done) = false ∧
      requestLineLoop b.bytes (.ofUint r.state) r b.pos b.unread = .exit st r' p := by
  constructor
  · intro h
    obtain ⟨st, r', hloop, hst, -⟩ := parseRequestLine_again
      (show parseRequestLine r b = (.again, (parseRequestLine r b).2.1, (parseRequestLine r b).2.2) by
        rw [← h])
    exact ⟨st, r', _, beq_eq_false_iff_ne.2 hst, hloop⟩
  · rintro ⟨st, r', p, hst, hloop⟩
    unfold parseRequestLine
    rw [hloop]
    cases st <;> first | rfl | cases hst

theorem parseRequestLine_of_done {r' : ParseState} {p : Nat}
    (hloop : requestLineLoop b.bytes (.ofUint r.state) r b.pos b.unread = .exit .done r' p) :
    parseRequestLine r b =
      ((requestLineDone r' p).1, (requestLineDone r' p).2, { b with pos := p }) := by
  unfold parseRequestLine
  rw [hloop]

theorem parseRequestLine_of_stop {r' : ParseState} {rc : Rc}
    (hloop : requestLineLoop b.bytes (.ofUint r.state) r b.pos b.unread = .stop rc r') :
    parseRequestLine r b = (rc, r', b) := by
  unfold parseRequestLine
  rw [hloop]

def RequestLineSw.PastMethod : RequestLineSw → Prop
  | .start | .method | .spaceAfterMethod => False
  | _ => True

theorem pastMethod_step {buf : List UInt8} {st st' : RequestLineSw} {r r' : ParseState} {p : Nat}
    {ch : UInt8} (hst : st.PastMethod) (h : requestLineStep buf st r p ch = .next st' r') :
    st'.PastMethod := by
  cases st <;> simp only [requestLineStep] at h
  all_goals (repeat' split at h)
  all_goals first | exact absurd hst id | (cases h <;> trivial)

theorem pastMethod_stop {buf : List UInt8} {st : RequestLineSw} {r r' : ParseState} {p : Nat}
    {ch : UInt8} {rc : Rc} (hst : st.PastMethod) (h : requestLineStep buf st r p ch = .stop rc r') :
    rc = .invalidRequest := by
  cases st <;> simp only [requestLineStep] at h
  all_goals (repeat' split at h)
  all_goals first | exact absurd hst id | (cases h <;> rfl)

theorem MethodPart.stop (h : MethodPart lead method spaces) {buf : List UInt8} {p : Nat} {rc : Rc}
    {r' : ParseState} (hloop : requestLineLoop buf .start r p
      (lead ++ method ++ spaces ++ rest) = .stop rc r') : rc = .invalidRequest := by
  rw [h.scan] at hloop
  have hpast : RequestLineSw.PastMethod .spacesBeforeUri := trivial
  exact scan_stop_from (S := RequestLineSw.PastMethod) (C := fun rc => rc = .invalidRequest)
    (fun _ _ _ _ _ _ hst hs => pastMethod_step hst hs)
    (fun _ _ _ _ _ _ hst hs => pastMethod_stop hst hs) hpast hloop

/-- The record at the end of a line in origin form. -/
theorem IsOrigin.scan (h : IsOrigin lead method spaces us tail) {buf : List UInt8} {p : Nat}
    (v : List UInt8) : ∃ r', requestLineLoop buf .start r p
        (originLine lead method spaces us tail ++ v) =
          .exit .done r' (p + (originLine lead method spaces us tail).length) ∧
      r'.requestStart = p + lead.length ∧ r'.methodEnd = p + lead.length + method.length ∧
      r'.uriStart = p + (lead ++ method ++ spaces).length ∧
      r'.uriEnd = p + (lead ++ method ++ spaces).length + 1 + us.length := by
  obtain ⟨st, r₁, hst, hmarks, huri⟩ := @scan_uri buf
    { r.methodMarks buf (p + lead.length) method.length with
      uriStart := p + (lead ++ method ++ spaces).length }
    (p + (lead ++ method ++ spaces).length + 1) .afterSlashInUri trivial us h.path
  have hlist : originLine lead method spaces us tail ++ v =
      lead ++ method ++ spaces ++ 47 :: (us ++ (tail ++ v)) := by
    simp [originLine]
  have hlen : p + (originLine lead method spaces us tail).length =
      p + (lead ++ method ++ spaces).length + 1 + us.length + tail.length := by
    simp only [originLine, List.length_append, List.length_cons]
    omega
  have hscan : requestLineLoop buf .start r p (originLine lead method spaces us tail ++ v) =
      requestLineLoop buf st r₁ (p + (lead ++ method ++ spaces).length + 1 + us.length)
        (tail ++ v) := by
    rw [hlist, h.toMethodPart.scan, scan_slash]
    exact huri (tail ++ v)
  -- the marks of the end of the request change none of the four
  have hends : ∀ (r' : ParseState) q e, (r'.ended q e).requestStart = r'.requestStart ∧
      (r'.ended q e).methodEnd = r'.methodEnd ∧ (r'.ended q e).uriStart = r'.uriStart ∧
      (r'.ended q e).uriEnd = r'.uriEnd := by
    intro r' q e
    unfold ParseState.ended
    split <;> exact ⟨rfl, rfl, rfl, rfl⟩
  have hstart : r₁.requestStart = p + lead.length := by rw [hmarks.eq]; rfl
  have hmethod : r₁.methodEnd = p + lead.length + method.length := by rw [hmarks.eq]; rfl
  have huriStart : r₁.uriStart = p + (lead ++ method ++ spaces).length := by rw [hmarks.eq]
  -- the tail closes the path first and ends the request afterwards
  have hdone : ∃ r' q e, requestLineLoop buf st r₁
      (p + (lead ++ method ++ spaces).length + 1 + us.length) (tail ++ v) =
        .exit .done (ParseState.ended r' q e)
          (p + (lead ++ method ++ spaces).length + 1 + us.length + tail.length) ∧
      r'.requestStart = r₁.requestStart ∧ r'.methodEnd = r₁.methodEnd ∧
      r'.uriStart = r₁.uriStart ∧
      r'.uriEnd = p + (lead ++ method ++ spaces).length + 1 + us.length := by
    cases h.ends with
    | plain hspaces he => exact ⟨_, _, _, scan_plain_tail hst hspaces he, rfl, rfl, rfl, rfl⟩
    | version hspaces hne hmajor hminor he =>
      exact ⟨_, _, _, scan_version_tail hst hspaces hne hmajor hminor he, rfl, rfl, rfl, rfl⟩
  obtain ⟨r', q, e, hloop, h₁, h₂, h₃, h₄⟩ := hdone
  obtain ⟨he₁, he₂, he₃, he₄⟩ := hends r' q e
  refine ⟨r'.ended q e, ?_, ?_, ?_, ?_, ?_⟩
  · rw [hscan, hloop, hlen]
  · rw [he₁, h₁, hstart]
  · rw [he₂, h₂, hmethod]
  · rw [he₃, h₃, huriStart]
  · rw [he₄, h₄]

/-- On every input that starts like a line in origin form, the parser reaches the end of a
line exactly when the input starts with one, asks for more exactly when it could become
one, and refuses it otherwise; the marks it leaves delimit the method and the URI. -/
theorem origin_form_parsed (hr : r.state = 0) (hhead : MethodPart lead method spaces)
    (hw : b.unread = lead ++ method ++ spaces ++ 47 :: rest) :
    (((parseRequestLine r b).1 = .ok ∨ (parseRequestLine r b).1 = .invalid09Method) ↔
        ∃ line, line <+: b.unread ∧ OriginLine line) ∧
      (∀ lead method spaces us tail, IsOrigin lead method spaces us tail →
        originLine lead method spaces us tail <+: b.unread →
        (parseRequestLine r b).2.2 =
            { b with pos := b.pos + (originLine lead method spaces us tail).length } ∧
          (parseRequestLine r b).2.1.methodEnd = b.pos + lead.length + method.length ∧
          (parseRequestLine r b).2.1.uriStart = b.pos + (lead ++ method ++ spaces).length ∧
          (parseRequestLine r b).2.1.uriEnd =
            b.pos + (lead ++ method ++ spaces).length + 1 + us.length) ∧
      (((parseRequestLine r b).1 = .again ∧
          (parseRequestLine r b).2.2 = { b with pos := b.pos + b.unread.length }) ↔
        (∃ more, more ≠ [] ∧ OriginLine (b.unread ++ more)) ∧
          ¬ ∃ line, line <+: b.unread ∧ OriginLine line) ∧
      ((parseRequestLine r b).1 = .invalidRequest ↔
        (¬ ∃ line, line <+: b.unread ∧ OriginLine line) ∧
          ¬ ∃ more, more ≠ [] ∧ OriginLine (b.unread ++ more)) := by
  have hctl := requestLine_controls b.bytes
  have hstart : RequestLineSw.ofUint r.state = .start := by rw [hr]; rfl
  -- lines in origin form are what leads to the end, on this input and whatever follows it
  have hpast : (∃ line, line <+: b.unread ∧ OriginLine line) ↔
      ∃ line, line <+: b.unread ∧ RequestLineLeads .start line .done := by
    constructor
    · rintro ⟨line, hpre, hline⟩
      exact ⟨line, hpre, hline.leads⟩
    · rintro ⟨line, hpre, hleads⟩
      rw [hw] at hpre ⊢
      exact ⟨line, hpre, hhead.prefix_origin hpre hleads⟩
  have hmore : (∃ more, more ≠ [] ∧ OriginLine (b.unread ++ more)) ↔
      ∃ more f, more ≠ [] ∧ (f == .done) = true ∧ RequestLineLeads .start (b.unread ++ more) f := by
    constructor
    · rintro ⟨more, hne, hline⟩
      exact ⟨more, .done, hne, rfl, hline.leads⟩
    · rintro ⟨more, f, hne, hf, hleads⟩
      obtain rfl := eq_of_beq hf
      have hlist : b.unread ++ more = lead ++ method ++ spaces ++ 47 :: (rest ++ more) := by
        rw [hw]
        simp
      rw [hlist] at hleads
      exact ⟨more, hne, hlist ▸ hhead.origin hleads⟩
  have hdone : ((parseRequestLine r b).1 = .ok ∨ (parseRequestLine r b).1 = .invalid09Method) ↔
      ∃ line, line <+: b.unread ∧ OriginLine line := by
    rw [parseRequestLine_done_iff, hstart, hpast]
    constructor
    · rintro ⟨r', p, hloop⟩
      obtain ⟨line, hpre, hleads, -⟩ := (exit_iff hctl trivial rfl).1 ⟨r', hloop⟩
      exact ⟨line, hpre, hleads⟩
    · rintro ⟨line, hpre, hleads⟩
      obtain ⟨r', hloop⟩ := (exit_iff hctl trivial rfl).2 ⟨line, hpre, hleads, rfl⟩
      exact ⟨r', _, hloop⟩
  have hagain : (parseRequestLine r b).1 = .again ↔
      ∃ more, more ≠ [] ∧ OriginLine (b.unread ++ more) := by
    rw [parseRequestLine_again_iff, hstart, hmore]
    exact more_iff hctl trivial requestLine_live
  have hall : (parseRequestLine r b).1 = .again →
      (parseRequestLine r b).2.2 = { b with pos := b.pos + b.unread.length } := by
    intro h
    obtain ⟨st, r', p, hst, hloop⟩ := parseRequestLine_again_iff.1 h
    have hp := (scan_exit hloop).2.2 hst
    unfold parseRequestLine
    rw [hloop, hp]
    cases st <;> rfl
  refine ⟨hdone, ?_, ?_, ?_⟩
  · rintro lead' method' spaces' us tail ho ⟨v, hv⟩
    obtain ⟨r', hloop, -, hmethod, huriStart, huriEnd⟩ := ho.scan (r := r) (p := b.pos) v
    rw [hv, ← hstart] at hloop
    rw [parseRequestLine_of_done hloop]
    simp only [requestLineDone_record]
    exact ⟨trivial, hmethod, huriStart, huriEnd⟩
  · constructor
    · rintro ⟨h, -⟩
      refine ⟨hagain.1 h, fun hline => ?_⟩
      rcases hdone.2 hline with h' | h' <;> rw [h] at h' <;> cases h'
    · rintro ⟨h, -⟩
      exact ⟨hagain.2 h, hall (hagain.2 h)⟩
  · rw [← hdone, ← hagain]
    constructor
    · intro h
      rw [h]
      constructor
      · rintro (h' | h') <;> cases h'
      · intro h'
        cases h'
    · rintro ⟨hnot, hnot'⟩
      cases hloop : requestLineLoop b.bytes (.ofUint r.state) r b.pos b.unread with
      | exit st r' p =>
        cases hst : st == .done with
        | true =>
          rw [eq_of_beq hst] at hloop
          exact absurd (parseRequestLine_done_iff.2 ⟨r', p, hloop⟩) hnot
        | false => exact absurd (parseRequestLine_again_iff.2 ⟨st, r', p, hst, hloop⟩) hnot'
      | stop rc r' =>
        rw [parseRequestLine_of_stop hloop]
        rw [hstart, hw] at hloop
        exact hhead.stop hloop

theorem getMethod : MethodPart [] (ascii "GET") [32] :=
  ⟨by simp, by decide +kernel, by decide, by decide +kernel, by decide⟩

def getLine : Buf := { bytes := ascii "GET / HTTP/1.1\x0d\n", pos := 0, size := EHD_DEFAULT_BUF_SIZE }

theorem origin_form_parsed_getLine : ∃ line, line <+: getLine.unread ∧ OriginLine line := by
  have hparsed := @origin_form_parsed [] (ascii "GET") [32] (ascii " HTTP/1.1\x0d\n") {} getLine rfl
    getMethod rfl
  exact hparsed.1.1 (Or.inl (by decide))

end Ehd.Http
