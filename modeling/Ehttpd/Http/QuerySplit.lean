import Ehttpd.Http.Version
import Ehttpd.Http.DocumentRoot

namespace Ehd.Http

open Scanner

def beforeQuery (us : List UInt8) : List UInt8 := us.takeWhile (· ≠ 63)

/-- What takes the scan to `sw_uri`, where no `?` is looked for: an escape, or a dot
behind a slash. -/
def Hides (path : List UInt8) : Prop := 37 ∈ path ∨ [47, 46] <:+: path

def Marked (path : List UInt8) : Prop := Hides path ∨ [47, 47] <:+: path

variable {ch : UInt8} {w : List UInt8}

instance : DecidablePred Hides := fun path => by unfold Hides; infer_instance

instance : DecidablePred IsUriChar := fun c => by unfold IsUriChar; infer_instance

instance : DecidablePred Marked := fun path => by unfold Marked; infer_instance

theorem pair_infix_cons {a b : UInt8} :
    [a, b] <:+: ch :: w ↔ ch = a ∧ w.head? = some b ∨ [a, b] <:+: w := by
  have hhead : [b] <+: w ↔ w.head? = some b := by
    cases w with
    | nil => simp
    | cons c w => simp [eq_comm]
  rw [List.infix_cons_iff, List.cons_prefix_cons, hhead, eq_comm]

theorem hides_cons : Hides (ch :: w) ↔ ch = 37 ∨ ch = 47 ∧ w.head? = some 46 ∨ Hides w := by
  unfold Hides
  rw [pair_infix_cons, List.mem_cons, eq_comm]
  grind

theorem marked_cons : Marked (ch :: w) ↔
    ch = 37 ∨ ch = 47 ∧ (w.head? = some 46 ∨ w.head? = some 47) ∨ Marked w := by
  unfold Marked
  rw [hides_cons, pair_infix_cons]
  grind

theorem beforeQuery_cons (hch : ch ≠ 63) : beforeQuery (ch :: w) = ch :: beforeQuery w :=
  List.takeWhile_cons_of_pos (by simpa using hch)

theorem beforeQuery_question : beforeQuery (63 :: w) = [] := rfl

theorem beforeQuery_append {u : List UInt8} (h : 63 ∉ u) :
    beforeQuery (u ++ w) = u ++ beforeQuery w := DotSegments.Trail.takeWhile_of_not_mem h w

theorem beforeQuery_lt (h : 63 ∈ w) : (beforeQuery w).length < w.length := by
  induction w with
  | nil => cases h
  | cons c w ih =>
    by_cases hc : c = 63
    · rw [hc, beforeQuery_question]
      exact Nat.succ_pos _
    · rw [beforeQuery_cons hc, List.length_cons, List.length_cons]
      have hw : 63 ∈ w := (List.mem_cons.1 h).resolve_left (Ne.symm hc)
      exact Nat.succ_lt_succ (ih hw)

variable {buf us : List UInt8} {r r₁ r' : ParseState} {p : Nat} {behind behind₁ : List UInt8}

/-- What the scan of `us` at `p` notes; `behind` is the slash before `us`, if there is one. -/
structure PathMarks (r r' : ParseState) (p : Nat) (behind us : List UInt8) : Prop
    extends UriMarks r r' where
  seen : 63 ∈ us → ¬ Hides (behind ++ beforeQuery us) →
    r'.argsStart = some (p + (beforeQuery us).length + 1)
  unseen : 63 ∉ us ∨ Hides (behind ++ beforeQuery us) → r'.argsStart = none
  complex : r'.complexUri = true ↔ r.complexUri = true ∨ Marked (behind ++ beforeQuery us)

def RequestLineSw.slashBehind : RequestLineSw → List UInt8
  | afterSlashInUri => [47]
  | _ => []

theorem pathMarks_nil {st : RequestLineSw} (hargs : r.argsStart = none) :
    PathMarks r r p st.slashBehind [] := by
  have hcomplex : ¬ Marked (st.slashBehind ++ beforeQuery []) := by
    cases st <;> decide
  refine ⟨⟨rfl⟩, ?_, fun _ => hargs, ?_⟩
  · intro h
    cases h
  · simp [hcomplex]

/-- A byte behind which the scan still looks at the path: what it hides and marks is
what it does in the next state. -/
structure LooksOn (r r₁ : ParseState) (behind behind₁ : List UInt8) (ch : UInt8) : Prop
    extends UriMarks r r₁ where
  argsStart : r₁.argsStart = none
  byte : ch ≠ 63
  hides : ∀ w, Hides (behind ++ ch :: w) ↔ Hides (behind₁ ++ w)
  complex : ∀ w, r₁.complexUri = true ∨ Marked (behind₁ ++ w) ↔
    r.complexUri = true ∨ Marked (behind ++ ch :: w)

theorem PathMarks.cons (h : PathMarks r₁ r' (p + 1) behind₁ us)
    (hr : LooksOn r r₁ behind behind₁ ch) : PathMarks r r' p behind (ch :: us) := by
  have hmem : 63 ∈ ch :: us ↔ 63 ∈ us := by
    rw [List.mem_cons]
    exact or_iff_right (Ne.symm hr.byte)
  refine ⟨uriMarks_trans hr.toUriMarks h.toUriMarks, ?_, ?_, ?_⟩
  · rw [hmem, beforeQuery_cons hr.byte, hr.hides, List.length_cons]
    intro hquery hplain
    rw [h.seen hquery hplain]
    congr 1
    omega
  · rw [hmem, beforeQuery_cons hr.byte, hr.hides]
    exact h.unseen
  · rw [beforeQuery_cons hr.byte, ← hr.complex]
    exact h.complex

theorem pathMarks_hidden (hargs : r.argsStart = none) (hr : UriMarks r r')
    (hsame : r'.argsStart = r.argsStart) (hcomplex : r'.complexUri = true) (hch : ch ≠ 63)
    (hhides : ∀ w, Hides (behind ++ ch :: w)) : PathMarks r r' p behind (ch :: us) := by
  rw [hargs] at hsame
  refine ⟨hr, ?_, fun _ => hsame, ?_⟩
  · rw [beforeQuery_cons hch]
    intro _ hplain
    exact absurd (hhides _) hplain
  · rw [beforeQuery_cons hch, hcomplex]
    exact iff_of_true rfl (Or.inr (Or.inl (hhides _)))

theorem pathMarks_question {st : RequestLineSw} :
    PathMarks r { r with argsStart := some (p + 1) } p st.slashBehind (63 :: us) := by
  have hcomplex : ¬ Marked (st.slashBehind ++ []) := by
    cases st <;> decide
  refine ⟨⟨rfl⟩, fun _ _ => rfl, ?_, ?_⟩
  · rw [beforeQuery_question]
    rintro (hmem | hhides)
    · exact absurd List.mem_cons_self hmem
    · exact absurd (Or.inl hhides) hcomplex
  · rw [beforeQuery_question]
    exact (or_iff_left hcomplex).symm

/-- What the switch does with a byte of the path before it is in `sw_uri`. -/
theorem pathStep {st : RequestLineSw} (hst : st = .afterSlashInUri ∨ st = .checkUri)
    (hargs : r.argsStart = none) (hch : IsUriChar ch) :
    (∃ st₁ r₁, (st₁ = .afterSlashInUri ∨ st₁ = .checkUri) ∧
      requestLineStep buf st r (p + 1) ch = .next st₁ r₁ ∧
      LooksOn r r₁ st.slashBehind st₁.slashBehind ch) ∨
    ∃ r₁, requestLineStep buf st r (p + 1) ch = .next .uri r₁ ∧
      PathMarks r r₁ p st.slashBehind (ch :: us) := by
  obtain ⟨hsp, hcr, hlf⟩ := hch
  rcases hst with rfl | rfl
  · simp only [requestLineStep]
    rw [if_neg hcr, if_neg hlf, if_neg hsp]
    split_ifs with hhide hslash hquery
    · refine Or.inr ⟨_, rfl, pathMarks_hidden hargs ⟨rfl⟩ rfl rfl ?_ ?_⟩
      -- a dot or a second slash hides what follows from the query
      · rcases hhide with rfl | rfl <;> decide
      · intro w
        show Hides (47 :: ch :: w)
        rw [hides_cons, hides_cons]
        grind
    · refine Or.inl ⟨_, _, Or.inl rfl, rfl, ⟨⟨rfl⟩, hargs, by rw [hslash]; decide, ?_, ?_⟩⟩
      · intro w
        show Hides (47 :: ch :: w) ↔ Hides (47 :: w)
        rw [hides_cons, hslash]
        grind
      · intro w
        show _ ↔ _ ∨ Marked (47 :: ch :: w)
        rw [marked_cons, hslash]
        grind
    -- the arguments start behind this byte
    · rw [hquery]
      exact Or.inr ⟨_, rfl, pathMarks_question⟩
    · refine Or.inl ⟨_, _, Or.inr rfl, rfl, ⟨⟨rfl⟩, hargs, hquery, ?_, ?_⟩⟩
      · intro w
        show Hides (47 :: ch :: w) ↔ Hides w
        rw [hides_cons, hides_cons]
        grind
      · intro w
        show _ ∨ Marked w ↔ _ ∨ Marked (47 :: ch :: w)
        rw [marked_cons, marked_cons]
        grind
  · simp only [requestLineStep]
    rw [if_neg hcr, if_neg hlf, if_neg hsp]
    split_ifs with hdot hslash hpercent hquery
    · refine Or.inl ⟨_, _, Or.inr rfl, rfl, ⟨⟨rfl⟩, hargs, by rw [hdot]; decide, ?_, ?_⟩⟩
      · intro w
        show Hides (ch :: w) ↔ Hides w
        rw [hides_cons, hdot]
        grind
      · intro w
        show _ ∨ Marked w ↔ _ ∨ Marked (ch :: w)
        rw [marked_cons, hdot]
        grind
    · rw [hslash]
      exact Or.inl ⟨_, _, Or.inl rfl, rfl, ⟨⟨rfl⟩, hargs, by decide, fun w => Iff.rfl, fun w => Iff.rfl⟩⟩
    · refine Or.inr ⟨_, rfl, pathMarks_hidden hargs ⟨rfl⟩ rfl rfl (by rw [hpercent]; decide) ?_⟩
      intro w
      show Hides (ch :: w)
      rw [hides_cons]
      exact Or.inl hpercent
    · rw [hquery]
      exact Or.inr ⟨_, rfl, pathMarks_question⟩
    · refine Or.inl ⟨_, _, Or.inr rfl, rfl, ⟨⟨rfl⟩, hargs, hquery, ?_, ?_⟩⟩
      · intro w
        show Hides (ch :: w) ↔ Hides w
        rw [hides_cons]
        grind
      · intro w
        show _ ∨ Marked w ↔ _ ∨ Marked (ch :: w)
        rw [marked_cons]
        grind

theorem scan_noted (hus : ∀ c ∈ us, IsUriChar c) (v : List UInt8) :
    requestLineLoop buf .uri r p (us ++ v) = requestLineLoop buf .uri r (p + us.length) v := by
  apply scan_many rfl _ hus
  rintro c ⟨hsp, hcr, hlf⟩ q
  simp only [requestLineStep]
  rw [if_neg hcr, if_neg hlf, if_neg hsp]

theorem scan_last {st : RequestLineSw} (hst : st.InUri) (hus : ∀ c ∈ ch :: us, IsUriChar c)
    (hstep : requestLineStep buf st r (p + 1) ch = .next .uri r') (v : List UInt8) :
    requestLineLoop buf st r p (ch :: us ++ v) =
      requestLineLoop buf .uri r' (p + (ch :: us).length) v := by
  have hone : requestLineLoop buf st r p (ch :: (us ++ v)) =
      requestLineLoop buf .uri r' (p + 1) (us ++ v) := requestLine_one (inUri_not_done hst) hstep
  rw [List.cons_append, hone, scan_noted fun c hc => hus c (List.mem_cons_of_mem _ hc),
    List.length_cons, Nat.add_assoc, Nat.add_comm 1]

/-- The scan of a path up to the end of the target; the induction follows its bytes. -/
theorem scan_path {st : RequestLineSw} (hst : st = .afterSlashInUri ∨ st = .checkUri)
    (hargs : r.argsStart = none) (hus : ∀ c ∈ us, IsUriChar c) :
    ∃ st' r', st'.InUri ∧ PathMarks r r' p st.slashBehind us ∧
      ∀ v, requestLineLoop buf st r p (us ++ v) = requestLineLoop buf st' r' (p + us.length) v := by
  induction us generalizing st r p with
  | nil =>
    have hin : st.InUri := by
      rcases hst with rfl | rfl <;> trivial
    exact ⟨st, r, hin, pathMarks_nil hargs, fun v => rfl⟩
  | cons ch us ih =>
    have hrest : ∀ c ∈ us, IsUriChar c := fun c hc => hus c (List.mem_cons_of_mem _ hc)
    have hin : st.InUri := by
      rcases hst with rfl | rfl <;> trivial
    rcases @pathStep ch buf us r p st hst hargs (hus ch List.mem_cons_self) with
      ⟨st₁, r₁, hst₁, hstep, hr₁⟩ | ⟨r₁, hstep, hr₁⟩
    · obtain ⟨st', r', hst', hr', hscan⟩ := @ih r₁ (p + 1) st₁ hst₁ hr₁.argsStart hrest
      refine ⟨st', r', hst', hr'.cons hr₁, fun v => ?_⟩
      have hone : requestLineLoop buf st r p (ch :: (us ++ v)) =
          requestLineLoop buf st₁ r₁ (p + 1) (us ++ v) :=
        requestLine_one (inUri_not_done hin) hstep
      rw [List.cons_append, hone, hscan v, List.length_cons, Nat.add_assoc, Nat.add_comm 1]
    · exact ⟨.uri, r₁, trivial, hr₁, scan_last hin hus hstep⟩

variable {lead method spaces target tail : List UInt8} {slash : Nat}

structure TargetMarks (r : ParseState) (slash : Nat) (us : List UInt8) : Prop where
  uriStart : r.uriStart = slash
  seen : 63 ∈ us → ¬ Hides (47 :: beforeQuery us) →
    r.argsStart = some (slash + 1 + (beforeQuery us).length + 1)
  unseen : 63 ∉ us ∨ Hides (47 :: beforeQuery us) → r.argsStart = none
  complex : r.complexUri = true ↔ Marked (47 :: beforeQuery us)

theorem TargetMarks.same (h : TargetMarks r slash us) (hstart : r'.uriStart = r.uriStart)
    (hargs : r'.argsStart = r.argsStart) (hcomplex : r'.complexUri = r.complexUri) :
    TargetMarks r' slash us := by
  refine ⟨hstart.trans h.uriStart, ?_, ?_, ?_⟩
  · rw [hargs]
    exact h.seen
  · rw [hargs]
    exact h.unseen
  · rw [hcomplex]
    exact h.complex

theorem TargetMarks.uriLen_seen (h : TargetMarks r slash us) (hquery : 63 ∈ us)
    (hplain : ¬ Hides (47 :: beforeQuery us)) : r.uriLen = (47 :: beforeQuery us).length := by
  rw [uriLen_some (h.seen hquery hplain), h.uriStart, List.length_cons]
  omega

theorem TargetMarks.uriLen_unseen (h : TargetMarks r slash us)
    (hend : r.uriEnd = slash + 1 + us.length)
    (hquery : 63 ∉ us ∨ Hides (47 :: beforeQuery us)) : r.uriLen = (47 :: us).length := by
  rw [uriLen_none (h.unseen hquery), h.uriStart, hend, List.length_cons]
  omega

/-- Up to the end of the URI. -/
theorem IsRequestHead.scan_marks (h : IsRequestHead lead method spaces target us)
    (hargs : r.argsStart = none) (hcomplex : r.complexUri = false)
    (hslash : slash + 1 = p + (lead ++ method ++ spaces).length + target.length) :
    ∃ st r', st.InUri ∧ TargetMarks r' slash us ∧ ∀ v,
      requestLineLoop buf .start r p (requestHead lead method spaces target us ++ v) =
        requestLineLoop buf st r' (slash + 1 + us.length) v := by
  obtain ⟨r₁, hread, htarget⟩ := @IsTarget.scan target buf
    (r.methodMarks buf (p + lead.length) method.length) (p + (lead ++ method ++ spaces).length)
    h.authority
  rw [← hslash] at hread htarget
  obtain ⟨st, r', hst, hmarks, huri⟩ := @scan_path buf us r₁ (slash + 1) .afterSlashInUri
    (Or.inl rfl) (hread.argsStart.trans hargs) h.path
  refine ⟨st, r', hst, ⟨?_, hmarks.seen, hmarks.unseen, ?_⟩, fun v => ?_⟩
  · rw [hmarks.eq]
    exact Nat.succ_injective hread.uriStart
  · rw [hmarks.complex, hread.complexUri]
    show r.complexUri = true ∨ Marked (47 :: beforeQuery us) ↔ _
    rw [hcomplex]
    simp
  · have hlist : requestHead lead method spaces target us ++ v =
        lead ++ method ++ spaces ++ (target ++ (us ++ v)) := by simp [requestHead]
    rw [hlist, h.toMethodPart.scan, htarget]
    exact huri v

theorem ended_uri (r : ParseState) (q : Nat) (e : List UInt8) :
    (r.ended q e).uriStart = r.uriStart ∧ (r.ended q e).uriEnd = r.uriEnd ∧
      (r.ended q e).argsStart = r.argsStart ∧ (r.ended q e).complexUri = r.complexUri := by
  unfold ParseState.ended
  split <;> exact ⟨rfl, rfl, rfl, rfl⟩

variable {b b' : Buf}

/-- What `ehd_http_parse_request_line` stores of the target of a line that is accepted. -/
theorem IsRequestHead.marks (h : IsRequestHead lead method spaces target us) (htail : LineTail tail)
    (hpre : requestHead lead method spaces target us ++ tail <+: b.unread)
    (hslash : slash + 1 = b.pos + (lead ++ method ++ spaces).length + target.length) :
    TargetMarks (parseRequestLine {} b).2.1 slash us ∧
      (parseRequestLine {} b).2.1.uriEnd = slash + 1 + us.length := by
  obtain ⟨v, hv⟩ := hpre
  obtain ⟨st, r', hst, hmarks, hscan⟩ := @IsRequestHead.scan_marks b.bytes us {} b.pos lead method
    spaces target slash h rfl rfl hslash
  have hline := hscan (tail ++ v)
  rw [← List.append_assoc, hv] at hline
  cases htail with
  | plain hblanks he =>
    rw [parseRequestLine_of_done (hline.trans (scan_plain_tail hst hblanks he))]
    simp only [requestLineDone_record]
    obtain ⟨hstart, hend, hargs, hcomplex⟩ := ended_uri { r' with
      uriEnd := slash + 1 + us.length, httpMinor := 9 } (slash + 1 + us.length + _) _
    exact ⟨hmarks.same hstart hargs hcomplex, hend⟩
  | version hblanks hne hmajor hminor he =>
    rw [parseRequestLine_of_done (hline.trans (scan_version_tail hst hblanks hne hmajor hminor he))]
    simp only [requestLineDone_record]
    obtain ⟨hstart, hend, hargs, hcomplex⟩ := ended_uri { r' with
      uriEnd := slash + 1 + us.length, httpMajor := number 0 _, httpMinor := number 0 _ }
      (slash + 1 + us.length + _) _
    exact ⟨hmarks.same hstart hargs hcomplex, hend⟩

inductive StoredFrom (path : List UInt8) : Str → Prop
  | normalised {area : List UInt8} {s : UriScan} : area.length = path.length + 1 →
      uriLoop (.init area) path = some s → StoredFrom path ⟨s.u, s.data.set s.u 0⟩
  | copied {area : List UInt8} : area.length = path.length + 1 →
      StoredFrom path ⟨path.length, cpystrn area path (path.length + 1)⟩

/-- `ehd_cpystrn` reads no byte behind the `n`-th. -/
theorem cpystrn_take (area src : List UInt8) (n : Nat) :
    cpystrn area (src.take n) (n + 1) = cpystrn area src (n + 1) := by
  induction n generalizing area src with
  | zero =>
    cases area with
    | nil => rfl
    | cons a area => rfl
  | succ n ih =>
    cases area with
    | nil => rfl
    | cons a area =>
      cases src with
      | nil => rfl
      | cons c src =>
        rw [List.take_succ_cons]
        by_cases hc : c = 0
        · rw [hc, cpystrn_nul, cpystrn_nul]
        · rw [cpystrn_cons hc, cpystrn_cons hc, ih]

theorem CopiedUri.storedFrom {p : ParseState} {uri : Str} {path : List UInt8} (h : CopiedUri p b uri)
    (hpath : Http.target p b = path) (hlen : path.length = p.uriLen) : StoredFrom path uri := by
  cases h with
  | @complex area s _ harea hloop =>
    have hrun : uriLoop (.init area) path = some s := hpath ▸ hloop
    exact .normalised (by rw [harea, hlen]) hrun
  | @plain area _ harea =>
    have hcopy : cpystrn area (b.bytes.drop p.uriStart) (p.uriLen + 1) =
        cpystrn area path (path.length + 1) := by
      rw [hlen, ← hpath]
      exact (cpystrn_take _ _ _).symm
    rw [hcopy, ← hlen]
    exact .copied (by rw [harea, hlen])

theorem IsTarget.last (h : IsTarget target) : ∃ authority, target = authority ++ [47] := by
  cases h with
  | origin => exact ⟨[], rfl⟩
  | absolute => exact ⟨_, rfl⟩
  | @withPort schema host port =>
    refine ⟨schema ++ colonSlashSlash ++ host ++ 58 :: port, ?_⟩
    simp

/-- The buffer from the first slash of the path. -/
theorem IsRequestHead.drop_slash (h : IsRequestHead lead method spaces target us)
    (hpre : requestHead lead method spaces target us ++ tail <+: b.unread)
    (hslash : slash + 1 = b.pos + (lead ++ method ++ spaces).length + target.length) :
    47 :: us ++ tail <+: b.bytes.drop slash := by
  obtain ⟨authority, rfl⟩ := h.authority.last
  obtain ⟨v, hv⟩ := hpre
  have hunread : b.bytes.drop b.pos =
      lead ++ method ++ spaces ++ authority ++ (47 :: us ++ tail ++ v) := by
    show b.unread = _
    rw [← hv]
    simp [requestHead]
  have hpos : slash = b.pos + (lead ++ method ++ spaces ++ authority).length := by
    rw [@List.length_append _ authority, List.length_singleton] at hslash
    rw [@List.length_append _ _ authority]
    omega
  rw [hpos, ← List.drop_drop, hunread, List.drop_left]
  exact List.prefix_append _ _

/-- What is asked of a target with a `?`: the arguments start behind the first one, and
`r->uri` comes from the path before it. -/
structure QuerySplit (p : ParseState) (b : Buf) (start : Nat) (target us : List UInt8) : Prop where
  argsStart : p.argsStart = some (start + (beforeQuery (target ++ us)).length + 1)
  pathEnd : p.uriStart + p.uriLen = start + (beforeQuery (target ++ us)).length
  stored : ∀ uri, CopiedUri p b uri → StoredFrom (47 :: beforeQuery us) uri

/-- The first `?` stands in the path, with neither an escape nor a segment that starts
with a dot before it. -/
def QuerySeen (target us : List UInt8) : Prop :=
  63 ∉ target ∧ ¬ Hides (47 :: beforeQuery us)

/-- For every line that is accepted and has a `?` in its target. -/
theorem query_split_iff {p : ParseState} (hhead : IsRequestHead lead method spaces target us)
    (htail : LineTail tail)
    (hpre : requestHead lead method spaces target us ++ tail <+: b.unread)
    (hparse : parseRequestLine {} b = (.ok, p, b')) (hquery : 63 ∈ target ++ us) :
    QuerySplit p b' (b.pos + (lead ++ method ++ spaces).length) target us ↔
      QuerySeen target us := by
  obtain ⟨authority, hauthority⟩ := hhead.authority.last
  obtain ⟨slash, hslash⟩ :
      ∃ slash, slash + 1 = b.pos + (lead ++ method ++ spaces).length + target.length := by
    refine ⟨b.pos + (lead ++ method ++ spaces).length + authority.length, ?_⟩
    rw [hauthority, @List.length_append _ authority, List.length_singleton, Nat.add_assoc]
  obtain ⟨hmarks, -⟩ := hhead.marks htail hpre hslash
  rw [hparse] at hmarks
  have hbytes : b'.bytes = b.bytes := by rw [(parseRequestLine_advances hparse).eq]
  constructor
  · intro hsplit
    have hargs := hsplit.argsStart
    have hshown : 63 ∈ us ∧ ¬ Hides (47 :: beforeQuery us) := by
      by_contra hnot
      have hnone := hmarks.unseen (not_and_or.1 hnot |>.imp id not_not.1)
      rw [hnone] at hargs
      cases hargs
    refine ⟨?_, hshown.2⟩
    intro hmem
    -- the mark stands behind the slash, but the first `?` before it
    rw [hmarks.seen hshown.1 hshown.2] at hargs
    have heq := Option.some.inj hargs
    have hfirst : beforeQuery (target ++ us) = beforeQuery target :=
      DotSegments.Trail.takeWhile_of_mem hmem us
    rw [hfirst] at heq
    have hlt := beforeQuery_lt hmem
    omega
  · rintro ⟨htarget, hhides⟩
    have hmem : 63 ∈ us := (List.mem_append.1 hquery).resolve_left htarget
    have hargs := hmarks.seen hmem hhides
    have hlen : p.uriLen = (47 :: beforeQuery us).length := hmarks.uriLen_seen hmem hhides
    have hpath : Http.target p b' = 47 :: beforeQuery us := by
      obtain ⟨v, hv⟩ := hhead.drop_slash hpre hslash
      unfold Http.target Buf.span
      rw [hlen, hmarks.uriStart, hbytes, ← hv]
      have hbefore : 47 :: beforeQuery us <+: 47 :: us ++ tail ++ v := by
        have hprefix : beforeQuery us <+: us := List.takeWhile_prefix _
        obtain ⟨query, hq⟩ := hprefix
        refine ⟨query ++ tail ++ v, ?_⟩
        rw [List.cons_append, List.cons_append, List.cons_append]
        rw [← List.append_assoc, ← List.append_assoc, hq]
      exact (List.prefix_iff_eq_take.1 hbefore).symm
    have hwhole : (beforeQuery (target ++ us)).length = target.length + (beforeQuery us).length := by
      rw [beforeQuery_append htarget, List.length_append]
    refine ⟨?_, ?_, fun uri huri => huri.storedFrom hpath hlen.symm⟩
    · rw [hargs, hwhole]
      congr 1
      omega
    · rw [hlen, hmarks.uriStart, hwhole, List.length_cons]
      omega

theorem lineTail_version : LineTail (ascii " HTTP/1.1\n") := by
  have htail : ascii " HTTP/1.1\n" = [32] ++ httpSlash ++ [49] ++ 46 :: [49] ++ [LF] := by
    decide
  rw [htail]
  exact .version blank_space (by decide) isMajor_one (isMinor_digit (by decide)) .lf

theorem query_split_slashes :
    QuerySplit (lineState "GET /a//b?c%2E HTTP/1.1\n") (lineRest "GET /a//b?c%2E HTTP/1.1\n") 4
      [47] (ascii "a//b?c%2E") := by
  have hpath : ∀ c ∈ ascii "a//b?c%2E", IsUriChar c := by decide +kernel
  have hpre : requestHead [] (ascii "GET") [32] [47] (ascii "a//b?c%2E") ++ ascii " HTTP/1.1\n" <+:
      (lineBuf "GET /a//b?c%2E HTTP/1.1\n").unread := by
    decide
  have hparse : parseRequestLine {} (lineBuf "GET /a//b?c%2E HTTP/1.1\n") =
      (.ok, lineState "GET /a//b?c%2E HTTP/1.1\n", lineRest "GET /a//b?c%2E HTTP/1.1\n") := by
    decide
  have hsplit := query_split_iff ⟨getMethod, .origin, hpath⟩ lineTail_version hpre hparse (by decide)
  exact hsplit.2 ⟨by decide, by decide⟩

/-- An escape in the path: the `?` and the query become part of `r->uri`. -/
theorem query_unseen : ∃ (b b' : Buf) (p : ParseState) (lead method spaces target us tail : List UInt8),
    IsRequestHead lead method spaces target us ∧ LineTail tail ∧
      requestHead lead method spaces target us ++ tail <+: b.unread ∧
      parseRequestLine {} b = (.ok, p, b') ∧ 63 ∈ target ++ us ∧
      ¬ QuerySplit p b' (b.pos + (lead ++ method ++ spaces).length) target us := by
  have hpath : ∀ c ∈ ascii "a%20b?c", IsUriChar c := by decide +kernel
  refine ⟨lineBuf "GET /a%20b?c HTTP/1.1\n", lineRest "GET /a%20b?c HTTP/1.1\n",
    lineState "GET /a%20b?c HTTP/1.1\n", [], ascii "GET", [32], [47], ascii "a%20b?c",
    ascii " HTTP/1.1\n", ⟨getMethod, .origin, hpath⟩, lineTail_version, by decide,
    by decide, by decide, ?_⟩
  intro hsplit
  have hnone : (lineState "GET /a%20b?c HTTP/1.1\n").argsStart = none := by decide
  have hargs := hsplit.argsStart
  rw [hnone] at hargs
  cases hargs

end Ehd.Http
