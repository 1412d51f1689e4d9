import Ehttpd.Http.Confined
import Ehttpd.Http.QuerySplit
import Ehttpd.Http.ResponseHead

namespace Ehd.Http

open Program World DotSegments

/-- The part of a target that is stored: it ends at a `?` that the scan sees. -/
def pathPart (raw : List UInt8) : List UInt8 :=
  if 63 ∈ raw ∧ ¬ Hides (beforeQuery raw) then beforeQuery raw else raw

def pathOf (raw : List UInt8) : Option (List UInt8) :=
  if Marked (beforeQuery raw) then (resolve (pathPart raw)).map (Trail.text 47)
  else some (pathPart raw)

def PathFor (raw : List UInt8) (uri : Str) : Prop :=
  ∃ t, pathOf raw = some (t.text 47) ∧ StandsFor uri t

variable {C raw : List UInt8} {uri : Str} {p : ParseState} {n : Nat}

theorem StandsFor.bytes_eq {t : Trail UInt8} (h : StandsFor uri t) (hnul : 0 ∉ t.text 47) :
    uri.bytes = t.text 47 := by
  have hcstr := h.cstr
  rw [cString_of_not_mem hnul] at hcstr
  rw [← hcstr]
  refine ((List.takeWhile_prefix _).eq_of_length ?_).symm
  show (cString uri.bytes).length = uri.bytes.length
  rw [hcstr, uri_bytes_length h.fits, h.len]

/-- What `ehd_http_process_request_line` stores of the target of a line that is accepted. -/
theorem CopiedUri.pathFor (hparse : parseRequestLine {} (inputBuf C 0) = (.ok, p, inputBuf C n))
    (h : CopiedUri p (inputBuf C n) uri) :
    PathFor ((C.drop p.uriStart).take (p.uriEnd - p.uriStart)) uri := by
  -- the parts of the line
  obtain ⟨lead, method, spaces, target, us, tail, hhead, htail, hpre⟩ :=
    (requestLine_accepted_iff (b := inputBuf C 0) (r := {}) rfl).1 (Or.inl (by rw [hparse]))
  obtain ⟨authority, hauthority⟩ := hhead.authority.last
  obtain ⟨slash, hslash⟩ : ∃ slash, slash + 1 =
      (inputBuf C 0).pos + (lead ++ method ++ spaces).length + target.length := by
    refine ⟨(inputBuf C 0).pos + (lead ++ method ++ spaces).length + authority.length, ?_⟩
    rw [hauthority, @List.length_append _ authority, List.length_singleton, Nat.add_assoc]
  obtain ⟨hmarks, huriEnd⟩ := hhead.marks htail hpre hslash
  rw [hparse] at hmarks huriEnd
  obtain ⟨v, hv⟩ := hhead.drop_slash hpre hslash
  have hdrop : C.drop p.uriStart = 47 :: us ++ (tail ++ v) := by
    rw [hmarks.uriStart, ← List.append_assoc]
    exact hv.symm
  have hraw : (C.drop p.uriStart).take (p.uriEnd - p.uriStart) = 47 :: us := by
    have hlen : p.uriEnd - p.uriStart = (47 :: us).length := by
      rw [huriEnd, hmarks.uriStart, List.length_cons]
      omega
    rw [hlen, hdrop, List.take_left]
  have hbefore : beforeQuery (47 :: us) = 47 :: beforeQuery us := beforeQuery_cons (by decide)
  have hquestion : 63 ∈ 47 :: us ↔ 63 ∈ us := by simp
  -- and the path that is copied
  have htarget : Http.target p (inputBuf C n) = pathPart (47 :: us) := by
    show (C.drop p.uriStart).take p.uriLen = _
    rw [hdrop]
    unfold pathPart
    rw [hbefore]
    by_cases hseen : 63 ∈ us ∧ ¬ Hides (47 :: beforeQuery us)
    · obtain ⟨query, hquery⟩ : beforeQuery us <+: us := List.takeWhile_prefix _
      have hpath : us ++ (tail ++ v) = beforeQuery us ++ (query ++ (tail ++ v)) := by
        rw [← List.append_assoc (beforeQuery us), hquery]
      rw [if_pos (hseen.imp_left hquestion.2), hmarks.uriLen_seen hseen.1 hseen.2,
        List.cons_append, hpath, ← List.cons_append, List.take_left]
    · rw [if_neg fun hc => hseen (hc.imp_left hquestion.1),
        hmarks.uriLen_unseen huriEnd (not_and_or.1 hseen |>.imp id not_not.1), List.take_left]
  have hpath := parseRequestLine_path hparse
  obtain ⟨t, ht, hstands⟩ := h.standsFor hpath
  refine ⟨t, ?_, hstands⟩
  rw [hraw]
  unfold pathOf
  rw [hbefore, ← htarget]
  unfold trailOf at ht
  by_cases hcomplex : p.complexUri = true
  · rw [if_pos hcomplex] at ht
    rw [if_pos (hmarks.complex.1 hcomplex), ht]
    rfl
  · rw [if_neg hcomplex] at ht
    rw [if_neg fun hmarked => hcomplex (hmarks.complex.2 hmarked), ht.2]

/-- `r->uri` comes from the request line at the start of the stream `C`. -/
def Source (C : List UInt8) (uri : Str) : Prop :=
  uri.len ≤ 4097 ∧ ∃ p n, parseRequestLine {} (inputBuf C 0) = (.ok, p, inputBuf C n) ∧
    PathFor ((C.drop p.uriStart).take (p.uriEnd - p.uriStart)) uri

theorem Source.append (h : Source C uri) (more : List UInt8) : Source (C ++ more) uri := by
  obtain ⟨hshort, p, n, hparse, hpath⟩ := h
  obtain ⟨e, -, -, huri, he⟩ := requestLine_ends hparse
  obtain ⟨-, -, hn⟩ := requestLine_between hparse
  refine ⟨hshort, p, n, parseRequestLine_append (Nat.zero_le _) hparse more, ?_⟩
  rw [uri_append (by omega) more]
  exact hpath

theorem Heads.rest_unique {s C C' : List UInt8} {hs : List Handed} (h : Heads s hs C)
    (h' : Heads s hs C') : C = C' :=
  Option.some.inj (h.afterRequests.symm.trans h'.afterRequests)

variable {w w' w₁ : World} {q₁ q₂ : Pc}

def InHead (w : World) : Prop := ∃ C, Heads w.t.received w.t.handed C ∧ Source C w.r.uri

theorem InHead.same (h : InHead w) (hs : SameStream w w') (huri : w'.r.uri = w.r.uri) :
    InHead w' := by
  obtain ⟨C, hheads, hsource⟩ := h
  exact ⟨C, hs.heads hheads, by rw [huri]; exact hsource⟩

def Asked : Pc → World → Prop
  | .headers _, w | .parseHeader, w | .hand, w => InHead w
  | .build, w => w.r.uri.len ≤ 4097 ∧ ∃ hs x, w.t.handed = hs ++ [x] ∧
      x.method = w.r.parse.method ∧ PathFor x.uri w.r.uri
  | .loop, w => w.c.fd ≠ -1 → ReadingHead w → w.c.readHandler = .processRequestHeaders → InHead w
  | _, _ => True

theorem asked_closed (hfd : w.c.fd = -1) : Asked .loop w := fun hopen => absurd hfd hopen

theorem Source.handed {h : Handed} (hs : Source C uri) (hh : HandedFrom C h n) :
    PathFor h.uri uri := by
  obtain ⟨-, p, m, hparse, hpath⟩ := hs
  obtain ⟨p', m', es, q, k, hparsed, hhead⟩ := hh.parts
  have hsame := hparse.symm.trans hparsed.line
  injection hsame with _ hsame
  injection hsame with hp _
  have huri : h.uri = (C.drop p'.uriStart).take (p'.uriEnd - p'.uriStart) :=
    congrArg Head.uri hhead
  rw [huri, ← hp]
  exact hpath

theorem stored_short {b : Buf} (h : LineRead C w) (hin : InBuf b) (hb : w.c.buf = some b)
    (hs : Stored w w₁) : w₁.r.uri.len ≤ 4097 := by
  obtain ⟨b₀, hb₀, heq, -, hparse⟩ := h
  obtain rfl : b₀ = b := Option.some.inj (hb₀.symm.trans hb)
  obtain ⟨b₁, hb₁, -, huri⟩ := hs.c
  obtain rfl : b₀ = b₁ := Option.some.inj (hb₀.symm.trans hb₁)
  rw [← heq] at hparse
  apply huri.short hparse
  refine ⟨Nat.zero_le _, ?_, rfl⟩
  have hlast := hin.last
  rw [heq] at hlast
  exact hlast

/-- Every move keeps to this. -/
theorem Move.asked (hctl : Ctl q₁ w) (hstream : Stream q₁ w) (h : Asked q₁ w)
    (hm : Move (q₁, w) (q₂, w')) : Asked q₂ w' := by
  cases hm with
  | startFails hs hc =>
    obtain ⟨cp, hcp, -⟩ := (start_open hs).pool
    exact asked_closed (fd_closeConnection (hc.pool.trans hcp))
  | startCloses hr hs hb hsc =>
    obtain ⟨cp, hcp, -⟩ := (Reported.open (start_open hs) hr).pool
    exact asked_closed (fd_closeBoth (hsc.pool.trans hcp))
  | resumeHeaders hr hw hrh =>
    exact (h hw.fd ⟨hw.data, hw.writeHandler⟩ hrh).same (sameStream_of_t hr.t) (by rw [hr.r])
  | «have» hread hb hne =>
    cases hread with
    | line => trivial
    | headers => exact h
  | @recv _ _ _ w₁ b bs hread hb hnil _ ht hne hlen =>
    cases hread with
    | line => trivial
    | headers =>
      -- more of the same request
      obtain ⟨C, hheads, hsource⟩ := h
      refine ⟨C ++ bs, ?_, ?_⟩
      · show Heads w₁.t.received w₁.t.handed (C ++ bs)
        rw [ht.t]
        exact hheads.append bs
      · show Source (C ++ bs) w₁.r.uri
        rw [ht.r]
        exact hsource.append bs
  | idle hread hb hnil =>
    cases hread with
    | line =>
      intro _ _ hheaders
      rw [hctl.2.1] at hheaders
      cases hheaders
    | headers => exact fun _ _ _ => h
  | @wait _ _ _ w₁ b hread hb hnil _ ht =>
    cases hread with
    | line =>
      have hrh : (w₁.noteRecv b EHD_AGAIN).c.readHandler = .processRequestLine := by
        show w₁.c.readHandler = _
        rw [ht.c]
        exact hctl.2.1
      intro _ _ hheaders
      rw [hrh] at hheaders
      cases hheaders
    | headers =>
      exact fun _ _ _ => InHead.same h (Took.sameStream ht b _) (congrArg Request.uri ht.r)
  | @hangup _ w₁ b n _ _ ht hn =>
    exact asked_closed (fd_closeBoth (w := w₁.noteRecv b n) (hctl.1.took ht).home)
  | @hangupTwice _ w₁ b n _ _ ht hn =>
    exact asked_closed (fd_closeBoth ((hctl.1.took ht).pool_hungUp b n))
  | fail hp hs =>
    exact asked_closed (fd_closeBoth (hs.pool.trans (hctl.serving (Or.inl hp)).home))
  | noRoom hfull hs =>
    exact asked_closed (fd_closeBoth (hs.pool.trans (hctl.serving (Or.inl hfull.serves)).home))
  | stored hs =>
    obtain ⟨C, hheads, hline⟩ := hstream
    obtain ⟨b, hb, hin⟩ := hctl.1.buf
    have hshort := stored_short hline hin hb hs
    obtain ⟨b₀, hb₀, heq, -, hparse⟩ := hline
    obtain ⟨b₁, hb₁, -, huri⟩ := hs.c
    obtain rfl : b₀ = b₁ := Option.some.inj (hb₀.symm.trans hb₁)
    rw [heq] at huri
    exact ⟨C, (sameStream_of_t hs.t).heads hheads, hshort, _, _, hparse, huri.pathFor hparse⟩
  | headerNext => exact h
  | headerMore hb hparse => exact InHead.same h ⟨rfl, rfl⟩ rfl
  | headerDone hb hparse hs =>
    refine InHead.same h (sameStream_of_t hs.t) ?_
    rw [hs.r]
    rfl
  | headersDone hb hparse => exact InHead.same h ⟨rfl, rfl⟩ rfl
  | @hand _ b hb =>
    obtain ⟨C, hheads, hsource⟩ := h
    obtain ⟨C', hheads', b₀, hb₀, -, -, hhead⟩ := hstream
    obtain rfl : b₀ = b := Option.some.inj (hb₀.symm.trans hb)
    obtain rfl := hheads.rest_unique hheads'
    exact ⟨hsource.1, w.t.handed, handedOver w.r b₀, rfl, rfl, hsource.handed hhead⟩
  | full hb hw hpos =>
    intro _ hreading _
    have hwriter := (hctl.1.wrote hb hw).writeHandler
    rw [hreading.2] at hwriter
    cases hwriter
  | keepAlive hb hw hpos hbuf hpool =>
    intro _ hreading _
    cases hreading.1
  | keepAliveFails hb hw hpos hbuf hpool _ =>
    exact asked_closed (fd_closeConnection (hctl.1.wrote hb hw).toServing.home)
  | _ => trivial

end Ehd.Http
