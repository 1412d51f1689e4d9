import Ehttpd.Http.AllAnswered
import Ehttpd.Http.MethodToken
import Ehttpd.Http.Normaliser
import Ehttpd.Http.QuerySplit
import Ehttpd.Http.RedirectTarget

namespace Ehd.Http

open Program Scanner World

/-- A request of a client: its method, its target up to the first slash of the path and from there
on, and its headers, each a name and a value. -/
structure ClientRequest where
  method : List UInt8
  target : List UInt8
  path : List UInt8
  headers : List (List UInt8 × List UInt8)
  deriving DecidableEq, Repr

namespace ClientRequest

def headerText (h : List UInt8 × List UInt8) : List UInt8 := h.1 ++ [58, 32] ++ h.2 ++ CRLF

def lineStart (q : ClientRequest) : List UInt8 := requestHead [] q.method [32] q.target q.path

def lineTail : List UInt8 := [32] ++ httpSlash ++ [49] ++ 46 :: [49] ++ [CR, LF]

def line (q : ClientRequest) : List UInt8 := q.lineStart ++ lineTail

def encode (q : ClientRequest) : List UInt8 := q.line ++ q.headers.flatMap headerText ++ CRLF

def head (q : ClientRequest) : Head := ⟨tokenMethod q.method, 47 :: q.path, q.headers⟩

def uriPath (q : ClientRequest) : List UInt8 :=
  if 63 ∈ q.path ∧ ¬ Hides (47 :: beforeQuery q.path) then 47 :: beforeQuery q.path
  else 47 :: q.path

/-- The request is written as the server wants it: a path that is normalised has whole escapes and
does not climb above the root. -/
structure WellFormed (q : ClientRequest) : Prop where
  letters : ∀ c ∈ q.method, isUpper c
  method_ne : q.method ≠ []
  target : IsTarget q.target
  path : ∀ c ∈ q.path, IsUriChar c
  resolves : Marked (47 :: beforeQuery q.path) → ∃ d, Unescapes q.uriPath d ∧ normalise d ≠ none
  headers : ∀ h ∈ q.headers, HeaderName h.1 ∧ HeaderValue h.2
  fits : q.encode.length ≤ EHD_DEFAULT_BUF_SIZE

variable {q : ClientRequest} {bytes more : List UInt8} {p r : ParseState} {n : Nat}

def slash (q : ClientRequest) : Nat := q.method.length + q.target.length

structure LineRead (q : ClientRequest) (p : ParseState) : Prop where
  method : p.method = tokenMethod q.method
  uriEnd : p.uriEnd = q.slash + 1 + q.path.length
  marks : TargetMarks p q.slash q.path

theorem WellFormed.requestHead (h : q.WellFormed) :
    IsRequestHead [] q.method [32] q.target q.path :=
  ⟨⟨by simp, h.letters, h.method_ne, blank_space, by simp⟩, h.target, h.path⟩

theorem versionTail : VersionTail [49] [49] lineTail :=
  ⟨[32], [CR, LF], rfl, blank_space, by simp, isMajor_one, isMinor_digit (by decide), .crlf⟩

theorem slash_succ (q : ClientRequest) (start : Nat) :
    start + q.slash + 1 = start + ([] ++ q.method ++ [32]).length + q.target.length := by
  unfold slash
  simp only [List.nil_append, List.length_append, List.length_singleton]
  omega

theorem line_length (q : ClientRequest) :
    q.line.length = q.slash + 1 + q.path.length + lineTail.length := by
  unfold line lineStart Http.requestHead slash
  simp only [List.length_append, List.length_nil, List.length_singleton]
  omega

theorem line_unread (q : ClientRequest) (more : List UInt8) :
    Http.requestHead [] q.method [32] q.target q.path ++ lineTail <+:
      (inputBuf (q.line ++ more) 0).unread := List.prefix_append _ more

/-- The parser takes the line. -/
theorem WellFormed.parse_line (h : q.WellFormed) (more : List UInt8) :
    ∃ p, parseRequestLine {} (inputBuf (q.line ++ more) 0) =
      (.ok, p, inputBuf (q.line ++ more) q.line.length) ∧ q.LineRead p := by
  have hpre := q.line_unread more
  have hslash : q.slash + 1 = (inputBuf (q.line ++ more) 0).pos +
      ([] ++ q.method ++ [32]).length + q.target.length := by
    have hstart := q.slash_succ 0
    rwa [Nat.zero_add] at hstart
  obtain ⟨rc, p, b', hparse⟩ : ∃ rc p b',
    parseRequestLine {} (inputBuf (q.line ++ more) 0) = (rc, p, b') := ⟨_, _, _, rfl⟩
  -- the version is not the 9 of which a method other than `GET` is refused
  obtain ⟨-, -, -, hrc, hnine⟩ := h.requestHead.parse_version versionTail hpre
  rw [hparse] at hrc hnine
  have hok : rc = .ok := by
    refine hrc.resolve_right fun hinvalid => ?_
    exact absurd (hnine.1 hinvalid).2 (by decide)
  subst hok
  obtain ⟨hmarks, huri⟩ := h.requestHead.marks
    (lineTail_cases.2 (Or.inr ⟨_, _, versionTail⟩)) hpre hslash
  rw [hparse] at hmarks huri
  have hword : (inputBuf (q.line ++ more) 0).unread =
      [] ++ q.method ++ [32] ++ (q.target ++ (q.path ++ (lineTail ++ more))) := by
    show q.line ++ more = _
    simp [line, lineStart, Http.requestHead]
  have htoken := h.requestHead.toMethodPart.tokenMarks hword hparse
  -- and the line ends behind its tail
  obtain ⟨st, r', hst, -, hscan⟩ := @IsRequestHead.scan_marks (q.line ++ more) q.path {} 0 []
    q.method [32] q.target q.slash h.requestHead rfl rfl hslash
  have htail := @scan_version_tail (q.line ++ more) r' (q.slash + 1 + q.path.length) more st hst
    [32] [49] [49] [CR, LF] blank_space (by simp) isMajor_one (isMinor_digit (by decide)) .crlf
  have hloop := (hscan (lineTail ++ more)).trans htail
  rw [← List.append_assoc] at hloop
  have hdone := parseRequestLine_of_done (r := {}) (b := inputBuf (q.line ++ more) 0) hloop
  rw [hparse] at hdone
  have hend : b' = inputBuf (q.line ++ more) q.line.length := by
    rw [line_length]
    exact congrArg (fun x => x.2.2) hdone
  exact ⟨p, by rw [hparse, hend], htoken.method, huri, hmarks⟩

/-- `r->uri_start` and `r->uri_end` delimit the path, and `r->uri` is made of `uriPath`. -/
theorem LineRead.spans (h : q.LineRead p) (htarget : IsTarget q.target) (more : List UInt8) :
    (((q.line ++ more).drop p.uriStart).take (p.uriEnd - p.uriStart)) = 47 :: q.path ∧
      (((q.line ++ more).drop p.uriStart).take p.uriLen) = q.uriPath := by
  obtain ⟨authority, hauthority⟩ := htarget.last
  have hdrop : (q.line ++ more).drop q.slash = 47 :: q.path ++ (lineTail ++ more) := by
    have hline : q.line ++ more =
        (q.method ++ [32] ++ authority) ++ (47 :: q.path ++ (lineTail ++ more)) := by
      simp [line, lineStart, Http.requestHead, hauthority]
    have hlen : q.slash = (q.method ++ [32] ++ authority).length := by
      unfold slash
      rw [hauthority]
      simp only [List.length_append, List.length_singleton]
      omega
    rw [hline, hlen, List.drop_left]
  rw [h.marks.uriStart, hdrop]
  have huri : p.uriEnd - q.slash = (47 :: q.path).length := by
    rw [h.uriEnd, List.length_cons]
    omega
  refine ⟨by rw [huri, List.take_left], ?_⟩
  unfold uriPath
  split
  · next hseen =>
    obtain ⟨query, hquery⟩ : beforeQuery q.path <+: q.path := List.takeWhile_prefix _
    have hpath : q.path ++ (lineTail ++ more) =
        beforeQuery q.path ++ (query ++ (lineTail ++ more)) := by
      rw [← List.append_assoc (beforeQuery q.path), hquery]
    rw [h.marks.uriLen_seen hseen.1 hseen.2, List.cons_append, hpath, ← List.cons_append,
      List.take_left]
  · next hseen =>
    rw [h.marks.uriLen_unseen h.uriEnd (not_and_or.1 hseen |>.imp id not_not.1), List.take_left]

/-- `ehd_http_parse_complex_uri` takes the path. -/
theorem WellFormed.accepted (h : q.WellFormed) (hp : q.LineRead p) (more : List UInt8) (m : Nat) :
    pathAccepted p (inputBuf (q.line ++ more) m) = true := by
  obtain ⟨-, hpath⟩ := hp.spans h.target more
  have hspan : (inputBuf (q.line ++ more) m).span p.uriStart p.uriLen = q.uriPath := hpath
  unfold pathAccepted
  rw [hspan]
  by_cases hcomplex : p.complexUri = true
  · obtain ⟨d, hd, hnorm⟩ := h.resolves (hp.marks.complex.1 hcomplex)
    have hroom : q.uriPath.length < (List.replicate (p.uriLen + 1) (0 : UInt8)).length := by
      rw [← hpath, List.length_replicate]
      exact Nat.lt_succ_of_le (List.length_take_le _ _)
    have hslash : q.uriPath.head? = some 47 := by
      unfold uriPath
      split <;> rfl
    obtain ⟨hnone, -⟩ := uriLoop_normalise hroom hslash hd
    have hsome : (uriLoop (.init (List.replicate (p.uriLen + 1) 0)) q.uriPath).isSome = true :=
      Option.isSome_iff_ne_none.2 (mt hnone.1 hnorm)
    rw [hsome, Bool.or_true]
  · rw [Bool.not_eq_true] at hcomplex
    rw [hcomplex]
    rfl

/-- The lines are read one behind the other, and what the marks delimit is what was written; the
induction is on the last line, as `HeaderLines` is built. -/
theorem headers_read {hs : List (List UInt8 × List UInt8)} {m : Nat} {rest : List UInt8}
    (hall : ∀ h ∈ hs, HeaderName h.1 ∧ HeaderValue h.2) (hp : p.state = 0)
    (hbytes : bytes.drop m = hs.flatMap headerText ++ rest) :
    ∃ es r, HeaderLines bytes p m es r (m + (hs.flatMap headerText).length) ∧ r.state = 0 ∧
      es.map (·.content bytes) = hs := by
  induction hs using List.reverseRecOn generalizing rest with
  | nil => exact ⟨[], p, .nil, hp, rfl⟩
  | append_singleton hs h ih =>
    obtain ⟨hname, hvalue⟩ := hall h (List.mem_append_right _ List.mem_cons_self)
    rw [List.flatMap_append, List.flatMap_singleton] at hbytes ⊢
    rw [List.append_assoc] at hbytes
    obtain ⟨es, r, hlines, hr, hcontent⟩ :=
      ih (fun h' hh' => hall h' (List.mem_append_left _ hh')) hbytes
    obtain ⟨at', hat⟩ : ∃ at', at' = m + (hs.flatMap headerText).length := ⟨_, rfl⟩
    rw [← hat] at hlines
    have hdrop : bytes.drop at' = h.1 ++ ([58, 32] ++ (h.2 ++ (CRLF ++ rest))) := by
      rw [hat, ← List.drop_drop, hbytes, List.drop_left]
      simp [headerText]
    have hunread : (inputBuf bytes at').unread = h.1 ++ [58, 32] ++ h.2 ++ CRLF ++ rest := by
      show bytes.drop at' = _
      rw [hdrop]
      simp
    obtain ⟨r', hline, hr', hheader⟩ := parseHeaderLine_line hr hname hvalue hunread
    have hend : m + (hs.flatMap headerText ++ headerText h).length =
        at' + (h.1.length + 2 + h.2.length + 2) := by
      rw [hat, List.length_append]
      simp only [headerText, List.length_append, List.length_cons, List.length_nil, CRLF]
      omega
    refine ⟨es ++ [r'.header], r', ?_, hr', ?_⟩
    · rw [hend]
      exact .snoc hlines hline
    · have hkey : (bytes.drop at').take h.1.length = h.1 := by rw [hdrop, List.take_left]
      have hval : (bytes.drop (at' + h.1.length + 2)).take h.2.length = h.2 := by
        rw [← List.drop_drop, ← List.drop_drop, hdrop, List.drop_left]
        exact List.take_left
      rw [List.map_append, hcontent, List.map_singleton, hheader]
      congr 2
      exact Prod.ext hkey hval

/-- A request that has come, with nothing behind it. -/
theorem WellFormed.parsed (h : q.WellFormed) : ∃ p m es r k,
    HeadParsed q.encode p m es r k q.encode.length ∧ headOfParts q.encode p es = q.head := by
  have hsplit : q.encode = q.line ++ (q.headers.flatMap headerText ++ CRLF) := List.append_assoc _ _ _
  obtain ⟨p, hparse, hp⟩ := h.parse_line (q.headers.flatMap headerText ++ CRLF)
  have haccepted := h.accepted hp (q.headers.flatMap headerText ++ CRLF) q.line.length
  obtain ⟨huri, -⟩ := hp.spans h.target (q.headers.flatMap headerText ++ CRLF)
  rw [← hsplit] at hparse haccepted huri
  have hbehind : q.encode.drop q.line.length = q.headers.flatMap headerText ++ CRLF := by
    rw [hsplit, List.drop_left]
  obtain ⟨es, r, hlines, hr, hcontent⟩ :=
    headers_read h.headers (requestLine_between hparse).1 hbehind
  obtain ⟨k, hk⟩ : ∃ k, k = q.line.length + (q.headers.flatMap headerText).length := ⟨_, rfl⟩
  rw [← hk] at hlines
  have hlast : (inputBuf q.encode k).unread = CRLF := by
    show q.encode.drop k = CRLF
    rw [hk, ← List.drop_drop, hbehind, List.drop_left]
  obtain ⟨r', hdone⟩ := parseHeaderLine_end hr hlast
  have hend : k + 2 = q.encode.length := by
    rw [hsplit, hk, List.length_append, List.length_append, Nat.add_assoc]
    rfl
  refine ⟨p, _, es, r, k, ⟨hparse, haccepted, hlines, r', ?_⟩, ?_⟩
  · rw [← hend]
    exact hdone
  · unfold headOfParts head
    rw [hp.method, huri, hcontent]

theorem WellFormed.parseHead (h : q.WellFormed) (more : List UInt8) :
    Http.parseHead ((q.encode ++ more).take EHD_DEFAULT_BUF_SIZE) =
      some (q.head, q.encode.length) := by
  obtain ⟨p, m, es, r, k, hparsed, hhead⟩ := h.parsed
  rw [List.take_append, List.take_of_length_le h.fits, (hparsed.append _).parseHead,
    hparsed.headOfParts_append, hhead]

variable {qs : List ClientRequest}

/-- The requests of a stream that starts with `qs`. -/
theorem requests_encoded (hall : ∀ q ∈ qs, q.WellFormed) (more : List UInt8) :
    ∀ fuel, qs.length ≤ fuel → requests fuel (qs.flatMap encode ++ more) =
      qs.map head ++ requests (fuel - qs.length) more := by
  induction qs with
  | nil =>
    intro fuel _
    rfl
  | cons q qs ih =>
    intro fuel hfuel
    rw [List.length_cons] at hfuel ⊢
    obtain ⟨fuel, rfl⟩ : ∃ n, fuel = n + 1 := Nat.exists_eq_succ_of_ne_zero (by omega)
    have hq := hall q List.mem_cons_self
    rw [List.flatMap_cons, List.append_assoc, requests, hq.parseHead, Nat.add_sub_add_right]
    show q.head :: requests fuel ((q.encode ++ _).drop q.encode.length) = _
    rw [List.drop_left, ih (fun q' hq' => hall q' (List.mem_cons_of_mem _ hq')) fuel (by omega)]
    rfl

theorem requests_nil : ∀ fuel, requests fuel [] = []
  | 0 => rfl
  | _ + 1 => rfl

theorem encode_pos (q : ClientRequest) : 0 < q.encode.length := by
  unfold encode
  rw [List.length_append]
  exact Nat.lt_add_left _ (by decide)

theorem length_le_encoded (qs : List ClientRequest) : qs.length ≤ (qs.flatMap encode).length := by
  induction qs with
  | nil => exact Nat.zero_le _
  | cons q qs ih =>
    have hpos := q.encode_pos
    rw [List.flatMap_cons, List.length_append, List.length_cons]
    omega

theorem requests_all (hall : ∀ q ∈ qs, q.WellFormed) {s : List UInt8} (hs : s = qs.flatMap encode) :
    requests s.length s = qs.map head := by
  have henough := length_le_encoded qs
  rw [← hs] at henough
  have hfound := requests_encoded hall [] s.length henough
  rw [List.append_nil, ← hs, requests_nil, List.append_nil] at hfound
  exact hfound

/-- Requests that are written one behind the other are read back one by one, with what follows them
left where they end. -/
theorem requests_round_trip (hall : ∀ q ∈ qs, q.WellFormed) (more : List UInt8) :
    (∀ n, requests (qs.length + n) (qs.flatMap encode ++ more) = qs.map head ++ requests n more) ∧
      afterRequests qs.length (qs.flatMap encode ++ more) = some more := by
  constructor
  · intro n
    rw [requests_encoded hall more _ (Nat.le_add_right _ n), Nat.add_sub_cancel_left]
  · induction qs with
    | nil => rfl
    | cons q qs ih =>
      rw [List.flatMap_cons, List.append_assoc, List.length_cons, afterRequests,
        (hall q List.mem_cons_self).parseHead]
      show afterRequests qs.length ((q.encode ++ _).drop q.encode.length) = _
      rw [List.drop_left]
      exact ih fun q' hq' => hall q' (List.mem_cons_of_mem _ hq')

/-- A path to be normalised, with a header behind it, and a target with a host. -/
def twoRequests : List ClientRequest :=
  [⟨ascii "GET", [47], ascii "a/../b?c", [(ascii "Host", ascii "h")]⟩,
    ⟨ascii "HEAD", ascii "h" ++ colonSlashSlash ++ ascii "i" ++ [47], ascii "d", []⟩]

theorem twoRequests_wellFormed : ∀ q ∈ twoRequests, q.WellFormed := by
  have hfirst : WellFormed ⟨ascii "GET", [47], ascii "a/../b?c", [(ascii "Host", ascii "h")]⟩ := by
    refine ⟨by decide +kernel, by decide, .origin, by decide +kernel, fun _ => ?_, ?_,
      by decide +kernel⟩
    · exact ⟨_, unescapes_self (by decide +kernel), by decide +kernel⟩
    · exact List.forall_mem_singleton.2 ⟨⟨by decide, by decide +kernel⟩,
        ⟨⟨by decide, by decide, by decide⟩, ⟨by decide, by decide⟩⟩⟩
  have hsecond : WellFormed
      ⟨ascii "HEAD", ascii "h" ++ colonSlashSlash ++ ascii "i" ++ [47], ascii "d", []⟩ := by
    refine ⟨by decide +kernel, by decide, .absolute ?_ ?_, by decide +kernel, fun hmarked => ?_, ?_,
      by decide +kernel⟩
    · exact ⟨by decide, by decide +kernel⟩
    · decide +kernel
    · exact absurd hmarked (by decide +kernel)
    · nofun
  intro q hq
  rcases List.mem_cons.1 hq with rfl | hq
  · exact hfirst
  · rw [List.mem_singleton.1 hq]
    exact hsecond

theorem requests_round_trip_two :
    requests 2 (twoRequests.flatMap encode ++ ascii "GET") = twoRequests.map head ∧
      afterRequests 2 (twoRequests.flatMap encode ++ ascii "GET") = some (ascii "GET") := by
  obtain ⟨hfound, hleft⟩ := requests_round_trip twoRequests_wellFormed (ascii "GET")
  exact ⟨(hfound 0).trans (List.append_nil _), hleft⟩

end ClientRequest

open ClientRequest

variable {w : World} {qs : List ClientRequest}

theorem Run.handed_to_client {P : Kernel → Prop} {o : Option Stop} (h : Run P o w)
    (hall : ∀ q ∈ qs, q.WellFormed) (hpart : w.t.received <+: qs.flatMap encode) :
    w.t.handed.map Handed.toHead <+: qs.map head := by
  obtain ⟨C, hheads, -⟩ := h.stream
  obtain ⟨more, hmore⟩ := hpart
  have hwhole := (hheads.append more).prefix_requests
  rwa [requests_all hall hmore] at hwhole

theorem Run.all_handed_to_client {P : Kernel → Prop} (h : Run P none w)
    (hall : ∀ q ∈ qs, q.WellFormed) (hcome : w.t.received = qs.flatMap encode) (hfd : w.c.fd ≠ -1)
    (hmask : w.c.ev.events = readMask) (hnil : ∀ b, w.c.buf = some b → b.unread = []) :
    w.t.handed.map Handed.toHead = qs.map head := by
  rw [h.all_handed hfd hmask hnil]
  exact requests_all hall hcome

/-- Of a client that sends the requests `qs`, in whatever pieces they arrive, the server hands over
these requests in their order and no other, and once all of it has come and the connection waits
with nothing unread, it has handed over and answered all of them. -/
theorem clients_are_understood {P : Kernel → Prop} (h : Run P none w)
    (hall : ∀ q ∈ qs, q.WellFormed) (hpart : w.t.received <+: qs.flatMap encode) :
    w.t.handed.map Handed.toHead <+: qs.map head ∧
      (w.t.received = qs.flatMap encode → w.c.fd ≠ -1 → w.c.ev.events = readMask →
        (∀ b, w.c.buf = some b → b.unread = []) →
        w.t.handed.map Handed.toHead = qs.map head ∧ ∃ done, OnWire w w.t.handed done none) := by
  refine ⟨h.handed_to_client hall hpart, fun hcome hfd hmask hnil => ?_⟩
  refine ⟨h.all_handed_to_client hall hcome hfd hmask hnil, ?_⟩
  obtain ⟨done, hquiet⟩ := h.wire.reads hfd hmask
  exact ⟨done, hquiet.wire⟩

def rootRequest : ClientRequest := ⟨ascii "GET", [47], [], []⟩

theorem rootRequest_wellFormed : ∀ q ∈ [rootRequest], q.WellFormed := by
  refine List.forall_mem_singleton.2 ⟨by decide +kernel, by decide, .origin, by decide +kernel,
    fun hmarked => ?_, nofun, by decide +kernel⟩
  exact absurd hmarked (by decide +kernel)

/-- One request for `/` has come, and has been answered. -/
theorem clients_are_understood_served :
    (after (dispatch EPOLLIN) servedWorld).t.handed.map Handed.toHead = [⟨.get, [47], []⟩] ∧
      ∃ done, OnWire (after (dispatch EPOLLIN) servedWorld)
        (after (dispatch EPOLLIN) servedWorld).t.handed done none := by
  have hcome : (after (dispatch EPOLLIN) servedWorld).t.received =
      [rootRequest].flatMap encode := by decide +kernel
  have hbuf : (after (dispatch EPOLLIN) servedWorld).c.buf = some ⟨[], 0, 4096, 0, none⟩ := by
    decide +kernel
  obtain ⟨-, hall⟩ := clients_are_understood served_run rootRequest_wellFormed (hcome ▸ List.prefix_refl _)
  refine hall hcome (by decide +kernel) (by decide +kernel) fun b hb => ?_
  rw [hbuf] at hb
  cases hb
  rfl

end Ehd.Http
