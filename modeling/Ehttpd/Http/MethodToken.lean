import Ehttpd.Http.Terminators
import Ehttpd.Http.Version

namespace Ehd.Http

open Program Scanner World

variable {lead method spaces target buf : List UInt8} {b b' : Buf} {p r : ParseState}

/-- What the parser makes of a method: it compares `m[2]` of `POST` with a `T`. -/
def tokenMethod (method : List UInt8) : Method :=
  if method = ascii "GET" then .get
  else if method = ascii "POTT" then .post
  else if method = ascii "HEAD" then .head
  else .unknown

theorem tokens : ascii "GET" = [71, 69, 84] ∧ ascii "POTT" = [80, 79, 84, 84] ∧
    ascii "HEAD" = [72, 69, 65, 68] ∧ ascii "POST" = [80, 79, 83, 84] := by decide

theorem methodOf_eq {start : Nat} (hr : r.method = .unknown) (hbuf : method <+: buf.drop start) :
    methodOf r (fun i => buf.getD (start + i) 0) method.length = tokenMethod method := by
  obtain ⟨hget, hpott, hhead, -⟩ := tokens
  have hat : ∀ i, i < method.length → buf.getD (start + i) 0 = method.getD i 0 := by
    intro i hi
    obtain ⟨v, hv⟩ := hbuf
    rw [List.getD_eq_getElem?_getD, List.getD_eq_getElem?_getD, ← List.getElem?_drop, ← hv,
      List.getElem?_append_left hi]
  have hcongr : methodOf r (fun i => buf.getD (start + i) 0) method.length =
      methodOf r (fun i => method.getD i 0) method.length := methodOf_congr hat
  rw [hcongr]
  unfold methodOf tokenMethod
  rw [hr, hget, hpott, hhead]
  by_cases hthree : method.length = 3
  · match method, hthree with
    | [m₀, m₁, m₂], _ => simp
  · rw [if_neg hthree]
    by_cases hfour : method.length = 4
    · match method, hfour with
      | [m₀, m₁, m₂, m₃], _ => simp
    · rw [if_neg hfour, if_neg, if_neg, if_neg]
      · rintro rfl
        exact hfour rfl
      · rintro rfl
        exact hfour rfl
      · rintro rfl
        exact hthree rfl

structure SameToken (r r' : ParseState) : Prop where
  requestStart : r'.requestStart = r.requestStart
  methodEnd : r'.methodEnd = r.methodEnd
  method : r'.method = r.method

theorem SameToken.trans {r r' r'' : ParseState} (h : SameToken r r') (h' : SameToken r' r'') :
    SameToken r r'' :=
  ⟨h'.requestStart.trans h.requestStart, h'.methodEnd.trans h.methodEnd,
    h'.method.trans h.method⟩

theorem pastMethod_sameToken {st st' : RequestLineSw} {r r' : ParseState} {q : Nat} {ch : UInt8}
    (hst : st.PastMethod) (h : requestLineStep buf st r q ch = .next st' r') : SameToken r r' := by
  cases st <;> simp only [requestLineStep] at h
  all_goals (repeat' split at h)
  all_goals first
    | exact absurd hst id
    | (cases h <;> exact ⟨rfl, rfl, rfl⟩)

structure TokenMarks (start : Nat) (method : List UInt8) (p : ParseState) : Prop where
  requestStart : p.requestStart = start
  methodEnd : p.methodEnd = start + method.length
  method : p.method = tokenMethod method

theorem MethodPart.tokenMarks (hhead : MethodPart lead method spaces)
    (hw : b.unread = lead ++ method ++ spaces ++ target)
    (h : parseRequestLine {} b = (.ok, p, b')) : TokenMarks (b.pos + lead.length) method p := by
  obtain ⟨r', hloop, hdone⟩ := parseRequestLine_ok h
  rw [hhead.target_loop hw] at hloop
  have hI : RequestLineSw.PastMethod .done ∧ SameToken
      (({} : ParseState).methodMarks b.bytes (b.pos + lead.length) method.length) r' := by
    refine scan_invariant (I := fun st r _ => RequestLineSw.PastMethod st ∧ SameToken _ r) ?_ hloop
      ⟨trivial, rfl, rfl, rfl⟩
    intro st r₁ q ch st' r₂ hI _ hs
    exact ⟨pastMethod_step hI.1 hs, hI.2.trans (pastMethod_sameToken hI.1 hs)⟩
  obtain ⟨-, hsame⟩ := hI
  have hp : p = (requestLineDone r' b'.pos).2 := by
    rw [show requestLineDone r' b'.pos = (.ok, p) from hdone]
  rw [requestLineDone_record] at hp
  rw [hp]
  refine ⟨hsame.requestStart, hsame.methodEnd, hsame.method.trans (methodOf_eq rfl ?_)⟩
  have hdrop : b.bytes.drop (b.pos + lead.length) = method ++ (spaces ++ target) := by
    rw [← List.drop_drop, ← Buf.unread, hw]
    simp only [List.append_assoc, List.drop_left]
  rw [hdrop]
  exact List.prefix_append _ _

/-- A request line that is accepted in pieces is accepted at once, and the pieces leave the
same record and the same place. -/
theorem parsePieces_accepted {ws : List (List UInt8)} (hb : b.pos ≤ b.last)
    (h : parsePieces parseRequestLine r b ws = (.ok, p, b')) :
    parseRequestLine r (b.append ws.flatten) =
      (.ok, p, { b.append ws.flatten with pos := b'.pos }) := by
  have hsame := parsePieces_same (r := r) requestLineParser_lawful rfl requestLineParser_goes hb ws
  rw [← parseRequestLine_eq, h] at hsame
  obtain ⟨hcode, hrequest, hpos⟩ := hsame
  obtain ⟨rc, q, x, hx⟩ : ∃ rc q x, parseRequestLine r (b.append ws.flatten) = (rc, q, x) :=
    ⟨_, _, _, rfl⟩
  rw [hx] at hcode hrequest hpos ⊢
  have hrc : Rc.ok = rc := hcode
  have hq : p = q := hrequest (Or.inl hrc.symm)
  have hat : b'.pos = x.pos := hpos (Or.inl hrc.symm)
  have heq := (parseRequestLine_advances hx).eq
  rw [hrc, hq, hat, ← heq]

/-- The calls stay inside the bytes of the buffer. -/
theorem parsePieces_le {ws : List (List UInt8)} {rc : Rc} (hb : b.pos ≤ b.last)
    (h : parsePieces parseRequestLine r b ws = (rc, p, b')) : b'.pos ≤ b'.last := by
  have hone : ∀ {r p : ParseState} {b b' : Buf} {rc : Rc}, b.pos ≤ b.last →
      parseRequestLine r b = (rc, p, b') → b'.pos ≤ b'.last := by
    intro r p b b' rc hb h
    have hadv := parseRequestLine_advances h
    have hle := hadv.le_unread
    have hlast : b'.last = b.last := by rw [hadv.eq]; rfl
    have hunread : b.unread.length = b.last - b.pos := List.length_drop
    omega
  induction ws generalizing r b with
  | nil => exact hone hb h
  | cons w ws ih =>
    obtain ⟨rc₁, p₁, b₁, h₁⟩ : ∃ rc₁ p₁ b₁, parseRequestLine r b = (rc₁, p₁, b₁) := ⟨_, _, _, rfl⟩
    have hb₁ := hone hb h₁
    unfold parsePieces at h
    rw [h₁] at h
    cases rc₁ with
    | again =>
      refine ih (b := b₁.append w) ?_ h
      have hlen : (b₁.append w).last = b₁.last + w.length := List.length_append
      show b₁.pos ≤ (b₁.append w).last
      omega
    | _ =>
      cases h
      exact hb₁

/-- For a method that is not known, `method_name` is set too. -/
theorem wp_setRequestLine {w : World} {Q : Unit → World → Prop} {E : Stop → World → Prop}
    (halive : w.r.home ∉ w.t.destroyed) (hb : w.c.buf = some b)
    (hmethod : w.r.parse.method = .unknown) :
    wp setRequestLine Q E w ↔ Q () (((w.onR fun r => { r with
      requestLine := ⟨w.r.parse.requestStart,
        w.r.parse.requestEnd.getD 0 - w.r.parse.requestStart⟩ }).setBuf
          (putLineNul w.r.parse b)).onR fun r => { r with
            methodName := ⟨w.r.parse.requestStart,
              w.r.parse.methodEnd - w.r.parse.requestStart + 1⟩ }) := by
  unfold setRequestLine
  rw [wp_bind, wp_getRequest halive]
  dsimp only
  rw [wp_bind, wp_modifyRequest halive, wp_bind, wp_getHeaderInBuf (by exact halive) (by exact hb),
    wp_bind, wp_setHeaderInBuf (by exact halive), if_pos hmethod,
    wp_modifyRequest (by exact halive)]
  rfl

/-- What is asked of the method of a request line that has been accepted with the marks `p`
and has left the buffer `b`. -/
structure MethodRecognised (method : List UInt8) (p : ParseState) (b : Buf) : Prop where
  get : p.method = .get ↔ method = ascii "GET"
  post : p.method = .post ↔ method = ascii "POST"
  head : p.method = .head ↔ method = ascii "HEAD"
  unknown : p.method = .unknown ↔
    method ≠ ascii "GET" ∧ method ≠ ascii "POST" ∧ method ≠ ascii "HEAD"
  name : method ≠ ascii "GET" → method ≠ ascii "POST" → method ≠ ascii "HEAD" →
    ∀ (w : World) (E : Stop → World → Prop), w.r.home ∉ w.t.destroyed → w.c.buf = some b →
      w.r.parse = p → wp setRequestLine (fun _ w' => ∃ b', w'.c.buf = some b' ∧
        b'.span w'.r.methodName.start w'.r.methodName.len = method) E w
  handler : ∀ (w : World) (b : Buf), w.r.home ∉ w.t.destroyed → w.c.buf = some b →
    w.r.parse.method = p.method → Http.handler w = (if method = ascii "GET" then fileWriterHandler
      else specialResponseHandler EHD_HTTP_NOT_IMPLEMENTED) (w.handing b)

/-- The method is recognised as it should be, and its name kept, exactly for `GET` and `HEAD`:
`POST` is not known, `POTT` is taken for it, and the name of every other method has the space
behind it. -/
theorem method_recognised_iff {ws : List (List UInt8)} (hb : b.pos ≤ b.last)
    (hhead : MethodPart lead method spaces)
    (hw : (b.append ws.flatten).unread = lead ++ method ++ spaces ++ target)
    (h : parsePieces parseRequestLine {} b ws = (.ok, p, b')) :
    MethodRecognised method p b' ↔ method = ascii "GET" ∨ method = ascii "HEAD" := by
  have hall := parsePieces_accepted hb h
  have hmarks := hhead.tokenMarks hw hall
  have hordered := requestLine_ordered hall
  constructor
  · intro hrec
    by_contra hother
    rw [not_or] at hother
    by_cases hpost : method = ascii "POST"
    · -- `POST` is compared with `POTT`
      have hp := hrec.post.2 hpost
      rw [hmarks.method, hpost] at hp
      exact absurd hp (by decide)
    · have hp := hrec.unknown.2 ⟨hother.1, hpost, hother.2⟩
      have hname := hrec.name hother.1 hpost hother.2
        ((sampleWorld [] []).parsed p b') (fun _ _ => True) (List.not_mem_nil) rfl rfl
      rw [wp_setRequestLine List.not_mem_nil rfl hp] at hname
      obtain ⟨x, hx, hspan⟩ := hname
      obtain rfl : putLineNul p b' = x := Option.some.inj hx
      -- the space behind the method is taken for a part of its name
      have hlen := congrArg List.length hspan
      change (((b'.bytes.set _ 0).drop p.requestStart).take
        (p.methodEnd - p.requestStart + 1)).length = method.length at hlen
      rw [List.length_take, List.length_drop, List.length_set, hmarks.methodEnd,
        hmarks.requestStart] at hlen
      obtain ⟨e, -, huri, hlt, -⟩ := hordered.line
      have hle := parsePieces_le hb h
      have hmethod := hmarks.methodEnd
      have hstart := hordered.uriStart
      have hpath := hordered.uri
      change b'.pos ≤ b'.bytes.length at hle
      change e < b'.pos at hlt
      omega
  · have known : ∀ m, p.method = m → (m = .get ∧ method = ascii "GET" ∨
        m = .head ∧ method = ascii "HEAD") → MethodRecognised method p b' := by
      rintro m hp hm
      have hhandler : ∀ (w : World) (b : Buf), w.r.home ∉ w.t.destroyed → w.c.buf = some b →
          w.r.parse.method = p.method → Http.handler w = (if m = .get then fileWriterHandler
            else specialResponseHandler EHD_HTTP_NOT_IMPLEMENTED) (w.handing b) := by
        intro w b halive hb hmethod
        rw [handler_eq halive hb, hmethod, hp]
      rcases hm with ⟨rfl, rfl⟩ | ⟨rfl, rfl⟩
      · refine ⟨?_, ?_, ?_, ?_, fun hne => absurd rfl hne, hhandler⟩ <;> rw [hp] <;> decide
      · refine ⟨?_, ?_, ?_, ?_, fun _ _ hne => absurd rfl hne, hhandler⟩ <;> rw [hp] <;> decide
    rintro (rfl | rfl)
    · exact known .get (hmarks.method.trans (by decide)) (Or.inl ⟨rfl, rfl⟩)
    · exact known .head (hmarks.method.trans (by decide)) (Or.inr ⟨rfl, rfl⟩)

def getPieces : List (List UInt8) := [ascii "\x0d\nGE", ascii "T /a HTTP/1.1\x0d\n"]

theorem method_recognised_get :
    (parsePieces parseRequestLine {} (.temp 64) getPieces).1 = .ok ∧
      MethodRecognised (ascii "GET") (parsePieces parseRequestLine {} (.temp 64) getPieces).2.1
        (parsePieces parseRequestLine {} (.temp 64) getPieces).2.2 := by
  have hok : (parsePieces parseRequestLine {} (.temp 64) getPieces).1 = .ok := by decide
  have hhead : MethodPart [CR, LF] (ascii "GET") [32] :=
    ⟨by simp [IsLineBreak], getMethod.letters, getMethod.method_ne, getMethod.blank,
      getMethod.spaces_ne⟩
  have hw : ((Buf.temp 64).append getPieces.flatten).unread =
      [CR, LF] ++ ascii "GET" ++ [32] ++ ascii "/a HTTP/1.1\x0d\n" := by decide
  exact ⟨hok, (method_recognised_iff (by decide) hhead hw (Prod.ext hok rfl)).2 (Or.inl rfl)⟩

/-- `POST` is not known. -/
theorem post_not_recognised :
    (parsePieces parseRequestLine {} (.temp 64) [ascii "POST /a HTTP/1.1\x0d\n"]).1 = .ok ∧
      ¬ MethodRecognised (ascii "POST")
        (parsePieces parseRequestLine {} (.temp 64) [ascii "POST /a HTTP/1.1\x0d\n"]).2.1
        (parsePieces parseRequestLine {} (.temp 64) [ascii "POST /a HTTP/1.1\x0d\n"]).2.2 := by
  refine ⟨by decide, fun h => ?_⟩
  exact absurd (h.post.2 rfl) (by decide)

end Ehd.Http
