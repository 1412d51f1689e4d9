import Ehttpd.Http.Preserve

namespace Ehd.Http

open Program World

variable {w : World} {E : Stop → World → Prop}

/-- A step between the parsers of the request line and of the headers. -/
structure Copying (w w' : World) : Prop where
  conf : w'.conf = w.conf
  c : w'.c = { w.c with buf := w'.c.buf }
  hc : w'.hc = w.hc
  home : w'.r.home = w.r.home
  pool : w'.r.pool = w.r.pool
  parse : w'.r.parse = { w.r.parse with uriExt := w'.r.parse.uriExt }
  headersN : w'.r.headersN = w.r.headersN
  fields : w'.r.headersIn.fields = w.r.headersIn.fields
  headersOut : w'.r.headersOut = w.r.headersOut
  response : w'.r.response = w.r.response
  k : w.k.Steady w'.k
  recvs : w'.k.recvs = w.k.recvs
  t : w'.t = w.t

theorem Copying.refl (w : World) : Copying w w :=
  ⟨rfl, rfl, rfl, rfl, rfl, rfl, rfl, rfl, rfl, rfl, .refl _, rfl, rfl⟩

theorem Copying.trans {w w' w'' : World} (h : Copying w w') (h' : Copying w' w'') :
    Copying w w'' where
  conf := h'.conf.trans h.conf
  c := by rw [h'.c, h.c]
  hc := h'.hc.trans h.hc
  home := h'.home.trans h.home
  pool := h'.pool.trans h.pool
  parse := by rw [h'.parse, h.parse]
  headersN := h'.headersN.trans h.headersN
  fields := h'.fields.trans h.fields
  headersOut := h'.headersOut.trans h.headersOut
  response := h'.response.trans h.response
  k := h.k.trans h'.k
  recvs := h'.recvs.trans h.recvs
  t := h'.t.trans h.t

theorem Copying.alive {w' : World} (h : Copying w w') (hw : w.r.home ∉ w.t.destroyed) :
    w'.r.home ∉ w'.t.destroyed := by
  rw [h.home, h.t]
  exact hw

theorem Copying.scratch {w' : World} (h : Copying w w') : w.Scratch w' where
  conf := h.conf
  slot := by rw [h.c]
  id := by rw [h.c]
  fd := by rw [h.c]
  pool := by rw [h.c]
  home := h.home
  requestPool := h.pool
  k := h.k
  t := by rw [h.t]

theorem copying_alloced (w : World) (n : List Allocation) : Copying w (w.alloced n) :=
  ⟨rfl, rfl, rfl, rfl, rfl, rfl, rfl, rfl, rfl, rfl, ⟨rfl, rfl, rfl, rfl, fun _ h => h⟩, rfl, rfl⟩

theorem copying_onR (w : World) (f : Request → Request) (hf : f w.r = { w.r with
    uri := (f w.r).uri, unparsedUri := (f w.r).unparsedUri, exten := (f w.r).exten
    requestLine := (f w.r).requestLine, methodName := (f w.r).methodName
    headersIn := { (f w.r).headersIn with fields := w.r.headersIn.fields }
    parse := { w.r.parse with uriExt := (f w.r).parse.uriExt } }) : Copying w (w.onR f) := by
  refine ⟨rfl, rfl, rfl, ?_, ?_, ?_, ?_, ?_, ?_, ?_, .refl _, rfl, rfl⟩
  all_goals
    simp only [World.onR]
    rw [hf]

theorem copying_setBuf (w : World) (b : Buf) : Copying w (w.setBuf b) :=
  ⟨rfl, rfl, rfl, rfl, rfl, rfl, rfl, rfl, rfl, rfl, .refl _, rfl, rfl⟩

/-- `ehd_http_parse_complex_uri` stores the normalised path. -/
theorem parseComplexUri_rule {Q : Rc → World → Prop} {b : Buf} {area : List UInt8}
    (halive : w.r.home ∉ w.t.destroyed) (hb : w.c.buf = some b)
    (hcomplex : w.r.parse.complexUri = true) (hlen : area.length = w.r.parse.uriLen + 1)
    (huri : w.r.uri = ⟨w.r.parse.uriLen, area⟩)
    (hok : ∀ w', Copying w w' → w'.c.buf = some b → CopiedUri w.r.parse b w'.r.uri → Q .ok w')
    (hfail : ∀ w' rc, Copying w w' → w'.c.buf = some b → rc ≠ .ok → Q rc w') :
    wp parseComplexUri Q E w := by
  unfold parseComplexUri
  rw [wp_bind, wp_getRequest halive, wp_bind, wp_getHeaderInBuf halive hb]
  rw [huri]
  dsimp only
  cases hs : uriLoop (.init area) (b.span w.r.parse.uriStart w.r.parse.uriLen) with
  | none => exact hfail w _ (.refl w) hb (by simp)
  | some s =>
    have hcopied : CopiedUri w.r.parse b ⟨s.u, s.data.set s.u 0⟩ := .complex hcomplex hlen hs
    dsimp only
    rw [wp_bind, wp_modifyRequest halive]
    generalize hw₁ : w.onR _ = w₁
    have h₁ : Copying w w₁ := hw₁ ▸ copying_onR w _ rfl
    have hb₁ : w₁.c.buf = some b := by rw [← hw₁]; exact hb
    have huri₁ : w₁.r.uri = ⟨s.u, s.data.set s.u 0⟩ := by rw [← hw₁]; rfl
    cases s.uriExt with
    | none => exact hok w₁ h₁ hb₁ (by rw [huri₁]; exact hcopied)
    | some e =>
      dsimp only
      rw [wp_bind]
      refine palloc_rule (fun n area' _ => ?_)
        (fun n _ => hfail _ _ (h₁.trans (copying_alloced w₁ n)) hb₁ (by simp))
      have h₂ := h₁.trans (copying_alloced w₁ n)
      dsimp only
      rw [wp_bind, wp_modifyRequest (h₂.alive halive), wp_pure]
      refine hok _ (h₂.trans (copying_onR _ _ rfl)) hb₁ ?_
      show CopiedUri w.r.parse b w₁.r.uri
      rw [huri₁]
      exact hcopied

def putLineNul (p : ParseState) (b : Buf) : Buf :=
  b.putNul (p.requestStart + (p.requestEnd.getD 0 - p.requestStart))

theorem putLineNul_idem (p : ParseState) (b : Buf) :
    putLineNul p (putLineNul p b) = putLineNul p b := by
  simp [putLineNul, Buf.putNul]

theorem setRequestLine_rule {Q : Unit → World → Prop} {b : Buf}
    (halive : w.r.home ∉ w.t.destroyed) (hb : w.c.buf = some b)
    (hok : ∀ w', Copying w w' → w'.c.buf = some (putLineNul w.r.parse b) →
      w'.r.uri = w.r.uri → Q () w') :
    wp setRequestLine Q E w := by
  unfold setRequestLine
  rw [wp_bind, wp_getRequest halive]
  dsimp only
  rw [wp_bind, wp_modifyRequest halive]
  generalize hw₁ : w.onR _ = w₁
  have h₁ : Copying w w₁ := hw₁ ▸ copying_onR w _ rfl
  have hb₁ : w₁.c.buf = some b := by rw [← hw₁]; exact hb
  have hu₁ : w₁.r.uri = w.r.uri := by rw [← hw₁]; rfl
  rw [wp_bind, wp_getHeaderInBuf (h₁.alive halive) hb₁, wp_bind,
    wp_setHeaderInBuf (h₁.alive halive)]
  have h₂ := h₁.trans (copying_setBuf w₁ (putLineNul w.r.parse b))
  split
  · refine (wp_modifyRequest (h₂.alive halive)).2 ?_
    exact hok _ (h₂.trans (copying_onR _ _ rfl)) rfl hu₁
  · exact hok _ h₂ rfl hu₁

theorem copyExten_rule {Q : Bool → World → Prop} {b : Buf}
    (halive : w.r.home ∉ w.t.destroyed) (hb : w.c.buf = some b)
    (hok : ∀ w', Copying w w' → w'.c.buf = some b → w'.r.uri = w.r.uri → Q true w')
    (hfail : ∀ w', Copying w w' → w'.c.buf = some b → Q false w') :
    wp copyExten Q E w := by
  unfold copyExten
  rw [wp_bind, wp_getRequest halive]
  dsimp only
  cases w.r.parse.uriExt with
  | none => exact hok w (.refl w) hb rfl
  | some e =>
    dsimp only
    rw [wp_bind]
    refine palloc_rule (fun n area _ => ?_) (fun n _ => hfail _ (copying_alloced w n) hb)
    have h₁ := copying_alloced w n
    dsimp only
    rw [wp_bind, wp_getHeaderInBuf (h₁.alive halive) hb, wp_bind,
      wp_modifyRequest (h₁.alive halive), wp_pure]
    exact hok _ (h₁.trans (copying_onR _ _ rfl)) hb rfl

theorem putLineNul_copying {w' : World} (h : Copying w w') (b : Buf) :
    putLineNul w'.r.parse b = putLineNul w.r.parse b := by
  rw [h.parse]
  rfl

/-- What follows the URI ends with the headers or closes everything; `w₀` is
where the request line had been parsed. -/
theorem requestLineParsed_rule {Q : Unit → World → Prop} {w₀ : World} {b : Buf}
    (halive : w₀.r.home ∉ w₀.t.destroyed) (h : Copying w₀ w) (hb₀ : w₀.c.buf = some b)
    (hb : w.c.buf = some b) (huri : CopiedUri w₀.r.parse b w.r.uri)
    (hok : ∀ w', Stored w₀ w' → wp processRequestHeaders Q E w')
    (hfail : ∀ w', w₀.Scratch w' → w'.c.buf = some (putLineNul w₀.r.parse b) →
      Q () w'.closeBoth) :
    wp requestLineParsed Q E w := by
  unfold requestLineParsed
  rw [wp_bind]
  refine setRequestLine_rule (h.alive halive) hb fun w₁ h₁ hb₁ hu₁ => ?_
  rw [putLineNul_copying h] at hb₁
  replace h₁ := h.trans h₁
  rw [wp_bind]
  refine copyExten_rule (h₁.alive halive) hb₁ (fun w₂ h₂ hb₂ hu₂ => ?_)
    (fun w₂ h₂ hb₂ => hfail w₂ (h₁.trans h₂).scratch hb₂)
  replace h₂ := h₁.trans h₂
  rw [if_pos rfl, wp_bind]
  -- the source stores the line and the extension a second time
  refine setRequestLine_rule (h₂.alive halive) hb₂ fun w₃ h₃ hb₃ hu₃ => ?_
  rw [putLineNul_copying h₂, putLineNul_idem] at hb₃
  replace h₃ := h₂.trans h₃
  rw [wp_bind]
  refine copyExten_rule (h₃.alive halive) hb₃ (fun w₄ h₄ hb₄ hu₄ => ?_)
    (fun w₄ h₄ hb₄ => hfail w₄ (h₃.trans h₄).scratch hb₄)
  replace h₄ := h₃.trans h₄
  rw [if_pos rfl, wp_bind]
  have hu : w₄.r.uri = w.r.uri := hu₄.trans (hu₃.trans (hu₂.trans hu₁))
  refine allocate_rule (fun n => ?_)
    (fun n _ => hfail _ (h₄.trans (copying_alloced w₄ n)).scratch hb₄)
  have h₅ := h₄.trans (copying_alloced w₄ n)
  rw [if_pos rfl, wp_bind, wp_modifyRequest (h₅.alive halive), wp_bind]
  generalize hw₆ : (w₄.alloced n).onR _ = w₆
  have h₆ : Copying w₀ w₆ := hw₆ ▸ h₅.trans (copying_onR _ _ rfl)
  have hb₆ : w₆.c.buf = some (putLineNul w₀.r.parse b) := by rw [← hw₆]; exact hb₄
  have hu₆ : w₆.r.uri = w.r.uri := by rw [← hw₆]; exact hu
  have hh₆ : w₆.r.headersIn.headers.entries = [] := by rw [← hw₆]; rfl
  unfold arrayInit
  rw [wp_bind]
  refine allocate_rule (fun n => ?_) (fun n _ => ?_)
  · have h₇ := h₆.trans (copying_alloced w₆ n)
    rw [if_pos rfl, wp_bind, wp_modifyRequest (h₇.alive halive), wp_bind, wp_get, wp_pure]
    have h₈ := h₇.trans (copying_onR (w₆.alloced n) (fun r => { r with
      headersIn := { r.headersIn with cookies := ⟨[], 5⟩ } }) rfl)
    split
    · exact hfail _ h₈.scratch hb₆
    · rw [wp_bind, wp_modify]
      refine hok _ ⟨h₈.conf, ⟨b, hb₀, ?_, ?_⟩, h₈.hc, h₈.home, h₈.pool, h₈.parse, h₈.headersOut,
        h₈.response, hh₆, h₈.headersN, rfl, h₈.fields, h₈.k, h₈.recvs, h₈.t⟩
      · show { w₆.c with readHandler := .processRequestHeaders } = _
        rw [h₆.c, hb₆]
        rfl
      · show CopiedUri w₀.r.parse b w₆.r.uri
        rw [hu₆]
        exact huri
  · rw [if_neg (by simp), wp_pure, if_pos rfl]
    exact hfail _ (h₆.trans (copying_alloced w₆ n)).scratch hb₆

theorem copyUri_rule {Q : Unit → World → Prop} {b : Buf}
    (halive : w.r.home ∉ w.t.destroyed) (hb : w.c.buf = some b)
    (hok : ∀ w', Stored w w' → wp processRequestHeaders Q E w')
    (hfail : ∀ w', w.Scratch w' → w'.c.buf = some b ∨ w'.c.buf = some (putLineNul w.r.parse b) →
      Q () w'.closeBoth) :
    wp Http.copyUri Q E w := by
  unfold Http.copyUri
  rw [wp_bind, wp_getRequest halive, wp_bind, wp_getHeaderInBuf halive hb]
  dsimp only
  rw [wp_bind]
  refine palloc_rule (fun n area _ => ?_)
    (fun n _ => hfail _ (copying_alloced w n).scratch (Or.inl hb))
  have h₁ := copying_alloced w n
  dsimp only
  rw [wp_bind, wp_modifyRequest (h₁.alive halive), wp_bind]
  generalize hw₂ : (w.alloced n).onR _ = w₂
  have h₂ : Copying w w₂ := hw₂ ▸ h₁.trans (copying_onR _ _ rfl)
  have hb₂ : w₂.c.buf = some b := by rw [← hw₂]; exact hb
  have hp₂ : w₂.r.parse = w.r.parse := by rw [← hw₂]; rfl
  refine palloc_rule (fun n area hlen => ?_)
    (fun n _ => hfail _ (h₂.trans (copying_alloced w₂ n)).scratch (Or.inl hb₂))
  have hnul : ∀ w', w.Scratch w' → w'.c.buf = some (putLineNul w.r.parse b) → Q () w'.closeBoth :=
    fun w' hs hbuf => hfail w' hs (Or.inr hbuf)
  have h₃ := h₂.trans (copying_alloced w₂ n)
  dsimp only
  by_cases hcomplex : w.r.parse.complexUri = true
  · rw [if_pos hcomplex, wp_bind, wp_modifyRequest (h₃.alive halive), wp_bind]
    have h₄ := h₃.trans (copying_onR (w₂.alloced n)
      (fun r => { r with uri := ⟨w.r.parse.uriLen, area⟩ }) rfl)
    refine parseComplexUri_rule (h₄.alive halive) hb₂
      (by rw [World.onR_r, World.alloced_r, hp₂]; exact hcomplex)
      (by rw [World.onR_r, World.alloced_r, hp₂]; exact hlen)
      (by rw [World.onR_r, World.alloced_r, hp₂]) (fun w₅ h₅ hb₅ hu₅ => ?_)
      (fun w₅ rc h₅ hb₅ hrc => ?_)
    · rw [if_pos rfl]
      rw [World.onR_r, World.alloced_r, hp₂] at hu₅
      exact requestLineParsed_rule halive (h₄.trans h₅) hb hb₅ hu₅ hok hnul
    · rw [if_neg hrc]
      exact hfail _ (h₄.trans h₅).scratch (Or.inl hb₅)
  · rw [if_neg hcomplex, wp_bind, wp_modifyRequest (h₃.alive halive)]
    have h₄ := h₃.trans (copying_onR (w₂.alloced n) (fun r => { r with
      uri := ⟨w.r.parse.uriLen,
        cpystrn area (b.bytes.drop w.r.parse.uriStart) (w.r.parse.uriLen + 1)⟩ }) rfl)
    exact requestLineParsed_rule halive h₄ hb hb₂ (.plain (by simpa using hcomplex) hlen) hok hnul

theorem HeaderPushed.alive {w' : World} (h : HeaderPushed w w')
    (hw : w.r.home ∉ w.t.destroyed) : w'.r.home ∉ w'.t.destroyed := by
  rw [h.r, h.t]
  exact hw

theorem HeaderPushed.scratch {w' : World} (h : HeaderPushed w w') : w.Scratch w' := by
  obtain ⟨b, -, hc⟩ := h.c
  exact ⟨h.conf, by rw [hc], by rw [hc], by rw [hc], by rw [hc], by rw [h.r], by rw [h.r], h.k,
    by rw [h.t]⟩

theorem HeaderPushed.onHeadersIn {w' : World} (h : HeaderPushed w w') (f : HeadersIn → HeadersIn)
    (hf : ∀ hs, (f hs).headers = hs.headers) (n : List Allocation) :
    HeaderPushed w ((w'.alloced n).onR fun r => { r with headersIn := f r.headersIn }) := by
  refine ⟨h.conf, h.c, h.hc, ?_, ?_, h.headersN, h.k.trans ⟨rfl, rfl, rfl, rfl, fun _ h => h⟩, h.recvs, h.t⟩
  · simp only [World.onR, World.alloced, World.onK]
    rw [h.r]
  · show (f w'.r.headersIn).headers.entries = _
    rw [hf]
    exact h.headers

theorem noteHeader_rule {Q : Bool → World → Prop} {w₀ : World} {key : List UInt8}
    {len place : Nat} (halive : w₀.r.home ∉ w₀.t.destroyed) (h : HeaderPushed w₀ w)
    (hok : ∀ w', HeaderPushed w₀ w' → (w'.r.headersIn.cookies.data, w'.r.headersIn.fields) =
      w.r.headersIn.noted key len place → Q true w')
    (hfail : ∀ w', w₀.Scratch w' → w'.c.buf = w.c.buf → Q false w') :
    wp (noteHeader key len place) Q E w := by
  unfold noteHeader
  split
  · rename_i hcookie
    have store : ∀ n nblock, wp (pushCookie.store place nblock) Q E (w.alloced n) := by
      intro n nblock
      unfold pushCookie.store
      rw [wp_bind, wp_modifyRequest (w := w.alloced n) (h.alive halive), wp_pure]
      refine hok _ (h.onHeadersIn
        (fun hs => { hs with cookies := ⟨hs.cookies.data ++ [place], nblock⟩ }) (fun _ => rfl) n) ?_
      unfold HeadersIn.noted
      rw [if_pos hcookie]
      rfl
    unfold pushCookie
    rw [wp_bind, wp_getRequest (h.alive halive), wp_bind, wp_get]
    split
    · split
      · rw [wp_bind, growInPlace, wp_modify]
        exact store _ _
      · rw [wp_bind]
        refine allocate_rule (fun n => ?_)
          (fun n _ => hfail _ (h.scratch.trans (scratch_alloced w n)) rfl)
        rw [if_pos rfl]
        exact store n _
    · exact store w.k.allocs _
  · rename_i hcookie
    split
    · rename_i f hf
      rw [wp_bind, wp_modifyRequest (h.alive halive), wp_pure]
      refine hok _ (h.onHeadersIn
        (fun hs => { hs with fields := Function.update hs.fields f (some place) })
        (fun _ => rfl) w.k.allocs) ?_
      unfold HeadersIn.noted
      rw [if_neg hcookie, hf]
      rfl
    · rename_i hf
      refine hok _ h ?_
      unfold HeadersIn.noted
      rw [if_neg hcookie, hf]

theorem headerLineParsed_rule {Q : Bool → World → Prop} {b : Buf}
    (halive : w.r.home ∉ w.t.destroyed) (hb : w.c.buf = some b)
    (hok : ∀ w', HeaderStored w w' → Q true w')
    (hfail : ∀ w', w.Scratch w' →
      w'.c.buf = some b ∨ w'.c.buf = some (terminateHeader b w.r.parse.header) → Q false w') :
    wp headerLineParsed Q E w := by
  unfold headerLineParsed
  rw [wp_bind, wp_modifyRequest halive, wp_bind]
  have hs₁ : w.Scratch (w.onR fun r => { r with headersN := r.headersN + 1 }) :=
    scratch_onR w _ rfl rfl
  rw [wp_getRequest (hs₁.alive halive), wp_bind]
  refine listRoom_rule (fun n => ?_)
    (fun n _ => hfail _ (hs₁.trans (scratch_alloced _ n)) (Or.inl hb))
  have hs₂ := hs₁.trans (scratch_alloced _ n)
  rw [if_pos rfl]
  dsimp only
  rw [wp_bind, wp_modifyRequest (hs₂.alive halive), wp_bind]
  rw [wp_getHeaderInBuf (b := b) (by exact halive) (by exact hb), wp_bind,
    wp_setHeaderInBuf (by exact halive)]
  have hpushed : HeaderPushed w (((((w.onR fun r => { r with headersN := r.headersN + 1 }).alloced
      n).onR fun r => { r with headersIn := { r.headersIn with
        headers := r.headersIn.headers.push w.r.parse.header } }).setBuf
          (terminateHeader b w.r.parse.header))) := by
    refine ⟨rfl, ⟨b, hb, rfl⟩, rfl, rfl, ?_, rfl, ?_, rfl, rfl⟩
    · exact EList.entries_push _ _
    · exact ⟨rfl, rfl, rfl, rfl, fun _ h => h⟩
  refine noteHeader_rule halive hpushed (fun w' h' hnoted => hok w' ⟨h', ?_⟩)
    (fun w' hs hbuf => hfail w' hs (Or.inr hbuf))
  intro b' hb'
  rw [hb] at hb'
  cases hb'
  exact hnoted

open Relation

/-- From the point `s`, the program walks along the moves, back to the event loop
or to where it stops. -/
abbrev Goes (s : Pc × World) (x : Handler Unit) (w : World) : Prop :=
  Walks Move .loop .stopped s x w

theorem NextSend.length_lt {k k' : Kernel} {x : SendResult} (h : World.NextSend k k' x) :
    k'.sends.length < k.sends.length := by
  obtain ⟨skipped, -, hs⟩ := h
  rw [hs, List.length_append, List.length_cons]
  omega

theorem Stalled.scratch {w' : World} (h : w.Stalled w') : w.Scratch w' where
  conf := h.conf
  slot := by rw [h.c]
  id := by rw [h.c]
  fd := by rw [h.c]
  pool := by rw [h.c]
  home := by rw [h.r]
  requestPool := by rw [h.r]
  k := h.k
  t := by rw [h.t]

/-- The rounds of the writer, by induction on the results to come. -/
theorem writerLoop_goes : ∀ (fuel last : Nat) (w : World), Ctl (.write last) w →
    w.k.sends.length < fuel → Goes (.write last, w) (writerLoop fuel last) w := by
  intro fuel
  induction fuel with
  | zero => exact fun last w _ hlt => absurd hlt (Nat.not_lt_zero _)
  | succ fuel ih =>
    intro last w h hlt
    have htwo := h.1.two
    have hlast := h.2
    obtain ⟨b, hb⟩ : ∃ b, w.r.response.data[last]? = some b :=
      ⟨_, List.getElem?_eq_getElem (by omega)⟩
    have hsent : ∀ (last' : Nat) (w' : World) (n m : Nat), w.Wrote w' last b n (.sent m) →
        n < b.left ∧ last' = last ∨ n = b.left ∧ last' = last + 1 → last' < 2 →
        Goes (.write last, w) (writerLoop fuel last') w' := by
      intro last' w' n m hw hnext hlast'
      have hmove : Move (.write last, w) (.write last', w') := .sent hb hw hnext hlast'
      have hdec := NextSend.length_lt hw.sends
      exact Walks.move hmove (ih last' w' (Move.ctl h hmove) (by omega))
    refine writerLoop_rule hb (h.1.sendable b (List.mem_of_getElem? hb)) ⟨?_, ?_, ?_, ?_, ?_, ?_⟩
    · intro w' m n hw _ _ hlt'
      exact hsent last w' n m hw (Or.inl ⟨hlt', rfl⟩) hlast
    · intro w' m hw _ _ hne
      exact hsent (last + 1) w' _ m hw (Or.inr ⟨rfl, rfl⟩) (by omega)
    · intro w' m hw hpos _ hend
      obtain rfl : last = 1 := by omega
      have hresp := h.1.wrote hb hw
      obtain ⟨inBuf, hbuf, -⟩ := hresp.buf
      obtain ⟨pool, hpool, -⟩ := hresp.requestPool
      refine keepAlive_rule hresp.toServing.alive hbuf hpool ?_ fun hr => ?_
      · exact .single (.keepAlive hb hw hpos hbuf hpool)
      · exact .single (.keepAliveFails hb hw hpos hbuf hpool (hw.k.epollFails.1 hr))
    · intro w' hw hpos
      exact .single (.full hb hw hpos)
    · intro w' hw _
      exact .single (.fail trivial (Stalled.scratch hw))
    · intro _ w' _ hw
      exact .single (.stop trivial (Stalled.scratch hw))

/-- From a complete head to the rounds of the writer. -/
theorem handler_goes (h : Ctl .hand w) : Goes (.hand, w) handler w := by
  obtain ⟨b, hb, -⟩ := h.buf
  obtain ⟨cp, hcp, -⟩ := h.toOpen.pool
  have hhand : Move (.hand, w) (.build, w.handing b) := .hand hb
  have hbuild : Ctl .build (w.handing b) := Move.ctl h hhand
  have hline : w.r.headersOut.statusLine = none := by rw [h.headersOut]; rfl
  refine handler_rule h.toServing.alive hb hline ?_ ?_
  · intro w' hw hr
    exact .head hhand (.single (.buildFails hw.scratch hr))
  · intro w' f ha _
    have hs := ha.toFilling.scratch
    have hbegin : w'.r.response.begin = false := by
      rw [ha.response]
      show w.r.response.begin = false
      rw [h.response]
    have hdata : w'.c.data = .request := by
      rw [ha.c]
      exact h.data
    refine startWriting_rule (hs.alive h.toServing.alive) hdata (hs.pool.trans hcp) hbegin ?_ ?_
    · have hmove : Move (.build, w.handing b) (.write 0, w'.writing) := .build ha
      exact Walks.move hhand (Walks.move hmove
        (writerLoop_goes _ _ _ (Move.ctl hbuild hmove) (Nat.lt_succ_self _)))
    · intro hr
      exact .head hhand (.single (.buildStops ha (hs.k.epollFails.1 hr)))

/-- The bytes that have not been parsed and the results of `recv` to come. -/
def pending (w : World) : Nat :=
  w.k.recvBudget + match w.c.buf with
    | some b => b.unread.length
    | none => 0

theorem pending_of_buf {b : Buf} (hb : w.c.buf = some b) :
    pending w = w.k.recvBudget + b.unread.length := by
  unfold pending
  rw [hb]

theorem pending_parsed {b b' : Buf} {p : ParseState} (hb : w.c.buf = some b)
    (hadv : Advances b b') :
    pending (w.parsed p b') + b'.pos = pending w + b.pos := by
  have hlen := hadv.unread_length
  have hnew : pending (w.parsed p b') = w.k.recvBudget + b'.unread.length := rfl
  rw [hnew, pending_of_buf hb]
  omega

theorem pending_headerStored {w' : World} (h : HeaderStored w w') : pending w' = pending w := by
  obtain ⟨b, hb, hc⟩ := h.c
  have hbudget : w'.k.recvBudget = w.k.recvBudget := by
    unfold Kernel.recvBudget
    rw [h.recvs]
  rw [pending_of_buf (b := terminateHeader b w.r.parse.header) (by rw [hc]), pending_of_buf hb,
    hbudget]
  simp [terminateHeader, Buf.putNul, Buf.unread]

theorem pending_recv {w' : World} {b : Buf} {bs : List UInt8} (h : Serving w)
    (hb : w.c.buf = some b) (hnil : b.unread = []) (ht : w.Took w' bs) :
    pending ((w'.noteRecv b bs.length).setBuf (b.append bs)) ≤ pending w := by
  have hbudget := ht.budget
  have hpos := (h.inBuf hb).pos
  have hlen : (b.append bs).unread.length = bs.length := by
    have hnil' : b.unread.length = 0 := by rw [hnil]; rfl
    simp only [Buf.unread, Buf.append, Buf.last, List.length_drop, List.length_append] at *
    omega
  have hnew : pending ((w'.noteRecv b bs.length).setBuf (b.append bs)) =
      w'.k.recvBudget + (b.append bs).unread.length := rfl
  rw [hnew, hlen, pending_of_buf hb, hnil]
  simpa using hbudget

theorem runParseHeaderLine_rule {Q : Rc → World → Prop} {b b' : Buf} {rc : Rc} {p : ParseState}
    (halive : w.r.home ∉ w.t.destroyed) (hb : w.c.buf = some b)
    (hp : parseHeaderLine w.r.parse b = (rc, p, b')) (hQ : Q rc (w.parsed p b')) :
    wp runParseHeaderLine Q E w := by
  unfold runParseHeaderLine
  rw [wp_bind, wp_getHeaderInBuf halive hb, wp_bind, wp_getRequest halive, hp]
  dsimp only
  rw [wp_bind, wp_modifyRequest halive, wp_bind, wp_setHeaderInBuf (by exact halive), wp_pure]
  exact hQ

theorem runParseRequestLine_rule {Q : Rc → World → Prop} {b b' : Buf} {rc : Rc} {p : ParseState}
    (halive : w.r.home ∉ w.t.destroyed) (hb : w.c.buf = some b)
    (hp : parseRequestLine w.r.parse b = (rc, p, b')) (hQ : Q rc (w.parsed p b')) :
    wp runParseRequestLine Q E w := by
  unfold runParseRequestLine
  rw [wp_bind, wp_getHeaderInBuf halive hb, wp_bind, wp_getRequest halive, hp]
  dsimp only
  rw [wp_bind, wp_modifyRequest halive, wp_bind, wp_setHeaderInBuf (by exact halive), wp_pure]
  exact hQ

theorem InBuf.room_pos {b : Buf} (h : InBuf b) (hnil : b.unread = []) (hpos : b.pos ≠ b.size) :
    0 < b.room := by
  have hlen : b.unread.length = 0 := by rw [hnil]; rfl
  have hle := h.pos
  have hlast := h.last
  simp only [Buf.unread, Buf.last, Buf.room, List.length_drop] at *
  omega

theorem Ctl.room_pos {b : Buf} (h : Ctl .line w) (hin : InBuf b) (hb : w.c.buf = some b)
    (hnil : b.unread = []) : 0 < b.room := by
  obtain ⟨-, -, b', hb', hpos⟩ := h
  have hsame : b' = b := Option.some.inj (hb'.symm.trans hb)
  rw [hsame] at hpos
  exact hin.room_pos hnil (hpos hnil).ne

/-- The rounds of `ehd_http_process_request_headers` that `fuel` is enough for. -/
def HeaderRounds (fuel : Nat) : Prop :=
  ∀ (rc : Rc) (w : World), Ctl (.headers rc) w → rc = .again ∨ rc = .ok →
    2 * pending w + (if rc = .ok then 1 else 0) < fuel →
    Goes (.headers rc, w) (processRequestHeadersLoop fuel rc) w

def headerRound (fuel : Nat) : Handler Unit := do
  match ← runParseHeaderLine with
  | .ok => if ← headerLineParsed then processRequestHeadersLoop fuel .ok else closeBoth
  | .headerDone => headersDone
  | .again => processRequestHeadersLoop fuel .again
  | _ => closeBoth

theorem headersDone_goes {b b' : Buf} {p : ParseState} (h : Ctl .parseHeader w)
    (hb : w.c.buf = some b) (hp : parseHeaderLine w.r.parse b = (.headerDone, p, b')) :
    Goes (.parseHeader, w) headersDone (w.parsed p b') := by
  unfold headersDone
  have hmove : Move (.parseHeader, w) (.hand, (w.parsed p b').onC fun c => { c with
      readHandler := .blockRead }) := .headersDone hb hp
  have halive : (w.parsed p b').r.home ∉ (w.parsed p b').t.destroyed := h.1.toServing.alive
  show wp _ _ _ _
  rw [wp_bind, wp_modifyRequest halive, wp_bind]
  unfold processRequestHeader
  rw [wp_pure, if_neg (by simp), wp_bind, wp_modify]
  exact Walks.move hmove (handler_goes (Move.ctl h hmove))

theorem scratch_parsed (w : World) (p : ParseState) (b : Buf) : w.Scratch (w.parsed p b) :=
  (scratch_onR w (fun r => { r with parse := p }) rfl rfl).trans (scratch_setBuf _ b)

/-- A round that has bytes to parse goes on, with less to do, or ends. -/
theorem headerRound_goes {fuel : Nat} {b : Buf} (ih : HeaderRounds fuel)
    (h : Ctl .parseHeader w) (hb : w.c.buf = some b) (hfuel : 2 * pending w ≤ fuel)
    (hnil : b.unread = [] → 2 * pending w < fuel) : Goes (.parseHeader, w) (headerRound fuel) w := by
  unfold headerRound
  obtain ⟨rc, p, b', hp⟩ : ∃ rc p b', parseHeaderLine w.r.parse b = (rc, p, b') := ⟨_, _, _, rfl⟩
  have halive := h.1.toServing.alive
  have hadv := parseHeaderLine_advances hp
  have hpend := pending_parsed (p := p) hb hadv
  have hfail : Goes (.parseHeader, w) closeBoth (w.parsed p b') :=
    .single (.fail trivial (scratch_parsed w p b'))
  show wp _ _ _ _
  rw [wp_bind]
  refine runParseHeaderLine_rule halive hb hp ?_
  cases rc with
  | ok =>
    -- with nothing to read the parser does not say it has a line
    have hne : b.unread ≠ [] := by
      intro hnil'
      obtain ⟨r', hloop, -⟩ := parseHeaderLine_ok hp
      rw [hnil'] at hloop
      injection hloop with hst
      have hin := h.2.2
      unfold ParseState.InHeaders at hin
      rw [hst] at hin
      cases hin
    -- the line read pays for the next round
    have hlt := parseHeaderLine_progress h.2.2 hne hp (Or.inl rfl)
    dsimp only
    rw [wp_bind]
    refine headerLineParsed_rule (b := b') halive rfl (fun w' hs => ?_) (fun w' hs _ => ?_)
    · have hmove : Move (.parseHeader, w) (.headers .ok, w') := .headerDone hb hp hs
      have hpend' := pending_headerStored hs
      rw [if_pos rfl]
      refine Walks.move hmove (ih .ok w' (Move.ctl h hmove) (Or.inr rfl) ?_)
      rw [if_pos rfl]
      omega
    · rw [if_neg (by simp)]
      exact .single (.fail trivial ((scratch_parsed w p b').trans hs))
  | again =>
    have hmove : Move (.parseHeader, w) (.headers .again, w.parsed p b') := .headerMore hb hp
    refine Walks.move hmove (ih .again _ (Move.ctl h hmove) (Or.inl rfl) ?_)
    rw [if_neg (by simp)]
    -- without a byte to read the stage itself is the progress
    by_cases hnil' : b.unread = []
    · have := hnil hnil'
      have := hadv.le
      omega
    · have := parseHeaderLine_progress h.2.2 hnil' hp (Or.inr rfl)
      omega
  | headerDone => exact headersDone_goes h hb hp
  | error => exact hfail
  | invalidMethod => exact hfail
  | invalidRequest => exact hfail
  | tooLongUri => exact hfail
  | invalid09Method => exact hfail
  | invalidHeader => exact hfail
  | internalServerError => exact hfail

/-- The rounds over the header block, by induction on the fuel: a round after
`EHD_AGAIN` takes a byte, and a round after a header costs one. -/
theorem headerRounds : ∀ fuel, HeaderRounds fuel := by
  intro fuel
  induction fuel with
  | zero => exact fun rc w _ _ hlt => absurd hlt (Nat.not_lt_zero _)
  | succ fuel ih =>
    intro rc w h hrc hfuel
    obtain ⟨b, hb, hin⟩ := h.1.buf
    have halive := h.1.toServing.alive
    have hunfold : processRequestHeadersLoop (fuel + 1) rc =
        (do if ← requestHeadersRead rc then headerRound fuel else return ()) := rfl
    rw [hunfold]
    show wp _ _ _ _
    rw [wp_bind]
    unfold requestHeadersRead
    rcases hrc with rfl | rfl
    · rw [if_neg (by simp)] at hfuel
      rw [if_pos rfl, wp_bind, wp_getHeaderInBuf halive hb]
      -- a full buffer ends the request
      by_cases hfull : b.pos = b.size
      · rw [if_pos hfull, wp_bind, wp_modify, wp_bind, wp_closeBoth, wp_pure]
        exact .single (.noRoom (.headers hb hfull) (.refl _))
      · rw [if_neg hfull, wp_bind]
        -- and there is room in any other
        have hroom : b.unread = [] → 0 < b.room := fun hnil => hin.room_pos hnil hfull
        have hclose : b.unread = [] → ∀ w₁ n, w.Took w₁ [] → n = 0 ∨ n = EHD_ERROR →
            Relation.ReflTransGen Move (.headers .again, w)
              (.loop, (w₁.noteRecv b n).closeBoth.closeBoth) :=
          fun hnil w₁ n ht hn => .single (.hangupTwice hb (hroom hnil) ht hn)
        refine readRequestHeader_rule halive hb (fun hne => ?_) (fun hnil w₁ bs ht hne hlen => ?_)
          (fun hnil => ?_) (fun hnil w₁ ht => ?_) (fun hnil w₁ n ht hn => ?_)
          (fun hnil w₁ ht => ?_)
        · have hmove : Move (.headers .again, w) (.parseHeader, w) := .have .headers hb hne
          have hpos := not_hangup_of_pos (List.length_pos_iff.2 hne)
          have hagain : (b.unread.length : Int) ≠ EHD_AGAIN := by unfold EHD_AGAIN; omega
          rw [if_neg hagain, if_neg hpos.2, wp_pure]
          exact Walks.move hmove (headerRound_goes ih (Move.ctl h hmove) hb (by omega)
            fun hnil => absurd hnil hne)
        · have hmove : Move (.headers .again, w)
              (.parseHeader, (w₁.noteRecv b bs.length).setBuf (b.append bs)) :=
            .recv .headers hb hnil (hroom hnil) ht hne hlen
          have hpos := not_hangup_of_pos (List.length_pos_iff.2 hne)
          have hagain : (bs.length : Int) ≠ EHD_AGAIN := by unfold EHD_AGAIN; omega
          have hpend := pending_recv h.1.toServing hb hnil ht
          rw [if_neg hagain, if_neg hpos.2, wp_pure]
          exact Walks.move hmove (headerRound_goes ih (Move.ctl h hmove) rfl (by omega)
            fun hnil' => absurd hnil' (hin.unread_append hne))
        · rw [if_pos rfl, wp_pure]
          exact .single (.idle .headers hb hnil)
        · rw [if_pos rfl, wp_pure]
          exact .single (.wait .headers hb hnil (hroom hnil) ht)
        · rw [if_neg (by decide), if_pos rfl, wp_bind, wp_closeBoth, wp_pure]
          exact hclose hnil w₁ n ht hn
        · exact .single (.stop trivial (Took.scratch ht))
    · rw [if_pos rfl] at hfuel
      rw [if_neg (by simp), wp_pure]
      have hmove : Move (.headers .ok, w) (.parseHeader, w) := .headerNext
      exact Walks.move hmove (headerRound_goes ih (Move.ctl h hmove) hb (by omega)
        fun _ => by omega)

theorem processRequestHeaders_goes (h : Ctl (.headers .again) w) :
    Goes (.headers .again, w) processRequestHeaders w := by
  obtain ⟨b, hb, -⟩ := h.1.buf
  unfold processRequestHeaders
  show wp _ _ _ _
  rw [wp_bind, wp_get, h.1.data]
  dsimp only
  rw [wp_bind, wp_getHeaderInBuf h.1.toServing.alive hb, wp_bind, wp_get]
  refine headerRounds _ _ _ h (Or.inl rfl) ?_
  rw [if_neg (by simp), pending_of_buf hb]
  omega

def lineRound (fuel : Nat) : Handler Unit := do
  match ← runParseRequestLine with
  | .ok => copyUri
  | .again =>
    let b ← getHeaderInBuf
    if b.pos = b.size then
      modify World.noteNoRoom
      closeBoth
    else processRequestLineLoop fuel
  | _ => closeBoth

/-- A round of `ehd_http_process_request_line`: when the parser asks for more, it has taken all
that was unread. -/
theorem lineRound_goes {fuel : Nat} {b : Buf}
    (ih : ∀ w, Ctl .line w → pending w < fuel → Goes (.line, w) (processRequestLineLoop fuel) w)
    (h : Ctl .parseLine w) (hb : w.c.buf = some b) (hne : b.unread ≠ [])
    (hfuel : pending w ≤ fuel) : Goes (.parseLine, w) (lineRound fuel) w := by
  unfold lineRound
  obtain ⟨rc, p, b', hp⟩ : ∃ rc p b', parseRequestLine w.r.parse b = (rc, p, b') := ⟨_, _, _, rfl⟩
  have halive := h.1.toServing.alive
  have hadv := parseRequestLine_advances hp
  have hpend := pending_parsed (p := p) hb hadv
  have hfail : Goes (.parseLine, w) closeBoth (w.parsed p b') :=
    .single (.fail trivial (scratch_parsed w p b'))
  show wp _ _ _ _
  rw [wp_bind]
  refine runParseRequestLine_rule halive hb hp ?_
  cases rc with
  | ok =>
    have hmove : Move (.parseLine, w) (.copyUri, w.parsed p b') := .lineDone hb hp
    have hctl := Move.ctl h hmove
    refine copyUri_rule (b := b') halive rfl (fun w' hs => ?_) (fun w' hs _ => ?_)
    · have hmove' : Move (.copyUri, w.parsed p b') (.headers .again, w') := .stored hs
      exact Walks.move hmove (Walks.move hmove'
        (processRequestHeaders_goes (Move.ctl hctl hmove')))
    · exact .head hmove (.single (.fail trivial hs))
  | again =>
    dsimp only
    rw [wp_bind, wp_getHeaderInBuf (b := b') (by exact halive) (by exact rfl)]
    by_cases hfull : b'.pos = b'.size
    · rw [if_pos hfull, wp_bind, wp_modify]
      exact .single (.noRoom (.line hb hp hfull) (scratch_parsed w.noteNoRoom p b'))
    · rw [if_neg hfull]
      have hmove : Move (.parseLine, w) (.line, w.parsed p b') := .lineMore hb hp hfull
      obtain ⟨st, r', hloop, hst, -⟩ := parseRequestLine_again hp
      have hall := (Scanner.scan_exit hloop).2.2 (by simpa using hst)
      have hlen : 0 < b.unread.length := List.length_pos_iff.2 hne
      exact Walks.move hmove (ih _ (Move.ctl h hmove) (by omega))
  | headerDone => exact hfail
  | error => exact hfail
  | invalidMethod => exact hfail
  | invalidRequest => exact hfail
  | tooLongUri => exact hfail
  | invalid09Method => exact hfail
  | invalidHeader => exact hfail
  | internalServerError => exact hfail

/-- The rounds of `ehd_http_process_request_line`, by induction on the fuel: each
takes all that is unread. -/
theorem lineRounds : ∀ (fuel : Nat) (w : World), Ctl .line w → pending w < fuel →
    Goes (.line, w) (processRequestLineLoop fuel) w := by
  intro fuel
  induction fuel with
  | zero => exact fun w _ hlt => absurd hlt (Nat.not_lt_zero _)
  | succ fuel ih =>
    intro w h hfuel
    obtain ⟨b, hb, hin⟩ := h.1.buf
    have hroom : b.unread = [] → 0 < b.room := fun hnil => h.room_pos hin hb hnil
    have halive := h.1.toServing.alive
    have hunfold : processRequestLineLoop (fuel + 1) = (do
        let n ← readRequestHeader
        if n = EHD_AGAIN then return ()
        else if n = EHD_ERROR then return ()
        else lineRound fuel) := rfl
    rw [hunfold]
    show wp _ _ _ _
    rw [wp_bind]
    refine readRequestHeader_rule halive hb (fun hne => ?_) (fun hnil w₁ bs ht hne hlen => ?_)
      (fun hnil => ?_) (fun hnil w₁ ht => ?_) (fun hnil w₁ n ht hn => ?_) (fun hnil w₁ ht => ?_)
    · have hmove : Move (.line, w) (.parseLine, w) := .have .line hb hne
      have hpos := not_hangup_of_pos (List.length_pos_iff.2 hne)
      have hagain : (b.unread.length : Int) ≠ EHD_AGAIN := by unfold EHD_AGAIN; omega
      rw [if_neg hagain, if_neg hpos.2]
      exact Walks.move hmove (lineRound_goes ih (Move.ctl h hmove) hb hne (by omega))
    · have hmove : Move (.line, w) (.parseLine, (w₁.noteRecv b bs.length).setBuf (b.append bs)) :=
        .recv .line hb hnil (hroom hnil) ht hne hlen
      have hpos := not_hangup_of_pos (List.length_pos_iff.2 hne)
      have hagain : (bs.length : Int) ≠ EHD_AGAIN := by unfold EHD_AGAIN; omega
      have hpend := pending_recv h.1.toServing hb hnil ht
      rw [if_neg hagain, if_neg hpos.2]
      exact Walks.move hmove
        (lineRound_goes ih (Move.ctl h hmove) rfl (hin.unread_append hne) (by omega))
    · rw [if_pos rfl, wp_pure]
      exact .single (.idle .line hb hnil)
    · rw [if_pos rfl, wp_pure]
      exact .single (.wait .line hb hnil (hroom hnil) ht)
    · rw [if_neg (by decide), if_pos rfl, wp_pure]
      exact .single (.hangup hb (hroom hnil) ht hn)
    · exact .single (.stop trivial (Took.scratch ht))

theorem processRequestLine_goes (h : Ctl .line w) : Goes (.line, w) processRequestLine w := by
  obtain ⟨b, hb, -⟩ := h.1.buf
  unfold processRequestLine
  show wp _ _ _ _
  rw [wp_bind, wp_get, h.1.data]
  dsimp only
  rw [wp_bind, wp_getHeaderInBuf h.1.toServing.alive hb, wp_bind, wp_get]
  refine lineRounds _ _ h ?_
  rw [pending_of_buf hb]
  omega

def starting (w : World) : World :=
  w.onC fun c => { c with readHandler := .initRequest, writeHandler := some .empty }

theorem sameConnection_of {w w₁ w₂ : World} (hr : w.Reported w₁) (h : SameConnection w₁ w₂) :
    SameConnection w w₂ where
  conf := h.conf.trans hr.conf
  slot := by rw [h.slot, hr.c]
  id := by rw [h.id, hr.c]
  fd := by rw [h.fd, hr.c]
  pool := by rw [h.pool, hr.c]
  k := by
    have hk := h.k
    rw [hr.k] at hk
    exact hk
  t := h.t.trans hr.t

/-- What has to be shown of `ehd_http_init_request`: it reaches the request line, or
releases the connection, or the request and the connection. -/
structure StartRule (w : World) (Q : Unit → World → Prop) (E : Stop → World → Prop) : Prop where
  start : ∀ n, wp processRequestLine Q E
    (w.opened (w.c.buf.getD (.temp EHD_DEFAULT_BUF_SIZE)) n)
  fails : ∀ w', SameConnection w w' → Q () w'.closeConnection
  closes : ∀ n w', (w.opened (w.c.buf.getD (.temp EHD_DEFAULT_BUF_SIZE)) n).Scratch w' →
    Q () w'.closeBoth

/-- The request structure has been allocated from the connection pool. -/
def withRequest (w : World) (n : List Allocation) : World :=
  { w with
    c := { w.c with
      data := .request, readHandler := .initRequest, writeHandler := some .empty }
    hc := { request := true }
    r := { home := w.c.pool.getD 0 }
    k := { w.k with allocs := n } }

theorem setBuf_self {b : Buf} (hb : w.c.buf = some b) : w.setBuf b = w := by
  unfold World.setBuf World.onC
  rw [← hb]

theorem startPool_rule {Q : Unit → World → Prop} {b : Buf} {n : List Allocation} (hopen : Open w)
    (hb : w.c.buf.getD (.temp EHD_DEFAULT_BUF_SIZE) = b) (hrule : StartRule w Q E) :
    wp startRequest.startPool Q E ((withRequest w n).setBuf b) := by
  obtain ⟨cp, hcp, -, hmem⟩ := hopen.pool
  have hhome : w.c.pool.getD 0 ∉ w.t.destroyed := by rw [hcp]; exact hmem
  have hfails : ∀ m, SameConnection w (((withRequest w n).setBuf b).alloced m) :=
    fun m => ⟨rfl, rfl, rfl, rfl, rfl, ⟨rfl, rfl, rfl, rfl, fun _ h => h⟩, rfl⟩
  unfold startRequest.startPool
  rw [wp_bind]
  refine createPool_rule (fun m => ?_) (fun m _ => hrule.fails _ (hfails m))
  dsimp only
  rw [wp_bind, wp_modifyRequest (by exact hhome), wp_bind]
  refine allocate_rule (fun m' => ?_) (fun m' _ => ?_)
  · rw [if_pos rfl, wp_bind, wp_modifyRequest (by exact hhome), wp_bind, wp_modify]
    have hstart := hrule.start m'
    rw [hb] at hstart
    exact hstart
  · rw [if_neg (by simp), wp_closeBoth]
    refine hrule.closes m' _ ⟨rfl, rfl, rfl, rfl, rfl, rfl, rfl, ⟨rfl, rfl, rfl, rfl, ?_⟩, rfl⟩
    exact fun _ h => h

theorem startRequest_rule {Q : Unit → World → Prop} {n : List Allocation} (hopen : Open w)
    (hrule : StartRule w Q E) : wp startRequest Q E (withRequest w n) := by
  unfold startRequest
  rw [wp_bind, wp_get]
  cases hb : w.c.buf with
  | none =>
    rw [if_pos (by unfold withRequest; rw [hb]; rfl), wp_bind]
    refine createTempBuf_rule (fun m => ?_) (fun m _ => ?_)
    · dsimp only
      rw [wp_bind, wp_modify]
      exact startPool_rule (w := w) (n := m) hopen (by rw [hb]; rfl) hrule
    · exact hrule.fails _
        ⟨rfl, rfl, rfl, rfl, rfl, ⟨rfl, rfl, rfl, rfl, fun _ h => h⟩, rfl⟩
  | some b =>
    rw [if_neg (by unfold withRequest; rw [hb]; simp)]
    have hset : (withRequest w n).setBuf b = withRequest w n := setBuf_self hb
    rw [← hset]
    exact startPool_rule hopen (by rw [hb]; rfl) hrule

theorem initRequest_rule {Q : Unit → World → Prop} (hopen : Open w)
    (hdata : w.c.data = .null ∨ w.c.data = .httpConnection ∧ w.hc.request = false)
    (hrule : StartRule w Q E) : wp initRequest Q E (starting w) := by
  have hfails : ∀ w' : World, (w'.conf = w.conf ∧ w'.c.slot = w.c.slot ∧ w'.c.id = w.c.id ∧ w'.c.fd = w.c.fd ∧
      w'.c.pool = w.c.pool) → (∃ n, w'.k = { w.k with allocs := n }) → w'.t = w.t →
      Q () w'.closeConnection := by
    rintro w' ⟨h₀, h₁, h₂, h₃, h₄⟩ ⟨n, hk⟩ ht
    refine hrule.fails w' ⟨h₀, h₁, h₂, h₃, h₄, ?_, ht⟩
    rw [hk]
    exact ⟨rfl, rfl, rfl, rfl, fun _ h => h⟩
  have initWith : ∀ n, wp initRequest.initWith Q E
      { starting w with hc := { request := false }, k := { w.k with allocs := n } } := by
    intro n
    unfold initRequest.initWith newRequest
    rw [wp_bind, wp_bind, wp_get, if_neg (by simp), wp_bind]
    refine allocate_rule (fun m => ?_) (fun m _ => ?_)
    · rw [if_pos rfl, wp_bind, wp_modify, wp_pure, if_pos rfl, wp_bind, wp_modify]
      exact startRequest_rule (w := w) (n := m) hopen hrule
    · rw [if_neg (by simp), wp_pure, if_neg (by simp), wp_closeConnection]
      exact hfails _ ⟨rfl, rfl, rfl, rfl, rfl⟩ ⟨m, rfl⟩ rfl
  unfold initRequest
  rw [wp_bind, wp_get]
  rcases hdata with hdata | ⟨hdata, hreq⟩
  · have hdata' : (starting w).c.data = .null := hdata
    rw [hdata']
    dsimp only
    rw [wp_bind]
    refine allocate_rule (fun m => ?_) (fun m _ => ?_)
    · rw [if_pos rfl, wp_bind, wp_modify]
      exact initWith m
    · rw [if_neg (by simp), wp_closeConnection]
      exact hfails _ ⟨rfl, rfl, rfl, rfl, rfl⟩ ⟨m, rfl⟩ rfl
  · have hdata' : (starting w).c.data = .httpConnection := hdata
    rw [hdata']
    dsimp only
    have hsame : starting w =
        { starting w with hc := { request := false }, k := { w.k with allocs := w.k.allocs } } := by
      have hhc : w.hc = { request := false } := by
        cases hw : w.hc with
        | mk request => rw [hw] at hreq; rw [show request = false from hreq]
      unfold starting World.onC
      rw [hhc]
    rw [hsame]
    exact initWith _

theorem start_goes {w₁ : World} (h : Connected w ∨ Idle w) (hr : w.Reported w₁) :
    Goes (.loop, w) initRequest (starting w₁) := by
  have hopen : Open w₁ := Reported.open (start_open h) hr
  have hbuf : w₁.c.buf = w.c.buf := by rw [hr.c]
  have hin := inBuf_start h
  have hdata : w₁.c.data = .null ∨ w₁.c.data = .httpConnection ∧ w₁.hc.request = false := by
    rcases h with h | h
    · exact Or.inl (by rw [hr.c]; exact h.data)
    · exact Or.inr ⟨by rw [hr.c]; exact h.data, by rw [hr.hc]; exact h.request⟩
  refine initRequest_rule hopen hdata ⟨fun n => ?_, fun w' hs => ?_, fun n w' hs => ?_⟩
  · have hmove : Move (.loop, w)
        (.line, w₁.opened (w.c.buf.getD (.temp EHD_DEFAULT_BUF_SIZE)) n) := .start hr h
    have hctl : Ctl .loop w := by
      rcases h with h | h
      · exact .connected h
      · exact .idle h
    rw [hbuf]
    exact Walks.move hmove (processRequestLine_goes (Move.ctl hctl hmove))
  · exact .single (.startFails h (sameConnection_of hr hs))
  · rw [hbuf] at hs
    exact .single (.startCloses hr h hin.1 hs)

/-- The directions that an entry of `event_list` can carry: those registered, and
`EPOLLERR` and `EPOLLHUP`, which the loop does not look at. -/
def Registered (w : World) (events : UInt32) : Prop :=
  (events &&& EPOLLIN ≠ 0 → w.c.ev.events &&& EPOLLIN ≠ 0) ∧
    (events &&& EPOLLOUT ≠ 0 → w.c.ev.events &&& EPOLLOUT ≠ 0)

theorem readMask_directions : readMask &&& EPOLLIN ≠ 0 ∧ readMask &&& EPOLLOUT = 0 := by decide

theorem writeMask_directions : writeMask &&& EPOLLIN = 0 ∧ writeMask &&& EPOLLOUT ≠ 0 := by decide

/-- A connection that reads, and is readable. -/
theorem callReadHandler_goes {w₁ : World} (hr : w.Reported w₁)
    (h : Connected w ∨ Idle w ∨ Waiting w) : Goes (.loop, w) callReadHandler w₁ := by
  unfold callReadHandler
  show wp _ _ _ _
  rw [wp_bind, wp_get]
  rcases h with h | h | h
  · rw [show w₁.c.readHandler = .initConnection by rw [hr.c]; exact h.readHandler]
    dsimp only
    unfold initConnection
    rw [wp_bind, wp_modify, wp_bind, wp_get]
    have hclosed : w₁.c.ev.closed = false := hr.closed.trans h.closed
    rw [if_pos (by simp [hclosed])]
    exact start_goes (Or.inl h) hr
  · rw [show w₁.c.readHandler = .initRequest by rw [hr.c]; exact h.readHandler]
    dsimp only
    have hstarting : starting w₁ = w₁ := by
      have hrh : w₁.c.readHandler = .initRequest := by rw [hr.c]; exact h.readHandler
      have hwh : w₁.c.writeHandler = some .empty := by rw [hr.c]; exact h.writeHandler
      unfold starting World.onC
      rw [← hrh, ← hwh]
    rw [← hstarting]
    exact start_goes (Or.inr h) hr
  · rcases h.readHandler with hrh | ⟨hrh, -⟩
    · rw [show w₁.c.readHandler = .processRequestLine by rw [hr.c]; exact hrh]
      have hmove : Move (.loop, w) (.line, w₁) := .resumeLine hr h hrh
      exact Walks.move hmove (processRequestLine_goes (Move.ctl (p := .loop) (InLoop.waiting h) hmove))
    · rw [show w₁.c.readHandler = .processRequestHeaders by rw [hr.c]; exact hrh]
      have hmove : Move (.loop, w) (.headers .again, w₁) := .resumeHeaders hr h hrh
      exact Walks.move hmove (processRequestHeaders_goes (Move.ctl (p := .loop) (InLoop.waiting h) hmove))

theorem callWriteHandler_goes {w₁ : World} (hr : w.Reported w₁) (h : Responding w) :
    Goes (.loop, w) callWriteHandler w₁ := by
  have hmove : Move (.loop, w) (.write 0, w₁) := .resumeWrite hr h
  have hctl := Move.ctl (p := .loop) (InLoop.responding h) hmove
  unfold callWriteHandler
  show wp _ _ _ _
  rw [wp_bind, wp_get, hctl.1.writeHandler]
  dsimp only
  refine writer_rule hctl.1.toServing.alive hctl.1.data hctl.1.begin ?_
  rw [hctl.1.last]
  exact Walks.move hmove (writerLoop_goes _ _ _ hctl (Nat.lt_succ_self _))

/-- Every dispatch walks along the moves. -/
theorem dispatch_goes {events : UInt32} (h : Ctl .loop w) (hev : Registered w events) :
    Goes (.loop, w) (dispatch events) w := by
  unfold dispatch
  show wp _ _ _ _
  rw [wp_bind, wp_get]
  by_cases hfd : w.c.fd = -1
  · rw [if_pos hfd, wp_pure]
  · rw [if_neg hfd]
    -- a connection asks for one direction only
    have hreads : w.c.ev.events = readMask ∨ Responding w := by
      rcases h with h | h | h | h | h
      · exact absurd h.fd hfd
      · exact Or.inl h.mask
      · exact Or.inl h.mask
      · exact Or.inl h.mask
      · exact Or.inr h
    have hready : ∀ f : Event → Event, (∀ ev, (f ev).events = ev.events ∧
        (f ev).closed = ev.closed) → w.Reported (w.onEv f) :=
      fun f hf => ⟨rfl, rfl, (hf _).1, (hf _).2, rfl, rfl, rfl, rfl⟩
    rcases hreads with hmask | hresp
    · have hout : ¬ (events &&& EPOLLOUT ≠ 0) := by
        intro hout
        have := hev.2 hout
        rw [hmask] at this
        exact this readMask_directions.2
      have hcall : Connected w ∨ Idle w ∨ Waiting w := by
        rcases h with h | h | h | h | h
        · exact absurd h.fd hfd
        · exact Or.inl h
        · exact Or.inr (Or.inl h)
        · exact Or.inr (Or.inr h)
        · rw [h.mask] at hmask
          exact absurd hmask (by decide)
      unfold reportWritable reportReadable
      rw [wp_bind, if_neg hout, wp_pure]
      by_cases hin : events &&& EPOLLIN ≠ 0
      · rw [if_pos hin, wp_bind, wp_modify]
        exact callReadHandler_goes (hready _ fun ev => ⟨rfl, rfl⟩) hcall
      · rw [if_neg hin, wp_pure]
    · have hin : ¬ (events &&& EPOLLIN ≠ 0) := by
        intro hin
        have := hev.1 hin
        rw [hresp.mask] at this
        exact this writeMask_directions.1
      unfold reportWritable reportReadable
      rw [if_neg hin]
      by_cases hout : events &&& EPOLLOUT ≠ 0
      · rw [if_pos hout, wp_bind, wp_bind, wp_modify]
        exact callWriteHandler_goes (hready _ fun ev => ⟨rfl, rfl⟩) hresp
      · rw [if_neg hout, wp_bind, wp_pure, wp_pure]

end Ehd.Http
