import Ehttpd.Http.Normaliser

namespace Ehd.Http

open Program

variable {s s' : UriScan} {ch : UInt8} {path pre rest d : List UInt8}

def UriScan.Plain (s : UriScan) : Prop := s.state ≠ .quoted ∧ s.state ≠ .quotedSecond

theorem uriScan_init_plain (area : List UInt8) : (UriScan.init area).Plain :=
  ⟨nofun, nofun⟩

theorem uriSwitch_plain (hs : s.Plain) (hch : ch ≠ 37) (h : uriSwitch s ch = some s') : s'.Plain := by
  obtain ⟨hquoted, hsecond⟩ := hs
  unfold UriScan.Plain
  unfold uriSwitch at h
  split at h
  case h_5 hstate => exact absurd hstate hquoted
  case h_6 hstate => exact absurd hstate hsecond
  all_goals
    rename_i hstate
    split_ifs at h
    all_goals
      cases h
      simp [UriScan.put, hstate]

theorem uriStep_of_plain (hs : s.Plain) : uriStep s ch = uriSwitch s ch := by
  obtain ⟨hquoted, hsecond⟩ := hs
  unfold uriStep
  split
  · exact absurd ‹_› hquoted
  · exact absurd ‹_› hsecond
  · rfl

theorem uriStep_percent (hs : s.Plain) :
    uriStep s 37 = some { s with quotedState := s.state, state := .quoted } := by
  rw [uriStep_of_plain hs]
  obtain ⟨hquoted, hsecond⟩ := hs
  unfold uriSwitch
  split
  case h_5 hstate => exact absurd hstate hquoted
  case h_6 hstate => exact absurd hstate hsecond
  all_goals
    rename_i hstate
    simp [hstate]

/-- A path with an escape is written in fewer bytes. -/
theorem uriLoop_shrinks {path : List UInt8} (hs : s.Plain) (hmem : 37 ∈ path)
    (h : uriLoop s path = some s') : s'.u < s.u + path.length := by
  induction path generalizing s with
  | nil => cases hmem
  | cons c path ih =>
    obtain ⟨s₁, h₁, hrest⟩ := uriLoop_cons h
    rw [List.length_cons]
    by_cases hc : c = 37
    · rw [hc, uriStep_percent hs] at h₁
      cases h₁
      have hle := uriLoop_u hrest
      dsimp only at hle
      omega
    · have hu := uriStep_u h₁
      rw [uriStep_of_plain hs] at h₁
      have hlt := ih (uriSwitch_plain hs hc h₁) ((List.mem_cons.1 hmem).resolve_left (Ne.symm hc)) hrest
      omega

theorem uriLoop_append (s : UriScan) (xs ys : List UInt8) :
    uriLoop s (xs ++ ys) = (uriLoop s xs).bind fun s' => uriLoop s' ys := by
  induction xs generalizing s with
  | nil => rfl
  | cons c xs ih =>
    show (uriStep s c).bind _ = ((uriStep s c).bind _).bind _
    cases uriStep s c with
    | none => rfl
    | some s₁ => exact ih s₁

/-- Behind whole escapes the loop is outside of escapes again. -/
theorem uriLoop_plain (hpre : Unescapes pre d) (hs : s.Plain) (h : uriLoop s pre = some s') :
    s'.Plain := by
  induction hpre generalizing s with
  | nil =>
    cases h
    exact hs
  | byte hch _ ih =>
    obtain ⟨s₁, h₁, hrest⟩ := uriLoop_cons h
    rw [uriStep_of_plain hs] at h₁
    exact ih (uriSwitch_plain hs hch h₁) hrest
  | @escape a b x y _ _ ha hb _ ih =>
    obtain ⟨s₁, h₁, hrest₁⟩ := uriLoop_cons h
    obtain ⟨s₂, h₂, hrest₂⟩ := uriLoop_cons hrest₁
    obtain ⟨s₃, h₃, hrest₃⟩ := uriLoop_cons hrest₂
    rw [uriStep_percent hs] at h₁
    cases h₁
    have ha' : hexDigit a = some (UInt8.ofNat x) := by rw [hexDigit_eq, ha]; rfl
    have hb' : hexDigit b = some (UInt8.ofNat y) := by rw [hexDigit_eq, hb]; rfl
    simp only [uriStep, ha'] at h₂
    cases h₂
    simp only [uriStep, hb'] at h₃
    apply ih _ hrest₃
    by_cases hpercent : (UInt8.ofNat x <<< 4) + UInt8.ofNat y = 37
    · rw [if_pos hpercent] at h₃
      cases h₃
      constructor
      · intro hquoted
        cases hquoted
      · intro hsecond
        cases hsecond
    · rw [if_neg hpercent] at h₃
      refine uriSwitch_plain ?_ hpercent h₃
      exact hs

def TwoDigits (rest : List UInt8) : Prop :=
  ∃ a b s, rest = a :: b :: s ∧ hexValue a ≠ none ∧ hexValue b ≠ none

def CutShort (rest : List UInt8) : Prop := rest = [] ∨ ∃ a, rest = [a] ∧ hexValue a ≠ none

/-- The `%` behind `pre` starts an escape of `path`, and two digits do not follow it; `pre`
stands for `d`. -/
structure BadEscape (path pre d rest : List UInt8) : Prop where
  eq : path = pre ++ 37 :: rest
  whole : Unescapes pre d
  bad : ¬ TwoDigits rest

theorem hexDigit_isSome_iff : (hexDigit ch).isSome = true ↔ hexValue ch ≠ none := by
  rw [hexDigit_eq, Option.isSome_map, Option.isSome_iff_ne_none]

/-- Of a malformed escape the loop takes no notice exactly where the path ends in it. -/
theorem uriLoop_bad (hs : s.Plain) (hbad : ¬ TwoDigits rest) :
    uriLoop s (37 :: rest) = none ↔ ¬ CutShort rest := by
  rw [uriLoop, uriStep_percent hs, Option.bind_some]
  cases rest with
  | nil => simp [uriLoop, CutShort]
  | cons a rest =>
    cases ha : hexDigit a with
    | none =>
      have hnone : hexValue a = none := by
        by_contra hne
        have hsome := hexDigit_isSome_iff.2 hne
        rw [ha] at hsome
        cases hsome
      simp [uriLoop, uriStep, ha, CutShort, hnone]
    | some x =>
      have hdigit : hexValue a ≠ none := hexDigit_isSome_iff.1 (by rw [ha]; rfl)
      cases rest with
      | nil => simp [uriLoop, uriStep, ha, CutShort, hdigit]
      | cons b rest =>
        have hb : hexDigit b = none := by
          by_contra hne
          have hdigit' := hexDigit_isSome_iff.1 (Option.isSome_iff_ne_none.2 hne)
          exact hbad ⟨a, b, rest, rfl, hdigit, hdigit'⟩
        simp [uriLoop, uriStep, ha, hb, CutShort]

variable {w : World} {b : Buf}

theorem complex_uri_not_refused {s : UriScan} (halive : w.r.home ∉ w.t.destroyed)
    (hb : w.c.buf = some b)
    (hs : uriLoop (.init w.r.uri.data) (b.span w.r.parse.uriStart w.r.uri.len) = some s) :
    wp parseComplexUri (fun rc _ => rc ≠ .invalidRequest) (fun _ _ => False) w := by
  unfold parseComplexUri
  rw [wp_bind, wp_getRequest halive, wp_bind, wp_getHeaderInBuf halive hb, hs]
  dsimp only
  rw [wp_bind, wp_modifyRequest halive]
  cases s.uriExt with
  | none => exact show Rc.ok ≠ .invalidRequest by decide
  | some e =>
    dsimp only
    rw [wp_bind]
    apply palloc_rule
    · intro n area _
      dsimp only
      rw [wp_bind, wp_modifyRequest (by exact halive), wp_pure]
      decide
    · intro n _
      exact show Rc.internalServerError ≠ .invalidRequest by decide

theorem complex_uri_stored {s : UriScan} (halive : w.r.home ∉ w.t.destroyed)
    (hb : w.c.buf = some b) (hext : s.uriExt = none)
    (hs : uriLoop (.init w.r.uri.data) (b.span w.r.parse.uriStart w.r.uri.len) = some s) :
    wp parseComplexUri (fun rc w' => rc = .ok ∧ w'.r.uri = ⟨s.u, s.data.set s.u 0⟩)
      (fun _ _ => False) w := by
  unfold parseComplexUri
  rw [wp_bind, wp_getRequest halive, wp_bind, wp_getHeaderInBuf halive hb, hs]
  dsimp only
  rw [wp_bind, wp_modifyRequest halive, hext]
  exact ⟨rfl, rfl⟩

theorem complex_uri_refused_iff (halive : w.r.home ∉ w.t.destroyed) (hb : w.c.buf = some b) :
    wp parseComplexUri (fun rc _ => rc = .invalidRequest) (fun _ _ => False) w ↔
      uriLoop (.init w.r.uri.data) (b.span w.r.parse.uriStart w.r.uri.len) = none := by
  constructor
  · intro h
    cases hs : uriLoop (.init w.r.uri.data) (b.span w.r.parse.uriStart w.r.uri.len) with
    | none => rfl
    | some s =>
      have hboth := wp_and h (complex_uri_not_refused halive hb hs)
      exact absurd (wp_mono hboth (fun _ _ h => h.2 h.1) fun _ _ h => h.1) wp_false
  · intro hs
    unfold parseComplexUri
    rw [wp_bind, wp_getRequest halive, wp_bind, wp_getHeaderInBuf halive hb, hs]
    rfl

/-- For every path with a malformed escape: it is refused, unless it ends in that escape
and what stands before it can be resolved. -/
theorem malformed_refused_iff (halive : w.r.home ∉ w.t.destroyed) (hb : w.c.buf = some b)
    (hlen : w.r.uri.len = path.length) (hspan : b.span w.r.parse.uriStart path.length = path)
    (harea : w.r.uri.data.length = path.length + 1) (hslash : path.head? = some 47)
    (hbad : BadEscape path pre d rest) :
    wp parseComplexUri (fun rc _ => rc = .invalidRequest) (fun _ _ => False) w ↔
      (CutShort rest → normalise d = none) := by
  obtain ⟨rfl, hwhole, hdigits⟩ := hbad
  have hfirst : pre.head? = some 47 := by
    cases pre with
    | nil => exact absurd (Option.some.inj hslash) (by decide)
    | cons c pre => exact hslash
  have hroom : pre.length < w.r.uri.data.length := by
    rw [harea, List.length_append]
    omega
  obtain ⟨hnone, hsome⟩ := uriLoop_normalise hroom hfirst hwhole
  rw [complex_uri_refused_iff halive hb, hlen, hspan, uriLoop_append, ← hnone]
  cases hs : uriLoop (.init w.r.uri.data) pre with
  | none => simp
  | some s =>
    have hplain := uriLoop_plain hwhole (uriScan_init_plain _) hs
    rw [Option.bind_some, uriLoop_bad hplain hdigits]
    simp

theorem malformed_refused_inside :
    wp parseComplexUri (fun rc _ => rc = .invalidRequest) (fun _ _ => False)
      (samplePath (ascii "/a/.%4g")) := by
  have hwhole : Unescapes (ascii "/a/.") (ascii "/a/.") :=
    .byte (by decide) (.byte (by decide) (.byte (by decide) (.byte (by decide) .nil)))
  have hbad : BadEscape (ascii "/a/.%4g") (ascii "/a/.") (ascii "/a/.") (ascii "4g") := by
    refine ⟨by decide, hwhole, ?_⟩
    rintro ⟨x, y, s, heq, -, hy⟩
    have hlist : [52, 103] = x :: y :: s := heq
    have hg : 103 = y := (List.cons_eq_cons.1 (List.cons_eq_cons.1 hlist).2).1
    rw [← hg] at hy
    exact hy (by decide)
  refine (malformed_refused_iff (w := samplePath (ascii "/a/.%4g")) (by decide) rfl rfl rfl rfl rfl hbad).2 ?_
  rintro (hnil | ⟨x, hone, -⟩)
  · exact absurd hnil (by decide)
  · exact absurd (congrArg List.length hone) (show ¬ (ascii "4g").length = 1 by decide)

/-- An escape that the end of the path cuts short is dropped. -/
theorem cut_escape_accepted :
    BadEscape (ascii "/a%4") (ascii "/a") (ascii "/a") (ascii "4") ∧
    wp parseComplexUri (fun rc w' => rc = .ok ∧ w'.r.uri.bytes = ascii "/a") (fun _ _ => False)
      (samplePath (ascii "/a%4")) := by
  refine ⟨⟨by decide, .byte (by decide) (.byte (by decide) .nil), ?_⟩, ?_⟩
  · rintro ⟨x, y, s, heq, -, -⟩
    have hlist : [52] = x :: y :: s := heq
    exact absurd (congrArg List.length hlist) (by simp)
  · have hloop : uriLoop (.init (samplePath (ascii "/a%4")).r.uri.data) (ascii "/a%4") =
        some ⟨.quotedSecond, .usual, 4, 2, ascii "/a\x00\x00\x00", none⟩ := by
      decide
    have hstored := complex_uri_stored (w := samplePath (ascii "/a%4")) (by decide) rfl rfl hloop
    apply wp_mono hstored _ fun _ _ h => h
    rintro rc w' ⟨hrc, huri⟩
    rw [huri]
    exact ⟨hrc, by decide⟩

end Ehd.Http
