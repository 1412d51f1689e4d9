import Ehttpd.Http.DocumentRoot

namespace Ehd.Http

open DotSegments Program

def hexValue (ch : UInt8) : Option Nat :=
  if 48 ≤ ch ∧ ch ≤ 57 then some (ch.toNat - 48)
  else if 65 ≤ ch ∧ ch ≤ 70 then some (ch.toNat - 55)
  else if 97 ≤ ch ∧ ch ≤ 102 then some (ch.toNat - 87)
  else none

/-- The text of a path: each `%` starts an escape of two digits, which stands for one byte. -/
inductive Unescapes : List UInt8 → List UInt8 → Prop
  | nil : Unescapes [] []
  | byte {ch : UInt8} {s d : List UInt8} (h : ch ≠ 37) (hs : Unescapes s d) :
    Unescapes (ch :: s) (ch :: d)
  | escape {a b : UInt8} {x y : Nat} {s d : List UInt8} (ha : hexValue a = some x)
    (hb : hexValue b = some y) (hs : Unescapes s d) :
    Unescapes (37 :: a :: b :: s) (UInt8.ofNat (16 * x + y) :: d)

/-- The path of a text: the names that its slashes end, resolved, and what follows the last. -/
def normalise (d : List UInt8) : Option (List UInt8) :=
  (Trail.ofText 47 46 [] d).map (Trail.text 47)

theorem hexDigit_eq (ch : UInt8) : hexDigit ch = (hexValue ch).map UInt8.ofNat := by
  have hall : ∀ n : Fin 256, hexDigit (UInt8.ofNat n) =
      (hexValue (UInt8.ofNat n)).map UInt8.ofNat := by decide +kernel
  have hch := hall ⟨ch.toNat, ch.toNat_lt⟩
  rwa [UInt8.ofNat_toNat] at hch

theorem hexValue_lt {ch : UInt8} {x : Nat} (h : hexValue ch = some x) : x < 16 := by
  unfold hexValue at h
  simp only [UInt8.le_iff_toNat_le] at h
  split_ifs at h with h₁ h₂ h₃
  all_goals
    have hx := Option.some.inj h
    simp only [UInt8.toNat_ofNat] at *
    omega

theorem escape_value {x y : Nat} (hx : x < 16) (hy : y < 16) :
    (UInt8.ofNat x <<< 4) + UInt8.ofNat y = UInt8.ofNat (16 * x + y) := by
  have hall : ∀ x y : Fin 16, (UInt8.ofNat x.val <<< 4) + UInt8.ofNat y.val =
      UInt8.ofNat (16 * x.val + y.val) := by decide
  exact hall ⟨x, hx⟩ ⟨y, hy⟩

variable {path d : List UInt8}

theorem Unescapes.decodeEscapes (h : Unescapes path d) : decodeEscapes path = some d := by
  induction h with
  | nil => rfl
  | byte hch _ ih =>
    unfold Http.decodeEscapes
    rw [if_neg hch, ih]
    rfl
  | escape ha hb _ ih =>
    unfold Http.decodeEscapes
    rw [if_pos rfl]
    simp only [hexDigit_eq, ha, hb, ih, Option.map_some, Option.bind_some,
      escape_value (hexValue_lt ha) (hexValue_lt hb)]

section Refuses

variable {s : UriScan} {sw : UriSw} {t : Trail UInt8} {room : Nat} {ch : UInt8}

/-- Only two dots at the root are refused. -/
theorem Follows.refuses (h : Follows s s.state t (room + 1)) (hs : uriSwitch s ch = none) :
    t.read 47 46 ch = none := by
  have hreads := h.reads
  cases hstate : s.state with
  | usual =>
    simp only [uriSwitch, hstate] at hs
    split_ifs at hs
  | slash =>
    simp only [uriSwitch, hstate] at hs
    split_ifs at hs
  | dot =>
    simp only [uriSwitch, hstate] at hs
    split_ifs at hs
  | dotDot =>
    rw [hstate] at hreads
    have hcur : t.cur = [46, 46] := hreads
    simp only [uriSwitch, hstate] at hs
    split_ifs at hs with hslash hlt
    rcases List.eq_nil_or_concat t.names with hnames | ⟨ns, n, hnames⟩
    · rw [hslash, Trail.read_slash, hcur, hnames]
      rfl
    · -- with a name before them `u` has come far enough
      rw [List.concat_eq_append] at hnames
      have hfar := (h.up hcur hnames).1
      omega
  | quoted =>
    rw [hstate] at hreads
    exact hreads.elim
  | quotedSecond =>
    rw [hstate] at hreads
    exact hreads.elim

/-- A path with whole escapes is refused only for its segments; the induction follows the
escapes. -/
theorem uriLoop_refuses (hpath : Unescapes path d) : ∀ (s : UriScan) (t : Trail UInt8),
    Follows s s.state t path.length → uriLoop s path = none → t.readAll 47 46 d = none := by
  induction hpath with
  | nil =>
    intro s t _ hs
    cases hs
  | @byte ch path d hch _ ih =>
    intro s t h hs
    show (t.read 47 46 ch).bind _ = none
    have hstep : uriStep s ch = uriSwitch s ch := h.step
    cases h₁ : uriStep s ch with
    | none =>
      rw [hstep] at h₁
      rw [h.refuses h₁]
      rfl
    | some s₁ =>
      rw [uriLoop, h₁] at hs
      rw [hstep] at h₁
      obtain ⟨t₁, ht₁, h'⟩ := h.switch hch h₁
      rw [ht₁]
      exact ih s₁ t₁ h' hs
  | @escape a b x y path d ha hb _ ih =>
    intro s t h hs
    show (t.read 47 46 _).bind _ = none
    have hx := hexValue_lt ha
    have hy := hexValue_lt hb
    have ha' : hexDigit a = some (UInt8.ofNat x) := by rw [hexDigit_eq, ha]; rfl
    have hb' : hexDigit b = some (UInt8.ofNat y) := by rw [hexDigit_eq, hb]; rfl
    -- the escape as the loop meets it
    have hpercent : uriStep s 37 = some { s with quotedState := s.state, state := .quoted } := by
      have hreads := h.reads
      rw [h.step]
      cases hstate : s.state with
      | quoted =>
        rw [hstate] at hreads
        exact hreads.elim
      | quotedSecond =>
        rw [hstate] at hreads
        exact hreads.elim
      | _ => simp [uriSwitch, hstate]
    obtain ⟨q, hq⟩ : ∃ q : UriScan, q = { s with
      quotedState := s.state, decoded := UInt8.ofNat x, state := .quotedSecond } := ⟨_, rfl⟩
    have hfirst : uriStep { s with quotedState := s.state, state := .quoted } a = some q := by
      simp only [uriStep, ha', hq]
    have hroom : Follows q s.state t (path.length + 1) := by
      have hfits := h.fits
      simp only [List.length_cons] at hfits
      rw [hq]
      refine ⟨h.reads, h.text, ?_, h.ok⟩
      show s.u + _ ≤ s.data.length
      omega
    rw [uriLoop, hpercent, Option.bind_some, uriLoop, hfirst, Option.bind_some, uriLoop] at hs
    have hvalue := escape_value hx hy
    cases h₂ : uriStep q b with
    | none =>
      -- the decoded byte is refused in the state before the escape
      have hdecoded : q.decoded = UInt8.ofNat x := by rw [hq]
      have hstate : q.state = .quotedSecond := by rw [hq]
      simp only [uriStep, hstate, hb', hdecoded, hvalue] at h₂
      split_ifs at h₂
      have hback : Follows { q with state := q.quotedState, decoded := UInt8.ofNat x }
          q.quotedState t (path.length + 1) := by
        have hquoted : q.quotedState = s.state := by rw [hq]
        rw [hquoted]
        exact ⟨hroom.reads, hroom.text, hroom.fits, hroom.ok⟩
      rw [Follows.refuses hback h₂]
      rfl
    | some s₂ =>
      rw [h₂] at hs
      obtain ⟨t₁, ht₁, h'⟩ := hroom.decoded (by rw [hq]) (by rw [hq]) hb' h₂
      have hdecoded : q.decoded = UInt8.ofNat x := by rw [hq]
      rw [hdecoded, hvalue] at ht₁
      rw [ht₁]
      exact ih s₂ t₁ h' hs

end Refuses

variable {area : List UInt8}

theorem follows_root (hroom : (47 :: path).length < area.length) :
    Follows { (UriScan.init area).put 47 with uriExt := none, state := .slash } .slash .root
      path.length := by
  rw [List.length_cons] at hroom
  refine ⟨rfl, ?_, ?_, Trail.ok_root⟩
  · cases area with
    | nil => cases hroom
    | cons a area => rfl
  · show 0 + 1 + path.length ≤ (area.set 0 47).length
    rw [List.length_set]
    omega

/-- The loop gives up exactly where the specification does, and else writes its path. -/
theorem uriLoop_normalise (hroom : path.length < area.length) (hslash : path.head? = some 47)
    (hpath : Unescapes path d) :
    (uriLoop (.init area) path = none ↔ normalise d = none) ∧
      ∀ s, uriLoop (.init area) path = some s → normalise d = some (s.data.take s.u) ∧
        s.u ≤ s.data.length := by
  have hsome : ∀ s, uriLoop (.init area) path = some s →
      normalise d = some (s.data.take s.u) ∧ s.u ≤ s.data.length := by
    intro s hs
    obtain ⟨t, ht, hw⟩ := uriLoop_resolve hroom hslash hs
    cases hpath with
    | nil => cases hslash
    | escape =>
      cases hslash
    | @byte ch path d _ hrest =>
      obtain rfl : ch = 47 := Option.some.inj hslash
      have hread : Trail.readAll 47 46 .root d = some t := by
        have hbind : (decodeEscapes path).bind (Trail.readAll 47 46 .root) = some t := ht
        rwa [hrest.decodeEscapes] at hbind
      refine ⟨?_, hw.fits⟩
      unfold normalise
      rw [Trail.ofText_slash, hread, hw.text]
      rfl
  refine ⟨?_, hsome⟩
  constructor
  · intro hs
    cases hpath with
    | nil => cases hslash
    | escape => cases hslash
    | @byte ch path d _ hrest =>
      obtain rfl : ch = 47 := Option.some.inj hslash
      have hloop : uriLoop { (UriScan.init area).put 47 with
          uriExt := none, state := .slash } path = none := hs
      have hread := uriLoop_refuses hrest _ .root (follows_root hroom) hloop
      unfold normalise
      rw [Trail.ofText_slash, hread]
      rfl
  · intro hnone
    cases hs : uriLoop (.init area) path with
    | none => rfl
    | some s =>
      have hcontra := (hsome s hs).1
      rw [hnone] at hcontra
      cases hcontra

/-- `ehd_http_parse_complex_uri` on the path `path`, of which every escape is whole: it is
refused exactly when the stack of segments is empty at two dots; otherwise `r->uri` is the
resolved path, if the allocation for an extension succeeds. -/
theorem complex_uri_normalises {w : World} {b : Buf} (halive : w.r.home ∉ w.t.destroyed)
    (hb : w.c.buf = some b) (hlen : w.r.uri.len = path.length)
    (hspan : b.span w.r.parse.uriStart path.length = path) (harea : w.r.uri.data.length = path.length + 1)
    (hslash : path.head? = some 47) (hpath : Unescapes path d) :
    wp parseComplexUri
      (fun rc w' => (rc = .invalidRequest ↔ normalise d = none) ∧
        ∀ text, normalise d = some text → w.k.allocOk w.c.readHandler w.k.allocs.length = true →
          rc = .ok ∧ w'.r.uri.bytes = text)
      (fun _ _ => False) w := by
  obtain ⟨hnone, hsome⟩ := uriLoop_normalise
    (show path.length < w.r.uri.data.length by omega) hslash hpath
  unfold parseComplexUri
  rw [wp_bind, wp_getRequest halive, wp_bind, wp_getHeaderInBuf halive hb, hlen, hspan]
  cases hs : uriLoop (.init w.r.uri.data) path with
  | none =>
    refine ⟨⟨fun _ => hnone.1 hs, fun _ => rfl⟩, ?_⟩
    intro text htext
    rw [hnone.1 hs] at htext
    cases htext
  | some s =>
    obtain ⟨htext, hfits⟩ := hsome s hs
    have hiff : ∀ rc : Rc, rc ≠ .invalidRequest → (rc = .invalidRequest ↔ normalise d = none) := by
      intro rc hrc
      rw [htext]
      constructor
      · intro h
        exact absurd h hrc
      · intro h
        cases h
    have hbytes : ∀ text, normalise d = some text →
        (⟨s.u, s.data.set s.u 0⟩ : Str).bytes = text := by
      intro text h
      rw [htext] at h
      show (s.data.set s.u 0).take s.u = text
      rw [List.take_set_of_le (Nat.le_refl _)]
      exact Option.some.inj h
    dsimp only
    rw [wp_bind, wp_modifyRequest halive]
    cases s.uriExt with
    | none => exact ⟨hiff .ok (by decide), fun text h _ => ⟨rfl, hbytes text h⟩⟩
    | some e =>
      dsimp only
      -- the copy of the extension is the only allocation
      rw [wp_bind, wp_palloc]
      constructor
      · intro _
        dsimp only
        rw [wp_bind, wp_modifyRequest (by exact halive), wp_pure]
        exact ⟨hiff .ok (by decide), fun text h _ => ⟨rfl, hbytes text h⟩⟩
      · intro hfail
        refine ⟨hiff .internalServerError (by decide), ?_⟩
        intro text _ hok
        exact absurd (hok.symm.trans hfail) (by decide)

def samplePath (path : List UInt8) : World :=
  { sampleRequest [] with
    c := { (sampleRequest []).c with
      buf := some { bytes := path, pos := path.length, size := EHD_DEFAULT_BUF_SIZE } }
    r := { (sampleRequest []).r with
      uri := ⟨path.length, List.replicate (path.length + 1) 0⟩ } }

theorem complex_uri_normalises_samplePath :
    wp parseComplexUri (fun rc w' => rc = .ok ∧ w'.r.uri.bytes = ascii "/b%/c.")
      (fun _ _ => False) (samplePath (ascii "/a/%2E%2e//b%25/./c.")) := by
  have hpath : Unescapes (ascii "/a/%2E%2e//b%25/./c.") (ascii "/a/..//b%/./c.") := by
    have hdot : Unescapes (ascii "//b%25/./c.") (ascii "//b%/./c.") := by
      refine .byte (by decide) (.byte (by decide) (.byte (by decide) ?_))
      refine .escape (x := 2) (y := 5) (by decide) (by decide) ?_
      exact .byte (by decide) (.byte (by decide) (.byte (by decide) (.byte (by decide)
        (.byte (by decide) .nil))))
    refine .byte (by decide) (.byte (by decide) (.byte (by decide) ?_))
    refine .escape (x := 2) (y := 14) (by decide) (by decide) ?_
    exact .escape (x := 2) (y := 14) (by decide) (by decide) hdot
  have hnormal := @complex_uri_normalises _ _ (samplePath (ascii "/a/%2E%2e//b%25/./c.")) _
    (by decide) rfl rfl rfl rfl rfl hpath
  refine wp_mono hnormal (fun rc w' h => ?_) (fun _ _ h => h)
  exact h.2 _ (by decide) rfl

end Ehd.Http
