import Ehttpd.Http.Parsing
import Ehttpd.Http.ParseComplexUri
import Ehttpd.Lib.DotSegments
import Mathlib.Data.List.GetD

namespace Ehd.Http

open DotSegments

/-- The bytes that the path stands for; an escape that the path cuts short is dropped. -/
def decodeEscapes : List UInt8 → Option (List UInt8)
  | [] => some []
  | ch :: rest =>
    if ch = 37 then
      match rest with
      | [] => some []
      | [a] => (hexDigit a).map fun _ => []
      | a :: b :: rest => (hexDigit a).bind fun d => (hexDigit b).bind fun e =>
        (decodeEscapes rest).map (((d <<< 4) + e) :: ·)
    else (decodeEscapes rest).map (ch :: ·)

def resolve : List UInt8 → Option (Trail UInt8)
  | [] => none
  | _ :: rest => (decodeEscapes rest).bind (Trail.readAll 47 46 .root)

def UriSw.Reads : UriSw → List UInt8 → Prop
  | .slash, cur => cur = []
  | .dot, cur => cur = [46]
  | .dotDot, cur => cur = [46, 46]
  | .usual, cur => cur ≠ [] ∧ cur ≠ [46] ∧ cur ≠ [46, 46]
  | .quoted, _ => False
  | .quotedSecond, _ => False

/-- The loop has written the path of `t`, and there is room for `room` bytes more. -/
structure Follows (s : UriScan) (sw : UriSw) (t : Trail UInt8) (room : Nat) : Prop where
  reads : sw.Reads t.cur
  text : s.data.take s.u = t.text 47
  fits : s.u + room ≤ s.data.length
  ok : t.Ok 47 46

variable {s s' : UriScan} {sw : UriSw} {t : Trail UInt8} {room : Nat} {ch : UInt8}

theorem Follows.length (h : Follows s sw t room) : s.u = (t.text 47).length := by
  have hfits := h.fits
  rw [← h.text, List.length_take]
  omega

theorem text_concat (t : Trail UInt8) (ch : UInt8) :
    (⟨t.names, t.cur ++ [ch]⟩ : Trail UInt8).text 47 = t.text 47 ++ [ch] := by
  simp [Trail.text]

theorem text_slash (t : Trail UInt8) :
    (⟨t.names ++ [t.cur], []⟩ : Trail UInt8).text 47 = t.text 47 ++ [47] := by
  simp [Trail.text]

theorem put_take (hfits : s.u + (room + 1) ≤ s.data.length) (htext : s.data.take s.u = t.text 47)
    (ch : UInt8) : (s.put ch).data.take (s.put ch).u = t.text 47 ++ [ch] := by
  unfold UriScan.put
  rw [List.take_add_one, List.take_set_of_le (Nat.le_refl _), htext,
    List.getElem?_set_self (by omega)]
  rfl

theorem Follows.put (h : Follows s sw t (room + 1)) (hdata : s'.data = (s.put ch).data)
    (hu : s'.u = (s.put ch).u) (hch : ch ≠ 47) (hreads : s'.state.Reads (t.cur ++ [ch])) :
    ∃ t', t.read 47 46 ch = some t' ∧ Follows s' s'.state t' room := by
  have hread : t.read 47 46 ch = some ⟨t.names, t.cur ++ [ch]⟩ := if_neg hch
  have hfits := h.fits
  refine ⟨_, hread, hreads, ?_, ?_, h.ok.read hread⟩
  · rw [text_concat, hdata, hu]
    exact put_take hfits h.text ch
  · rw [hdata, hu]
    show s.u + 1 + room ≤ (s.data.set s.u ch).length
    rw [List.length_set]
    omega

/-- `while (*(u - 1) != '/') u--` stops behind the slash at `L`. -/
theorem scanBack_eq {data : List UInt8} {L : Nat} (hL : 0 < L) (hslash : data.getD (L - 1) 0 = 47) :
    ∀ j, (∀ i < j, data.getD (L + i) 0 ≠ 47) → scanBack data (L + j) = L := by
  intro j
  induction j with
  | zero =>
    intro _
    obtain ⟨L', rfl⟩ := Nat.exists_eq_succ_of_ne_zero (Nat.pos_iff_ne_zero.1 hL)
    exact if_pos hslash
  | succ j ih =>
    intro hj
    have hne : data.getD (L + j) 0 ≠ 47 := hj j (Nat.lt_succ_self j)
    show (if data.getD (L + j) 0 = 47 then L + j + 1 else scanBack data (L + j)) = L
    rw [if_neg hne]
    apply ih
    intro i hi
    exact hj i (by omega)

/-- The path before `n/..` is what stays when the two dots take away the name `n`. -/
theorem Follows.up {ns : List (List UInt8)} {n : List UInt8} (h : Follows s sw t (room + 1))
    (hcur : t.cur = [46, 46]) (hnames : t.names = ns ++ [n]) :
    4 ≤ s.u ∧ scanBack s.data (s.u - 4) = ((⟨ns, []⟩ : Trail UInt8).text 47).length ∧
      ((⟨ns, []⟩ : Trail UInt8).text 47).length ≤ s.u ∧
      s.data.take ((⟨ns, []⟩ : Trail UInt8).text 47).length = (⟨ns, []⟩ : Trail UInt8).text 47 := by
  have hname : Trail.Name 47 46 n := h.ok.names n (by rw [hnames]; simp)
  -- the text is the parent's, the name, a slash and two dots
  have hnlen : 0 < n.length := List.length_pos_iff.2 hname.nonempty
  have htext : t.text 47 = (⟨ns, []⟩ : Trail UInt8).text 47 ++ (n ++ [47, 46, 46]) := by
    unfold Trail.text
    rw [hcur, hnames]
    simp
  obtain ⟨X, hX⟩ : ∃ X, X = (⟨ns, []⟩ : Trail UInt8).text 47 := ⟨_, rfl⟩
  have hlast : X.getLast? = some 47 := by
    rw [hX]
    unfold Trail.text
    rw [List.append_nil]
    rcases List.eq_nil_or_concat ns with rfl | ⟨ms, m, rfl⟩
    · rfl
    · rw [List.concat_eq_append, List.flatMap_append, List.flatMap_singleton, ← List.append_assoc,
        ← List.cons_append, List.getLast?_concat]
  rw [← hX] at htext ⊢
  have hu := h.length
  rw [htext, List.length_append, List.length_append] at hu
  simp only [List.length_cons, List.length_nil] at hu
  have hXpos : 0 < X.length := by
    rw [hX]
    exact Nat.succ_pos _
  have htake : s.data.take s.u = X ++ (n ++ [47, 46, 46]) := by rw [h.text, htext]
  have hget : ∀ i < s.u, s.data.getD i 0 = (X ++ (n ++ [47, 46, 46])).getD i 0 := by
    intro i hi
    rw [← htake, List.getD_eq_getElem?_getD, List.getD_eq_getElem?_getD, List.getElem?_take,
      if_pos hi]
  refine ⟨by omega, ?_, by omega, ?_⟩
  · rw [show s.u - 4 = X.length + (n.length - 1) by omega]
    -- going back over the name meets no slash before the parent's last one
    apply scanBack_eq hXpos
    · rw [hget _ (by omega), List.getD_append _ _ _ _ (by omega), List.getD_eq_getElem?_getD,
        ← List.getLast?_eq_getElem?, hlast]
      rfl
    · intro i hi
      rw [hget _ (by omega), List.getD_append_right _ _ _ _ (by omega),
        Nat.add_sub_cancel_left, List.getD_append _ _ _ _ (by omega),
        List.getD_eq_getElem _ _ (by omega)]
      intro heq
      apply hname.whole
      rw [← heq]
      exact List.getElem_mem _
  · have := congrArg (List.take X.length) htake
    rwa [List.take_take, Nat.min_eq_left (by omega), List.take_left'  rfl] at this

/-- A slash, in each of the four states. -/
theorem Follows.slash (h : Follows s s.state t (room + 1)) (hs : uriSwitch s 47 = some s') :
    ∃ t', t.read 47 46 47 = some t' ∧ Follows s' s'.state t' room := by
  have hfits := h.fits
  have hreads := h.reads
  cases hstate : s.state with
  | usual =>
    rw [hstate] at hreads
    obtain ⟨hnil, hdot, hdotDot⟩ := hreads
    have hread : t.read 47 46 47 = some ⟨t.names ++ [t.cur], []⟩ := by
      simp [Trail.read, hnil, hdot, hdotDot]
    simp only [uriSwitch, hstate, if_true] at hs
    cases hs
    refine ⟨_, hread, rfl, ?_, ?_, h.ok.read hread⟩
    · rw [text_slash]
      exact put_take hfits h.text 47
    · show s.u + 1 + room ≤ (s.data.set s.u 47).length
      rw [List.length_set]
      omega
  | slash =>
    rw [hstate] at hreads
    have hcur : t.cur = [] := hreads
    have hread : t.read 47 46 47 = some ⟨t.names, []⟩ := by simp [Trail.read, hcur]
    simp only [uriSwitch, hstate, if_true] at hs
    cases hs
    -- a second slash is not stored
    refine ⟨_, hread, ?_, ?_, by omega, h.ok.read hread⟩
    · rw [hstate]
      rfl
    · rw [h.text, ← hcur]
  | dot =>
    rw [hstate] at hreads
    have hcur : t.cur = [46] := hreads
    have hread : t.read 47 46 47 = some ⟨t.names, []⟩ := by simp [Trail.read, hcur]
    simp only [uriSwitch, hstate, if_true] at hs
    cases hs
    -- the dot is taken back
    have htext : t.text 47 = (⟨t.names, []⟩ : Trail UInt8).text 47 ++ [46] := by
      rw [← text_concat]
      show t.text 47 = (⟨t.names, [46]⟩ : Trail UInt8).text 47
      rw [← hcur]
    have hu := h.length
    rw [htext, List.length_append, List.length_singleton] at hu
    refine ⟨_, hread, rfl, ?_, ?_, h.ok.read hread⟩
    · show s.data.take (s.u - 1) = _
      have htake := congrArg (List.take (s.u - 1)) h.text
      rwa [List.take_take, Nat.min_eq_left (by omega), htext, List.take_left' (by omega)] at htake
    · show s.u - 1 + room ≤ s.data.length
      omega
  | dotDot =>
    rw [hstate] at hreads
    have hcur : t.cur = [46, 46] := hreads
    simp only [uriSwitch, hstate, if_true] at hs
    rcases List.eq_nil_or_concat t.names with hnames | ⟨ns, n, hnames⟩
    · -- there is no name to take away, and `u` has not come far enough
      have hu := h.length
      unfold Trail.text at hu
      rw [hnames, hcur] at hu
      have hlt : s.u < 4 := by
        rw [hu]
        decide
      rw [if_pos hlt] at hs
      cases hs
    -- the scan goes back behind the last name but one
    · rw [List.concat_eq_append] at hnames
      obtain ⟨hu, hback, hle, htake⟩ := h.up hcur hnames
      have hread : t.read 47 46 47 = some ⟨ns, []⟩ := by
        simp [Trail.read, hcur, hnames]
      rw [if_neg (by omega)] at hs
      cases hs
      refine ⟨_, hread, rfl, ?_, ?_, h.ok.read hread⟩
      · show s.data.take (scanBack s.data (s.u - 4)) = _
        rw [hback, htake]
      · show scanBack s.data (s.u - 4) + room ≤ s.data.length
        omega
  | quoted =>
    rw [hstate] at hreads
    exact hreads.elim
  | quotedSecond =>
    rw [hstate] at hreads
    exact hreads.elim

/-- Any letter but `%`. -/
theorem Follows.switch (h : Follows s s.state t (room + 1)) (hch : ch ≠ 37)
    (hs : uriSwitch s ch = some s') :
    ∃ t', t.read 47 46 ch = some t' ∧ Follows s' s'.state t' room := by
  by_cases hslash : ch = 47
  · subst hslash
    exact h.slash hs
  have hreads := h.reads
  cases hstate : s.state with
  | usual =>
    rw [hstate] at hreads
    obtain ⟨hnil, hdot, hdotDot⟩ := hreads
    -- a longer name stays an ordinary one
    have hnext : UriSw.usual.Reads (t.cur ++ [ch]) := by
      refine ⟨by simp, ?_, ?_⟩
      · intro heq
        exact hnil (List.append_inj_left' heq rfl)
      · intro heq
        have htwo : t.cur ++ [ch] = [46] ++ [46] := heq
        exact hdot (List.append_inj_left' htwo rfl)
    simp only [uriSwitch, hstate, if_neg hslash, if_neg hch] at hs
    by_cases hext : ch = 46
    · rw [if_pos hext] at hs
      cases hs
      exact h.put rfl rfl hslash (by show s.state.Reads _; rw [hstate]; exact hnext)
    · rw [if_neg hext] at hs
      cases hs
      exact h.put rfl rfl hslash (by show s.state.Reads _; rw [hstate]; exact hnext)
  | slash =>
    rw [hstate] at hreads
    have hcur : t.cur = [] := hreads
    simp only [uriSwitch, hstate, if_neg hslash, if_neg hch] at hs
    by_cases hdot : ch = 46
    · rw [if_pos hdot] at hs
      cases hs
      refine h.put rfl rfl hslash ?_
      rw [hcur, hdot]
      rfl
    · rw [if_neg hdot] at hs
      cases hs
      refine h.put rfl rfl hslash ?_
      rw [hcur]
      exact ⟨by simp, by simpa using hdot, by simp⟩
  | dot =>
    rw [hstate] at hreads
    have hcur : t.cur = [46] := hreads
    simp only [uriSwitch, hstate, if_neg hslash, if_neg hch] at hs
    by_cases hdot : ch = 46
    · rw [if_pos hdot] at hs
      cases hs
      refine h.put rfl rfl hslash ?_
      rw [hcur, hdot]
      rfl
    · rw [if_neg hdot] at hs
      cases hs
      refine h.put rfl rfl hslash ?_
      rw [hcur]
      exact ⟨by simp, by simp, by simpa using hdot⟩
  | dotDot =>
    rw [hstate] at hreads
    have hcur : t.cur = [46, 46] := hreads
    simp only [uriSwitch, hstate, if_neg hslash, if_neg hch] at hs
    cases hs
    refine h.put rfl rfl hslash ?_
    rw [hcur]
    exact ⟨by simp, by simp, by simp⟩
  | quoted =>
    rw [hstate] at hreads
    exact hreads.elim
  | quotedSecond =>
    rw [hstate] at hreads
    exact hreads.elim

theorem UriSw.Reads.plain {cur : List UInt8} (h : sw.Reads cur) :
    sw ≠ .quoted ∧ sw ≠ .quotedSecond := by
  constructor
  · rintro rfl
    exact h
  · rintro rfl
    exact h

theorem Follows.percent (h : Follows s s.state t room) (hs : uriSwitch s 37 = some s') :
    s' = { s with quotedState := s.state, state := .quoted } := by
  have hreads := h.reads
  cases hstate : s.state with
  | quoted =>
    rw [hstate] at hreads
    exact hreads.elim
  | quotedSecond =>
    rw [hstate] at hreads
    exact hreads.elim
  | _ =>
    simp [uriSwitch, hstate] at hs
    exact hs.symm

/-- The byte that an escape stands for is one letter of the path, a `%` too. -/
theorem Follows.decoded (h : Follows s sw t (room + 1)) (hq : s.quotedState = sw)
    (hstate : s.state = .quotedSecond) {e : UInt8} (he : hexDigit ch = some e)
    (hs : uriStep s ch = some s') :
    ∃ t', t.read 47 46 ((s.decoded <<< 4) + e) = some t' ∧ Follows s' s'.state t' room := by
  simp only [uriStep, hstate, he] at hs
  by_cases hpercent : (s.decoded <<< 4) + e = 37
  · rw [if_pos hpercent] at hs
    cases hs
    refine h.put rfl rfl (by rw [hpercent]; decide) ?_
    rw [hpercent]
    refine ⟨by simp, ?_, ?_⟩
    · intro heq
      have hone : t.cur ++ [37] = [] ++ [46] := heq
      cases (List.append_inj' hone rfl).2
    · intro heq
      have htwo : t.cur ++ [37] = [46] ++ [46] := heq
      cases (List.append_inj' htwo rfl).2
  · rw [if_neg hpercent] at hs
    have h' : Follows { s with state := s.quotedState } s.quotedState t (room + 1) :=
      ⟨by rw [hq]; exact h.reads, h.text, h.fits, h.ok⟩
    exact Follows.switch h' hpercent hs

structure Written (s : UriScan) (t : Trail UInt8) : Prop where
  text : s.data.take s.u = t.text 47
  fits : s.u ≤ s.data.length
  ok : t.Ok 47 46

theorem Follows.written (h : Follows s sw t room) : Written s t :=
  ⟨h.text, by have := h.fits; omega, h.ok⟩

theorem Follows.step (h : Follows s s.state t room) : uriStep s ch = uriSwitch s ch := by
  have hplain := h.reads.plain
  cases hstate : s.state with
  | quoted => exact absurd hstate hplain.1
  | quotedSecond => exact absurd hstate hplain.2
  | _ => simp only [uriStep, hstate]

theorem uriSwitch_data (h : uriSwitch s ch = some s') : s'.data.length = s.data.length := by
  have hput : (s.put ch).data.length = s.data.length := List.length_set
  unfold uriSwitch at h
  split at h
  case h_5 | h_6 => cases h
  all_goals
    split_ifs at h
    all_goals
      cases h
      first
      | rfl
      | exact hput

theorem uriStep_data (h : uriStep s ch = some s') : s'.data.length = s.data.length := by
  unfold uriStep at h
  split at h
  · split at h
    · cases h
      rfl
    · cases h
  · split at h
    · split at h
      · cases h
        exact List.length_set
      · have hdata := uriSwitch_data h
        exact hdata
    · cases h
  · exact uriSwitch_data h

theorem uriLoop_data {path : List UInt8} (h : uriLoop s path = some s') :
    s'.data.length = s.data.length := by
  induction path generalizing s with
  | nil =>
    cases h
    rfl
  | cons c path ih =>
    obtain ⟨s₁, h₁, hs⟩ := Option.bind_eq_some_iff.1 h
    exact (ih hs).trans (uriStep_data h₁)

theorem scanBack_le (data : List UInt8) (u : Nat) : scanBack data u ≤ u := by
  induction u with
  | zero => exact Nat.le_refl 0
  | succ u ih =>
    unfold scanBack
    split
    · exact Nat.le_refl _
    · omega

/-- A byte of the path writes at most one byte more. -/
theorem uriSwitch_u (h : uriSwitch s ch = some s') : s'.u ≤ s.u + 1 := by
  have hback : scanBack s.data (s.u - 4) ≤ s.u + 1 := (scanBack_le _ _).trans (by omega)
  have hdot : s.u - 1 ≤ s.u + 1 := by omega
  unfold uriSwitch at h
  split at h
  case h_5 | h_6 => cases h
  all_goals
    split_ifs at h
    all_goals
      cases h
      first
      | exact Nat.le_refl _
      | exact Nat.le_succ _
      | exact hdot
      | exact hback

theorem uriStep_u (h : uriStep s ch = some s') : s'.u ≤ s.u + 1 := by
  unfold uriStep at h
  split at h
  · split at h
    · cases h
      exact Nat.le_succ _
    · cases h
  · split at h
    · split at h
      · cases h
        exact Nat.le_refl _
      · have hu := uriSwitch_u h
        exact hu
    · cases h
  · exact uriSwitch_u h

theorem uriLoop_u {path : List UInt8} (h : uriLoop s path = some s') :
    s'.u ≤ s.u + path.length := by
  induction path generalizing s with
  | nil =>
    cases h
    exact Nat.le_refl _
  | cons c path ih =>
    obtain ⟨s₁, h₁, hs⟩ := Option.bind_eq_some_iff.1 h
    have hstep := uriStep_u h₁
    have hrest := ih hs
    rw [List.length_cons]
    omega

theorem uriLoop_cons {path : List UInt8} (h : uriLoop s (ch :: path) = some s') :
    ∃ s₁, uriStep s ch = some s₁ ∧ uriLoop s₁ path = some s' := Option.bind_eq_some_iff.1 h

/-- The loop decodes the path and resolves its dot segments; the induction follows
the escapes. -/
theorem uriLoop_follows (path : List UInt8) : ∀ (s : UriScan) (t : Trail UInt8) (s' : UriScan),
    Follows s s.state t path.length → uriLoop s path = some s' →
    ∃ ds t', decodeEscapes path = some ds ∧ t.readAll 47 46 ds = some t' ∧ Written s' t' := by
  induction path using decodeEscapes.induct with
  | case1 =>
    intro s t s' h hs
    cases hs
    exact ⟨[], t, rfl, rfl, h.written⟩
  | case2 =>
    intro s t s' h hs
    -- the input ends behind the percent sign
    obtain ⟨s₁, h₁, hs⟩ := uriLoop_cons hs
    cases hs
    rw [h.step] at h₁
    rw [h.percent h₁]
    exact ⟨[], t, rfl, rfl, h.text, h.written.fits, h.ok⟩
  | case3 a =>
    intro s t s' h hs
    -- the input ends behind one digit
    obtain ⟨s₁, h₁, hs⟩ := uriLoop_cons hs
    obtain ⟨s₂, h₂, hs⟩ := uriLoop_cons hs
    cases hs
    rw [h.step] at h₁
    rw [h.percent h₁] at h₂
    simp only [uriStep] at h₂
    cases ha : hexDigit a with
    | none =>
      rw [ha] at h₂
      cases h₂
    | some d =>
      rw [ha] at h₂
      cases h₂
      exact ⟨[], t, by simp [decodeEscapes, ha], rfl, h.text, h.written.fits, h.ok⟩
  | case4 a b rest ih =>
    intro s t s' h hs
    obtain ⟨s₁, h₁, hs₁⟩ := uriLoop_cons hs
    obtain ⟨s₂, h₂, hs₂⟩ := uriLoop_cons hs₁
    obtain ⟨s₃, h₃, hs₃⟩ := uriLoop_cons hs₂
    rw [h.step] at h₁
    rw [h.percent h₁] at h₂
    simp only [uriStep] at h₂
    cases ha : hexDigit a with
    | none =>
      rw [ha] at h₂
      cases h₂
    | some d =>
      rw [ha] at h₂
      cases h₂
      cases hb : hexDigit b with
      | none =>
        simp only [uriStep, hb] at h₃
        cases h₃
      | some e =>
        -- three bytes of the input leave room for one byte of the path
        have hroom : Follows { s with quotedState := s.state, decoded := d, state := .quotedSecond }
            s.state t (rest.length + 1) := by
          refine ⟨h.reads, h.text, ?_, h.ok⟩
          have hfits := h.fits
          simp only [List.length_cons] at hfits
          show s.u + _ ≤ s.data.length
          omega
        obtain ⟨t₁, ht₁, h'⟩ := hroom.decoded rfl rfl hb h₃
        obtain ⟨ds, t', hds, ht', hw⟩ := ih s₃ t₁ s' h' hs₃
        refine ⟨((d <<< 4) + e) :: ds, t', by simp [decodeEscapes, ha, hb, hds], ?_, hw⟩
        show (t.read 47 46 _).bind _ = _
        rw [ht₁]
        exact ht'
  | case5 ch rest hch ih =>
    intro s t s' h hs
    obtain ⟨s₁, h₁, hs⟩ := uriLoop_cons hs
    rw [h.step] at h₁
    obtain ⟨t₁, ht₁, h'⟩ := h.switch hch h₁
    obtain ⟨ds, t', hds, ht', hw⟩ := ih s₁ t₁ s' h' hs
    have hdecode : decodeEscapes (ch :: rest) = some (ch :: ds) := by
      unfold decodeEscapes
      rw [if_neg hch, hds]
      rfl
    refine ⟨ch :: ds, t', hdecode, ?_, hw⟩
    show (t.read 47 46 _).bind _ = _
    rw [ht₁]
    exact ht'

/-- `ehd_http_parse_complex_uri` leaves the resolved path. -/
theorem uriLoop_resolve {area path : List UInt8} (harea : path.length < area.length)
    (hslash : path.head? = some 47) (h : uriLoop (.init area) path = some s') :
    ∃ t, resolve path = some t ∧ Written s' t := by
  cases path with
  | nil => cases hslash
  | cons c rest =>
    have hc : c = 47 := Option.some.inj hslash
    subst hc
    obtain ⟨s₁, h₁, hs⟩ := uriLoop_cons h
    cases h₁
    rw [List.length_cons] at harea
    have hroot : Follows { (UriScan.init area).put 47 with uriExt := none, state := .slash } .slash
        .root rest.length := by
      refine ⟨rfl, ?_, ?_, Trail.ok_root⟩
      · cases area with
        | nil =>
          rw [List.length_nil] at harea
          omega
        | cons a area => rfl
      · show 0 + 1 + rest.length ≤ (area.set 0 47).length
        rw [List.length_set]
        omega
    obtain ⟨ds, t, hds, ht, hw⟩ := uriLoop_follows rest _ _ _ hroot hs
    refine ⟨t, ?_, hw⟩
    show (decodeEscapes rest).bind _ = _
    rw [hds]
    exact ht

structure Plain (t : Trail UInt8) : Prop extends t.Ok 47 46 where
  noDot : ∀ n ∈ t.names ++ [t.cur], n.head? ≠ some 46

theorem plain_root : Plain .root := by
  refine ⟨Trail.ok_root, ?_⟩
  intro n hn
  rw [List.mem_singleton.1 hn]
  simp [Trail.root]

theorem Plain.slash (h : Plain t) (hcur : t.cur ≠ []) : Plain ⟨t.names ++ [t.cur], []⟩ := by
  have hdot : t.cur.head? ≠ some 46 := h.noDot _ (by simp)
  refine ⟨⟨?_, List.not_mem_nil⟩, ?_⟩
  · intro n hn
    rcases List.mem_append.1 hn with hn | hn
    · exact h.names n hn
    · rw [List.mem_singleton.1 hn]
      refine ⟨h.cur, hcur, ?_, ?_⟩ <;> intro heq <;> exact hdot (by rw [heq]; rfl)
  · intro n hn
    rcases List.mem_append.1 hn with hn | hn
    · exact h.noDot n hn
    · rw [List.mem_singleton.1 hn]
      simp

theorem Plain.letter (h : Plain t) (hslash : ch ≠ 47) (hdot : t.cur = [] → ch ≠ 46) :
    Plain ⟨t.names, t.cur ++ [ch]⟩ := by
  have hcur := h.noDot t.cur (by simp)
  refine ⟨⟨h.names, ?_⟩, ?_⟩
  · intro hmem
    rcases List.mem_append.1 hmem with hmem | hmem
    · exact h.cur hmem
    · exact hslash (List.mem_singleton.1 hmem).symm
  · intro n hn
    rcases List.mem_append.1 hn with hn | hn
    · exact h.noDot n (List.mem_append_left _ hn)
    · rw [List.mem_singleton.1 hn]
      cases hc : t.cur with
      | nil => simpa using hdot hc
      | cons c cs =>
        rw [hc] at hcur
        simpa using hcur

/-- The bytes from `uri_start` to `e` are a path: it starts with a slash, and one
that is not marked complex is plain, and fits the state. -/
structure PathAt (buf : List UInt8) (r : ParseState) (e : Nat) (C : List UInt8 → Prop) : Prop where
  slash : buf[r.uriStart]? = some 47
  lt : r.uriStart < e
  le : e ≤ buf.length
  plain : r.complexUri = false →
    ∃ t, Plain t ∧ (buf.drop r.uriStart).take (e - r.uriStart) = t.text 47 ∧ C t.cur

def TargetInv (buf : List UInt8) (st : RequestLineSw) (r : ParseState) (p : Nat) : Prop :=
  match st with
  | .start | .method | .spaceAfterMethod | .spacesBeforeUri | .schema | .schemaSlash
  | .schemaSlashSlash | .host | .port => r.complexUri = false ∧ r.argsStart = none
  | .afterSlashInUri => r.argsStart = none ∧ PathAt buf r p (· = [])
  | .checkUri => r.argsStart = none ∧ PathAt buf r p (· ≠ [])
  | .uri =>
    match r.argsStart with
    | none => r.complexUri = true ∧ PathAt buf r p fun _ => True
    | some a => PathAt buf r (a - 1) fun _ => True
  | _ => PathAt buf r (r.uriStart + r.uriLen) fun _ => True

variable {buf : List UInt8} {r r' : ParseState} {p e : Nat} {C C' : List UInt8 → Prop}

theorem PathAt.mono (h : PathAt buf r e C) (hstart : r'.uriStart = r.uriStart)
    (hcomplex : r'.complexUri = r.complexUri) : PathAt buf r' e fun _ => True := by
  refine ⟨by rw [hstart]; exact h.slash, by rw [hstart]; exact h.lt, h.le, ?_⟩
  intro hplain
  obtain ⟨t, ht, htext, -⟩ := h.plain (hcomplex ▸ hplain)
  exact ⟨t, ht, by rw [hstart]; exact htext, trivial⟩

theorem take_succ_path (hlt : r.uriStart < p) (hch : buf[p]? = some ch) :
    (buf.drop r.uriStart).take (p + 1 - r.uriStart) =
      (buf.drop r.uriStart).take (p - r.uriStart) ++ [ch] := by
  rw [show p + 1 - r.uriStart = (p - r.uriStart) + 1 by omega, List.take_add_one,
    List.getElem?_drop, show r.uriStart + (p - r.uriStart) = p by omega, hch]
  rfl

theorem lt_length_of_getElem? (hch : buf[p]? = some ch) : p < buf.length :=
  (List.getElem?_eq_some_iff.1 hch).1

theorem PathAt.letter (h : PathAt buf r p C) (hch : buf[p]? = some ch) (hslash : ch ≠ 47)
    (hdot : ∀ cur, C cur → cur = [] → ch ≠ 46) (hstart : r'.uriStart = r.uriStart)
    (hcomplex : r'.complexUri = r.complexUri) : PathAt buf r' (p + 1) (· ≠ []) := by
  have hlt := h.lt
  refine ⟨by rw [hstart]; exact h.slash, by omega, lt_length_of_getElem? hch, ?_⟩
  intro hplain
  obtain ⟨t, ht, htext, hcur⟩ := h.plain (hcomplex ▸ hplain)
  refine ⟨_, ht.letter hslash (hdot _ hcur), ?_, by simp⟩
  rw [hstart, take_succ_path hlt hch, htext, text_concat]

theorem pathAt_slash (hch : buf[p]? = some 47) (hstart : r'.uriStart = p) :
    PathAt buf r' (p + 1) (· = []) := by
  have hlt := lt_length_of_getElem? hch
  refine ⟨by rw [hstart]; exact hch, by omega, hlt, ?_⟩
  intro _
  refine ⟨.root, plain_root, ?_, rfl⟩
  rw [hstart, show p + 1 - p = 0 + 1 by omega, List.take_add_one, List.take_zero,
    List.getElem?_drop, Nat.add_zero, hch]
  rfl

theorem PathAt.complex (h : PathAt buf r p C) (hch : buf[p]? = some ch)
    (hstart : r'.uriStart = r.uriStart) (hcomplex : r'.complexUri = true) :
    PathAt buf r' (p + 1) C' := by
  have hlt := h.lt
  refine ⟨by rw [hstart]; exact h.slash, by omega, lt_length_of_getElem? hch, ?_⟩
  intro hplain
  rw [hcomplex] at hplain
  cases hplain

theorem PathAt.ends (h : PathAt buf r p C) (hstart : r'.uriStart = r.uriStart)
    (hcomplex : r'.complexUri = r.complexUri) (hlen : r'.uriStart + r'.uriLen = p) :
    PathAt buf r' (r'.uriStart + r'.uriLen) fun _ => True := by
  rw [hlen]
  exact h.mono hstart hcomplex

theorem uriLen_none (h : r.argsStart = none) : r.uriLen = r.uriEnd - r.uriStart := by
  unfold ParseState.uriLen
  rw [h]

theorem uriLen_some {a : Nat} (h : r.argsStart = some a) : r.uriLen = a - 1 - r.uriStart := by
  unfold ParseState.uriLen
  rw [h]

theorem PathAt.endsAt (h : PathAt buf r p C) (hargs : r'.argsStart = none)
    (hstart : r'.uriStart = r.uriStart) (hcomplex : r'.complexUri = r.complexUri)
    (hend : r'.uriEnd = p) : PathAt buf r' (r'.uriStart + r'.uriLen) fun _ => True := by
  have hlt := h.lt
  apply h.ends hstart hcomplex
  rw [uriLen_none hargs, hend, hstart]
  omega

theorem PathAt.endsArgs {a : Nat} (h : PathAt buf r (a - 1) C) (hargs : r'.argsStart = some a)
    (hstart : r'.uriStart = r.uriStart) (hcomplex : r'.complexUri = r.complexUri) :
    PathAt buf r' (r'.uriStart + r'.uriLen) fun _ => True := by
  have hlt := h.lt
  apply h.ends hstart hcomplex
  rw [uriLen_some hargs, hstart]
  omega

/-- The target after one more byte, by cases on the state. -/
theorem requestLineStep_target {st st' : RequestLineSw} (hI : TargetInv buf st r p)
    (hch : buf[p]? = some ch) (hs : requestLineStep buf st r (p + 1) ch = .next st' r') :
    TargetInv buf st' r' (p + 1) := by
  cases st with
  | afterSlashInUri =>
    obtain ⟨hargs, hpath⟩ := hI
    simp only [requestLineStep, Nat.add_sub_cancel] at hs
    split_ifs at hs with hcr hlf hsp hdot hslash hquery
    · cases hs
      exact hpath.endsAt hargs rfl rfl rfl
    · cases hs
      exact hpath.endsAt hargs rfl rfl rfl
    · cases hs
      exact hpath.endsAt hargs rfl rfl rfl
    · cases hs
      -- the URI goes on behind a dot: it is complex
      unfold TargetInv
      simp only [hargs]
      exact ⟨trivial, hpath.complex hch rfl rfl⟩
    · cases hs
      exact ⟨hargs, hpath.complex hch rfl rfl⟩
    · cases hs
      show PathAt buf _ (p + 1 - 1) fun _ => True
      -- the path ends before the question mark
      exact hpath.mono rfl rfl
    · cases hs
      refine ⟨hargs, hpath.letter hch hslash ?_ rfl rfl⟩
      intro cur _ _ he
      exact hdot (Or.inl he)
  | checkUri =>
    obtain ⟨hargs, hpath⟩ := hI
    simp only [requestLineStep, Nat.add_sub_cancel] at hs
    split_ifs at hs with hcr hlf hsp hdot hslash hpercent hquery
    · cases hs
      exact hpath.endsAt hargs rfl rfl rfl
    · cases hs
      exact hpath.endsAt hargs rfl rfl rfl
    · cases hs
      exact hpath.endsAt hargs rfl rfl rfl
    · cases hs
      refine ⟨hargs, hpath.letter hch (by rw [hdot]; decide) ?_ rfl rfl⟩
      intro cur hcur hnil
      exact absurd hnil hcur
    · cases hs
      -- the slash ends a name
      have hlt := hpath.lt
      refine ⟨hargs, hpath.slash, by show r.uriStart < p + 1; omega, lt_length_of_getElem? hch, ?_⟩
      intro hplain
      obtain ⟨t, ht, htext, hcur⟩ := hpath.plain hplain
      refine ⟨_, ht.slash hcur, ?_, rfl⟩
      rw [hslash] at hch
      rw [take_succ_path hlt hch, htext, text_slash]
    · cases hs
      unfold TargetInv
      simp only [hargs]
      exact ⟨trivial, hpath.complex hch rfl rfl⟩
    · cases hs
      show PathAt buf _ (p + 1 - 1) fun _ => True
      exact hpath.mono rfl rfl
    · cases hs
      refine ⟨hargs, hpath.letter hch hslash ?_ rfl rfl⟩
      intro cur hcur hnil
      exact absurd hnil hcur
  | uri =>
    -- a complex path goes on here, and so do the arguments
    cases hargs : r.argsStart with
    | none =>
      simp only [TargetInv, hargs] at hI
      simp only [requestLineStep, Nat.add_sub_cancel] at hs
      split_ifs at hs with hcr hlf hsp
      · cases hs
        exact hI.2.endsAt hargs rfl rfl rfl
      · cases hs
        exact hI.2.endsAt hargs rfl rfl rfl
      · cases hs
        exact hI.2.endsAt hargs rfl rfl rfl
      · cases hs
        unfold TargetInv
        simp only [hargs]
        exact ⟨hI.1, hI.2.complex hch rfl hI.1⟩
    | some a =>
      simp only [TargetInv, hargs] at hI
      simp only [requestLineStep, Nat.add_sub_cancel] at hs
      split_ifs at hs with hcr hlf hsp
      · cases hs
        exact hI.endsArgs hargs rfl rfl
      · cases hs
        exact hI.endsArgs hargs rfl rfl
      · cases hs
        exact hI.endsArgs hargs rfl rfl
      · cases hs
        unfold TargetInv
        simp only [hargs]
        exact hI
  | spacesBeforeUri =>
    simp only [requestLineStep, Nat.add_sub_cancel] at hs
    split_ifs at hs with hslash hsp hletter
    · cases hs
      rw [hslash] at hch
      exact ⟨hI.2, pathAt_slash hch rfl⟩
    · cases hs
      exact hI
    · cases hs
      exact hI
  | host =>
    simp only [requestLineStep, Nat.add_sub_cancel] at hs
    split_ifs at hs with hcolon hslash hletter
    · cases hs
      exact hI
    · cases hs
      rw [hslash] at hch
      exact ⟨hI.2, pathAt_slash hch rfl⟩
    · cases hs
      exact hI
  | port =>
    simp only [requestLineStep, Nat.add_sub_cancel] at hs
    split_ifs at hs with hslash hdigit
    · cases hs
      rw [hslash] at hch
      exact ⟨hI.2, pathAt_slash hch rfl⟩
    · cases hs
      exact hI
  | start | method | spaceAfterMethod | schema | schemaSlash | schemaSlashSlash =>
    simp only [requestLineStep] at hs
    split_ifs at hs <;> cases hs <;> exact hI
  | http09 | httpH | httpHT | httpHTT | httpHTTP | firstMajorDigit | majorDigit
  | firstMinorDigit | minorDigit | almostDone | done =>
    simp only [requestLineStep] at hs
    repeat' split at hs
    all_goals cases hs
    all_goals exact ⟨hI.slash, hI.lt, hI.le, hI.plain⟩

theorem parseRequestLine_path {b b' : Buf} {p : ParseState}
    (h : parseRequestLine {} b = (.ok, p, b')) :
    PathAt b.bytes p (p.uriStart + p.uriLen) fun _ => True := by
  obtain ⟨r', hloop, hdone⟩ := parseRequestLine_ok h
  have hI : TargetInv b.bytes .done r' b'.pos := by
    refine Scanner.scan_invariant_drop (I := TargetInv b.bytes) ?_ hloop ⟨rfl, rfl⟩
    intro st r p x st' r' hI hx _ hs
    exact requestLineStep_target hI hx hs
  have hp : p = (requestLineDone r' b'.pos).2 := by rw [hdone]
  rw [hp]
  unfold requestLineDone
  dsimp only
  split <;> exact ⟨hI.slash, hI.lt, hI.le, hI.plain⟩

theorem cpystrn_length (dst src : List UInt8) (n : Nat) : (cpystrn dst src n).length = dst.length := by
  induction dst generalizing src n with
  | nil =>
    cases n <;> rfl
  | cons d dst ih =>
    match n with
    | 0 => rfl
    | 1 => rfl
    | n + 2 =>
      unfold cpystrn
      split
      · rfl
      · rw [List.length_cons, ih, List.length_cons]

theorem cpystrn_nul (a : UInt8) (dst src : List UInt8) (n : Nat) :
    cpystrn (a :: dst) (0 :: src) (n + 2) = 0 :: dst := rfl

theorem cpystrn_cons {c : UInt8} (hc : c ≠ 0) (a : UInt8) (dst src : List UInt8) (n : Nat) :
    cpystrn (a :: dst) (c :: src) (n + 2) = c :: cpystrn dst src (n + 1) := if_neg hc

/-- `ehd_cpystrn` copies a C string. -/
theorem cString_cpystrn (area src : List UInt8) (n : Nat) (harea : area.length = n + 1) :
    cString ((cpystrn area src (n + 1)).take n) = cString (src.take n) := by
  induction n generalizing area src with
  | zero => rfl
  | succ n ih =>
    cases area with
    | nil => cases harea
    | cons a area =>
      rw [List.length_cons] at harea
      cases src with
      | nil => simp [cString, cpystrn]
      | cons c src =>
        by_cases hc : c = 0
        · rw [hc, cpystrn_nul]
          simp [cString]
        · have hrest := ih area src (by omega)
          unfold cString at hrest ⊢
          rw [cpystrn_cons hc, List.take_succ_cons, List.take_succ_cons, List.takeWhile_cons,
            List.takeWhile_cons, hrest]

/-- All of the path is copied when no NUL stands before its last byte. -/
theorem take_cpystrn (area src : List UInt8) (n : Nat) (harea : area.length = n + 1)
    (hsrc : n ≤ src.length) (hnul : 0 ∉ (src.take n).dropLast) :
    (cpystrn area src (n + 1)).take n = src.take n := by
  induction n generalizing area src with
  | zero => rfl
  | succ n ih =>
    cases area with
    | nil => cases harea
    | cons a area =>
      cases src with
      | nil =>
        rw [List.length_nil] at hsrc
        omega
      | cons c src =>
        rw [List.length_cons] at harea hsrc
        cases n with
        | zero =>
          by_cases hc : c = 0
          · rw [hc, cpystrn_nul]
            rfl
          · rw [cpystrn_cons hc]
            rfl
        | succ n =>
          obtain ⟨c', cs, hcs⟩ : ∃ c' cs, src.take (n + 1) = c' :: cs := by
            cases src with
            | nil =>
              rw [List.length_nil] at hsrc
              omega
            | cons c' src => exact ⟨c', src.take n, rfl⟩
          have hc : c ≠ 0 := by
            rintro rfl
            apply hnul
            rw [List.take_succ_cons, hcs]
            exact List.mem_cons_self
          have hrest : 0 ∉ (src.take (n + 1)).dropLast := by
            intro hmem
            apply hnul
            rw [List.take_succ_cons]
            rw [hcs] at hmem ⊢
            exact List.mem_cons_of_mem _ hmem
          rw [cpystrn_cons hc, List.take_succ_cons, ih area src (by omega) (by omega) hrest,
            List.take_succ_cons]

end Ehd.Http
