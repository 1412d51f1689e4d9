import Ehttpd.Http.Escapes
import Ehttpd.Lib.While

namespace Ehd.Http

open DotSegments

/-- The local variables; `u` and `uri_ext` are distances from `r->uri.data`. -/
structure UriRegs where
  state : UriSw
  quotedState : UriSw
  decoded : UInt8
  ch : UInt8
  p : Nat
  u : Int
  data : List UInt8
  uriExt : Option Int
  deriving DecidableEq, Repr

/-- `EHD_HTTP_PARSE_INVALID_REQUEST`, or an access outside the memory that the loop may use. -/
inductive UriStop
  | invalidRequest | outside
  deriving DecidableEq, Repr

def UriRegs.next (input : List UInt8) (m : UriRegs) : Except UriStop UriRegs :=
  match input[m.p]? with
  | some ch => .ok { m with ch := ch, p := m.p + 1 }
  | none => .error .outside

def UriRegs.put (m : UriRegs) : Except UriStop UriRegs :=
  if 0 ≤ m.u ∧ m.u < m.data.length then
    .ok { m with data := m.data.set m.u.toNat m.ch, u := m.u + 1 }
  else .error .outside

/-- `while (*(u - 1) != '/') u--`; `none` where it reads a byte outside the area. -/
def backToSlash (data : List UInt8) : Nat → Option Nat
  | 0 => none
  | u + 1 =>
    match data[u]? with
    | some c => if c = 47 then some (u + 1) else backToSlash data u
    | none => none

def uriRound (input : List UInt8) (m : UriRegs) : Except UriStop UriRegs :=
  match m.state with
  | .usual =>
    if m.ch = 47 then
      ({ m with uriExt := none, state := .slash } : UriRegs).put.bind (·.next input)
    else if m.ch = 37 then
      ({ m with quotedState := m.state, state := .quoted } : UriRegs).next input
    else if m.ch = 46 then
      ({ m with uriExt := some (m.u + 1) } : UriRegs).put.bind (·.next input)
    else m.put.bind (·.next input)
  | .slash =>
    if m.ch = 47 then m.next input
    else if m.ch = 46 then ({ m with state := .dot } : UriRegs).put.bind (·.next input)
    else if m.ch = 37 then
      ({ m with quotedState := m.state, state := .quoted } : UriRegs).next input
    else ({ m with state := .usual } : UriRegs).put.bind (·.next input)
  | .dot =>
    if m.ch = 47 then ({ m with state := .slash, u := m.u - 1 } : UriRegs).next input
    else if m.ch = 46 then ({ m with state := .dotDot } : UriRegs).put.bind (·.next input)
    else if m.ch = 37 then
      ({ m with quotedState := m.state, state := .quoted } : UriRegs).next input
    else ({ m with state := .usual } : UriRegs).put.bind (·.next input)
  | .dotDot =>
    if m.ch = 47 then
      if m.u - 4 < 0 then .error .invalidRequest
      else
        match backToSlash m.data (m.u - 4).toNat with
        | some u => ({ m with state := .slash, u := u } : UriRegs).next input
        | none => .error .outside
    else if m.ch = 37 then
      ({ m with quotedState := m.state, state := .quoted } : UriRegs).next input
    else ({ m with state := .usual } : UriRegs).put.bind (·.next input)
  | .quoted =>
    match hexDigit m.ch with
    | some d => ({ m with decoded := d, state := .quotedSecond } : UriRegs).next input
    | none => .error .invalidRequest
  | .quotedSecond =>
    match hexDigit m.ch with
    | some d =>
      -- the decoded byte is met again in the next round, and nothing is read
      if (m.decoded <<< 4) + d = 37 then
        ({ m with ch := (m.decoded <<< 4) + d, state := .usual } : UriRegs).put.bind (·.next input)
      else .ok { m with ch := (m.decoded <<< 4) + d, state := m.quotedState }
    | none => .error .invalidRequest

def uriGuard (n : Nat) (m : UriRegs) : Bool := m.p < n + 1

/-- The variables before the loop; `ch` is the byte that has been read first. -/
def UriRegs.start (area : List UInt8) (ch : UInt8) : UriRegs :=
  { state := .usual, quotedState := .usual, decoded := 0, ch := ch, p := 1, u := 0, data := area
    uriExt := none }

/-- What the code after the loop stores: `r->uri`, and the place and the length of the
extension in it. -/
structure UriStored where
  uri : Str
  exten : Option (Int × Int)
  deriving DecidableEq, Repr

def uriDone (m : UriRegs) : Except UriStop UriStored :=
  if 0 ≤ m.u ∧ m.u < m.data.length then
    .ok ⟨⟨m.u.toNat, m.data.set m.u.toNat 0⟩, m.uriExt.map fun e => (e, m.u - e)⟩
  else .error .outside

/-- `ehd_http_parse_complex_uri` on a path of `n` bytes at the start of `input`. -/
def complexUriPointers (input : List UInt8) (n : Nat) (area : List UInt8) (fuel : Nat) :
    Option (Except UriStop UriStored) :=
  match input[0]? with
  | some ch =>
    (While.run (uriGuard n) (uriRound input) fuel (.start area ch)).map (·.bind uriDone)
  | none => some (.error .outside)

def UriScan.regs (s : UriScan) (ch : UInt8) (p : Nat) : UriRegs :=
  { state := s.state, quotedState := s.quotedState, decoded := s.decoded, ch := ch, p := p
    u := s.u, data := s.data, uriExt := s.uriExt.map Int.ofNat }

def UriScan.outer (s : UriScan) : UriSw :=
  match s.state with
  | .quoted | .quotedSecond => s.quotedState
  | st => st

variable {s s' : UriScan} {ch c : UInt8} {p n : Nat} {input area : List UInt8}

theorem outer_of_plain (hs : s.Plain) : s.outer = s.state := by
  obtain ⟨hquoted, hsecond⟩ := hs
  unfold UriScan.outer
  split
  · exact absurd ‹_› hquoted
  · exact absurd ‹_› hsecond
  · rfl

theorem regs_next (h : input[p]? = some c) : (s.regs ch p).next input = .ok (s.regs c (p + 1)) := by
  unfold UriRegs.next
  have hread : input[(s.regs ch p).p]? = some c := h
  rw [hread]
  rfl

theorem regs_put (hu : s.u < s.data.length) : (s.regs ch p).put = .ok ((s.put ch).regs ch p) := by
  have hin : 0 ≤ (s.regs ch p).u ∧ (s.regs ch p).u < (s.regs ch p).data.length :=
    ⟨Int.natCast_nonneg _, Int.ofNat_lt.2 hu⟩
  unfold UriRegs.put
  rw [if_pos hin]
  rfl

theorem regs_put_next (hu : s.u < s.data.length) (h : input[p]? = some c) :
    (s.regs ch p).put.bind (·.next input) = .ok ((s.put ch).regs c (p + 1)) := by
  rw [regs_put hu]
  exact regs_next h

/-- The scan for a slash stays in the area if it ends behind one. -/
theorem backToSlash_eq {data : List UInt8} {u : Nat} (hu : u ≤ data.length)
    (hpos : 0 < scanBack data u) : backToSlash data u = some (scanBack data u) := by
  induction u with
  | zero => exact absurd hpos (Nat.lt_irrefl 0)
  | succ u ih =>
    have hlt : u < data.length := hu
    have hget : data.getD u 0 = data[u] := List.getD_eq_getElem _ _ hlt
    unfold backToSlash scanBack
    unfold scanBack at hpos
    rw [hget] at hpos ⊢
    rw [List.getElem?_eq_getElem hlt]
    dsimp only
    by_cases hslash : data[u] = 47
    · rw [if_pos hslash, if_pos hslash]
    · rw [if_neg hslash] at hpos
      rw [if_neg hslash, if_neg hslash]
      exact ih (Nat.le_of_lt hlt) hpos

/-- What a round needs of the area: room for a byte, and where `u` moves back, that it can. -/
structure Room (s : UriScan) : Prop where
  lt : s.u < s.data.length
  dot : s.state = .dot → 0 < s.u
  back : s.state = .dotDot → 4 ≤ s.u → 0 < scanBack s.data (s.u - 4)

/-- What a round does outside of escapes. -/
theorem uriRound_switch (hs : s.Plain) (hroom : Room s) (h : input[p]? = some c) :
    uriRound input (s.regs ch p) =
      match uriSwitch s ch with
      | some s' => .ok (s'.regs c (p + 1))
      | none => .error .invalidRequest := by
  obtain ⟨hlt, hdot, hback⟩ := hroom
  cases hstate : s.state with
  | usual =>
    obtain ⟨st, quotedState, decoded, u, data, uriExt⟩ := s
    obtain rfl : st = .usual := hstate
    show (if ch = 47 then _ else if ch = 37 then _ else if ch = 46 then _ else _) = _
    unfold uriSwitch
    dsimp only
    split_ifs with hslash hpercent hext
    · exact regs_put_next (s := ⟨.slash, quotedState, decoded, u, data, none⟩) hlt h
    · exact regs_next (s := ⟨.quoted, .usual, decoded, u, data, uriExt⟩) h
    · exact regs_put_next (s := ⟨.usual, quotedState, decoded, u, data, some (u + 1)⟩) hlt h
    · exact regs_put_next hlt h
  | slash =>
    have hst : (s.regs ch p).state = .slash := hstate
    simp only [uriRound, hst, uriSwitch, hstate]
    show (if ch = 47 then _ else if ch = 46 then _ else if ch = 37 then _ else _) = _
    split_ifs with hslash hdot' hpercent
    · exact regs_next h
    · exact regs_put_next (s := { s with state := .dot }) hlt h
    · exact regs_next (s := { s with quotedState := .slash, state := .quoted }) h
    · exact regs_put_next (s := { s with state := .usual }) hlt h
  | dot =>
    have hst : (s.regs ch p).state = .dot := hstate
    simp only [uriRound, hst, uriSwitch, hstate]
    show (if ch = 47 then _ else if ch = 46 then _ else if ch = 37 then _ else _) = _
    split_ifs with hslash hdot' hpercent
    -- after a dot something has been written, so `u` can go back
    · have hu : (s.u : Int) - 1 = ((s.u - 1 : Nat) : Int) := by
        have hpos := hdot hstate
        omega
      have hregs : ({ s.regs ch p with state := .slash, u := (s.regs ch p).u - 1 } : UriRegs) =
          ({ s with state := .slash, u := s.u - 1 } : UriScan).regs ch p := by
        unfold UriScan.regs
        rw [hu]
      rw [hregs]
      exact regs_next h
    · exact regs_put_next (s := { s with state := .dotDot }) hlt h
    · exact regs_next (s := { s with quotedState := .dot, state := .quoted }) h
    · exact regs_put_next (s := { s with state := .usual }) hlt h
  | dotDot =>
    have hst : (s.regs ch p).state = .dotDot := hstate
    simp only [uriRound, hst, uriSwitch, hstate]
    show (if ch = 47 then if (s.u : Int) - 4 < 0 then _ else _ else if ch = 37 then _ else _) = _
    split_ifs with hslash hneg hlow hlow' hpercent
    · rfl
    · omega
    · omega
    · have hu : ((s.u : Int) - 4).toNat = s.u - 4 := by omega
      -- the walk back meets a slash before the start of the area
      have hscan : backToSlash s.data ((s.u : Int) - 4).toNat = some (scanBack s.data (s.u - 4)) := by
        rw [hu]
        exact backToSlash_eq (by omega) (hback hstate (by omega))
      show (match backToSlash s.data ((s.u : Int) - 4).toNat with
        | some u => ({ s.regs ch p with state := .slash, u := u } : UriRegs).next input
        | none => .error .outside) = _
      rw [hscan]
      exact regs_next (s := { s with state := .slash, u := scanBack s.data (s.u - 4) }) h
    · exact regs_next (s := { s with quotedState := .dotDot, state := .quoted }) h
    · exact regs_put_next (s := { s with state := .usual }) hlt h
  | quoted => exact absurd hstate hs.1
  | quotedSecond => exact absurd hstate hs.2

/-- What a round does with a digit of an escape. -/
theorem uriRound_quoted (hs : s.state = .quoted) (h : input[p]? = some c) :
    uriRound input (s.regs ch p) =
      match uriStep s ch with
      | some s' => .ok (s'.regs c (p + 1))
      | none => .error .invalidRequest := by
  obtain ⟨st, quotedState, decoded, u, data, uriExt⟩ := s
  obtain rfl : st = .quoted := hs
  unfold uriStep
  dsimp only
  show (match hexDigit ch with
    | some d => _
    | none => _) = _
  cases hexDigit ch with
  | none => rfl
  | some d => exact regs_next (s := ⟨.quotedSecond, quotedState, d, u, data, uriExt⟩) h

/-- The second digit: nothing is read before the decoded byte has been met in its state. -/
theorem uriRound_second (hs : s.state = .quotedSecond) (hlt : s.u < s.data.length)
    (h : input[p]? = some c) :
    uriRound input (s.regs ch p) =
      match hexDigit ch with
      | some d =>
        if (s.decoded <<< 4) + d = 37 then
          .ok (({ s.put ((s.decoded <<< 4) + d) with state := .usual } : UriScan).regs c (p + 1))
        else .ok (({ s with state := s.quotedState } : UriScan).regs ((s.decoded <<< 4) + d) p)
      | none => .error .invalidRequest := by
  obtain ⟨st, quotedState, decoded, u, data, uriExt⟩ := s
  obtain rfl : st = .quotedSecond := hs
  show (match hexDigit ch with
    | some d => _
    | none => _) = _
  cases hexDigit ch with
  | none => rfl
  | some d =>
    show (if (decoded <<< 4) + d = 37 then _ else _) = if (decoded <<< 4) + d = 37 then _ else _
    by_cases hpercent : (decoded <<< 4) + d = 37
    · rw [if_pos hpercent, if_pos hpercent]
      exact regs_put_next (s := ⟨.usual, quotedState, decoded, u, data, uriExt⟩) hlt h
    · rw [if_neg hpercent, if_neg hpercent]
      rfl

/-- The extension starts in what has been written, and only a name has one. -/
def ExtOk (s : UriScan) : Prop := ∀ e, s.uriExt = some e → s.outer = .usual ∧ e ≤ s.u

/-- `ch` has been read and not yet met; what comes of it and of the rest of the path is
what the loop over the bytes gives. -/
structure AtHead (input area : List UInt8) (n : Nat) (s : UriScan) (ch : UInt8) (p : Nat) : Prop where
  pos : 0 < p
  le : p ≤ n + 1
  length : s.data.length = n + 1
  ext : ExtOk s
  written : s = .init area ∧ ch = 47 ∧ p = 1 ∨ ∃ t, Follows s s.outer t (n + 2 - p)
  agrees : uriLoop (.init area) (input.take n) =
    if p ≤ n then uriLoop s (ch :: (input.take n).drop p) else some s

theorem Follows.less {t : Trail UInt8} {sw : UriSw} {room room' : Nat} (h : Follows s sw t room)
    (hle : room' ≤ room) : Follows s sw t room' :=
  ⟨h.reads, h.text, by have := h.fits; omega, h.ok⟩

theorem Follows.outer_plain {t : Trail UInt8} {room : Nat} (h : Follows s s.outer t room) :
    s.outer ≠ .quoted ∧ s.outer ≠ .quotedSecond := h.reads.plain

theorem uriSwitch_ext (hs : s.Plain) (hext : ExtOk s) (h : uriSwitch s ch = some s') : ExtOk s' := by
  have houter := outer_of_plain hs
  obtain ⟨st, quotedState, decoded, u, data, uriExt⟩ := s
  dsimp only at houter
  unfold uriSwitch at h
  dsimp only at h
  cases st with
  | usual =>
    dsimp only at h
    split_ifs at h
    · cases h
      intro e he
      cases he
    · cases h
      exact hext
    · cases h
      intro e he
      cases he
      exact ⟨rfl, Nat.le_refl _⟩
    · cases h
      intro e he
      exact ⟨rfl, Nat.le_succ_of_le (hext e he).2⟩
  | slash | dot | dotDot =>
    -- no extension is known in these states
    have hnone : uriExt = none := by
      rw [Option.eq_none_iff_forall_ne_some]
      intro e he
      have husual := (hext e he).1
      rw [houter] at husual
      cases husual
    dsimp only at h
    split_ifs at h
    all_goals
      cases h
      intro e he
      exact absurd (hnone.symm.trans he) nofun
  | quoted => exact absurd rfl hs.1
  | quotedSecond => exact absurd rfl hs.2

/-- The rest of the path behind a byte that has been met. -/
theorem AtHead.consumed (h : AtHead input area n s ch p) (hle : p ≤ n)
    (hstep : uriStep s ch = some s') (hc : input[p]? = some c) :
    uriLoop (.init area) (input.take n) =
      if p + 1 ≤ n then uriLoop s' (c :: (input.take n).drop (p + 1)) else some s' := by
  have hagrees := h.agrees
  rw [if_pos hle, uriLoop, hstep, Option.bind_some] at hagrees
  rw [hagrees]
  by_cases hlt : p + 1 ≤ n
  · have hget : (input.take n)[p]? = some c := by
      rw [List.getElem?_take_of_lt hlt, hc]
    rw [if_pos hlt]
    obtain ⟨hp, hc'⟩ := List.getElem?_eq_some_iff.1 hget
    rw [List.drop_eq_getElem_cons hp, hc']
  · have hp : p = n := by omega
    rw [if_neg hlt, hp, List.drop_eq_nil_of_le (List.length_take_le _ _)]
    rfl

/-- What the invariant gives for a round outside of escapes. -/
theorem Follows.room {t : Trail UInt8} (h : Follows s s.state t (n + 2 - p)) (hle : p ≤ n)
    (hlength : s.data.length = n + 1) : Room s := by
  have hfits := h.fits
  have hu := h.length
  refine ⟨by omega, ?_, ?_⟩
  · intro _
    rw [hu]
    exact Nat.succ_pos _
  · intro hstate hfour
    have hreads := h.reads
    rw [hstate] at hreads
    have hcur : t.cur = [46, 46] := hreads
    have hless : Follows s s.state t (0 + 1) := h.less (by omega)
    rcases List.eq_nil_or_concat t.names with hnames | ⟨ns, m, hnames⟩
    · -- two dots at the root are three bytes
      unfold Trail.text at hu
      rw [hnames, hcur] at hu
      have hthree : s.u = 3 := hu
      omega
    · rw [List.concat_eq_append] at hnames
      rw [(hless.up hcur hnames).2.1]
      exact Nat.succ_pos _

def HeadInv (input area : List UInt8) (n : Nat) (m : UriRegs) : Prop :=
  ∃ s ch p, m = s.regs ch p ∧ AtHead input area n s ch p

/-- Each round reads a byte, or comes from the second digit of an escape to another state. -/
def headMeasure (n : Nat) (m : UriRegs) : Nat :=
  2 * (n + 1 - m.p) + if m.state = .quotedSecond then 1 else 0

def HeadRefused (input area : List UInt8) (n : Nat) (e : UriStop) : Prop :=
  e = .invalidRequest ∧ uriLoop (.init area) (input.take n) = none

theorem headMeasure_next (hle : p ≤ n) :
    headMeasure n (s'.regs c (p + 1)) < headMeasure n (s.regs ch p) := by
  unfold headMeasure
  show 2 * (n + 1 - (p + 1)) + _ < 2 * (n + 1 - p) + _
  split_ifs <;> omega

/-- A round that goes on with the next byte. -/
theorem round_next (h : AtHead input area n s ch p) (hle : p ≤ n) (hinput : input.length = n + 1)
    (hround : ∀ c, input[p]? = some c → uriRound input (s.regs ch p) =
      match uriStep s ch with
      | some s' => .ok (s'.regs c (p + 1))
      | none => .error .invalidRequest)
    (hnext : ∀ s', uriStep s ch = some s' → ExtOk s' ∧
      ∃ t, Follows s' s'.outer t (n + 2 - (p + 1))) :
    While.Round (HeadInv input area n) (headMeasure n) (HeadRefused input area n)
      (s.regs ch p) (uriRound input (s.regs ch p)) := by
  obtain ⟨c, hc⟩ : ∃ c, input[p]? = some c := ⟨_, List.getElem?_eq_getElem (by omega)⟩
  rw [hround c hc]
  cases hstep : uriStep s ch with
  | none =>
    refine .error ⟨rfl, ?_⟩
    rw [h.agrees, if_pos hle, uriLoop, hstep]
    rfl
  | some s' =>
    obtain ⟨hext, hfollows⟩ := hnext s' hstep
    refine .ok ⟨s', c, p + 1, rfl, ?_⟩ (headMeasure_next hle)
    exact ⟨Nat.succ_pos _, by omega, (uriStep_data hstep).trans h.length, hext, Or.inr hfollows,
      h.consumed hle hstep hc⟩

/-- The first round writes the slash. -/
theorem round_first (h : AtHead input area n (.init area) 47 1) (hn : 1 ≤ n)
    (hinput : input.length = n + 1) :
    While.Round (HeadInv input area n) (headMeasure n) (HeadRefused input area n)
      ((UriScan.init area).regs 47 1) (uriRound input ((UriScan.init area).regs 47 1)) := by
  have hlength : area.length = n + 1 := h.length
  have hroom : Room (.init area) := by
    refine ⟨?_, nofun, nofun⟩
    show 0 < area.length
    omega
  apply round_next h hn hinput
  · intro c hc
    rw [uriStep_of_plain (uriScan_init_plain area)]
    exact uriRound_switch (uriScan_init_plain area) hroom hc
  · intro s' hstep
    cases hstep
    refine ⟨nofun, .root, rfl, ?_, ?_, Trail.ok_root⟩
    · cases area with
      | nil => cases hlength
      | cons a area => rfl
    · show 0 + 1 + (n + 2 - (1 + 1)) ≤ (area.set 0 47).length
      rw [List.length_set]
      omega

/-- A round outside of escapes. -/
theorem round_plain {t : Trail UInt8} (h : AtHead input area n s ch p) (hle : p ≤ n)
    (hinput : input.length = n + 1) (hs : s.Plain) (ht : Follows s s.outer t (n + 2 - p)) :
    While.Round (HeadInv input area n) (headMeasure n) (HeadRefused input area n)
      (s.regs ch p) (uriRound input (s.regs ch p)) := by
  have houter := outer_of_plain hs
  rw [houter] at ht
  have hroom : n + 2 - p = (n + 2 - (p + 1)) + 1 := by omega
  apply round_next h hle hinput
  · intro c hc
    rw [uriStep_of_plain hs]
    exact uriRound_switch hs (ht.room hle h.length) hc
  · intro s' hstep
    rw [uriStep_of_plain hs] at hstep
    refine ⟨uriSwitch_ext hs h.ext hstep, ?_⟩
    rw [hroom] at ht
    by_cases hch : ch = 37
    · rw [hch] at hstep
      rw [ht.percent hstep]
      have hkept : Follows { s with quotedState := s.state, state := .quoted } s.state t
          (n + 2 - (p + 1) + 1) := ⟨ht.reads, ht.text, ht.fits, ht.ok⟩
      exact ⟨t, hkept.less (Nat.le_succ _)⟩
    · obtain ⟨t', -, ht'⟩ := ht.switch hch hstep
      rw [outer_of_plain (uriSwitch_plain hs hch hstep)]
      exact ⟨t', ht'⟩

/-- The first digit of an escape. -/
theorem round_quoted {t : Trail UInt8} (h : AtHead input area n s ch p) (hle : p ≤ n)
    (hinput : input.length = n + 1) (hs : s.state = .quoted) (ht : Follows s s.outer t (n + 2 - p)) :
    While.Round (HeadInv input area n) (headMeasure n) (HeadRefused input area n)
      (s.regs ch p) (uriRound input (s.regs ch p)) := by
  apply round_next h hle hinput
  · intro c hc
    exact uriRound_quoted hs hc
  · intro s' hstep
    have hext := h.ext
    obtain ⟨st, quotedState, decoded, u, data, uriExt⟩ := s
    obtain rfl : st = .quoted := hs
    unfold uriStep at hstep
    dsimp only at hstep
    cases hd : hexDigit ch with
    | none =>
      rw [hd] at hstep
      cases hstep
    | some d =>
      rw [hd] at hstep
      cases hstep
      have hkept : Follows ⟨.quotedSecond, quotedState, d, u, data, uriExt⟩ quotedState t
          (n + 2 - p) := ⟨ht.reads, ht.text, ht.fits, ht.ok⟩
      exact ⟨hext, t, hkept.less (by omega)⟩

/-- The second digit, behind which the decoded byte is met in the state before the escape. -/
theorem round_second {t : Trail UInt8} (h : AtHead input area n s ch p) (hle : p ≤ n)
    (hinput : input.length = n + 1) (hs : s.state = .quotedSecond)
    (ht : Follows s s.outer t (n + 2 - p)) :
    While.Round (HeadInv input area n) (headMeasure n) (HeadRefused input area n)
      (s.regs ch p) (uriRound input (s.regs ch p)) := by
  have houter : s.outer = s.quotedState := by
    unfold UriScan.outer
    rw [hs]
  have hplain := ht.outer_plain
  rw [houter] at ht hplain
  have hfits := ht.fits
  have hroom : n + 2 - p = (n + 2 - (p + 1)) + 1 := by omega
  obtain ⟨c, hc⟩ : ∃ c, input[p]? = some c := ⟨_, List.getElem?_eq_getElem (by omega)⟩
  rw [uriRound_second hs (by omega) hc]
  cases hd : hexDigit ch with
  | none =>
    refine .error ⟨rfl, ?_⟩
    rw [h.agrees, if_pos hle, uriLoop]
    simp only [uriStep, hs, hd, Option.bind_none]
  | some d =>
    dsimp only
    -- `%25` stays in the decoded states, any other character goes back to the state before
    by_cases hpercent : (s.decoded <<< 4) + d = 37
    · rw [if_pos hpercent]
      have hstep : uriStep s ch =
          some { s.put ((s.decoded <<< 4) + d) with state := .usual } := by
        simp only [uriStep, hs, hd]
        rw [if_pos hpercent]
      rw [hroom] at ht
      obtain ⟨t', -, ht'⟩ := ht.decoded rfl hs hd hstep
      refine .ok ⟨_, c, p + 1, rfl, Nat.succ_pos _, by omega, ?_, ?_, Or.inr ⟨t', ht'⟩,
        h.consumed hle hstep hc⟩ (headMeasure_next hle)
      · exact (uriStep_data hstep).trans h.length
      · intro e he
        exact ⟨rfl, Nat.le_succ_of_le (h.ext e he).2⟩
    · rw [if_neg hpercent]
      have hback : ({ s with state := s.quotedState } : UriScan).Plain := hplain
      -- the decoded character is read again there, at the same place
      have hmeets : uriStep s ch =
          uriStep { s with state := s.quotedState } ((s.decoded <<< 4) + d) := by
        rw [uriStep_of_plain hback]
        simp only [uriStep, hs, hd]
        rw [if_neg hpercent]
      have hsame := outer_of_plain hback
      refine .ok ⟨{ s with state := s.quotedState }, _, p, rfl, h.pos, h.le, h.length, ?_, ?_, ?_⟩ ?_
      · intro e he
        rw [hsame]
        have hbefore := h.ext e he
        rw [houter] at hbefore
        exact hbefore
      · rw [hsame]
        exact Or.inr ⟨t, ht.reads, ht.text, ht.fits, ht.ok⟩
      · rw [h.agrees, if_pos hle, if_pos hle, uriLoop, uriLoop, hmeets]
      -- the second round at one place is the last
      · unfold headMeasure
        show 2 * (n + 1 - p) + (if s.quotedState = .quotedSecond then 1 else 0) <
          2 * (n + 1 - p) + (if s.state = .quotedSecond then 1 else 0)
        rw [if_neg hplain.2, if_pos hs]
        exact Nat.lt_succ_self _

theorem AtHead.round (h : AtHead input area n s ch p) (hle : p ≤ n) (hinput : input.length = n + 1) :
    While.Round (HeadInv input area n) (headMeasure n) (HeadRefused input area n)
      (s.regs ch p) (uriRound input (s.regs ch p)) := by
  rcases h.written with ⟨rfl, rfl, rfl⟩ | ⟨t, ht⟩
  · exact round_first h hle hinput
  · by_cases hquoted : s.state = .quoted
    · exact round_quoted h hle hinput hquoted ht
    · by_cases hsecond : s.state = .quotedSecond
      · exact round_second h hle hinput hsecond ht
      · exact round_plain h hle hinput ⟨hquoted, hsecond⟩ ht

theorem atHead_start (hn : 1 ≤ n) (hinput : input.length = n + 1) (hslash : input[0]? = some 47)
    (harea : area.length = n + 1) : AtHead input area n (.init area) 47 1 := by
  refine ⟨Nat.one_pos, by omega, harea, nofun, Or.inl ⟨rfl, rfl, rfl⟩, ?_⟩
  rw [if_pos hn]
  cases input with
  | nil => cases hslash
  | cons c input =>
    obtain rfl : c = 47 := Option.some.inj hslash
    obtain ⟨k, rfl⟩ := Nat.exists_eq_succ_of_ne_zero (Nat.ne_of_gt hn)
    rfl

theorem head_rounds (hinput : input.length = n + 1) (m : UriRegs) (hm : HeadInv input area n m)
    (hguard : uriGuard n m = true) :
    While.Round (HeadInv input area n) (headMeasure n) (HeadRefused input area n) m
      (uriRound input m) := by
  obtain ⟨s, ch, p, rfl, h⟩ := hm
  have hp : p < n + 1 := of_decide_eq_true hguard
  exact h.round (by omega) hinput

/-- What is asked of the variables at every test of the guard: `u` is in the area, `p` at
most behind the byte after the path, and the round that follows touches nothing else. -/
structure InBounds (input : List UInt8) (n : Nat) (m : UriRegs) : Prop where
  low : 0 ≤ m.u
  high : m.u ≤ n
  read : m.p ≤ n + 1
  inside : uriGuard n m = true → uriRound input m ≠ .error .outside

theorem AtHead.inBounds (h : AtHead input area n s ch p) (hinput : input.length = n + 1) :
    InBounds input n (s.regs ch p) := by
  refine ⟨Int.natCast_nonneg _, ?_, h.le, ?_⟩
  · show (s.u : Int) ≤ n
    rcases h.written with ⟨rfl, -, -⟩ | ⟨t, ht⟩
    · exact Int.natCast_nonneg n
    · have hfits := ht.fits
      have hlength := h.length
      have hle := h.le
      omega
  · intro hguard houtside
    have hhead : HeadInv input area n (s.regs ch p) := ⟨s, ch, p, rfl, h⟩
    have hround := head_rounds hinput _ hhead hguard
    rw [houtside] at hround
    cases hround with
    | error he => cases he.1

structure StoredInside (n : Nat) (out : UriStored) : Prop where
  nonempty : 0 < out.uri.len
  fits : out.uri.len ≤ n
  area : out.uri.data.length = n + 1
  slash : out.uri.data[0]? = some 47
  nul : out.uri.data[out.uri.len]? = some 0
  exten : ∀ e len, out.exten = some (e, len) → 0 ≤ e ∧ 0 ≤ len ∧ e + len = out.uri.len

def UriScan.stored (s : UriScan) : UriStored :=
  ⟨⟨s.u, s.data.set s.u 0⟩, s.uriExt.map fun e : Nat => ((e : Int), (s.u : Int) - e)⟩

theorem AtHead.done (h : AtHead input area n s ch (n + 1)) (hn : 1 ≤ n) :
    uriDone (s.regs ch (n + 1)) = .ok s.stored ∧ StoredInside n s.stored := by
  have hlength := h.length
  obtain ⟨t, ht⟩ : ∃ t, Follows s s.outer t (n + 2 - (n + 1)) := by
    rcases h.written with ⟨-, -, hp⟩ | ht
    · omega
    · exact ht
  have hfits := ht.fits
  have hu := ht.length
  have hpos : 0 < (t.text 47).length := Nat.succ_pos _
  have hin : 0 ≤ (s.regs ch (n + 1)).u ∧ (s.regs ch (n + 1)).u < (s.regs ch (n + 1)).data.length := by
    refine ⟨Int.natCast_nonneg _, ?_⟩
    show (s.u : Int) < (s.data.length : Nat)
    omega
  constructor
  · unfold uriDone
    rw [if_pos hin]
    unfold UriScan.stored UriScan.regs
    cases s.uriExt <;> rfl
  · refine ⟨?_, ?_, ?_, ?_, ?_, ?_⟩
    · show 0 < s.u
      omega
    · show s.u ≤ n
      omega
    · show (s.data.set s.u 0).length = n + 1
      rw [List.length_set, hlength]
    · show (s.data.set s.u 0)[0]? = some 47
      have hne : s.u ≠ 0 := by omega
      have hfirst : (s.data.take s.u)[0]? = some 47 := by
        rw [ht.text]
        rfl
      rw [List.getElem?_set_ne hne, ← List.getElem?_take_of_lt (Nat.pos_of_ne_zero hne), hfirst]
    · show (s.data.set s.u 0)[s.u]? = some 0
      exact List.getElem?_set_self (by omega)
    · intro e len hexten
      obtain ⟨e', he', heq⟩ := Option.map_eq_some_iff.1 hexten
      have hle := (h.ext e' he').2
      cases heq
      refine ⟨Int.natCast_nonneg _, by omega, ?_⟩
      show (e' : Int) + ((s.u : Int) - e') = s.u
      omega

/-- With fuel the function ends, and gives what the loop over the bytes gives. -/
theorem complexUriPointers_eq (hn : 1 ≤ n) (hinput : input.length = n + 1)
    (hslash : input[0]? = some 47) (harea : area.length = n + 1) {fuel : Nat} (hfuel : 2 * n < fuel) :
    (uriLoop (.init area) (input.take n) = none ∧
      complexUriPointers input n area fuel = some (.error .invalidRequest)) ∨
    ∃ s, uriLoop (.init area) (input.take n) = some s ∧ StoredInside n s.stored ∧
      complexUriPointers input n area fuel = some (.ok s.stored) := by
  have hstart : HeadInv input area n (.start area 47) :=
    ⟨.init area, 47, 1, rfl, atHead_start hn hinput hslash harea⟩
  have hmeasure : headMeasure n (.start area 47) < fuel := by
    show 2 * (n + 1 - 1) + 0 < fuel
    omega
  unfold complexUriPointers
  rw [hslash]
  dsimp only
  rcases While.run_total (head_rounds hinput) hstart hmeasure with
    ⟨m, hrun, ⟨s, ch, p, rfl, h⟩, hguard⟩ | ⟨e, hrun, rfl, hnone⟩
  · right
    have hp : p = n + 1 := by
      have hlt : ¬ p < n + 1 := of_decide_eq_false hguard
      have hle := h.le
      omega
    subst hp
    have hagrees := h.agrees
    rw [if_neg (Nat.not_succ_le_self n)] at hagrees
    obtain ⟨hdone, hinside⟩ := h.done hn
    refine ⟨s, hagrees, hinside, ?_⟩
    rw [hrun]
    show some (uriDone (s.regs ch (n + 1))) = _
    rw [hdone]
  · left
    refine ⟨hnone, ?_⟩
    rw [hrun]
    rfl

/-- For every path that starts with a slash, and every area: the loop stays in its memory,
ends, and what it accepts is a path inside the area. -/
theorem complex_uri_in_bounds (hn : 1 ≤ n) (hinput : input.length = n + 1)
    (hslash : input[0]? = some 47) (harea : area.length = n + 1) :
    (∀ m, While.Heads (uriGuard n) (uriRound input) (.start area 47) m → InBounds input n m) ∧
    ∀ fuel, 2 * n < fuel → complexUriPointers input n area fuel = some (.error .invalidRequest) ∨
      ∃ out, complexUriPointers input n area fuel = some (.ok out) ∧ StoredInside n out := by
  constructor
  · intro m hm
    have hstart : HeadInv input area n (.start area 47) :=
      ⟨.init area, 47, 1, rfl, atHead_start hn hinput hslash harea⟩
    obtain ⟨s, ch, p, rfl, h⟩ := hm.invariant (head_rounds hinput) hstart
    exact h.inBounds hinput
  · intro fuel hfuel
    rcases complexUriPointers_eq hn hinput hslash harea hfuel with ⟨-, hrefused⟩ | ⟨s, -, hinside, hok⟩
    · exact Or.inl hrefused
    · exact Or.inr ⟨s.stored, hok, hinside⟩

/-- The path `/a/../%2`, whose end cuts an escape. -/
theorem complex_uri_in_bounds_cut :
    (∀ m, While.Heads (uriGuard 8) (uriRound (ascii "/a/../%2 ")) (.start (List.replicate 9 0) 47) m →
      InBounds (ascii "/a/../%2 ") 8 m) ∧
    ∀ fuel, 2 * 8 < fuel →
      complexUriPointers (ascii "/a/../%2 ") 8 (List.replicate 9 0) fuel =
        some (.error .invalidRequest) ∨
      ∃ out, complexUriPointers (ascii "/a/../%2 ") 8 (List.replicate 9 0) fuel = some (.ok out) ∧
        StoredInside 8 out :=
  complex_uri_in_bounds (by decide) (by decide) (by decide) (by decide)

end Ehd.Http
