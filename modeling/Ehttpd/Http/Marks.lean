import Ehttpd.Http.Resuming

namespace Ehd.Http

open Scanner

variable {bytes buf : List UInt8} {p r r' : ParseState} {lim lim' i m : Nat} {ch : UInt8}
  {st st' : RequestLineSw} {b b' : Buf}

def ParseState.pathEnd (r : ParseState) (lim : Nat) : Nat :=
  match r.argsStart with
  | some a => a - 1
  | none => lim

/-- The marks of the method and of the URI stand in order, and none behind `lim`. -/
structure Located (bytes : List UInt8) (r : ParseState) (lim : Nat) : Prop where
  method : r.requestStart < r.methodEnd
  uriStart : r.methodEnd < r.uriStart
  uri : r.uriStart < lim
  slash : bytes[r.uriStart]? = some 47
  args : ∀ a, r.argsStart = some a → r.uriStart < a ∧ a ≤ lim
  ext : r.complexUri = false → ∀ x, r.uriExt = some x → r.uriStart < x ∧ x ≤ r.pathEnd lim

def Unmarked (r : ParseState) : Prop :=
  r.argsStart = none ∧ r.uriExt = none ∧ r.requestEnd = none

/-- Where the marks stand when the parser is in a state at the place `i`. -/
def MarksAt (bytes : List UInt8) (st : RequestLineSw) (r : ParseState) (i : Nat) : Prop :=
  match st with
  | .start => Unmarked r
  | .method => Unmarked r ∧ r.requestStart < i
  | .spaceAfterMethod | .spacesBeforeUri | .schema | .schemaSlash | .schemaSlashSlash | .host
  | .port => Unmarked r ∧ r.requestStart < r.methodEnd ∧ r.methodEnd < i
  | .afterSlashInUri | .checkUri =>
    r.requestEnd = none ∧ r.argsStart = none ∧ Located bytes r i
  | .uri => r.requestEnd = none ∧ Located bytes r i
  | .almostDone => r.requestEnd = none ∧ Located bytes r r.uriEnd ∧ r.uriEnd < i ∧
      bytes[i - 1]? = some CR
  | .done => Located bytes r r.uriEnd ∧ r.uriEnd ≤ r.requestEnd.getD (i - 1) ∧
      r.requestEnd.getD (i - 1) < i ∧ (bytes[r.requestEnd.getD (i - 1)]? = some CR ∨
        bytes[r.requestEnd.getD (i - 1)]? = some LF)
  | _ => r.requestEnd = none ∧ Located bytes r r.uriEnd ∧ r.uriEnd < i

theorem Located.mono (h : Located bytes r lim) (hle : lim ≤ lim') : Located bytes r lim' where
  method := h.method
  uriStart := h.uriStart
  uri := by have := h.uri; omega
  slash := h.slash
  args := by
    intro a ha
    have := h.args a ha
    omega
  ext := by
    intro hplain x hx
    have hpath : r.pathEnd lim ≤ r.pathEnd lim' := by
      unfold ParseState.pathEnd
      split <;> omega
    have := h.ext hplain x hx
    omega

theorem located_slash (hunmarked : Unmarked r) (hmethod : r.requestStart < r.methodEnd)
    (hi : r.methodEnd < i) (hslash : bytes[i]? = some 47) :
    Located bytes { r with uriStart := i } (i + 1) where
  method := hmethod
  uriStart := hi
  uri := Nat.lt_succ_self i
  slash := hslash
  args := by
    intro a ha
    exact nomatch hunmarked.1.symm.trans ha
  ext := by
    intro _ x hx
    exact nomatch hunmarked.2.1.symm.trans hx

theorem Located.complex (h : Located bytes r lim) :
    Located bytes { r with complexUri := true } lim :=
  ⟨h.method, h.uriStart, h.uri, h.slash, h.args, fun hplain => nomatch hplain⟩

theorem Located.ended (h : Located bytes r i) (minor : UInt32) :
    Located bytes { r with uriEnd := i, httpMinor := minor } i :=
  ⟨h.method, h.uriStart, h.uri, h.slash, h.args, h.ext⟩

/-- The arguments start behind a `?`. -/
theorem Located.query (h : Located bytes r i) (hargs : r.argsStart = none) :
    Located bytes { r with argsStart := some (i + 1) } (i + 1) where
  method := h.method
  uriStart := h.uriStart
  uri := by have := h.uri; show r.uriStart < i + 1; omega
  slash := h.slash
  args := by
    intro a ha
    cases ha
    have := h.uri
    show r.uriStart < i + 1 ∧ i + 1 ≤ i + 1
    omega
  ext := by
    intro hplain x hx
    have hext := h.ext hplain x hx
    unfold ParseState.pathEnd at hext
    rw [hargs] at hext
    exact hext

/-- The extension starts behind a dot. -/
theorem Located.dot (h : Located bytes r i) (hargs : r.argsStart = none) :
    Located bytes { r with uriExt := some (i + 1) } (i + 1) where
  method := h.method
  uriStart := h.uriStart
  uri := by have := h.uri; show r.uriStart < i + 1; omega
  slash := h.slash
  args := by
    intro a ha
    rw [show r.argsStart = some a from ha] at hargs
    cases hargs
  ext := by
    intro _ x hx
    cases hx
    have := h.uri
    unfold ParseState.pathEnd
    show r.uriStart < i + 1 ∧ i + 1 ≤ match r.argsStart with | some a => a - 1 | none => i + 1
    rw [hargs]
    show r.uriStart < i + 1 ∧ i + 1 ≤ i + 1
    omega

theorem Located.segment (h : Located bytes r i) : Located bytes { r with uriExt := none } (i + 1) :=
  have hnext := h.mono (Nat.le_succ i)
  ⟨hnext.method, hnext.uriStart, hnext.uri, hnext.slash, hnext.args, fun _ _ hx => nomatch hx⟩

theorem marks_uriEnd (hend : r.requestEnd = none) (h : Located bytes r i)
    (hch : bytes[i]? = some ch) :
    (ch = CR → MarksAt bytes .almostDone { r with uriEnd := i, httpMinor := 9 } (i + 1)) ∧
      (ch = LF → MarksAt bytes .done { r with uriEnd := i, httpMinor := 9 } (i + 1)) ∧
      MarksAt bytes .http09 { r with uriEnd := i } (i + 1) := by
  refine ⟨?_, ?_, hend, h.ended r.httpMinor, Nat.lt_succ_self i⟩
  · rintro rfl
    exact ⟨hend, h.ended 9, Nat.lt_succ_self i, hch⟩
  · rintro rfl
    refine ⟨h.ended 9, ?_⟩
    show i ≤ r.requestEnd.getD i ∧ _
    rw [hend]
    exact ⟨Nat.le_refl i, Nat.lt_succ_self i, Or.inr hch⟩

theorem marks_lineEnd (hend : r.requestEnd = none) (h : Located bytes r r.uriEnd)
    (hi : r.uriEnd < i) (hch : bytes[i]? = some ch) (minor : UInt32) :
    (ch = CR → MarksAt bytes .almostDone { r with httpMinor := minor } (i + 1)) ∧
      (ch = LF → MarksAt bytes .done { r with httpMinor := minor } (i + 1)) := by
  have hmarks : Located bytes { r with httpMinor := minor } r.uriEnd :=
    ⟨h.method, h.uriStart, h.uri, h.slash, h.args, h.ext⟩
  constructor
  · rintro rfl
    exact ⟨hend, hmarks, Nat.lt_succ_of_lt hi, hch⟩
  · rintro rfl
    refine ⟨hmarks, ?_⟩
    show r.uriEnd ≤ r.requestEnd.getD i ∧ _
    rw [hend]
    exact ⟨Nat.le_of_lt hi, Nat.lt_succ_self i, Or.inr hch⟩

/-- Every step leaves the marks in order. -/
theorem requestLineStep_marks (h : MarksAt bytes st r i) (hch : bytes[i]? = some ch)
    (hst : (st == RequestLineSw.done) = false)
    (hs : requestLineStep buf st r (i + 1) ch = .next st' r') : MarksAt bytes st' r' (i + 1) := by
  cases st with
  | done => cases hst
  | start =>
    simp only [requestLineStep, Nat.add_sub_cancel] at hs
    split_ifs at hs <;> cases hs
    · exact h
    · exact ⟨h, Nat.lt_succ_self i⟩
  | method =>
    obtain ⟨hunmarked, hstart⟩ := h
    simp only [requestLineStep, Nat.add_sub_cancel] at hs
    split_ifs at hs <;> cases hs
    · exact ⟨hunmarked, hstart, Nat.lt_succ_self i⟩
    · exact ⟨hunmarked, Nat.lt_succ_of_lt hstart⟩
  | spaceAfterMethod | schema | schemaSlash | schemaSlashSlash =>
    obtain ⟨hunmarked, hmethod, hi⟩ := h
    simp only [requestLineStep, Nat.add_sub_cancel] at hs
    split_ifs at hs <;> cases hs <;> exact ⟨hunmarked, hmethod, Nat.lt_succ_of_lt hi⟩
  | spacesBeforeUri | host | port =>
    obtain ⟨hunmarked, hmethod, hi⟩ := h
    simp only [requestLineStep, Nat.add_sub_cancel] at hs
    -- a slash starts the path
    have hpath : ch = 47 → Located bytes { r with uriStart := i } (i + 1) := by
      rintro rfl
      exact located_slash hunmarked hmethod hi hch
    split_ifs at hs <;> cases hs
    all_goals first
      | exact ⟨hunmarked, hmethod, Nat.lt_succ_of_lt hi⟩
      | have hlocated := hpath ‹_›
        exact ⟨hunmarked.2.2, hunmarked.1, hlocated.method, hlocated.uriStart, hlocated.uri,
          hlocated.slash, hlocated.args, hlocated.ext⟩
  | afterSlashInUri =>
    obtain ⟨hend, hargs, hlocated⟩ := h
    obtain ⟨hcr, hlf, hspace⟩ := marks_uriEnd hend hlocated hch
    have hnext := hlocated.mono (Nat.le_succ i)
    simp only [requestLineStep, Nat.add_sub_cancel] at hs
    split_ifs at hs with h₁ h₂ <;> cases hs
    · exact hcr h₁
    · exact hlf h₂
    · exact hspace
    · exact ⟨hend, hnext.complex⟩
    · exact ⟨hend, hargs, hnext.complex⟩
    · exact ⟨hend, hlocated.query hargs⟩
    · exact ⟨hend, hargs, hnext⟩
  | checkUri =>
    obtain ⟨hend, hargs, hlocated⟩ := h
    obtain ⟨hcr, hlf, hspace⟩ := marks_uriEnd hend hlocated hch
    have hnext := hlocated.mono (Nat.le_succ i)
    simp only [requestLineStep, Nat.add_sub_cancel] at hs
    split_ifs at hs with h₁ h₂ <;> cases hs
    · exact hcr h₁
    · exact hlf h₂
    · exact hspace
    · exact ⟨hend, hargs, hlocated.dot hargs⟩
    · exact ⟨hend, hargs, hlocated.segment⟩
    · exact ⟨hend, hnext.complex⟩
    · exact ⟨hend, hlocated.query hargs⟩
    · exact ⟨hend, hargs, hnext⟩
  | uri =>
    obtain ⟨hend, hlocated⟩ := h
    obtain ⟨hcr, hlf, hspace⟩ := marks_uriEnd hend hlocated hch
    simp only [requestLineStep, Nat.add_sub_cancel] at hs
    split_ifs at hs with h₁ h₂ <;> cases hs
    · exact hcr h₁
    · exact hlf h₂
    · exact hspace
    · exact ⟨hend, hlocated.mono (Nat.le_succ i)⟩
  | almostDone =>
    obtain ⟨hend, hlocated, hi, hcr⟩ := h
    simp only [requestLineStep] at hs
    split_ifs at hs
    cases hs
    refine ⟨⟨hlocated.method, hlocated.uriStart, hlocated.uri, hlocated.slash, hlocated.args,
      hlocated.ext⟩, ?_⟩
    show r.uriEnd ≤ i - 1 ∧ i - 1 < i + 1 ∧ (bytes[i - 1]? = some CR ∨ _)
    exact ⟨by omega, by omega, Or.inl hcr⟩
  | http09 | minorDigit =>
    obtain ⟨hend, hlocated, hi⟩ := h
    obtain ⟨hcr, hlf⟩ := marks_lineEnd hend hlocated hi hch 9
    obtain ⟨hcr', hlf'⟩ := marks_lineEnd hend hlocated hi hch r.httpMinor
    simp only [requestLineStep] at hs
    split_ifs at hs <;> cases hs
    all_goals first
      | exact hcr ‹_›
      | exact hlf ‹_›
      | exact hcr' ‹_›
      | exact hlf' ‹_›
      | exact ⟨hend, ⟨hlocated.method, hlocated.uriStart, hlocated.uri, hlocated.slash,
          hlocated.args, hlocated.ext⟩, Nat.lt_succ_of_lt hi⟩
  | httpH | httpHT | httpHTT | httpHTTP | firstMajorDigit | majorDigit | firstMinorDigit =>
    obtain ⟨hend, hlocated, hi⟩ := h
    simp only [requestLineStep] at hs
    split_ifs at hs <;> cases hs
    all_goals exact ⟨hend, ⟨hlocated.method, hlocated.uriStart, hlocated.uri, hlocated.slash,
      hlocated.args, hlocated.ext⟩, Nat.lt_succ_of_lt hi⟩

structure Ordered (bytes : List UInt8) (p : ParseState) (pos : Nat) : Prop
    extends Located bytes p p.uriEnd where
  line : ∃ e, p.requestEnd = some e ∧ p.uriEnd ≤ e ∧ e < pos ∧
    (bytes[e]? = some CR ∨ bytes[e]? = some LF)

/-- A new request line that is accepted has its marks in order. -/
theorem requestLine_ordered (h : parseRequestLine {} b = (.ok, p, b')) :
    Ordered b.bytes p b'.pos := by
  obtain ⟨r', hloop, hdone⟩ := parseRequestLine_ok h
  have hI : MarksAt b.bytes .done r' b'.pos :=
    scan_invariant_drop (I := MarksAt b.bytes)
      (fun _ _ _ _ _ _ hI hx hst hs => requestLineStep_marks hI hx hst hs) hloop
      (show MarksAt b.bytes .start {} b.pos from ⟨rfl, rfl, rfl⟩)
  obtain ⟨hlocated, huri, hlt, hends⟩ := hI
  have hp : p = (requestLineDone r' b'.pos).2 := by
    rw [show requestLineDone r' b'.pos = (.ok, p) from hdone]
  rw [requestLineDone_record] at hp
  rw [hp]
  refine ⟨⟨hlocated.method, hlocated.uriStart, hlocated.uri, hlocated.slash, hlocated.args,
    hlocated.ext⟩, r'.requestEnd.getD (b'.pos - 1), ?_, huri, hlt, hends⟩
  cases r'.requestEnd with
  | none => rfl
  | some e => rfl

end Ehd.Http
