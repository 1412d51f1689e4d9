import Ehttpd.Http.ParseHeaderLine

namespace Ehd.Http

open Scanner

variable {r p : ParseState} {b b' : Buf} {rc : Rc}

theorem requestLineStep_stop {buf : List UInt8} {st : RequestLineSw} {r r' : ParseState} {p : Nat}
    {ch : UInt8} {rc : Rc} (h : requestLineStep buf st r p ch = .stop rc r') :
    rc = .invalidMethod ∨ rc = .invalidRequest := by
  cases st <;> simp only [requestLineStep] at h
  all_goals (repeat' split at h)
  all_goals cases h
  all_goals simp

theorem headerLineStep_stop {buf : List UInt8} {st : HeaderLineSw} {r r' : ParseState} {p : Nat}
    {ch : UInt8} {rc : Rc} (h : headerLineStep buf st r p ch = .stop rc r') :
    rc = .invalidHeader := by
  cases st <;> simp only [headerLineStep] at h
  all_goals (repeat' split at h)
  all_goals cases h
  all_goals rfl

structure Advances (b b' : Buf) : Prop where
  eq : b' = { b with pos := b'.pos }
  le : b.pos ≤ b'.pos
  le_unread : b'.pos ≤ b.pos + b.unread.length

theorem advances_refl (b : Buf) : Advances b b := ⟨rfl, Nat.le_refl _, Nat.le_add_right _ _⟩

theorem parseRequestLine_advances (h : parseRequestLine r b = (rc, p, b')) : Advances b b' := by
  unfold parseRequestLine at h
  split at h
  · cases h
    exact advances_refl b
  · rename_i r' q heq
    cases h
    exact ⟨rfl, (scan_exit heq).1, (scan_exit heq).2.1⟩
  · rename_i st r' q _ heq
    cases h
    exact ⟨rfl, (scan_exit heq).1, (scan_exit heq).2.1⟩

theorem parseHeaderLine_advances (h : parseHeaderLine r b = (rc, p, b')) : Advances b b' := by
  unfold parseHeaderLine at h
  split at h
  · cases h
    exact advances_refl b
  · rename_i r' q heq
    cases h
    exact ⟨rfl, (scan_exit heq).1, (scan_exit heq).2.1⟩
  · rename_i r' q heq
    cases h
    exact ⟨rfl, (scan_exit heq).1, (scan_exit heq).2.1⟩
  · rename_i st r' q _ _ heq
    cases h
    exact ⟨rfl, (scan_exit heq).1, (scan_exit heq).2.1⟩

theorem requestLineDone_spec (r : ParseState) (q : Nat) :
    ((requestLineDone r q).1 = .ok ∨ (requestLineDone r q).1 = .invalid09Method) ∧
      (requestLineDone r q).2.state = 0 := by
  unfold requestLineDone
  dsimp only
  split
  · exact ⟨Or.inr rfl, rfl⟩
  · exact ⟨Or.inl rfl, rfl⟩

/-- `EHD_AGAIN` from the request line: the scan has passed all unread bytes. -/
theorem parseRequestLine_again (h : parseRequestLine r b = (.again, p, b')) :
    ∃ st r', requestLineLoop b.bytes (.ofUint r.state) r b.pos b.unread = .exit st r' b'.pos ∧
      st ≠ .done ∧ p = { r' with state := st.toUint } := by
  unfold parseRequestLine at h
  split at h
  · rename_i rc' r' heq
    cases h
    have hstop := scan_stop (C := fun rc => rc = .invalidMethod ∨ rc = .invalidRequest)
      (fun _ _ _ _ _ _ hs => requestLineStep_stop hs) heq
    rcases hstop with hstop | hstop <;> cases hstop
  · rename_i r' q heq
    have hrc : (requestLineDone r' q).1 = .again := congrArg Prod.fst h
    rcases (requestLineDone_spec r' q).1 with hd | hd <;> rw [hd] at hrc <;> cases hrc
  · rename_i st r' q hst heq
    cases h
    exact ⟨st, r', heq, hst, rfl⟩

theorem parseRequestLine_ok (h : parseRequestLine r b = (.ok, p, b')) :
    ∃ r', requestLineLoop b.bytes (.ofUint r.state) r b.pos b.unread = .exit .done r' b'.pos ∧
      requestLineDone r' b'.pos = (.ok, p) := by
  unfold parseRequestLine at h
  split at h
  · rename_i rc' r' heq
    cases h
    have hstop := scan_stop (C := fun rc => rc = .invalidMethod ∨ rc = .invalidRequest)
      (fun _ _ _ _ _ _ hs => requestLineStep_stop hs) heq
    rcases hstop with hstop | hstop <;> cases hstop
  · rename_i r' q heq
    have hrc : (requestLineDone r' q).1 = .ok := congrArg Prod.fst h
    have hp : (requestLineDone r' q).2 = p := congrArg (fun t => t.2.1) h
    have hb : { b with pos := q } = b' := congrArg (fun t => t.2.2) h
    subst hb
    exact ⟨r', heq, Prod.ext hrc hp⟩
  · cases h

theorem parseHeaderLine_again (h : parseHeaderLine r b = (.again, p, b')) :
    ∃ st r', headerLineLoop b.bytes (.ofUint r.state) r b.pos b.unread = .exit st r' b'.pos ∧
      st.final = false ∧ p = { r' with state := st.toUint } := by
  unfold parseHeaderLine at h
  split at h
  · rename_i rc' r' heq
    cases h
    have hstop := scan_stop (C := fun rc => rc = .invalidHeader)
      (fun _ _ _ _ _ _ hs => headerLineStep_stop hs) heq
    cases hstop
  · cases h
  · cases h
  · rename_i st r' q hst hst' heq
    cases h
    refine ⟨st, r', heq, ?_, rfl⟩
    cases st with
    | done => exact absurd rfl hst
    | headerDone => exact absurd rfl hst'
    | _ => rfl

theorem parseHeaderLine_ok (h : parseHeaderLine r b = (.ok, p, b')) :
    ∃ r', headerLineLoop b.bytes (.ofUint r.state) r b.pos b.unread = .exit .done r' b'.pos ∧
      p = { r' with state := 0 } := by
  unfold parseHeaderLine at h
  split at h
  · rename_i rc' r' heq
    cases h
    have hstop := scan_stop (C := fun rc => rc = .invalidHeader)
      (fun _ _ _ _ _ _ hs => headerLineStep_stop hs) heq
    cases hstop
  · rename_i r' q heq
    cases h
    exact ⟨r', heq, rfl⟩
  · cases h
  · cases h

theorem parseHeaderLine_headerDone (h : parseHeaderLine r b = (.headerDone, p, b')) :
    ∃ r', headerLineLoop b.bytes (.ofUint r.state) r b.pos b.unread = .exit .headerDone r' b'.pos ∧
      p = { r' with state := 0 } := by
  unfold parseHeaderLine at h
  split at h
  · rename_i rc' r' heq
    cases h
    have hstop := scan_stop (C := fun rc => rc = .invalidHeader)
      (fun _ _ _ _ _ _ hs => headerLineStep_stop hs) heq
    cases hstop
  · cases h
  · rename_i r' q heq
    cases h
    exact ⟨r', heq, rfl⟩
  · cases h

def ParseState.InHeaders (r : ParseState) : Prop := (HeaderLineSw.ofUint r.state).final = false

theorem parseHeaderLine_progress (hr : r.InHeaders) (hb : b.unread ≠ [])
    (h : parseHeaderLine r b = (rc, p, b')) (hrc : rc = .ok ∨ rc = .again) : b.pos < b'.pos := by
  rcases hrc with rfl | rfl
  · obtain ⟨r', hloop, -⟩ := parseHeaderLine_ok h
    exact scan_progress hr hb hloop
  · obtain ⟨st, r', hloop, -, -⟩ := parseHeaderLine_again h
    exact scan_progress hr hb hloop

theorem parseHeaderLine_inHeaders (h : parseHeaderLine r b = (rc, p, b'))
    (hrc : rc = .ok ∨ rc = .again) : p.InHeaders := by
  rcases hrc with rfl | rfl
  · obtain ⟨r', -, hp⟩ := parseHeaderLine_ok h
    rw [hp]
    rfl
  · obtain ⟨st, r', -, hst, hp⟩ := parseHeaderLine_again h
    rw [hp]
    unfold ParseState.InHeaders
    rw [HeaderLineSw.ofUint_toUint]
    exact hst

theorem Advances.unread_length (h : Advances b b') :
    b'.unread.length + b'.pos = b.unread.length + b.pos := by
  have hbytes : b'.bytes = b.bytes := by rw [h.eq]
  have hle := h.le
  have hle' := h.le_unread
  simp only [Buf.unread, List.length_drop, hbytes] at *
  omega

end Ehd.Http
