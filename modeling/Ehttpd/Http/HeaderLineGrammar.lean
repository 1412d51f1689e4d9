import Ehttpd.Http.Heads
import Ehttpd.Http.OriginForm
import Mathlib.Data.List.DropRight

namespace Ehd.Http

open Scanner Pattern

def headerLineNext (st : HeaderLineSw) (ch : UInt8) : Option HeaderLineSw :=
  (headerLineStep [] st {} 0 ch).state

theorem headerLine_controls (buf : List UInt8) :
    Controls HeaderLineSw.final (headerLineStep buf) headerLineNext fun r => r.proxy = false where
  state := by
    intro st r p ch hr
    unfold headerLineNext
    cases st <;> simp only [headerLineStep, hr]
    all_goals (repeat' split)
    all_goals first | rfl | simp_all
  keeps := by
    intro st r p ch st' r' hr h
    cases st <;> simp only [headerLineStep] at h
    all_goals (repeat' split at h)
    all_goals (cases h <;> exact hr)

def IsNameChar (ch : UInt8) : Prop :=
  isUpper ch ∨ isLower ch ∨ isDigit ch ∨ ch = 45 ∨ ch = 95 ∨ ch = 126 ∨ ch = 46

theorem isLower_or_iff (ch : UInt8) : isLower (ch ||| 0x20) ↔ isUpper ch ∨ isLower ch := by
  have hall : ∀ n : Fin 256, isLower (UInt8.ofNat n ||| 0x20) ↔
      isUpper (UInt8.ofNat n) ∨ isLower (UInt8.ofNat n) := by decide +kernel
  have hch := hall ⟨ch.toNat, ch.toNat_lt⟩
  rwa [UInt8.ofNat_toNat] at hch

theorem isHeaderNameChar_iff (ch : UInt8) : isHeaderNameChar ch ↔ IsNameChar ch := by
  unfold isHeaderNameChar IsNameChar
  simp only [Bool.or_eq_true, isLower_or_iff, beq_iff_eq]
  grind

def IsValueChar (ch : UInt8) : Prop := ch ≠ CR ∧ ch ≠ LF

/-- What follows the colon, and what follows the first byte of the name. -/
def HeaderRest : List UInt8 → Prop := many IsValueChar LineEnd
def NameRest : List UInt8 → Prop := many IsNameChar (one (· = 58) HeaderRest)

def HeaderLinePattern : List UInt8 → Prop := one IsNameChar NameRest

def HeaderLineSw.Rest : HeaderLineSw → List UInt8 → Prop
  | start => HeaderLinePattern
  | name => NameRest
  | spaceBeforeValue | value | spaceAfterValue => HeaderRest
  | almostDone => one (· = LF) eps
  | ignoreLine => many (· ≠ LF) (one (· = LF) HeaderLinePattern)
  | headerAlmostDone | headerDone => fun _ => False
  | done => eps

def HeaderLineSw.BlockRest : HeaderLineSw → List UInt8 → Prop
  | start => LineEnd
  | ignoreLine => many (· ≠ LF) (one (· = LF) LineEnd)
  | headerAlmostDone => one (· = LF) eps
  | headerDone => eps
  | _ => fun _ => False

section Equations

variable {ch : UInt8} {w : List UInt8}

theorem headerRest_cons :
    HeaderRest (ch :: w) ↔ LineEnd (ch :: w) ∨ IsValueChar ch ∧ HeaderRest w := many_cons

theorem nameRest_cons : NameRest (ch :: w) ↔ ch = 58 ∧ HeaderRest w ∨ IsNameChar ch ∧ NameRest w := by
  unfold NameRest
  rw [many_cons, one_cons]

end Equations

theorem HeaderLineSw.rest_nil (st : HeaderLineSw) : st.Rest [] ↔ st = .done := by
  cases st <;> simp [Rest, HeaderLinePattern, NameRest, HeaderRest, LineEnd]

theorem HeaderLineSw.blockRest_nil (st : HeaderLineSw) : st.BlockRest [] ↔ st = .headerDone := by
  cases st <;> simp [BlockRest, LineEnd]

theorem HeaderLineSw.rest_cons (st : HeaderLineSw) (ch : UInt8) (w : List UInt8) :
    st.Rest (ch :: w) ↔ st.final = false ∧ ∃ s, headerLineNext st ch = some s ∧ s.Rest w := by
  have hlower := isLower_or_iff ch
  simp only [isUpper, isLower] at hlower
  unfold headerLineNext
  cases st <;> simp only [headerLineStep, state_ite, state_next, state_stop]
  all_goals simp only [Rest, isHeaderNameChar_iff, headerRest_cons, nameRest_cons, HeaderLinePattern, lineEnd_cons, one_cons,
    many_cons, eps_cons, IsNameChar, IsValueChar, CR, LF, isUpper, isLower, isDigit, final]
  all_goals grind

theorem HeaderLineSw.blockRest_cons (st : HeaderLineSw) (ch : UInt8) (w : List UInt8) :
    st.BlockRest (ch :: w) ↔
      st.final = false ∧ ∃ s, headerLineNext st ch = some s ∧ s.BlockRest w := by
  unfold headerLineNext
  cases st <;> simp only [headerLineStep, state_ite, state_next, state_stop]
  all_goals simp only [BlockRest, lineEnd_cons, one_cons, many_cons, eps_cons, CR, LF, final]
  all_goals grind

def HeaderLineSw.ending : HeaderLineSw → List UInt8 × HeaderLineSw
  | start => ([LF], .headerDone)
  | name => ([58, LF], .done)
  | spaceBeforeValue | value | spaceAfterValue | almostDone => ([LF], .done)
  | ignoreLine => ([LF, LF], .headerDone)
  | headerAlmostDone => ([LF], .headerDone)
  | done => ([], .done)
  | headerDone => ([], .headerDone)

abbrev HeaderLineLeads : HeaderLineSw → List UInt8 → HeaderLineSw → Prop :=
  Leads HeaderLineSw.final headerLineNext

theorem headerLine_leads_iff {st : HeaderLineSw} {w : List UInt8} :
    HeaderLineLeads st w .done ↔ st.Rest w :=
  leads_iff HeaderLineSw.rest_nil HeaderLineSw.rest_cons

theorem headerBlock_leads_iff {st : HeaderLineSw} {w : List UInt8} :
    HeaderLineLeads st w .headerDone ↔ st.BlockRest w :=
  leads_iff HeaderLineSw.blockRest_nil HeaderLineSw.blockRest_cons

theorem headerLine_live : Live HeaderLineSw.final headerLineNext := by
  intro st
  refine ⟨st.ending.1, st.ending.2, ?_, ?_⟩
  · cases st <;> rfl
  · cases st
    case start | ignoreLine | headerAlmostDone | headerDone =>
      apply headerBlock_leads_iff.2
      simp [HeaderLineSw.ending, HeaderLineSw.BlockRest, lineEnd_cons, LF]
    all_goals
      apply headerLine_leads_iff.2
      simp [HeaderLineSw.ending, HeaderLineSw.Rest, headerRest_cons, nameRest_cons, lineEnd_cons]

end Ehd.Http
