import Ehttpd.Lib.Recognizer
import Ehttpd.Http.Parsing

namespace Ehd.Http

open Scanner Pattern

def requestLineNext (st : RequestLineSw) (ch : UInt8) : Option RequestLineSw :=
  (requestLineStep [] st {} 0 ch).state

theorem requestLine_controls (buf : List UInt8) :
    Controls (· == .done) (requestLineStep buf) requestLineNext fun _ => True where
  state := by
    intro st r p ch _
    unfold requestLineNext
    cases st <;> simp only [requestLineStep]
    all_goals (repeat' split)
    all_goals rfl
  keeps := fun _ _ _ _ _ _ _ _ => trivial

def LineEnd : List UInt8 → Prop := alt (one (· = LF) eps) (one (· = CR) (one (· = LF) eps))

def MinorDigits : List UInt8 → Prop := many (isDigit ·) LineEnd

def MajorDigits : List UInt8 → Prop :=
  many (isDigit ·) (one (· = 46) (one (isDigit ·) MinorDigits))

def VersionNumber : List UInt8 → Prop := one (fun ch => 49 ≤ ch ∧ ch ≤ 57) MajorDigits

def Version : List UInt8 → Prop :=
  one (· = 84) (one (· = 84) (one (· = 80) (one (· = 47) VersionNumber)))

def AfterUri : List UInt8 → Prop := many (· = 32) (alt LineEnd (one (· = 72) Version))

def IsUriChar (ch : UInt8) : Prop := ch ≠ 32 ∧ ch ≠ CR ∧ ch ≠ LF

def UriRest : List UInt8 → Prop := many IsUriChar (alt LineEnd (one (· = 32) AfterUri))

/-- What follows the colon behind the host: every byte is taken for the port. -/
def Port : List UInt8 → Prop := many (· ≠ 47) (one (· = 47) UriRest)

def IsLetter (ch : UInt8) : Prop := isUpper ch ∨ isLower ch

def IsHostChar (ch : UInt8) : Prop := isUpper ch ∨ isLower ch ∨ isDigit ch ∨ ch = 46 ∨ ch = 45

def Host : List UInt8 → Prop := many IsHostChar (alt (one (· = 58) Port) (one (· = 47) UriRest))

def Schema : List UInt8 → Prop :=
  many IsLetter (one (· = 58) (one (· = 47) (one (· = 47) Host)))

/-- A target in origin form or in absolute form, and the rest of the line. -/
def Target : List UInt8 → Prop :=
  many (· = 32) (alt (one (· = 47) UriRest) (one IsLetter Schema))

def IsLineBreak (ch : UInt8) : Prop := ch = CR ∨ ch = LF

def RequestLineSw.Rest : RequestLineSw → List UInt8 → Prop
  | start => many IsLineBreak (one (isUpper ·) (many (isUpper ·) (one (· = 32) Target)))
  | method => many (isUpper ·) (one (· = 32) Target)
  | spaceAfterMethod => one (· = 32) Target
  | spacesBeforeUri => Target
  | schema => Schema
  | schemaSlash => one (· = 47) (one (· = 47) Host)
  | schemaSlashSlash => one (· = 47) Host
  | host => Host
  | port => Port
  | afterSlashInUri | checkUri | uri => UriRest
  | http09 => AfterUri
  | httpH => Version
  | httpHT => one (· = 84) (one (· = 80) (one (· = 47) VersionNumber))
  | httpHTT => one (· = 80) (one (· = 47) VersionNumber)
  | httpHTTP => one (· = 47) VersionNumber
  | firstMajorDigit => VersionNumber
  | majorDigit => MajorDigits
  | firstMinorDigit => one (isDigit ·) MinorDigits
  | minorDigit => MinorDigits
  | almostDone => one (· = LF) eps
  | done => eps

section Equations

variable {ch : UInt8} {w : List UInt8}

theorem lineEnd_cons : LineEnd (ch :: w) ↔ ch = LF ∧ eps w ∨ ch = CR ∧ one (· = LF) eps w := by
  unfold LineEnd
  rw [alt_iff, one_cons, one_cons]

theorem minorDigits_cons :
    MinorDigits (ch :: w) ↔ LineEnd (ch :: w) ∨ isDigit ch ∧ MinorDigits w := many_cons

theorem majorDigits_cons : MajorDigits (ch :: w) ↔
    ch = 46 ∧ one (isDigit ·) MinorDigits w ∨ isDigit ch ∧ MajorDigits w := by
  unfold MajorDigits
  rw [many_cons, one_cons]

theorem afterUri_cons : AfterUri (ch :: w) ↔
    (LineEnd (ch :: w) ∨ ch = 72 ∧ Version w) ∨ ch = 32 ∧ AfterUri w := by
  unfold AfterUri
  rw [many_cons, alt_iff, one_cons]

theorem uriRest_cons : UriRest (ch :: w) ↔
    (LineEnd (ch :: w) ∨ ch = 32 ∧ AfterUri w) ∨ IsUriChar ch ∧ UriRest w := by
  unfold UriRest
  rw [many_cons, alt_iff, one_cons]

theorem port_cons : Port (ch :: w) ↔ ch = 47 ∧ UriRest w ∨ ch ≠ 47 ∧ Port w := by
  unfold Port
  rw [many_cons, one_cons]

theorem host_cons : Host (ch :: w) ↔
    (ch = 58 ∧ Port w ∨ ch = 47 ∧ UriRest w) ∨ IsHostChar ch ∧ Host w := by
  unfold Host
  rw [many_cons, alt_iff, one_cons, one_cons]

theorem schema_cons : Schema (ch :: w) ↔
    ch = 58 ∧ one (· = 47) (one (· = 47) Host) w ∨ IsLetter ch ∧ Schema w := by
  unfold Schema
  rw [many_cons, one_cons]

theorem target_cons : Target (ch :: w) ↔
    (ch = 47 ∧ UriRest w ∨ IsLetter ch ∧ Schema w) ∨ ch = 32 ∧ Target w := by
  unfold Target
  rw [many_cons, alt_iff, one_cons, one_cons]

end Equations

theorem RequestLineSw.rest_nil (st : RequestLineSw) : st.Rest [] ↔ st = .done := by
  cases st <;> simp [Rest, LineEnd, MinorDigits, MajorDigits, VersionNumber, Version, AfterUri,
    UriRest, Port, Host, Schema, Target]

theorem RequestLineSw.rest_cons (st : RequestLineSw) (ch : UInt8) (w : List UInt8) :
    st.Rest (ch :: w) ↔
      (st == .done) = false ∧ ∃ s, requestLineNext st ch = some s ∧ s.Rest w := by
  unfold requestLineNext
  cases st <;> simp only [requestLineStep, state_ite, state_next, state_stop]
  all_goals simp only [Rest, lineEnd_cons, minorDigits_cons, majorDigits_cons, afterUri_cons,
    uriRest_cons, port_cons, host_cons, schema_cons, target_cons, VersionNumber, Version, one_cons,
    many_cons, eps_cons, IsUriChar, IsLetter, IsHostChar, IsLineBreak, CR, LF, isUpper, isLower, isDigit]
  all_goals grind

def RequestLineSw.ending : RequestLineSw → List UInt8
  | start => [65, 32, 47, LF]
  | method | spaceAfterMethod => [32, 47, LF]
  | schema => [58, 47, 47, 47, LF]
  | schemaSlash => [47, 47, 47, LF]
  | schemaSlashSlash => [47, 47, LF]
  | spacesBeforeUri | host | port => [47, LF]
  | afterSlashInUri | checkUri | uri | http09 | minorDigit | almostDone => [LF]
  | httpH => [84, 84, 80, 47, 49, 46, 48, LF]
  | httpHT => [84, 80, 47, 49, 46, 48, LF]
  | httpHTT => [80, 47, 49, 46, 48, LF]
  | httpHTTP => [47, 49, 46, 48, LF]
  | firstMajorDigit => [49, 46, 48, LF]
  | majorDigit => [46, 48, LF]
  | firstMinorDigit => [48, LF]
  | done => []

theorem RequestLineSw.rest_ending (st : RequestLineSw) : st.Rest st.ending := by
  cases st <;> simp [ending, Rest, lineEnd_cons, minorDigits_cons, majorDigits_cons, afterUri_cons,
    uriRest_cons, port_cons, host_cons, schema_cons, target_cons, VersionNumber, Version,
    isUpper, isDigit, LF]

abbrev RequestLineLeads : RequestLineSw → List UInt8 → RequestLineSw → Prop :=
  Leads (· == .done) requestLineNext

theorem requestLine_leads_iff {st : RequestLineSw} {w : List UInt8} :
    RequestLineLeads st w .done ↔ st.Rest w :=
  leads_iff RequestLineSw.rest_nil RequestLineSw.rest_cons

theorem requestLine_live : Live (· == RequestLineSw.done) requestLineNext := by
  intro st
  exact ⟨st.ending, .done, rfl, requestLine_leads_iff.2 st.rest_ending⟩

end Ehd.Http
