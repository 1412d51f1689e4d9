import Mathlib.Data.Nat.Digits.Defs
import Mathlib.Data.List.Basic

namespace Ehd

def LF : UInt8 := 10
def CR : UInt8 := 13

def ascii (s : String) : List UInt8 := s.toList.map fun c => c.toNat.toUInt8

/-- `ehd_str_t`: `data` is the area the pointer is at, `len` the recorded length. -/
structure Str where
  len : Nat
  data : List UInt8
  deriving DecidableEq, Repr, Inhabited

def ehdString (s : String) : Str := ⟨(ascii s).length, ascii s⟩

def ehdNullString : Str := ⟨0, []⟩

def Str.bytes (s : Str) : List UInt8 := s.data.take s.len

def cString (area : List UInt8) : List UInt8 := area.takeWhile (· ≠ 0)

def memcpy (dst : List UInt8) (off : Nat) (src : List UInt8) (n : Nat) : List UInt8 :=
  dst.take off ++ src.take n ++ dst.drop (off + n)

/-- `ehd_cpystrn`, the area after the call.  Past the end of either list there
is nothing to write to or to read from. -/
def cpystrn : List UInt8 → List UInt8 → Nat → List UInt8
  | dst, _, 0 => dst
  | [], _, _ + 1 => []
  | _ :: dst, _, 1 => 0 :: dst
  | _ :: dst, src, n + 2 =>
    if src.headD 0 = 0 then 0 :: dst
    else src.headD 0 :: cpystrn dst src.tail (n + 1)

def decimal (n : Nat) : List UInt8 :=
  if n = 0 then [48] else (Nat.digits 10 n).reverse.map fun d => (48 + d).toUInt8

def toLower (c : UInt8) : UInt8 := if 65 ≤ c ∧ c ≤ 90 then c + 32 else c

def strcaseeq (a b : List UInt8) : Bool := a.map toLower == b.map toLower

end Ehd
