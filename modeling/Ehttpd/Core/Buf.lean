import Ehttpd.Core.Bytes

namespace Ehd

def EHD_DEFAULT_BUF_SIZE : Nat := 4096

structure File where
  fd : Int
  name : Str
  sysOffset : Nat
  size : Nat
  deriving DecidableEq, Repr, Inhabited

/-- `ehd_buf_t`; `file_pos`, `file_last` and `temporary` are never read. -/
structure Buf where
  bytes : List UInt8
  pos : Nat
  /-- `end - start` -/
  size : Nat
  type : Nat := 0
  file : Option File := none
  deriving DecidableEq, Repr, Inhabited

namespace Buf

def last (b : Buf) : Nat := b.bytes.length

def unread (b : Buf) : List UInt8 := b.bytes.drop b.pos

def room (b : Buf) : Nat := b.size - b.last

def span (b : Buf) (off len : Nat) : List UInt8 := (b.bytes.drop off).take len

def append (b : Buf) (bs : List UInt8) : Buf := { b with bytes := b.bytes ++ bs }

def putNul (b : Buf) (off : Nat) : Buf := { b with bytes := b.bytes.set off 0 }

end Buf

def Buf.temp (size : Nat) : Buf := { bytes := [], pos := 0, size := size }

/-- `ehd_list_t`: the nodes before `list->last`, each full, and that node. -/
structure EList (α : Type) where
  full : List (List α)
  last : List α
  /-- the number of elements of each node -/
  ndata : Nat
  deriving DecidableEq, Repr, Inhabited

namespace EList

variable {α : Type}

def init (n : Nat) : EList α := ⟨[], [], n⟩

def entries (l : EList α) : List α := l.full.flatten ++ l.last

def needsNode (l : EList α) : Bool := l.last.length == l.ndata

/-- `ehd_list_push` followed by the caller's store into the returned slot. -/
def push (l : EList α) (x : α) : EList α :=
  if l.needsNode then { l with full := l.full ++ [l.last], last := [x] }
  else { l with last := l.last ++ [x] }

@[simp] theorem entries_init (n : Nat) : (init n : EList α).entries = [] := rfl

@[simp] theorem entries_push (l : EList α) (x : α) :
    (l.push x).entries = l.entries ++ [x] := by
  unfold push entries
  split <;> simp

end EList

end Ehd
