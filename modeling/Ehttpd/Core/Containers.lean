import Ehttpd.Core.Palloc
import Ehttpd.Core.World

namespace Ehd.Palloc

open Program

/-- `sizeof(ehd_list_t)` and `sizeof(ehd_array_t)`, and the offset of `head` in a list. -/
def SIZEOF_LIST : Nat := 56
def SIZEOF_ARRAY : Nat := 32
def OFFSETOF_HEAD : Nat := 8

structure ListNode where
  data : Option Nat
  ndata : Nat
  next : Option Nat
  deriving DecidableEq, Repr

/-- `ehd_list_t`, but for `head`: this is the node that stands in the list. -/
structure ListHead where
  last : Nat
  size : Nat
  ndata : Nat
  pool : Nat
  deriving DecidableEq, Repr

structure Table where
  data : Option Nat
  size : Nat
  nblock : Nat
  ndata : Nat
  pool : Nat
  deriving DecidableEq, Repr

structure Memory where
  heap : Heap
  lists : Nat → ListHead
  nodes : Nat → ListNode
  arrays : Nat → Table
  bytes : Nat → UInt8

/-- Why a program stops early: a loop was given too few rounds, or it follows `NULL`. -/
inductive Halt
  | rounds
  | null
  deriving DecidableEq, Repr

abbrev Store (α : Type) := EStateM Halt Memory α

namespace Memory

def setList (m : Memory) (l : Nat) (f : ListHead → ListHead) : Memory :=
  { m with lists := Function.update m.lists l (f (m.lists l)) }

def setNode (m : Memory) (a : Nat) (f : ListNode → ListNode) : Memory :=
  { m with nodes := Function.update m.nodes a (f (m.nodes a)) }

def setArray (m : Memory) (a : Nat) (f : Table → Table) : Memory :=
  { m with arrays := Function.update m.arrays a (f (m.arrays a)) }

def setHeap (m : Memory) (h : Heap) : Memory := { m with heap := h }

/-- Bytes are written into a region; the structures that it touches are destroyed. -/
def write (m : Memory) (r : Region) (f : Nat → UInt8) : Memory where
  heap := m.heap.memset r
  lists l := if r.Apart ⟨l, SIZEOF_LIST⟩ then m.lists l else ⟨0, 0, 0, 0⟩
  nodes a := if r.Apart ⟨a, SIZEOF_LIST_NODE⟩ then m.nodes a else ⟨none, 0, none⟩
  arrays a := if r.Apart ⟨a, SIZEOF_ARRAY⟩ then m.arrays a else ⟨none, 0, 0, 0, 0⟩
  bytes x := if r.start ≤ x ∧ x < r.stop then f x else m.bytes x

def memcpy (m : Memory) (dst src n : Nat) : Memory :=
  m.write ⟨dst, n⟩ fun x => m.bytes (src + (x - dst))

end Memory

def onHeap {α : Type} (x : Alloc α) : Store α := fun m =>
  match x m.heap with
  | .ok a h => .ok a (m.setHeap h)
  | .error () h => .error .rounds (m.setHeap h)

variable (M : Malloc)

/-- `size_t` and `u_int` arithmetic, and the address of the `i`-th of the elements at `data`. -/
def size64 (n : Nat) : Nat := n % 2 ^ 64
def uint (n : Nat) : Nat := n % 2 ^ 32
def element (data : Option Nat) (size i : Nat) : Nat := (data.getD 0 + size64 (size * i)) % 2 ^ 64

def listInit (fuel : Nat) (list pool n size : Nat) : Store Int := do
  let head := list + OFFSETOF_HEAD
  let data ← onHeap (palloc M fuel pool (size64 (n * size)))
  modify (·.setNode head fun a => { a with data := data })
  match ((← get).nodes head).data with
  | none => return EHD_ERROR
  | some _ =>
    modify (·.setNode head fun a => { a with ndata := 0, next := none })
    modify (·.setList list fun _ => { last := head, size := size, ndata := n, pool := pool })
    return EHD_OK

def listCreate (fuel : Nat) (pool n size : Nat) : Store (Option Nat) := do
  match ← onHeap (palloc M fuel pool SIZEOF_LIST) with
  | none => return none
  | some list =>
    if (← listInit M fuel list pool n size) ≠ EHD_OK then return none
    else return some list

def takeElement (list last : Nat) : Store (Option Nat) := do
  let m ← get
  let node := m.nodes last
  modify (·.setNode last fun a => { a with ndata := uint (a.ndata + 1) })
  return some (element node.data (m.lists list).size node.ndata)

def listPush (fuel : Nat) (list : Nat) : Store (Option Nat) := do
  let m ← get
  let last := (m.lists list).last
  if (m.nodes last).ndata = (m.lists list).ndata then
    match ← onHeap (palloc M fuel (m.lists list).pool SIZEOF_LIST_NODE) with
    | none => return none
    | some new =>
      let l := (← get).lists list
      let data ← onHeap (palloc M fuel l.pool (size64 (l.ndata * l.size)))
      modify (·.setNode new fun a => { a with data := data })
      match data with
      | none => return none
      | some _ =>
        modify (·.setNode new fun a => { a with ndata := 0, next := none })
        let last := ((← get).lists list).last
        modify (·.setNode last fun a => { a with next := some new })
        modify (·.setList list fun l => { l with last := new })
        takeElement list new
  else takeElement list last

/-- The elements that the two loops of `test_list` look at, from a node on. -/
def traverse (m : Memory) (list : Nat) : Nat → Option Nat → Option (List Nat)
  | 0, _ => none
  | _ + 1, none => some []
  | fuel + 1, some a => do
    let node := m.nodes a
    let rest ← traverse m list fuel node.next
    return (List.range node.ndata).map (element node.data (m.lists list).size) ++ rest

def arrayCreate (fuel : Nat) (pool n size : Nat) : Store Nat := do
  match ← onHeap (palloc M fuel pool SIZEOF_ARRAY) with
  | none => throw .null
  | some array =>
    let data ← onHeap (palloc M fuel pool (size64 (size * n)))
    modify (·.setArray array fun _ =>
      { data := data, size := size, nblock := n, ndata := 0, pool := pool })
    return array

def arrayDestroy (array : Nat) : Store Unit := do
  let a := (← get).arrays array
  let p := a.pool
  if element a.data a.size a.ndata = ((← get).heap.pools p).last then
    modify fun m => m.setHeap (m.heap.setPool p fun b => { b with last := a.data.getD 0 })
  if (array + SIZEOF_ARRAY) % 2 ^ 64 = ((← get).heap.pools p).last then
    modify fun m => m.setHeap (m.heap.setPool p fun b => { b with last := array })

/-- What `ehd_array_push` does to a full array: it takes the next bytes of the block, or moves
the elements into a new place of twice the size. -/
def arrayGrow (fuel : Nat) (array : Nat) : Store (Option Unit) := do
  let a := (← get).arrays array
  let p := (← get).heap.pools a.pool
  if element a.data a.size a.ndata = p.last ∧ a.size ≤ uint (sub64 p.stop p.last) then
    modify fun m => m.setHeap (m.heap.setPool a.pool fun b => { b with last := b.last + a.size })
    modify (·.setArray array fun a => { a with nblock := uint (a.nblock + 1) })
    return some ()
  else
    match ← onHeap (palloc M fuel a.pool (size64 (size64 (2 * a.size) * a.nblock))) with
    | none => return none
    | some new =>
      let a := (← get).arrays array
      modify (·.memcpy new (a.data.getD 0) (size64 (a.size * a.nblock)))
      modify (·.setArray array fun a =>
        { a with data := some new, nblock := uint (a.nblock * 2) })
      return some ()

def arrayPush (fuel : Nat) (array : Nat) : Store (Option Nat) := do
  let a := (← get).arrays array
  let grown : Store (Option Unit) :=
    if a.ndata = a.nblock then arrayGrow M fuel array else pure (some ())
  match ← grown with
  | none => return none
  | some () =>
    let a := (← get).arrays array
    modify (·.setArray array fun a => { a with ndata := uint (a.ndata + 1) })
    return some (element a.data a.size a.ndata)

end Ehd.Palloc
