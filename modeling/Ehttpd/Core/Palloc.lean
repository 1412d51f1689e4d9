import Ehttpd.Lib.Linked
import Ehttpd.Lib.Program
import Ehttpd.Lib.Region
import Mathlib.Algebra.Group.Nat.Defs
import Mathlib.Tactic.Simps.Basic

namespace Ehd.Palloc

open Program

/-- `sizeof(ehd_pool_t)` and `sizeof(ehd_pool_large_t)`, on a 64-bit machine. -/
def SIZEOF_POOL : Nat := 32
def SIZEOF_LARGE : Nat := 16

def EHD_MAX_ALLOC_FROM_POOL : Nat := 1048576
def EHD_DEFAULT_POOL_SIZE : Nat := 16384

structure Pool where
  last : Nat
  stop : Nat
  next : Option Nat
  large : Option Nat
  deriving DecidableEq, Repr

structure Large where
  next : Option Nat
  data : Option Nat
  deriving DecidableEq, Repr

/-- What stands at each address, read as a header or as a node, and what `malloc`
has handed out. -/
structure Heap where
  pools : Nat → Pool
  larges : Nat → Large
  blocks : List Region
  mallocs : Nat

/-- `malloc`: its result for the `n`-th call, the blocks handed out before and a size.
It fails as it likes; what it gives lies in the address space, apart from the
other blocks. -/
structure Malloc where
  alloc : Nat → List Region → Nat → Option Nat
  bounded : ∀ {n blocks size a}, alloc n blocks size = some a → a + size < 2 ^ 64
  apart : ∀ {n blocks size a}, alloc n blocks size = some a →
    ∀ b ∈ blocks, Region.Apart ⟨a, size⟩ b

/-- A program on the heap; it stops when a loop was given too few rounds. -/
abbrev Alloc (α : Type) := EStateM Unit Heap α

namespace Heap

@[simps] def setPool (h : Heap) (p : Nat) (f : Pool → Pool) : Heap :=
  { h with pools := Function.update h.pools p (f (h.pools p)) }

@[simps] def setLarge (h : Heap) (l : Nat) (f : Large → Large) : Heap :=
  { h with larges := Function.update h.larges l (f (h.larges l)) }

end Heap

variable (M : Malloc)

@[simps] def Heap.called (h : Heap) (given : List Region) : Heap :=
  { h with mallocs := h.mallocs + 1, blocks := h.blocks ++ given }

def malloc (size : Nat) : Alloc (Option Nat) := do
  let h ← get
  match M.alloc h.mallocs h.blocks size with
  | none =>
    set (h.called [])
    return none
  | some a =>
    set (h.called [⟨a, size⟩])
    return some a

def createPool (size : Nat) : Alloc (Option Nat) := do
  match ← malloc M size with
  | none => return none
  | some p =>
    modify (·.setPool p fun _ =>
      { last := p + SIZEOF_POOL, stop := p + size, next := none, large := none })
    return some p

def sub64 (a b : Nat) : Nat := (a + 2 ^ 64 - b) % 2 ^ 64

/-- The loop over the blocks: the memory taken from the first that has room, or the
last block. -/
def findRoom (size : Nat) : Nat → Nat → Alloc (Nat ⊕ Nat)
  | 0, _ => throw ()
  | fuel + 1, p => do
    let b := (← get).pools p
    if size ≤ sub64 b.stop b.last then
      modify (·.setPool p fun b => { b with last := b.last + size })
      return .inl b.last
    else
      match b.next with
      | none => return .inr p
      | some n => findRoom size fuel n

def pallocSmall (fuel : Nat) (pool : Nat) (size : Nat) : Alloc (Option Nat) := do
  match ← findRoom size fuel pool with
  | .inl m => return some m
  | .inr p =>
    match ← createPool M (sub64 ((← get).pools p).stop p) with
    | none => return none
    | some n =>
      modify (·.setPool p fun b => { b with next := some n })
      let m := ((← get).pools n).last
      modify (·.setPool n fun b => { b with last := b.last + size })
      return some m

/-- The loop over the large allocations: a node without data, or the last node. -/
def findLarge : Nat → Nat → Alloc (Nat ⊕ Nat)
  | 0, _ => throw ()
  | fuel + 1, l => do
    let n := (← get).larges l
    match n.data with
    | none => return .inl l
    | some _ =>
      match n.next with
      | none => return .inr l
      | some l' => findLarge fuel l'

def searchLarge (fuel : Nat) (pool : Nat) : Alloc (Option Nat × Option Nat) := do
  match ((← get).pools pool).large with
  | none => return (none, none)
  | some l =>
    match ← findLarge fuel l with
    | .inl large => return (some large, none)
    | .inr last => return (none, some last)

def linkLarge (pool : Nat) (large : Nat) (last : Option Nat) : Alloc Unit := do
  if ((← get).pools pool).large = none then
    modify (·.setPool pool fun b => { b with large := some large })
  else
    match last with
    | some last => modify (·.setLarge last fun n => { n with next := some large })
    | none => return ()

def fillLarge (pool : Nat) (size : Nat) (large : Nat) (last : Option Nat) :
    Alloc (Option Nat) := do
  match ← malloc M size with
  | none => return none
  | some m =>
    linkLarge pool large last
    modify (·.setLarge large fun n => { n with data := some m })
    return some m

/-- `ehd_palloc`; a large allocation gets its node from the same pool. -/
def palloc : Nat → Nat → Nat → Alloc (Option Nat)
  | 0, _, _ => throw ()
  | fuel + 1, pool, size => do
    let stop := ((← get).pools pool).stop
    if size ≤ EHD_MAX_ALLOC_FROM_POOL ∧ size ≤ sub64 (sub64 stop pool) SIZEOF_POOL then
      pallocSmall M fuel pool size
    else
      let (large, last) ← searchLarge fuel pool
      match large with
      | some large => fillLarge M pool size large last
      | none =>
        match ← palloc fuel pool SIZEOF_LARGE with
        | none => return none
        | some large =>
          modify (·.setLarge large fun n => { n with next := none })
          fillLarge M pool size large last

/-- `memset(m, 0, size)`; a header or a node that the region touches is destroyed. -/
def Heap.memset (h : Heap) (r : Region) : Heap :=
  { h with
    pools := fun p => if r.Apart ⟨p, SIZEOF_POOL⟩ then h.pools p else ⟨0, 0, none, none⟩
    larges := fun l => if r.Apart ⟨l, SIZEOF_LARGE⟩ then h.larges l else ⟨none, none⟩ }

def pcalloc (fuel : Nat) (pool : Nat) (size : Nat) : Alloc (Option Nat) := do
  match ← palloc M fuel pool size with
  | none => return none
  | some m =>
    modify (·.memset ⟨m, size⟩)
    return some m

end Ehd.Palloc
