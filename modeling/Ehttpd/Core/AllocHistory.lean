import Ehttpd.Core.PallocRuns
import Ehttpd.Core.World

namespace Ehd

namespace Palloc

open Program

def AllGiven (h h' : Heap) : Prop :=
  h'.mallocs + h.blocks.length = h.mallocs + h'.blocks.length

instance (h h' : Heap) : Decidable (AllGiven h h') := by
  unfold AllGiven
  infer_instance

def Denied (h h' : Heap) : Prop :=
  h.mallocs + h'.blocks.length < h'.mallocs + h.blocks.length

theorem Denied.not_allGiven {h h' : Heap} (hd : Denied h h') : ¬ AllGiven h h' := by
  unfold Denied AllGiven at *
  omega

/-- A call gives no memory exactly if one of its `malloc`s gives no block. -/
structure Decides (h : Heap) (res : Option Nat) (h' : Heap) : Prop where
  denied : res = none → Denied h h'
  given : res ≠ none → AllGiven h h'

variable {M : Malloc} {h₀ h h' : Heap} {n pool : Nat}

theorem malloc_decides (hlevel : AllGiven h₀ h) :
    wp (malloc M n) (Decides h₀) (fun _ _ => True) h := by
  apply malloc_rule
  · refine ⟨fun _ => ?_, fun hne => absurd rfl hne⟩
    unfold Denied AllGiven at *
    rw [Heap.called_blocks, Heap.called_mallocs, List.append_nil]
    omega
  · intro a _ _
    refine ⟨nofun, fun _ => ?_⟩
    unfold AllGiven at *
    rw [Heap.called_blocks, Heap.called_mallocs, List.length_append, List.length_singleton]
    omega

theorem createPool_decides (hlevel : AllGiven h₀ h) :
    wp (createPool M n) (Decides h₀) (fun _ _ => True) h := by
  unfold createPool
  rw [wp_bind]
  refine wp_mono (malloc_decides hlevel) (fun res h' hd => ?_) fun _ _ _ => trivial
  cases res with
  | none => exact hd
  | some a =>
    rw [wp_bind, wp_modify, wp_pure]
    exact ⟨nofun, fun _ => hd.given (Option.some_ne_none _)⟩

theorem findRoom_level {fuel : Nat} (hlevel : AllGiven h₀ h) (p : Nat) :
    wp (findRoom n fuel p) (fun _ h' => AllGiven h₀ h') (fun _ _ => True) h := by
  induction fuel generalizing p with
  | zero => trivial
  | succ fuel ih =>
    unfold findRoom
    rw [wp_bind, wp_get]
    dsimp only
    split
    · rw [wp_bind, wp_modify, wp_pure]
      exact hlevel
    · split
      · exact hlevel
      · exact ih _

theorem findLarge_level {fuel : Nat} (hlevel : AllGiven h₀ h) (l : Nat) :
    wp (findLarge fuel l) (fun _ h' => AllGiven h₀ h') (fun _ _ => True) h := by
  induction fuel generalizing l with
  | zero => trivial
  | succ fuel ih =>
    unfold findLarge
    rw [wp_bind, wp_get]
    dsimp only
    split
    · exact hlevel
    · split
      · exact hlevel
      · exact ih _

theorem searchLarge_level {fuel : Nat} (hlevel : AllGiven h₀ h) :
    wp (searchLarge fuel pool) (fun _ h' => AllGiven h₀ h') (fun _ _ => True) h := by
  unfold searchLarge
  rw [wp_bind, wp_get]
  split
  · exact hlevel
  · rw [wp_bind]
    refine wp_mono (findLarge_level hlevel _) (fun place h' hlevel' => ?_) fun _ _ _ => trivial
    cases place with
    | inl large => exact hlevel'
    | inr last => exact hlevel'

theorem linkLarge_level {large : Nat} {last : Option Nat} (hlevel : AllGiven h₀ h) :
    wp (linkLarge pool large last) (fun _ h' => AllGiven h₀ h') (fun _ _ => True) h := by
  unfold linkLarge
  rw [wp_bind, wp_get]
  split
  · rw [wp_modify]
    exact hlevel
  · cases last with
    | none => exact hlevel
    | some last => exact hlevel

theorem pallocSmall_decides {fuel : Nat} (hlevel : AllGiven h₀ h) :
    wp (pallocSmall M fuel pool n) (Decides h₀) (fun _ _ => True) h := by
  unfold pallocSmall
  rw [wp_bind]
  refine wp_mono (findRoom_level hlevel pool) (fun place h' hlevel' => ?_) fun _ _ _ => trivial
  cases place with
  | inl m => exact ⟨nofun, fun _ => hlevel'⟩
  | inr p =>
    dsimp only
    rw [wp_bind, wp_get, wp_bind]
    refine wp_mono (createPool_decides hlevel') (fun res h'' hd => ?_) fun _ _ _ => trivial
    cases res with
    | none => exact hd
    | some a =>
      dsimp only
      rw [wp_bind, wp_modify, wp_bind, wp_get, wp_bind, wp_modify, wp_pure]
      exact ⟨nofun, fun _ => hd.given (Option.some_ne_none _)⟩

theorem fillLarge_decides {large : Nat} {last : Option Nat} (hlevel : AllGiven h₀ h) :
    wp (fillLarge M pool n large last) (Decides h₀) (fun _ _ => True) h := by
  unfold fillLarge
  rw [wp_bind]
  refine wp_mono (malloc_decides hlevel) (fun res h' hd => ?_) fun _ _ _ => trivial
  cases res with
  | none => exact hd
  | some a =>
    dsimp only
    rw [wp_bind]
    refine wp_mono (linkLarge_level (hd.given (Option.some_ne_none _))) (fun _ h'' hlevel' => ?_) fun _ _ _ => trivial
    rw [wp_bind, wp_modify, wp_pure]
    exact ⟨nofun, fun _ => hlevel'⟩

/-- By induction on the rounds: the node of a large allocation is memory of the same pool. -/
theorem palloc_decides {fuel : Nat} (hlevel : AllGiven h₀ h) :
    wp (palloc M fuel pool n) (Decides h₀) (fun _ _ => True) h := by
  induction fuel generalizing h n with
  | zero => trivial
  | succ fuel ih =>
    unfold palloc
    rw [wp_bind, wp_get]
    dsimp only
    split
    · exact pallocSmall_decides hlevel
    · rw [wp_bind]
      refine wp_mono (searchLarge_level hlevel) (fun found h' hlevel' => ?_) fun _ _ _ => trivial
      obtain ⟨large, last⟩ := found
      cases large with
      | some large => exact fillLarge_decides hlevel'
      | none =>
        dsimp only
        rw [wp_bind]
        refine wp_mono (ih hlevel') (fun res h'' hd => ?_) fun _ _ _ => trivial
        cases res with
        | none => exact hd
        | some large =>
          dsimp only
          rw [wp_bind, wp_modify]
          exact fillLarge_decides (hd.given (Option.some_ne_none _))

theorem call_decides {r : Request} {fuel : Nat} (hlevel : AllGiven h₀ h) :
    wp (r.call M fuel pool) (Decides h₀) (fun _ _ => True) h := by
  unfold Request.call
  split
  · unfold pcalloc
    rw [wp_bind]
    refine wp_mono (palloc_decides hlevel) (fun res h' hd => ?_) fun _ _ _ => trivial
    cases res with
    | none => exact hd
    | some m =>
      rw [wp_bind, wp_modify, wp_pure]
      exact ⟨nofun, fun _ => hd.given (Option.some_ne_none _)⟩
  · exact palloc_decides hlevel

theorem Returns.decides {r : Request} {res : Option Nat} (hcall : Returns M r pool h res h') :
    Decides h res h' := by
  obtain ⟨rounds, hrounds⟩ := hcall
  have hrule := @call_decides M h h pool r rounds rfl
  rw [wp_of_ok (hrounds rounds (Nat.le_refl _))] at hrule
  exact hrule

end Palloc

open Palloc Program

structure Pools where
  heap : Heap
  place : Nat → Option Nat

variable (M : Malloc)

inductive PoolCall : AllocCall → Bool → Pools → Pools → Prop
  | created {σ : Pools} {pool size a : Nat} {h' : Heap} :
      Palloc.createPool M size σ.heap = .ok (some a) h' →
      PoolCall (.createPool pool size) true σ ⟨h', Function.update σ.place pool (some a)⟩
  | notCreated {σ : Pools} {pool size : Nat} {h' : Heap} :
      Palloc.createPool M size σ.heap = .ok none h' →
      PoolCall (.createPool pool size) false σ ⟨h', σ.place⟩
  | palloc {σ : Pools} {cleared : Bool} {pool size a : Nat} {res : Option Nat} {h' : Heap} :
      σ.place pool = some a → Returns M ⟨cleared, size⟩ a σ.heap res h' →
      PoolCall (.palloc cleared pool size) res.isSome σ ⟨h', σ.place⟩
  | grow {σ : Pools} {pool size a : Nat} : σ.place pool = some a →
      (σ.heap.pools a).last + size ≤ (σ.heap.pools a).stop →
      PoolCall (.grow pool size) true σ ⟨σ.heap.take a size, σ.place⟩

/-- Between two calls: pools may have been destroyed, the memory that was given out written, and
the rest of the program may have done as it likes with its own; the pools that are left have kept
their headers and their nodes. -/
structure Meantime (σ σ' : Pools) : Prop where
  place : ∀ pool a, σ'.place pool = some a → σ.place pool = some a
  kept : ∀ pool a, σ'.place pool = some a → ∀ bs ls, Lists σ.heap a bs ls →
    (∀ p ∈ bs, σ'.heap.pools p = σ.heap.pools p) ∧ ∀ l ∈ ls, σ'.heap.larges l = σ.heap.larges l

/-- The log is one that the pools give over this `malloc`: each call has the outcome that
`core/ehd_palloc.c` computes, and meets the condition `cond`. -/
inductive PoolLog (cond : ReadHandler → Heap → Heap → Prop) : List Allocation → Pools → Prop
  | start {σ : Pools} : (∀ pool, σ.place pool = none) → PoolLog cond [] σ
  | call {log : List Allocation} {σ σ' : Pools} {x : Allocation} : PoolLog cond log σ →
      PoolCall M x.call x.ok σ σ' → cond x.handler σ.heap σ'.heap → PoolLog cond (log ++ [x]) σ'
  | meantime {log : List Allocation} {σ σ' : Pools} : PoolLog cond log σ → Meantime σ σ' →
      PoolLog cond log σ'

variable {M} {cond : ReadHandler → Heap → Heap → Prop} {log rest : List Allocation}
  {σ σ' : Pools}

/-- An allocation fails exactly if a `malloc` in it does. -/
theorem PoolCall.fails_iff {call : AllocCall} {ok : Bool} (h : PoolCall M call ok σ σ') :
    ok = false ↔ ¬ AllGiven σ.heap σ'.heap := by
  have given : ∀ {res : Option Nat} {h' : Heap}, Decides σ.heap res h' →
      (res.isSome = false ↔ ¬ AllGiven σ.heap h') := by
    intro res h' hd
    cases res with
    | none => exact iff_of_true rfl (hd.denied rfl).not_allGiven
    | some a => exact iff_of_false nofun (not_not.2 (hd.given (Option.some_ne_none _)))
  have created : ∀ {size : Nat} {res : Option Nat} {h' : Heap},
      Palloc.createPool M size σ.heap = .ok res h' → Decides σ.heap res h' := by
    intro size res h' hcall
    have hrule := @createPool_decides M σ.heap σ.heap size rfl
    rw [wp_of_ok hcall] at hrule
    exact hrule
  cases h with
  | created hcall => exact given (created hcall)
  | notCreated hcall => exact given (created hcall)
  | palloc _ hcall => exact given hcall.decides
  | grow _ _ => exact iff_of_false nofun (not_not.2 rfl)

theorem PoolLog.last {x : Allocation} (h : PoolLog M cond (log ++ [x]) σ) :
    ∃ σ₁ σ₂, PoolCall M x.call x.ok σ₁ σ₂ ∧ cond x.handler σ₁.heap σ₂.heap := by
  generalize hlog : log ++ [x] = log' at h
  induction h with
  | start _ => exact absurd hlog (by simp)
  | call _ hcalled hcond _ =>
    obtain ⟨-, hx⟩ := List.append_inj' hlog rfl
    obtain rfl := (List.cons.inj hx).1
    exact ⟨_, _, hcalled, hcond⟩
  | meantime _ _ ih => exact ih hlog

section Replay

variable (M) [∀ handler h h', Decidable (cond handler h h')]

def callPool (σ : Pools) : AllocCall → Option (Bool × Pools)
  | .createPool pool size =>
    match Palloc.createPool M size σ.heap with
    | .ok (some a) h' => some (true, ⟨h', Function.update σ.place pool (some a)⟩)
    | .ok none h' => some (false, ⟨h', σ.place⟩)
    | .error _ _ => none
  | .palloc cleared pool size =>
    match σ.place pool with
    | none => none
    | some a =>
      match Request.call M ⟨cleared, size⟩ 4 a σ.heap with
      | .ok res h' => some (res.isSome, ⟨h', σ.place⟩)
      | .error _ _ => none
  | .grow pool size =>
    match σ.place pool with
    | none => none
    | some a =>
      if (σ.heap.pools a).last + size ≤ (σ.heap.pools a).stop then
        some (true, ⟨σ.heap.take a size, σ.place⟩)
      else none

def replay (cond : ReadHandler → Heap → Heap → Prop)
    [∀ handler h h', Decidable (cond handler h h')] : List Allocation → Pools → Option Pools
  | [], σ => some σ
  | x :: rest, σ =>
    match callPool M σ x.call with
    | some (ok, σ') =>
      if ok = x.ok ∧ cond x.handler σ.heap σ'.heap then replay cond rest σ' else none
    | none => none

variable {M}

theorem callPool_sound {call : AllocCall} {ok : Bool} (h : callPool M σ call = some (ok, σ')) :
    PoolCall M call ok σ σ' := by
  cases call with
  | createPool pool size =>
    rw [callPool] at h
    split at h
    · next hcall =>
      cases h
      exact .created hcall
    · next hcall =>
      cases h
      exact .notCreated hcall
    · cases h
  | palloc cleared pool size =>
    rw [callPool] at h
    split at h
    · cases h
    · next a ha =>
      split at h
      · next hcall =>
        cases h
        exact .palloc ha (returns_of_ok hcall)
      · cases h
  | grow pool size =>
    rw [callPool] at h
    split at h
    · cases h
    · next a ha =>
      split at h
      · next hroom =>
        cases h
        exact .grow ha hroom
      · cases h

/-- A log that can be made again is one that the pools give. -/
theorem replay_sound (hlog : PoolLog M cond log σ) (h : replay M cond rest σ = some σ') :
    PoolLog M cond (log ++ rest) σ' := by
  induction rest generalizing log σ with
  | nil =>
    cases h
    rw [List.append_nil]
    exact hlog
  | cons x rest ih =>
    unfold replay at h
    split at h
    · next ok σ₁ hcalled =>
      split at h
      · next hx =>
        obtain ⟨rfl, hcond⟩ := hx
        have hnext := ih (hlog.call (callPool_sound hcalled) hcond) h
        rw [List.append_assoc] at hnext
        exact hnext
      · cases h
    · cases h

end Replay

def noPools : Pools := ⟨emptyHeap, fun _ => none⟩

def scarce (n : Nat) : Malloc where
  alloc calls blocks size := if calls < n then bump.alloc calls blocks size else none
  bounded := by
    intro calls blocks size a ha
    split at ha
    · exact bump.bounded ha
    · cases ha
  apart := by
    intro calls blocks size a ha
    split at ha
    · exact bump.apart ha
    · cases ha

end Ehd
