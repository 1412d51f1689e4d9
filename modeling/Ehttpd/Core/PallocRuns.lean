import Ehttpd.Core.PallocCalls

namespace Ehd.Palloc

open Program Region

/-- A call of `ehd_palloc`, or of `ehd_pcalloc` when the memory shall be cleared. -/
structure Request where
  cleared : Bool
  size : Nat
  deriving DecidableEq, Repr

variable (M : Malloc)

def Request.call (r : Request) (fuel : Nat) (pool : Nat) : Alloc (Option Nat) :=
  if r.cleared then pcalloc M fuel pool r.size else palloc M fuel pool r.size

def Returns (r : Request) (pool : Nat) (h : Heap) (res : Option Nat) (h' : Heap) : Prop :=
  ∃ rounds, ∀ fuel, rounds ≤ fuel → r.call M fuel pool h = .ok res h'

/-- The callers write into their memory; headers and nodes elsewhere stay. -/
structure Written (given : List Region) (h h' : Heap) : Prop where
  blocks : h'.blocks = h.blocks
  pools : ∀ p, (∀ r ∈ given, r.Apart (header p)) → h'.pools p = h.pools p
  larges : ∀ l, (∀ r ∈ given, r.Apart (node l)) → h'.larges l = h.larges l

/-- The states that a pool with blocks of `size` bytes gets into, with the regions that
its calls have given. -/
inductive Reached (size : Nat) : Heap → Nat → List Region → Prop
  | created {h h' : Heap} {pool : Nat} (apart : h.blocks.Pairwise Apart)
      (bounded : ∀ b ∈ h.blocks, b.stop < 2 ^ 64)
      (call : createPool M size h = .ok (some pool) h') : Reached size h' pool []
  | served {h h' : Heap} {pool m : Nat} {given : List Region} {r : Request}
      (before : Reached size h pool given) (call : Returns M r pool h (some m) h') :
      Reached size h' pool (given ++ [⟨m, r.size⟩])
  | refused {h h' : Heap} {pool : Nat} {given : List Region} {r : Request}
      (before : Reached size h pool given) (call : Returns M r pool h none h') :
      Reached size h' pool given
  | written {h h' : Heap} {pool : Nat} {given : List Region}
      (before : Reached size h pool given) (write : Written given h h') :
      Reached size h' pool given
  | elsewhere {h h' : Heap} {pool n : Nat} {res : Option Nat} {given : List Region}
      (before : Reached size h pool given) (call : malloc M n h = .ok res h') :
      Reached size h' pool given

section

variable {M} {size : Nat} {h h' : Heap} {pool : Nat} {bs ls : List Nat}
  {given nodes : List Region} {r : Request}

/-- A new pool. -/
theorem createPool_sound (hsize : SIZEOF_POOL + SIZEOF_LARGE ≤ size)
    (happart : h.blocks.Pairwise Apart) (hbounded : ∀ b ∈ h.blocks, b.stop < 2 ^ 64)
    (hcall : createPool M size h = .ok (some pool) h') :
    Sound h' pool size [pool] [] [] [] := by
  have hwp : wp (createPool M size) (fun res h' => ∀ p, res = some p →
      Sound h' p size [p] [] [] []) (fun _ _ => True) h := by
    unfold createPool
    rw [wp_bind]
    apply malloc_rule
    · rw [wp_pure]
      intro p hp
      cases hp
    -- the pool is its only block, and nothing has been given out
    · intro a hbound hfresh
      rw [wp_bind, wp_modify, wp_pure]
      intro p hp
      obtain rfl := Option.some.inj hp
      refine ⟨hsize, ?_, ?_, ⟨rfl, ?_⟩, by simp, ?_, ?_, List.nodup_nil, ?_, ?_,
        List.Pairwise.nil, ?_⟩
      · refine List.pairwise_append.2 ⟨happart, List.pairwise_singleton _ _, ?_⟩
        intro b hb c hc
        rw [List.mem_singleton.1 hc]
        exact (hfresh b hb).symm
      · intro b hb
        rcases List.mem_append.1 hb with hb | hb
        · exact hbounded b hb
        · rw [List.mem_singleton.1 hb]
          exact hbound
      · show Pool.next _ = none
        rw [Heap.setPool_pools, Function.update_self]
      · intro q hq
        rw [List.mem_singleton.1 hq]
        refine ⟨List.mem_append_right _ List.mem_cons_self, ?_, ?_, ?_⟩
        · rw [Heap.setPool_pools, Function.update_self]
        · rw [Heap.setPool_pools, Function.update_self]
        · rw [Heap.setPool_pools, Function.update_self]
          show a + SIZEOF_POOL ≤ a + size
          omega
      · show Pool.large _ = none
        rw [Heap.setPool_pools, Function.update_self]
      · intro l hl
        cases hl
      · intro l hl
        cases hl
      · intro r hr
        cases hr
  exact (wp_of_ok hcall).1 hwp pool rfl

def Outcome (size : Nat) (h : Heap) (pool : Nat) (bs ls : List Nat) (given : List Region)
    (r : Request) (res : Option Nat) (h' : Heap) : Prop :=
  match res with
  | some m => ∃ bs' ls' nodes, bs <+: bs' ∧ ls <+: ls' ∧
      Sound h' pool size bs' ls' (given ++ [⟨m, r.size⟩]) nodes
  | none => Intact h h' pool size bs ls given

def Request.taken (r : Request) (given : List Region) : Option Nat → List Region
  | some m => given ++ [⟨m, r.size⟩]
  | none => given

/-- A request ends, and keeps the invariant and the books. -/
theorem call_rule (hs : Sound h pool size bs ls given nodes) (r : Request) {fuel : Nat}
    (hfuel : bs.length + ls.length + 2 ≤ fuel) :
    wp (r.call M fuel pool) (fun res h' => Outcome size h pool bs ls given r res h' ∧
      Booked h h' pool size given (r.taken given res)) (fun _ _ => False) h := by
  have hok : ∀ m h' bs' ls' nodes', bs <+: bs' → ls <+: ls' →
      bs'.length + ls'.length ≤ bs.length + ls.length + 2 →
      Sound h' pool size bs' ls' (given ++ [⟨m, r.size⟩]) nodes' →
      Booked h h' pool size given (given ++ [⟨m, r.size⟩]) →
      Outcome size h pool bs ls given r (some m) h' ∧
        Booked h h' pool size given (r.taken given (some m)) :=
    fun m h' bs' ls' nodes' hbs hls _ hs' hbooked => ⟨⟨bs', ls', nodes', hbs, hls, hs'⟩, hbooked⟩
  unfold Request.call
  split
  · exact pcalloc_rule hs hfuel hok fun _ hintact hbooked => ⟨hintact, hbooked⟩
  · exact palloc_rule hs hfuel hok fun _ hintact hbooked => ⟨hintact, hbooked⟩

theorem returns_outcome (hs : Sound h pool size bs ls given nodes) {res : Option Nat}
    (hcall : Returns M r pool h res h') : Outcome size h pool bs ls given r res h' ∧
      Booked h h' pool size given (r.taken given res) := by
  obtain ⟨rounds, hrounds⟩ := hcall
  have hrule := @call_rule M _ _ _ _ _ _ _ hs r _ (Nat.le_max_left (bs.length + ls.length + 2) rounds)
  rw [wp_of_ok (hrounds _ (Nat.le_max_right _ _))] at hrule
  exact hrule

theorem findRoom_below {n k k' : Nat} (hk : k ≤ k') (p : Nat) :
    Below (findRoom n k p) (findRoom n k' p) := by
  induction k generalizing k' p with
  | zero => exact below_throw () _
  | succ k ih =>
    obtain ⟨k', rfl⟩ : ∃ j, k' = j + 1 := Nat.exists_eq_succ_of_ne_zero (by omega)
    unfold findRoom
    apply below_bind below_refl
    intro h
    dsimp only
    split
    · exact below_refl
    · cases (h.pools p).next with
      | none => exact below_refl
      | some q => exact ih (by omega) q

theorem findLarge_below {k k' : Nat} (hk : k ≤ k') (l : Nat) :
    Below (findLarge k l) (findLarge k' l) := by
  induction k generalizing k' l with
  | zero => exact below_throw () _
  | succ k ih =>
    obtain ⟨k', rfl⟩ : ∃ j, k' = j + 1 := Nat.exists_eq_succ_of_ne_zero (by omega)
    unfold findLarge
    apply below_bind below_refl
    intro h
    dsimp only
    cases (h.larges l).data with
    | none => exact below_refl
    | some _ =>
      cases (h.larges l).next with
      | none => exact below_refl
      | some l' => exact ih (by omega) l'

theorem searchLarge_below {k k' : Nat} (hk : k ≤ k') (pool : Nat) :
    Below (searchLarge k pool) (searchLarge k' pool) := by
  unfold searchLarge
  apply below_bind below_refl
  intro h
  cases (h.pools pool).large with
  | none => exact below_refl
  | some l =>
    apply below_bind (findLarge_below hk l)
    intro _
    exact below_refl

theorem palloc_below {k k' : Nat} (hk : k ≤ k') (pool n : Nat) :
    Below (palloc M k pool n) (palloc M k' pool n) := by
  induction k generalizing k' n with
  | zero => exact below_throw () _
  | succ k ih =>
    obtain ⟨k', rfl⟩ : ∃ j, k' = j + 1 := Nat.exists_eq_succ_of_ne_zero (by omega)
    unfold palloc
    apply below_bind below_refl
    intro h
    dsimp only
    split
    · unfold pallocSmall
      apply below_bind (findRoom_below (by omega) pool)
      intro _
      exact below_refl
    · apply below_bind (searchLarge_below (by omega) pool)
      rintro ⟨large, last⟩
      cases large with
      | some l => exact below_refl
      | none =>
        apply below_bind (ih (by omega) SIZEOF_LARGE)
        intro _
        exact below_refl

theorem call_below {k k' : Nat} (hk : k ≤ k') (pool : Nat) :
    Below (r.call M k pool) (r.call M k' pool) := by
  unfold Request.call
  split
  · unfold pcalloc
    apply below_bind (palloc_below hk pool r.size)
    intro _
    exact below_refl
  · exact palloc_below hk pool r.size

theorem returns_of_ok {res : Option Nat} {fuel : Nat} (hcall : r.call M fuel pool h = .ok res h') :
    Returns M r pool h res h' :=
  ⟨fuel, fun _ hle => call_below hle pool h res h' hcall⟩

theorem Returns.unique {res res' : Option Nat} {h'' : Heap} (hcall : Returns M r pool h res h')
    (hcall' : Returns M r pool h res' h'') : res = res' ∧ h' = h'' := by
  obtain ⟨rounds, hrounds⟩ := hcall
  obtain ⟨rounds', hrounds'⟩ := hcall'
  have hsame := (hrounds _ (Nat.le_max_left rounds rounds')).symm.trans
    (hrounds' _ (Nat.le_max_right rounds rounds'))
  injection hsame with hres hheap
  exact ⟨hres, hheap⟩

theorem Sound.returns (hs : Sound h pool size bs ls given nodes) (r : Request) :
    ∃ res h', Returns M r pool h res h' := by
  have hrule := @call_rule M _ _ _ _ _ _ _ hs r _ (Nat.le_refl _)
  unfold wp at hrule
  cases hcall : r.call M (bs.length + ls.length + 2) pool h with
  | ok res h' =>
    refine ⟨res, h', bs.length + ls.length + 2, ?_⟩
    intro fuel hfuel
    exact call_below hfuel pool h res h' hcall
  | error e h' =>
    rw [hcall] at hrule
    cases hrule

theorem Sound.written (hs : Sound h pool size bs ls given nodes) (hw : Written given h h') :
    Sound h' pool size bs ls given nodes := by
  apply hs.congr hw.blocks
  · intro p hp
    apply hw.pools
    intro r hr
    exact hs.header_apart hp (hs.placed r (List.mem_append_left _ hr))
  · intro l hl
    apply hw.larges
    intro r hr
    exact hs.node_apart hr hl

theorem Sound.elsewhere (hs : Sound h pool size bs ls given nodes) {n : Nat} {res : Option Nat}
    (hcall : malloc M n h = .ok res h') : Sound h' pool size bs ls given nodes := by
  have hwp : wp (malloc M n) (fun _ h' => Sound h' pool size bs ls given nodes)
      (fun _ _ => True) h := by
    apply malloc_rule
    · exact hs.notCalled
    · intro a hbound hapart
      exact hs.called hbound hapart
  exact (wp_of_ok hcall).1 hwp

/-- The invariant holds in every state of every run. -/
theorem Reached.sound (hsize : SIZEOF_POOL + SIZEOF_LARGE ≤ size)
    (hr : Reached M size h pool given) : ∃ bs ls nodes, Sound h pool size bs ls given nodes := by
  induction hr with
  | created happart hbounded hcall => exact ⟨_, _, _, createPool_sound hsize happart hbounded hcall⟩
  | served _ hcall ih =>
    obtain ⟨bs, ls, nodes, hs⟩ := ih
    obtain ⟨bs', ls', nodes', _, _, hs'⟩ := (returns_outcome hs hcall).1
    exact ⟨bs', ls', nodes', hs'⟩
  | refused _ hcall ih =>
    obtain ⟨bs, ls, nodes, hs⟩ := ih
    obtain ⟨bs', nodes', hs', _⟩ := (returns_outcome hs hcall).1
    exact ⟨bs', ls, nodes', hs'⟩
  | written _ hw ih =>
    obtain ⟨bs, ls, nodes, hs⟩ := ih
    exact ⟨bs, ls, nodes, hs.written hw⟩
  | elsewhere _ hcall ih =>
    obtain ⟨bs, ls, nodes, hs⟩ := ih
    exact ⟨bs, ls, nodes, hs.elsewhere hcall⟩

/-- The lists of the pool: its blocks, and the nodes of its large allocations. -/
def Lists (h : Heap) (pool : Nat) (bs ls : List Nat) : Prop :=
  Linked (fun p => (h.pools p).next) (some pool) bs ∧
    Linked (fun l => (h.larges l).next) (h.pools pool).large ls

/-- The regions lie in blocks that `malloc` has given, apart from each other and from what
the pool keeps for itself. -/
structure Good (h : Heap) (bs ls : List Nat) (given : List Region) : Prop where
  blocks : h.blocks.Pairwise Apart
  inside : ∀ r ∈ given, ∃ b ∈ h.blocks, r.Inside b
  headers : ∀ r ∈ given, ∀ p ∈ bs, r.Apart (header p)
  nodes : ∀ r ∈ given, ∀ l ∈ ls, r.Apart (node l)
  apart : given.Pairwise Apart

structure Untouched (h h' : Heap) (given : List Region) : Prop where
  pools : ∀ p, h'.pools p ≠ h.pools p → ∀ r ∈ given, r.Apart (header p)
  larges : ∀ l, h'.larges l ≠ h.larges l → ∀ r ∈ given, r.Apart (node l)

theorem Sound.lists (hs : Sound h pool size bs ls given nodes) : Lists h pool bs ls :=
  ⟨hs.linked, hs.larges⟩

theorem Sound.good (hs : Sound h pool size bs ls given nodes) : Good h bs ls given where
  blocks := hs.blocks
  inside := fun r hr => hs.inside_block (hs.placed r (List.mem_append_left _ hr))
  headers := fun r hr _ hp => hs.header_apart hp (hs.placed r (List.mem_append_left _ hr))
  nodes := fun _ hr _ hl => hs.node_apart hr hl
  apart := (List.pairwise_append.1 hs.apart).1

theorem Sound.untouched {bs' : List Nat} (hs : Sound h' pool size bs' ls given nodes)
    (hkept : Kept h h' bs bs') (hlarges : ∀ l, node l ∉ nodes → h'.larges l = h.larges l) :
    Untouched h h' given where
  pools := by
    intro p hp r hr
    have hmem : p ∈ bs' := by
      by_contra hnot
      exact hp (hkept.other p hnot)
    exact hs.header_apart hmem (hs.placed r (List.mem_append_left _ hr))
  larges := by
    intro l hl r hr
    have hmem : node l ∈ nodes := by
      by_contra hnot
      exact hl (hlarges l hnot)
    exact (List.pairwise_append.1 hs.apart).2.2 r hr _ hmem

/-- In every state of every run, every call ends.  The memory that it gives lies inside one
block, apart from all the pool and its callers have; when it gives none, the lists and
the memory given before are as they were, but for room that a node may have got. -/
theorem palloc_sound (hsize : SIZEOF_POOL + SIZEOF_LARGE ≤ size)
    (hr : Reached M size h pool given) (r : Request) :
    ∃ bs ls, Lists h pool bs ls ∧ Good h bs ls given ∧
      ∃ res h', Returns M r pool h res h' ∧
        match res with
        | some m => ∃ bs' ls', Lists h' pool bs' ls' ∧ bs <+: bs' ∧ ls <+: ls' ∧
            Good h' bs' ls' (given ++ [⟨m, r.size⟩])
        | none => ∃ bs', Lists h' pool bs' ls ∧ Kept h h' bs bs' ∧
            (∀ l ∈ ls, h'.larges l = h.larges l) ∧ Good h' bs' ls given ∧ Untouched h h' given := by
  obtain ⟨bs, ls, nodes, hs⟩ := hr.sound hsize
  obtain ⟨res, h', hcall⟩ := @Sound.returns M _ _ _ _ _ _ _ hs r
  have houtcome := (returns_outcome hs hcall).1
  refine ⟨bs, ls, hs.lists, hs.good, res, h', hcall, ?_⟩
  cases res with
  | some m =>
    obtain ⟨bs', ls', nodes', hbs, hls, hs'⟩ := houtcome
    exact ⟨bs', ls', hs'.lists, hbs, hls, hs'.good⟩
  | none =>
    obtain ⟨bs', nodes', hs', hkept, hsame, hlarges⟩ := houtcome
    exact ⟨bs', hs'.lists, hkept, hsame, hs'.good, hs'.untouched hkept hlarges⟩

theorem stop_le_foldr {bs : List Region} {b : Region} (hb : b ∈ bs) :
    b.stop ≤ bs.foldr (fun b a => max b.stop a) 4096 := by
  induction bs with
  | nil => cases hb
  | cons c bs ih =>
    rw [List.foldr_cons]
    rcases List.mem_cons.1 hb with rfl | hmem
    · exact Nat.le_max_left _ _
    · exact (ih hmem).trans (Nat.le_max_right _ _)

def bump : Malloc where
  alloc _ blocks size :=
    let a := blocks.foldr (fun b a => max b.stop a) 4096
    if a + size < 2 ^ 64 then some a else none
  bounded := by
    intro n blocks size a ha
    simp only [Option.ite_none_right_eq_some] at ha
    obtain ⟨hlt, heq⟩ := ha
    rw [← Option.some.inj heq]
    exact hlt
  apart := by
    intro n blocks size a ha b hb
    simp only [Option.ite_none_right_eq_some] at ha
    rw [← Option.some.inj ha.2]
    exact Or.inr (Or.inr (Or.inr (stop_le_foldr hb)))

def emptyHeap : Heap := ⟨fun _ => ⟨0, 0, none, none⟩, fun _ => ⟨none, none⟩, [], 0⟩

def smallPool : Heap := after (createPool bump 64) emptyHeap

theorem smallPool_reached : Reached bump 64 smallPool 4096 [] := by
  have hcall : createPool bump 64 emptyHeap = .ok (some 4096) smallPool := rfl
  refine .created List.Pairwise.nil ?_ hcall
  intro b hb
  cases hb

/-- The pool after a small request, and after one that needs a block of its own. -/
def takenPool : Heap := after (Request.call bump ⟨false, 16⟩ 4 4096) smallPool

def usedPool : Heap := after (Request.call bump ⟨true, 100⟩ 4 4096) takenPool

theorem usedPool_reached : Reached bump 64 usedPool 4096 [⟨4128, 16⟩, ⟨4160, 100⟩] := by
  have hsmall : Request.call bump ⟨false, 16⟩ 4 4096 smallPool = .ok (some 4128) takenPool :=
    eq_ok_of_result (by decide +kernel)
  have hlarge : Request.call bump ⟨true, 100⟩ 4 4096 takenPool = .ok (some 4160) usedPool :=
    eq_ok_of_result (by decide +kernel)
  exact .served (.served smallPool_reached (returns_of_ok hsmall)) (returns_of_ok hlarge)

theorem palloc_sound_usedPool : ∃ m h' bs ls, Returns bump ⟨false, 20⟩ 4096 usedPool (some m) h' ∧
    Lists h' 4096 bs ls ∧ Good h' bs ls [⟨4128, 16⟩, ⟨4160, 100⟩, ⟨m, 20⟩] := by
  obtain ⟨_, _, _, _, res, h', hcall, hres⟩ := palloc_sound (by decide) usedPool_reached ⟨false, 20⟩
  have hsome : result (Request.call bump ⟨false, 20⟩ 4 4096) usedPool = some (some 4292) := by
    decide +kernel
  obtain ⟨rfl, -⟩ := hcall.unique (returns_of_ok (eq_ok_of_result hsome))
  obtain ⟨bs', ls', hlists, -, -, hgood⟩ := hres
  exact ⟨4292, h', bs', ls', hcall, hlists, hgood⟩

end

end Ehd.Palloc
