import Ehttpd.Core.PallocRuns

namespace Ehd.Palloc

open Program Region

/-- Why a destruction stops early: a loop was given too few rounds, memory is read that has been
freed, or something is freed that is no block, or none any more. -/
inductive Fault
  | rounds
  | stale
  | wild
  deriving DecidableEq, Repr

structure Teardown where
  heap : Heap
  freed : List Nat

abbrev Free (α : Type) := EStateM Fault Teardown α

def Teardown.Live (t : Teardown) (r : Region) : Prop :=
  ∀ b ∈ t.heap.blocks, b.start ∈ t.freed → r.Apart b

instance (t : Teardown) (r : Region) : Decidable (t.Live r) := by
  unfold Teardown.Live
  infer_instance

def free (a : Nat) : Free Unit := do
  let t ← get
  if (∃ b ∈ t.heap.blocks, b.start = a) ∧ a ∉ t.freed then
    set { t with freed := t.freed ++ [a] }
  else
    throw .wild

def readPool (p : Nat) : Free Pool := do
  let t ← get
  if t.Live (header p) then return t.heap.pools p else throw .stale

def readLarge (l : Nat) : Free Large := do
  let t ← get
  if t.Live (node l) then return t.heap.larges l else throw .stale

def freeLarges : Nat → Option Nat → Free Unit
  | 0, _ => throw .rounds
  | _ + 1, none => return ()
  | fuel + 1, some l => do
    match (← readLarge l).data with
    | some data => free data
    | none => pure ()
    freeLarges fuel (← readLarge l).next

/-- The loop over the blocks: `n` is read before the block that it stands in is freed. -/
def freeBlocks : Nat → Nat → Option Nat → Free Unit
  | 0, _, _ => throw .rounds
  | fuel + 1, p, n => do
    free p
    match n with
    | none => return ()
    | some n => freeBlocks fuel n (← readPool n).next

def destroyPool (fuel : Nat) (pool : Nat) : Free Unit := do
  freeLarges fuel (← readPool pool).large
  freeBlocks fuel pool (← readPool pool).next

section Loops

variable {h : Heap} {freed : List Nat} {Q : Unit → Teardown → Prop} {E : Fault → Teardown → Prop}

theorem free_rule {a : Nat} (hblock : ∃ b ∈ h.blocks, b.start = a) (hfresh : a ∉ freed)
    (hQ : Q () ⟨h, freed ++ [a]⟩) : wp (free a) Q E ⟨h, freed⟩ := by
  unfold free
  rw [wp_bind, wp_get, if_pos ⟨hblock, hfresh⟩, wp_set]
  exact hQ

theorem readPool_rule {Q : Pool → Teardown → Prop} {p : Nat}
    (hlive : Teardown.Live ⟨h, freed⟩ (header p)) (hQ : Q (h.pools p) ⟨h, freed⟩) :
    wp (readPool p) Q E ⟨h, freed⟩ := by
  unfold readPool
  rw [wp_bind, wp_get, if_pos hlive, wp_pure]
  exact hQ

theorem readLarge_rule {Q : Large → Teardown → Prop} {l : Nat}
    (hlive : Teardown.Live ⟨h, freed⟩ (node l)) (hQ : Q (h.larges l) ⟨h, freed⟩) :
    wp (readLarge l) Q E ⟨h, freed⟩ := by
  unfold readLarge
  rw [wp_bind, wp_get, if_pos hlive, wp_pure]
  exact hQ

theorem Teardown.Live.less {freed' : List Nat} {r : Region}
    (hlive : Teardown.Live ⟨h, freed'⟩ r) (hsub : freed ⊆ freed') : Teardown.Live ⟨h, freed⟩ r :=
  fun b hb hstart => hlive b hb (hsub hstart)

theorem not_freed {a : Nat} {rest : List Nat} (hnodup : (freed ++ a :: rest).Nodup) : a ∉ freed := by
  intro hmem
  exact (List.nodup_append.1 hnodup).2.2 a hmem a List.mem_cons_self rfl

/-- The memory of the nodes that are left is freed, in their order. -/
theorem freeLarges_rule {ls starts : List Nat} {p : Option Nat} {fuel : Nat}
    (hlinked : Linked (fun l => (h.larges l).next) p ls)
    (hdata : ls.map (fun l => (h.larges l).data) = starts.map some)
    (hblocks : ∀ a ∈ starts, ∃ b ∈ h.blocks, b.start = a) (hnodup : (freed ++ starts).Nodup)
    (hlive : ∀ l ∈ ls, Teardown.Live ⟨h, freed ++ starts⟩ (node l)) (hfuel : ls.length < fuel)
    (hQ : Q () ⟨h, freed ++ starts⟩) : wp (freeLarges fuel p) Q E ⟨h, freed⟩ := by
  obtain ⟨fuel, rfl⟩ : ∃ k, fuel = k + 1 := Nat.exists_eq_succ_of_ne_zero (by omega)
  induction ls generalizing p fuel starts freed with
  | nil =>
    obtain rfl : p = none := hlinked
    obtain rfl : starts = [] := by simpa using hdata.symm
    rw [List.append_nil] at hQ
    exact hQ
  | cons l ls ih =>
    obtain ⟨rfl, hrest⟩ := hlinked
    cases starts with
    | nil => cases hdata
    | cons a starts =>
      rw [List.map_cons, List.map_cons, List.cons.injEq] at hdata
      obtain ⟨ha, hdata⟩ := hdata
      have happend : freed ++ a :: starts = freed ++ [a] ++ starts := List.append_cons freed a starts
      have hnode := hlive l List.mem_cons_self
      unfold freeLarges
      rw [wp_bind]
      apply readLarge_rule (hnode.less (List.subset_append_left _ _))
      rw [ha]
      dsimp only
      rw [wp_bind]
      apply free_rule (hblocks a List.mem_cons_self) (not_freed hnodup)
      -- the node is read again, now that its memory is gone
      rw [wp_bind]
      rw [happend] at hnode
      apply readLarge_rule (hnode.less (List.subset_append_left _ _))
      rw [List.length_cons] at hfuel
      rw [happend] at hnodup hlive hQ
      obtain ⟨fuel, rfl⟩ : ∃ k, fuel = k + 1 := Nat.exists_eq_succ_of_ne_zero (by omega)
      apply ih hrest hdata _ hnodup _ hQ fuel
      · omega
      · intro b hb
        exact hblocks b (List.mem_cons_of_mem _ hb)
      · intro q hq
        exact hlive q (List.mem_cons_of_mem _ hq)

/-- The blocks that are left are freed, in their order. -/
theorem freeBlocks_rule {p : Nat} {bs : List Nat} {fuel : Nat}
    (hlinked : Linked (fun q => (h.pools q).next) (h.pools p).next bs)
    (hblocks : ∀ a ∈ p :: bs, ∃ b ∈ h.blocks, b.start = a) (hnodup : (freed ++ p :: bs).Nodup)
    (hlive : ∀ front q rest, p :: bs = front ++ q :: rest →
      Teardown.Live ⟨h, freed ++ front⟩ (header q))
    (hfuel : bs.length < fuel) (hQ : Q () ⟨h, freed ++ p :: bs⟩) :
    wp (freeBlocks fuel p (h.pools p).next) Q E ⟨h, freed⟩ := by
  induction bs generalizing p fuel freed with
  | nil =>
    obtain ⟨fuel, rfl⟩ : ∃ k, fuel = k + 1 := Nat.exists_eq_succ_of_ne_zero (by omega)
    have hnone : (h.pools p).next = none := hlinked
    unfold freeBlocks
    rw [wp_bind, hnone]
    apply free_rule (hblocks p List.mem_cons_self) (not_freed hnodup)
    exact hQ
  | cons q bs ih =>
    obtain ⟨fuel, rfl⟩ : ∃ k, fuel = k + 1 := Nat.exists_eq_succ_of_ne_zero (by omega)
    obtain ⟨hnext, hrest⟩ := hlinked
    have happend : freed ++ p :: q :: bs = freed ++ [p] ++ q :: bs := List.append_cons ..
    unfold freeBlocks
    rw [wp_bind, hnext]
    apply free_rule (hblocks p List.mem_cons_self) (not_freed hnodup)
    dsimp only
    rw [wp_bind]
    apply readPool_rule (hlive [p] q bs rfl)
    rw [List.length_cons] at hfuel
    rw [happend] at hnodup hQ
    apply ih hrest _ hnodup _ _ hQ
    · intro a ha
      exact hblocks a (List.mem_cons_of_mem _ ha)
    · intro front r rest heq
      rw [List.append_assoc]
      apply hlive (p :: front) r rest
      rw [heq]
      rfl
    · omega

end Loops

section

variable {M : Malloc} {h h' : Heap} {pool size : Nat} {bs ls : List Nat}
  {bigs given nodes owned : List Region}

theorem Sound.same_start (hs : Sound h pool size bs ls given nodes)
    (ht : Tally h size bs ls bigs given owned) {b o : Region} (hb : b ∈ h.blocks) (ho : o ∈ owned)
    (hstart : b.start = o.start) : b = o ∨ b.len = 0 := by
  obtain ⟨hblock, hpos⟩ := ht.blocks o ho
  by_cases hne : b = o
  · exact Or.inl hne
  · have hapart := apart_of_mem hs.blocks hb hblock hne
    unfold Apart Region.stop at hapart
    omega

theorem Sound.live (hs : Sound h pool size bs ls given nodes)
    (ht : Tally h size bs ls bigs given owned) {freed : List Nat} {x r : Region} (hx : x ∈ owned)
    (hr : r.Inside x) (hfreed : ∀ a ∈ freed, a ≠ x.start ∧ ∃ o ∈ owned, o.start = a) :
    Teardown.Live ⟨h, freed⟩ r := by
  intro b hb hstart
  obtain ⟨hne, o, ho, hbo⟩ := hfreed b.start hstart
  rcases hs.same_start ht hb ho hbo.symm with rfl | hzero
  · have hxb : x ≠ b := fun heq => hne (congrArg Region.start heq.symm)
    exact (apart_of_mem hs.blocks (ht.blocks x hx).1 hb hxb).inside hr (inside_refl b)
  · exact Or.inr (Or.inl hzero)

theorem header_inside (hs : Sound h pool size bs ls given nodes) (p : Nat) :
    (header p).Inside (block size p) := by
  have hsize := hs.enough
  constructor
  · exact Nat.le_refl p
  · show p + SIZEOF_POOL ≤ p + size
    omega

theorem Tally.order_perm (ht : Tally h size bs ls bigs given owned) :
    (bigs.map Region.start ++ bs).Perm (owned.map Region.start) := by
  have hperm := (ht.perm.map Region.start).symm
  rw [List.map_append, List.map_map] at hperm
  have hbs : bs.map (Region.start ∘ block size) = bs := List.map_id bs
  rw [hbs] at hperm
  exact List.perm_append_comm.trans hperm

theorem Tally.order_nodup (ht : Tally h size bs ls bigs given owned) :
    (bigs.map Region.start ++ bs).Nodup :=
  ht.order_perm.nodup_iff.2 ht.starts

theorem Tally.order_owned (ht : Tally h size bs ls bigs given owned) {a : Nat}
    (ha : a ∈ bigs.map Region.start ++ bs) : ∃ o ∈ owned, o.start = a :=
  List.mem_map.1 (ht.order_perm.subset ha)

/-- The destruction of a pool ends, with no fault. -/
theorem destroyPool_rule (hs : Sound h pool size bs ls given nodes)
    (ht : Tally h size bs ls bigs given owned) {fuel : Nat} (hfuel : bs.length + ls.length < fuel)
    {E : Fault → Teardown → Prop} :
    wp (destroyPool fuel pool)
      (fun _ t => t = ⟨h, bigs.map Region.start ++ bs⟩) E ⟨h, []⟩ := by
  obtain ⟨rest, hbs⟩ : ∃ rest, bs = pool :: rest := by
    have hlinked := hs.linked
    cases bs with
    | nil => cases hlinked
    | cons p rest =>
      rw [Option.some.inj hlinked.1]
      exact ⟨rest, rfl⟩
  have hnodup := ht.order_nodup
  have hblocks : ∀ a ∈ bigs.map Region.start ++ bs, ∃ b ∈ h.blocks, b.start = a := by
    intro a ha
    obtain ⟨o, ho, hstart⟩ := ht.order_owned ha
    exact ⟨o, (ht.blocks o ho).1, hstart⟩
  -- headers and nodes lie in blocks, which are freed later
  have hlive : ∀ p ∈ bs, ∀ freed rest, bigs.map Region.start ++ bs = freed ++ rest → p ∈ rest →
      ∀ r : Region, r.Inside (block size p) → Teardown.Live ⟨h, freed⟩ r := by
    intro p hp freed rest hsplit hrest r hr
    apply hs.live ht (ht.block_mem hp) hr
    intro a ha
    constructor
    · intro heq
      rw [hsplit] at hnodup
      exact (List.nodup_append.1 hnodup).2.2 a ha p hrest heq
    · apply ht.order_owned
      rw [hsplit]
      exact List.mem_append_left _ ha
  have hpool : ∀ freed rest, bigs.map Region.start ++ bs = freed ++ rest → pool ∈ rest →
      Teardown.Live ⟨h, freed⟩ (header pool) := fun freed rest hsplit hrest =>
    hlive pool hs.pool_mem freed rest hsplit hrest _ (header_inside hs pool)
  unfold destroyPool
  rw [wp_bind]
  apply readPool_rule (hpool [] _ rfl (List.mem_append_right _ hs.pool_mem))
  rw [wp_bind]
  have hdata : ls.map (fun l => (h.larges l).data) = (bigs.map Region.start).map some := by
    rw [ht.data, List.map_map]
    rfl
  apply freeLarges_rule hs.larges hdata
  · intro a ha
    exact hblocks a (List.mem_append_left _ ha)
  · exact (List.nodup_append.1 hnodup).1
  · intro l hl
    obtain ⟨p, hp, hinside⟩ := ht.nodes l hl
    exact hlive p hp _ bs rfl hp _ hinside
  · omega
  rw [wp_bind]
  apply readPool_rule (hpool _ bs rfl hs.pool_mem)
  have hlinked := hs.linked
  rw [hbs] at hlinked
  apply freeBlocks_rule hlinked.2
  · rw [← hbs]
    intro a ha
    exact hblocks a (List.mem_append_right _ ha)
  · rw [← hbs]
    exact hnodup
  · intro front q after hsplit
    rw [← hbs] at hsplit
    have hq : q ∈ bs := by
      rw [hsplit]
      simp
    apply hlive q hq _ (q :: after) _ List.mem_cons_self _ (header_inside hs q)
    rw [hsplit, List.append_assoc]
  · rw [hbs, List.length_cons] at hfuel
    omega
  · rw [← hbs]

/-- The states that a pool gets into, with the regions that its calls have given and all that
`malloc` has given for it. -/
inductive History (M : Malloc) (size : Nat) : Heap → Nat → List Region → List Region → Prop
  | created {h h' : Heap} {pool : Nat} {gained : List Region} (apart : h.blocks.Pairwise Apart)
      (bounded : ∀ b ∈ h.blocks, b.stop < 2 ^ 64)
      (call : createPool M size h = .ok (some pool) h')
      (got : h'.blocks = h.blocks ++ gained) : History M size h' pool [] gained
  | called {h h' : Heap} {pool : Nat} {given owned gained : List Region} {r : Request}
      {res : Option Nat} (before : History M size h pool given owned)
      (call : Returns M r pool h res h') (got : h'.blocks = h.blocks ++ gained) :
      History M size h' pool (r.taken given res) (owned ++ gained)
  | written {h h' : Heap} {pool : Nat} {given owned : List Region}
      (before : History M size h pool given owned) (write : Written given h h') :
      History M size h' pool given owned
  | elsewhere {h h' : Heap} {pool n : Nat} {res : Option Nat} {given owned : List Region}
      (before : History M size h pool given owned) (call : malloc M n h = .ok res h') :
      History M size h' pool given owned

/-- The books of a new pool. -/
theorem createPool_owned (hs : Sound h' pool size [pool] [] [] []) {gained : List Region}
    (hcall : createPool M size h = .ok (some pool) h') (hgot : h'.blocks = h.blocks ++ gained) :
    Owned h' pool size [] gained := by
  have hwp : wp (createPool M size) (fun res h' => ∀ p, res = some p →
      h'.blocks = h.blocks ++ [block size p]) (fun _ _ => True) h := by
    unfold createPool
    rw [wp_bind]
    apply malloc_rule
    · rw [wp_pure]
      intro p hp
      cases hp
    · intro a _ _
      rw [wp_bind, wp_modify, wp_pure]
      intro p hp
      obtain rfl := Option.some.inj hp
      rfl
  have hblocks := (wp_of_ok hcall).1 hwp pool rfl
  rw [hgot] at hblocks
  obtain rfl := List.append_cancel_left hblocks
  have hmem : block size pool ∈ h'.blocks := (hs.block pool List.mem_cons_self).block
  refine ⟨[pool], [], [], hs.linked, hs.larges, List.Perm.refl _, rfl, ?_, by simp, ?_, ?_⟩
  · intro b hb
    rw [List.mem_singleton.1 hb]
    exact ⟨hmem, hs.pos⟩
  · intro l hl
    cases hl
  · intro r hr
    cases hr

theorem Tally.elsewhere (ht : Tally h size bs ls bigs given owned) {n : Nat} {res : Option Nat}
    (hcall : malloc M n h = .ok res h') : Tally h' size bs ls bigs given owned := by
  have hwp : wp (malloc M n) (fun _ h' => h.blocks ⊆ h'.blocks ∧ h'.larges = h.larges)
      (fun _ _ => True) h := by
    apply malloc_rule
    · exact ⟨List.subset_append_left _ _, rfl⟩
    · intro a _ _
      exact ⟨List.subset_append_left _ _, rfl⟩
  obtain ⟨hsub, hlarges⟩ := (wp_of_ok hcall).1 hwp
  apply ht.congr hsub
  intro l _
  rw [hlarges]

/-- The invariant holds, and the books are right, in every state of every run. -/
theorem History.sound (hsize : SIZEOF_POOL + SIZEOF_LARGE ≤ size)
    (hr : History M size h pool given owned) :
    ∃ bs ls bigs nodes, Sound h pool size bs ls given nodes ∧ Tally h size bs ls bigs given owned := by
  induction hr with
  | created happart hbounded hcall hgot =>
    have hs := createPool_sound hsize happart hbounded hcall
    obtain ⟨bigs, ht⟩ := hs.tally (createPool_owned hs hcall hgot)
    exact ⟨_, _, bigs, _, hs, ht⟩
  | @called h h' pool given owned gained r res _ hcall hgot ih =>
    obtain ⟨bs, ls, bigs, nodes, hs, ht⟩ := ih
    obtain ⟨houtcome, hbooked⟩ := returns_outcome hs hcall
    obtain ⟨gained', hgot', ho⟩ := hbooked owned (ht.owned hs)
    rw [hgot] at hgot'
    obtain rfl := List.append_cancel_left hgot'
    obtain ⟨bs', ls', nodes', hs'⟩ :
        ∃ bs' ls' nodes', Sound h' pool size bs' ls' (r.taken given res) nodes' := by
      cases res with
      | some m =>
        obtain ⟨bs', ls', nodes', _, _, hs'⟩ := houtcome
        exact ⟨bs', ls', nodes', hs'⟩
      | none =>
        obtain ⟨bs', nodes', hs', _⟩ := houtcome
        exact ⟨bs', ls, nodes', hs'⟩
    obtain ⟨bigs', ht'⟩ := hs'.tally ho
    exact ⟨bs', ls', bigs', nodes', hs', ht'⟩
  | @written h h' pool given owned _ hw ih =>
    obtain ⟨bs, ls, bigs, nodes, hs, ht⟩ := ih
    have hsub : h.blocks ⊆ h'.blocks := by
      rw [hw.blocks]
      exact List.Subset.refl _
    refine ⟨bs, ls, bigs, nodes, hs.written hw, ht.congr hsub ?_⟩
    intro l hl
    rw [hw.larges l fun r hr => hs.node_apart hr hl]
  | elsewhere _ hcall ih =>
    obtain ⟨bs, ls, bigs, nodes, hs, ht⟩ := ih
    exact ⟨bs, ls, bigs, nodes, hs.elsewhere hcall, ht.elsewhere hcall⟩

/-- After every run `ehd_destroy_pool` ends, reading nothing that it has freed.  What it gives
to `free` is what `malloc` has given through this pool, each block once, and no other block. -/
theorem destroy_pool_exact (hsize : SIZEOF_POOL + SIZEOF_LARGE ≤ size)
    (hr : History M size h pool given owned) :
    ∃ freed rounds, (∀ fuel, rounds ≤ fuel → destroyPool fuel pool ⟨h, []⟩ = .ok () ⟨h, freed⟩) ∧
      freed.Nodup ∧ freed.Perm (owned.map Region.start) ∧
      ∀ b ∈ h.blocks, 0 < b.len → (b.start ∈ freed ↔ b ∈ owned) := by
  obtain ⟨bs, ls, bigs, nodes, hs, ht⟩ := hr.sound hsize
  refine ⟨bigs.map Region.start ++ bs, bs.length + ls.length + 1, ?_, ht.order_nodup,
    ht.order_perm, ?_⟩
  · intro fuel hfuel
    have hrule := destroyPool_rule hs ht hfuel (E := fun _ _ => False)
    unfold wp at hrule
    cases hrun : destroyPool fuel pool ⟨h, []⟩ with
    | ok u t =>
      rw [hrun] at hrule
      rw [hrule]
    | error e t =>
      rw [hrun] at hrule
      cases hrule
  · intro b hb hpos
    constructor
    · intro hmem
      obtain ⟨o, ho, hstart⟩ := ht.order_owned hmem
      rcases hs.same_start ht hb ho hstart.symm with rfl | hzero
      · exact ho
      · omega
    · intro ho
      apply ht.order_perm.symm.subset
      exact List.mem_map_of_mem ho

/-- The small pool after a request for 100 bytes, which got a block of its own. -/
def largePool : Heap := after (palloc bump 4 4096 100) smallPool

theorem destroy_pool_exact_largePool : ∃ freed rounds,
    (∀ fuel, rounds ≤ fuel → destroyPool fuel 4096 ⟨largePool, []⟩ = .ok () ⟨largePool, freed⟩) ∧
      freed.Nodup ∧ freed.Perm [4096, 4160] ∧
      ∀ b ∈ largePool.blocks, 0 < b.len →
        (b.start ∈ freed ↔ b ∈ [block 64 4096, block 100 4160]) := by
  have hcreate : createPool bump 64 emptyHeap = .ok (some 4096) smallPool := rfl
  obtain ⟨res, hcall⟩ : ∃ res, palloc bump 4 4096 100 smallPool = .ok res largePool :=
    exists_ok_of_returns (by decide)
  have hreturns : Returns bump ⟨false, 100⟩ 4096 smallPool res largePool :=
    ⟨4, fun fuel hfuel => palloc_below hfuel 4096 100 _ _ _ hcall⟩
  have hcreated : History bump 64 smallPool 4096 [] [block 64 4096] := by
    apply History.created List.Pairwise.nil _ hcreate rfl
    intro b hb
    cases hb
  have hcalled : largePool.blocks = smallPool.blocks ++ [block 100 4160] := by decide
  exact destroy_pool_exact (by decide) (hcreated.called hreturns hcalled)

end

end Ehd.Palloc
