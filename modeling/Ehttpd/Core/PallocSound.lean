import Ehttpd.Core.Palloc

namespace Ehd.Palloc

open Program Region

abbrev header (p : Nat) : Region := ⟨p, SIZEOF_POOL⟩
abbrev node (l : Nat) : Region := ⟨l, SIZEOF_LARGE⟩

/-- Memory that has been handed out lies behind the header of a pool block and
before its `last`, or is a block of its own. -/
inductive Placed (h : Heap) (bs : List Nat) (r : Region) : Prop
  | small {p : Nat} (hp : p ∈ bs) (start : p + SIZEOF_POOL ≤ r.start)
      (stop : r.stop ≤ (h.pools p).last)
  | large (block : r ∈ h.blocks) (len : 0 < r.len) (start : r.start ∉ bs)

structure Block (h : Heap) (size : Nat) (p : Nat) : Prop where
  block : ⟨p, size⟩ ∈ h.blocks
  stop : (h.pools p).stop = p + size
  first : p + SIZEOF_POOL ≤ (h.pools p).last
  last : (h.pools p).last ≤ p + size

/-- The invariant: `bs` are the blocks and `ls` the large nodes in their lists, `given`
is what the callers have got, and `nodes` is what the pool has taken for nodes. -/
structure Sound (h : Heap) (pool size : Nat) (bs ls : List Nat) (given nodes : List Region) :
    Prop where
  enough : SIZEOF_POOL + SIZEOF_LARGE ≤ size
  blocks : h.blocks.Pairwise Apart
  bounded : ∀ b ∈ h.blocks, b.stop < 2 ^ 64
  linked : Linked (fun p => (h.pools p).next) (some pool) bs
  nodup : bs.Nodup
  block : ∀ p ∈ bs, Block h size p
  larges : Linked (fun l => (h.larges l).next) (h.pools pool).large ls
  largesNodup : ls.Nodup
  full : ∀ l ∈ ls, (h.larges l).data ≠ none
  noted : ∀ l ∈ ls, node l ∈ nodes
  apart : (given ++ nodes).Pairwise Apart
  placed : ∀ r ∈ given ++ nodes, Placed h bs r

namespace Sound

variable {h h' : Heap} {pool size : Nat} {bs ls : List Nat} {given nodes : List Region}
  {p q : Nat} {r : Region}

theorem pool_mem (hs : Sound h pool size bs ls given nodes) : pool ∈ bs := by
  have hlinked := hs.linked
  cases bs with
  | nil => cases hlinked
  | cons p bs =>
    rw [Option.some.inj hlinked.1]
    exact List.mem_cons_self

theorem pos (hs : Sound h pool size bs ls given nodes) : 0 < size := by
  have hpool : 0 < SIZEOF_POOL := by decide
  have hsize := hs.enough
  omega

theorem blocks_apart (hs : Sound h pool size bs ls given nodes) (hp : p ∈ bs) (hq : q ∈ bs)
    (hne : p ≠ q) : Apart ⟨p, size⟩ ⟨q, size⟩ := by
  apply apart_of_mem hs.blocks (hs.block p hp).block (hs.block q hq).block
  intro heq
  exact hne (congrArg Region.start heq)

theorem block_large_apart (hs : Sound h pool size bs ls given nodes) (hp : p ∈ bs)
    (hr : r ∈ h.blocks) (hstart : r.start ∉ bs) : Apart ⟨p, size⟩ r := by
  apply apart_of_mem hs.blocks (hs.block p hp).block hr
  rintro rfl
  exact hstart hp

theorem small_inside (hs : Sound h pool size bs ls given nodes) (hp : p ∈ bs)
    (hstart : p + SIZEOF_POOL ≤ r.start) (hstop : r.stop ≤ (h.pools p).last) :
    r.Inside ⟨p, size⟩ := by
  have hlast := (hs.block p hp).last
  constructor
  · exact (Nat.le_add_right _ _).trans hstart
  · exact hstop.trans hlast

theorem inside_block (hs : Sound h pool size bs ls given nodes) (hr : Placed h bs r) :
    ∃ b ∈ h.blocks, r.Inside b := by
  cases hr with
  | @small p hp start stop => exact ⟨_, (hs.block p hp).block, hs.small_inside hp start stop⟩
  | large block => exact ⟨r, block, inside_refl r⟩

theorem room_apart (hs : Sound h pool size bs ls given nodes) (hp : p ∈ bs) {n : Nat}
    (hn : (h.pools p).last + n ≤ p + size) (hr : Placed h bs r) :
    Apart ⟨(h.pools p).last, n⟩ r := by
  have hfirst := (hs.block p hp).first
  have hinside : Region.Inside ⟨(h.pools p).last, n⟩ ⟨p, size⟩ :=
    ⟨(Nat.le_add_right _ _).trans hfirst, hn⟩
  cases hr with
  | @small q hq start stop =>
    by_cases hpq : p = q
    · subst hpq
      exact Or.inr (Or.inr (Or.inr stop))
    · exact (hs.blocks_apart hp hq hpq).inside hinside (hs.small_inside hq start stop)
  | large block len start =>
    exact (hs.block_large_apart hp block start).inside hinside (inside_refl r)

/-- Nothing that has been handed out touches a header. -/
theorem header_apart (hs : Sound h pool size bs ls given nodes) (hp : p ∈ bs)
    (hr : Placed h bs r) : r.Apart (header p) := by
  have hsize := hs.enough
  have hinside : (header p).Inside ⟨p, size⟩ := by
    constructor
    · exact Nat.le_refl p
    · show p + SIZEOF_POOL ≤ p + size
      omega
  cases hr with
  | @small q hq start stop =>
    by_cases hqp : q = p
    · subst hqp
      exact Or.inr (Or.inr (Or.inr start))
    · exact (hs.blocks_apart hq hp hqp).inside (hs.small_inside hq start stop) hinside
  | large block len start =>
    exact ((hs.block_large_apart hp block start).symm).inside (inside_refl r) hinside

theorem node_apart (hs : Sound h pool size bs ls given nodes) (hr : r ∈ given) {l : Nat}
    (hl : l ∈ ls) : r.Apart (node l) :=
  (List.pairwise_append.1 hs.apart).2.2 r hr _ (hs.noted l hl)

/-- The invariant is about the headers and the nodes in the lists, and the blocks. -/
theorem congr (hs : Sound h pool size bs ls given nodes) (hblocks : h'.blocks = h.blocks)
    (hpools : ∀ p ∈ bs, h'.pools p = h.pools p) (hlarges : ∀ l ∈ ls, h'.larges l = h.larges l) :
    Sound h' pool size bs ls given nodes where
  enough := hs.enough
  blocks := by rw [hblocks]; exact hs.blocks
  bounded := by rw [hblocks]; exact hs.bounded
  linked := hs.linked.congr fun p hp => by rw [hpools p hp]
  nodup := hs.nodup
  block := by
    intro p hp
    have hb := hs.block p hp
    exact ⟨by rw [hblocks]; exact hb.block, by rw [hpools p hp]; exact hb.stop,
      by rw [hpools p hp]; exact hb.first, by rw [hpools p hp]; exact hb.last⟩
  larges := by
    rw [hpools pool hs.pool_mem]
    exact hs.larges.congr fun l hl => by rw [hlarges l hl]
  largesNodup := hs.largesNodup
  full := by
    intro l hl
    rw [hlarges l hl]
    exact hs.full l hl
  noted := hs.noted
  apart := hs.apart
  placed := by
    intro r hr
    cases hs.placed r hr with
    | @small p hp start stop =>
      refine .small hp start ?_
      rw [hpools p hp]
      exact stop
    | large block len start =>
      refine .large ?_ len start
      rw [hblocks]
      exact block

end Sound

namespace Heap

variable (h : Heap) (p q : Nat) (n : Nat)

def take : Heap := h.setPool p fun b => { b with last := b.last + n }

theorem take_pools : (h.take p n).pools q =
    if q = p then { h.pools p with last := (h.pools p).last + n } else h.pools q := by
  unfold take
  rw [setPool_pools, Function.update_apply]

@[simp] theorem take_next : ((h.take p n).pools q).next = (h.pools q).next := by
  rw [take_pools]
  split
  · next heq => rw [heq]
  · rfl

@[simp] theorem take_stop : ((h.take p n).pools q).stop = (h.pools q).stop := by
  rw [take_pools]
  split
  · next heq => rw [heq]
  · rfl

@[simp] theorem take_large : ((h.take p n).pools q).large = (h.pools q).large := by
  rw [take_pools]
  split
  · next heq => rw [heq]
  · rfl

@[simp] theorem take_last_self : ((h.take p n).pools p).last = (h.pools p).last + n := by
  rw [take_pools, if_pos rfl]

theorem le_take_last : (h.pools q).last ≤ ((h.take p n).pools q).last := by
  rw [take_pools]
  split
  · next heq =>
    rw [heq]
    exact Nat.le_add_right _ _
  · exact Nat.le_refl _

end Heap

section

variable {h : Heap} {pool size : Nat} {bs ls : List Nat} {given nodes : List Region} {p : Nat}

/-- The memory taken from a block that has room. -/
theorem Sound.take (hs : Sound h pool size bs ls given nodes) (hp : p ∈ bs) {n : Nat}
    (hn : (h.pools p).last + n ≤ p + size) :
    Sound (h.take p n) pool size bs ls (given ++ [⟨(h.pools p).last, n⟩]) nodes where
  enough := hs.enough
  blocks := hs.blocks
  bounded := hs.bounded
  linked := hs.linked.congr fun q _ => h.take_next p q n
  nodup := hs.nodup
  block := by
    intro q hq
    have hb := hs.block q hq
    refine ⟨hb.block, ?_, hb.first.trans (h.le_take_last p q n), ?_⟩
    · rw [Heap.take_stop]
      exact hb.stop
    · rw [Heap.take_pools]
      split
      · next heq =>
        rw [heq]
        exact hn
      · exact hb.last
  larges := by
    rw [Heap.take_large]
    exact hs.larges
  largesNodup := hs.largesNodup
  full := hs.full
  noted := hs.noted
  apart := by
    -- the new region was free space of its block
    have hnew : ∀ r ∈ given ++ nodes, Apart ⟨(h.pools p).last, n⟩ r :=
      fun r hr => hs.room_apart hp hn (hs.placed r hr)
    obtain ⟨hgiven, hnodes, hboth⟩ := List.pairwise_append.1 hs.apart
    refine List.pairwise_append.2 ⟨?_, hnodes, ?_⟩
    · refine List.pairwise_append.2 ⟨hgiven, List.pairwise_singleton _ _, ?_⟩
      intro r hr s hmem
      rw [List.mem_singleton.1 hmem]
      exact (hnew r (List.mem_append_left _ hr)).symm
    · intro r hr s hmem
      rcases List.mem_append.1 hr with hr | hr
      · exact hboth r hr s hmem
      · rw [List.mem_singleton.1 hr]
        exact hnew s (List.mem_append_right _ hmem)
  placed := by
    -- a block only fills up, so what was placed stays placed
    have hold : ∀ r ∈ given ++ nodes, Placed (h.take p n) bs r := by
      intro r hr
      cases hs.placed r hr with
      | @small q hq start stop => exact .small hq start (stop.trans (h.le_take_last p q n))
      | large block len start => exact .large block len start
    intro r hr
    rw [List.append_assoc] at hr
    rcases List.mem_append.1 hr with hr | hr
    · exact hold r (List.mem_append_left _ hr)
    · rcases List.mem_append.1 hr with hr | hr
      · rw [List.mem_singleton.1 hr]
        refine .small hp (hs.block p hp).first ?_
        rw [Heap.take_last_self]
        exact Nat.le_refl _
      · exact hold r (List.mem_append_right _ hr)

theorem Sound.fresh (hs : Sound h pool size bs ls given nodes) {a n : Nat} (hn : 0 < n)
    (ha : ∀ b ∈ h.blocks, Apart ⟨a, n⟩ b) : a ∉ bs := by
  intro hmem
  have hpos := hs.pos
  have hapart := ha _ (hs.block a hmem).block
  unfold Apart Region.stop at hapart
  simp only at hapart
  omega

theorem Sound.notCalled (hs : Sound h pool size bs ls given nodes) :
    Sound (h.called []) pool size bs ls given nodes :=
  hs.congr (by rw [Heap.called_blocks, List.append_nil]) (fun _ _ => rfl) fun _ _ => rfl

/-- What was sound stays sound when `malloc` gives a block. -/
theorem Sound.called (hs : Sound h pool size bs ls given nodes) {a n : Nat}
    (hbound : a + n < 2 ^ 64) (ha : ∀ b ∈ h.blocks, Apart ⟨a, n⟩ b) :
    Sound (h.called [⟨a, n⟩]) pool size bs ls given nodes where
  enough := hs.enough
  blocks := by
    refine List.pairwise_append.2 ⟨hs.blocks, List.pairwise_singleton _ _, ?_⟩
    intro b hb c hc
    rw [List.mem_singleton.1 hc]
    exact (ha b hb).symm
  bounded := by
    intro b hb
    rcases List.mem_append.1 hb with hb | hb
    · exact hs.bounded b hb
    · rw [List.mem_singleton.1 hb]
      exact hbound
  linked := hs.linked
  nodup := hs.nodup
  block := by
    intro q hq
    have hb := hs.block q hq
    exact ⟨List.mem_append_left _ hb.block, hb.stop, hb.first, hb.last⟩
  larges := hs.larges
  largesNodup := hs.largesNodup
  full := hs.full
  noted := hs.noted
  apart := hs.apart
  placed := by
    intro r hr
    cases hs.placed r hr with
    | small hp start stop => exact .small hp start stop
    | large block len start => exact .large (List.mem_append_left _ block) len start

namespace Heap

/-- The heap when a new block at `a` has been hung behind the block `p`. -/
def grow (h : Heap) (p a size : Nat) : Heap :=
  ((h.called [⟨a, size⟩]).setPool a fun _ =>
    { last := a + SIZEOF_POOL, stop := a + size, next := none, large := none }).setPool p fun b =>
      { b with next := some a }

variable (h : Heap) {p a q : Nat} (size : Nat)

theorem grow_new (hne : a ≠ p) : (h.grow p a size).pools a =
    { last := a + SIZEOF_POOL, stop := a + size, next := none, large := none } := by
  unfold grow
  rw [setPool_pools, Function.update_of_ne hne, setPool_pools, Function.update_self]

theorem grow_self (hne : a ≠ p) :
    (h.grow p a size).pools p = { h.pools p with next := some a } := by
  unfold grow
  rw [setPool_pools, Function.update_self, setPool_pools, Function.update_of_ne hne.symm]
  rfl

theorem grow_other (hp : q ≠ p) (ha : q ≠ a) : (h.grow p a size).pools q = h.pools q := by
  unfold grow
  rw [setPool_pools, Function.update_of_ne hp, setPool_pools, Function.update_of_ne ha]
  rfl

theorem grow_old (ha : a ≠ p) (hq : q ≠ a) :
    (h.grow p a size).pools q = { h.pools q with next := ((h.grow p a size).pools q).next } := by
  by_cases hqp : q = p
  · rw [hqp, grow_self h size ha]
  · rw [grow_other h size hqp hq]

end Heap

/-- The pool with one more block. -/
theorem Sound.grow {front : List Nat} (hs : Sound h pool size (front ++ [p]) ls given nodes) {a : Nat}
    (hbound : a + size < 2 ^ 64) (ha : ∀ b ∈ h.blocks, Apart ⟨a, size⟩ b) :
    Sound (h.grow p a size) pool size (front ++ [p, a]) ls given nodes := by
  have hfresh := hs.fresh hs.pos ha
  have hp : p ∈ front ++ [p] := by simp
  have hne : a ≠ p := fun heq => hfresh (heq ▸ hp)
  have hbs : front ++ [p, a] = front ++ [p] ++ [a] := by simp
  have hcalled := hs.called hbound ha
  -- the blocks before keep everything but the pointer of the last
  have hold : ∀ q ∈ front ++ [p], (h.grow p a size).pools q =
      { h.pools q with next := ((h.grow p a size).pools q).next } := by
    intro q hq
    exact h.grow_old size hne fun heq => hfresh (heq ▸ hq)
  refine ⟨hs.enough, hcalled.blocks, hcalled.bounded, ?_, ?_, ?_, ?_, hs.largesNodup, hs.full, hs.noted,
    hs.apart, ?_⟩
  · -- only the last block points somewhere else
    have hlinked : Linked (Function.update (fun q => if q = a then none else (h.pools q).next) p
        (some a)) (some pool) (front ++ [p, a]) := by
      apply Linked.concat
      · refine hs.linked.congr fun q hq => ?_
        have hqa : q ≠ a := fun heq => hfresh (heq ▸ hq)
        rw [if_neg hqa]
      · exact hs.nodup
      · exact hfresh
      · exact if_pos rfl
    refine hlinked.congr fun q hq => ?_
    by_cases hqp : q = p
    · rw [hqp, h.grow_self size hne, Function.update_self]
    · rw [Function.update_of_ne hqp]
      by_cases hqa : q = a
      · rw [hqa, h.grow_new size hne, if_pos rfl]
      · rw [h.grow_other size hqp hqa, if_neg hqa]
  · rw [hbs]
    refine List.nodup_append.2 ⟨hs.nodup, by simp, ?_⟩
    intro q hq c hc
    rw [List.mem_singleton.1 hc]
    intro heq
    exact hfresh (heq ▸ hq)
  · intro q hq
    rw [hbs] at hq
    rcases List.mem_append.1 hq with hq | hq
    -- a block that was there
    · have hb := hcalled.block q hq
      have heq := hold q hq
      refine ⟨hb.block, ?_, ?_, ?_⟩
      · rw [heq]
        exact hb.stop
      · rw [heq]
        exact hb.first
      · rw [heq]
        exact hb.last
    · rw [List.mem_singleton.1 hq]
      -- the new block holds its header and is otherwise free
      have hsize := hs.enough
      refine ⟨List.mem_append_right _ List.mem_cons_self, ?_, ?_, ?_⟩
      · rw [h.grow_new size hne]
      · rw [h.grow_new size hne]
      · rw [h.grow_new size hne]
        show a + SIZEOF_POOL ≤ a + size
        omega
  · rw [hold pool hs.pool_mem]
    exact hs.larges
  · intro r hr
    cases hs.placed r hr with
    | @small q hq start stop =>
      refine .small (hbs ▸ List.mem_append_left _ hq) start ?_
      rw [hold q hq]
      exact stop
    | large block len start =>
      refine .large (List.mem_append_left _ block) len ?_
      rw [hbs]
      intro hmem
      rcases List.mem_append.1 hmem with hmem | hmem
      · exact start hmem
      · -- an old block does not start where the new one does
        have hpos := hs.pos
        have hapart := ha r block
        have hstart := List.mem_singleton.1 hmem
        unfold Apart Region.stop at hapart
        simp only at hapart
        omega

/-- A block of its own for a caller. -/
theorem Sound.give (hs : Sound h pool size bs ls given nodes) {m n : Nat} (hn : 0 < n)
    (hbound : m + n < 2 ^ 64) (hm : ∀ b ∈ h.blocks, Apart ⟨m, n⟩ b) :
    Sound (h.called [⟨m, n⟩]) pool size bs ls (given ++ [⟨m, n⟩]) nodes := by
  have hcalled := hs.called hbound hm
  have hnew : ∀ r ∈ given ++ nodes, Apart ⟨m, n⟩ r := by
    intro r hr
    obtain ⟨b, hb, hinside⟩ := hs.inside_block (hs.placed r hr)
    exact (hm b hb).inside (inside_refl _) hinside
  refine ⟨hs.enough, hcalled.blocks, hcalled.bounded, hs.linked, hs.nodup, hcalled.block, hs.larges,
    hs.largesNodup, hs.full, hs.noted, ?_, ?_⟩
  · obtain ⟨hgiven, hnodes, hboth⟩ := List.pairwise_append.1 hs.apart
    refine List.pairwise_append.2 ⟨?_, hnodes, ?_⟩
    · refine List.pairwise_append.2 ⟨hgiven, List.pairwise_singleton _ _, ?_⟩
      intro r hr s hmem
      rw [List.mem_singleton.1 hmem]
      exact (hnew r (List.mem_append_left _ hr)).symm
    · intro r hr s hmem
      rcases List.mem_append.1 hr with hr | hr
      · exact hboth r hr s hmem
      · rw [List.mem_singleton.1 hr]
        exact hnew s (List.mem_append_right _ hmem)
  · intro r hr
    rw [List.append_assoc] at hr
    rcases List.mem_append.1 hr with hr | hr
    · exact hcalled.placed r (List.mem_append_left _ hr)
    · rcases List.mem_append.1 hr with hr | hr
      · rw [List.mem_singleton.1 hr]
        exact .large (List.mem_append_right _ List.mem_cons_self) hn (hs.fresh hn hm)
      · exact hcalled.placed r (List.mem_append_right _ hr)

theorem Sound.keep {r : Region} (hs : Sound h pool size bs ls (given ++ [r]) nodes) :
    Sound h pool size bs ls given (nodes ++ [r]) := by
  have hperm : (given ++ [r] ++ nodes).Perm (given ++ (nodes ++ [r])) := by
    rw [List.append_assoc]
    exact List.Perm.append_left given List.perm_append_comm
  refine ⟨hs.enough, hs.blocks, hs.bounded, hs.linked, hs.nodup, hs.block, hs.larges, hs.largesNodup,
    hs.full, fun l hl => List.mem_append_left _ (hs.noted l hl), ?_, ?_⟩
  · exact hs.apart.perm hperm fun h => h.symm
  · intro s hmem
    exact hs.placed s (hperm.symm.subset hmem)

/-- The list of nodes changes, and nothing else. -/
theorem Sound.relist {h' : Heap} {ls' : List Nat} (hs : Sound h pool size bs ls given nodes)
    (hblocks : h'.blocks = h.blocks)
    (hpools : ∀ q, h'.pools q = { h.pools q with large := (h'.pools q).large })
    (hlinked : Linked (fun l => (h'.larges l).next) (h'.pools pool).large ls') (hnodup : ls'.Nodup)
    (hfull : ∀ l ∈ ls', (h'.larges l).data ≠ none) (hnoted : ∀ l ∈ ls', node l ∈ nodes) :
    Sound h' pool size bs ls' given nodes where
  enough := hs.enough
  blocks := by rw [hblocks]; exact hs.blocks
  bounded := by rw [hblocks]; exact hs.bounded
  linked := hs.linked.congr fun q _ => by rw [hpools q]
  nodup := hs.nodup
  block := by
    intro q hq
    have hb := hs.block q hq
    exact ⟨by rw [hblocks]; exact hb.block, by rw [hpools q]; exact hb.stop,
      by rw [hpools q]; exact hb.first, by rw [hpools q]; exact hb.last⟩
  larges := hlinked
  largesNodup := hnodup
  full := hfull
  noted := hnoted
  apart := hs.apart
  placed := by
    intro r hr
    cases hs.placed r hr with
    | @small q hq start stop =>
      refine .small hq start ?_
      rw [hpools q]
      exact stop
    | large block len start =>
      refine .large ?_ len start
      rw [hblocks]
      exact block

/-- The first node. -/
theorem Sound.hangFirst (hs : Sound h pool size bs [] given nodes) {l m : Nat} (hl : node l ∈ nodes)
    (hnext : (h.larges l).next = none) :
    Sound ((h.setPool pool fun b => { b with large := some l }).setLarge l fun n =>
      { n with data := some m }) pool size bs [l] given nodes := by
  refine hs.relist rfl ?_ ?_ ?_ ?_ ?_
  · intro q
    show (Function.update h.pools pool { h.pools pool with large := some l }) q = _
    by_cases hq : q = pool
    · rw [hq, Function.update_self]
      simp
    · rw [Function.update_of_ne hq]
      simp [Function.update_of_ne hq]
  · refine ⟨?_, ?_⟩
    · simp
    · show ((Function.update h.larges l { h.larges l with data := some m }) l).next = none
      rw [Function.update_self]
      exact hnext
  · simp
  · intro l' hl'
    rw [List.mem_singleton.1 hl']
    simp
  · intro l' hl'
    rw [List.mem_singleton.1 hl']
    exact hl

/-- Another node, behind the last. -/
theorem Sound.hangNext {front : List Nat} {last : Nat}
    (hs : Sound h pool size bs (front ++ [last]) given nodes) {l m : Nat} (hl : node l ∈ nodes)
    (hfresh : l ∉ front ++ [last]) (hnext : (h.larges l).next = none) :
    Sound ((h.setLarge last fun n => { n with next := some l }).setLarge l fun n =>
      { n with data := some m }) pool size bs (front ++ [last, l]) given nodes := by
  have hne : l ≠ last := by
    rintro rfl
    exact hfresh (by simp)
  have hls : front ++ [last, l] = front ++ [last] ++ [l] := by simp
  -- the nodes after both stores
  have hnode : ∀ q, ((h.setLarge last fun n => { n with next := some l }).setLarge l fun n =>
      { n with data := some m }).larges q = if q = l then { h.larges l with data := some m }
        else if q = last then { h.larges last with next := some l } else h.larges q := by
    intro q
    rw [Heap.setLarge_larges, Function.update_apply]
    split
    · rw [Heap.setLarge_larges, Function.update_of_ne hne]
    · rw [Heap.setLarge_larges, Function.update_apply]
  refine hs.relist rfl ?_ ?_ ?_ ?_ ?_
  · intro q
    rfl
  · have hlinked := hs.larges.concat hs.largesNodup hfresh hnext
    refine hlinked.congr fun q hq => ?_
    rw [hnode, Function.update_apply]
    by_cases hql : q = l
    · rw [if_pos hql, if_neg (by rw [hql]; exact hne), hql]
    · rw [if_neg hql]
      by_cases hqlast : q = last
      · rw [if_pos hqlast, if_pos hqlast]
      · rw [if_neg hqlast, if_neg hqlast]
  · rw [hls]
    refine List.nodup_append.2 ⟨hs.largesNodup, by simp, ?_⟩
    intro q hq c hc
    rw [List.mem_singleton.1 hc]
    intro heq
    exact hfresh (heq ▸ hq)
  · intro q hq
    rw [hnode]
    split
    · simp
    · next hql =>
      have hq' : q ∈ front ++ [last] := by
        rw [hls] at hq
        rcases List.mem_append.1 hq with hq | hq
        · exact hq
        · exact absurd (List.mem_singleton.1 hq) hql
      have hfull := hs.full q hq'
      split
      · next hqlast =>
        rw [hqlast] at hfull
        exact hfull
      · exact hfull
  · intro q hq
    rw [hls] at hq
    rcases List.mem_append.1 hq with hq | hq
    · exact hs.noted q hq
    · rw [List.mem_singleton.1 hq]
      exact hl

end

end Ehd.Palloc
