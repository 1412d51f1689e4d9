import Ehttpd.Core.PallocCalls
import Mathlib.Data.List.Nodup
import Mathlib.Data.List.Perm.Subperm

namespace Ehd.Palloc

open Program Region

section

variable {h h' : Heap} {pool size : Nat} {bs ls : List Nat} {given given' nodes : List Region}

/-- The invariant for a part of what the callers have, and the nodes in the list. -/
theorem Sound.restrict (hs : Sound h pool size bs ls given nodes) (hsub : given'.Subperm given) :
    Sound h pool size bs ls given' (ls.map node) := by
  have hnodes : ls.map node ⊆ nodes := by
    intro r hr
    obtain ⟨q, hq, rfl⟩ := List.mem_map.1 hr
    exact hs.noted q hq
  obtain ⟨hgiven, hapart, hboth⟩ := List.pairwise_append.1 hs.apart
  refine ⟨hs.enough, hs.blocks, hs.bounded, hs.linked, hs.nodup, hs.block, hs.larges, hs.largesNodup,
    hs.full, fun q hq => List.mem_map_of_mem hq, List.pairwise_append.2 ⟨?_, ?_, ?_⟩, ?_⟩
  · obtain ⟨part, hperm, hpart⟩ := hsub
    exact (hgiven.sublist hpart).perm hperm fun h => h.symm
  · have hinj : Function.Injective node := fun _ _ heq => congrArg Region.start heq
    have hnodup : (ls.map node).Nodup := List.Nodup.map hinj hs.largesNodup
    apply List.Pairwise.imp_of_mem _ hnodup
    intro r s hr hs' hne
    exact apart_of_mem hapart (hnodes hr) (hnodes hs') hne
  · intro r hr s hs'
    exact hboth r (hsub.subset hr) s (hnodes hs')
  · intro r hr
    apply hs.placed
    rcases List.mem_append.1 hr with hr | hr
    · exact List.mem_append_left _ (hsub.subset hr)
    · exact List.mem_append_right _ (hnodes hr)

/-- Only `last` of some headers changes, and all that is handed out stays before it. -/
theorem Sound.relast (hs : Sound h pool size bs ls given nodes) (hblocks : h'.blocks = h.blocks)
    (hlarges : h'.larges = h.larges)
    (hpools : ∀ q, h'.pools q = { h.pools q with last := (h'.pools q).last })
    (hbounds : ∀ p ∈ bs, p + SIZEOF_POOL ≤ (h'.pools p).last ∧ (h'.pools p).last ≤ p + size)
    (hapart : (given' ++ nodes).Pairwise Apart) (hplaced : ∀ r ∈ given' ++ nodes, Placed h' bs r) :
    Sound h' pool size bs ls given' nodes where
  enough := hs.enough
  blocks := by rw [hblocks]; exact hs.blocks
  bounded := by rw [hblocks]; exact hs.bounded
  linked := hs.linked.congr fun q _ => by rw [hpools q]
  nodup := hs.nodup
  block := by
    intro p hp
    have hb := hs.block p hp
    exact ⟨by rw [hblocks]; exact hb.block, by rw [hpools p]; exact hb.stop, (hbounds p hp).1,
      (hbounds p hp).2⟩
  larges := by
    rw [hpools pool, hlarges]
    exact hs.larges
  largesNodup := hs.largesNodup
  full := by
    rw [hlarges]
    exact hs.full
  noted := hs.noted
  apart := hapart
  placed := hplaced

/-- What ends at `last` of the first block lies in this block, and `last` is where it ends. -/
theorem Sound.at_last (hs : Sound h pool size bs ls given nodes) {r : Region} {k : Nat}
    (hr : Placed h bs r) (hpos : 0 < k) (hle : k ≤ r.len)
    (hlast : r.start + k = (h.pools pool).last) :
    pool + SIZEOF_POOL ≤ r.start ∧ r.stop = (h.pools pool).last := by
  have hpool := hs.block pool hs.pool_mem
  have hfirst := hpool.first
  have htop := hpool.last
  have hheader : 0 < SIZEOF_POOL := by decide
  have hstop : r.stop = r.start + r.len := rfl
  cases hr with
  | @small p hp start stop =>
    by_cases heq : p = pool
    · subst heq
      exact ⟨start, by omega⟩
    · -- another block lies before the first one, or behind it
      have hapart := hs.blocks_apart hp hs.pool_mem heq
      have hblock := (hs.block p hp).last
      unfold Apart Region.stop at hapart
      simp only at hapart
      omega
  | large block len start =>
    have hapart := hs.block_large_apart hs.pool_mem block start
    unfold Apart Region.stop at hapart
    simp only at hapart
    omega

/-- The region that ends at `last` goes back to the block. -/
theorem Sound.lower {r : Region} (hs : Sound h pool size bs ls (given ++ [r]) (ls.map node))
    (hlen : 0 < r.len) (hpos : ∀ s ∈ given, 0 < s.len) (hstart : pool + SIZEOF_POOL ≤ r.start)
    (hstop : r.stop = (h.pools pool).last) :
    Sound (h.setPool pool fun b => { b with last := r.start }) pool size bs ls given
      (ls.map node) := by
  have hrstop : r.stop = r.start + r.len := rfl
  have hrest := hs.restrict (List.sublist_append_left given [r]).subperm
  have hself : ∀ q, ((h.setPool pool fun b => { b with last := r.start }).pools q) =
      if q = pool then { h.pools pool with last := r.start } else h.pools q := by
    intro q
    rw [Heap.setPool_pools, Function.update_apply]
  refine hrest.relast rfl rfl ?_ ?_ hrest.apart ?_
  · intro q
    rw [hself]
    split
    · next heq => rw [heq]
    · rfl
  · intro p hp
    have hb := hs.block p hp
    rw [hself]
    split
    · next heq =>
      subst heq
      have htop := hb.last
      exact ⟨hstart, by show r.start ≤ p + size; omega⟩
    · exact ⟨hb.first, hb.last⟩
  · intro s hmem
    -- a region of some length lies wholly on one side of the one given back
    have hslen : 0 < s.len := by
      rcases List.mem_append.1 hmem with hmem | hmem
      · exact hpos s hmem
      · obtain ⟨q, _, rfl⟩ := List.mem_map.1 hmem
        exact (by decide : 0 < SIZEOF_LARGE)
    have hapart : s.Apart r := by
      have hall := hs.apart
      rw [List.append_assoc] at hall
      obtain ⟨_, hright, hboth⟩ := List.pairwise_append.1 hall
      rcases List.mem_append.1 hmem with hmem | hmem
      · exact hboth s hmem r List.mem_cons_self
      · exact ((List.pairwise_cons.1 hright).1 s hmem).symm
    cases hrest.placed s hmem with
    | @small p hp start stop =>
      apply Placed.small hp start
      rw [hself]
      split
      · next heq =>
        subst heq
        -- in the same block it ends where the released one starts
        unfold Apart at hapart
        have hsstop : s.stop = s.start + s.len := rfl
        show s.stop ≤ r.start
        omega
      · exact stop
    | large block len start => exact .large block len start

/-- Of the headers only `last` of the first has changed, and it went down. -/
structure Lowered (h h' : Heap) (pool : Nat) : Prop where
  last : (h'.pools pool).last ≤ (h.pools pool).last
  self : h'.pools pool = { h.pools pool with last := (h'.pools pool).last }
  other : ∀ q, q ≠ pool → h'.pools q = h.pools q
  blocks : h'.blocks = h.blocks

theorem Lowered.refl (h : Heap) (pool : Nat) : Lowered h h pool :=
  ⟨Nat.le_refl _, rfl, fun _ _ => rfl, rfl⟩

theorem Lowered.trans {h'' : Heap} (hl : Lowered h h' pool) (hl' : Lowered h' h'' pool) :
    Lowered h h'' pool where
  last := hl'.last.trans hl.last
  self := by
    rw [hl'.self, hl.self]
  other q hq := (hl'.other q hq).trans (hl.other q hq)
  blocks := hl'.blocks.trans hl.blocks

def giveBack (h : Heap) (pool : Nat) (r : Region) (k : Nat) : Heap :=
  if r.start + k = (h.pools pool).last then h.setPool pool fun b => { b with last := r.start } else h

/-- Whatever `k` is, nothing is given back but the region itself. -/
theorem Sound.giveBack {r : Region} {k : Nat}
    (hs : Sound h pool size bs ls (given ++ [r]) (ls.map node)) (hpos : ∀ s ∈ given, 0 < s.len)
    (hlen : 0 < r.len) (hk : k ≤ r.len) :
    Sound (giveBack h pool r k) pool size bs ls given (ls.map node) ∧
      Lowered h (giveBack h pool r k) pool := by
  have hrest := hs.restrict (List.sublist_append_left given [r]).subperm
  unfold Palloc.giveBack
  by_cases hlast : r.start + k = (h.pools pool).last
  · rw [if_pos hlast]
    have hself : ((h.setPool pool fun b => { b with last := r.start }).pools pool) =
        { h.pools pool with last := r.start } := Function.update_self _ _ _
    have hlowered : Lowered h (h.setPool pool fun b => { b with last := r.start }) pool := by
      refine ⟨?_, ?_, fun q hq => Function.update_of_ne hq _ _, rfl⟩
      · rw [hself]
        show r.start ≤ (h.pools pool).last
        omega
      · rw [hself]
    refine ⟨?_, hlowered⟩
    by_cases hzero : k = 0
    · -- `last` is where it was
      have hstart : r.start = (h.pools pool).last := by omega
      refine hrest.congr rfl ?_ fun _ _ => rfl
      intro q _
      by_cases hq : q = pool
      · rw [hq, hself, hstart]
      · exact hlowered.other q hq
    · have hr : r ∈ given ++ [r] ++ ls.map node := by simp
      obtain ⟨hstart, hstop⟩ := hs.at_last (hs.placed r hr) (Nat.pos_of_ne_zero hzero) hk hlast
      exact hs.lower hlen hpos hstart hstop
  · rw [if_neg hlast]
    exact ⟨hrest, Lowered.refl h pool⟩

/-- Two regions of a block, the one behind the other, are one. -/
theorem Sound.join {r s : Region} {p : Nat}
    (hs : Sound h pool size bs ls (given ++ [r, s]) nodes) (hnext : r.stop = s.start)
    (hr : 0 < r.len) (hslen : 0 < s.len) (hp : p ∈ bs) (hstart : p + SIZEOF_POOL ≤ r.start)
    (hstop : s.stop ≤ (h.pools p).last) :
    Sound h pool size bs ls (given ++ [⟨r.start, r.len + s.len⟩]) nodes := by
  have hrstop : r.stop = r.start + r.len := rfl
  have hsstop : s.stop = s.start + s.len := rfl
  have hboth : ∀ x : Region, x.Apart r → x.Apart s → x.Apart ⟨r.start, r.len + s.len⟩ := by
    intro x hxr hxs
    have hxstop : x.stop = x.start + x.len := rfl
    have hjoined : Region.stop ⟨r.start, r.len + s.len⟩ = r.start + (r.len + s.len) := rfl
    unfold Apart at *
    simp only
    omega
  have hall := hs.apart
  have hplaced := hs.placed
  rw [List.append_assoc] at hall hplaced
  obtain ⟨hgiven, hright, hcross⟩ := List.pairwise_append.1 hall
  obtain ⟨hrall, hsall⟩ := List.pairwise_cons.1 hright
  obtain ⟨hsnodes, hnodes⟩ := List.pairwise_cons.1 hsall
  refine hs.relast rfl rfl (fun _ => rfl)
    (fun q hq => ⟨(hs.block q hq).first, (hs.block q hq).last⟩) ?_ ?_
  · rw [List.append_assoc]
    refine List.pairwise_append.2 ⟨hgiven, List.pairwise_cons.2 ⟨?_, hnodes⟩, ?_⟩
    · intro x hx
      apply Apart.symm
      exact hboth x (hrall x (List.mem_cons_of_mem _ hx)).symm (hsnodes x hx).symm
    · intro x hx y hy
      rcases List.mem_cons.1 hy with rfl | hy
      · apply hboth x (hcross x hx r List.mem_cons_self)
        exact hcross x hx s (List.mem_cons_of_mem _ List.mem_cons_self)
      · exact hcross x hx y (List.mem_cons_of_mem _ (List.mem_cons_of_mem _ hy))
  · intro x hx
    rw [List.append_assoc] at hx
    rcases List.mem_append.1 hx with hx | hx
    · exact hplaced x (List.mem_append_left _ hx)
    · rcases List.mem_cons.1 hx with rfl | hx
      · refine Placed.small hp hstart ?_
        show r.start + (r.len + s.len) ≤ (h.pools p).last
        omega
      · exact hplaced x (List.mem_append_right _ (List.mem_cons_of_mem _ (List.mem_cons_of_mem _ hx)))

theorem Sound.stop_lt {r : Region} (hs : Sound h pool size bs ls given nodes) (hr : r ∈ given) :
    r.stop < 2 ^ 64 := by
  obtain ⟨b, hb, hinside⟩ := hs.inside_block (hs.placed r (List.mem_append_left _ hr))
  exact hinside.2.trans_lt (hs.bounded b hb)

theorem Sound.memset {r s : Region} (hs : Sound h pool size bs ls given nodes) (hr : r ∈ given)
    (hinside : s.Inside r) : Sound (h.memset s) pool size bs ls given nodes := by
  refine hs.congr rfl ?_ ?_
  · intro p hp
    have hapart := hs.header_apart hp (hs.placed r (List.mem_append_left _ hr))
    exact if_pos (hapart.inside hinside (inside_refl _))
  · intro l hl
    exact if_pos ((hs.node_apart hr hl).inside hinside (inside_refl _))

end

end Ehd.Palloc
