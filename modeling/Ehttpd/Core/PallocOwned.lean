import Ehttpd.Core.PallocSound

namespace Ehd.Palloc

open Program Region

abbrev block (size : Nat) (p : Nat) : Region := ⟨p, size⟩

/-- `owned` is what the pool has got from `malloc`: its blocks `bs`, and `bigs` for the nodes `ls`.
All that it has handed out lies therein. -/
structure Tally (h : Heap) (size : Nat) (bs ls : List Nat) (bigs given owned : List Region) :
    Prop where
  perm : owned.Perm (bs.map (block size) ++ bigs)
  data : ls.map (fun l => (h.larges l).data) = bigs.map fun r => some r.start
  blocks : ∀ b ∈ owned, b ∈ h.blocks ∧ 0 < b.len
  starts : (owned.map Region.start).Nodup
  nodes : ∀ l ∈ ls, ∃ p ∈ bs, (node l).Inside (block size p)
  inside : ∀ r ∈ given, ∃ b ∈ owned, r.Inside b

namespace Tally

variable {h h' : Heap} {pool size : Nat} {bs ls : List Nat} {bigs given nodes owned : List Region}
  {r : Region}

theorem block_mem (ht : Tally h size bs ls bigs given owned) {p : Nat} (hp : p ∈ bs) :
    block size p ∈ owned := by
  apply ht.perm.symm.subset
  exact List.mem_append_left _ (List.mem_map_of_mem hp)

theorem congr (ht : Tally h size bs ls bigs given owned) (hblocks : h.blocks ⊆ h'.blocks)
    (hdata : ∀ l ∈ ls, (h'.larges l).data = (h.larges l).data) :
    Tally h' size bs ls bigs given owned where
  perm := ht.perm
  data := by
    rw [← ht.data]
    exact List.map_congr_left hdata
  blocks := fun b hb => ⟨hblocks (ht.blocks b hb).1, (ht.blocks b hb).2⟩
  starts := ht.starts
  nodes := ht.nodes
  inside := ht.inside

theorem add (ht : Tally h size bs ls bigs given owned) {b : Region} (hb : b ∈ owned)
    (hr : r.Inside b) : Tally h size bs ls bigs (given ++ [r]) owned where
  perm := ht.perm
  data := ht.data
  blocks := ht.blocks
  starts := ht.starts
  nodes := ht.nodes
  inside := by
    intro s hs
    rcases List.mem_append.1 hs with hs | hs
    · exact ht.inside s hs
    · rw [List.mem_singleton.1 hs]
      exact ⟨b, hb, hr⟩

theorem start_fresh (ht : Tally h size bs ls bigs given owned) {a n : Nat} (hn : 0 < n)
    (ha : ∀ b ∈ h.blocks, Apart ⟨a, n⟩ b) : a ∉ owned.map Region.start := by
  intro hmem
  obtain ⟨b, hb, hstart⟩ := List.mem_map.1 hmem
  obtain ⟨hblock, hpos⟩ := ht.blocks b hb
  have hapart := ha b hblock
  unfold Apart Region.stop at hapart
  simp only at hapart
  omega

/-- One more block: of the pool, or for a caller. -/
theorem gain (ht : Tally h size bs ls bigs given owned) {a n : Nat} (hn : 0 < n)
    (ha : ∀ b ∈ h.blocks, Apart ⟨a, n⟩ b) :
    (∀ b ∈ owned ++ [block n a], b ∈ h.blocks ++ [block n a] ∧ 0 < b.len) ∧
      ((owned ++ [block n a]).map Region.start).Nodup := by
  constructor
  · intro b hb
    rcases List.mem_append.1 hb with hb | hb
    · have hold := ht.blocks b hb
      exact ⟨List.mem_append_left _ hold.1, hold.2⟩
    · rw [List.mem_singleton.1 hb]
      constructor
      · exact List.mem_append_right _ List.mem_cons_self
      · exact hn
  · rw [List.map_append]
    apply List.nodup_append.2
    refine ⟨ht.starts, by simp, ?_⟩
    intro b hb c hc heq
    have hfresh := ht.start_fresh hn ha
    rw [List.map_singleton, List.mem_singleton] at hc
    rw [heq, hc] at hb
    exact hfresh hb

/-- A new block in the list of blocks. -/
theorem grow (ht : Tally h size bs ls bigs given owned) {a : Nat} (hpos : 0 < size)
    (ha : ∀ b ∈ h.blocks, Apart ⟨a, size⟩ b) (hblocks : h'.blocks = h.blocks ++ [block size a])
    (hlarges : h'.larges = h.larges) :
    Tally h' size (bs ++ [a]) ls bigs given (owned ++ [block size a]) := by
  obtain ⟨hmem, hstarts⟩ := ht.gain hpos ha
  refine ⟨?_, ?_, ?_, hstarts, ?_, ?_⟩
  · rw [List.map_append, List.map_singleton, List.append_assoc]
    have hperm := ht.perm.append_right [block size a]
    rw [List.append_assoc] at hperm
    exact hperm.trans (List.Perm.append_left _ List.perm_append_comm)
  · rw [hlarges]
    exact ht.data
  · rw [hblocks]
    exact hmem
  · intro l hl
    obtain ⟨p, hp, hinside⟩ := ht.nodes l hl
    exact ⟨p, List.mem_append_left _ hp, hinside⟩
  · intro s hs
    obtain ⟨b, hb, hinside⟩ := ht.inside s hs
    exact ⟨b, List.mem_append_left _ hb, hinside⟩

/-- A new node in the list of nodes, with its memory. -/
theorem hang (ht : Tally h size bs ls bigs given owned) {l m n : Nat} (hn : 0 < n)
    (hm : ∀ b ∈ h.blocks, Apart ⟨m, n⟩ b) (hl : ∃ p ∈ bs, (node l).Inside (block size p))
    (hblocks : h'.blocks = h.blocks ++ [⟨m, n⟩])
    (hdata : ∀ q ∈ ls, (h'.larges q).data = (h.larges q).data)
    (hnew : (h'.larges l).data = some m) :
    Tally h' size bs (ls ++ [l]) (bigs ++ [⟨m, n⟩]) (given ++ [⟨m, n⟩]) (owned ++ [⟨m, n⟩]) := by
  obtain ⟨hmem, hstarts⟩ := ht.gain hn hm
  refine ⟨?_, ?_, ?_, hstarts, ?_, ?_⟩
  · rw [← List.append_assoc]
    exact ht.perm.append_right _
  · rw [List.map_append, List.map_append, ← ht.data, List.map_congr_left hdata,
      List.map_singleton, List.map_singleton, hnew]
  · rw [hblocks]
    exact hmem
  · intro q hq
    rcases List.mem_append.1 hq with hq | hq
    · exact ht.nodes q hq
    · rw [List.mem_singleton.1 hq]
      exact hl
  · intro s hs
    rcases List.mem_append.1 hs with hs | hs
    · obtain ⟨b, hb, hinside⟩ := ht.inside s hs
      exact ⟨b, List.mem_append_left _ hb, hinside⟩
    · rw [List.mem_singleton.1 hs]
      exact ⟨_, List.mem_append_right _ List.mem_cons_self, inside_refl _⟩

end Tally

def Owned (h : Heap) (pool size : Nat) (given owned : List Region) : Prop :=
  ∃ bs ls bigs, Linked (fun p => (h.pools p).next) (some pool) bs ∧
    Linked (fun l => (h.larges l).next) (h.pools pool).large ls ∧
    Tally h size bs ls bigs given owned

theorem Sound.tally {h : Heap} {pool size : Nat} {bs ls : List Nat}
    {given nodes given' owned : List Region} (hs : Sound h pool size bs ls given nodes)
    (ho : Owned h pool size given' owned) : ∃ bigs, Tally h size bs ls bigs given' owned := by
  obtain ⟨bs', ls', bigs, hblocks, hlarges, ht⟩ := ho
  rw [hs.linked.unique hblocks, hs.larges.unique hlarges]
  exact ⟨bigs, ht⟩

theorem Tally.owned {h : Heap} {pool size : Nat} {bs ls : List Nat}
    {given nodes bigs given' owned : List Region} (ht : Tally h size bs ls bigs given' owned)
    (hs : Sound h pool size bs ls given nodes) : Owned h pool size given' owned :=
  ⟨bs, ls, bigs, hs.linked, hs.larges, ht⟩

/-- From `h` to `h'` the books are kept: what `malloc` has given in between is the pool's. -/
def Booked (h h' : Heap) (pool size : Nat) (given given' : List Region) : Prop :=
  ∀ owned, Owned h pool size given owned →
    ∃ gained, h'.blocks = h.blocks ++ gained ∧ Owned h' pool size given' (owned ++ gained)

namespace Booked

variable {h h' h'' : Heap} {pool size : Nat} {bs ls : List Nat}
  {given given' given'' nodes nodes' : List Region}

theorem trans (hb : Booked h h' pool size given given')
    (hb' : Booked h' h'' pool size given' given'') : Booked h h'' pool size given given'' := by
  intro owned ho
  obtain ⟨gained, hblocks, ho'⟩ := hb owned ho
  obtain ⟨gained', hblocks', ho''⟩ := hb' _ ho'
  refine ⟨gained ++ gained', ?_, ?_⟩
  · rw [hblocks', hblocks, List.append_assoc]
  · rw [← List.append_assoc]
    exact ho''

theorem same (hs : Sound h pool size bs ls given nodes) (hs' : Sound h' pool size bs ls given' nodes')
    (hblocks : h'.blocks = h.blocks) (hdata : ∀ l ∈ ls, (h'.larges l).data = (h.larges l).data) :
    Booked h h' pool size given given := by
  intro owned ho
  obtain ⟨bigs, ht⟩ := hs.tally ho
  refine ⟨[], ?_, ?_⟩
  · rw [hblocks, List.append_nil]
  · rw [List.append_nil]
    exact (ht.congr (fun _ hb => hblocks ▸ hb) hdata).owned hs'

theorem add (hb : Booked h h' pool size given given')
    (hs : Sound h' pool size bs ls given'' nodes) {r : Region}
    (hr : ∃ p ∈ bs, r.Inside (block size p)) : Booked h h' pool size given (given' ++ [r]) := by
  intro owned ho
  obtain ⟨gained, hblocks, ho'⟩ := hb owned ho
  obtain ⟨bigs, ht⟩ := hs.tally ho'
  obtain ⟨p, hp, hinside⟩ := hr
  exact ⟨gained, hblocks, (ht.add (ht.block_mem hp) hinside).owned hs⟩

theorem notCalled (hs : Sound h pool size bs ls given nodes) :
    Booked h (h.called []) pool size given given := by
  apply same hs hs.notCalled
  · rw [Heap.called_blocks, List.append_nil]
  · intro l _
    rfl

end Booked

end Ehd.Palloc
