import Ehttpd.Core.DestroyPool
import Ehttpd.Core.ListSound
import Ehttpd.Core.PallocTop

namespace Ehd.Palloc

open Program Region

variable (M : Malloc)

def Ends {α : Type} (x : Nat → Store α) (m : Memory) (res : α) (m' : Memory) : Prop :=
  ∃ rounds, ∀ fuel, rounds ≤ fuel → x fuel m = .ok res m'

/-- Memory that the pool and its callers do not touch while the list has it: a part of what a call
has given to the owner of the list, or of a block that is none of the pool's. -/
def Spare (h : Heap) (given owned : List Region) (r : Region) : Prop :=
  (∃ g ∈ given, r.Inside g) ∨ ∃ b ∈ h.blocks, b ∉ owned ∧ r.Inside b

/-- Others write what they like, but neither what the pool keeps for itself nor the structure and
the nodes of the list. -/
structure Others (pool l : Nat) (m m' : Memory) : Prop where
  blocks : m'.heap.blocks = m.heap.blocks
  pools : ∀ bs ls, Lists m.heap pool bs ls → ∀ p ∈ bs, m'.heap.pools p = m.heap.pools p
  larges : ∀ bs ls, Lists m.heap pool bs ls → ∀ q ∈ ls, m'.heap.larges q = m.heap.larges q
  list : m'.lists l = m.lists l
  nodes : ∀ as, Linked (fun a => (m.nodes a).next) (some (headOf l)) as →
    ∀ a ∈ as, m'.nodes a = m.nodes a

/-- The states that a list with `n` elements of `size` bytes to a node gets into, with what its
pushes have given. -/
inductive Pushes (psize pool n size l : Nat) : Memory → List Nat → Prop
  | init {m m' : Memory} {given owned : List Region} (start : History M psize m.heap pool given owned)
      (spare : Spare m.heap given owned (listRegion l))
      (call : Ends (fun fuel => listInit M fuel l pool n size) m EHD_OK m') :
      Pushes psize pool n size l m' []
  | pushed {m m' : Memory} {slots : List Nat} {slot : Nat}
      (before : Pushes psize pool n size l m slots)
      (call : Ends (fun fuel => listPush M fuel l) m (some slot) m') :
      Pushes psize pool n size l m' (slots ++ [slot])
  | refused {m m' : Memory} {slots : List Nat} (before : Pushes psize pool n size l m slots)
      (call : Ends (fun fuel => listPush M fuel l) m none m') :
      Pushes psize pool n size l m' slots
  | asked {m : Memory} {h : Heap} {slots : List Nat} {r : Request} {res : Option Nat}
      (before : Pushes psize pool n size l m slots) (call : Returns M r pool m.heap res h) :
      Pushes psize pool n size l (m.setHeap h) slots
  | elsewhere {m : Memory} {h : Heap} {slots : List Nat} {k : Nat} {res : Option Nat}
      (before : Pushes psize pool n size l m slots) (call : malloc M k m.heap = .ok res h) :
      Pushes psize pool n size l (m.setHeap h) slots
  | others {m m' : Memory} {slots : List Nat} (before : Pushes psize pool n size l m slots)
      (write : Others pool l m m') : Pushes psize pool n size l m' slots

section

variable {M} {m m' : Memory} {h h' : Heap} {psize pool n size l : Nat} {bs ls as slots : List Nat}
  {given nodes : List Region}

/-- A block that is none of the pool's, taken to what the callers have. -/
theorem Sound.lend {bigs owned : List Region} {b : Region}
    (hs : Sound h pool psize bs ls given nodes) (ht : Tally h psize bs ls bigs given owned)
    (hb : b ∈ h.blocks) (hnot : b ∉ owned) (hpos : 0 < b.len) :
    Sound h pool psize bs ls (given ++ [b]) (ls.map node) := by
  have hother : ∀ r x : Region, x ∈ owned → r.Inside x → r.Apart b := by
    intro r x hx hr
    have hne : x ≠ b := fun heq => hnot (heq ▸ hx)
    exact (apart_of_mem hs.blocks (ht.blocks x hx).1 hb hne).inside hr (inside_refl b)
  have hlisted : Sound h pool psize bs ls given (ls.map node) :=
    hs.restrict (List.Subperm.refl given)
  have hbounds : ∀ p ∈ bs, p + SIZEOF_POOL ≤ (h.pools p).last ∧ (h.pools p).last ≤ p + psize := by
    intro p hp
    have hblock := hs.block p hp
    exact ⟨hblock.first, hblock.last⟩
  apply hlisted.relast rfl rfl (fun _ => rfl) hbounds
  · rw [List.append_assoc]
    obtain ⟨hgiven, hnodes, hboth⟩ := List.pairwise_append.1 hlisted.apart
    refine List.pairwise_append.2 ⟨hgiven, List.pairwise_cons.2 ⟨?_, hnodes⟩, ?_⟩
    · intro r hr
      obtain ⟨q, hq, rfl⟩ := List.mem_map.1 hr
      obtain ⟨p, hp, hinside⟩ := ht.nodes q hq
      exact (hother _ _ (ht.block_mem hp) hinside).symm
    · intro r hr s hmem
      obtain ⟨x, hx, hinside⟩ := ht.inside r hr
      rcases List.mem_cons.1 hmem with rfl | hmem
      · exact hother r x hx hinside
      · exact hboth r hr s hmem
  · intro r hr
    rw [List.append_assoc] at hr
    rcases List.mem_append.1 hr with hr | hr
    · exact hlisted.placed r (List.mem_append_left _ hr)
    · rcases List.mem_cons.1 hr with rfl | hr
      · apply Placed.large hb hpos
        intro hstart
        have hapart := hother ⟨r.start, psize⟩ _ (ht.block_mem hstart) (inside_refl _)
        have hsize := hs.pos
        unfold Apart Region.stop at hapart
        simp only at hapart
        omega
      · exact hlisted.placed r (List.mem_append_right _ hr)

theorem Sound.spare {bigs owned : List Region} {r : Region}
    (hs : Sound h pool psize bs ls given nodes) (ht : Tally h psize bs ls bigs given owned)
    (hspare : Spare h given owned r) (hpos : 0 < r.len) :
    ∃ given' nodes', Sound h pool psize bs ls given' nodes' ∧ ∃ g ∈ given', r.Inside g := by
  rcases hspare with ⟨g, hg, hinside⟩ | ⟨b, hb, hnot, hinside⟩
  · exact ⟨given, nodes, hs, g, hg, hinside⟩
  · have hlen : 0 < b.len := by
      unfold Inside Region.stop at hinside
      omega
    exact ⟨_, _, hs.lend ht hb hnot hlen, b, List.mem_append_right _ List.mem_cons_self, hinside⟩

theorem Ends.post {α : Type} {x : Nat → Store α} {res : α} {Q : α → Memory → Prop}
    {E : Halt → Memory → Prop} {k : Nat} (hends : Ends x m res m')
    (hrule : ∀ fuel, k ≤ fuel → wp (x fuel) Q E m) : Q res m' := by
  obtain ⟨rounds, hrounds⟩ := hends
  have hk := hrule (max k rounds) (Nat.le_max_left _ _)
  rw [wp_of_ok (hrounds _ (Nat.le_max_right _ _))] at hk
  exact hk

theorem Ends.exists_of_wp {α : Type} {x : Nat → Store α} {Q : α → Memory → Prop} {k : Nat}
    (hbelow : ∀ {k k'}, k ≤ k' → Below (x k) (x k'))
    (hrule : wp (x k) Q (fun _ _ => False) m) : ∃ res m', Ends x m res m' := by
  unfold wp at hrule
  cases hrun : x k m with
  | ok res m' => exact ⟨res, m', k, fun fuel hfuel => hbelow hfuel m res m' hrun⟩
  | error e m' =>
    rw [hrun] at hrule
    cases hrule

theorem listInit_below {k k' : Nat} (hk : k ≤ k') :
    Below (listInit M k l pool n size) (listInit M k' l pool n size) := by
  unfold listInit
  apply below_bind (onHeap_below (palloc_below hk pool _))
  intro _
  exact below_refl

theorem listPush_below {k k' : Nat} (hk : k ≤ k') : Below (listPush M k l) (listPush M k' l) := by
  unfold listPush
  apply below_bind below_refl
  intro m
  dsimp only
  split
  · apply below_bind (onHeap_below (palloc_below hk _ _))
    intro new
    cases new with
    | none => exact below_refl
    | some new =>
      apply below_bind below_refl
      intro m₁
      apply below_bind (onHeap_below (palloc_below hk _ _))
      intro _
      exact below_refl
  · exact below_refl

/-- The invariant of a run: the pool is sound, and the list stands in memory of its own. -/
structure ListInv (m : Memory) (psize pool n size l : Nat) (slots : List Nat)
    (bs ls as : List Nat) (given nodes : List Region) : Prop where
  sound : Sound m.heap pool psize bs ls given nodes
  list : ListAt m pool n size l as slots
  held : ∀ a ∈ as, ∃ r ∈ given, (nodeRegion a).Inside r

theorem ListInv.init {bigs owned : List Region} (hs : Sound m.heap pool psize bs ls given nodes)
    (ht : Tally m.heap psize bs ls bigs given owned)
    (hspare : Spare m.heap given owned (listRegion l))
    (hcall : Ends (fun fuel => listInit M fuel l pool n size) m EHD_OK m') :
    ∃ bs ls as given nodes, ListInv m' psize pool n size l [] bs ls as given nodes := by
  obtain ⟨given', nodes', hs', g, hg, hinside⟩ := hs.spare ht hspare (by decide : 0 < SIZEOF_LIST)
  have hmade := hcall.post (E := fun _ _ => False) fun fuel hfuel => listInit_rule hs' hfuel
  generalize hok : EHD_OK = res at hmade
  cases hmade with
  | @ok m' d bs₁ ls₁ nodes₁ hs₁ hlist _ _ =>
    refine ⟨bs₁, ls₁, _, _, nodes₁, hs₁, hlist, ?_⟩
    intro a ha
    rw [List.mem_singleton.1 ha]
    have hhead := head_inside l
    refine ⟨g, List.mem_append_left _ hg, ?_⟩
    exact ⟨hinside.1.trans hhead.1, hhead.2.trans hinside.2⟩
  | failed _ _ => cases hok

theorem ListInv.push (hinv : ListInv m psize pool n size l slots bs ls as given nodes) (hn : 1 ≤ n)
    (hlt : n < 2 ^ 32) : (∃ res m', Ends (fun fuel => listPush M fuel l) m res m') ∧
      ∀ res m', Ends (fun fuel => listPush M fuel l) m res m' →
        Pushed psize pool n size l given as slots m res m' := by
  have hrule : ∀ fuel, bs.length + ls.length + 4 ≤ fuel → wp (listPush M fuel l)
      (Pushed psize pool n size l given as slots m) (fun _ _ => False) m := fun fuel hfuel =>
    listPush_rule hinv.sound hinv.list hinv.held hn hlt hfuel
  constructor
  · exact Ends.exists_of_wp listPush_below (hrule _ (Nat.le_refl _))
  · intro res m' hcall
    exact hcall.post hrule

theorem ListInv.pushed {res : Option Nat}
    (hinv : ListInv m psize pool n size l slots bs ls as given nodes)
    (hpushed : Pushed psize pool n size l given as slots m res m') :
    ∃ bs ls as given nodes, ListInv m' psize pool n size l (slots ++ res.toList) bs ls as given nodes := by
  cases hpushed with
  | same hheap hlist _ _ =>
    refine ⟨bs, ls, as, given, nodes, ?_, hlist, hinv.held⟩
    rw [hheap]
    exact hinv.sound
  | @grown _ slot a d bs' ls' nodes' hs hlist _ _ _ =>
    refine ⟨bs', ls', _, _, nodes', hs, hlist, ?_⟩
    intro b hb
    rcases List.mem_append.1 hb with hb | hb
    · obtain ⟨r, hr, hinside⟩ := hinv.held b hb
      exact ⟨r, List.mem_append_left _ hr, hinside⟩
    · rw [List.mem_singleton.1 hb]
      exact ⟨_, List.mem_append_right _ List.mem_cons_self, inside_refl _⟩
  | @failed _ bs' ls' new more nodes' hs hlist _ _ =>
    refine ⟨bs', ls', as, _, nodes', hs, ?_, ?_⟩
    · rw [Option.toList_none, List.append_nil]
      exact hlist
    · intro b hb
      obtain ⟨r, hr, hinside⟩ := hinv.held b hb
      exact ⟨r, List.mem_append_left _ hr, hinside⟩

theorem Pushes.inv (hsize : SIZEOF_POOL + SIZEOF_LARGE ≤ psize) (hn : 1 ≤ n) (hlt : n < 2 ^ 32)
    (hr : Pushes M psize pool n size l m slots) :
    ∃ bs ls as given nodes, ListInv m psize pool n size l slots bs ls as given nodes := by
  induction hr with
  | init hpool hspare hcall =>
    obtain ⟨bs, ls, bigs, nodes, hs, ht⟩ := hpool.sound hsize
    exact ListInv.init hs ht hspare hcall
  | pushed _ hcall ih =>
    obtain ⟨bs, ls, as, given, nodes, hinv⟩ := ih
    exact hinv.pushed ((hinv.push hn hlt).2 _ _ hcall)
  | @refused m m' slots _ hcall ih =>
    obtain ⟨bs, ls, as, given, nodes, hinv⟩ := ih
    have hpushed := hinv.pushed ((hinv.push hn hlt).2 _ _ hcall)
    rw [Option.toList_none, List.append_nil] at hpushed
    exact hpushed
  | @asked m h slots r res _ hcall ih =>
    obtain ⟨bs, ls, as, given, nodes, hs, hlist, hheld⟩ := ih
    have hheap : ListAt (m.setHeap h) pool n size l as slots := hlist.congr rfl fun _ _ => rfl
    have houtcome := (returns_outcome hs hcall).1
    cases res with
    | some a =>
      obtain ⟨bs', ls', nodes', _, _, hs'⟩ := houtcome
      refine ⟨bs', ls', as, _, nodes', hs', hheap, ?_⟩
      intro b hb
      obtain ⟨g, hg, hinside⟩ := hheld b hb
      exact ⟨g, List.mem_append_left _ hg, hinside⟩
    | none =>
      obtain ⟨bs', nodes', hs', _⟩ := houtcome
      exact ⟨bs', ls, as, given, nodes', hs', hheap, hheld⟩
  | @elsewhere m h slots k res _ hcall ih =>
    obtain ⟨bs, ls, as, given, nodes, hs, hlist, hheld⟩ := ih
    exact ⟨bs, ls, as, given, nodes, hs.elsewhere hcall, hlist.congr rfl fun _ _ => rfl, hheld⟩
  | others _ hwrite ih =>
    obtain ⟨bs, ls, as, given, nodes, hs, hlist, hheld⟩ := ih
    refine ⟨bs, ls, as, given, nodes, ?_, ?_, hheld⟩
    · exact hs.congr hwrite.blocks (hwrite.pools bs ls hs.lists) (hwrite.larges bs ls hs.lists)
    · exact hlist.congr hwrite.list (hwrite.nodes as hlist.linked)

/-- A walk over the list finds `slots`, and all nodes before the last are full. -/
structure InOrder (m : Memory) (n l : Nat) (slots : List Nat) : Prop where
  traversed : ∃ rounds, ∀ fuel, rounds ≤ fuel → traverse m l fuel (some (headOf l)) = some slots
  full : ∃ as, Linked (fun a => (m.nodes a).next) (some (headOf l)) as ∧
    ∀ a ∈ as.dropLast, (m.nodes a).ndata = n

theorem ListAt.inOrder (h : ListAt m pool n size l as slots) : InOrder m n l slots where
  traversed := ⟨as.length + 1, fun _ hfuel => h.traverse_eq hfuel⟩
  full := by
    obtain ⟨front, has, hfront⟩ := h.full
    refine ⟨as, h.linked, ?_⟩
    rw [has, List.dropLast_concat]
    exact hfront

/-- In every state of every run a walk over the list finds what the pushes have given, in their
order and where it was.  The next push ends; it adds an element behind the others, or it gives
`NULL` and the walk finds what it found. -/
theorem list_in_order (hsize : SIZEOF_POOL + SIZEOF_LARGE ≤ psize) (hn : 1 ≤ n) (hlt : n < 2 ^ 32)
    (hr : Pushes M psize pool n size l m slots) :
    InOrder m n l slots ∧ (∃ res m', Ends (fun fuel => listPush M fuel l) m res m') ∧
      ∀ res m', Ends (fun fuel => listPush M fuel l) m res m' →
        InOrder m' n l (slots ++ res.toList) := by
  obtain ⟨bs, ls, as, given, nodes, hinv⟩ := hr.inv hsize hn hlt
  obtain ⟨hends, hpushed⟩ := hinv.push (M := M) hn hlt
  refine ⟨hinv.list.inOrder, hends, ?_⟩
  intro res m' hcall
  obtain ⟨_, _, _, _, _, hinv'⟩ := hinv.pushed (hpushed res m' hcall)
  exact hinv'.list.inOrder

def defaultPool : Heap := after (createPool bump EHD_DEFAULT_POOL_SIZE) emptyHeap

def listPool : Heap := after (palloc bump 4 4096 SIZEOF_LIST) defaultPool

def listMemory : Memory :=
  ⟨listPool, fun _ => ⟨0, 0, 0, 0⟩, fun _ => ⟨none, 0, none⟩, fun _ => ⟨none, 0, 0, 0, 0⟩, fun _ => 0⟩

def shortList : Nat → Memory
  | 0 => after (listInit bump 8 4128 4096 2 8) listMemory
  | k + 1 => after (listPush bump 8 4128) (shortList k)

theorem list_in_order_shortList : InOrder (shortList 3) 2 4128 [4184, 4192, 4224] := by
  have hcreate : createPool bump EHD_DEFAULT_POOL_SIZE emptyHeap = .ok (some 4096) defaultPool :=
    eq_ok_of_result (by decide)
  have hcall : palloc bump 4 4096 SIZEOF_LIST defaultPool = .ok (some 4128) listPool :=
    eq_ok_of_result (by decide)
  have hreturns : Returns bump ⟨false, SIZEOF_LIST⟩ 4096 defaultPool (some 4128) listPool :=
    ⟨4, fun fuel hfuel => palloc_below hfuel 4096 SIZEOF_LIST _ _ _ hcall⟩
  have hcreated : History bump EHD_DEFAULT_POOL_SIZE defaultPool 4096 []
      [block EHD_DEFAULT_POOL_SIZE 4096] := by
    apply History.created List.Pairwise.nil _ hcreate rfl
    intro b hb
    cases hb
  have hgot : listPool.blocks = defaultPool.blocks ++ [] := by
    decide
  have hheap : listMemory.heap = listPool := by rw [listMemory]
  have htaken : (⟨false, SIZEOF_LIST⟩ : Request).taken [] (some 4128) = [listRegion 4128] := rfl
  have hhistory := hcreated.called hreturns hgot
  rw [htaken, ← hheap] at hhistory
  have hspare : Spare listMemory.heap [listRegion 4128] ([block EHD_DEFAULT_POOL_SIZE 4096] ++ [])
      (listRegion 4128) := Or.inl ⟨_, List.mem_cons_self, inside_refl _⟩
  have hinit : listInit bump 8 4128 4096 2 8 listMemory = .ok EHD_OK (shortList 0) :=
    eq_ok_of_result (by decide)
  have hstart : Pushes bump EHD_DEFAULT_POOL_SIZE 4096 2 8 4128 (shortList 0) [] :=
    .init hhistory hspare ⟨8, fun fuel hfuel => listInit_below hfuel _ _ _ hinit⟩
  have hpush : ∀ {k slots slot}, Pushes bump EHD_DEFAULT_POOL_SIZE 4096 2 8 4128 (shortList k) slots →
      result (listPush bump 8 4128) (shortList k) = some (some slot) →
      Pushes bump EHD_DEFAULT_POOL_SIZE 4096 2 8 4128 (shortList (k + 1)) (slots ++ [slot]) := by
    intro k slots slot hbefore hresult
    apply hbefore.pushed
    exact ⟨8, fun fuel hfuel => listPush_below hfuel _ _ _ (eq_ok_of_result hresult)⟩
  have hone := hpush hstart (by decide : _ = some (some 4184))
  have htwo := hpush hone (by decide : _ = some (some 4192))
  have hthree := hpush htwo (by decide : _ = some (some 4224))
  exact (list_in_order (by decide) (by decide) (by decide) hthree).1

end

end Ehd.Palloc
