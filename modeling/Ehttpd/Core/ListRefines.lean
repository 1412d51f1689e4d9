import Ehttpd.Core.Buf
import Ehttpd.Core.ListRuns

namespace Ehd

namespace EList

variable {α : Type} {e e' : EList α} {cs cs' : List (List α)} {t t' : List α} {n : Nat}

/-- All nodes before the last are full, and the last one was made for an element. -/
structure Packed (e : EList α) : Prop where
  full : ∀ c ∈ e.full, c.length = e.ndata
  room : e.last.length ≤ e.ndata
  used : e.full ≠ [] → e.last ≠ []

theorem packed_init (n : Nat) : (init n : EList α).Packed := by
  refine ⟨fun c hc => ?_, Nat.zero_le n, fun h => absurd rfl h⟩
  cases hc

theorem Packed.push (h : e.Packed) (hn : 1 ≤ e.ndata) (x : α) : (e.push x).Packed := by
  have hroom := h.room
  unfold EList.push needsNode
  by_cases hfull : e.last.length = e.ndata
  · rw [if_pos (by simpa using hfull)]
    refine ⟨fun c hc => ?_, hn, fun _ => List.cons_ne_nil _ _⟩
    rcases List.mem_append.1 hc with hc | hc
    · exact h.full c hc
    · rw [List.mem_singleton.1 hc]
      exact hfull
  · rw [if_neg (by simpa using hfull)]
    refine ⟨h.full, ?_, fun _ => by simp⟩
    show (e.last ++ [x]).length ≤ e.ndata
    rw [List.length_append, List.length_singleton]
    omega

theorem ndata_push (e : EList α) (x : α) : (e.push x).ndata = e.ndata := by
  unfold EList.push
  split
  · rfl
  · rfl

theorem Packed.pushes (h : e.Packed) (hn : 1 ≤ e.ndata) (xs : List α) :
    (xs.foldl EList.push e).Packed ∧ (xs.foldl EList.push e).ndata = e.ndata ∧
      (xs.foldl EList.push e).entries = e.entries ++ xs := by
  induction xs generalizing e with
  | nil => exact ⟨h, rfl, (List.append_nil _).symm⟩
  | cons x xs ih =>
    have hndata := ndata_push e x
    obtain ⟨hpacked, hcount, hentries⟩ := ih (h.push hn x) (hndata ▸ hn)
    refine ⟨hpacked, hcount.trans hndata, hentries.trans ?_⟩
    rw [entries_push, List.append_assoc]
    rfl

/-- There is one way to cut a list into full nodes and a last one that is not empty. -/
theorem cut_unique (hcs : ∀ c ∈ cs, c.length = n) (hcs' : ∀ c ∈ cs', c.length = n)
    (ht : t.length ≤ n) (ht' : t'.length ≤ n) (hused : cs ≠ [] → t ≠ [])
    (hused' : cs' ≠ [] → t' ≠ []) (heq : cs.flatten ++ t = cs'.flatten ++ t') :
    cs = cs' ∧ t = t' := by
  -- a full node and an element more do not fit into a last node
  have hlong : ∀ {c s s' : List α} {ds : List (List α)}, c.length = n → s.length ≤ n → s' ≠ [] →
      s ≠ (c :: ds).flatten ++ s' := by
    intro c s s' ds hc hs hs' heq
    have hpos := List.length_pos_iff.2 hs'
    have hlength := congrArg List.length heq
    rw [List.flatten_cons, List.length_append, List.length_append] at hlength
    omega
  induction cs generalizing cs' with
  | nil =>
    cases cs' with
    | nil => exact ⟨rfl, heq⟩
    | cons c' cs' =>
      exact absurd heq (hlong (hcs' c' List.mem_cons_self) ht (hused' (List.cons_ne_nil _ _)))
  | cons c cs ih =>
    have hc := hcs c List.mem_cons_self
    have hlast : t ≠ [] := hused (List.cons_ne_nil _ _)
    cases cs' with
    | nil => exact absurd heq.symm (hlong hc ht' hlast)
    | cons c' cs' =>
      rw [List.flatten_cons, List.flatten_cons, List.append_assoc, List.append_assoc] at heq
      obtain ⟨rfl, hrest⟩ :=
        List.append_inj heq (hc.trans (hcs' c' List.mem_cons_self).symm)
      obtain ⟨rfl, rfl⟩ := ih (fun d hd => hcs d (List.mem_cons_of_mem _ hd))
        (fun d hd => hcs' d (List.mem_cons_of_mem _ hd)) (fun _ => hlast)
        (fun _ => hused' (List.cons_ne_nil _ _)) hrest
      exact ⟨rfl, rfl⟩

/-- So the elements say which list it is. -/
theorem Packed.eq_of_entries (h : e.Packed) (h' : e'.Packed) (hndata : e.ndata = e'.ndata)
    (hentries : e.entries = e'.entries) : e = e' := by
  have hfull : ∀ c ∈ e'.full, c.length = e.ndata := by
    rw [hndata]
    exact h'.full
  have hroom : e'.last.length ≤ e.ndata := by
    rw [hndata]
    exact h'.room
  obtain ⟨hcs, ht⟩ := cut_unique h.full hfull h.room hroom h.used h'.used hentries
  cases e
  cases e'
  cases hcs
  cases ht
  cases hndata
  rfl

end EList

namespace Palloc

open Program Region

variable {M : Malloc} {m m' : Memory} {psize pool n size l : Nat} {as slots : List Nat}

structure Represents (m : Memory) (l : Nat) (e : EList Nat) : Prop where
  full : ∃ front, Linked (fun a => (m.nodes a).next) (some (headOf l))
    (front ++ [(m.lists l).last]) ∧ front.map (nodeElements m (m.lists l).size) = e.full
  last : nodeElements m (m.lists l).size (m.lists l).last = e.last
  ndata : (m.lists l).ndata = e.ndata

def LastUsed (m : Memory) (l : Nat) : Prop :=
  (m.lists l).last ≠ headOf l → 0 < (m.nodes (m.lists l).last).ndata

theorem length_nodeElements (m : Memory) (size a : Nat) :
    (nodeElements m size a).length = (m.nodes a).ndata := by
  unfold nodeElements
  rw [List.length_map, List.length_range]

/-- What a list of the invariant holds. -/
theorem ListAt.represents (h : ListAt m pool n size l as slots) (hused : LastUsed m l) :
    ∃ e, Represents m l e ∧ e.Packed ∧ e.ndata = n ∧ e.entries = slots := by
  obtain ⟨front, has, hfront⟩ := h.full
  have hlinked := h.linked
  rw [has] at hlinked
  refine ⟨⟨front.map (nodeElements m size), nodeElements m size (m.lists l).last, n⟩,
    ⟨⟨front, hlinked, ?_⟩, ?_, h.count⟩, ⟨fun c hc => ?_, ?_, fun hne => ?_⟩, rfl, ?_⟩
  · rw [h.width]
  · rw [h.width]
  · obtain ⟨a, ha, rfl⟩ := List.mem_map.1 hc
    rw [length_nodeElements]
    exact hfront a ha
  · rw [length_nodeElements]
    exact h.room
  · -- the first node stands before the last
    have hlast : (m.lists l).last ≠ headOf l := by
      intro heq
      cases front with
      | nil => exact hne rfl
      | cons a front =>
        have hhead := Option.some.inj hlinked.1
        have hnodup := h.nodup
        rw [has, ← hhead, heq] at hnodup
        exact (List.nodup_cons.1 hnodup).1 (by simp)
    intro hnil
    have hlength := length_nodeElements m size (m.lists l).last
    rw [show nodeElements m size (m.lists l).last = [] from hnil] at hlength
    exact absurd (hused hlast) (by rw [← hlength]; decide)
  · rw [← h.slots, has, List.flatMap_append, List.flatMap_singleton]
    rfl

theorem listInit_last (fuel : Nat) : wp (listInit M fuel l pool n size)
    (fun rc m' => rc = EHD_OK → (m'.lists l).last = headOf l) (fun _ _ => True) m := by
  unfold listInit
  dsimp only
  rw [wp_bind, wp_onHeap]
  refine wp_any (fun data h => ?_) fun _ _ => trivial
  rw [wp_bind, wp_modify, wp_bind, wp_get, Memory.setNode_nodes, if_pos rfl]
  dsimp only
  cases data with
  | none =>
    rw [wp_pure]
    exact fun hrc => absurd hrc (by decide)
  | some d =>
    rw [wp_bind, wp_modify, wp_bind, wp_modify, wp_pure]
    intro _
    show (Function.update m.lists l _ l).last = headOf l
    rw [Function.update_self]

/-- What a push leaves of the last node: where it succeeds the node has an element, and where there
was room it has succeeded and asked the pool for nothing. -/
structure LastNode (m : Memory) (l : Nat) (res : Option Nat) (m' : Memory) : Prop where
  used : res ≠ none → 0 < (m'.nodes (m'.lists l).last).ndata
  room : (m.nodes (m.lists l).last).ndata ≠ (m.lists l).ndata → res ≠ none ∧ m'.heap = m.heap

theorem hung_empty (m : Memory) (l new d : Nat) : uint (((m.hung l new d).nodes new).ndata + 1) = 1 := by
  have hndata : ((m.hung l new d).nodes new).ndata = 0 := by
    unfold Memory.hung Memory.setList
    dsimp only
    rw [Memory.setNode_nodes, Memory.setNode_nodes]
    split
    · next heq =>
      rw [← heq, Memory.setNode_nodes, if_pos rfl]
    · rw [Memory.setNode_nodes, if_pos rfl]
  rw [hndata]
  rfl

theorem listPush_last (fuel : Nat) (h : ListAt m pool n size l as slots) (hlt : n < 2 ^ 32) :
    wp (listPush M fuel l) (LastNode m l) (fun _ _ => True) m := by
  have hroom := h.room
  unfold listPush
  rw [wp_bind, wp_get]
  dsimp only
  by_cases hfull : (m.nodes (m.lists l).last).ndata = (m.lists l).ndata
  · rw [if_pos hfull, wp_bind, wp_onHeap]
    refine wp_any (fun new h₁ => ?_) fun _ _ => trivial
    cases new with
    | none => exact ⟨fun hne => absurd rfl hne, fun hne => absurd hfull hne⟩
    | some new =>
      dsimp only
      rw [wp_bind, wp_get, wp_bind, wp_onHeap]
      refine wp_any (fun data h₂ => ?_) fun _ _ => trivial
      rw [wp_bind, wp_modify]
      cases data with
      | none => exact ⟨fun hne => absurd rfl hne, fun hne => absurd hfull hne⟩
      | some d =>
        dsimp only
        rw [wp_bind, wp_modify, wp_bind, wp_get, wp_bind, wp_modify, wp_bind, wp_modify]
        show wp _ _ _ (((m.setHeap h₁).setHeap h₂).hung l new d)
        generalize (m.setHeap h₁).setHeap h₂ = m₂
        unfold takeElement
        rw [wp_bind, wp_get]
        dsimp only
        rw [wp_bind, wp_modify, wp_pure]
        refine ⟨fun _ => ?_, fun hne => absurd hfull hne⟩
        -- the new node is the last, and it was empty
        show 0 < (((m₂.hung l new d).setNode new _).nodes ((m₂.hung l new d).lists l).last).ndata
        rw [Memory.hung_list, Memory.setNode_nodes, if_pos rfl]
        exact Nat.lt_of_lt_of_eq Nat.zero_lt_one (hung_empty m₂ l new d).symm
  · rw [if_neg hfull]
    unfold takeElement
    rw [wp_bind, wp_get]
    dsimp only
    rw [wp_bind, wp_modify, wp_pure]
    refine ⟨fun _ => ?_, fun _ => ⟨Option.some_ne_none _, rfl⟩⟩
    show 0 < ((m.setNode (m.lists l).last _).nodes (m.lists l).last).ndata
    rw [Memory.setNode_nodes, if_pos rfl]
    show 0 < uint ((m.nodes (m.lists l).last).ndata + 1)
    rw [h.count] at hfull
    unfold uint
    omega

theorem ListAt.length_slots (h : ListAt m pool n size l as slots) :
    slots.length = (as.length - 1) * n + (m.nodes (m.lists l).last).ndata := by
  obtain ⟨front, has, hfront⟩ := h.full
  have hlengths : front.map (fun a => (nodeElements m size a).length) = front.map fun _ => n := by
    apply List.map_congr_left
    intro a ha
    rw [length_nodeElements]
    exact hfront a ha
  rw [← h.slots, has, List.flatMap_append, List.flatMap_singleton, List.length_append,
    length_nodeElements, List.length_flatMap, hlengths]
  simp

theorem ListAt.lastUsed (h : ListAt m pool n size l as slots) (h' : ListAt m' pool n size l as slots)
    (hused : LastUsed m l) : LastUsed m' l := by
  have hlast : (m'.lists l).last = (m.lists l).last := by
    obtain ⟨front, has, -⟩ := h.full
    obtain ⟨front', has', -⟩ := h'.full
    exact (List.append_inj' (has'.symm.trans has) rfl).2 |> List.singleton_inj.1
  have hndata := h.length_slots.symm.trans h'.length_slots
  intro hne
  rw [hlast] at hne
  have hpos := hused hne
  omega

theorem Pushes.lastUsed (hsize : SIZEOF_POOL + SIZEOF_LARGE ≤ psize) (hn : 1 ≤ n) (hlt : n < 2 ^ 32)
    (hr : Pushes M psize pool n size l m slots) : LastUsed m l := by
  induction hr with
  | init _ _ hcall =>
    have hlast := hcall.post (k := 0) fun fuel _ => listInit_last fuel
    exact fun hne => absurd (hlast rfl) hne
  | pushed hbefore hcall _ =>
    obtain ⟨_, _, _, _, _, hinv⟩ := hbefore.inv hsize hn hlt
    have hlast := hcall.post (k := 0) fun fuel _ => listPush_last fuel hinv.list hlt
    exact fun _ => hlast.used (Option.some_ne_none _)
  | refused hbefore hcall ih =>
    obtain ⟨_, _, _, _, _, hinv⟩ := hbefore.inv hsize hn hlt
    cases (hinv.push hn hlt).2 _ _ hcall with
    | failed _ hlist _ _ => exact hinv.list.lastUsed hlist ih
  | asked _ _ ih => exact ih
  | elsewhere _ _ ih => exact ih
  | others hbefore hwrite ih =>
    obtain ⟨_, _, as, _, _, hinv⟩ := hbefore.inv hsize hn hlt
    unfold LastUsed
    rw [hwrite.list, hwrite.nodes as hinv.list.linked _ hinv.list.last_mem]
    exact ih

def pushedList (n : Nat) (slots : List Nat) : EList Nat := slots.foldl EList.push (EList.init n)

theorem Pushes.represents (hsize : SIZEOF_POOL + SIZEOF_LARGE ≤ psize) (hn : 1 ≤ n)
    (hlt : n < 2 ^ 32) (hr : Pushes M psize pool n size l m slots) :
    Represents m l (pushedList n slots) := by
  obtain ⟨_, _, _, _, _, hinv⟩ := hr.inv hsize hn hlt
  obtain ⟨e, hrep, hpacked, hndata, hentries⟩ := hinv.list.represents (hr.lastUsed hsize hn hlt)
  obtain ⟨hpushed, hcount, hslots⟩ := (EList.packed_init n : (EList.init n : EList Nat).Packed).pushes hn slots
  have heq : e = pushedList n slots := by
    apply hpacked.eq_of_entries hpushed
    · rw [hndata, hcount]
      rfl
    · rw [hentries, hslots]
      rfl
  rw [← heq]
  exact hrep

/-- In every run, whatever others do with the pool, the memory holds the list that `EList.push`
makes of the successful pushes.  The next push is `EList.push`, or it is refused and the list stays;
while the last node has room no push is refused, and none asks the pool for memory. -/
theorem list_refines (hsize : SIZEOF_POOL + SIZEOF_LARGE ≤ psize) (hn : 1 ≤ n) (hlt : n < 2 ^ 32)
    (hr : Pushes M psize pool n size l m slots) :
    Represents m l (pushedList n slots) ∧
      ∀ res m', Ends (fun fuel => listPush M fuel l) m res m' →
        Represents m' l (res.elim (pushedList n slots) (pushedList n slots).push) ∧
          ((pushedList n slots).needsNode = false → res ≠ none ∧ m'.heap = m.heap) := by
  have hrep := hr.represents hsize hn hlt
  refine ⟨hrep, fun res m' hcall => ⟨?_, fun hroom => ?_⟩⟩
  · cases res with
    | none => exact (hr.refused hcall).represents hsize hn hlt
    | some slot =>
      have hpushed := (hr.pushed hcall).represents hsize hn hlt
      unfold pushedList at hpushed
      rw [List.foldl_concat] at hpushed
      exact hpushed
  · obtain ⟨_, _, _, _, _, hinv⟩ := hr.inv hsize hn hlt
    have hlast := hcall.post (k := 0) fun fuel _ => listPush_last fuel hinv.list hlt
    apply hlast.room
    have hlength := congrArg List.length hrep.last
    rw [length_nodeElements] at hlength
    rw [hlength, hrep.ndata]
    simpa [EList.needsNode] using hroom

theorem shortList_init : Pushes bump EHD_DEFAULT_POOL_SIZE 4096 2 8 4128 (shortList 0) [] := by
  have hcreate : createPool bump EHD_DEFAULT_POOL_SIZE emptyHeap = .ok (some 4096) defaultPool :=
    eq_ok_of_result (by decide)
  have hcreated : History bump EHD_DEFAULT_POOL_SIZE defaultPool 4096 []
      [block EHD_DEFAULT_POOL_SIZE 4096] := by
    apply History.created List.Pairwise.nil _ hcreate rfl
    intro b hb
    cases hb
  have hcall : palloc bump 4 4096 SIZEOF_LIST defaultPool = .ok (some 4128) listPool :=
    eq_ok_of_result (by decide)
  have hgiven : Returns bump ⟨false, SIZEOF_LIST⟩ 4096 defaultPool (some 4128) listPool :=
    ⟨4, fun _ hfuel => palloc_below hfuel 4096 SIZEOF_LIST _ _ _ hcall⟩
  have hgot : listPool.blocks = defaultPool.blocks ++ [] := by decide
  have hhistory := hcreated.called hgiven hgot
  have htaken : (⟨false, SIZEOF_LIST⟩ : Request).taken [] (some 4128) = [listRegion 4128] := rfl
  have hheap : listMemory.heap = listPool := by rw [listMemory]
  rw [htaken, ← hheap] at hhistory
  have hinit : listInit bump 8 4128 4096 2 8 listMemory = .ok EHD_OK (shortList 0) :=
    eq_ok_of_result (by decide)
  exact .init hhistory (Or.inl ⟨_, List.mem_cons_self, inside_refl _⟩)
    ⟨8, fun _ hfuel => listInit_below hfuel _ _ _ hinit⟩

theorem shortList_push {k slot : Nat} {slots : List Nat}
    (hbefore : Pushes bump EHD_DEFAULT_POOL_SIZE 4096 2 8 4128 (shortList k) slots)
    (hresult : result (listPush bump 8 4128) (shortList k) = some (some slot)) :
    Pushes bump EHD_DEFAULT_POOL_SIZE 4096 2 8 4128 (shortList (k + 1)) (slots ++ [slot]) :=
  hbefore.pushed ⟨8, fun _ hfuel => listPush_below hfuel _ _ _ (eq_ok_of_result hresult)⟩

theorem list_refines_shortList : Represents (shortList 3) 4128 ⟨[[4184, 4192]], [4224], 2⟩ := by
  have hone := shortList_push shortList_init (by decide : _ = some (some 4184))
  have htwo := shortList_push hone (by decide : _ = some (some 4192))
  have hthree := shortList_push htwo (by decide : _ = some (some 4224))
  exact (list_refines (by decide) (by decide) (by decide) hthree).1

end Palloc

end Ehd
