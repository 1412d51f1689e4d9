import Ehttpd.Core.Containers
import Ehttpd.Core.PallocRuns

namespace Ehd.Palloc

open Program Region

abbrev listRegion (l : Nat) : Region := ⟨l, SIZEOF_LIST⟩
abbrev nodeRegion (a : Nat) : Region := ⟨a, SIZEOF_LIST_NODE⟩

abbrev headOf (l : Nat) : Nat := l + OFFSETOF_HEAD

theorem head_inside (l : Nat) : (nodeRegion (headOf l)).Inside (listRegion l) := by
  constructor
  · exact Nat.le_add_right l OFFSETOF_HEAD
  · show l + 8 + 24 ≤ l + 56
    omega

theorem not_inside_both {r s t : Region} (hpos : 0 < r.len) (hst : s.Apart t) (hs : r.Inside s) :
    ¬ r.Inside t := by
  intro ht
  have hself := hst.inside hs ht
  unfold Apart Region.stop at hself
  omega

@[simp] theorem wp_onHeap {α : Type} {x : Alloc α} {Q : α → Memory → Prop}
    {E : Halt → Memory → Prop} {m : Memory} : wp (onHeap x) Q E m ↔
      wp x (fun a h => Q a (m.setHeap h)) (fun _ h => E .rounds (m.setHeap h)) m.heap := by
  unfold wp onHeap
  cases x m.heap <;> rfl

theorem onHeap_below {α : Type} {x y : Alloc α} (hxy : Below x y) : Below (onHeap x) (onHeap y) := by
  intro m a m' hx
  unfold onHeap at hx ⊢
  cases hxm : x m.heap with
  | ok b h =>
    rw [hxm] at hx
    rw [hxy m.heap b h hxm]
    exact hx
  | error e h =>
    rw [hxm] at hx
    cases hx

namespace Memory

variable (m : Memory) {l new d : Nat}

theorem setNode_nodes (a b : Nat) (f : ListNode → ListNode) :
    (m.setNode a f).nodes b = if b = a then f (m.nodes a) else m.nodes b := by
  show Function.update m.nodes a (f (m.nodes a)) b = _
  rw [Function.update_apply]

def hung (m : Memory) (l new d : Nat) : Memory :=
  let node : Memory := (m.setNode new fun a => { a with data := some d }).setNode new fun a =>
    { a with ndata := 0, next := none }
  (node.setNode (m.lists l).last fun a => { a with next := some new }).setList l fun l =>
    { l with last := new }

theorem hung_nodes {a : Nat} (hne : new ≠ (m.lists l).last) : (m.hung l new d).nodes a =
    if a = new then ⟨some d, 0, none⟩
    else if a = (m.lists l).last then { m.nodes a with next := some new } else m.nodes a := by
  unfold hung setList
  dsimp only
  rw [setNode_nodes]
  by_cases hlast : a = (m.lists l).last
  · have ha : a ≠ new := fun heq => hne (heq ▸ hlast)
    rw [if_pos hlast, if_neg ha, if_pos hlast, ← hlast, setNode_nodes, if_neg ha, setNode_nodes,
      if_neg ha]
  · rw [if_neg hlast, if_neg hlast, setNode_nodes, setNode_nodes, if_pos rfl, setNode_nodes]
    by_cases ha : a = new
    · rw [if_pos ha, if_pos ha]
    · rw [if_neg ha, if_neg ha, if_neg ha]

theorem hung_list : (m.hung l new d).lists l = { m.lists l with last := new } := by
  unfold hung setList
  dsimp only
  rw [Function.update_self]
  rfl

end Memory

def nodeElements (m : Memory) (size a : Nat) : List Nat :=
  (List.range (m.nodes a).ndata).map (element (m.nodes a).data size)

/-- At `l` is a list with `n` elements of `size` bytes to a node: `as` are its nodes, and `slots`
the places of its elements. -/
structure ListAt (m : Memory) (pool n size l : Nat) (as slots : List Nat) : Prop where
  owner : (m.lists l).pool = pool
  count : (m.lists l).ndata = n
  width : (m.lists l).size = size
  linked : Linked (fun a => (m.nodes a).next) (some (headOf l)) as
  nodup : as.Nodup
  full : ∃ front, as = front ++ [(m.lists l).last] ∧ ∀ a ∈ front, (m.nodes a).ndata = n
  room : (m.nodes (m.lists l).last).ndata ≤ n
  data : ∀ a ∈ as, (m.nodes a).data ≠ none
  slots : as.flatMap (nodeElements m size) = slots

namespace ListAt

variable {m m' : Memory} {pool n size l : Nat} {as slots : List Nat}

theorem head_mem (h : ListAt m pool n size l as slots) : headOf l ∈ as := by
  have hlinked := h.linked
  cases as with
  | nil => cases hlinked
  | cons a as =>
    rw [Option.some.inj hlinked.1]
    exact List.mem_cons_self

theorem last_mem (h : ListAt m pool n size l as slots) : (m.lists l).last ∈ as := by
  obtain ⟨front, has, _⟩ := h.full
  rw [has]
  simp

theorem nodeElements_congr {a : Nat} (h : m'.nodes a = m.nodes a) :
    nodeElements m' size a = nodeElements m size a := by
  unfold nodeElements
  rw [h]

/-- Only the list and its nodes matter. -/
theorem congr (h : ListAt m pool n size l as slots) (hlist : m'.lists l = m.lists l)
    (hnodes : ∀ a ∈ as, m'.nodes a = m.nodes a) : ListAt m' pool n size l as slots where
  owner := by rw [hlist]; exact h.owner
  count := by rw [hlist]; exact h.count
  width := by rw [hlist]; exact h.width
  linked := h.linked.congr fun a ha => by rw [hnodes a ha]
  nodup := h.nodup
  full := by
    obtain ⟨front, has, hfront⟩ := h.full
    refine ⟨front, by rw [hlist]; exact has, ?_⟩
    intro a ha
    have hmem : a ∈ as := by
      rw [has]
      exact List.mem_append_left _ ha
    rw [hnodes a hmem]
    exact hfront a ha
  room := by
    rw [hlist, hnodes _ h.last_mem]
    exact h.room
  data := by
    intro a ha
    rw [hnodes a ha]
    exact h.data a ha
  slots := by
    rw [← h.slots]
    apply List.flatMap_congr
    intro a ha
    exact nodeElements_congr (hnodes a ha)

/-- A list without elements. -/
theorem empty {d : Nat} (hlist : m.lists l = ⟨headOf l, size, n, pool⟩)
    (hnode : m.nodes (headOf l) = ⟨some d, 0, none⟩) : ListAt m pool n size l [headOf l] [] := by
  refine ⟨?_, ?_, ?_, ⟨rfl, ?_⟩, by simp, ⟨[], ?_, nofun⟩, ?_, ?_, ?_⟩
  · rw [hlist]
  · rw [hlist]
  · rw [hlist]
  · show (m.nodes (headOf l)).next = none
    rw [hnode]
  · rw [hlist]
    rfl
  · rw [hlist, hnode]
    exact Nat.zero_le n
  · intro a ha
    rw [List.mem_singleton.1 ha, hnode]
    exact nofun
  · rw [List.flatMap_singleton]
    unfold nodeElements
    rw [hnode]
    rfl

/-- The loops of `test_list` find the elements, in the order of the nodes. -/
theorem traverse_eq (h : ListAt m pool n size l as slots) {fuel : Nat} (hfuel : as.length < fuel) :
    traverse m l fuel (some (headOf l)) = some slots := by
  have hrest : ∀ (rest : List Nat) (p : Option Nat) (fuel : Nat),
      Linked (fun a => (m.nodes a).next) p rest → rest.length < fuel →
        traverse m l fuel p = some (rest.flatMap (nodeElements m size)) := by
    intro rest
    induction rest with
    | nil =>
      intro p fuel hp hlt
      obtain ⟨fuel, rfl⟩ := Nat.exists_eq_succ_of_ne_zero (Nat.ne_of_gt hlt)
      rw [show p = none from hp]
      rfl
    | cons a rest ih =>
      intro p fuel hp hlt
      obtain ⟨fuel, rfl⟩ := Nat.exists_eq_succ_of_ne_zero (Nat.ne_of_gt (Nat.zero_lt_of_lt hlt))
      rw [List.length_cons] at hlt
      rw [hp.1]
      have hnext := ih (m.nodes a).next fuel hp.2 (by omega)
      unfold traverse
      dsimp only
      rw [hnext, h.width]
      rfl
  rw [hrest as _ fuel h.linked hfuel, h.slots]

/-- The next element of the last node. -/
theorem take (h : ListAt m pool n size l as slots) {last : Nat} (hlast : (m.lists l).last = last)
    (hroom : (m.nodes last).ndata < n) (hn : n < 2 ^ 32) :
    ListAt (m.setNode last fun a => { a with ndata := uint (a.ndata + 1) }) pool n size l as
      (slots ++ [element (m.nodes last).data size (m.nodes last).ndata]) := by
  subst hlast
  have huint : uint ((m.nodes (m.lists l).last).ndata + 1) = (m.nodes (m.lists l).last).ndata + 1 := by
    unfold uint
    omega
  obtain ⟨front, has, hfront⟩ := h.full
  have hnodup := h.nodup
  rw [has] at hnodup
  -- the last node stands once, so no full node is it
  have hne : ∀ a ∈ front, a ≠ (m.lists l).last := by
    intro a ha heq
    exact (List.nodup_append.1 hnodup).2.2 a ha _ List.mem_cons_self heq
  refine ⟨h.owner, h.count, h.width, ?_, h.nodup, ⟨front, has, ?_⟩, ?_, ?_, ?_⟩
  · apply h.linked.congr
    intro a _
    rw [Memory.setNode_nodes]
    split
    · next heq => rw [heq]
    · rfl
  · intro a ha
    rw [Memory.setNode_nodes, if_neg (hne a ha)]
    exact hfront a ha
  · show ((m.setNode (m.lists l).last _).nodes (m.lists l).last).ndata ≤ n
    rw [Memory.setNode_nodes, if_pos rfl]
    show uint _ ≤ n
    omega
  · intro a ha
    rw [Memory.setNode_nodes]
    split
    · next heq =>
      rw [heq] at ha
      exact h.data _ ha
    · exact h.data a ha
  · rw [← h.slots, has, List.flatMap_append, List.flatMap_append, List.append_assoc,
      List.flatMap_singleton, List.flatMap_singleton]
    -- only the last node has one element more
    congr 1
    · apply List.flatMap_congr
      intro a ha
      apply nodeElements_congr
      rw [Memory.setNode_nodes, if_neg (hne a ha)]
    · unfold nodeElements
      rw [Memory.setNode_nodes, if_pos rfl]
      dsimp only
      rw [huint, List.range_succ, List.map_append]
      rfl

/-- A new node behind the last one, which is full. -/
theorem hang (h : ListAt m pool n size l as slots) {new d : Nat} (hfresh : new ∉ as)
    (hfull : (m.nodes (m.lists l).last).ndata = n) :
    ListAt (m.hung l new d) pool n size l (as ++ [new]) slots := by
  have hne : new ≠ (m.lists l).last := fun heq => hfresh (heq ▸ h.last_mem)
  have hold : ∀ a ∈ as, (m.hung l new d).nodes a =
      if a = (m.lists l).last then { m.nodes a with next := some new } else m.nodes a := by
    intro a ha
    have hnew : a ≠ new := fun heq => hfresh (heq ▸ ha)
    rw [Memory.hung_nodes m hne, if_neg hnew]
  have hdata : ∀ a ∈ as, ((m.hung l new d).nodes a).data = (m.nodes a).data ∧
      ((m.hung l new d).nodes a).ndata = (m.nodes a).ndata := by
    intro a ha
    rw [hold a ha]
    split
    · exact ⟨rfl, rfl⟩
    · exact ⟨rfl, rfl⟩
  obtain ⟨front, has, hfront⟩ := h.full
  refine ⟨?_, ?_, ?_, ?_, ?_, ⟨as, ?_, ?_⟩, ?_, ?_, ?_⟩
  · rw [Memory.hung_list]
    exact h.owner
  · rw [Memory.hung_list]
    exact h.count
  · rw [Memory.hung_list]
    exact h.width
  -- the new node hangs behind the last one
  · have hlinked : Linked (Function.update (fun a => if a = new then none else (m.nodes a).next)
        (m.lists l).last (some new)) (some (headOf l)) (front ++ [(m.lists l).last, new]) := by
      apply Linked.concat
      · rw [← has]
        apply h.linked.congr
        intro a ha
        have hnew : a ≠ new := fun heq => hfresh (heq ▸ ha)
        rw [if_neg hnew]
      · rw [← has]
        exact h.nodup
      · rw [← has]
        exact hfresh
      · exact if_pos rfl
    rw [List.append_cons, ← has] at hlinked
    apply hlinked.congr
    intro a _
    rw [Memory.hung_nodes m hne, Function.update_apply]
    by_cases ha : a = new
    · rw [if_pos ha, ha, if_neg hne, if_pos rfl]
    · rw [if_neg ha, if_neg ha]
      by_cases hlast : a = (m.lists l).last
      · rw [if_pos hlast, if_pos hlast]
      · rw [if_neg hlast, if_neg hlast]
  · apply List.nodup_append.2
    refine ⟨h.nodup, by simp, ?_⟩
    intro a ha b hb heq
    rw [List.mem_singleton.1 hb] at heq
    exact hfresh (heq ▸ ha)
  · rw [Memory.hung_list]
  · intro a ha
    rw [(hdata a ha).2]
    rw [has] at ha
    rcases List.mem_append.1 ha with ha | ha
    · exact hfront a ha
    · rw [List.mem_singleton.1 ha]
      exact hfull
  · rw [Memory.hung_list, Memory.hung_nodes m hne, if_pos rfl]
    exact Nat.zero_le n
  · intro a ha
    rcases List.mem_append.1 ha with ha | ha
    · rw [(hdata a ha).1]
      exact h.data a ha
    · rw [List.mem_singleton.1 ha, Memory.hung_nodes m hne, if_pos rfl]
      exact nofun
  -- it holds no elements yet
  · have hnew : nodeElements (m.hung l new d) size new = [] := by
      unfold nodeElements
      rw [Memory.hung_nodes m hne, if_pos rfl]
      rfl
    rw [List.flatMap_append, List.flatMap_singleton, hnew, List.append_nil, ← h.slots]
    apply List.flatMap_congr
    intro a ha
    unfold nodeElements
    rw [(hdata a ha).1, (hdata a ha).2]

end ListAt

/-- Beside the heap, nothing has changed but the list at `l` and the nodes `as`. -/
structure Frame (m m' : Memory) (l : Nat) (as : List Nat) : Prop where
  lists : ∀ q, q ≠ l → m'.lists q = m.lists q
  nodes : ∀ a, a ∉ as → m'.nodes a = m.nodes a
  arrays : m'.arrays = m.arrays
  bytes : m'.bytes = m.bytes

namespace Frame

variable {m m' : Memory} {l : Nat} {as : List Nat}

theorem refl (m : Memory) (l : Nat) (as : List Nat) : Frame m m l as :=
  ⟨fun _ _ => rfl, fun _ _ => rfl, rfl, rfl⟩

theorem setHeap (h : Frame m m' l as) (heap : Heap) : Frame m (m'.setHeap heap) l as :=
  ⟨h.lists, h.nodes, h.arrays, h.bytes⟩

theorem setNode (h : Frame m m' l as) {a : Nat} (ha : a ∈ as) (f : ListNode → ListNode) :
    Frame m (m'.setNode a f) l as := by
  refine ⟨h.lists, ?_, h.arrays, h.bytes⟩
  intro b hb
  have hne : b ≠ a := fun heq => hb (heq ▸ ha)
  rw [Memory.setNode_nodes, if_neg hne]
  exact h.nodes b hb

theorem setList (h : Frame m m' l as) (f : ListHead → ListHead) : Frame m (m'.setList l f) l as := by
  refine ⟨?_, h.nodes, h.arrays, h.bytes⟩
  intro q hq
  have hlist : (m'.setList l f).lists q = m'.lists q := Function.update_of_ne hq _ _
  rw [hlist]
  exact h.lists q hq

theorem hung (h : Frame m m' l as) {new d : Nat} (hlast : (m'.lists l).last ∈ as) (hnew : new ∈ as) :
    Frame m (m'.hung l new d) l as := by
  unfold Memory.hung
  apply setList
  apply setNode _ hlast
  apply setNode _ hnew
  exact h.setNode hnew _

end Frame

/-- What `ehd_list_push` may leave behind: an element in the last node, or in a new node with
memory for it, or the list as it was. -/
inductive Pushed (psize pool n size l : Nat) (given : List Region) (as slots : List Nat)
    (m : Memory) : Option Nat → Memory → Prop
  | same {m' : Memory} {slot : Nat} (heap : m'.heap = m.heap)
      (list : ListAt m' pool n size l as (slots ++ [slot])) (frame : Frame m m' l as)
      (data : ∀ a ∈ as, (m'.nodes a).data = (m.nodes a).data) :
      Pushed psize pool n size l given as slots m (some slot) m'
  | grown {m' : Memory} {slot a d : Nat} {bs ls : List Nat} {nodes : List Region}
      (sound : Sound m'.heap pool psize bs ls (given ++ [nodeRegion a, ⟨d, size64 (n * size)⟩]) nodes)
      (list : ListAt m' pool n size l (as ++ [a]) (slots ++ [slot]))
      (frame : Frame m m' l (as ++ [a])) (new : (m'.nodes a).data = some d)
      (data : ∀ a ∈ as, (m'.nodes a).data = (m.nodes a).data) :
      Pushed psize pool n size l given as slots m (some slot) m'
  | failed {m' : Memory} {bs ls new : List Nat} {more nodes : List Region}
      (sound : Sound m'.heap pool psize bs ls (given ++ more) nodes)
      (list : ListAt m' pool n size l as slots) (frame : Frame m m' l new)
      (fresh : ∀ a ∈ new, nodeRegion a ∈ more) :
      Pushed psize pool n size l given as slots m none m'

section

variable {M : Malloc} {m : Memory} {psize pool n size l : Nat} {bs ls as slots : List Nat}
  {given nodes : List Region} {E : Halt → Memory → Prop}

theorem Sound.fresh_node {h : Heap} {a : Nat}
    (hs : Sound h pool psize bs ls (given ++ [nodeRegion a]) nodes)
    (hheld : ∀ b ∈ as, ∃ r ∈ given, (nodeRegion b).Inside r) : a ∉ as := by
  intro hmem
  obtain ⟨r, hr, hinside⟩ := hheld a hmem
  have hgiven := (List.pairwise_append.1 hs.apart).1
  have hapart := (List.pairwise_append.1 hgiven).2.2 r hr _ (List.mem_singleton_self _)
  exact not_inside_both (by decide : 0 < SIZEOF_LIST_NODE) hapart hinside (inside_refl _)

theorem takeElement_rule {Q : Option Nat → Memory → Prop} {last : Nat}
    (h : ListAt m pool n size l as slots)
    (hQ : Q (some (element (m.nodes last).data size (m.nodes last).ndata))
      (m.setNode last fun a => { a with ndata := uint (a.ndata + 1) })) :
    wp (takeElement l last) Q E m := by
  unfold takeElement
  rw [wp_bind, wp_get]
  dsimp only
  rw [wp_bind, wp_modify, wp_pure, h.width]
  exact hQ

/-- `ehd_list_push` ends, and does one of the three. -/
theorem listPush_rule {fuel : Nat} (hs : Sound m.heap pool psize bs ls given nodes)
    (h : ListAt m pool n size l as slots)
    (hheld : ∀ a ∈ as, ∃ r ∈ given, (nodeRegion a).Inside r) (hn : 1 ≤ n) (hlt : n < 2 ^ 32)
    (hfuel : bs.length + ls.length + 4 ≤ fuel) :
    wp (listPush M fuel l) (Pushed psize pool n size l given as slots m) E m := by
  have hroom := h.room
  unfold listPush
  rw [wp_bind, wp_get]
  dsimp only
  rw [h.count, h.owner]
  by_cases hfull : (m.nodes (m.lists l).last).ndata = n
  · rw [if_pos hfull, wp_bind, wp_onHeap]
    apply palloc_rule hs (by omega)
    · intro a h₁ bs₁ ls₁ nodes₁ _ _ hlength hs₁ _
      have hfresh : a ∉ as := hs₁.fresh_node hheld
      dsimp only
      rw [wp_bind, wp_get]
      show wp _ _ E _
      have hlist₁ : (m.setHeap h₁).lists l = m.lists l := rfl
      rw [hlist₁, h.count, h.width, h.owner, wp_bind, wp_onHeap]
      apply palloc_rule hs₁ (by omega)
      · intro d h₂ bs₂ ls₂ nodes₂ _ _ _ hs₂ _
        rw [wp_bind, wp_modify]
        dsimp only
        rw [wp_bind, wp_modify, wp_bind, wp_get, wp_bind, wp_modify, wp_bind, wp_modify]
        -- what has been stored so far
        show wp _ _ E ((m.setHeap h₂).hung l a d)
        have hheap : ListAt (m.setHeap h₂) pool n size l as slots := h.congr rfl fun _ _ => rfl
        have hhung := hheap.hang (d := d) hfresh hfull
        have hne : a ≠ ((m.setHeap h₂).lists l).last := fun heq => hfresh (heq ▸ h.last_mem)
        have hnode : ((m.setHeap h₂).hung l a d).nodes a = ⟨some d, 0, none⟩ := by
          rw [Memory.hung_nodes _ hne, if_pos rfl]
        have hlast : (((m.setHeap h₂).hung l a d).lists l).last = a := by rw [Memory.hung_list]
        have ha : a ∈ as ++ [a] := by simp
        have hframe := ((Frame.refl m l (as ++ [a])).setHeap h₂).hung (d := d)
          (List.mem_append_left _ h.last_mem) ha
        have hpos : (((m.setHeap h₂).hung l a d).nodes a).ndata < n := by
          rw [hnode]
          exact hn
        apply takeElement_rule hhung
        rw [List.append_assoc] at hs₂
        refine Pushed.grown (d := d) hs₂ (hhung.take hlast hpos hlt) (hframe.setNode ha _) ?_ ?_
        · rw [Memory.setNode_nodes, if_pos rfl, hnode]
        · intro b hb
          have hnew : b ≠ a := fun heq => hfresh (heq ▸ hb)
          rw [Memory.setNode_nodes, if_neg hnew, Memory.hung_nodes _ hne, if_neg hnew]
          split
          · rfl
          · rfl
      · intro h₂ hintact _
        rw [wp_bind, wp_modify]
        dsimp only
        rw [wp_pure]
        obtain ⟨bs₂, nodes₂, hs₂, _⟩ := hintact
        have ha : a ∈ [a] := List.mem_singleton_self a
        refine Pushed.failed hs₂ ?_ (((Frame.refl m l [a]).setHeap h₂).setNode ha _) ?_
        · refine h.congr rfl ?_
          intro b hb
          have hne : b ≠ a := fun heq => hfresh (heq ▸ hb)
          rw [Memory.setNode_nodes, if_neg hne]
          rfl
        · intro b hb
          rw [List.mem_singleton.1 hb]
          exact List.mem_singleton_self _
    · intro h₁ hintact _
      dsimp only
      rw [wp_pure]
      obtain ⟨bs₁, nodes₁, hs₁, _⟩ := hintact
      rw [← List.append_nil given] at hs₁
      exact Pushed.failed hs₁ (h.congr rfl fun _ _ => rfl) ((Frame.refl m l []).setHeap h₁) nofun
  · rw [if_neg hfull]
    have hlast : (m.nodes (m.lists l).last).ndata < n := by omega
    apply takeElement_rule h
    refine Pushed.same rfl (h.take rfl hlast hlt) ((Frame.refl m l as).setNode h.last_mem _) ?_
    intro a _
    rw [Memory.setNode_nodes]
    split
    · next heq => rw [heq]
    · rfl

/-- What `ehd_list_init` may leave behind: an empty list with memory for its first node, or not
even that. -/
inductive Made (psize pool n size l : Nat) (given : List Region) (m : Memory) :
    Int → Memory → Prop
  | ok {m' : Memory} {d : Nat} {bs ls : List Nat} {nodes : List Region}
      (sound : Sound m'.heap pool psize bs ls (given ++ [⟨d, size64 (n * size)⟩]) nodes)
      (list : ListAt m' pool n size l [headOf l] []) (frame : Frame m m' l [headOf l])
      (data : (m'.nodes (headOf l)).data = some d) : Made psize pool n size l given m EHD_OK m'
  | failed {m' : Memory} {bs ls : List Nat} {nodes : List Region}
      (sound : Sound m'.heap pool psize bs ls given nodes) (frame : Frame m m' l [headOf l]) :
      Made psize pool n size l given m EHD_ERROR m'

theorem listInit_rule {fuel : Nat} (hs : Sound m.heap pool psize bs ls given nodes)
    (hfuel : bs.length + ls.length + 2 ≤ fuel) :
    wp (listInit M fuel l pool n size) (Made psize pool n size l given m) E m := by
  have hhead : headOf l ∈ [headOf l] := List.mem_singleton_self _
  unfold listInit
  dsimp only
  rw [wp_bind, wp_onHeap]
  apply palloc_rule hs hfuel
  · intro d h₁ bs₁ ls₁ nodes₁ _ _ _ hs₁ _
    rw [wp_bind, wp_modify, wp_bind, wp_get, Memory.setNode_nodes, if_pos rfl]
    dsimp only
    rw [wp_bind, wp_modify, wp_bind, wp_modify, wp_pure]
    -- the node that stands in the list, when both stores are done
    have hnode : ∀ f : ListNode → ListNode, ∀ g : ListHead → ListHead,
        (((((m.setHeap h₁).setNode (headOf l) fun a => { a with data := some d }).setNode (headOf l)
          f).setList l g).nodes (headOf l)) = f { m.nodes (headOf l) with data := some d } := by
      intro f g
      show (((m.setHeap h₁).setNode (headOf l) _).setNode (headOf l) f).nodes (headOf l) = _
      rw [Memory.setNode_nodes, if_pos rfl, Memory.setNode_nodes, if_pos rfl]
      rfl
    apply Made.ok (d := d) hs₁
    · apply ListAt.empty
      · exact Function.update_self _ _ _
      · exact hnode _ _
    · apply Frame.setList
      apply Frame.setNode _ hhead
      apply Frame.setNode _ hhead
      exact (Frame.refl m l [headOf l]).setHeap h₁
    · rw [hnode]
  · intro h₁ hintact _
    rw [wp_bind, wp_modify, wp_bind, wp_get, Memory.setNode_nodes, if_pos rfl]
    dsimp only
    rw [wp_pure]
    obtain ⟨bs₁, nodes₁, hs₁, _⟩ := hintact
    apply Made.failed hs₁
    apply Frame.setNode _ hhead
    exact (Frame.refl m l [headOf l]).setHeap h₁

end

end Ehd.Palloc
