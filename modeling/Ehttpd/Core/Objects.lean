import Ehttpd.Core.ListSound
import Ehttpd.Core.PallocTop
import Mathlib.Data.List.GetD

namespace Ehd.Palloc

open Program Region

abbrev arrayRegion (a : Nat) : Region := ⟨a, SIZEOF_ARRAY⟩

/-- The memory that a node of a list has for its elements, and that an array has. -/
def listData (m : Memory) (l a : Nat) : Region :=
  ⟨(m.nodes a).data.getD 0, (m.lists l).ndata * (m.lists l).size⟩

def arrayData (m : Memory) (a : Nat) : Region :=
  ⟨(m.arrays a).data.getD 0, (m.arrays a).size * (m.arrays a).nblock⟩

namespace Memory

variable (m : Memory) (a : Nat) (f : Table → Table)

@[simp] theorem setArray_self : (m.setArray a f).arrays a = f (m.arrays a) :=
  Function.update_self _ _ _

theorem setArray_other {b : Nat} (h : b ≠ a) : (m.setArray a f).arrays b = m.arrays b :=
  Function.update_of_ne h _ _

end Memory

/-- A plain allocation, a list with its nodes, or an array with what has been stored in its
elements. -/
inductive Object
  | plain (r : Region)
  | list (l : Nat) (as : List Nat)
  | array (a : Nat) (elems : List (List UInt8))

/-- The bytes of an object; the first node of a list stands in the list. -/
def Object.storage (m : Memory) : Object → List Region
  | .plain r => [r]
  | .list l as => listRegion l :: (as.tail.map nodeRegion ++ as.map (listData m l))
  | .array a _ => [arrayRegion a, arrayData m a]

def Memory.read (m : Memory) (start len : Nat) : List UInt8 :=
  (List.range len).map fun j => m.bytes (start + j)

def Memory.store (m : Memory) (slot : Nat) (v : List UInt8) : Memory :=
  m.write ⟨slot, v.length⟩ fun x => v.getD (x - slot) 0

theorem Memory.store_bytes (m : Memory) (slot : Nat) (v : List UInt8) (x : Nat) :
    (m.store slot v).bytes x =
      if slot ≤ x ∧ x < slot + v.length then v.getD (x - slot) 0 else m.bytes x := rfl

theorem Memory.read_store (m : Memory) (slot : Nat) (v : List UInt8) :
    (m.store slot v).read slot v.length = v := by
  unfold read
  apply List.ext_getElem
  · rw [List.length_map, List.length_range]
  · intro j hj hj'
    have hin : slot ≤ slot + j ∧ slot + j < slot + v.length :=
      ⟨Nat.le_add_right _ _, Nat.add_lt_add_left hj' _⟩
    rw [List.getElem_map, List.getElem_range, store_bytes, if_pos hin, Nat.add_sub_cancel_left,
      List.getD_eq_getElem _ _ hj']

structure ArrayAt (m : Memory) (pool a : Nat) (elems : List (List UInt8)) : Prop where
  owner : (m.arrays a).pool = pool
  width : 1 ≤ (m.arrays a).size
  nonempty : 1 ≤ (m.arrays a).nblock
  bound : (m.arrays a).size * (m.arrays a).nblock < 2 ^ 64
  count : (m.arrays a).ndata = elems.length
  room : elems.length ≤ (m.arrays a).nblock
  holds : ∀ i e, elems[i]? = some e →
    m.read ((arrayData m a).start + (m.arrays a).size * i) (m.arrays a).size = e

def Object.At (m : Memory) (pool : Nat) : Object → Prop
  | .plain _ => True
  | .list l as => ∃ n size slots, 1 ≤ n ∧ n < 2 ^ 32 ∧ 1 ≤ size ∧ n * size < 2 ^ 64 ∧
      ListAt m pool n size l as slots
  | .array a elems => ArrayAt m pool a elems

/-- What an object is stays: its structures, and the elements of an array. -/
def Object.Same (m m' : Memory) : Object → Prop
  | .plain _ => True
  | .list l as => m'.lists l = m.lists l ∧ ∀ a ∈ as, m'.nodes a = m.nodes a
  | .array a _ => m'.arrays a = m.arrays a ∧ ∀ x ∈ (arrayData m a).addresses, m'.bytes x = m.bytes x

section

variable {m m' m'' : Memory} {pool n size l a : Nat} {as slots : List Nat}
  {elems : List (List UInt8)} {o : Object}

theorem Object.storage_same (h : o.Same m m') : o.storage m' = o.storage m := by
  cases o with
  | plain r => rfl
  | list l as =>
    obtain ⟨hlist, hnodes⟩ := h
    have hdata : as.map (listData m' l) = as.map (listData m l) := by
      apply List.map_congr_left
      intro a ha
      unfold listData
      rw [hlist, hnodes a ha]
    show listRegion l :: (as.tail.map nodeRegion ++ as.map (listData m' l)) = _
    rw [hdata]
    rfl
  | array a elems =>
    show [arrayRegion a, arrayData m' a] = [arrayRegion a, arrayData m a]
    unfold arrayData
    rw [h.1]

theorem ArrayAt.element_inside {i : Nat} (hi : i < (m.arrays a).nblock) :
    Region.Inside ⟨(arrayData m a).start + (m.arrays a).size * i, (m.arrays a).size⟩
      (arrayData m a) := by
  have hmul : (m.arrays a).size * (i + 1) ≤ (m.arrays a).size * (m.arrays a).nblock :=
    Nat.mul_le_mul_left _ hi
  rw [Nat.mul_add, Nat.mul_one] at hmul
  constructor
  · exact Nat.le_add_right _ _
  · show (arrayData m a).start + (m.arrays a).size * i + (m.arrays a).size ≤
      (arrayData m a).start + (m.arrays a).size * (m.arrays a).nblock
    omega

theorem Memory.read_congr {start start' len : Nat}
    (h : ∀ j, j < len → m'.bytes (start' + j) = m.bytes (start + j)) :
    m'.read start' len = m.read start len := by
  unfold read
  apply List.map_congr_left
  intro j hj
  exact h j (List.mem_range.1 hj)

theorem Object.At.same (h : o.At m pool) (hsame : o.Same m m') : o.At m' pool := by
  cases o with
  | plain r => trivial
  | list l as =>
    obtain ⟨n, size, slots, hn, hlt, hsize, hmul, hlist⟩ := h
    exact ⟨n, size, slots, hn, hlt, hsize, hmul, hlist.congr hsame.1 hsame.2⟩
  | array a elems =>
    obtain ⟨harray, hbytes⟩ := hsame
    have hdata : arrayData m' a = arrayData m a := by
      unfold arrayData
      rw [harray]
    refine ⟨by rw [harray]; exact h.owner, by rw [harray]; exact h.width, by rw [harray]; exact h.nonempty,
      by rw [harray]; exact h.bound, by rw [harray]; exact h.count, by rw [harray]; exact h.room, ?_⟩
    intro i e he
    have hi : i < elems.length := (List.getElem?_eq_some_iff.1 he).1
    have hinside := ArrayAt.element_inside (hi.trans_le h.room)
    rw [hdata, harray, ← h.holds i e he]
    apply Memory.read_congr
    intro j hj
    apply hbytes
    apply hinside.subset
    exact ⟨Nat.le_add_right _ _, Nat.add_lt_add_left hj _⟩

/-- From `m` to `m'` nothing has been written but in the regions `own`, and on the heap. -/
structure Changes (own : List Region) (m m' : Memory) : Prop where
  lists : ∀ l, (∀ s ∈ own, s.Apart (listRegion l)) → m'.lists l = m.lists l
  nodes : ∀ a, (∀ s ∈ own, s.Apart (nodeRegion a)) → m'.nodes a = m.nodes a
  arrays : ∀ a, (∀ s ∈ own, s.Apart (arrayRegion a)) → m'.arrays a = m.arrays a
  bytes : ∀ x, (∀ s ∈ own, x ∉ s.addresses) → m'.bytes x = m.bytes x

namespace Changes

variable {own : List Region}

theorem refl (own : List Region) (m : Memory) : Changes own m m :=
  ⟨fun _ _ => rfl, fun _ _ => rfl, fun _ _ => rfl, fun _ _ => rfl⟩

theorem trans (h : Changes own m m') (h' : Changes own m' m'') : Changes own m m'' where
  lists l hl := (h'.lists l hl).trans (h.lists l hl)
  nodes a ha := (h'.nodes a ha).trans (h.nodes a ha)
  arrays a ha := (h'.arrays a ha).trans (h.arrays a ha)
  bytes x hx := (h'.bytes x hx).trans (h.bytes x hx)

theorem setHeap (h : Changes own m m') (heap : Heap) : Changes own m (m'.setHeap heap) :=
  ⟨h.lists, h.nodes, h.arrays, h.bytes⟩

theorem ne_of_apart {s r : Region} (hs : s ∈ own) (hr : r.Inside s) (hlen : 0 < r.len)
    (hapart : ∀ s ∈ own, s.Apart r) : False :=
  not_inside_both hlen (hapart s hs) hr (inside_refl r)

theorem setArray (h : Changes own m m') {s : Region} (hs : s ∈ own) (ha : (arrayRegion a).Inside s)
    (f : Table → Table) : Changes own m (m'.setArray a f) := by
  refine ⟨h.lists, h.nodes, ?_, h.bytes⟩
  intro b hb
  have hne : b ≠ a := by
    rintro rfl
    exact ne_of_apart hs ha (by decide : 0 < SIZEOF_ARRAY) hb
  rw [Memory.setArray_other m' a f hne]
  exact h.arrays b hb

/-- What `Frame` allows to change stands in these regions. -/
theorem ofFrame (h : Frame m m' l as) (hl : ∃ s ∈ own, (listRegion l).Inside s)
    (has : ∀ a ∈ as, ∃ s ∈ own, (nodeRegion a).Inside s) : Changes own m m' where
  lists := by
    intro q hq
    apply h.lists
    rintro rfl
    obtain ⟨s, hs, hinside⟩ := hl
    exact ne_of_apart hs hinside (by decide : 0 < SIZEOF_LIST) hq
  nodes := by
    intro a ha
    apply h.nodes
    intro hmem
    obtain ⟨s, hs, hinside⟩ := has a hmem
    exact ne_of_apart hs hinside (by decide : 0 < SIZEOF_LIST_NODE) ha
  arrays := by
    intro a _
    rw [h.arrays]
  bytes := by
    intro x _
    rw [h.bytes]

theorem write (h : Changes own m m') {r s : Region} (hs : s ∈ own) (hr : r.Inside s)
    (f : Nat → UInt8) : Changes own m (m'.write r f) where
  lists := by
    intro l hl
    have hapart := (hl s hs).inside hr (inside_refl _)
    exact (if_pos hapart).trans (h.lists l hl)
  nodes := by
    intro a ha
    have hapart := (ha s hs).inside hr (inside_refl _)
    exact (if_pos hapart).trans (h.nodes a ha)
  arrays := by
    intro a ha
    have hapart := (ha s hs).inside hr (inside_refl _)
    exact (if_pos hapart).trans (h.arrays a ha)
  bytes := by
    intro x hx
    have hnot : ¬ (r.start ≤ x ∧ x < r.stop) := fun hmem => hx s hs (hr.subset hmem)
    exact (if_neg hnot).trans (h.bytes x hx)

end Changes

theorem ListAt.node_stored (h : ListAt m pool n size l as slots) (ha : a ∈ as) :
    ∃ r ∈ (Object.list l as).storage m, (nodeRegion a).Inside r := by
  have hlinked := h.linked
  cases as with
  | nil => cases ha
  | cons b as =>
    obtain rfl : headOf l = b := Option.some.inj hlinked.1
    rcases List.mem_cons.1 ha with rfl | ha
    · exact ⟨listRegion l, List.mem_cons_self, head_inside l⟩
    · refine ⟨nodeRegion a, ?_, inside_refl _⟩
      apply List.mem_cons_of_mem
      exact List.mem_append_left _ (List.mem_map_of_mem ha)

/-- An object whose storage is apart from what a step writes stays as it is. -/
theorem Object.At.frame (h : o.At m pool) {own : List Region} (hchanges : Changes own m m')
    (hapart : ∀ r ∈ o.storage m, ∀ s ∈ own, s.Apart r) : o.Same m m' := by
  cases o with
  | plain r => trivial
  | list l as =>
    obtain ⟨n, size, slots, _, _, _, _, hlist⟩ := h
    constructor
    · exact hchanges.lists l fun s hs => hapart _ List.mem_cons_self s hs
    · intro a ha
      obtain ⟨r, hr, hinside⟩ := hlist.node_stored ha
      exact hchanges.nodes a fun s hs => (hapart r hr s hs).inside (inside_refl s) hinside
  | array a elems =>
    constructor
    · exact hchanges.arrays a fun s hs => hapart _ List.mem_cons_self s hs
    · intro x hx
      apply hchanges.bytes
      intro s hs hmem
      have hdata := hapart (arrayData m a) (List.mem_cons_of_mem _ List.mem_cons_self) s hs
      exact Set.disjoint_left.1 (apart_iff_disjoint.1 hdata) hmem hx

def solid (rs : List Region) : List Region := rs.filter fun r => 0 < r.len

theorem mem_solid {rs : List Region} {r : Region} : r ∈ solid rs ↔ r ∈ rs ∧ 0 < r.len := by
  unfold solid
  rw [List.mem_filter, decide_eq_true_eq]

theorem solid_append (rs ss : List Region) : solid (rs ++ ss) = solid rs ++ solid ss :=
  List.filter_append rs ss

theorem solid_of_pos {rs : List Region} (h : ∀ r ∈ rs, 0 < r.len) : solid rs = rs := by
  apply List.filter_eq_self.2
  intro r hr
  exact decide_eq_true (h r hr)

theorem pairwise_of_solid {rs : List Region} (h : (solid rs).Pairwise Apart) : rs.Pairwise Apart := by
  unfold solid at h
  rw [List.pairwise_filter] at h
  apply h.imp
  intro r s hrs
  by_cases hr : 0 < r.len
  · by_cases hs : 0 < s.len
    · exact hrs (decide_eq_true hr) (decide_eq_true hs)
    · exact Or.inr (Or.inl (by omega))
  · exact Or.inl (by omega)

/-- The structures and the elements of lists and arrays have bytes. -/
theorem Object.At.pos (h : o.At m pool) (hplain : ∀ r, o ≠ .plain r) :
    ∀ r ∈ o.storage m, 0 < r.len := by
  intro r hr
  cases o with
  | plain r => exact absurd rfl (hplain r)
  | list l as =>
    obtain ⟨n, size, slots, hn, _, hsize, _, hlist⟩ := h
    rcases List.mem_cons.1 hr with rfl | hr
    · exact (by decide : 0 < SIZEOF_LIST)
    · rcases List.mem_append.1 hr with hr | hr
      · obtain ⟨a, _, rfl⟩ := List.mem_map.1 hr
        exact (by decide : 0 < SIZEOF_LIST_NODE)
      · obtain ⟨a, _, rfl⟩ := List.mem_map.1 hr
        show 0 < (m.lists l).ndata * (m.lists l).size
        rw [hlist.count, hlist.width]
        exact Nat.mul_pos hn hsize
  | array a elems =>
    rcases List.mem_cons.1 hr with rfl | hr
    · exact (by decide : 0 < SIZEOF_ARRAY)
    · rw [List.mem_singleton.1 hr]
      exact Nat.mul_pos h.width h.nonempty

/-- All storage of the objects, apart from each other and from what the pool keeps. -/
structure Inv (m : Memory) (pool psize : Nat) (w : List Object) (bs ls : List Nat) : Prop where
  sound : Sound m.heap pool psize bs ls (solid (w.flatMap (Object.storage m))) (ls.map node)
  objects : ∀ o ∈ w, o.At m pool

namespace Inv

variable {psize : Nat} {w w' rest : List Object} {bs ls : List Nat}

theorem perm (h : Inv m pool psize w bs ls) (hperm : w'.Perm w) : Inv m pool psize w' bs ls := by
  constructor
  · have hstorage := (hperm.flatMap_right (Object.storage m)).filter fun r => decide (0 < r.len)
    have hs := h.sound.restrict hstorage.subperm
    exact hs
  · intro o ho
    exact h.objects o (hperm.subset ho)

theorem split (h : Inv m pool psize (rest ++ [o]) bs ls) (hplain : ∀ r, o ≠ .plain r) :
    Sound m.heap pool psize bs ls (solid (rest.flatMap (Object.storage m)) ++ o.storage m)
      (ls.map node) := by
  have hs := h.sound
  have ho := h.objects o (List.mem_append_right _ List.mem_cons_self)
  rw [List.flatMap_append, List.flatMap_singleton, solid_append, solid_of_pos (ho.pos hplain)] at hs
  exact hs

/-- The others stay, and one object has new storage. -/
theorem put {own nodes : List Region} (hrest : ∀ o ∈ rest, o.At m pool)
    (hsame : ∀ o ∈ rest, o.Same m m')
    (hs : Sound m'.heap pool psize bs ls (solid (rest.flatMap (Object.storage m)) ++ own) nodes)
    (hown : (solid (o.storage m')).Subperm own) (ho : o.At m' pool) :
    Inv m' pool psize (rest ++ [o]) bs ls := by
  have hstorage : rest.flatMap (Object.storage m') = rest.flatMap (Object.storage m) := by
    apply List.flatMap_congr
    intro o ho
    exact Object.storage_same (hsame o ho)
  constructor
  · rw [List.flatMap_append, List.flatMap_singleton, solid_append, hstorage]
    exact hs.restrict ((List.subperm_append_left _).2 hown)
  · intro o' ho'
    rcases List.mem_append.1 ho' with ho' | ho'
    · exact (hrest o' ho').same (hsame o' ho')
    · rw [List.mem_singleton.1 ho']
      exact ho

/-- What is written into the storage of one object, or into memory that none has, leaves the
others as they are. -/
theorem others {own nodes : List Region} {h : Heap} (hrest : ∀ o ∈ rest, o.At m pool)
    (hs : Sound h pool psize bs ls (solid (rest.flatMap (Object.storage m)) ++ own) nodes)
    (hchanges : Changes own m m') : ∀ o ∈ rest, o.Same m m' := by
  intro o ho
  apply (hrest o ho).frame hchanges
  intro r hr s hown
  by_cases hlen : 0 < r.len
  · have hmem : r ∈ solid (rest.flatMap (Object.storage m)) :=
      mem_solid.2 ⟨List.mem_flatMap.2 ⟨o, ho, hr⟩, hlen⟩
    have hgiven := (List.pairwise_append.1 hs.apart).1
    exact ((List.pairwise_append.1 hgiven).2.2 r hmem s hown).symm
  · exact Or.inr (Or.inl (by omega))

end Inv

end

end Ehd.Palloc
