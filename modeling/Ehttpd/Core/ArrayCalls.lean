import Ehttpd.Core.ObjectCalls

namespace Ehd.Palloc

open Program Region

section

variable {M : Malloc} {m m' : Memory} {psize pool n size a : Nat} {bs ls : List Nat}
  {given nodes : List Region} {elems : List (List UInt8)} {w rest : List Object} {fuel : Nat}
  {E : Halt → Memory → Prop}

/-- `ehd_array_create` adds an array, where both of its requests are served. -/
theorem arrayCreate_rule (hinv : Inv m pool psize w bs ls) (hn : 1 ≤ n) (hsize : 1 ≤ size)
    (hfits : size * n < 2 ^ 64) (hfuel : bs.length + ls.length + 4 ≤ fuel) :
    wp (arrayCreate M fuel pool n size) (fun a m' => (m'.arrays a).data ≠ none →
      ∃ bs' ls', Inv m' pool psize (w ++ [.array a []]) bs' ls') (fun _ _ => True) m := by
  unfold arrayCreate
  rw [wp_bind, wp_onHeap]
  apply palloc_rule hinv.sound (by omega)
  · intro a h₁ bs₁ ls₁ nodes₁ _ _ hlength hs₁ _
    dsimp only
    rw [wp_bind, wp_onHeap]
    apply palloc_rule hs₁ (by omega)
    · intro d h₂ bs₂ ls₂ nodes₂ _ _ _ hs₂ _
      rw [wp_bind, wp_modify, wp_pure]
      intro _
      rw [size64_of_lt hfits, List.append_assoc] at hs₂
      refine ⟨bs₂, ls₂, ?_⟩
      -- only the descriptor is written, and both blocks are new
      have hchanges : Changes [arrayRegion a, ⟨d, size * n⟩] m
          (((m.setHeap h₁).setHeap h₂).setArray a fun _ => ⟨some d, size, n, 0, pool⟩) :=
        (((Changes.refl _ m).setHeap h₁).setHeap h₂).setArray List.mem_cons_self (inside_refl _) _
      apply Inv.put hinv.objects (Inv.others hinv.objects hs₂ hchanges) hs₂
      · apply List.Sublist.subperm
        show (solid [arrayRegion a, arrayData _ a]).Sublist _
        unfold arrayData
        rw [Memory.setArray_self]
        exact List.filter_sublist
      · show ArrayAt _ pool a []
        constructor
        · rw [Memory.setArray_self]
        · rw [Memory.setArray_self]
          exact hsize
        · rw [Memory.setArray_self]
          exact hn
        · rw [Memory.setArray_self]
          exact hfits
        · rw [Memory.setArray_self]
          rfl
        · exact Nat.zero_le _
        · intro i e he
          cases he
    · intro h₂ _ _
      rw [wp_bind, wp_modify, wp_pure]
      -- `data` is null when the second call found no room
      intro hdata
      exact absurd (by rw [Memory.setArray_self]) hdata
  · intro h₁ _ _
    dsimp only
    rw [wp_throw]
    trivial

theorem Inv.array (hinv : Inv m pool psize (rest ++ [.array a elems]) bs ls) :
    ArrayAt m pool a elems ∧ (∀ o ∈ rest, o.At m pool) ∧ Sound m.heap pool psize bs ls
      (solid (rest.flatMap (Object.storage m)) ++ [arrayRegion a, arrayData m a])
      (ls.map node) := by
  refine ⟨?_, ?_, ?_⟩
  · exact hinv.objects (.array a elems) (List.mem_append_right _ List.mem_cons_self)
  · intro o ho
    exact hinv.objects o (List.mem_append_left _ ho)
  · exact hinv.split (o := .array a elems) nofun

theorem ArrayAt.element_eq (h : ArrayAt m pool a elems) (hstop : (arrayData m a).stop < 2 ^ 64)
    {i : Nat} (hi : i ≤ (m.arrays a).nblock) :
    element (m.arrays a).data (m.arrays a).size i =
      (arrayData m a).start + (m.arrays a).size * i := by
  have hmul : (m.arrays a).size * i ≤ (m.arrays a).size * (m.arrays a).nblock :=
    Nat.mul_le_mul_left _ hi
  have hbound := h.bound
  have hend : (arrayData m a).stop =
      (arrayData m a).start + (m.arrays a).size * (m.arrays a).nblock := rfl
  unfold element
  rw [size64_of_lt (by omega)]
  show ((arrayData m a).start + _) % 2 ^ 64 = _
  exact Nat.mod_eq_of_lt (by omega)

/-- An array whose structure changes, and whose elements read as before. -/
theorem ArrayAt.moved (h : ArrayAt m pool a elems) {t : Table} (ht : m'.arrays a = t)
    (hpool : t.pool = pool) (hsize : t.size = (m.arrays a).size) (hndata : t.ndata = elems.length)
    (hnblock : (m.arrays a).nblock ≤ t.nblock) (hbound : t.size * t.nblock < 2 ^ 64)
    (hbytes : ∀ x, x < (m.arrays a).size * (m.arrays a).nblock →
      m'.bytes (t.data.getD 0 + x) = m.bytes ((arrayData m a).start + x)) :
    ArrayAt m' pool a elems := by
  have hwidth := h.width
  have hnonempty := h.nonempty
  subst ht
  refine ⟨hpool, by omega, by omega, hbound, hndata, h.room.trans hnblock, ?_⟩
  intro i e he
  have hi : i < elems.length := (List.getElem?_eq_some_iff.1 he).1
  have hmul : (m.arrays a).size * (i + 1) ≤ (m.arrays a).size * (m.arrays a).nblock :=
    Nat.mul_le_mul_left _ (hi.trans_le h.room)
  rw [Nat.mul_add, Nat.mul_one] at hmul
  rw [← h.holds i e he, hsize]
  apply Memory.read_congr
  intro j hj
  rw [Nat.add_assoc, Nat.add_assoc]
  apply hbytes
  omega

def Grown (m : Memory) (psize pool a : Nat) (rest : List Object) (elems : List (List UInt8))
    (res : Option Unit) (m' : Memory) : Prop :=
  res = some () → (m'.arrays a).size = (m.arrays a).size ∧
    elems.length < (m'.arrays a).nblock ∧
    ∃ bs' ls', Inv m' pool psize (rest ++ [.array a elems]) bs' ls'

/-- The array has got new memory, `own` beside that of the others. -/
theorem ArrayAt.grown {own : List Region} {t : Table} (h : ArrayAt m pool a elems)
    (hrest : ∀ o ∈ rest, o.At m pool) (ht : m'.arrays a = t) (hpool : t.pool = pool)
    (hsize : t.size = (m.arrays a).size) (hndata : t.ndata = elems.length)
    (hnblock : (m.arrays a).nblock < t.nblock) (hbound : t.size * t.nblock < 2 ^ 64)
    (hbytes : ∀ x, x < (m.arrays a).size * (m.arrays a).nblock →
      m'.bytes (t.data.getD 0 + x) = m.bytes ((arrayData m a).start + x))
    (hs : Sound m'.heap pool psize bs ls (solid (rest.flatMap (Object.storage m)) ++ own) nodes)
    (hown : [arrayRegion a, ⟨t.data.getD 0, t.size * t.nblock⟩].Subperm own)
    (hchanges : Changes own m m') : Grown m psize pool a rest elems (some ()) m' := by
  intro _
  have hat : ArrayAt m' pool a elems :=
    h.moved ht hpool hsize hndata (Nat.le_of_lt hnblock) hbound hbytes
  subst ht
  refine ⟨hsize, h.room.trans_lt hnblock, bs, ls, ?_⟩
  apply Inv.put hrest (Inv.others hrest hs hchanges) hs
  · exact List.filter_sublist.subperm.trans hown
  · exact hat

/-- The array is the last that lies in the first block, and takes the next bytes of the block. -/
theorem Inv.grownInPlace (hinv : Inv m pool psize (rest ++ [.array a elems]) bs ls)
    (hcount : elems.length + 1 < 2 ^ 31)
    (hfull : (m.arrays a).ndata = (m.arrays a).nblock)
    (hfits : 2 * (m.arrays a).size * (m.arrays a).nblock < 2 ^ 64)
    (hlast : (arrayData m a).start + (m.arrays a).size * (m.arrays a).nblock =
      (m.heap.pools pool).last)
    (hroom : (m.arrays a).size ≤
      uint (sub64 (m.heap.pools pool).stop (m.heap.pools pool).last)) :
    Grown m psize pool a rest elems (some ())
      ((m.setHeap (m.heap.setPool pool fun b =>
        { b with last := b.last + (m.arrays a).size })).setArray a fun t =>
          { t with nblock := uint (t.nblock + 1) }) := by
  obtain ⟨h, hrest, hs⟩ := hinv.array
  have hdata : arrayData m a ∈ solid (rest.flatMap (Object.storage m)) ++
      [arrayRegion a, arrayData m a] := by simp
  have hcounted := h.count
  have hwidth := h.width
  have hlen : (arrayData m a).len = (m.arrays a).size * (m.arrays a).nblock := rfl
  have hpos : 0 < (m.arrays a).size * (m.arrays a).nblock := Nat.mul_pos hwidth h.nonempty
  have hplaced := hs.placed _ (List.mem_append_left _ hdata)
  obtain ⟨hstart, hstop⟩ := hs.at_last hplaced hpos (Nat.le_refl _) hlast
  have htop := (hs.block pool hs.pool_mem).last
  have hleft : uint (sub64 (m.heap.pools pool).stop (m.heap.pools pool).last) ≤
      pool + psize - (m.heap.pools pool).last := by
    rw [hs.room_eq hs.pool_mem]
    exact Nat.mod_le _ _
  have htaken := hs.take hs.pool_mem (n := (m.arrays a).size) (by omega)
  have hsplit : ∀ S : List Region, ∀ x y z : Region, S ++ [x, y] ++ [z] = S ++ [x] ++ [y, z] := by
    intro S x y z
    simp
  rw [hsplit] at htaken
  -- what is taken starts where the array ends
  have hjoined := htaken.join hstop hpos hwidth hs.pool_mem hstart
    (Nat.le_of_eq (Heap.take_last_self _ _ _).symm)
  rw [List.append_assoc] at hjoined
  have huint : uint ((m.arrays a).nblock + 1) = (m.arrays a).nblock + 1 := by
    unfold uint
    omega
  have hmul : (m.arrays a).size * ((m.arrays a).nblock + 1) =
      (arrayData m a).len + (m.arrays a).size := by
    rw [Nat.mul_add, Nat.mul_one, hlen]
  have hsingle : (m.arrays a).size ≤ (m.arrays a).size * (m.arrays a).nblock :=
    Nat.le_mul_of_pos_right _ h.nonempty
  rw [Nat.mul_assoc] at hfits
  refine h.grown hrest (Memory.setArray_self _ _ _) h.owner rfl h.count ?_ ?_ (fun _ _ => rfl)
    hjoined ?_ ((((Changes.refl _ m).setHeap _).setArray List.mem_cons_self (inside_refl _) _))
  · show (m.arrays a).nblock < uint ((m.arrays a).nblock + 1)
    omega
  · show (m.arrays a).size * uint ((m.arrays a).nblock + 1) < 2 ^ 64
    rw [huint, hmul]
    omega
  · show [arrayRegion a, ⟨(m.arrays a).data.getD 0,
      (m.arrays a).size * uint ((m.arrays a).nblock + 1)⟩].Subperm _
    rw [huint, hmul]
    exact List.Subperm.refl _

/-- The elements of a full array are copied into a new place of twice the size. -/
theorem ArrayAt.grownMoved {new : Nat} {h₁ : Heap} (h : ArrayAt m pool a elems)
    (hrest : ∀ o ∈ rest, o.At m pool) (hcount : elems.length + 1 < 2 ^ 31)
    (hfull : (m.arrays a).ndata = (m.arrays a).nblock)
    (hfits : 2 * (m.arrays a).size * (m.arrays a).nblock < 2 ^ 64)
    (hs : Sound h₁ pool psize bs ls (solid (rest.flatMap (Object.storage m)) ++
      [arrayRegion a, arrayData m a, ⟨new, 2 * (m.arrays a).size * (m.arrays a).nblock⟩]) nodes) :
    Grown m psize pool a rest elems (some ()) (((m.setHeap h₁).memcpy new (arrayData m a).start
      (size64 ((m.arrays a).size * (m.arrays a).nblock))).setArray a fun t =>
        { t with data := some new, nblock := uint (t.nblock * 2) }) := by
  have hcounted := h.count
  rw [Nat.mul_assoc] at hfits hs
  have hcopied : size64 ((m.arrays a).size * (m.arrays a).nblock) =
      (m.arrays a).size * (m.arrays a).nblock := size64_of_lt (by omega)
  have huint : uint ((m.arrays a).nblock * 2) = (m.arrays a).nblock * 2 := by
    unfold uint
    omega
  have hmul : (m.arrays a).size * ((m.arrays a).nblock * 2) =
      2 * ((m.arrays a).size * (m.arrays a).nblock) := by
    rw [← Nat.mul_assoc, Nat.mul_comm]
  have hnew : (⟨new, 2 * ((m.arrays a).size * (m.arrays a).nblock)⟩ : Region) ∈
      [arrayRegion a, arrayData m a, ⟨new, 2 * ((m.arrays a).size * (m.arrays a).nblock)⟩] := by
    simp
  have hinside : Region.Inside ⟨new, (m.arrays a).size * (m.arrays a).nblock⟩
      ⟨new, 2 * ((m.arrays a).size * (m.arrays a).nblock)⟩ := by
    constructor
    · exact Nat.le_refl new
    · show new + (m.arrays a).size * (m.arrays a).nblock ≤
        new + 2 * ((m.arrays a).size * (m.arrays a).nblock)
      omega
  -- the copy does not touch the structure of the array
  have hstays : ((m.setHeap h₁).memcpy new (arrayData m a).start
      ((m.arrays a).size * (m.arrays a).nblock)).arrays a = m.arrays a := by
    apply if_pos
    have hgiven := (List.pairwise_append.1 hs.apart).1
    have hown := (List.pairwise_append.1 hgiven).2.1
    have hapart := (List.pairwise_cons.1 hown).1 _ (List.mem_cons_of_mem _ List.mem_cons_self)
    exact hapart.symm.inside hinside (inside_refl _)
  have hheap := hs.memset (List.mem_append_right _ hnew) hinside
  rw [hcopied]
  refine h.grown hrest (Memory.setArray_self _ _ _) ?_ ?_ ?_ ?_ ?_ ?_ hheap ?_
    ((((Changes.refl _ m).setHeap _).write hnew hinside _).setArray List.mem_cons_self
      (inside_refl _) _)
  · show (Memory.arrays _ a).pool = pool
    rw [hstays]
    exact h.owner
  · show (Memory.arrays _ a).size = _
    rw [hstays]
  · show (Memory.arrays _ a).ndata = _
    rw [hstays]
    exact h.count
  · show _ < uint ((Memory.arrays _ a).nblock * 2)
    have hnonempty := h.nonempty
    rw [hstays, huint]
    omega
  · show (Memory.arrays _ a).size * uint ((Memory.arrays _ a).nblock * 2) < 2 ^ 64
    rw [hstays, huint, hmul]
    exact hfits
  · intro x hx
    show (if new ≤ new + x ∧ new + x < new + (m.arrays a).size * (m.arrays a).nblock then
      m.bytes ((arrayData m a).start + (new + x - new)) else m.bytes (new + x)) = _
    rw [if_pos ⟨Nat.le_add_right _ _, Nat.add_lt_add_left hx _⟩, Nat.add_sub_cancel_left]
  · show [arrayRegion a, ⟨new, (Memory.arrays _ a).size *
      uint ((Memory.arrays _ a).nblock * 2)⟩].Subperm _
    rw [hstays, huint, hmul]
    apply List.Sublist.subperm
    apply List.Sublist.cons_cons
    exact List.sublist_cons_self _ _

theorem arrayGrow_rule (hinv : Inv m pool psize (rest ++ [.array a elems]) bs ls)
    (hfull : (m.arrays a).ndata = (m.arrays a).nblock) (hcount : elems.length + 1 < 2 ^ 31)
    (hfits : 2 * (m.arrays a).size * (m.arrays a).nblock < 2 ^ 64)
    (hfuel : bs.length + ls.length + 2 ≤ fuel) :
    wp (arrayGrow M fuel a) (Grown m psize pool a rest elems) E m := by
  obtain ⟨h, hrest, hs⟩ := hinv.array
  have hend := h.element_eq (hs.stop_lt (r := arrayData m a) (by simp)) (Nat.le_refl _)
  unfold arrayGrow
  rw [wp_bind, wp_get]
  dsimp only
  rw [wp_bind, wp_get, hfull, hend, h.owner]
  split
  · next hcond =>
    rw [wp_bind, wp_modify, wp_bind, wp_modify, wp_pure]
    exact hinv.grownInPlace hcount hfull hfits hcond.1 hcond.2
  · rw [wp_bind, wp_onHeap]
    apply palloc_rule hs hfuel
    · intro new h₁ bs₁ ls₁ nodes₁ _ _ _ hs₁ _
      dsimp only
      rw [wp_bind, wp_get, wp_bind, wp_modify, wp_bind, wp_modify, wp_pure]
      have hsingle : 2 * (m.arrays a).size ≤ 2 * (m.arrays a).size * (m.arrays a).nblock :=
        Nat.le_mul_of_pos_right _ h.nonempty
      rw [size64_of_lt (by omega : 2 * (m.arrays a).size < 2 ^ 64), size64_of_lt hfits,
        List.append_assoc] at hs₁
      exact h.grownMoved hrest hcount hfull hfits hs₁
    · intro h₁ _ _
      dsimp only
      rw [wp_pure]
      intro hnone
      cases hnone

/-- The next element is taken, and the caller stores `v` in it. -/
theorem Inv.stored {v : List UInt8} (hinv : Inv m pool psize (rest ++ [.array a elems]) bs ls)
    (hroom : elems.length < (m.arrays a).nblock) (hcount : elems.length + 1 < 2 ^ 31)
    (hv : v.length = (m.arrays a).size) :
    Inv ((m.setArray a fun t => { t with ndata := uint (t.ndata + 1) }).store
      (element (m.arrays a).data (m.arrays a).size (m.arrays a).ndata) v) pool psize
      (rest ++ [.array a (elems ++ [v])]) bs ls := by
  obtain ⟨h, hrest, hs⟩ := hinv.array
  have hown : arrayData m a ∈ [arrayRegion a, arrayData m a] := by simp
  have hcounted := h.count
  have hslot : element (m.arrays a).data (m.arrays a).size (m.arrays a).ndata =
      (arrayData m a).start + (m.arrays a).size * elems.length := by
    rw [hcounted]
    exact h.element_eq (hs.stop_lt (List.mem_append_right _ hown)) h.room
  rw [hslot]
  generalize hslot : (arrayData m a).start + (m.arrays a).size * elems.length = slot
  have hinside : Region.Inside ⟨slot, v.length⟩ (arrayData m a) := by
    rw [← hslot, hv]
    exact ArrayAt.element_inside hroom
  have huint : uint (elems.length + 1) = elems.length + 1 := by
    unfold uint
    omega
  -- the call writes the count and the new element, both inside the array's own blocks
  have hchanges : Changes [arrayRegion a, arrayData m a] m
      ((m.setArray a fun t => { t with ndata := uint (t.ndata + 1) }).store slot v) := by
    apply Changes.write _ hown hinside
    exact (Changes.refl _ m).setArray List.mem_cons_self (inside_refl _) _
  have hheap : Sound ((m.setArray a fun t => { t with ndata := uint (t.ndata + 1) }).store slot v).heap
      pool psize bs ls (solid (rest.flatMap (Object.storage m)) ++ [arrayRegion a, arrayData m a])
      (ls.map node) := hs.memset (List.mem_append_right _ hown) hinside
  have harray : ((m.setArray a fun t => { t with ndata := uint (t.ndata + 1) }).store slot v).arrays a =
      { m.arrays a with ndata := elems.length + 1 } := by
    -- the element is written beside the descriptor
    have hgiven := (List.pairwise_append.1 hs.apart).1
    have hapart := (List.pairwise_cons.1 (List.pairwise_append.1 hgiven).2.1).1 _
      List.mem_cons_self
    have hstays := hapart.symm.inside hinside (inside_refl _)
    apply (if_pos hstays).trans
    rw [Memory.setArray_self, hcounted, huint]
  have hbytes := Memory.store_bytes (m.setArray a fun t => { t with ndata := uint (t.ndata + 1) }) slot v
  have hread := Memory.read_store (m.setArray a fun t => { t with ndata := uint (t.ndata + 1) }) slot v
  generalize (m.setArray a fun t => { t with ndata := uint (t.ndata + 1) }).store slot v = m' at *
  have hdata : arrayData m' a = arrayData m a := by
    unfold arrayData
    rw [harray]
  apply Inv.put hrest (Inv.others hrest hs hchanges) hheap
  · show (solid [arrayRegion a, arrayData m' a]).Subperm _
    rw [hdata]
    exact List.filter_sublist.subperm
  · show ArrayAt m' pool a (elems ++ [v])
    refine ⟨by rw [harray]; exact h.owner, by rw [harray]; exact h.width,
      by rw [harray]; exact h.nonempty, by rw [harray]; exact h.bound, ?_, ?_, ?_⟩
    · rw [harray, List.length_append]
      rfl
    · rw [harray, List.length_append]
      exact hroom
    · intro i e he
      rw [hdata, harray]
      show Memory.read _ ((arrayData m a).start + (m.arrays a).size * i) (m.arrays a).size = e
      by_cases hi : i < elems.length
      · -- the elements before lie in front of the new one
        have hmul : (m.arrays a).size * (i + 1) ≤ (m.arrays a).size * elems.length :=
          Nat.mul_le_mul_left _ hi
        rw [Nat.mul_add, Nat.mul_one] at hmul
        rw [List.getElem?_append_left hi] at he
        rw [← h.holds i e he]
        apply Memory.read_congr
        intro j hj
        rw [hbytes, if_neg (by omega)]
        rfl
      -- the element just written
      · have hlast : i = elems.length := by
          have hlt := (List.getElem?_eq_some_iff.1 he).1
          rw [List.length_append, List.length_singleton] at hlt
          omega
        subst hlast
        rw [List.getElem?_concat_length] at he
        rw [← Option.some.inj he, hslot, ← hv]
        exact hread

/-- `ehd_array_push`, and the caller's store, change one array. -/
theorem arrayPush_object (hinv : Inv m pool psize (rest ++ [.array a elems]) bs ls)
    (hcount : elems.length + 1 < 2 ^ 31)
    (hfits : (m.arrays a).ndata = (m.arrays a).nblock →
      2 * (m.arrays a).size * (m.arrays a).nblock < 2 ^ 64)
    (hfuel : bs.length + ls.length + 2 ≤ fuel) :
    wp (arrayPush M fuel a) (fun res m' => ∀ slot, res = some slot →
      ∀ v : List UInt8, v.length = (m.arrays a).size → ∃ bs' ls',
        Inv (m'.store slot v) pool psize (rest ++ [.array a (elems ++ [v])]) bs' ls') E m := by
  obtain ⟨h, -, -⟩ := hinv.array
  have hroom := h.room
  have hcounted := h.count
  have hgrown : wp (if (m.arrays a).ndata = (m.arrays a).nblock then arrayGrow M fuel a
      else pure (some ())) (Grown m psize pool a rest elems) E m := by
    split
    · next hfull => exact arrayGrow_rule hinv hfull hcount (hfits hfull) hfuel
    · next hfull =>
      rw [wp_pure]
      intro _
      exact ⟨rfl, by omega, bs, ls, hinv⟩
  unfold arrayPush
  rw [wp_bind, wp_get]
  dsimp only
  rw [wp_bind]
  apply wp_mono hgrown _ fun _ _ he => he
  intro res m₁ hres
  cases res with
  | none =>
    rw [wp_pure]
    intro slot hslot
    cases hslot
  | some u =>
    obtain ⟨hsize, hlt, bs₁, ls₁, hinv₁⟩ := hres rfl
    dsimp only
    rw [wp_bind, wp_get, wp_bind, wp_modify, wp_pure]
    intro slot hslot v hv
    rw [← Option.some.inj hslot]
    exact ⟨bs₁, ls₁, hinv₁.stored hlt hcount (hv.trans hsize.symm)⟩

theorem arrayDestroy_eq (h : ArrayAt m pool a elems) (hdata : (arrayData m a).stop < 2 ^ 64)
    (harray : (arrayRegion a).stop < 2 ^ 64) :
    arrayDestroy a m = .ok () (m.setHeap (giveBack (giveBack m.heap pool (arrayData m a)
      ((m.arrays a).size * elems.length)) pool (arrayRegion a) SIZEOF_ARRAY)) := by
  have hend : element (m.arrays a).data (m.arrays a).size (m.arrays a).ndata =
      (arrayData m a).start + (m.arrays a).size * elems.length := by
    rw [h.count]
    exact h.element_eq hdata h.room
  have hheader : (a + SIZEOF_ARRAY) % 2 ^ 64 = a + SIZEOF_ARRAY := Nat.mod_eq_of_lt harray
  have hwp : wp (arrayDestroy a) (fun _ m' => m' = m.setHeap (giveBack (giveBack m.heap pool
      (arrayData m a) ((m.arrays a).size * elems.length)) pool (arrayRegion a) SIZEOF_ARRAY))
      (fun _ _ => False) m := by
    unfold arrayDestroy
    rw [wp_bind, wp_get]
    dsimp only
    rw [wp_bind, wp_get, hend, hheader, h.owner]
    unfold giveBack
    split
    · rw [wp_bind, wp_modify, wp_bind, wp_get]
      split
      · next hnext =>
        rw [wp_modify]
        exact congrArg m.setHeap (if_pos hnext).symm
      · next hnext =>
        rw [wp_pure]
        exact congrArg m.setHeap (if_neg hnext).symm
    · rw [wp_bind, wp_get]
      split
      · rw [wp_modify]
      · rw [wp_pure]
        rfl
  unfold wp at hwp
  cases hrun : arrayDestroy a m with
  | ok u m' =>
    rw [hrun] at hwp
    rw [hwp]
  | error e m' =>
    rw [hrun] at hwp
    cases hwp

/-- `ehd_array_destroy` takes one array away, and gives back what nothing else lives in. -/
theorem arrayDestroy_object (hinv : Inv m pool psize (rest ++ [.array a elems]) bs ls) :
    ∃ h', arrayDestroy a m = .ok () (m.setHeap h') ∧ Lowered m.heap h' pool ∧
      Inv (m.setHeap h') pool psize rest bs ls := by
  obtain ⟨h, hrest, hs⟩ := hinv.array
  have hsolid : ∀ s ∈ solid (rest.flatMap (Object.storage m)), 0 < s.len :=
    fun s hs => (mem_solid.1 hs).2
  have hheader : 0 < (arrayRegion a).len := (by decide : 0 < SIZEOF_ARRAY)
  have hlen : 0 < (arrayData m a).len := Nat.mul_pos h.width h.nonempty
  have hused : (m.arrays a).size * elems.length ≤ (arrayData m a).len :=
    Nat.mul_le_mul_left _ h.room
  have hdata := hs.stop_lt (r := arrayData m a) (by simp)
  have harray := hs.stop_lt (r := arrayRegion a) (by simp)
  have hsplit : solid (rest.flatMap (Object.storage m)) ++ [arrayRegion a, arrayData m a] =
      solid (rest.flatMap (Object.storage m)) ++ [arrayRegion a] ++ [arrayData m a] := by simp
  rw [hsplit] at hs
  -- first the elements, then the structure
  obtain ⟨hs₁, hlowered₁⟩ := hs.giveBack (k := (m.arrays a).size * elems.length) (by
    intro s hmem
    rcases List.mem_append.1 hmem with hmem | hmem
    · exact hsolid s hmem
    · rw [List.mem_singleton.1 hmem]
      exact hheader) hlen hused
  obtain ⟨hs₂, hlowered₂⟩ := hs₁.giveBack (k := SIZEOF_ARRAY) hsolid hheader (Nat.le_refl _)
  refine ⟨_, arrayDestroy_eq h hdata harray, hlowered₁.trans hlowered₂, hs₂, ?_⟩
  intro o ho
  have hat := hrest o ho
  apply hat.same
  exact hat.frame ((Changes.refl [] m).setHeap _) fun _ _ => nofun

end

end Ehd.Palloc
