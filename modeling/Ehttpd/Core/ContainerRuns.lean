import Ehttpd.Core.ArrayCalls
import Ehttpd.Core.ListRuns

namespace Ehd.Palloc

open Program Region

inductive Call
  | palloc (n : Nat)
  | listCreate (n size : Nat)
  | listPush (l : Nat)
  | arrayCreate (n size : Nat)
  | arrayPush (a : Nat) (v : List UInt8)
  | arrayDestroy (a : Nat)
  | write

def Fits (m : Memory) : Call → Prop
  | .listCreate n size => n * size < 2 ^ 64
  | .arrayCreate n size => size * n < 2 ^ 64
  | .arrayPush a _ => (m.arrays a).ndata = (m.arrays a).nblock →
      2 * (m.arrays a).size * (m.arrays a).nblock < 2 ^ 64
  | _ => True

/-- Callers write into plain allocations and elements of lists, and what nobody has may change;
what the pool keeps for itself, the structures and the elements of arrays stay. -/
structure Harmless (pool : Nat) (w : List Object) (m m' : Memory) : Prop where
  blocks : m'.heap.blocks = m.heap.blocks
  pools : ∀ bs ls, Lists m.heap pool bs ls → ∀ p ∈ bs, m'.heap.pools p = m.heap.pools p
  larges : ∀ bs ls, Lists m.heap pool bs ls → ∀ q ∈ ls, m'.heap.larges q = m.heap.larges q
  objects : ∀ o ∈ w, o.Same m m'

/-- A call in which `malloc` does not fail, and the objects that live then.  What a push gives
to its caller is written by the caller. -/
inductive Step (M : Malloc) (pool : Nat) : Memory → List Object → Call → Memory → List Object → Prop
  | palloc {m : Memory} {w : List Object} {n a : Nat} {h : Heap}
      (call : Returns M ⟨false, n⟩ pool m.heap (some a) h) :
      Step M pool m w (.palloc n) (m.setHeap h) (w ++ [.plain ⟨a, n⟩])
  | listCreate {m m' : Memory} {w : List Object} {n size l : Nat} {as : List Nat} (nonempty : 1 ≤ n)
      (counted : n < 2 ^ 32) (wide : 1 ≤ size)
      (call : Ends (fun fuel => listCreate M fuel pool n size) m (some l) m')
      (nodes : Linked (fun a => (m'.nodes a).next) (headOf l) as) :
      Step M pool m w (.listCreate n size) m' (w ++ [.list l as])
  | listPush {m m' : Memory} {front back : List Object} {l slot : Nat} {as as' : List Nat}
      (call : Ends (fun fuel => listPush M fuel l) m (some slot) m')
      (nodes : Linked (fun a => (m'.nodes a).next) (headOf l) as') :
      Step M pool m (front ++ .list l as :: back) (.listPush l) m' (front ++ .list l as' :: back)
  | arrayCreate {m m' : Memory} {w : List Object} {n size a : Nat} (nonempty : 1 ≤ n)
      (counted : n < 2 ^ 32) (wide : 1 ≤ size)
      (call : Ends (fun fuel => arrayCreate M fuel pool n size) m a m')
      (served : (m'.arrays a).data ≠ none) :
      Step M pool m w (.arrayCreate n size) m' (w ++ [.array a []])
  | arrayPush {m m' : Memory} {front back : List Object} {a slot : Nat}
      {elems : List (List UInt8)} {v : List UInt8} (few : elems.length + 1 < 2 ^ 31)
      (width : v.length = (m.arrays a).size)
      (call : Ends (fun fuel => arrayPush M fuel a) m (some slot) m') :
      Step M pool m (front ++ .array a elems :: back) (.arrayPush a v) (m'.store slot v)
        (front ++ .array a (elems ++ [v]) :: back)
  | arrayDestroy {m m' : Memory} {front back : List Object} {a : Nat} {elems : List (List UInt8)}
      (call : arrayDestroy a m = .ok () m') :
      Step M pool m (front ++ .array a elems :: back) (.arrayDestroy a) m' (front ++ back)
  | write {m m' : Memory} {w : List Object} (write : Harmless pool w m m') :
      Step M pool m w .write m' w

/-- The runs on a pool with blocks of `psize` bytes whose steps are all as `ok` wants them. -/
inductive Lives (M : Malloc) (psize : Nat) (ok : Memory → Call → Prop) :
    Nat → Memory → List Object → Prop
  | created {m : Memory} {h : Heap} {pool : Nat} (apart : m.heap.blocks.Pairwise Apart)
      (bounded : ∀ b ∈ m.heap.blocks, b.stop < 2 ^ 64)
      (call : createPool M psize m.heap = .ok (some pool) h) :
      Lives M psize ok pool (m.setHeap h) []
  | step {pool : Nat} {m m' : Memory} {w w' : List Object} {c : Call}
      (before : Lives M psize ok pool m w) (fits : ok m c) (step : Step M pool m w c m' w') :
      Lives M psize ok pool m' w'
  | elsewhere {pool n : Nat} {m : Memory} {w : List Object} {res : Option Nat} {h : Heap}
      (before : Lives M psize ok pool m w) (call : malloc M n m.heap = .ok res h) :
      Lives M psize ok pool (m.setHeap h) w

/-- What the containers of one pool may rely on: their storage is apart, an array holds what was
stored in it, and `ehd_array_destroy` gives back no byte that another object has. -/
structure Separate (pool : Nat) (m : Memory) (w : List Object) : Prop where
  apart : (w.flatMap (Object.storage m)).Pairwise Apart
  lists : ∀ l as, .list l as ∈ w → Linked (fun a => (m.nodes a).next) (some (headOf l)) as
  arrays : ∀ a elems, .array a elems ∈ w → (m.arrays a).ndata = elems.length ∧
    (m.arrays a).ndata ≤ (m.arrays a).nblock ∧ ∀ i e, elems[i]? = some e →
      m.read (element (m.arrays a).data (m.arrays a).size i) (m.arrays a).size = e
  destroy : ∀ front a elems back, w = front ++ .array a elems :: back →
    ∃ h, arrayDestroy a m = .ok () (m.setHeap h) ∧ Lowered m.heap h pool ∧
      ∀ o ∈ front ++ back, ∀ r ∈ o.storage m,
        Apart ⟨(h.pools pool).last, (m.heap.pools pool).last - (h.pools pool).last⟩ r

section

variable {M : Malloc} {m m' : Memory} {psize pool : Nat} {bs ls : List Nat}
  {w w' front back : List Object} {o : Object} {c : Call}

theorem move_last (front back : List Object) (o : Object) :
    (front ++ back ++ [o]).Perm (front ++ o :: back) := by
  have hmiddle : (front ++ o :: back).Perm (o :: (front ++ back)) := List.perm_middle
  exact (List.perm_append_singleton o (front ++ back)).trans hmiddle.symm

theorem Inv.last (h : Inv m pool psize (front ++ o :: back) bs ls) :
    Inv m pool psize (front ++ back ++ [o]) bs ls := h.perm (move_last front back o)

theorem Inv.middle (h : Inv m pool psize (front ++ back ++ [o]) bs ls) :
    Inv m pool psize (front ++ o :: back) bs ls := h.perm (move_last front back o).symm

/-- Every step keeps the invariant. -/
theorem Inv.step (hinv : Inv m pool psize w bs ls) (hfits : Fits m c)
    (hstep : Step M pool m w c m' w') : ∃ bs' ls', Inv m' pool psize w' bs' ls' := by
  cases hstep with
  | palloc hcall =>
    obtain ⟨bs', ls', nodes, _, _, hs⟩ := (returns_outcome hinv.sound hcall).1
    refine ⟨bs', ls', ?_⟩
    refine Inv.put hinv.objects ?_ hs List.filter_sublist.subperm trivial
    intro o ho
    exact (hinv.objects o ho).frame ((Changes.refl [] m).setHeap _) fun _ _ => nofun
  | @listCreate _ _ _ _ l _ hn hlt hsize hcall hnodes =>
    have hpost := hcall.post (E := fun _ _ => False) fun fuel hfuel =>
      listCreate_rule hinv hn hlt hsize hfits hfuel
    obtain ⟨bs', ls', hinv'⟩ := hpost l rfl
    have hmem : Object.list l [headOf l] ∈ w ++ [.list l [headOf l]] :=
      List.mem_append_right _ List.mem_cons_self
    obtain ⟨_, _, _, _, _, _, _, hlist⟩ := hinv'.objects _ hmem
    -- the nodes the step names are the nodes of the list
    rw [hlist.linked.unique hnodes] at hinv'
    exact ⟨bs', ls', hinv'⟩
  | listPush hcall hnodes =>
    have hpost := hcall.post (E := fun _ _ => False) fun fuel hfuel =>
      listPush_object hinv.last hfuel
    obtain ⟨bs', ls', as'', hlinked, hinv'⟩ := hpost _ rfl
    rw [hlinked.unique hnodes] at hinv'
    exact ⟨bs', ls', hinv'.middle⟩
  | arrayCreate hn _ hsize hcall hserved =>
    have hpost := hcall.post fun fuel hfuel => arrayCreate_rule hinv hn hsize hfits hfuel
    exact hpost hserved
  | arrayPush hfew hwidth hcall =>
    have hpost := hcall.post (E := fun _ _ => False) fun fuel hfuel =>
      arrayPush_object hinv.last hfew hfits hfuel
    obtain ⟨bs', ls', hinv'⟩ := hpost _ rfl _ hwidth
    exact ⟨bs', ls', hinv'.middle⟩
  | arrayDestroy hcall =>
    obtain ⟨h', hrun, _, hinv'⟩ := arrayDestroy_object hinv.last
    rw [hrun] at hcall
    cases hcall
    exact ⟨bs, ls, hinv'⟩
  | write hwrite =>
    refine ⟨bs, ls, ?_, ?_⟩
    -- an element written changes no descriptor, so the storage is the same
    · have hstorage : w.flatMap (Object.storage m') = w.flatMap (Object.storage m) := by
        apply List.flatMap_congr
        intro o ho
        exact Object.storage_same (hwrite.objects o ho)
      rw [hstorage]
      have hlists := hinv.sound.lists
      exact hinv.sound.congr hwrite.blocks (hwrite.pools bs ls hlists) (hwrite.larges bs ls hlists)
    · intro o ho
      exact (hinv.objects o ho).same (hwrite.objects o ho)

/-- The invariant holds in every state of every run whose sizes fit. -/
theorem Lives.inv (hsize : SIZEOF_POOL + SIZEOF_LARGE ≤ psize) (hr : Lives M psize Fits pool m w) :
    ∃ bs ls, Inv m pool psize w bs ls := by
  induction hr with
  | created happart hbounded hcall =>
    exact ⟨_, _, createPool_sound hsize happart hbounded hcall, nofun⟩
  | step _ hfits hstep ih =>
    obtain ⟨bs, ls, hinv⟩ := ih
    exact hinv.step hfits hstep
  | @elsewhere pool n m w res h _ hcall ih =>
    obtain ⟨bs, ls, hinv⟩ := ih
    have hsame : ∀ o ∈ w, o.Same m (m.setHeap h) := fun o ho =>
      (hinv.objects o ho).frame ((Changes.refl [] m).setHeap h) fun _ _ => nofun
    have hstorage : w.flatMap (Object.storage (m.setHeap h)) = w.flatMap (Object.storage m) := by
      apply List.flatMap_congr
      intro o ho
      exact Object.storage_same (hsame o ho)
    refine ⟨bs, ls, ?_, fun o ho => (hinv.objects o ho).same (hsame o ho)⟩
    rw [hstorage]
    exact hinv.sound.elsewhere hcall

theorem Inv.separate (hinv : Inv m pool psize w bs ls) : Separate pool m w where
  apart := pairwise_of_solid (List.pairwise_append.1 hinv.sound.apart).1
  lists := by
    intro l as hmem
    obtain ⟨_, _, _, _, _, _, _, hlist⟩ := hinv.objects _ hmem
    exact hlist.linked
  arrays := by
    intro a elems hmem
    have h : ArrayAt m pool a elems := hinv.objects _ hmem
    have hroom := h.room
    have hcount := h.count
    refine ⟨hcount, by omega, ?_⟩
    intro i e he
    have hi : i < elems.length := (List.getElem?_eq_some_iff.1 he).1
    have hstored : arrayData m a ∈ solid (w.flatMap (Object.storage m)) := by
      apply mem_solid.2
      constructor
      · exact List.mem_flatMap.2 ⟨_, hmem, List.mem_cons_of_mem _ List.mem_cons_self⟩
      · exact Nat.mul_pos h.width h.nonempty
    rw [h.element_eq (hinv.sound.stop_lt hstored) (by omega)]
    exact h.holds i e he
  destroy := by
    intro front a elems back hw
    subst hw
    obtain ⟨h', hrun, hlowered, hinv'⟩ := arrayDestroy_object hinv.last
    refine ⟨h', hrun, hlowered, ?_⟩
    intro o ho r hr
    by_cases hlen : 0 < r.len
    · -- what is behind the new `last` is free
      have hblock := (hinv.sound.block pool hinv.sound.pool_mem).last
      have hmem : r ∈ solid ((front ++ back).flatMap (Object.storage (m.setHeap h'))) := by
        apply mem_solid.2
        refine ⟨List.mem_flatMap.2 ⟨o, ho, ?_⟩, hlen⟩
        have hsame : o.Same m (m.setHeap h') := by
          have hold : o ∈ front ++ .array a elems :: back := by
            apply (move_last front back _).subset
            exact List.mem_append_left _ ho
          exact (hinv.objects o hold).frame ((Changes.refl [] m).setHeap h') fun _ _ => nofun
        rw [Object.storage_same hsame]
        exact hr
      have hdown := hlowered.last
      have hroom : (h'.pools pool).last + ((m.heap.pools pool).last - (h'.pools pool).last) ≤
          pool + psize := by omega
      exact hinv'.sound.room_apart hinv'.sound.pool_mem hroom
        (hinv'.sound.placed r (List.mem_append_left _ hmem))
    · exact Or.inr (Or.inl (by omega))

theorem arrayCreate_below {n size k k' : Nat} (hk : k ≤ k') :
    Below (arrayCreate M k pool n size) (arrayCreate M k' pool n size) := by
  unfold arrayCreate
  apply below_bind (onHeap_below (palloc_below hk pool _))
  intro a
  cases a with
  | none => exact below_refl
  | some a =>
    apply below_bind (onHeap_below (palloc_below hk pool _))
    intro _
    exact below_refl

theorem arrayGrow_below {a k k' : Nat} (hk : k ≤ k') : Below (arrayGrow M k a) (arrayGrow M k' a) := by
  unfold arrayGrow
  apply below_bind below_refl
  intro m
  apply below_bind below_refl
  intro m₁
  dsimp only
  split
  · exact below_refl
  · apply below_bind (onHeap_below (palloc_below hk _ _))
    intro _
    exact below_refl

theorem arrayPush_below {a k k' : Nat} (hk : k ≤ k') : Below (arrayPush M k a) (arrayPush M k' a) := by
  unfold arrayPush
  apply below_bind below_refl
  intro m
  dsimp only
  apply below_bind
  · split
    · exact arrayGrow_below hk
    · exact below_refl
  · intro _
    exact below_refl

/-- In every state of every run in which no computed size reaches `2 ^ 64`, what lives on the pool
is separate, and every push ends. -/
theorem containers_separate (hsize : SIZEOF_POOL + SIZEOF_LARGE ≤ psize)
    (hr : Lives M psize Fits pool m w) : Separate pool m w ∧
      (∀ l as, .list l as ∈ w → ∃ res m', Ends (fun fuel => listPush M fuel l) m res m') ∧
      ∀ a elems, .array a elems ∈ w → elems.length + 1 < 2 ^ 31 → Fits m (.arrayPush a []) →
        ∃ res m', Ends (fun fuel => arrayPush M fuel a) m res m' := by
  obtain ⟨bs, ls, hinv⟩ := hr.inv hsize
  refine ⟨hinv.separate, ?_, ?_⟩
  · intro l as hmem
    obtain ⟨front, back, rfl⟩ := List.append_of_mem hmem
    exact Ends.exists_of_wp listPush_below (listPush_object hinv.last (Nat.le_refl _))
  · intro a elems hmem hfew hfits
    obtain ⟨front, back, rfl⟩ := List.append_of_mem hmem
    exact Ends.exists_of_wp arrayPush_below (arrayPush_object hinv.last hfew hfits (Nat.le_refl _))

def blankMemory : Memory :=
  ⟨emptyHeap, fun _ => ⟨0, 0, 0, 0⟩, fun _ => ⟨none, 0, none⟩, fun _ => ⟨none, 0, 0, 0, 0⟩, fun _ => 0⟩

theorem defaultPool_lives (ok : Memory → Call → Prop) :
    Lives bump EHD_DEFAULT_POOL_SIZE ok 4096 (blankMemory.setHeap defaultPool) [] := by
  have hcreate : createPool bump EHD_DEFAULT_POOL_SIZE blankMemory.heap = .ok (some 4096) defaultPool :=
    eq_ok_of_result (by decide)
  refine Lives.created List.Pairwise.nil ?_ hcreate
  intro b hb
  cases hb

def pushed (m : Memory) (slot : Nat) (v : List UInt8) : Memory :=
  (after (arrayPush bump 8 4128) m).store slot v

/-- An array with room for one element of two bytes; its second element gets the next bytes of the
block.  Then an allocation stands there, and the third moves the array. -/
def shortArray : Memory := after (arrayCreate bump 8 4096 1 2) (blankMemory.setHeap defaultPool)
def grownArray : Memory := pushed (pushed shortArray 4160 [1, 2]) 4162 [3, 4]
def crowdedArray : Memory := grownArray.setHeap (after (palloc bump 8 4096 8) grownArray.heap)
def movedArray : Memory := pushed crowdedArray 4176 [5, 6]

theorem containers_separate_movedArray : Separate 4096 movedArray
    [.array 4128 [[1, 2], [3, 4], [5, 6]], .plain ⟨4164, 8⟩] := by
  have harray : arrayCreate bump 8 4096 1 2 (blankMemory.setHeap defaultPool) =
      .ok 4128 shortArray := eq_ok_of_result (by decide)
  have hends : Ends (fun fuel => arrayCreate bump fuel 4096 1 2) (blankMemory.setHeap defaultPool) 4128
      shortArray := ⟨8, fun fuel hfuel => arrayCreate_below hfuel _ _ _ harray⟩
  have hstart : Lives bump EHD_DEFAULT_POOL_SIZE Fits 4096 shortArray ([] ++ .array 4128 [] :: []) := by
    apply (defaultPool_lives Fits).step (c := .arrayCreate 1 2) (by decide : 2 * 1 < 2 ^ 64)
    exact .arrayCreate (by decide) (by decide) (by decide) hends (by decide)
  have hpush : ∀ {m : Memory} {back elems}, ∀ slot, ∀ v : List UInt8,
      Lives bump EHD_DEFAULT_POOL_SIZE Fits 4096 m ([] ++ .array 4128 elems :: back) →
      result (arrayPush bump 8 4128) m = some (some slot) → elems.length + 1 < 2 ^ 31 →
      v.length = (m.arrays 4128).size →
      2 * (m.arrays 4128).size * (m.arrays 4128).nblock < 2 ^ 64 →
      Lives bump EHD_DEFAULT_POOL_SIZE Fits 4096 (pushed m slot v)
        ([] ++ .array 4128 (elems ++ [v]) :: back) := by
    intro m back elems slot v hbefore hresult hfew hwidth hfits
    refine hbefore.step (c := .arrayPush 4128 v) (fun _ => hfits) ?_
    exact .arrayPush hfew hwidth
      ⟨8, fun fuel hfuel => arrayPush_below hfuel _ _ _ (eq_ok_of_result hresult)⟩
  have hone := hpush 4160 [1, 2] hstart (by decide) (by decide) (by decide)
    (by decide)
  have htwo := hpush 4162 [3, 4] hone (by decide) (by decide) (by decide)
    (by decide)
  have hpalloc : palloc bump 8 4096 8 grownArray.heap =
      .ok (some 4164) (after (palloc bump 8 4096 8) grownArray.heap) :=
    eq_ok_of_result (by decide)
  have hcrowded : Lives bump EHD_DEFAULT_POOL_SIZE Fits 4096 crowdedArray
      ([] ++ .array 4128 [[1, 2], [3, 4]] :: [.plain ⟨4164, 8⟩]) := by
    refine htwo.step (c := .palloc 8) trivial (.palloc ?_)
    exact ⟨8, fun fuel hfuel => palloc_below hfuel 4096 8 _ _ _ hpalloc⟩
  have hmoved := hpush 4176 [5, 6] hcrowded (by decide) (by decide) (by decide)
    (by decide)
  exact (containers_separate (by decide) hmoved).1

/-- An array for `2 ^ 30` elements of `2 ^ 34` bytes gets memory of `2 ^ 64 mod 2 ^ 64` bytes, and
then eight bytes are allocated where it starts. -/
def oversizedArray : Memory :=
  after (arrayCreate bump 8 4096 (2 ^ 30) (2 ^ 34)) (blankMemory.setHeap defaultPool)
def overlaidArray : Memory :=
  oversizedArray.setHeap (after (palloc bump 8 4096 8) oversizedArray.heap)

theorem oversized_array_overlaid : ¬ ∀ (M : Malloc) (pool : Nat) (m : Memory) (w : List Object),
    Lives M EHD_DEFAULT_POOL_SIZE (fun _ _ => True) pool m w → Separate pool m w := by
  intro hall
  have harray : arrayCreate bump 8 4096 (2 ^ 30) (2 ^ 34) (blankMemory.setHeap defaultPool) =
      .ok 4128 oversizedArray := eq_ok_of_result (by decide)
  have hends : Ends (fun fuel => arrayCreate bump fuel 4096 (2 ^ 30) (2 ^ 34))
      (blankMemory.setHeap defaultPool) 4128 oversizedArray :=
    ⟨8, fun fuel hfuel => arrayCreate_below hfuel _ _ _ harray⟩
  have hstart := (defaultPool_lives fun _ _ => True).step (c := .arrayCreate (2 ^ 30) (2 ^ 34)) trivial
    (.arrayCreate (by decide) (by decide) (by decide) hends (by decide))
  have hpalloc : palloc bump 8 4096 8 oversizedArray.heap =
      .ok (some 4160) (after (palloc bump 8 4096 8) oversizedArray.heap) :=
    eq_ok_of_result (by decide)
  have hoverlaid : Lives bump EHD_DEFAULT_POOL_SIZE (fun _ _ => True) 4096 overlaidArray
      ([] ++ [.array 4128 []] ++ [.plain ⟨4160, 8⟩]) := by
    refine hstart.step (c := .palloc 8) trivial (.palloc ?_)
    exact ⟨8, fun fuel hfuel => palloc_below hfuel 4096 8 _ _ _ hpalloc⟩
  exact absurd (hall _ _ _ _ hoverlaid).apart (by decide)

end

end Ehd.Palloc
