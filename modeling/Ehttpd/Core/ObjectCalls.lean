import Ehttpd.Core.Objects

namespace Ehd.Palloc

open Program Region

section

variable {M : Malloc} {m m' : Memory} {psize pool n size l a : Nat} {bs ls as slots : List Nat}
  {nodes : List Region} {elems : List (List UInt8)} {w rest : List Object} {fuel : Nat}
  {E : Halt → Memory → Prop}

theorem ListAt.storage (h : ListAt m pool n size l as slots) : (Object.list l as).storage m =
    listRegion l :: (as.tail.map nodeRegion ++
      as.map fun a => ⟨(m.nodes a).data.getD 0, n * size⟩) := by
  show listRegion l :: (as.tail.map nodeRegion ++ as.map (listData m l)) = _
  unfold listData
  rw [h.count, h.width]

theorem size64_of_lt {k : Nat} (h : k < 2 ^ 64) : size64 k = k := Nat.mod_eq_of_lt h

/-- `ehd_list_create` adds a list. -/
theorem listCreate_rule (hinv : Inv m pool psize w bs ls) (hn : 1 ≤ n) (hlt : n < 2 ^ 32)
    (hsize : 1 ≤ size) (hfits : n * size < 2 ^ 64) (hfuel : bs.length + ls.length + 4 ≤ fuel) :
    wp (listCreate M fuel pool n size) (fun res m' => ∀ l, res = some l →
      ∃ bs' ls', Inv m' pool psize (w ++ [.list l [headOf l]]) bs' ls') E m := by
  unfold listCreate
  rw [wp_bind, wp_onHeap]
  apply palloc_rule hinv.sound (by omega)
  · intro l h₁ bs₁ ls₁ nodes₁ _ _ hlength hs₁ _
    dsimp only
    rw [wp_bind]
    have hmade := @listInit_rule M (m.setHeap h₁) psize pool n size l bs₁ ls₁ _ _ E fuel hs₁ (by omega)
    apply wp_mono hmade _ fun _ _ he => he
    intro b m' hb
    cases hb with
    | @ok m' d bs₂ ls₂ nodes₂ hs₂ hlist hframe hdata =>
      rw [if_neg (not_not_intro rfl), wp_pure]
      intro l' hl'
      obtain rfl := Option.some.inj hl'
      rw [size64_of_lt hfits, List.append_assoc] at hs₂
      refine ⟨bs₂, ls₂, ?_⟩
      have hchanges : Changes [listRegion l, ⟨d, n * size⟩] m m' := by
        apply ((Changes.refl _ m).setHeap h₁).trans
        apply Changes.ofFrame hframe
        · exact ⟨_, List.mem_cons_self, inside_refl _⟩
        · intro a ha
          rw [List.mem_singleton.1 ha]
          exact ⟨_, List.mem_cons_self, head_inside l⟩
      have hstorage : (Object.list l [headOf l]).storage m' = [listRegion l, ⟨d, n * size⟩] := by
        rw [hlist.storage, List.map_singleton, hdata]
        rfl
      apply Inv.put hinv.objects (Inv.others hinv.objects hs₂ hchanges) hs₂
      · rw [hstorage]
        exact List.filter_sublist.subperm
      · exact ⟨n, size, [], hn, hlt, hsize, hfits, hlist⟩
    | failed hs₂ hframe =>
      rw [if_pos (by decide), wp_pure]
      intro l' hl'
      cases hl'
  · intro h₁ _ _
    dsimp only
    rw [wp_pure]
    intro l hl
    cases hl

theorem storage_grown (list node data : Region) (nodes datas : List Region) :
    (list :: (nodes ++ [node] ++ (datas ++ [data]))).Perm
      (list :: (nodes ++ datas) ++ [node, data]) := by
  rw [List.cons_append]
  apply List.Perm.cons
  rw [List.append_assoc, List.append_assoc]
  apply List.Perm.append_left
  show ([node] ++ (datas ++ [data])).Perm (datas ++ ([node] ++ [data]))
  rw [← List.append_assoc, ← List.append_assoc]
  exact List.Perm.append_right _ List.perm_append_comm

/-- `ehd_list_push` changes one list. -/
theorem listPush_object (hinv : Inv m pool psize (rest ++ [.list l as]) bs ls)
    (hfuel : bs.length + ls.length + 4 ≤ fuel) :
    wp (listPush M fuel l) (fun res m' => ∀ slot, res = some slot → ∃ bs' ls' as',
      Linked (fun a => (m'.nodes a).next) (some (headOf l)) as' ∧
        Inv m' pool psize (rest ++ [.list l as']) bs' ls') E m := by
  have hmem : Object.list l as ∈ rest ++ [.list l as] := List.mem_append_right _ List.mem_cons_self
  obtain ⟨n, size, slots, hn, hlt, hsize, hfits, hlist⟩ := hinv.objects _ hmem
  have hrest : ∀ o ∈ rest, o.At m pool := fun o ho => hinv.objects o (List.mem_append_left _ ho)
  have hs := hinv.split nofun
  have hheld : ∀ a ∈ as, ∃ r ∈ solid (rest.flatMap (Object.storage m)) ++ (Object.list l as).storage m,
      (nodeRegion a).Inside r := by
    intro a ha
    obtain ⟨r, hr, hinside⟩ := hlist.node_stored ha
    exact ⟨r, List.mem_append_right _ hr, hinside⟩
  have hpush := @listPush_rule M m psize pool n size l bs ls as slots _ _ E fuel hs hlist hheld hn hlt
    hfuel
  have hstored := hlist.storage
  apply wp_mono hpush _ fun _ _ he => he
  intro res m' hpushed slot hslot
  cases hpushed with
  | same hheap hlist' hframe hdata =>
    refine ⟨bs, ls, as, hlist'.linked, ?_⟩
    -- the last node takes the element, and nothing is allocated
    have hchanges : Changes ((Object.list l as).storage m) m m' := by
      apply Changes.ofFrame hframe
      · exact ⟨_, List.mem_cons_self, inside_refl _⟩
      · intro a ha
        exact hlist.node_stored ha
    have hstorage : (Object.list l as).storage m' = (Object.list l as).storage m := by
      rw [hlist'.storage, hstored]
      congr 2
      apply List.map_congr_left
      intro a ha
      rw [hdata a ha]
    rw [← hheap] at hs
    apply Inv.put hrest (Inv.others hrest hs hchanges) hs
    · rw [hstorage]
      exact List.filter_sublist.subperm
    · exact ⟨n, size, _, hn, hlt, hsize, hfits, hlist'⟩
  | @grown _ slot a d bs' ls' nodes' hs' hlist' hframe hnew hdata =>
    refine ⟨bs', ls', as ++ [a], hlist'.linked, ?_⟩
    rw [size64_of_lt hfits, List.append_assoc] at hs'
    -- a node and its elements are new
    have hchanges : Changes ((Object.list l as).storage m ++ [nodeRegion a, ⟨d, n * size⟩]) m m' := by
      apply Changes.ofFrame hframe
      · exact ⟨_, List.mem_append_left _ List.mem_cons_self, inside_refl _⟩
      · intro b hb
        rcases List.mem_append.1 hb with hb | hb
        · obtain ⟨r, hr, hinside⟩ := hlist.node_stored hb
          exact ⟨r, List.mem_append_left _ hr, hinside⟩
        · rw [List.mem_singleton.1 hb]
          exact ⟨_, List.mem_append_right _ List.mem_cons_self, inside_refl _⟩
    have hstorage : (((Object.list l (as ++ [a])).storage m')).Perm
        ((Object.list l as).storage m ++ [nodeRegion a, ⟨d, n * size⟩]) := by
      have hne : as ≠ [] := List.ne_nil_of_mem hlist.head_mem
      have hold : as.map (fun b => Region.mk ((m'.nodes b).data.getD 0) (n * size)) =
          as.map fun b => ⟨(m.nodes b).data.getD 0, n * size⟩ := by
        apply List.map_congr_left
        intro b hb
        rw [hdata b hb]
      rw [hlist'.storage, hstored, List.tail_append_of_ne_nil hne, List.map_append, List.map_append,
        hold, List.map_singleton, List.map_singleton, hnew]
      exact storage_grown _ _ _ _ _
    apply Inv.put hrest (Inv.others hrest hs' hchanges) hs'
    · exact List.filter_sublist.subperm.trans hstorage.subperm
    · exact ⟨n, size, _, hn, hlt, hsize, hfits, hlist'⟩
  | failed _ _ _ _ => cases hslot

end

end Ehd.Palloc
