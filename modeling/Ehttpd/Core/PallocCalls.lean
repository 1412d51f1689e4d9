import Ehttpd.Core.PallocOwned

namespace Ehd.Palloc

open Program Region

section

variable {M : Malloc} {h : Heap} {pool size : Nat} {bs ls : List Nat} {given nodes : List Region}
  {n : Nat} {E : Unit → Heap → Prop}

theorem malloc_rule {Q : Option Nat → Heap → Prop} (hnone : Q none (h.called []))
    (hsome : ∀ a, a + n < 2 ^ 64 → (∀ b ∈ h.blocks, Apart ⟨a, n⟩ b) →
      Q (some a) (h.called [⟨a, n⟩])) : wp (malloc M n) Q E h := by
  unfold malloc
  rw [wp_bind, wp_get]
  cases ha : M.alloc h.mallocs h.blocks n with
  | none => exact hnone
  | some a => exact hsome a (M.bounded ha) (M.apart ha)

theorem sub64_eq {a b : Nat} (hle : b ≤ a) (ha : a < 2 ^ 64) : sub64 a b = a - b := by
  unfold sub64
  omega

theorem Sound.room_eq (hs : Sound h pool size bs ls given nodes) {p : Nat} (hp : p ∈ bs) :
    sub64 (h.pools p).stop (h.pools p).last = p + size - (h.pools p).last := by
  have hb := hs.block p hp
  have hbound : p + size < 2 ^ 64 := hs.bounded _ hb.block
  rw [hb.stop]
  exact sub64_eq hb.last hbound

theorem Sound.size_eq (hs : Sound h pool size bs ls given nodes) {p : Nat} (hp : p ∈ bs) :
    sub64 (h.pools p).stop p = size := by
  have hb := hs.block p hp
  have hbound : p + size < 2 ^ 64 := hs.bounded _ hb.block
  rw [hb.stop, sub64_eq (Nat.le_add_right _ _) hbound]
  exact Nat.add_sub_cancel_left p size

/-- The loop over the blocks, by induction on those that are left. -/
theorem findRoom_rule {Q : Nat ⊕ Nat → Heap → Prop} (hs : Sound h pool size bs ls given nodes)
    (hroom : ∀ p ∈ bs, (h.pools p).last + n ≤ p + size → Q (.inl (h.pools p).last) (h.take p n))
    (hfull : ∀ front p, bs = front ++ [p] → Q (.inr p) h) {tail : List Nat} :
    ∀ (front : List Nat) (fuel p : Nat), bs = front ++ tail →
      Linked (fun q => (h.pools q).next) (some p) tail → tail.length ≤ fuel →
      wp (findRoom n fuel p) Q E h := by
  induction tail with
  | nil =>
    intro front fuel p _ hlinked
    cases hlinked
  | cons p tail ih =>
    intro front fuel q hbs hlinked hfuel
    obtain rfl : p = q := (Option.some.inj hlinked.1).symm
    have hrest : Linked (fun q => (h.pools q).next) (h.pools p).next tail := hlinked.2
    obtain ⟨fuel, rfl⟩ : ∃ k, fuel = k + 1 := by
      rw [List.length_cons] at hfuel
      exact Nat.exists_eq_succ_of_ne_zero (by omega)
    have hmem : p ∈ bs := by
      rw [hbs]
      simp
    have hlast := (hs.block p hmem).last
    unfold findRoom
    rw [wp_bind, wp_get]
    simp only [hs.room_eq hmem]
    by_cases hn : n ≤ p + size - (h.pools p).last
    · rw [if_pos hn, wp_bind, wp_modify, wp_pure]
      exact hroom p hmem (by omega)
    · rw [if_neg hn]
      cases hnext : (h.pools p).next with
      | none =>
        rw [hnext] at hrest
        cases tail with
        | nil => exact hfull front p hbs
        | cons q' tail => cases hrest.1
      | some p' =>
        rw [hnext] at hrest
        apply ih (front ++ [p]) fuel p' _ hrest
        · rw [List.length_cons] at hfuel
          omega
        · rw [hbs, List.append_assoc]
          rfl

/-- What a call may do to the headers, those in `bs` and at most one more: take room. -/
structure Kept (h h' : Heap) (bs bs' : List Nat) : Prop where
  front : bs <+: bs'
  length : bs'.length ≤ bs.length + 1
  stop : ∀ p ∈ bs, (h'.pools p).stop = (h.pools p).stop
  large : ∀ p ∈ bs, (h'.pools p).large = (h.pools p).large
  last : ∀ p ∈ bs, (h.pools p).last ≤ (h'.pools p).last
  other : ∀ p, p ∉ bs' → h'.pools p = h.pools p

theorem Kept.refl (h : Heap) (bs : List Nat) : Kept h h bs bs :=
  ⟨List.prefix_refl _, Nat.le_succ _, fun _ _ => rfl, fun _ _ => rfl, fun _ _ => Nat.le_refl _,
    fun _ _ => rfl⟩

theorem Kept.take {h' : Heap} {bs' : List Nat} (hk : Kept h h' bs bs') {p : Nat} (hp : p ∈ bs') :
    Kept h (h'.take p n) bs bs' where
  front := hk.front
  length := hk.length
  stop := by
    intro q hq
    rw [Heap.take_stop]
    exact hk.stop q hq
  large := by
    intro q hq
    rw [Heap.take_large]
    exact hk.large q hq
  last := fun q hq => (hk.last q hq).trans (h'.le_take_last p q n)
  other := by
    intro q hq
    have hqp : q ≠ p := fun heq => hq (heq ▸ hp)
    rw [Heap.take_pools, if_neg hqp]
    exact hk.other q hq

theorem Kept.grow {front : List Nat} {p a : Nat} (ha : a ∉ front ++ [p]) :
    Kept h (h.grow p a size) (front ++ [p]) (front ++ [p, a]) := by
  have hne : a ≠ p := by
    intro heq
    exact ha (by simp [heq])
  have hold : ∀ q ∈ front ++ [p], (h.grow p a size).pools q =
      { h.pools q with next := ((h.grow p a size).pools q).next } := by
    intro q hq
    exact h.grow_old size hne fun heq => ha (heq ▸ hq)
  constructor
  · exact ⟨[a], by simp⟩
  · simp
  · intro q hq
    rw [hold q hq]
  · intro q hq
    rw [hold q hq]
  · intro q hq
    rw [hold q hq]
  · intro q hq
    apply h.grow_other
    · intro heq
      exact hq (by simp [heq])
    · intro heq
      exact hq (by simp [heq])

/-- A size that fits into a block: from a block with room, or from a new one. -/
theorem pallocSmall_rule {Q : Option Nat → Heap → Prop} {fuel : Nat}
    (hs : Sound h pool size bs ls given nodes) (hn : n + SIZEOF_POOL ≤ size)
    (hfuel : bs.length ≤ fuel)
    (hok : ∀ m h' bs', Kept h h' bs bs' → h'.larges = h.larges →
      Sound h' pool size bs' ls (given ++ [⟨m, n⟩]) nodes → Booked h h' pool size given given →
      (∃ p ∈ bs', Region.Inside ⟨m, n⟩ (block size p)) → Q (some m) h')
    (hfail : Q none (h.called [])) : wp (pallocSmall M fuel pool n) Q E h := by
  unfold pallocSmall
  rw [wp_bind]
  apply findRoom_rule hs _ _ [] fuel pool rfl hs.linked hfuel
  · intro p hp hroom
    rw [wp_pure]
    -- a block has room
    have hs' := hs.take hp hroom
    apply hok _ _ bs ((Kept.refl h bs).take hp) rfl hs'
    · exact Booked.same hs hs' rfl fun _ _ => rfl
    · refine ⟨p, hp, ?_, hroom⟩
      exact (Nat.le_add_right _ _).trans (hs.block p hp).first
  · intro front p hbs
    have hp : p ∈ bs := by
      rw [hbs]
      simp
    rw [wp_bind, wp_get]
    simp only [hs.size_eq hp]
    unfold createPool
    rw [wp_bind, wp_bind]
    apply malloc_rule
    · rw [wp_pure, wp_pure]
      exact hfail
    · intro a hbound hapart
      rw [wp_bind, wp_modify, wp_pure, wp_bind, wp_modify]
      show wp _ Q E (h.grow p a size)
      rw [wp_bind, wp_get, wp_bind, wp_modify, wp_pure]
      subst hbs
      -- no block has: a new one hangs behind the last
      have hfresh := hs.fresh hs.pos hapart
      have hgrown := hs.grow hbound hapart
      have ha : a ∈ front ++ [p, a] := by simp
      have hne : a ≠ p := by
        intro heq
        exact hfresh (by simp [heq])
      have hlast : ((h.grow p a size).pools a).last = a + SIZEOF_POOL := by
        rw [h.grow_new size hne]
      have hroom : ((h.grow p a size).pools a).last + n ≤ a + size := by omega
      have hs' := hgrown.take ha hroom
      apply hok _ ((h.grow p a size).take a n) (front ++ [p, a])
      · exact (Kept.grow hfresh).take ha
      · rfl
      · exact hs'
      · intro owned ho
        obtain ⟨bigs, ht⟩ := hs.tally ho
        refine ⟨[block size a], rfl, ?_⟩
        have ht' : Tally ((h.grow p a size).take a n) size (front ++ [p] ++ [a]) ls bigs given
            (owned ++ [block size a]) := ht.grow hs.pos hapart rfl rfl
        rw [List.append_assoc] at ht'
        exact ht'.owned hs'
      · refine ⟨a, ha, ?_, hroom⟩
        show a ≤ ((h.grow p a size).pools a).last
        omega

/-- The search for a node ends at the last one. -/
theorem findLarge_rule {Q : Nat ⊕ Nat → Heap → Prop} {fuel : Nat} {tail : List Nat}
    (hlast : ∀ front l, tail = front ++ [l] → Q (.inr l) h) {l : Nat}
    (hlinked : Linked (fun q => (h.larges q).next) (some l) tail)
    (hfull : ∀ l ∈ tail, (h.larges l).data ≠ none) (hfuel : tail.length ≤ fuel) :
    wp (findLarge fuel l) Q E h := by
  induction tail generalizing l fuel with
  | nil => cases hlinked
  | cons l tail ih =>
    obtain rfl := Option.some.inj hlinked.1
    have hrest : Linked (fun q => (h.larges q).next) (h.larges l).next tail := hlinked.2
    obtain ⟨fuel, rfl⟩ : ∃ k, fuel = k + 1 := by
      rw [List.length_cons] at hfuel
      exact Nat.exists_eq_succ_of_ne_zero (by omega)
    unfold findLarge
    rw [wp_bind, wp_get]
    dsimp only
    cases hdata : (h.larges l).data with
    | none => exact absurd hdata (hfull l List.mem_cons_self)
    | some d =>
      dsimp only
      cases hnext : (h.larges l).next with
      | none =>
        rw [hnext] at hrest
        cases tail with
        | nil => exact hlast [] l rfl
        | cons q' tail => cases hrest.1
      | some l' =>
        rw [hnext] at hrest
        apply ih _ hrest
        · intro q hq
          exact hfull q (List.mem_cons_of_mem _ hq)
        · rw [List.length_cons] at hfuel
          omega
        · intro front q htail
          apply hlast (l :: front) q
          rw [htail]
          rfl

/-- What the search says of the list of nodes: it is empty, or `last` ends it. -/
def EndsIn (ls : List Nat) (last : Option Nat) : Prop :=
  ls = [] ∧ last = none ∨ ∃ front l, ls = front ++ [l] ∧ last = some l

theorem searchLarge_rule {Q : Option Nat × Option Nat → Heap → Prop} {fuel : Nat}
    (hs : Sound h pool size bs ls given nodes) (hfuel : ls.length ≤ fuel)
    (hQ : ∀ last, EndsIn ls last → Q (none, last) h) : wp (searchLarge fuel pool) Q E h := by
  have hlinked := hs.larges
  unfold searchLarge
  rw [wp_bind, wp_get]
  cases hlarge : (h.pools pool).large with
  | none =>
    rw [hlarge] at hlinked
    cases ls with
    | nil => exact hQ none (Or.inl ⟨rfl, rfl⟩)
    | cons l ls => cases hlinked.1
  | some l =>
    rw [hlarge] at hlinked
    dsimp only
    rw [wp_bind]
    apply findLarge_rule _ hlinked hs.full hfuel
    intro front l' hls
    exact hQ (some l') (Or.inr ⟨front, l', hls, rfl⟩)

/-- The memory of a large allocation, whose node is not in the list yet. -/
theorem fillLarge_rule {Q : Option Nat → Heap → Prop} {l : Nat} {last : Option Nat}
    (hs : Sound h pool size bs ls given nodes) (hl : node l ∈ nodes) (hfresh : l ∉ ls)
    (hnext : (h.larges l).next = none) (hlast : EndsIn ls last) (hn : 0 < n)
    (hin : ∃ p ∈ bs, (node l).Inside (block size p))
    (hok : ∀ m h', Sound h' pool size bs (ls ++ [l]) (given ++ [⟨m, n⟩]) nodes →
      Booked h h' pool size given (given ++ [⟨m, n⟩]) → Q (some m) h')
    (hfail : Q none (h.called [])) : wp (fillLarge M pool n l last) Q E h := by
  have hlinked := hs.larges
  -- where the node's memory is noted, the books are kept
  have hbooked : ∀ {m : Nat} {h' : Heap}, (∀ b ∈ h.blocks, Apart ⟨m, n⟩ b) →
      Sound h' pool size bs (ls ++ [l]) (given ++ [⟨m, n⟩]) nodes →
      h'.blocks = h.blocks ++ [⟨m, n⟩] → (∀ q ∈ ls, (h'.larges q).data = (h.larges q).data) →
      (h'.larges l).data = some m → Booked h h' pool size given (given ++ [⟨m, n⟩]) := by
    intro m h' hm hs' hblocks hdata hnew owned ho
    obtain ⟨bigs, ht⟩ := hs.tally ho
    exact ⟨[⟨m, n⟩], hblocks, (ht.hang hn hm hin hblocks hdata hnew).owned hs'⟩
  unfold fillLarge
  rw [wp_bind]
  apply malloc_rule
  · rw [wp_pure]
    exact hfail
  · intro m hbound hapart
    have hgiven := hs.give hn hbound hapart
    dsimp only
    unfold linkLarge
    rw [wp_bind, wp_bind, wp_get]
    rcases hlast with ⟨rfl, rfl⟩ | ⟨front, q, rfl, rfl⟩
    · have hnone : ((h.called [⟨m, n⟩]).pools pool).large = none := hlinked
      rw [if_pos hnone, wp_modify, wp_bind, wp_modify, wp_pure]
      have hs' := hgiven.hangFirst (m := m) hl hnext
      apply hok m _ hs'
      apply hbooked hapart hs' rfl
      · intro q hq
        cases hq
      · rw [Heap.setLarge_larges, Function.update_self]
    · have hsome : ((h.called [⟨m, n⟩]).pools pool).large ≠ none := by
        intro hnone
        have hlinked' : Linked (fun l => (h.larges l).next) none (front ++ [q]) := by
          rw [← show (h.pools pool).large = none from hnone]
          exact hlinked
        cases front with
        | nil => cases hlinked'.1
        | cons f front => cases hlinked'.1
      rw [if_neg hsome]
      dsimp only
      rw [wp_modify, wp_bind, wp_modify, wp_pure]
      have hs' := hgiven.hangNext (m := m) hl hfresh hnext
      rw [List.append_cons] at hs'
      apply hok m _ hs'
      apply hbooked hapart hs' rfl
      · intro q' hq'
        have hne : q' ≠ l := fun heq => hfresh (heq ▸ hq')
        rw [Heap.setLarge_larges, Function.update_of_ne hne, Heap.setLarge_larges]
        by_cases hq : q' = q
        · rw [hq, Function.update_self]
          rfl
        · rw [Function.update_of_ne hq]
          rfl
      · rw [Heap.setLarge_larges, Function.update_self]

theorem Sound.fits_iff (hs : Sound h pool size bs ls given nodes) :
    (n ≤ EHD_MAX_ALLOC_FROM_POOL ∧ n ≤ sub64 (sub64 (h.pools pool).stop pool) SIZEOF_POOL) ↔
      n ≤ EHD_MAX_ALLOC_FROM_POOL ∧ n + SIZEOF_POOL ≤ size := by
  have henough := hs.enough
  have hbound : pool + size < 2 ^ 64 := hs.bounded _ (hs.block pool hs.pool_mem).block
  have hroom : sub64 size SIZEOF_POOL = size - SIZEOF_POOL :=
    sub64_eq (by omega) (by omega)
  rw [hs.size_eq hs.pool_mem, hroom]
  omega

theorem palloc_small_rule {Q : Option Nat → Heap → Prop} {fuel : Nat}
    (hs : Sound h pool size bs ls given nodes) (hmax : n ≤ EHD_MAX_ALLOC_FROM_POOL)
    (hn : n + SIZEOF_POOL ≤ size) (hfuel : bs.length < fuel)
    (hok : ∀ m h' bs', Kept h h' bs bs' → h'.larges = h.larges →
      Sound h' pool size bs' ls (given ++ [⟨m, n⟩]) nodes → Booked h h' pool size given given →
      (∃ p ∈ bs', Region.Inside ⟨m, n⟩ (block size p)) → Q (some m) h')
    (hfail : Q none (h.called [])) : wp (palloc M fuel pool n) Q E h := by
  obtain ⟨fuel, rfl⟩ : ∃ k, fuel = k + 1 := Nat.exists_eq_succ_of_ne_zero (by omega)
  unfold palloc
  rw [wp_bind, wp_get]
  simp only [hs.fits_iff]
  rw [if_pos ⟨hmax, hn⟩]
  exact pallocSmall_rule hs hn (by omega) hok hfail

theorem node_not_apart (l : Nat) : ¬ (node l).Apart (node l) := by
  unfold Apart Region.stop
  show ¬ (SIZEOF_LARGE = 0 ∨ SIZEOF_LARGE = 0 ∨ l + SIZEOF_LARGE ≤ l ∨ l + SIZEOF_LARGE ≤ l)
  unfold SIZEOF_LARGE
  omega

/-- What a call that gives `NULL` leaves behind: the list of large allocations as it was, the
headers but for room that a node may have got, and nothing written elsewhere. -/
def Intact (h h' : Heap) (pool size : Nat) (bs ls : List Nat) (given : List Region) : Prop :=
  ∃ bs' nodes, Sound h' pool size bs' ls given nodes ∧ Kept h h' bs bs' ∧
    (∀ l ∈ ls, h'.larges l = h.larges l) ∧ ∀ l, node l ∉ nodes → h'.larges l = h.larges l

/-- `ehd_palloc` keeps the invariant. -/
theorem palloc_rule {Q : Option Nat → Heap → Prop} {fuel : Nat}
    (hs : Sound h pool size bs ls given nodes) (hfuel : bs.length + ls.length + 2 ≤ fuel)
    (hok : ∀ m h' bs' ls' nodes', bs <+: bs' → ls <+: ls' →
      bs'.length + ls'.length ≤ bs.length + ls.length + 2 →
      Sound h' pool size bs' ls' (given ++ [⟨m, n⟩]) nodes' →
      Booked h h' pool size given (given ++ [⟨m, n⟩]) → Q (some m) h')
    (hfail : ∀ h', Intact h h' pool size bs ls given → Booked h h' pool size given given →
      Q none h') :
    wp (palloc M fuel pool n) Q E h := by
  have hnone : Intact h (h.called []) pool size bs ls given :=
    ⟨bs, nodes, hs.notCalled, ⟨List.prefix_refl _, Nat.le_succ _, fun _ _ => rfl, fun _ _ => rfl,
      fun _ _ => Nat.le_refl _, fun _ _ => rfl⟩, fun _ _ => rfl, fun _ _ => rfl⟩
  by_cases hfits : n ≤ EHD_MAX_ALLOC_FROM_POOL ∧ n + SIZEOF_POOL ≤ size
  · apply palloc_small_rule hs hfits.1 hfits.2 (by omega)
    · intro m h' bs' hkept _ hs' hbooked hin
      have hlength := hkept.length
      exact hok m h' bs' ls nodes hkept.front (List.prefix_refl _) (by omega) hs'
        (hbooked.add hs' hin)
    · exact hfail _ hnone (Booked.notCalled hs)
  · obtain ⟨fuel, rfl⟩ : ∃ k, fuel = k + 1 := Nat.exists_eq_succ_of_ne_zero (by omega)
    have henough := hs.enough
    have hpos : 0 < n := by
      have hzero : 0 ≤ EHD_MAX_ALLOC_FROM_POOL := Nat.zero_le _
      omega
    unfold palloc
    rw [wp_bind, wp_get]
    simp only [hs.fits_iff]
    rw [if_neg hfits, wp_bind]
    apply searchLarge_rule hs (by omega)
    intro last hlast
    dsimp only
    rw [wp_bind]
    -- the node comes from the same pool, and always fits into a block
    have hnode : SIZEOF_LARGE ≤ EHD_MAX_ALLOC_FROM_POOL := by decide
    apply palloc_small_rule hs hnode (by omega) (by omega)
    · intro l h' bs' hkept hlarges hs' hbooked hin
      have hkeep := hs'.keep
      have hfresh : l ∉ ls := by
        intro hmem
        exact node_not_apart l (hs'.node_apart (List.mem_append_right _ List.mem_cons_self) hmem)
      dsimp only
      rw [wp_bind, wp_modify]
      have hcut : Sound (h'.setLarge l fun n => { n with next := none }) pool size bs' ls given
          (nodes ++ [node l]) := by
        refine hkeep.congr rfl (fun _ _ => rfl) ?_
        intro l' hl'
        rw [Heap.setLarge_larges, Function.update_of_ne]
        intro heq
        exact hfresh (heq ▸ hl')
      have hcutBooked : Booked h (h'.setLarge l fun n => { n with next := none }) pool size given
          given := by
        apply hbooked.trans
        apply Booked.same hkeep hcut rfl
        intro l' hl'
        have hne : l' ≠ l := fun heq => hfresh (heq ▸ hl')
        rw [Heap.setLarge_larges, Function.update_of_ne hne]
      apply fillLarge_rule hcut _ hfresh _ hlast hpos hin
      · intro m h'' hs'' hbooked''
        have hlength := hkept.length
        have hls : (ls ++ [l]).length = ls.length + 1 := by simp
        exact hok m h'' bs' (ls ++ [l]) _ hkept.front (List.prefix_append _ _) (by omega) hs''
          (hcutBooked.trans hbooked'')
      · refine hfail _ ?_ (hcutBooked.trans (Booked.notCalled hcut))
        refine ⟨bs', _, hcut.notCalled, ⟨hkept.front, hkept.length, hkept.stop, hkept.large,
          hkept.last, hkept.other⟩, ?_, ?_⟩
        · intro l' hl'
          have hne : l' ≠ l := fun heq => hfresh (heq ▸ hl')
          show Function.update h'.larges l _ l' = h.larges l'
          rw [Function.update_of_ne hne, hlarges]
        · intro l' hl'
          have hne : l' ≠ l := by
            rintro rfl
            exact hl' (by simp)
          show Function.update h'.larges l _ l' = h.larges l'
          rw [Function.update_of_ne hne, hlarges]
      · simp
      · simp
    · exact hfail _ hnone (Booked.notCalled hs)

/-- `ehd_pcalloc` keeps the invariant: what it clears is what it gives. -/
theorem pcalloc_rule {Q : Option Nat → Heap → Prop} {fuel : Nat}
    (hs : Sound h pool size bs ls given nodes) (hfuel : bs.length + ls.length + 2 ≤ fuel)
    (hok : ∀ m h' bs' ls' nodes', bs <+: bs' → ls <+: ls' →
      bs'.length + ls'.length ≤ bs.length + ls.length + 2 →
      Sound h' pool size bs' ls' (given ++ [⟨m, n⟩]) nodes' →
      Booked h h' pool size given (given ++ [⟨m, n⟩]) → Q (some m) h')
    (hfail : ∀ h', Intact h h' pool size bs ls given → Booked h h' pool size given given →
      Q none h') :
    wp (pcalloc M fuel pool n) Q E h := by
  unfold pcalloc
  rw [wp_bind]
  apply palloc_rule hs hfuel
  · intro m h' bs' ls' nodes' hbs hls hlength hs' hbooked
    rw [wp_bind, wp_modify, wp_pure]
    have hmem : ⟨m, n⟩ ∈ given ++ [⟨m, n⟩] := List.mem_append_right _ List.mem_cons_self
    have hlarges : ∀ l ∈ ls', (h'.memset ⟨m, n⟩).larges l = h'.larges l :=
      fun l hl => if_pos (hs'.node_apart hmem hl)
    have hset : Sound (h'.memset ⟨m, n⟩) pool size bs' ls' (given ++ [⟨m, n⟩]) nodes' := by
      refine hs'.congr rfl ?_ hlarges
      intro p hp
      exact if_pos (hs'.header_apart hp (hs'.placed _ (List.mem_append_left _ hmem)))
    apply hok m _ bs' ls' nodes' hbs hls hlength hset
    apply hbooked.trans
    apply Booked.same hs' hset rfl
    intro l hl
    rw [hlarges l hl]
  · intro h' hintact hbooked
    rw [wp_pure]
    exact hfail h' hintact hbooked

end

end Ehd.Palloc
