import Mathlib.Data.List.Basic
import Mathlib.Tactic.SplitIfs

namespace DotSegments

variable {α : Type} [DecidableEq α]

/-- The names that have been ended by a slash, and the letters after the last slash. -/
structure Trail (α : Type) where
  names : List (List α)
  cur : List α
  deriving DecidableEq, Repr

namespace Trail

def root : Trail α := ⟨[], []⟩

def text (slash : α) (t : Trail α) : List α :=
  slash :: (t.names.flatMap (· ++ [slash]) ++ t.cur)

def segments (t : Trail α) : List (List α) := [] :: (t.names ++ [t.cur])

def read (slash dot : α) (t : Trail α) (c : α) : Option (Trail α) :=
  if c = slash then
    if t.cur = [] ∨ t.cur = [dot] then some ⟨t.names, []⟩
    else if t.cur = [dot, dot] then
      if t.names = [] then none else some ⟨t.names.dropLast, []⟩
    else some ⟨t.names ++ [t.cur], []⟩
  else some ⟨t.names, t.cur ++ [c]⟩

structure Name (slash dot : α) (n : List α) : Prop where
  whole : slash ∉ n
  nonempty : n ≠ []
  notDot : n ≠ [dot]
  notDotDot : n ≠ [dot, dot]

structure Ok (slash dot : α) (t : Trail α) : Prop where
  names : ∀ n ∈ t.names, Name slash dot n
  cur : slash ∉ t.cur

def readAll (slash dot : α) : Trail α → List α → Option (Trail α)
  | t, [] => some t
  | t, c :: cs => (t.read slash dot c).bind fun t' => readAll slash dot t' cs

section

variable {slash dot : α} {t t' : Trail α}

omit [DecidableEq α] in
theorem ok_root : Ok slash dot (root : Trail α) where
  names := by
    intro n hn
    cases hn
  cur := List.not_mem_nil

theorem Ok.read {c : α} (h : Ok slash dot t) (hread : t.read slash dot c = some t') :
    Ok slash dot t' := by
  unfold Trail.read at hread
  by_cases hc : c = slash
  · rw [if_pos hc] at hread
    by_cases hskip : t.cur = [] ∨ t.cur = [dot]
    · rw [if_pos hskip] at hread
      cases hread
      exact ⟨h.names, List.not_mem_nil⟩
    · rw [if_neg hskip] at hread
      by_cases hup : t.cur = [dot, dot]
      · rw [if_pos hup] at hread
        by_cases hroot : t.names = []
        · rw [if_pos hroot] at hread
          cases hread
        · rw [if_neg hroot] at hread
          cases hread
          refine ⟨?_, List.not_mem_nil⟩
          intro n hn
          exact h.names n (List.dropLast_subset _ hn)
      · rw [if_neg hup] at hread
        cases hread
        refine ⟨?_, List.not_mem_nil⟩
        intro n hn
        rcases List.mem_append.1 hn with hn | hn
        · exact h.names n hn
        · rw [List.mem_singleton.1 hn]
          exact ⟨h.cur, fun he => hskip (Or.inl he), fun he => hskip (Or.inr he), hup⟩
  · rw [if_neg hc] at hread
    cases hread
    refine ⟨h.names, ?_⟩
    intro hmem
    rcases List.mem_append.1 hmem with hmem | hmem
    · exact h.cur hmem
    · exact hc (List.mem_singleton.1 hmem).symm

theorem readAll_append (cs ds : List α) :
    readAll slash dot t (cs ++ ds) = (readAll slash dot t cs).bind fun t' =>
      readAll slash dot t' ds := by
  induction cs generalizing t with
  | nil => rfl
  | cons c cs ih =>
    show (t.read slash dot c).bind _ = ((t.read slash dot c).bind _).bind _
    cases t.read slash dot c with
    | none => rfl
    | some t₁ => exact ih

/-- The segments of the path are those of the trail. -/
theorem Ok.splitOn_text (h : Ok slash dot t) : (t.text slash).splitOn slash = t.segments := by
  have names : ∀ ns : List (List α), (∀ n ∈ ns, slash ∉ n) →
      (ns.flatMap (· ++ [slash]) ++ t.cur).splitOn slash = ns ++ [t.cur] := by
    intro ns
    induction ns with
    | nil =>
      intro _
      exact List.splitOn_eq_singleton h.cur
    | cons n ns ih =>
      intro hns
      have hn : slash ∉ n := hns n List.mem_cons_self
      have hrest := ih fun n' hn' => hns n' (List.mem_cons_of_mem _ hn')
      rw [List.flatMap_cons, List.append_assoc, List.append_assoc, List.singleton_append,
        List.splitOn_append_cons_self_of_not_mem hn, hrest]
      rfl
  unfold text segments
  rw [show slash :: (t.names.flatMap (· ++ [slash]) ++ t.cur) =
      [] ++ slash :: (t.names.flatMap (· ++ [slash]) ++ t.cur) from rfl,
    List.splitOn_append_cons_self_of_not_mem List.not_mem_nil,
    names t.names fun n hn => (h.names n hn).whole]

theorem Ok.dotDot_mem (h : Ok slash dot t) :
    [dot, dot] ∈ (t.text slash).splitOn slash ↔ t.cur = [dot, dot] := by
  rw [h.splitOn_text]
  unfold segments
  constructor
  · intro hmem
    rcases List.mem_cons.1 hmem with hnil | hmem
    · cases hnil
    rcases List.mem_append.1 hmem with hn | hcur
    · exact absurd rfl (h.names _ hn).notDotDot
    · exact (List.mem_singleton.1 hcur).symm
  · intro hcur
    rw [hcur]
    simp

end

def cut (stop : α) : List (List α) → List α → Trail α
  | [], cur => ⟨[], cur.takeWhile (· ≠ stop)⟩
  | n :: ns, cur =>
    if stop ∈ n then ⟨[], n.takeWhile (· ≠ stop)⟩
    else ⟨n :: (cut stop ns cur).names, (cut stop ns cur).cur⟩

def lastName (stop : α) (t : Trail α) : List α := (cut stop t.names t.cur).cur

section

variable {slash dot stop : α} {t : Trail α}

theorem takeWhile_of_not_mem {xs : List α} (h : stop ∉ xs) (ys : List α) :
    (xs ++ ys).takeWhile (· ≠ stop) = xs ++ ys.takeWhile (· ≠ stop) := by
  have hall : ∀ x ∈ xs, decide (x ≠ stop) = true := by
    intro x hx
    rw [decide_eq_true_eq]
    rintro rfl
    exact h hx
  exact List.takeWhile_append_of_pos hall

theorem takeWhile_of_mem {xs : List α} (h : stop ∈ xs) (ys : List α) :
    (xs ++ ys).takeWhile (· ≠ stop) = xs.takeWhile (· ≠ stop) := by
  induction xs with
  | nil => cases h
  | cons x xs ih =>
    rw [List.cons_append, List.takeWhile_cons, List.takeWhile_cons]
    by_cases hx : x = stop
    · simp [hx]
    · have hmem : stop ∈ xs := by
        rcases List.mem_cons.1 h with he | hmem
        · exact absurd he.symm hx
        · exact hmem
      rw [ih hmem]

/-- The path up to the first `stop`. -/
theorem takeWhile_text (hstop : stop ≠ slash) (t : Trail α) :
    (t.text slash).takeWhile (· ≠ stop) = (cut stop t.names t.cur).text slash := by
  have names : ∀ ns : List (List α), (ns.flatMap (· ++ [slash]) ++ t.cur).takeWhile (· ≠ stop) =
      (cut stop ns t.cur).names.flatMap (· ++ [slash]) ++ (cut stop ns t.cur).cur := by
    intro ns
    induction ns with
    | nil => rfl
    | cons n ns ih =>
      rw [List.flatMap_cons, List.append_assoc, List.append_assoc]
      unfold cut
      by_cases hn : stop ∈ n
      · rw [if_pos hn, takeWhile_of_mem hn]
        rfl
      · rw [if_neg hn, takeWhile_of_not_mem hn, List.singleton_append, List.takeWhile_cons,
          if_pos (by simpa using Ne.symm hstop), ih]
        simp
  unfold text
  rw [List.takeWhile_cons, if_pos (by simpa using Ne.symm hstop), names]

theorem Ok.cut (h : Ok slash dot t) : Ok slash dot (cut stop t.names t.cur) := by
  have hsub : ∀ xs : List α, slash ∉ xs → slash ∉ xs.takeWhile (· ≠ stop) := by
    intro xs hxs hmem
    exact hxs (List.takeWhile_subset _ hmem)
  have names : ∀ ns : List (List α), (∀ n ∈ ns, Name slash dot n) →
      Ok slash dot (Trail.cut stop ns t.cur) := by
    intro ns
    induction ns with
    | nil =>
      intro _
      refine ⟨?_, hsub _ h.cur⟩
      intro n hn
      cases hn
    | cons n ns ih =>
      intro hns
      have hn := hns n List.mem_cons_self
      have hrest := ih fun n' hn' => hns n' (List.mem_cons_of_mem _ hn')
      unfold Trail.cut
      split
      · refine ⟨?_, hsub _ hn.whole⟩
        intro n' hn'
        cases hn'
      · refine ⟨?_, hrest.cur⟩
        intro n' hn'
        rcases List.mem_cons.1 hn' with rfl | hn'
        · exact hn
        · exact hrest.names n' hn'
  exact names t.names h.names

/-- The path up to the first `stop` has a segment of two dots exactly when it ends
in one. -/
theorem Ok.dotDot_mem_takeWhile (h : Ok slash dot t) (hstop : stop ≠ slash) :
    [dot, dot] ∈ ((t.text slash).takeWhile (· ≠ stop)).splitOn slash ↔
      t.lastName stop = [dot, dot] := by
  rw [takeWhile_text hstop, h.cut.dotDot_mem]
  rfl

end

/-- What a segment that a slash has ended does to the names before it. -/
def push (dot : α) (names : List (List α)) (segment : List α) : Option (List (List α)) :=
  if segment = [] ∨ segment = [dot] then some names
  else if segment = [dot, dot] then if names = [] then none else some names.dropLast
  else some (names ++ [segment])

def ofText (slash dot : α) (names : List (List α)) (text : List α) : Option (Trail α) :=
  ((text.splitOn slash).dropLast.foldlM (push dot) names).map fun names' =>
    ⟨names', (text.splitOn slash).getLastD []⟩

theorem read_slash {slash dot : α} (t : Trail α) :
    t.read slash dot slash = (push dot t.names t.cur).map fun names => ⟨names, []⟩ := by
  unfold read push
  rw [if_pos rfl]
  split_ifs <;> rfl

omit [DecidableEq α] in
theorem getLastD_cons_ne_nil {x : List α} {xs : List (List α)} (h : xs ≠ []) :
    (x :: xs).getLastD [] = xs.getLastD [] := by
  rw [List.getLastD_eq_getLast?, List.getLastD_eq_getLast?, List.getLast?_cons,
    List.getLast?_eq_some_getLast h]
  rfl

/-- Letter by letter and segment by segment are the same. -/
theorem readAll_eq_ofText {slash dot : α} (cs : List α) : ∀ (names : List (List α)) (cur : List α),
    slash ∉ cur → readAll slash dot ⟨names, cur⟩ cs = ofText slash dot names (cur ++ cs) := by
  induction cs with
  | nil =>
    intro names cur hcur
    unfold ofText
    rw [List.append_nil, List.splitOn_eq_singleton hcur]
    rfl
  | cons c cs ih =>
    intro names cur hcur
    show (read slash dot ⟨names, cur⟩ c).bind _ = _
    by_cases hc : c = slash
    · subst hc
      have hsplit : (cur ++ c :: cs).splitOn c = cur :: cs.splitOn c :=
        List.splitOn_append_cons_self_of_not_mem hcur cs
      have hne : cs.splitOn c ≠ [] := List.splitOn_ne_nil c cs
      rw [read_slash]
      unfold ofText
      rw [hsplit, List.dropLast_cons_of_ne_nil hne, List.foldlM_cons, getLastD_cons_ne_nil hne]
      show ((push dot names cur).map _).bind _ = ((push dot names cur).bind _).map _
      cases push dot names cur with
      | none => rfl
      | some names' => exact ih names' [] List.not_mem_nil
    · have hread : read slash dot ⟨names, cur⟩ c = some ⟨names, cur ++ [c]⟩ := if_neg hc
      have hnext : slash ∉ cur ++ [c] := by
        intro hmem
        rcases List.mem_append.1 hmem with hmem | hmem
        · exact hcur hmem
        · exact hc (List.mem_singleton.1 hmem).symm
      rw [hread]
      show readAll slash dot ⟨names, cur ++ [c]⟩ cs = _
      rw [ih names (cur ++ [c]) hnext, List.append_assoc]
      rfl

theorem ofText_slash {slash dot : α} (cs : List α) :
    ofText slash dot [] (slash :: cs) = readAll slash dot root cs := by
  have hroot : readAll slash dot ⟨[], []⟩ cs = _ := readAll_eq_ofText cs [] [] List.not_mem_nil
  have hslash : readAll slash dot ⟨[], []⟩ (slash :: cs) = _ :=
    readAll_eq_ofText (slash :: cs) [] [] List.not_mem_nil
  have hread : readAll slash dot ⟨[], []⟩ (slash :: cs) = readAll slash dot ⟨[], []⟩ cs := by
    show (read slash dot ⟨[], []⟩ slash).bind _ = _
    rw [read_slash]
    rfl
  rw [hread] at hslash
  exact hslash.symm

theorem readAll_letters {slash dot : α} {names : List (List α)} {cur n : List α} (hn : slash ∉ n) :
    readAll slash dot ⟨names, cur⟩ n = some ⟨names, cur ++ n⟩ := by
  induction n generalizing cur with
  | nil => rw [List.append_nil]; rfl
  | cons c n ih =>
    have hc : c ≠ slash := by
      rintro rfl
      exact hn List.mem_cons_self
    have hread : read slash dot ⟨names, cur⟩ c = some ⟨names, cur ++ [c]⟩ := if_neg hc
    unfold readAll
    rw [hread, Option.bind_some, ih fun h => hn (List.mem_cons_of_mem _ h), List.append_assoc]
    rfl

theorem readAll_names {slash dot : α} {cur : List α} (hcur : slash ∉ cur) (ns : List (List α)) :
    ∀ names : List (List α), (∀ n ∈ ns, Name slash dot n) →
      readAll slash dot ⟨names, []⟩ (ns.flatMap (· ++ [slash]) ++ cur) =
        some ⟨names ++ ns, cur⟩ := by
  induction ns with
  | nil =>
    intro names _
    rw [List.append_nil]
    exact readAll_letters hcur
  | cons n ns ih =>
    intro names hns
    obtain ⟨hwhole, hne, hdot, hdotDot⟩ := hns n List.mem_cons_self
    have hpush : push dot names n = some (names ++ [n]) := by
      unfold push
      rw [if_neg (not_or.2 ⟨hne, hdot⟩), if_neg hdotDot]
    have hslash : readAll slash dot ⟨names, n⟩ [slash] = some ⟨names ++ [n], []⟩ := by
      unfold readAll
      rw [read_slash, hpush]
      rfl
    rw [List.flatMap_cons, List.append_assoc, List.append_assoc, readAll_append,
      readAll_letters hwhole, Option.bind_some, List.nil_append, readAll_append, hslash,
      Option.bind_some, ih _ fun n' hn' => hns n' (List.mem_cons_of_mem _ hn'), List.append_assoc]
    rfl

theorem Ok.ofText_text {slash dot : α} {t : Trail α} (h : Ok slash dot t) :
    ofText slash dot [] (t.text slash) = some t := by
  unfold text
  rw [ofText_slash]
  exact readAll_names h.cur t.names [] h.names

end Trail

end DotSegments
