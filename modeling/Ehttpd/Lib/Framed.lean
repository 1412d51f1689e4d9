import Mathlib.Data.List.Basic
import Mathlib.Tactic.SplitIfs

namespace Framed

variable {α β γ : Type}

/-- What a message says, and what follows it; `none` while the message is not all there. -/
abbrev Reader (α β : Type) := List α → Option (β × List α)

def Frames (rd : Reader α β) (text : List α) (x : β) : Prop :=
  ∀ more, rd (text ++ more) = some (x, more)

def Stable (rd : Reader α β) : Prop :=
  ∀ s x rest more, rd s = some (x, rest) → rd (s ++ more) = some (x, rest ++ more)

/-- Read `n` messages at most: the messages, and what is left of the stream. -/
def readAll (rd : Reader α β) : Nat → List α → List β × List α
  | 0, s => ([], s)
  | n + 1, s =>
    match rd s with
    | none => ([], s)
    | some (x, rest) => (x :: (readAll rd n rest).1, (readAll rd n rest).2)

variable {rd : Reader α β} {text s : List α} {x : β}

theorem readAll_framed {ts : List (List α)} {xs : List β} (h : List.Forall₂ (Frames rd) ts xs)
    (n : Nat) (more : List α) : readAll rd (ts.length + n) (ts.flatten ++ more) =
      (xs ++ (readAll rd n more).1, (readAll rd n more).2) := by
  induction h with
  | nil => rw [List.length_nil, Nat.zero_add]; rfl
  | @cons t x ts xs ht _ ih =>
    rw [List.flatten_cons, List.append_assoc, List.length_cons, Nat.add_right_comm, readAll, ht]
    dsimp only
    rw [ih]
    rfl

theorem readAll_none (h : rd s = none) (n : Nat) : readAll rd n s = ([], s) := by
  cases n with
  | zero => rfl
  | succ n => rw [readAll, h]

theorem Stable.incomplete (hrd : Stable rd) (h : Frames rd text x) (hs : s <+: text)
    (hne : s ≠ text) : rd s = none := by
  obtain ⟨rest, rfl⟩ := hs
  cases hread : rd s with
  | none => rfl
  | some y =>
    -- what it leaves of `s` would be left of the whole message
    have hmore := hrd s y.1 y.2 rest hread
    have hall := h []
    rw [List.append_nil, hmore] at hall
    have hleft : y.2 ++ rest = [] := congrArg Prod.snd (Option.some.inj hall)
    rw [(List.append_eq_nil_iff.1 hleft).2, List.append_nil] at hne
    exact absurd rfl hne

def andThen (rd : Reader α β) (next : β → Reader α γ) : Reader α γ := fun s =>
  (rd s).bind fun y => next y.1 y.2

def mapped (f : β → γ) (rd : Reader α β) : Reader α γ := fun s => (rd s).map fun y => (f y.1, y.2)

variable {next : β → Reader α γ} {text' : List α} {y : γ}

theorem Frames.andThen (h : Frames rd text x) (h' : Frames (next x) text' y) :
    Frames (andThen rd next) (text ++ text') y := by
  intro more
  unfold Framed.andThen
  rw [List.append_assoc, h, Option.bind_some, h']

theorem Stable.andThen (h : Stable rd) (h' : ∀ x, Stable (next x)) : Stable (andThen rd next) := by
  intro s y rest more hs
  obtain ⟨⟨x, s'⟩, hx, hy⟩ := Option.bind_eq_some_iff.1 hs
  unfold Framed.andThen
  rw [h s x s' more hx, Option.bind_some]
  exact h' x s' y rest more hy

theorem Frames.mapped (h : Frames rd text x) (f : β → γ) : Frames (mapped f rd) text (f x) := by
  intro more
  unfold Framed.mapped
  rw [h, Option.map_some]

theorem Stable.mapped (h : Stable rd) (f : β → γ) : Stable (mapped f rd) := by
  intro s y rest more hs
  obtain ⟨⟨x, s'⟩, hx, hy⟩ := Option.map_eq_some_iff.1 hs
  cases hy
  unfold Framed.mapped
  rw [h s x s' more hx, Option.map_some]

def counted (n : Nat) : Reader α (List α) := fun s =>
  if n ≤ s.length then some (s.take n, s.drop n) else none

theorem counted_framed (text : List α) : Frames (counted text.length) text text := by
  intro more
  unfold counted
  rw [if_pos (by rw [List.length_append]; exact Nat.le_add_right _ _), List.take_left,
    List.drop_left]

theorem counted_stable (n : Nat) : Stable (counted n : Reader α (List α)) := by
  intro s x rest more h
  unfold counted at h ⊢
  split_ifs at h with hn
  cases h
  rw [if_pos (by rw [List.length_append]; exact Nat.le_add_right_of_le hn),
    List.take_append_of_le_length hn, List.drop_append_of_le_length hn]

variable [DecidableEq α] {a b : α}

/-- The rest of a line that has begun with `cur`, up to an `a` with a `b` behind it. -/
def lineFrom (a b : α) : List α → Reader α (List α)
  | _, [] => none
  | cur, c :: s =>
    if c = b ∧ cur.getLast? = some a then some (cur.dropLast, s) else lineFrom a b (cur ++ [c]) s

def line (a b : α) : Reader α (List α) := lineFrom a b []

def linesFrom (a b : α) : List α → Reader α (List (List α))
  | _, [] => none
  | cur, c :: s =>
    if c = b ∧ cur.getLast? = some a then
      if cur.dropLast = [] then some ([], s)
      else (linesFrom a b [] s).map fun y => (cur.dropLast :: y.1, y.2)
    else linesFrom a b (cur ++ [c]) s

def lines (a b : α) : Reader α (List (List α)) := linesFrom a b []

theorem lineFrom_append {cur l : List α} (hcur : a ∉ cur) (hl : a ∉ l) (more : List α) :
    lineFrom a b cur (l ++ [a, b] ++ more) = some (cur ++ l, more) := by
  induction l generalizing cur with
  | nil =>
    have hopen : ¬ (a = b ∧ cur.getLast? = some a) := fun h => hcur (List.mem_of_getLast? h.2)
    show lineFrom a b cur (a :: b :: more) = _
    rw [lineFrom, if_neg hopen, lineFrom, if_pos ⟨rfl, List.getLast?_concat⟩, List.dropLast_concat,
      List.append_nil]
  | cons c l ih =>
    have hopen : ¬ (c = b ∧ cur.getLast? = some a) := fun h => hcur (List.mem_of_getLast? h.2)
    have hnext : a ∉ cur ++ [c] := by
      intro h
      rcases List.mem_append.1 h with h | h
      · exact hcur h
      · exact hl (List.mem_singleton.1 h ▸ List.mem_cons_self)
    show lineFrom a b cur (c :: (l ++ [a, b] ++ more)) = _
    rw [lineFrom, if_neg hopen, ih hnext fun h => hl (List.mem_cons_of_mem _ h), List.append_assoc]
    rfl

theorem line_framed {l : List α} (hl : a ∉ l) : Frames (line a b) (l ++ [a, b]) l :=
  fun more => lineFrom_append List.not_mem_nil hl more

theorem lineFrom_stable (cur : List α) : Stable (lineFrom a b cur) := by
  intro s
  induction s generalizing cur with
  | nil => intro x rest more h; cases h
  | cons c s ih =>
    intro x rest more h
    rw [List.cons_append, lineFrom] at *
    split_ifs at h ⊢
    · cases h
      rfl
    · exact ih _ x rest more h

theorem linesFrom_eq (cur s : List α) : linesFrom a b cur s =
    (lineFrom a b cur s).bind fun y => if y.1 = [] then some ([], y.2) else
      (lines a b y.2).map fun z => (y.1 :: z.1, z.2) := by
  induction s generalizing cur with
  | nil => rfl
  | cons c s ih =>
    rw [linesFrom, lineFrom]
    split_ifs with hend hnil
    · rw [Option.bind_some, if_pos hnil]
    · rw [Option.bind_some, if_neg hnil]
      rfl
    · exact ih _

theorem lines_cons {l : List α} (hl : a ∉ l) (s : List α) : lines a b (l ++ [a, b] ++ s) =
    if l = [] then some ([], s) else (lines a b s).map fun y => (l :: y.1, y.2) := by
  show linesFrom a b [] _ = _
  rw [linesFrom_eq, lineFrom_append List.not_mem_nil hl, Option.bind_some]
  rfl

theorem lines_framed {ls : List (List α)} (hls : ∀ l ∈ ls, a ∉ l ∧ l ≠ []) :
    Frames (lines a b) (ls.flatMap (· ++ [a, b]) ++ [a, b]) ls := by
  intro more
  induction ls with
  | nil => exact lines_cons List.not_mem_nil more
  | cons l ls ih =>
    obtain ⟨hl, hne⟩ := hls l List.mem_cons_self
    rw [List.flatMap_cons, List.append_assoc, List.append_assoc, lines_cons hl, if_neg hne,
      ← List.append_assoc, ih fun l' hl' => hls l' (List.mem_cons_of_mem _ hl'), Option.map_some]

theorem linesFrom_stable (cur : List α) : Stable (linesFrom a b cur) := by
  intro s
  induction s generalizing cur with
  | nil => intro x rest more h; cases h
  | cons c s ih =>
    intro x rest more h
    rw [List.cons_append, linesFrom] at *
    split_ifs at h ⊢
    · cases h
      rfl
    · obtain ⟨y, hy, hx⟩ := Option.map_eq_some_iff.1 h
      cases hx
      rw [ih _ y.1 y.2 more hy, Option.map_some]
    · exact ih _ x rest more h

end Framed
