import Ehttpd.Core.World

namespace Ehd

inductive BindResult
  | bound | inUse | fail
  deriving DecidableEq, Repr

/-- What the system calls give from one `socket` on: the descriptor, and whether `setsockopt`,
`ehd_setnonblocking`, `bind` and `listen` succeed on it. -/
structure Attempt where
  socket : Option Nat
  setsockopt : Bool
  nonblocking : Bool
  bind : BindResult
  listen : Bool
  deriving DecidableEq, Repr

/-- The table `cycle->listening`, by its `lis->fd`, and what has been done so far.  The other
members of a listener are only handed to the system calls. -/
structure Opening where
  fd : Nat → Int
  /-- the calls of `socket` so far -/
  attempts : Nat
  /-- the descriptors that `socket` has given -/
  obtained : List Nat
  /-- those that have been closed -/
  closed : List Nat
  /-- those on which `bind` and `listen` have succeeded -/
  listens : List Nat

def Opening.init : Opening := ⟨fun _ => -1, 0, [], [], []⟩

namespace Opening

def obtain (st : Opening) (s : Nat) : Opening :=
  { st with attempts := st.attempts + 1, obtained := st.obtained ++ [s] }

def record (st : Opening) (i s : Nat) : Opening :=
  { st with fd := Function.update st.fd i s, listens := st.listens ++ [s] }

end Opening

variable (kernel : Nat → Attempt)

/-- The body of the loop over the listeners, with `failed`; `none` is `return EHD_ERROR`. -/
def openListener (i : Nat) (failed : Bool) (st : Opening) : Option Bool × Opening :=
  if st.fd i ≠ -1 then (some failed, st)
  else
    let a := kernel st.attempts
    match a.socket with
    | none => (none, { st with attempts := st.attempts + 1 })
    | some s =>
      if ¬ a.setsockopt then (none, st.obtain s)
      else if ¬ a.nonblocking then (none, st.obtain s)
      else
        match a.bind with
        | .inUse => (none, st.obtain s)
        | .fail => (some true, st.obtain s)
        | .bound =>
          if ¬ a.listen then (none, st.obtain s)
          else (some failed, (st.obtain s).record i s)

/-- `for (i = 0; i < cycle->listening.ndata; i++)`, with `n` listeners to go. -/
def openRound : (n i : Nat) → Bool → Opening → Option Bool × Opening
  | 0, _, failed, st => (some failed, st)
  | n + 1, i, failed, st =>
    match openListener kernel i failed st with
    | (none, st') => (none, st')
    | (some failed', st') => openRound n (i + 1) failed' st'

def openRounds (ndata : Nat) : (tries : Nat) → Bool → Opening → Option Bool × Opening
  | 0, failed, st => (some failed, st)
  | tries + 1, _, st =>
    match openRound kernel ndata 0 false st with
    | (none, st') => (none, st')
    | (some false, st') => (some false, st')
    | (some true, st') => openRounds ndata tries true st'

def openListeningSocket (ndata : Nat) (st : Opening) : Int × Opening :=
  match openRounds kernel ndata 5 false st with
  | (none, st') => (EHD_ERROR, st')
  | (some true, st') => (EHD_ERROR, st')
  | (some false, st') => (EHD_OK, st')

def Attempt.Succeeds (a : Attempt) : Prop :=
  a.setsockopt = true ∧ a.nonblocking = true ∧ a.bind = .bound ∧ a.listen = true

variable {kernel} {st : Opening} {i : Nat} {failed : Bool}

theorem openListener_skips (h : st.fd i ≠ -1) :
    openListener kernel i failed st = (some failed, st) := if_pos h

theorem openListener_noSocket (h : st.fd i = -1) (hs : (kernel st.attempts).socket = none) :
    openListener kernel i failed st = (none, { st with attempts := st.attempts + 1 }) := by
  unfold openListener
  rw [if_neg (by simp [h])]
  dsimp only
  rw [hs]

/-- A descriptor on which a call fails is left behind. -/
theorem openListener_fails {s : Nat} (failed : Bool) (h : st.fd i = -1)
    (hs : (kernel st.attempts).socket = some s) (ha : ¬ (kernel st.attempts).Succeeds) :
    ∃ o, o ≠ some false ∧ openListener kernel i failed st = (o, st.obtain s) := by
  unfold openListener
  rw [if_neg (by simp [h])]
  dsimp only
  rw [hs]
  dsimp only
  by_cases hsetsockopt : (kernel st.attempts).setsockopt = true
  · rw [if_neg (by simp [hsetsockopt])]
    by_cases hnonblocking : (kernel st.attempts).nonblocking = true
    · rw [if_neg (by simp [hnonblocking])]
      cases hbind : (kernel st.attempts).bind with
      | inUse => exact ⟨none, by decide, rfl⟩
      | fail => exact ⟨some true, by decide, rfl⟩
      | bound =>
        have hlisten : ¬ (kernel st.attempts).listen = true :=
          fun hlisten => ha ⟨hsetsockopt, hnonblocking, hbind, hlisten⟩
        dsimp only
        rw [if_pos hlisten]
        exact ⟨none, by decide, rfl⟩
    · rw [if_pos hnonblocking]
      exact ⟨none, by decide, rfl⟩
  · rw [if_pos hsetsockopt]
    exact ⟨none, by decide, rfl⟩

theorem openListener_succeeds {s : Nat} (h : st.fd i = -1)
    (hs : (kernel st.attempts).socket = some s) (ha : (kernel st.attempts).Succeeds) :
    openListener kernel i failed st = (some failed, (st.obtain s).record i s) := by
  obtain ⟨hsetsockopt, hnonblocking, hbind, hlisten⟩ := ha
  unfold openListener
  rw [if_neg (by simp [h])]
  dsimp only
  rw [hs]
  dsimp only
  rw [if_neg (by simp [hsetsockopt]), if_neg (by simp [hnonblocking]), hbind]
  dsimp only
  rw [if_neg (by simp [hlisten])]

/-- The kernel does not give out a descriptor again, which nobody has closed. -/
def FreshSockets (kernel : Nat → Attempt) : Prop :=
  ∀ m n s, (kernel m).socket = some s → (kernel n).socket = some s → m = n

variable {ndata : Nat}

/-- The state between two listeners: what is recorded has come from an attempt that has
succeeded, once, and every such attempt is recorded. -/
structure Accounted (kernel : Nat → Attempt) (ndata : Nat) (st : Opening) : Prop where
  fd : ∀ i, st.fd i ≠ -1 → ∃ n < st.attempts, ∃ s, (kernel n).socket = some s ∧
    (kernel n).Succeeds ∧ st.fd i = s ∧ s ∈ st.listens
  once : ∀ i j, st.fd i ≠ -1 → st.fd i = st.fd j → i = j
  recorded : ∀ n < st.attempts, ∀ s, (kernel n).socket = some s → (kernel n).Succeeds →
    ∃ i < ndata, st.fd i = s
  obtained : ∀ s, s ∈ st.obtained ↔ ∃ n < st.attempts, (kernel n).socket = some s
  closed : st.closed = []

theorem accounted_init (kernel : Nat → Attempt) (ndata : Nat) : Accounted kernel ndata .init where
  fd _ h := absurd rfl h
  once _ _ h := absurd rfl h
  recorded n h := absurd h (Nat.not_lt_zero n)
  obtained s := by simp [Opening.init]
  closed := rfl

/-- An attempt that leaves no record. -/
theorem Accounted.attempt (h : Accounted kernel ndata st) {obtained : List Nat}
    (ha : ∀ s, (kernel st.attempts).socket = some s → ¬ (kernel st.attempts).Succeeds)
    (ho : ∀ s, s ∈ obtained ↔ s ∈ st.obtained ∨ (kernel st.attempts).socket = some s) :
    Accounted kernel ndata { st with attempts := st.attempts + 1, obtained := obtained } where
  fd i hi := by
    obtain ⟨n, hn, hrest⟩ := h.fd i hi
    exact ⟨n, Nat.lt_succ_of_lt hn, hrest⟩
  once := h.once
  recorded n hn s hs hsucceeds := by
    rcases Nat.lt_succ_iff_lt_or_eq.1 hn with hlt | rfl
    · exact h.recorded n hlt s hs hsucceeds
    · exact absurd hsucceeds (ha s hs)
  obtained s := by
    rw [ho, h.obtained]
    constructor
    · intro hs
      rcases hs with ⟨n, hn, hs⟩ | hs
      · exact ⟨n, Nat.lt_succ_of_lt hn, hs⟩
      · exact ⟨st.attempts, Nat.lt_succ_self _, hs⟩
    · intro hs
      obtain ⟨n, hn, hs⟩ := hs
      rcases Nat.lt_succ_iff_lt_or_eq.1 hn with hlt | rfl
      · exact Or.inl ⟨n, hlt, hs⟩
      · exact Or.inr hs
  closed := h.closed

/-- An attempt that succeeds for a listener without a descriptor. -/
theorem Accounted.record (hfresh : FreshSockets kernel) (h : Accounted kernel ndata st) {s : Nat}
    (hi : i < ndata) (hfd : st.fd i = -1) (hs : (kernel st.attempts).socket = some s)
    (ha : (kernel st.attempts).Succeeds) :
    Accounted kernel ndata ((st.obtain s).record i s) := by
  have hself : ((st.obtain s).record i s).fd i = s := Function.update_self _ _ _
  have hother : ∀ j, j ≠ i → ((st.obtain s).record i s).fd j = st.fd j :=
    fun j hj => Function.update_of_ne hj _ _
  -- what another listener has comes from an earlier attempt
  have hnew : ∀ j, st.fd j ≠ s := by
    intro j hj
    obtain ⟨n, hn, s', hs', -, hs'', -⟩ := h.fd j (by omega)
    obtain rfl : s' = s := by omega
    have := hfresh n st.attempts s' hs' hs
    omega
  constructor
  · intro j hj
    by_cases hji : j = i
    · subst hji
      exact ⟨st.attempts, Nat.lt_succ_self _, s, hs, ha, hself, List.mem_concat_self⟩
    · rw [hother j hji] at hj ⊢
      obtain ⟨n, hn, s', hs', ha', hs'', hlistens⟩ := h.fd j hj
      exact ⟨n, Nat.lt_succ_of_lt hn, s', hs', ha', hs'', List.mem_append_left _ hlistens⟩
  · intro j k hj hjk
    by_cases hji : j = i
    · by_cases hki : k = i
      · rw [hji, hki]
      · rw [hji, hself, hother k hki] at hjk
        exact absurd hjk.symm (hnew k)
    · by_cases hki : k = i
      · rw [hki, hself, hother j hji] at hjk
        exact absurd hjk (hnew j)
      · rw [hother j hji] at hj hjk
        rw [hother k hki] at hjk
        exact h.once j k hj hjk
  · intro n hn s' hs' ha'
    rcases Nat.lt_succ_iff_lt_or_eq.1 hn with hlt | rfl
    · obtain ⟨j, hj, hjs⟩ := h.recorded n hlt s' hs' ha'
      refine ⟨j, hj, ?_⟩
      rw [hother j]
      · exact hjs
      · rintro rfl
        omega
    · obtain rfl := Option.some.inj (hs.symm.trans hs')
      exact ⟨i, hi, hself⟩
  · intro s'
    show s' ∈ st.obtained ++ [s] ↔ _
    rw [List.mem_append, List.mem_singleton, h.obtained]
    constructor
    · intro h'
      rcases h' with ⟨n, hn, hs'⟩ | rfl
      · exact ⟨n, Nat.lt_succ_of_lt hn, hs'⟩
      · exact ⟨st.attempts, Nat.lt_succ_self _, hs⟩
    · intro h'
      obtain ⟨n, hn, hs'⟩ := h'
      rcases Nat.lt_succ_iff_lt_or_eq.1 hn with hlt | rfl
      · exact Or.inl ⟨n, hlt, hs'⟩
      · exact Or.inr (Option.some.inj (hs'.symm.trans hs))
  · exact h.closed

/-- What the listeners `[lo, hi)` of a round come to: with `some false` each has a descriptor,
otherwise one has none, or an earlier one has failed. -/
structure Listened (kernel : Nat → Attempt) (ndata lo hi : Nat) (failed : Bool) (st : Opening)
    (out : Option Bool × Opening) : Prop where
  accounted : Accounted kernel ndata out.2
  kept : ∀ j, j < lo ∨ hi ≤ j → out.2.fd j = st.fd j
  attempts : st.attempts ≤ out.2.attempts
  all : out.1 = some false → failed = false ∧ ∀ j, lo ≤ j → j < hi → out.2.fd j ≠ -1
  missing : out.1 ≠ some false → failed = true ∨ ∃ j, lo ≤ j ∧ j < hi ∧ out.2.fd j = -1

theorem openListener_listened (hfresh : FreshSockets kernel) (h : Accounted kernel ndata st)
    (hi : i < ndata) (failed : Bool) :
    Listened kernel ndata i (i + 1) failed st (openListener kernel i failed st) := by
  by_cases hfd : st.fd i = -1
  · cases hs : (kernel st.attempts).socket with
    | none =>
      rw [openListener_noSocket hfd hs]
      refine ⟨h.attempt ?_ ?_, fun _ _ => rfl, Nat.le_succ _, fun hnone => (nomatch hnone),
        fun _ => Or.inr ⟨i, Nat.le_refl i, Nat.lt_succ_self i, hfd⟩⟩
      · intro s hs'
        cases hs.symm.trans hs'
      · intro s
        simp [hs]
    | some s =>
      by_cases ha : (kernel st.attempts).Succeeds
      · rw [openListener_succeeds hfd hs ha]
        have hself : ((st.obtain s).record i s).fd i = s := Function.update_self _ _ _
        refine ⟨h.record hfresh hi hfd hs ha, fun j hj => ?_, Nat.le_succ _, fun hall => ?_,
          fun hmissing => ?_⟩
        · exact Function.update_of_ne (by omega) _ _
        · refine ⟨Option.some.inj hall, fun j hle hlt => ?_⟩
          obtain rfl : j = i := by omega
          rw [hself]
          omega
        · cases failed with
          | true => exact Or.inl rfl
          | false => exact absurd rfl hmissing
      · obtain ⟨o, ho, hout⟩ := openListener_fails failed hfd hs ha
        rw [hout]
        refine ⟨h.attempt ?_ ?_, fun _ _ => rfl, Nat.le_succ _, fun hall => absurd hall ho, fun _ =>
          Or.inr ⟨i, Nat.le_refl i, Nat.lt_succ_self i, hfd⟩⟩
        · intro _ _
          exact ha
        · intro s'
          rw [List.mem_append, List.mem_singleton, hs, Option.some_inj, eq_comm (a := s)]
  · rw [openListener_skips hfd]
    refine ⟨h, fun _ _ => rfl, Nat.le_refl _, fun hall => ?_, fun hmissing => ?_⟩
    · refine ⟨Option.some.inj hall, fun j hle hlt => ?_⟩
      obtain rfl : j = i := by omega
      exact hfd
    · cases failed with
      | true => exact Or.inl rfl
      | false => exact absurd rfl hmissing

theorem openRound_listened (hfresh : FreshSockets kernel) (n : Nat) (h : Accounted kernel ndata st)
    (hn : i + n ≤ ndata) (failed : Bool) :
    Listened kernel ndata i (i + n) failed st (openRound kernel n i failed st) := by
  induction n generalizing i st failed with
  | zero =>
    refine ⟨h, fun _ _ => rfl, Nat.le_refl _, fun hall => ?_, fun hmissing => ?_⟩
    · exact ⟨Option.some.inj hall, fun j hle hlt => by omega⟩
    · cases failed with
      | true => exact Or.inl rfl
      | false => exact absurd rfl hmissing
  | succ n ih =>
    have hone := openListener_listened hfresh h (show i < ndata by omega) failed
    unfold openRound
    cases hout : openListener kernel i failed st with
    | mk o st' =>
      rw [hout] at hone
      cases o with
      | none =>
        refine ⟨hone.accounted, fun j hj => hone.kept j (by omega), hone.attempts,
          fun hall => (nomatch hall), fun hmissing => ?_⟩
        obtain hfailed | ⟨j, hle, hlt, hj⟩ := hone.missing hmissing
        · exact Or.inl hfailed
        · exact Or.inr ⟨j, hle, by omega, hj⟩
      | some failed' =>
        have hrest := ih hone.accounted (show i + 1 + n ≤ ndata by omega) failed'
        have hkept : ∀ j, i ≤ j → j < i + 1 →
            (openRound kernel n (i + 1) failed' st').2.fd j = st'.fd j :=
          fun j _ hlt => hrest.kept j (Or.inl hlt)
        refine ⟨hrest.accounted, fun j hj => ?_, hone.attempts.trans hrest.attempts, fun hall => ?_,
          fun hmissing => ?_⟩
        · rw [hrest.kept j (by omega)]
          exact hone.kept j (by omega)
        · obtain ⟨rfl, hthen⟩ := hrest.all hall
          obtain ⟨hfailed, hfirst⟩ := hone.all rfl
          refine ⟨hfailed, fun j hle hlt => ?_⟩
          by_cases hj : j < i + 1
          · rw [hkept j hle hj]
            exact hfirst j hle hj
          · exact hthen j (by omega) (by omega)
        · obtain rfl | ⟨j, hle, hlt, hj⟩ := hrest.missing hmissing
          · obtain hfailed | ⟨j, hle, hlt, hj⟩ := hone.missing (by simp)
            · exact Or.inl hfailed
            · refine Or.inr ⟨j, hle, by omega, ?_⟩
              rw [hkept j hle hlt]
              exact hj
          · exact Or.inr ⟨j, by omega, by omega, hj⟩

theorem openRounds_listened (hfresh : FreshSockets kernel) (tries : Nat) (failed : Bool)
    (h : Accounted kernel ndata st)
    (hfailed : tries = 0 → failed = true ∧ ∃ j < ndata, st.fd j = -1) :
    Accounted kernel ndata (openRounds kernel ndata tries failed st).2 ∧
      st.attempts ≤ (openRounds kernel ndata tries failed st).2.attempts ∧
      ((openRounds kernel ndata tries failed st).1 = some false ↔
        ∀ j < ndata, (openRounds kernel ndata tries failed st).2.fd j ≠ -1) := by
  induction tries generalizing st failed with
  | zero =>
    obtain ⟨rfl, j, hj, hfd⟩ := hfailed rfl
    exact ⟨h, Nat.le_refl _, ⟨fun hall => (nomatch hall), fun hall => absurd hfd (hall j hj)⟩⟩
  | succ tries ih =>
    have hround := openRound_listened hfresh ndata h (show 0 + ndata ≤ ndata by omega) false
    have hmissing : (openRound kernel ndata 0 false st).1 ≠ some false →
        ∃ j < ndata, (openRound kernel ndata 0 false st).2.fd j = -1 := by
      intro hne
      obtain hfalse | ⟨j, -, hlt, hj⟩ := hround.missing hne
      · cases hfalse
      · exact ⟨j, by omega, hj⟩
    unfold openRounds
    cases hout : openRound kernel ndata 0 false st with
    | mk o st' =>
      rw [hout] at hround hmissing
      cases o with
      | none =>
        obtain ⟨j, hj, hfd⟩ := hmissing (by simp)
        exact ⟨hround.accounted, hround.attempts,
          ⟨fun hall => (nomatch hall), fun hall => absurd hfd (hall j hj)⟩⟩
      | some failed' =>
        cases failed' with
        | false =>
          exact ⟨hround.accounted, hround.attempts,
            ⟨fun _ j hj => (hround.all rfl).2 j (Nat.zero_le j) (by omega), fun _ => rfl⟩⟩
        | true =>
          obtain ⟨haccounted, hattempts, hiff⟩ := ih true hround.accounted
            fun _ => ⟨rfl, hmissing (by simp)⟩
          exact ⟨haccounted, hround.attempts.trans hattempts, hiff⟩

/-- Of the first attempts, one for each listener, no call fails on a descriptor that `socket` has
given, up to the first `socket` that gives none. -/
def NoneFails (kernel : Nat → Attempt) (ndata : Nat) : Prop :=
  ∀ n < ndata, (∀ m ≤ n, (kernel m).socket ≠ none) → (kernel n).Succeeds

/-- While all goes well, the listeners take one attempt each. -/
theorem openRound_reaches (hfresh : FreshSockets kernel) (n : Nat) {k : Nat}
    (h : Accounted kernel ndata st) (hn : i + n ≤ ndata) (hattempts : st.attempts = i)
    (hfree : ∀ j, i ≤ j → st.fd j = -1) (hik : i ≤ k) (hk : k < i + n)
    (hprev : ∀ m, i ≤ m → m < k → (kernel m).socket ≠ none ∧ (kernel m).Succeeds) :
    k < (openRound kernel n i false st).2.attempts := by
  induction n generalizing i st with
  | zero => omega
  | succ n ih =>
    have hi : st.fd i = -1 := hfree i (Nat.le_refl i)
    have hone := openListener_listened hfresh h (show i < ndata by omega) false
    -- before `k` every attempt succeeds, so the round goes on
    by_cases hlt : i < k
    · obtain ⟨hsocket, hsucceeds⟩ := hprev i (Nat.le_refl i) hlt
      obtain ⟨s, hs⟩ := Option.ne_none_iff_exists'.1 hsocket
      rw [← hattempts] at hs hsucceeds
      unfold openRound
      rw [openListener_succeeds hi hs hsucceeds] at hone ⊢
      apply ih hone.accounted (by omega) _ _ (by omega) (by omega)
      · intro m hm hmk
        exact hprev m (by omega) hmk
      · show st.attempts + 1 = i + 1
        rw [hattempts]
      · intro j hj
        rw [hone.kept j (by omega)]
        exact hfree j (by omega)
    · have hround := openRound_listened hfresh (n + 1) h hn false
      -- attempt `k` itself is made, whatever comes of it
      have hmade : st.attempts + 1 ≤ (openListener kernel i false st).2.attempts := by
        cases hs : (kernel st.attempts).socket with
        | none =>
          rw [openListener_noSocket hi hs]
        | some s =>
          by_cases ha : (kernel st.attempts).Succeeds
          · rw [openListener_succeeds hi hs ha]
            exact Nat.le_refl _
          · obtain ⟨o, -, hout⟩ := openListener_fails false hi hs ha
            rw [hout]
            exact Nat.le_refl _
      have hrest : (openListener kernel i false st).2.attempts ≤
          (openRound kernel (n + 1) i false st).2.attempts := by
        unfold openRound
        cases hout : openListener kernel i false st with
        | mk o st' =>
          rw [hout] at hone
          cases o with
          | none => exact Nat.le_refl _
          | some failed' =>
            exact (openRound_listened hfresh n hone.accounted (by omega) failed').attempts
      omega

/-- Then a round ends without a failure to bind, and leaves nothing behind. -/
theorem openRound_noneFails (kernel : Nat → Attempt) (n : Nat) (st : Opening)
    (hattempts : st.attempts = i) (hfree : ∀ j, i ≤ j → st.fd j = -1)
    (hclean : ∀ k, i ≤ k → k < i + n → (∀ m, i ≤ m → m ≤ k → (kernel m).socket ≠ none) →
      (kernel k).Succeeds) :
    (openRound kernel n i false st).1 ≠ some true ∧
      ∀ k, i ≤ k → k < (openRound kernel n i false st).2.attempts → (kernel k).socket ≠ none →
        (kernel k).Succeeds := by
  induction n generalizing i st with
  | zero =>
    refine ⟨by simp [openRound], fun k hik hk => ?_⟩
    change k < st.attempts at hk
    omega
  | succ n ih =>
    have hi : st.fd i = -1 := hfree i (Nat.le_refl i)
    unfold openRound
    cases hs : (kernel st.attempts).socket with
    | none =>
      -- without a socket the round is over
      rw [openListener_noSocket hi hs]
      refine ⟨by simp, fun k hik hk hsocket => ?_⟩
      change k < st.attempts + 1 at hk
      obtain rfl : k = st.attempts := by omega
      exact absurd hs hsocket
    | some s =>
      -- an attempt that got a socket is one of those that succeed
      have hone : (kernel i).Succeeds := by
        apply hclean i (Nat.le_refl i) (by omega)
        intro m him hmi
        obtain rfl : m = st.attempts := by omega
        rw [hs]
        simp
      rw [← hattempts] at hone
      rw [openListener_succeeds hi hs hone]
      have hrest := ih (i := i + 1) ((st.obtain s).record i s)
        (by
          show st.attempts + 1 = i + 1
          rw [hattempts])
        (by
          intro j hj
          rw [show ((st.obtain s).record i s).fd j = st.fd j from
            Function.update_of_ne (by omega) _ _]
          exact hfree j (by omega))
        (by
          intro k hik hk hsockets
          apply hclean k (by omega) (by omega)
          intro m him hmk
          by_cases hm : m = st.attempts
          · rw [hm, hs]
            simp
          · exact hsockets m (by omega) hmk)
      refine ⟨hrest.1, fun k hik hk hsocket => ?_⟩
      by_cases hki : k = st.attempts
      · rw [hki]
        exact hone
      · exact hrest.2 k (by omega) hk hsocket

/-- No attempt is left behind in any round when none fails in the first. -/
theorem noneFails_iff (hfresh : FreshSockets kernel) :
    (∀ n < (openRounds kernel ndata 5 false .init).2.attempts, (kernel n).socket ≠ none →
      (kernel n).Succeeds) ↔ NoneFails kernel ndata := by
  have hround := openRound_listened hfresh ndata (accounted_init kernel ndata)
    (show 0 + ndata ≤ ndata by omega) false
  constructor
  · intro hall n
    induction n using Nat.strong_induction_on with
    | _ n ih =>
      intro hn hsockets
      apply hall n _ (hsockets n (Nat.le_refl n))
      have hreach := openRound_reaches hfresh ndata (accounted_init kernel ndata)
        (show 0 + ndata ≤ ndata by omega) rfl (fun _ _ => rfl) (Nat.zero_le n) (by omega)
        fun m _ hm => ⟨hsockets m hm.le, ih m hm (by omega) fun l hl => hsockets l (by omega)⟩
      unfold openRounds
      cases hout : openRound kernel ndata 0 false .init with
      | mk o st' =>
        rw [hout] at hround hreach
        cases o with
        | none => exact hreach
        | some failed =>
          cases failed with
          | false => exact hreach
          | true =>
            have hrest := openRounds_listened hfresh 4 true hround.accounted
              fun h => absurd h (by decide)
            exact Nat.lt_of_lt_of_le hreach hrest.2.1
  · intro hclean
    have hshort : ∀ k, 0 ≤ k → k < 0 + ndata →
        (∀ m, 0 ≤ m → m ≤ k → (kernel m).socket ≠ none) → (kernel k).Succeeds := by
      intro k _ hk hsockets
      apply hclean k (by omega)
      intro m hm
      exact hsockets m (Nat.zero_le m) hm
    obtain ⟨hfailed, hsucceeds⟩ :=
      openRound_noneFails (i := 0) kernel ndata .init rfl (fun _ _ => rfl) hshort
    intro n hn hsocket
    apply hsucceeds n (Nat.zero_le n) _ hsocket
    unfold openRounds at hn
    cases hout : openRound kernel ndata 0 false .init with
    | mk o st' =>
      rw [hout] at hn hfailed
      cases o with
      | none => exact hn
      | some failed =>
        cases failed with
        | false => exact hn
        | true => exact absurd rfl hfailed

/-- Every descriptor that `socket` has given is closed, or the descriptor of one listener. -/
def Conserved (ndata : Nat) (st : Opening) : Prop :=
  ∀ s ∈ st.obtained, s ∈ st.closed ∨
    ∃ i < ndata, st.fd i = s ∧ ∀ j < ndata, st.fd j = s → j = i

theorem Accounted.conserved_iff (hfresh : FreshSockets kernel) (h : Accounted kernel ndata st) :
    Conserved ndata st ↔
      ∀ n < st.attempts, (kernel n).socket ≠ none → (kernel n).Succeeds := by
  constructor
  · intro hconserved n hn hsocket
    obtain ⟨s, hs⟩ := Option.ne_none_iff_exists'.1 hsocket
    obtain hclosed | ⟨i, -, hi, -⟩ := hconserved s ((h.obtained s).2 ⟨n, hn, hs⟩)
    · rw [h.closed] at hclosed
      cases hclosed
    · obtain ⟨m, -, s', hs', hsucceeds, hi', -⟩ := h.fd i (by omega)
      obtain rfl : s' = s := by omega
      rw [← hfresh m n s' hs' hs]
      exact hsucceeds
  · intro hall s hobtained
    obtain ⟨n, hn, hs⟩ := (h.obtained s).1 hobtained
    obtain ⟨i, hi, his⟩ := h.recorded n hn s hs (hall n hn (by simp [hs]))
    refine Or.inr ⟨i, hi, his, fun j _ hj => ?_⟩
    exact h.once j i (by omega) (hj.trans his.symm)

/-- What is asked of the function: no descriptor is lost, and `EHD_OK` says that every listener
has one on which `bind` and `listen` have succeeded. -/
structure SocketsKept (kernel : Nat → Attempt) (ndata : Nat) : Prop where
  conserved : Conserved ndata (openListeningSocket kernel ndata .init).2
  ok : (openListeningSocket kernel ndata .init).1 = EHD_OK ↔
    ∀ i < ndata, ∃ s : Nat, (openListeningSocket kernel ndata .init).2.fd i = s ∧
      s ∈ (openListeningSocket kernel ndata .init).2.listens

theorem openListeningSocket_eq (kernel : Nat → Attempt) (ndata : Nat) :
    (openListeningSocket kernel ndata .init).2 =
    (openRounds kernel ndata 5 false .init).2 ∧
      ((openListeningSocket kernel ndata .init).1 = EHD_OK ↔
        (openRounds kernel ndata 5 false .init).1 = some false) := by
  unfold openListeningSocket
  cases hout : openRounds kernel ndata 5 false .init with
  | mk o st =>
    cases o with
    | none => exact ⟨rfl, by simp [EHD_OK, EHD_ERROR]⟩
    | some failed =>
      cases failed with
      | true => exact ⟨rfl, by simp [EHD_OK, EHD_ERROR]⟩
      | false => exact ⟨rfl, iff_of_true rfl rfl⟩

/-- For any number of listeners and all outcomes of the system calls, the sockets are kept when no
call fails on a descriptor in the first round, and only then. -/
theorem listening_sockets_conserved (kernel : Nat → Attempt) (ndata : Nat)
    (hfresh : FreshSockets kernel) : SocketsKept kernel ndata ↔ NoneFails kernel ndata := by
  obtain ⟨hst, hok⟩ := openListeningSocket_eq kernel ndata
  obtain ⟨haccounted, -, hall⟩ := openRounds_listened hfresh 5 false
    (accounted_init kernel ndata) fun h => absurd h (by decide)
  rw [← noneFails_iff hfresh, ← haccounted.conserved_iff hfresh]
  constructor
  · intro h
    rw [← hst]
    exact h.conserved
  · intro h
    constructor
    · rw [hst]
      exact h
    · rw [hok, hall, hst]
      constructor
      · intro hfd i hi
        obtain ⟨n, -, s, -, -, hs, hlistens⟩ := haccounted.fd i (hfd i hi)
        exact ⟨s, hs, hlistens⟩
      · intro hfd i hi
        obtain ⟨s, hs, -⟩ := hfd i hi
        rw [hs]
        omega

def thirdRefused (n : Nat) : Attempt :=
  ⟨if n = 2 then none else some (n + 3), true, true, .bound, true⟩

theorem listening_sockets_conserved_refused : SocketsKept thirdRefused 4 := by
  apply (listening_sockets_conserved thirdRefused 4 _).2
  · intro n _ _
    exact ⟨rfl, rfl, rfl, rfl⟩
  · intro m n s hm hn
    simp only [thirdRefused, ite_eq_iff, reduceCtorEq, and_false, false_or] at hm hn
    have hms := Option.some.inj hm.2
    have hns := Option.some.inj hn.2
    omega

/-- The address cannot be bound at first: the second round succeeds, and the socket of the first
stays open. -/
def boundLater (n : Nat) : Attempt :=
  ⟨some (n + 3), true, true, if n = 0 then .fail else .bound, true⟩

theorem failed_bind_leaks : ¬ ∀ (kernel : Nat → Attempt) (ndata : Nat),
    FreshSockets kernel → SocketsKept kernel ndata := by
  intro h
  have hkept := h boundLater 1 fun m n s hm hn => by
    have hms := Option.some.inj hm
    have hns := Option.some.inj hn
    omega
  obtain hclosed | ⟨i, hi, hfd, -⟩ := hkept.conserved 3 (by decide)
  · revert hclosed
    decide
  · obtain rfl : i = 0 := by omega
    revert hfd
    decide

end Ehd
