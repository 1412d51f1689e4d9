import Ehttpd.Http.OpenedName

namespace Ehd

open Program

structure Detached {β : Type} (f : World → β) : Prop where
  touch : ∀ w, f w.touch = f w
  onR : ∀ w g, f (w.onR g) = f w
  alloced : ∀ w n, f (w.alloced n) = f w

theorem files_detached : Detached World.files := ⟨World.touch_files, fun _ _ => rfl, fun _ _ => rfl⟩

def World.filesAndOpened (w : World) : FileCalls × (Int → Bool) := (w.files, w.k.opened)

theorem filesAndOpened_detached : Detached World.filesAndOpened where
  touch w := by
    unfold World.touch
    split <;> rfl
  onR _ _ := rfl
  alloced _ _ := rfl

namespace Http

section

variable {β : Type} {f : World → β}

theorem getRequest_keeps (hf : Detached f) : Keeps f getRequest := by
  unfold getRequest
  refine keeps_modify_bind hf.touch fun _ => ?_
  exact keeps_bind keeps_get fun _ => keeps_pure _

theorem modifyRequest_keeps (hf : Detached f) (g : Request → Request) :
    Keeps f (modifyRequest g) := by
  apply keeps_modify
  intro w
  rw [hf.onR, hf.touch]

theorem allocate_keeps (hf : Detached f) {call : World → AllocCall} : Keeps f (allocate call) := by
  apply keeps_of_wp
  intro w
  simp only [allocate, wp_bind, wp_get, wp_set, wp_pure]
  exact hf.alloced w _

theorem listRoom_keeps {α : Type} (hf : Detached f) (l : EList α) : Keeps f (listRoom l) := by
  unfold listRoom
  apply keeps_ite _ (keeps_pure _)
  apply keeps_bind (allocate_keeps hf)
  intro ok
  exact keeps_ite (allocate_keeps hf) (keeps_pure _)

theorem pcalloc_keeps (hf : Detached f) {pool : World → Nat} (size : Nat) :
    Keeps f (pcalloc pool size) := by
  unfold pcalloc
  apply keeps_bind (allocate_keeps hf)
  intro ok
  exact keeps_ite (keeps_pure _) (keeps_pure _)

theorem createTempBuf_keeps (hf : Detached f) {pool : World → Nat} (size : Nat) :
    Keeps f (createTempBuf pool size) := by
  unfold createTempBuf
  apply keeps_bind (allocate_keeps hf)
  intro ok
  apply keeps_ite _ (keeps_pure _)
  apply keeps_bind (allocate_keeps hf)
  intro ok'
  exact keeps_ite (keeps_pure _) (keeps_pure _)

theorem pushHeaderOut_keeps (hf : Detached f) (t : TableData) : Keeps f (pushHeaderOut t) := by
  unfold pushHeaderOut
  apply keeps_bind (getRequest_keeps hf)
  intro r
  apply keeps_bind (listRoom_keeps hf _)
  intro ok
  exact keeps_ite (modifyRequest_keeps hf _) (keeps_throw _)

theorem pushContentType_keeps (hf : Detached f) : Keeps f pushContentType := by
  unfold pushContentType
  apply keeps_bind (getRequest_keeps hf)
  intro r
  cases contentType r.uri with
  | none => exact keeps_pure _
  | some ty => exact pushHeaderOut_keeps hf _

theorem pushServer_keeps (hf : Detached f) : Keeps f pushServer := by
  unfold pushServer
  apply keeps_bind (getRequest_keeps hf)
  intro r
  exact keeps_ite (pushHeaderOut_keeps hf _) (keeps_pure _)

theorem pushContentLength_keeps (hf : Detached f) : Keeps f pushContentLength := by
  unfold pushContentLength
  apply keeps_bind (getRequest_keeps hf)
  intro r
  apply keeps_ite _ (keeps_pure _)
  apply keeps_bind (listRoom_keeps hf _)
  intro ok
  apply keeps_ite _ (keeps_throw _)
  apply keeps_bind (pcalloc_keeps hf _)
  intro area
  cases area with
  | none => exact keeps_throw _
  | some area => exact modifyRequest_keeps hf _

theorem responseGenHeader_keeps (hf : Detached f) : Keeps f responseGenHeader := by
  unfold responseGenHeader
  apply keeps_bind (allocate_keeps hf)
  intro ok
  apply keeps_ite (keeps_throw _)
  apply keeps_bind (createTempBuf_keeps hf _)
  intro b
  cases b with
  | none => exact keeps_throw _
  | some b =>
    apply keeps_bind (getRequest_keeps hf)
    intro r
    apply keeps_ite (keeps_throw _)
    apply keeps_bind (pushServer_keeps hf)
    intro _
    apply keeps_bind (pushContentLength_keeps hf)
    intro _
    apply keeps_bind (getRequest_keeps hf)
    intro r'
    exact modifyRequest_keeps hf _

end

theorem specialResponseHandler_asks (error : Nat) :
    AsksNothing (specialResponseHandler error) := by
  unfold specialResponseHandler
  apply keeps_bind (pushHeaderOut_keeps files_detached _)
  intro _
  apply keeps_bind (createTempBuf_keeps files_detached _)
  intro b
  cases b with
  | none => exact keeps_throw _
  | some b =>
    apply keeps_bind (modifyRequest_keeps files_detached _)
    intro _
    apply keeps_bind (responseGenHeader_keeps files_detached)
    intro _
    apply keeps_bind (allocate_keeps files_detached)
    intro ok
    apply keeps_ite _ (keeps_throw _)
    apply keeps_bind (modifyRequest_keeps files_detached _)
    intro _
    exact startWriting_asks

end Http

def Kernel.opens (k : Kernel) (n : Nat) (path : List UInt8) : Bool :=
  (k.openFd n path).any fun fd => !k.opened fd && decide (0 ≤ fd)

/-- Whether `open` gives a descriptor and the `stat` after it says that the file is regular. -/
def Kernel.opensRegular (k : Kernel) (n : Nat) (path : List UInt8) : Bool :=
  k.opens n path && (k.stat (n + 1) path).any fun s => decide (s.mode = .reg)

namespace Http

variable {w s : World} {path : List UInt8}

structure AfterOpen (w : World) (path : List UInt8) (s : World) : Prop where
  opened : w.k.opens w.k.fsCalls path = true →
    s.t.paths = w.t.paths ++ [path, path] ∧ ∃ x, s.t.opens = w.t.opens ++ [x]
  failed : w.k.opens w.k.fsCalls path = false → s.t.opens = w.t.opens

theorem AfterOpen.congr {w' s' : World} (h : AfterOpen w path s)
    (hw : w'.filesAndOpened = w.filesAndOpened) (hs : s'.files = s.files) :
    AfterOpen w' path s' := by
  have hopens : ∀ n path, w'.k.opens n path = w.k.opens n path := by
    intro n path
    have hfd : w'.k.openFd = w.k.openFd := congrArg (fun v => v.1.openFd) hw
    have hopened : w'.k.opened = w.k.opened := congrArg (fun v => v.2) hw
    unfold Kernel.opens
    rw [hfd, hopened]
  have hcalls : w'.k.fsCalls = w.k.fsCalls := congrArg (fun v => v.1.fsCalls) hw
  have hwpaths : w'.t.paths = w.t.paths := congrArg (fun v => v.1.paths) hw
  have hwopens : w'.t.opens = w.t.opens := congrArg (fun v => v.1.opens) hw
  have hpaths : s'.t.paths = s.t.paths := congrArg FileCalls.paths hs
  have hsopens : s'.t.opens = s.t.opens := congrArg FileCalls.opens hs
  constructor
  · intro hopened
    rw [hopens, hcalls] at hopened
    rw [hpaths, hwpaths, hsopens, hwopens]
    exact h.opened hopened
  · intro hfailed
    rw [hopens, hcalls] at hfailed
    rw [hsopens, hwopens]
    exact h.failed hfailed

theorem fileOpenRs_calls {E : Stop → World → Prop} (name : Str) :
    wp (fileOpenRs name) (fun _ s => AfterOpen w (cString name.data) s) E w := by
  unfold fileOpenRs sysOpen
  simp only [wp_bind, wp_get, wp_set]
  cases hfd : w.k.openFd w.k.fsCalls (cString name.data) with
  | none =>
    have hopens : w.k.opens w.k.fsCalls (cString name.data) = false := by
      unfold Kernel.opens
      rw [hfd]
      rfl
    refine ⟨fun hopened => ?_, fun _ => rfl⟩
    rw [hopens] at hopened
    cases hopened
  | some fd =>
    have hopens : w.k.opens w.k.fsCalls (cString name.data) =
        (!w.k.opened fd && decide (0 ≤ fd)) := by
      unfold Kernel.opens
      rw [hfd]
      rfl
    simp only [wp_ite, wp_bind, wp_modify, wp_pure]
    -- the descriptor must be one that is free
    constructor
    · intro hrefused
      refine ⟨fun hopened => ?_, fun _ => rfl⟩
      rw [hopens, Bool.and_eq_true, decide_eq_true_eq, Bool.not_eq_true'] at hopened
      rcases hrefused with hused | hnegative
      · rw [hopened.1] at hused
        cases hused
      · omega
    · intro hgiven
      have hopened : w.k.opens w.k.fsCalls (cString name.data) = true := by
        rw [hopens, Bool.and_eq_true, decide_eq_true_eq, Bool.not_eq_true']
        obtain ⟨hfree, hnonneg⟩ := not_or.1 hgiven
        exact ⟨Bool.eq_false_iff.2 hfree, by omega⟩
      have hafter : ∀ v : World, v.t.paths = w.t.paths ++ [cString name.data, cString name.data] →
          (∃ x, v.t.opens = w.t.opens ++ [x]) → AfterOpen w (cString name.data) v := by
        intro v hpaths hx
        refine ⟨fun _ => ⟨hpaths, hx⟩, fun hfailed => ?_⟩
        rw [hopened] at hfailed
        cases hfailed
      have hpaths : ∀ p : List UInt8, w.t.paths ++ [p] ++ [p] = w.t.paths ++ [p, p] := by
        intro p
        rw [List.append_assoc]
        rfl
      -- the path and the descriptor are noted whether or not the second `stat` succeeds
      simp only [wp_sysStat]
      generalize Kernel.stat _ _ _ = o
      cases o with
      | none => exact hafter _ (hpaths _) ⟨_, rfl⟩
      | some st => exact hafter _ (hpaths _) ⟨_, rfl⟩

/-- What `serveFile` does after `ehd_file_open_rs`. -/
theorem serveFile_calls (halive : w.r.home ∉ w.t.destroyed) (name : Str) :
    wp (serveFile name) (fun _ s => AfterOpen w (cString name.data) s)
      (fun _ s => w.k.Reliable → AfterOpen w (cString name.data) s) w := by
  unfold serveFile
  rw [wp_bind]
  have htype : wp pushContentType (fun _ w₁ => w.Filling [] w₁)
      (fun _ _ => ¬ w.k.Reliable) w := by
    apply @pushContentType_rule w _ [] _ halive
    · intro _ hs hrefuses hr
      exact hrefuses.not_reliable (hs.k.reliable.2 hr)
    · intro w₁ h₁ _ _ _
      exact h₁
  apply wp_mono (wp_and htype ((pushContentType_keeps filesAndOpened_detached).wp w))
  · rintro _ w₁ ⟨h₁, hfiles₁⟩
    rw [wp_bind]
    apply allocate_rule
    · intro n
      rw [if_neg (by decide), wp_bind]
      apply wp_mono (fileOpenRs_calls (E := fun _ _ => False) name)
      · intro o s hs
        refine wp_mono (Keeps.wp (f := World.files) ?_ s) ?_ ?_
        · apply keeps_bind (modifyRequest_keeps files_detached _)
          intro _
          apply keeps_bind (responseGenHeader_keeps files_detached)
          intro _
          apply keeps_bind (allocate_keeps files_detached)
          intro ok
          apply keeps_ite (keeps_throw _)
          apply keeps_bind (allocate_keeps files_detached)
          intro ok'
          apply keeps_ite (keeps_throw _)
          apply keeps_bind (modifyRequest_keeps files_detached _)
          intro _
          exact startWriting_asks
        · intro _ s' hs'
          exact hs.congr hfiles₁.symm hs'
        · intro _ s' hs' _
          exact hs.congr hfiles₁.symm hs'
      · intro _ _ hfalse
        exact hfalse.elim
    · intro n hrefuses hreliable
      exact absurd (h₁.k.reliable.2 hreliable) hrefuses.not_reliable
  · intro _ _ hstop hreliable
    exact absurd hreliable hstop.1

/-- Where `ehd_http_file_writer_handler` opens a file: after one `stat`, or two in a directory. -/
def beforeOpen (w : World) (dir : Bool) : World :=
  if dir then (asked w).namePath (cString (indexName w.conf w.r.uri)) else asked w

/-- The calls that `ehd_http_file_writer_handler` makes for its answer. -/
structure AnswerCalls (w s : World) : Prop where
  file : ∀ st, w.k.stat w.k.fsCalls (cString (rootName w.conf w.r.uri)) = some st → ∀ name,
    fileAnswer w.conf w.r.uri w.k = .file name →
      AfterOpen (beforeOpen w (st.mode = .dir)) (cString name.data) s
  page : (∀ name, fileAnswer w.conf w.r.uri w.k ≠ .file name) → s.t.opens = w.t.opens

theorem answerCalls_of_asked {v : World} (hv : v.t.opens = w.t.opens)
    (hpage : ∀ name, fileAnswer w.conf w.r.uri w.k ≠ .file name) (hs : s.files = v.files) :
    AnswerCalls w s where
  file _ _ name hname := absurd hname (hpage name)
  page _ := (congrArg FileCalls.opens hs).trans hv

theorem page_calls {v : World} {x : Handler Unit} (hx : AsksNothing x)
    (hv : v.t.opens = w.t.opens) (hpage : ∀ name, fileAnswer w.conf w.r.uri w.k ≠ .file name) :
    wp x (fun _ s => AnswerCalls w s) (fun _ s => w.k.Reliable → AnswerCalls w s) v := by
  apply wp_mono (hx.wp v)
  · intro _ s hs
    exact answerCalls_of_asked hv hpage hs
  · intro _ s hs _
    exact answerCalls_of_asked hv hpage hs

theorem file_calls {st : Stat} {name : Str} {v : World}
    (hstat : w.k.stat w.k.fsCalls (cString (rootName w.conf w.r.uri)) = some st)
    (hv : v = beforeOpen w (st.mode = .dir)) (halive : v.r.home ∉ v.t.destroyed)
    (hreliable : v.k.Reliable ↔ w.k.Reliable)
    (hname : fileAnswer w.conf w.r.uri w.k = .file name) :
    wp (serveFile name) (fun _ s => AnswerCalls w s)
      (fun _ s => w.k.Reliable → AnswerCalls w s) v := by
  have hcalls : ∀ s, AfterOpen v (cString name.data) s → AnswerCalls w s := by
    intro s hs
    constructor
    · intro st' hst' name' hname'
      rw [hstat] at hst'
      rw [hname] at hname'
      injection hst' with hst'
      injection hname' with hname'
      rw [← hst', ← hname', ← hv]
      exact hs
    · intro hpage
      exact absurd hname (hpage name)
  apply wp_mono (serveFile_calls halive name)
  · intro _ s hs
    exact hcalls s hs
  · intro _ s hs hrel
    exact hcalls s (hs (hreliable.2 hrel))

theorem fileWriterHandler_calls (halive : w.r.home ∉ w.t.destroyed) :
    wp fileWriterHandler (fun _ s => AnswerCalls w s)
      (fun _ s => w.k.Reliable → AnswerCalls w s) w := by
  unfold fileWriterHandler
  rw [wp_bind, wp_get, wp_bind, wp_getRequest halive]
  simp only
  rw [wp_bind]
  unfold pcalloc
  rw [wp_bind, wp_allocate]
  constructor
  swap
  · intro hrefused hreliable
    rw [hreliable.1] at hrefused
    cases hrefused
  intro _
  show wp (sysStat (cString (rootName w.conf w.r.uri)) >>= _) _ _
    (w.alloced (w.noted nameCall true))
  rw [wp_bind, wp_sysStat]
  simp only [World.alloced_k_stat, World.alloced_k_fsCalls]
  have hopens : (asked w).t.opens = w.t.opens := rfl
  cases hstat : w.k.stat w.k.fsCalls (cString (rootName w.conf w.r.uri)) with
  | none =>
    apply page_calls (v := asked w) (specialResponseHandler_asks _) hopens
    intro name hname
    simp only [fileAnswer, hstat] at hname
    cases hname
  | some st =>
    by_cases hdir : st.mode = .dir
    · simp only [if_pos hdir]
      unfold serveDirectory
      -- a directory: the redirect, or its index
      by_cases hslash : w.r.uri.data.getD (w.r.uri.len - 1) 0 ≠ 47
      · rw [if_pos hslash]
        apply page_calls (v := asked w) _ hopens
        · intro name hname
          simp only [fileAnswer, hstat, if_pos hdir, directoryAnswer, if_pos hslash] at hname
          cases hname
        · exact keeps_bind (pushHeaderOut_keeps files_detached _)
            fun _ => specialResponseHandler_asks _
      · rw [if_neg hslash]
        show wp (sysStat (cString (indexName w.conf w.r.uri)) >>= _) _ _ (asked w)
        rw [wp_bind, wp_sysStat]
        have hindex : (asked w).k.stat (asked w).k.fsCalls (cString (indexName w.conf w.r.uri)) =
            w.k.stat (w.k.fsCalls + 1) (cString (indexName w.conf w.r.uri)) := rfl
        rw [hindex]
        cases hstat' : w.k.stat (w.k.fsCalls + 1) (cString (indexName w.conf w.r.uri)) with
        | none =>
          apply page_calls (v := (asked w).namePath _) (specialResponseHandler_asks _) hopens
          intro name hname
          simp only [fileAnswer, hstat, if_pos hdir, directoryAnswer, if_neg hslash, hstat'] at hname
          cases hname
        | some st' =>
          have hv : (asked w).namePath (cString (indexName w.conf w.r.uri)) =
              beforeOpen w (st.mode = .dir) := by
            unfold beforeOpen
            rw [if_pos (decide_eq_true hdir)]
          apply file_calls hstat hv halive Iff.rfl
          simp only [fileAnswer, hstat, if_pos hdir, directoryAnswer, if_neg hslash, hstat']
          rfl
    · simp only [if_neg hdir]
      -- neither a directory nor a file is answered like nothing
      by_cases hreg : st.mode ≠ .reg
      · simp only [if_pos hreg]
        apply page_calls (v := asked w) (specialResponseHandler_asks _) hopens
        intro name hname
        simp only [fileAnswer, hstat, if_neg hdir, if_pos hreg] at hname
        cases hname
      · simp only [if_neg hreg]
        have hv : asked w = beforeOpen w (st.mode = .dir) := by
          unfold beforeOpen
          rw [if_neg (by simpa using hdir)]
        apply file_calls (v := asked w) hstat hv halive Iff.rfl
        simp only [fileAnswer, hstat, if_neg hdir, if_neg hreg]
        rfl

/-- For the answer in `s` a descriptor was opened, and the last call, a `stat`, finds a regular
file. -/
def OpenedRegular (w s : World) : Prop :=
  ∃ ps x path st, s.t.paths = w.t.paths ++ ps ∧ s.t.opens = w.t.opens ++ [x] ∧
    ps.getLast? = some path ∧ w.k.stat (w.k.fsCalls + ps.length - 1) path = some st ∧
    st.mode = .reg

/-- The answer in `s` is the page for `error`: a head with that status, and no file. -/
structure PageAnswer (s : World) (error : Nat) : Prop where
  status : s.r.headersOut.status = error
  chain : ∃ head, s.r.response.data.map Buf.bytes = [head, (pageBody error).bytes] ∧
    statusLine s.r.headersOut <+: head
  noFile : ∀ b ∈ s.r.response.data, b.file = none

/-- The answer in `s` has status 200 only with a regular file that was opened, and is otherwise
one page for 302, 403 or 404. -/
structure ServesRegular (w s : World) : Prop where
  served : s.r.headersOut.status = 200 → OpenedRegular w s
  refused : ¬ OpenedRegular w s → ∃! error,
    error ∈ [EHD_HTTP_MOVED_TEMPORARILY, EHD_HTTP_FORBIDDEN, EHD_HTTP_NOT_FOUND] ∧
      PageAnswer s error

/-- Where the checks let a file be opened, it can be opened and is then a regular file. -/
def OpensItsFile (w : World) : Prop :=
  match w.k.stat w.k.fsCalls (cString (rootName w.conf w.r.uri)) with
  | none => True
  | some st =>
    match st.mode with
    | .reg => w.k.opensRegular (w.k.fsCalls + 1) (cString (rootName w.conf w.r.uri)) = true
    | .dir => w.r.uri.data.getD (w.r.uri.len - 1) 0 = 47 →
        w.k.stat (w.k.fsCalls + 1) (cString (indexName w.conf w.r.uri)) ≠ none →
          w.k.opensRegular (w.k.fsCalls + 2) (cString (indexName w.conf w.r.uri)) = true
    | .other => True

/-- After the calls `qs`, a file is opened. -/
theorem AfterOpen.regular_iff {v : World} (h : AfterOpen v path s) (qs : List (List UInt8))
    (hpaths : v.t.paths = w.t.paths ++ qs) (hopens : v.t.opens = w.t.opens)
    (hcalls : v.k.fsCalls = w.k.fsCalls + qs.length)
    (hopen : ∀ n path, v.k.opens n path = w.k.opens n path) :
    OpenedRegular w s ↔ w.k.opensRegular (w.k.fsCalls + qs.length) path = true := by
  have hplace : w.k.fsCalls + (qs ++ [path, path]).length - 1 = w.k.fsCalls + qs.length + 1 := by
    rw [List.length_append]
    rfl
  have hlast : (qs ++ [path, path]).getLast? = some path := by
    rw [List.getLast?_append_of_ne_nil _ (by simp)]
    rfl
  unfold Kernel.opensRegular
  rw [Bool.and_eq_true, Option.any_eq_true]
  have hfailed := h.failed
  have hopened := h.opened
  rw [hcalls, hopen] at hfailed hopened
  constructor
  · rintro ⟨ps, x, path', st, hps, hx, hpath', hst, hreg⟩
    have hok : w.k.opens (w.k.fsCalls + qs.length) path = true := by
      by_contra hnot
      rw [hfailed (Bool.eq_false_iff.2 hnot), hopens] at hx
      exact absurd (congrArg List.length hx) (by simp)
    have hps' : ps = qs ++ [path, path] := by
      rw [(hopened hok).1, hpaths, List.append_assoc] at hps
      exact (List.append_cancel_left hps).symm
    rw [hps', hlast] at hpath'
    rw [hps', hplace, ← Option.some.inj hpath'] at hst
    exact ⟨hok, st, hst, decide_eq_true hreg⟩
  · rintro ⟨hok, st, hst, hreg⟩
    obtain ⟨hps, x, hx⟩ := hopened hok
    refine ⟨qs ++ [path, path], x, path, st, ?_, ?_, hlast, ?_, of_decide_eq_true hreg⟩
    · rw [hps, hpaths, List.append_assoc]
    · rw [hx, hopens]
    · rw [hplace]
      exact hst

theorem answerCalls_regular_iff {name : Str} (h : AnswerCalls w s)
    (hname : fileAnswer w.conf w.r.uri w.k = .file name) :
    OpenedRegular w s ↔ OpensItsFile w := by
  unfold OpensItsFile
  have hfile := hname
  unfold fileAnswer at hfile
  cases hstat : w.k.stat w.k.fsCalls (cString (rootName w.conf w.r.uri)) with
  | none =>
    rw [hstat] at hfile
    cases hfile
  | some st =>
    have hafter := h.file st hstat name hname
    rw [hstat] at hfile
    dsimp only at hfile ⊢
    cases hmode : st.mode with
    | dir =>
      rw [if_pos hmode] at hfile
      unfold directoryAnswer at hfile
      -- a directory without its slash is redirected, one with it has its index opened
      by_cases hslash : w.r.uri.data.getD (w.r.uri.len - 1) 0 ≠ 47
      · rw [if_pos hslash] at hfile
        cases hfile
      · rw [if_neg hslash] at hfile
        cases hindex : w.k.stat (w.k.fsCalls + 1) (cString (indexName w.conf w.r.uri)) with
        | none =>
          rw [hindex] at hfile
          cases hfile
        | some st' =>
          rw [hindex] at hfile
          injection hfile with hfile
          have hbefore : beforeOpen w (st.mode = .dir) =
              (asked w).namePath (cString (indexName w.conf w.r.uri)) := by
            unfold beforeOpen
            rw [if_pos (decide_eq_true hmode)]
          rw [← hfile, hbefore] at hafter
          have hregular := hafter.regular_iff (w := w)
            [cString (rootName w.conf w.r.uri), cString (indexName w.conf w.r.uri)]
            (List.append_assoc _ _ _) rfl rfl fun _ _ => rfl
          rw [hregular]
          exact ⟨fun h _ _ => h, fun h => h (not_not.1 hslash) (by simp)⟩
    | reg =>
      rw [if_neg (by rw [hmode]; decide), if_neg (by rw [hmode]; decide)] at hfile
      injection hfile with hfile
      have hbefore : beforeOpen w (st.mode = .dir) = asked w := by
        unfold beforeOpen
        rw [if_neg (by rw [hmode]; decide)]
      rw [← hfile, hbefore] at hafter
      exact hafter.regular_iff (w := w) [cString (rootName w.conf w.r.uri)] rfl rfl rfl
        fun _ _ => rfl
    | other =>
      rw [if_neg (by rw [hmode]; decide), if_pos (by rw [hmode]; decide)] at hfile
      cases hfile

theorem reading_asked (h : Reading w) : Reading (asked w) :=
  ⟨⟨⟨⟨h.nodup, h.sound, h.hangup⟩, h.fd, h.closed, h.toOpen.pool, h.fresh⟩, h.data, h.home,
    h.requestPool, h.buf⟩, h.mask, h.writeHandler, h.headersOut, h.response⟩

/-- What is true of every answer the handler may have put together is true where it ends. -/
theorem fileWriterHandler_ends {P : World → Prop} (hreading : Reading w)
    (hdone : returns fileWriterHandler w = true ∨ w.k.Reliable)
    (h : ∀ ns s₀ f s, Answered ns (asked w) s₀ (fileAnswer w.conf w.r.uri w.k) f →
      SameChain s₀ s → AnswerCalls w s → P s) : P (after fileWriterHandler w) := by
  have hanswer : wp fileWriterHandler
      (fun _ s => ∃ ns s₀ f, Answered ns (asked w) s₀ (fileAnswer w.conf w.r.uri w.k) f ∧
        SameChain s₀ s)
      (fun _ s => w.k.Reliable → ∃ ns s₀ f,
        Answered ns (asked w) s₀ (fileAnswer w.conf w.r.uri w.k) f ∧ SameChain s₀ s) w := by
    apply fileWriterHandler_asked hreading.alive (by rw [hreading.headersOut]; rfl) _
      (List.mem_singleton.2 rfl)
    · intro s hs hrefuses hreliable
      exact absurd (hs.k.reliable.2 hreliable) hrefuses.not_reliable
    · intro s₀ f ha
      have hsteady : s₀.k.Reliable ↔ w.k.Reliable := ha.k.reliable
      apply wp_mono (startWriting_sameChain (reading_asked hreading) ha)
      · intro _ s hs
        exact ⟨_, s₀, f, ha, hs⟩
      · intro _ s hs hreliable
        exact ⟨_, s₀, f, ha, hs (hsteady.2 hreliable)⟩
    · intro hrefused hreliable
      rw [hreliable.1] at hrefused
      cases hrefused
  have hrun := wp_and hanswer (fileWriterHandler_calls hreading.alive)
  unfold wp at hrun
  unfold returns at hdone
  unfold after
  cases hx : fileWriterHandler w with
  | ok _ s =>
    rw [hx] at hrun
    obtain ⟨⟨ns, s₀, f, ha, hs⟩, hcalls⟩ := hrun
    exact h ns s₀ f s ha hs hcalls
  | error e s =>
    rw [hx] at hrun hdone
    have hreliable := hdone.resolve_left Bool.false_ne_true
    obtain ⟨ns, s₀, f, ha, hs⟩ := hrun.1 hreliable
    exact h ns s₀ f s ha hs (hrun.2 hreliable)

theorem fileAnswer_cases (conf : Conf) (uri : Str) (k : Kernel) :
    (∃ name, fileAnswer conf uri k = .file name) ∨ fileAnswer conf uri k = .redirect ∨
      fileAnswer conf uri k = .page EHD_HTTP_FORBIDDEN ∨
        fileAnswer conf uri k = .page EHD_HTTP_NOT_FOUND := by
  unfold fileAnswer
  cases k.stat k.fsCalls (cString (rootName conf uri)) with
  | none => exact Or.inr (Or.inr (Or.inr rfl))
  | some st =>
    dsimp only
    split
    · unfold directoryAnswer
      split
      · exact Or.inr (Or.inl rfl)
      · cases k.stat (k.fsCalls + 1) (cString (indexName conf uri)) with
        | none => exact Or.inr (Or.inr (Or.inl rfl))
        | some st' => exact Or.inl ⟨_, rfl⟩
    · split
      · exact Or.inr (Or.inr (Or.inr rfl))
      · exact Or.inl ⟨_, rfl⟩

/-- An answer without a file is a page. -/
theorem pageAnswer_of_answered {ns : List (List UInt8)} {v s₀ : World} {f : File} {a : Answer}
    {error : Nat} (ha : Answered ns v s₀ a f) (hs : SameChain s₀ s)
    (hstatus : (a.headersOut v.conf v.r.uri v.r.headersOut f).status = error)
    (hbody : a.body f = pageBody error) : PageAnswer s error := by
  have hheaders := hs.headersOut.trans ha.headersOut
  have hchain := hs.chain
  rw [ha.response] at hchain
  have hhead := headOf_extends (a.headersOut v.conf v.r.uri v.r.headersOut f)
  constructor
  · rw [hheaders]
    exact hstatus
  · refine ⟨(headOf (a.headersOut v.conf v.r.uri v.r.headersOut f)).bytes, ?_, ?_⟩
    · have hbytes := hs.head.bytes
      rw [ha.response, hbody] at hbytes
      exact hbytes
    · rw [hheaders]
      exact hhead.bytes
  · have hfile : (headOf (a.headersOut v.conf v.r.uri v.r.headersOut f)).file = none := by
      rw [hhead.eq]
      rfl
    intro b hb
    have hmem : still b ∈ s.r.response.data.map still := List.mem_map_of_mem hb
    rw [hchain, hbody] at hmem
    have hnone : (still b).2 = false := by
      rcases List.mem_pair.1 hmem with hb | hb
      · rw [hb]
        show (headOf _).file.isSome = false
        rw [hfile]
        rfl
      · rw [hb]
        rfl
    exact Option.isNone_iff_eq_none.1 (by simpa [still] using hnone)

theorem opensItsFile_of_page (hpage : ∀ name, fileAnswer w.conf w.r.uri w.k ≠ .file name) :
    OpensItsFile w := by
  unfold OpensItsFile
  unfold fileAnswer at hpage
  cases hstat : w.k.stat w.k.fsCalls (cString (rootName w.conf w.r.uri)) with
  | none => trivial
  | some st =>
    rw [hstat] at hpage
    dsimp only at hpage ⊢
    cases hmode : st.mode with
    | reg =>
      rw [if_neg (by rw [hmode]; decide), if_neg (by rw [hmode]; decide)] at hpage
      exact absurd rfl (hpage _)
    | dir =>
      rw [if_pos hmode] at hpage
      unfold directoryAnswer at hpage
      intro hslash hindex
      rw [if_neg (not_not.2 hslash)] at hpage
      obtain ⟨st', hst'⟩ := Option.ne_none_iff_exists'.1 hindex
      rw [hst'] at hpage
      exact absurd rfl (hpage _)
    | other => trivial

theorem servesRegular_of_page {error : Nat} (hpage : PageAnswer s error)
    (hmem : error ∈ [EHD_HTTP_MOVED_TEMPORARILY, EHD_HTTP_FORBIDDEN, EHD_HTTP_NOT_FOUND]) :
    ServesRegular w s := by
  constructor
  · intro hstatus
    have herror : error = 200 := hpage.status.symm.trans hstatus
    rw [herror] at hmem
    exact absurd hmem (by decide)
  · intro _
    refine ⟨error, ⟨hmem, hpage⟩, ?_⟩
    intro error' h
    exact h.2.status.symm.trans hpage.status

/-- Whatever `stat` and `open` say for a request, one after the other: the answer has status 200
only with a regular file that was opened, and is otherwise one error page or redirect, exactly when
a file that the checks let through can be opened and is regular. -/
theorem serves_regular_iff (w : World) (hreading : Reading w)
    (hdone : returns fileWriterHandler w = true ∨ w.k.Reliable) :
    ServesRegular w (after fileWriterHandler w) ↔ OpensItsFile w := by
  apply fileWriterHandler_ends (P := fun s => ServesRegular w s ↔ OpensItsFile w) hreading hdone
  intro ns s₀ f s ha hs hcalls
  have hpage : ∀ error, fileAnswer w.conf w.r.uri w.k = .page error →
      errorStatus error = error → PageAnswer s error := by
    intro error hanswer hstatus
    rw [hanswer] at ha
    exact pageAnswer_of_answered ha hs hstatus rfl
  rcases fileAnswer_cases w.conf w.r.uri w.k with ⟨name, hname⟩ | hredirect | hforbidden | hmissing
  · have hstatus : s.r.headersOut.status = 200 := by
      rw [hs.headersOut, ha.headersOut, hname]
      rfl
    rw [← answerCalls_regular_iff hcalls hname]
    constructor
    · intro h
      exact h.served hstatus
    · intro h
      exact ⟨fun _ => h, fun hnot => absurd h hnot⟩
  · apply iff_of_true
    · rw [hredirect] at ha
      have hanswer : PageAnswer s EHD_HTTP_MOVED_TEMPORARILY := pageAnswer_of_answered ha hs rfl rfl
      exact servesRegular_of_page hanswer (by decide)
    · apply opensItsFile_of_page
      intro name hname
      rw [hredirect] at hname
      cases hname
  · apply iff_of_true (servesRegular_of_page (hpage _ hforbidden (by decide)) (by decide))
    apply opensItsFile_of_page
    intro name hname
    rw [hforbidden] at hname
    cases hname
  · apply iff_of_true (servesRegular_of_page (hpage _ hmissing (by decide)) (by decide))
    apply opensItsFile_of_page
    intro name hname
    rw [hmissing] at hname
    cases hname

theorem serves_regular_file :
    ServesRegular (sampleFile ⟨7, ascii "/a.html\x00"⟩)
      (after fileWriterHandler (sampleFile ⟨7, ascii "/a.html\x00"⟩)) := by
  have hopens : OpensItsFile (sampleFile ⟨7, ascii "/a.html\x00"⟩) := by
    show Kernel.opensRegular _ _ _ = true
    decide
  exact (serves_regular_iff _ (sampleFile_reading _) (Or.inr ⟨fun _ _ => rfl, fun _ => rfl⟩)).2
    hopens

def unreadableFile : World :=
  (sampleFile ⟨7, ascii "/a.html\x00"⟩).onK fun k => { k with openFd := fun _ _ => none }

theorem unreadableFile_reading : Reading unreadableFile := by
  have h := sampleFile_reading ⟨7, ascii "/a.html\x00"⟩
  exact ⟨⟨⟨⟨h.nodup, h.sound, h.hangup⟩, h.fd, h.closed, h.toOpen.pool, h.fresh⟩, rfl, h.home,
    h.requestPool, h.buf⟩, rfl, rfl, rfl, rfl⟩

/-- `GET /a.html HTTP/1.1` for a file that may not be read: `open` fails, and the status is 200. -/
theorem unreadable_served : ¬ ∀ (b b' : Buf) (p : ParseState) (w : World),
    parseRequestLine {} b = (.ok, p, b') → p.method = .get → CopiedUri p b' w.r.uri → Reading w →
      (returns fileWriterHandler w = true ∨ w.k.Reliable) →
        ServesRegular w (after fileWriterHandler w) := by
  intro h
  have hparse : parseRequestLine {} (lineBuf "GET /a.html HTTP/1.1\n") =
      (.ok, lineState "GET /a.html HTTP/1.1\n", lineRest "GET /a.html HTTP/1.1\n") := by
    decide
  have huri : CopiedUri (lineState "GET /a.html HTTP/1.1\n") (lineRest "GET /a.html HTTP/1.1\n")
      unreadableFile.r.uri :=
    copiedUri_of_plain (List.replicate 8 0) (by decide) (by decide) (by decide)
  have hserves := h _ _ _ unreadableFile hparse (by decide) huri unreadableFile_reading
    (Or.inr ⟨fun _ _ => rfl, fun _ => rfl⟩)
  obtain ⟨ps, x, _, _, -, hopens, -⟩ := hserves.served (by decide +kernel)
  have hnone : (after fileWriterHandler unreadableFile).t.opens.length = 0 := by decide +kernel
  rw [hopens] at hnone
  simp at hnone

end Http

end Ehd
