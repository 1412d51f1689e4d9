import Ehttpd.Http.ResponseHead

namespace Ehd.Http

def checkedMemcpy (dst : List UInt8) (off : Nat) (src : List UInt8) (n : Nat) :
    Option (List UInt8) :=
  if off + n ≤ dst.length ∧ n ≤ src.length then some (memcpy dst off src n) else none

def checkedStore (area : List UInt8) (i : Nat) (ch : UInt8) : Option (List UInt8) :=
  if i < area.length then some (area.set i ch) else none

def readUri (uri : Str) (i : Nat) : Option UInt8 := if i < uri.len then uri.data[i]? else none

/-- The area as a C string, when a NUL stands behind the name of `n` bytes in it. -/
def checkedName (area : List UInt8) (n : Nat) : Option (List UInt8) :=
  if area[n]? = some 0 then some (cString area) else none

def checkedExtMatches (ext : List UInt8) (uri : Str) : Nat → Option Bool
  | 0 => some true
  | j + 1 =>
    (readUri uri ((uri.len + 2 ^ 64 - ext.length + j) % 2 ^ 64)).bind fun ch =>
      if ext.getD j 0 ≠ ch then some false else checkedExtMatches ext uri j

def checkedContentType (uri : Str) :
    List (List UInt8 × List UInt8) → Option (Option (List UInt8))
  | [] => some none
  | e :: es =>
    (checkedExtMatches e.1 uri e.1.length).bind fun found =>
      if found then some (some e.2) else checkedContentType uri es

/-- The branch for a directory, with the content type of the file that is served. -/
def checkedDirectoryAnswer (conf : Conf) (uri : Str) (k : Kernel) (area : List UInt8) :
    Option (Answer × Option (List UInt8)) := do
  if (← readUri uri (uri.len - 1)) ≠ 47 then
    let area ← checkedMemcpy area 0 uri.data uri.len
    let _ ← checkedStore area uri.len 47
    return (.redirect, none)
  else
    let area ← checkedMemcpy area (conf.root.len + uri.len) conf.index.data conf.index.len
    let name ← checkedName area (conf.root.len + uri.len + conf.index.len)
    match k.stat (k.fsCalls + 1) name with
    | none => return (.page EHD_HTTP_FORBIDDEN, none)
    | some _ =>
      let ty ← checkedContentType uri mime
      return (.file ⟨conf.root.len + uri.len + conf.index.len, area⟩, ty)

def checkedFileAnswer (conf : Conf) (uri : Str) (k : Kernel) :
    Option (Answer × Option (List UInt8)) := do
  let area := List.replicate (conf.root.len + uri.len + conf.index.len + 2) 0
  let area ← checkedMemcpy area 0 conf.root.data conf.root.len
  let area ← checkedMemcpy area conf.root.len uri.data uri.len
  let name ← checkedName area (conf.root.len + uri.len)
  match k.stat k.fsCalls name with
  | none => return (.page EHD_HTTP_NOT_FOUND, none)
  | some s =>
    if s.mode = .dir then checkedDirectoryAnswer conf uri k area
    else if s.mode ≠ .reg then return (.page EHD_HTTP_NOT_FOUND, none)
    else
      let ty ← checkedContentType uri mime
      return (.file ⟨conf.root.len + uri.len, area⟩, ty)

/-- The content type of an answer: only a file has one from the table. -/
def Answer.fileType (uri : Str) : Answer → Option (List UInt8)
  | .file _ => contentType uri
  | _ => none

section

variable {dst src : List UInt8} {off n i : Nat}

theorem memcpy_length (hdst : off + n ≤ dst.length) (hsrc : n ≤ src.length) :
    (memcpy dst off src n).length = dst.length := by
  unfold memcpy
  simp only [List.length_append, List.length_take, List.length_drop]
  omega

theorem memcpy_behind (hdst : off + n ≤ dst.length) (hsrc : n ≤ src.length) (hi : off + n ≤ i) :
    (memcpy dst off src n)[i]? = dst[i]? := by
  have hlen : (dst.take off ++ src.take n).length = off + n := by
    simp only [List.length_append, List.length_take]
    omega
  unfold memcpy
  rw [List.getElem?_append_right (by omega), hlen, List.getElem?_drop]
  congr 1
  omega

theorem checkedMemcpy_eq (hdst : off + n ≤ dst.length) (hsrc : n ≤ src.length) :
    checkedMemcpy dst off src n = some (memcpy dst off src n) := if_pos ⟨hdst, hsrc⟩

end

/-- What both parsers leave in `r->uri`: at least a slash, in an area that has all of it and
a NUL. -/
structure StoredPath (uri : Str) : Prop where
  nonempty : 0 < uri.len
  fits : uri.len ≤ uri.data.length
  first : uri.data[0]? = some 47
  size : uri.len < 2 ^ 64
  nul : 0 ∈ uri.data

theorem cpystrn_nul_mem (dst src : List UInt8) {n : Nat} (hdst : n < dst.length) :
    0 ∈ cpystrn dst src (n + 1) := by
  induction n generalizing dst src with
  | zero =>
    cases dst with
    | nil => cases hdst
    | cons d dst => exact List.mem_cons_self
  | succ n ih =>
    cases dst with
    | nil => cases hdst
    | cons d dst =>
      unfold cpystrn
      split
      · exact List.mem_cons_self
      · apply List.mem_cons_of_mem
        apply ih
        simpa using hdst

section

variable {p : ParseState} {b b' : Buf} {uri : Str}

theorem CopiedUri.len_le (h : CopiedUri p b uri) : uri.len ≤ p.uriLen := by
  cases h with
  | @complex area s _ _ hloop =>
    have hu := uriLoop_u hloop
    have hspan : (b.span p.uriStart p.uriLen).length ≤ p.uriLen := List.length_take_le _ _
    have hzero : (UriScan.init area).u = 0 := rfl
    show s.u ≤ p.uriLen
    omega
  | plain _ _ => exact Nat.le_refl _

theorem CopiedUri.nul (h : CopiedUri p b uri) : 0 ∈ uri.data := by
  have hlen := h.len_le
  have hdata := h.data_length
  cases h with
  | @complex area s _ _ _ =>
    rw [List.length_set] at hdata
    apply List.mem_set
    show s.u < s.data.length
    have hu : s.u ≤ p.uriLen := hlen
    omega
  | @plain area _ harea =>
    apply cpystrn_nul_mem
    omega

/-- What an accepted request line leaves in `r->uri`. -/
theorem CopiedUri.stored (h : CopiedUri p b' uri) (hparse : parseRequestLine {} b = (.ok, p, b'))
    (hbuf : b.bytes.length < 2 ^ 64) : StoredPath uri := by
  have hbytes : b'.bytes = b.bytes := by rw [(parseRequestLine_advances hparse).eq]
  have hpath := parseRequestLine_path hparse
  have hle := hpath.le
  have hlen := h.len_le
  rw [← hbytes] at hpath
  obtain ⟨t, -, hstands⟩ := h.standsFor hpath
  have hhead := hstands.head
  have hpos : 0 < uri.len := by
    rw [hstands.len]
    exact Nat.succ_pos _
  refine ⟨hpos, hstands.fits, ?_, by omega, h.nul⟩
  rw [← hhead]
  unfold Str.bytes
  rw [List.head?_take, if_neg (by omega), List.head?_eq_getElem?]

end

section

variable {uri : Str} {ext : List UInt8} {j : Nat}

theorem ext_index (hsize : uri.len < 2 ^ 64) (hlen : ext.length < 2 ^ 64)
    (hext : ext.length ≤ uri.len + j) (hj : j < ext.length) :
    (uri.len + 2 ^ 64 - ext.length + j) % 2 ^ 64 = uri.len + j - ext.length := by
  omega

theorem readUri_eq (h : StoredPath uri) {i : Nat} (hi : i < uri.len) :
    readUri uri i = some (uri.data.getD i 0) := by
  have hfits := h.fits
  unfold readUri
  rw [if_pos hi, List.getD_eq_getElem?_getD, List.getElem?_eq_getElem (by omega)]
  rfl

theorem stored_getD_zero (h : StoredPath uri) : uri.data.getD 0 0 = 47 := by
  rw [List.getD_eq_getElem?_getD, h.first]
  rfl

/-- The loop stops at the first slash of the path at the latest, and its index has not
wrapped by then; by induction on `j`. -/
theorem checkedExtMatches_eq (h : StoredPath uri) (hlen : ext.length < 2 ^ 64)
    (hslash : 47 ∉ ext) : ∀ j, j ≤ ext.length →
    (uri.len < ext.length → ext.length - uri.len < j) →
    checkedExtMatches ext uri j = some (extMatches ext uri j) := by
  intro j
  induction j with
  | zero =>
    intro _ _
    rfl
  | succ j ih =>
    intro hj hshort
    have hsize := h.size
    have hindex : (uri.len + 2 ^ 64 - ext.length + j) % 2 ^ 64 = uri.len + j - ext.length :=
      ext_index hsize hlen (by omega) hj
    have hread := readUri_eq h (show uri.len + j - ext.length < uri.len by omega)
    unfold checkedExtMatches extMatches
    rw [hindex, hread, Option.bind_some]
    by_cases hne : ext.getD j 0 ≠ uri.data.getD (uri.len + j - ext.length) 0
    · rw [if_pos hne, if_pos hne]
    · rw [if_neg hne, if_neg hne]
      apply ih (by omega)
      intro hlt
      -- an index of zero would have found the slash in the extension
      have hpos : j ≠ ext.length - uri.len := by
        intro heq
        apply hne
        intro hsame
        rw [show uri.len + j - ext.length = 0 by omega, stored_getD_zero h] at hsame
        apply hslash
        rw [← hsame, List.getD_eq_getElem _ _ hj]
        exact List.getElem_mem _
      omega

/-- The loop finds `true` when no index has found another letter. -/
theorem extMatches_eq_true : extMatches ext uri j = true ↔ ∀ i < j,
    ext.getD i 0 = uri.data.getD ((uri.len + 2 ^ 64 - ext.length + i) % 2 ^ 64) 0 := by
  induction j with
  | zero =>
    constructor
    · intro _ i hi
      cases hi
    · intro _
      rfl
  | succ j ih =>
    unfold extMatches
    constructor
    · intro h i hi
      split at h
      · cases h
      · rename_i hsame
        rcases Nat.lt_succ_iff_lt_or_eq.1 hi with hlt | rfl
        · exact ih.1 h i hlt
        · exact not_not.1 hsame
    · intro h
      rw [if_neg (not_not.2 (h j (Nat.lt_succ_self j)))]
      exact ih.2 fun i hi => h i (Nat.lt_succ_of_lt hi)

/-- The comparison finds the extensions that the path ends in. -/
theorem extMatches_iff (h : StoredPath uri) (hlen : ext.length < 2 ^ 64) (hslash : 47 ∉ ext) :
    extMatches ext uri ext.length = true ↔ ext <:+ uri.bytes := by
  have hsize := h.size
  have hbytes := uri_bytes_length h.fits
  have hget : ∀ i < uri.len, uri.bytes[i]? = some (uri.data.getD i 0) := by
    intro i hi
    have hfits := h.fits
    unfold Str.bytes
    rw [List.getElem?_take, if_pos hi, List.getD_eq_getElem?_getD,
      List.getElem?_eq_getElem (by omega)]
    rfl
  rw [extMatches_eq_true]
  by_cases hshort : uri.len < ext.length
  · -- the slash that the path starts with is not in the extension
    have hpos := h.nonempty
    constructor
    · intro hall
      have hlt : ext.length - uri.len < ext.length := by omega
      have hfirst := hall _ hlt
      rw [ext_index hsize hlen (by omega) hlt,
        show uri.len + (ext.length - uri.len) - ext.length = 0 by omega, stored_getD_zero h,
        List.getD_eq_getElem _ _ hlt] at hfirst
      exact absurd (hfirst ▸ List.getElem_mem hlt) hslash
    · intro hsuffix
      have hle := hsuffix.length_le
      omega
  · have hdrop : (uri.bytes.drop (uri.len - ext.length)).length = ext.length := by
      rw [List.length_drop]
      omega
    rw [List.suffix_iff_eq_drop, hbytes]
    constructor
    · intro hall
      apply List.ext_getElem?
      intro i
      by_cases hi : i < ext.length
      · have hsame := hall i hi
        rw [ext_index hsize hlen (by omega) hi, List.getD_eq_getElem _ _ hi] at hsame
        rw [List.getElem?_drop, hget _ (by omega), List.getElem?_eq_getElem hi, hsame,
          show uri.len - ext.length + i = uri.len + i - ext.length by omega]
      · rw [List.getElem?_eq_none (by omega), List.getElem?_eq_none (by omega)]
    · intro heq i hi
      have hsame := congrArg (fun l : List UInt8 => l[i]?) heq
      simp only [List.getElem?_drop] at hsame
      rw [hget _ (by omega), List.getElem?_eq_getElem hi] at hsame
      rw [ext_index hsize hlen (by omega) hi, List.getD_eq_getElem _ _ hi, Option.some.inj hsame,
        show uri.len - ext.length + i = uri.len + i - ext.length by omega]

theorem mime_extensions : ∀ e ∈ mime, e.1.length < 2 ^ 64 ∧ 47 ∉ e.1 := by decide

theorem checkedContentType_eq (h : StoredPath uri) :
    checkedContentType uri mime = some (contentType uri) := by
  have table : ∀ es : List (List UInt8 × List UInt8),
      (∀ e ∈ es, e.1.length < 2 ^ 64 ∧ 47 ∉ e.1) →
      checkedContentType uri es =
        some ((es.find? fun e => extMatches e.1 uri e.1.length).map Prod.snd) := by
    intro es
    induction es with
    | nil =>
      intro _
      rfl
    | cons e es ih =>
      intro hes
      have hpos := h.nonempty
      obtain ⟨hlen, hslash⟩ := hes e List.mem_cons_self
      have he := checkedExtMatches_eq h hlen hslash e.1.length (Nat.le_refl _) (by omega)
      unfold checkedContentType
      rw [he, Option.bind_some, List.find?_cons]
      cases extMatches e.1 uri e.1.length with
      | true => rfl
      | false => exact ih fun e' he' => hes e' (List.mem_cons_of_mem _ he')
  exact table mime mime_extensions

end

section

variable {conf : Conf} {uri : Str}

theorem rootArea_length (hroot : conf.root.len ≤ conf.root.data.length) :
    (memcpy (List.replicate (conf.root.len + uri.len + conf.index.len + 2) 0) 0 conf.root.data
      conf.root.len).length = conf.root.len + uri.len + conf.index.len + 2 := by
  rw [memcpy_length _ hroot, List.length_replicate]
  rw [List.length_replicate]
  omega

theorem rootName_length (hroot : conf.root.len ≤ conf.root.data.length)
    (huri : uri.len ≤ uri.data.length) :
    (rootName conf uri).length = conf.root.len + uri.len + conf.index.len + 2 := by
  have harea := @rootArea_length conf uri hroot
  unfold rootName
  rw [memcpy_length _ huri, harea]
  omega

theorem rootName_behind (hroot : conf.root.len ≤ conf.root.data.length)
    (huri : uri.len ≤ uri.data.length) {i : Nat} (hi : conf.root.len + uri.len ≤ i)
    (hlt : i < conf.root.len + uri.len + conf.index.len + 2) : (rootName conf uri)[i]? = some 0 := by
  have harea := @rootArea_length conf uri hroot
  have hzero : (List.replicate (conf.root.len + uri.len + conf.index.len + 2) (0 : UInt8)).length =
      conf.root.len + uri.len + conf.index.len + 2 := List.length_replicate
  unfold rootName
  rw [memcpy_behind (by omega) huri hi, memcpy_behind (by omega) hroot (by omega),
    List.getElem?_replicate, if_pos hlt]

theorem indexName_behind (hroot : conf.root.len ≤ conf.root.data.length)
    (hindex : conf.index.len ≤ conf.index.data.length) (huri : uri.len ≤ uri.data.length) :
    (indexName conf uri)[conf.root.len + uri.len + conf.index.len]? = some 0 := by
  have hlen := rootName_length hroot huri
  unfold indexName
  rw [memcpy_behind (by omega) hindex (Nat.le_refl _)]
  exact rootName_behind hroot huri (by omega) (by omega)

theorem checkedDirectoryAnswer_eq (hroot : conf.root.len ≤ conf.root.data.length)
    (hindex : conf.index.len ≤ conf.index.data.length) (h : StoredPath uri) (k : Kernel) :
    checkedDirectoryAnswer conf uri k (rootName conf uri) =
      let a := directoryAnswer conf uri (k.stat (k.fsCalls + 1) (cString (indexName conf uri)))
      some (a, a.fileType uri) := by
  have hpos := h.nonempty
  have hfits := h.fits
  have hlen := @rootName_length conf uri hroot hfits
  have hlast : readUri uri (uri.len - 1) = some (uri.data.getD (uri.len - 1) 0) :=
    readUri_eq h (by omega)
  unfold checkedDirectoryAnswer directoryAnswer
  simp only [Option.bind_eq_bind, hlast, Option.bind_some]
  by_cases hslash : uri.data.getD (uri.len - 1) 0 ≠ 47
  · have hcopy := @checkedMemcpy_eq (rootName conf uri) uri.data 0 uri.len (by omega) hfits
    have hstore : uri.len < (memcpy (rootName conf uri) 0 uri.data uri.len).length := by
      rw [memcpy_length (by omega) hfits]
      omega
    rw [if_pos hslash, if_pos hslash, hcopy, Option.bind_some]
    unfold checkedStore
    rw [if_pos hstore, Option.bind_some]
    rfl
  · have hcopy := @checkedMemcpy_eq (rootName conf uri) conf.index.data
      (conf.root.len + uri.len) conf.index.len (by omega) hindex
    have hname : checkedName (indexName conf uri) (conf.root.len + uri.len + conf.index.len) =
        some (cString (indexName conf uri)) := if_pos (indexName_behind hroot hindex hfits)
    rw [if_neg hslash, if_neg hslash, hcopy, Option.bind_some]
    show (checkedName (indexName conf uri) _).bind _ = _
    rw [hname, Option.bind_some]
    cases k.stat (k.fsCalls + 1) (cString (indexName conf uri)) with
    | none => rfl
    | some s =>
      dsimp only
      rw [checkedContentType_eq h]
      rfl

/-- For every accepted request line, every root and every index, whatever `stat` says: with
every access checked the handler comes to the answer that it has without, and to the
content type.  So no write is outside `filename.data`, a NUL follows each name that is given
to `stat` and `open`, and no read is outside the path.  The string that it prints, the
path, ends inside its area too. -/
theorem file_accesses_in_range {b b' : Buf} {p : ParseState}
    (hparse : parseRequestLine {} b = (.ok, p, b')) (hbuf : b.bytes.length < 2 ^ 64)
    (huri : CopiedUri p b' uri) (hroot : conf.root.len ≤ conf.root.data.length)
    (hindex : conf.index.len ≤ conf.index.data.length) (k : Kernel) :
    checkedFileAnswer conf uri k =
        some (fileAnswer conf uri k, (fileAnswer conf uri k).fileType uri) ∧
      0 ∈ uri.data := by
  have h := huri.stored hparse hbuf
  have hfits := h.fits
  refine ⟨?_, h.nul⟩
  have hzero : (List.replicate (conf.root.len + uri.len + conf.index.len + 2) (0 : UInt8)).length =
      conf.root.len + uri.len + conf.index.len + 2 := List.length_replicate
  have harea := @rootArea_length conf uri hroot
  have hfirst := @checkedMemcpy_eq (List.replicate (conf.root.len + uri.len + conf.index.len + 2) 0)
    conf.root.data 0 conf.root.len (by omega) hroot
  have hsecond := @checkedMemcpy_eq (memcpy (List.replicate (conf.root.len + uri.len +
    conf.index.len + 2) 0) 0 conf.root.data conf.root.len) uri.data conf.root.len uri.len
    (by omega) hfits
  have hname : checkedName (rootName conf uri) (conf.root.len + uri.len) =
      some (cString (rootName conf uri)) :=
    if_pos (rootName_behind hroot hfits (Nat.le_refl _) (by omega))
  unfold checkedFileAnswer fileAnswer
  simp only [Option.bind_eq_bind, hfirst, hsecond, Option.bind_some]
  show (checkedName (rootName conf uri) _).bind _ = _
  rw [hname, Option.bind_some]
  cases k.stat k.fsCalls (cString (rootName conf uri)) with
  | none => rfl
  | some s =>
    dsimp only
    by_cases hdir : s.mode = .dir
    · rw [if_pos hdir, if_pos hdir]
      exact checkedDirectoryAnswer_eq hroot hindex h k
    · rw [if_neg hdir, if_neg hdir]
      by_cases hreg : s.mode ≠ .reg
      · rw [if_pos hreg, if_pos hreg]
        rfl
      · rw [if_neg hreg, if_neg hreg, checkedContentType_eq h]
        rfl

def regularKernel : Kernel :=
  { sampleKernel [] [] with stat := fun _ _ => some ⟨.reg, 3, by decide⟩ }

/-- A path that is shorter than the extension `css`, in the last letter of which it ends: no type
is found, and nothing before the path is read. -/
theorem file_accesses_in_range_short :
    checkedFileAnswer ehdConfInit ⟨2, ascii "/s\x00"⟩ regularKernel =
        some (.file ⟨16, rootName ehdConfInit ⟨2, ascii "/s\x00"⟩⟩, none) ∧
      0 ∈ ascii "/s\x00" := by
  have hparse : parseRequestLine {} (lineBuf "GET /s HTTP/1.1\n") =
      (.ok, lineState "GET /s HTTP/1.1\n", lineRest "GET /s HTTP/1.1\n") := by
    decide
  have huri : CopiedUri (lineState "GET /s HTTP/1.1\n") (lineRest "GET /s HTTP/1.1\n")
      ⟨2, ascii "/s\x00"⟩ :=
    copiedUri_of_plain [0, 0, 0] (by decide) (by decide) (by decide)
  have hfile : fileAnswer ehdConfInit ⟨2, ascii "/s\x00"⟩ regularKernel =
      .file ⟨16, rootName ehdConfInit ⟨2, ascii "/s\x00"⟩⟩ := rfl
  have htype : contentType ⟨2, ascii "/s\x00"⟩ = none := by decide
  have hall := @file_accesses_in_range ehdConfInit _ _ _ _ hparse (by decide) huri (by decide)
    (by decide) regularKernel
  rw [hfile] at hall
  exact ⟨hall.1.trans (congrArg (fun t => some (_, t)) htype), hall.2⟩

end

end Ehd.Http
