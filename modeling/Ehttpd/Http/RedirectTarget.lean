import Ehttpd.Http.QuerySplit
import Ehttpd.Http.Escapes
import Ehttpd.Http.StaleMemory
import Ehttpd.Http.FileMemory
import Mathlib.Data.List.TakeWhile

namespace Ehd.Http

open DotSegments Scanner Program

variable {lead method spaces target us tail v : List UInt8} {ch : UInt8}

theorem takeWhile_append_break {α : Type} {f : α → Bool} {xs ys : List α} (hxs : ∀ x ∈ xs, f x = true)
    (hys : ∀ y, ys.head? = some y → f y = false) : (xs ++ ys).takeWhile f = xs := by
  rw [List.takeWhile_append_of_pos hxs]
  cases ys with
  | nil => rw [List.takeWhile_nil, List.append_nil]
  | cons y ys =>
    have hy := hys y rfl
    rw [List.takeWhile_cons, if_neg (by rw [hy]; decide), List.append_nil]

/-- What ends the URI. -/
theorem LineTail.head (h : LineTail tail) : ∃ c rest, tail = c :: rest ∧ ¬ IsUriChar c := by
  have hspace : ∀ {blanks : List UInt8} (rest : List UInt8), (∀ c ∈ blanks, c = 32) → blanks ≠ [] →
      ∃ c rest', blanks ++ rest = c :: rest' ∧ ¬ IsUriChar c := by
    intro blanks rest hblanks hne
    cases blanks with
    | nil => exact absurd rfl hne
    | cons c blanks =>
      refine ⟨c, blanks ++ rest, rfl, fun hc => ?_⟩
      exact hc.1 (hblanks c List.mem_cons_self)
  cases h with
  | @plain blanks e hblanks he =>
    by_cases hne : blanks = []
    · rw [hne]
      cases he with
      | lf => exact ⟨LF, [], rfl, by decide⟩
      | crlf => exact ⟨CR, [LF], rfl, by decide⟩
    · exact hspace e hblanks hne
  | @version blanks major minor e hblanks hne _ _ _ =>
    obtain ⟨c, rest, heq, hc⟩ := hspace (httpSlash ++ major ++ 46 :: minor ++ e) hblanks hne
    refine ⟨c, rest, ?_, hc⟩
    rw [← heq]
    simp

/-- The first byte of a target. -/
theorem IsTarget.first (h : IsTarget target) :
    target = [47] ∨ ∃ c rest, target = c :: rest ∧ IsLetter c := by
  have hschema : ∀ {schema : List UInt8} (rest : List UInt8), IsSchema schema →
      ∃ c rest', schema ++ rest = c :: rest' ∧ IsLetter c := by
    intro schema rest hs
    obtain ⟨hne, hletters⟩ := hs
    cases schema with
    | nil => exact absurd rfl hne
    | cons c schema => exact ⟨c, schema ++ rest, rfl, hletters c List.mem_cons_self⟩
  cases h with
  | origin => exact Or.inl rfl
  | @absolute schema host hs _ =>
    obtain ⟨c, rest, heq, hc⟩ := hschema (colonSlashSlash ++ host ++ [47]) hs
    refine Or.inr ⟨c, rest, ?_, hc⟩
    rw [← heq]
    simp
  | @withPort schema host port hs _ _ =>
    obtain ⟨c, rest, heq, hc⟩ := hschema (colonSlashSlash ++ host ++ 58 :: (port ++ [47])) hs
    refine Or.inr ⟨c, rest, ?_, hc⟩
    rw [← heq]
    simp

theorem get_slash : ascii "GET /" = ascii "GET" ++ [32, 47] := by decide

/-- A line that starts with `GET /` has one target: the path up to the first byte that ends it. -/
theorem IsRequestHead.origin (h : IsRequestHead lead method spaces target us) (htail : LineTail tail)
    (hpre : requestHead lead method spaces target us ++ tail <+: ascii "GET /" ++ v) :
    lead = [] ∧ method = ascii "GET" ∧ spaces = [32] ∧ target = [47] ∧
      us = v.takeWhile (fun c => decide (IsUriChar c)) := by
  obtain ⟨w, hw⟩ := hpre
  have hget : ascii "GET /" ++ v = ascii "GET" ++ 32 :: 47 :: v := by
    rw [get_slash]
    simp
  have hline : lead ++ (method ++ (spaces ++ (target ++ (us ++ (tail ++ w))))) =
      ascii "GET" ++ 32 :: 47 :: v := by
    rw [← hget, ← hw]
    simp [requestHead]
  have hlead : lead = [] := by
    cases lead with
    | nil => rfl
    | cons c lead =>
      have hc : c = 71 := (List.cons_eq_cons.1 hline).1
      have hbreak := h.breaks c List.mem_cons_self
      rw [hc] at hbreak
      exact absurd hbreak (by unfold IsLineBreak; decide)
  rw [hlead, List.nil_append] at hline
  obtain ⟨blanks, hblanks⟩ : ∃ blanks, spaces = 32 :: blanks := by
    cases hs : spaces with
    | nil => exact absurd hs h.spaces_ne
    | cons c blanks =>
      have hc := h.blank c (by rw [hs]; exact List.mem_cons_self)
      exact ⟨blanks, by rw [hc]⟩
  -- the letters end at the same space in both readings
  have hmethod : method = ascii "GET" := by
    have htake := congrArg (List.takeWhile isUpper) hline
    rw [takeWhile_append_break h.letters, takeWhile_append_break (by decide +kernel)] at htake
    · exact htake
    · intro y hy
      cases hy
      decide
    · intro y hy
      rw [hblanks] at hy
      cases hy
      decide
  rw [hmethod] at hline
  have htarget := h.authority.first
  have hrest : spaces ++ (target ++ (us ++ (tail ++ w))) = [32] ++ 47 :: v :=
    List.append_cancel_left hline
  have hfirst : ∀ y, (target ++ (us ++ (tail ++ w))).head? = some y → decide (y = 32) = false := by
    intro y hy
    rcases htarget with rfl | ⟨c, rest, rfl, hc⟩
    · cases hy
      decide
    · cases hy
      rw [decide_eq_false_iff_not]
      rintro rfl
      exact absurd hc (by decide)
  -- and so do the spaces, since a target starts with none
  have hspaces : spaces = [32] := by
    have htake := congrArg (List.takeWhile fun c => decide (c = 32)) hrest
    rw [takeWhile_append_break (by simpa using h.blank) hfirst,
      takeWhile_append_break (List.forall_mem_singleton.2 (by decide))] at htake
    · exact htake
    · intro y hy
      cases hy
      decide
  rw [hspaces] at hrest
  have hpath : target ++ (us ++ (tail ++ w)) = 47 :: v := List.append_cancel_left hrest
  have hslash : target = [47] := by
    rcases htarget with rfl | ⟨c, rest, rfl, hc⟩
    · rfl
    · have hc47 : c = 47 := (List.cons_eq_cons.1 hpath).1
      rw [hc47] at hc
      exact absurd hc (by decide)
  rw [hslash] at hpath
  have hus : us ++ (tail ++ w) = v := (List.cons_eq_cons.1 hpath).2
  refine ⟨hlead, hmethod, hspaces, hslash, ?_⟩
  obtain ⟨c, rest, rfl, hc⟩ := htail.head
  rw [← hus, takeWhile_append_break]
  · intro x hx
    exact decide_eq_true (h.path x hx)
  · intro y hy
    cases hy
    exact decide_eq_false hc

def requestFor (location : List UInt8) : Buf :=
  { bytes := ascii "GET " ++ location ++ ascii " HTTP/1.1\x0d\n", pos := 0
    size := EHD_DEFAULT_BUF_SIZE }

/-- The line for `location` is accepted, and by the normaliser too if it is marked
complex, and `r->uri` is `uri`. -/
def LeadsTo (location uri : List UInt8) : Prop :=
  ∃ p b, parseRequestLine {} (requestFor location) = (.ok, p, b) ∧ (∃ u, CopiedUri p b u) ∧
    ∀ u, CopiedUri p b u → u.bytes = uri

def OfNames (u : List UInt8) : Prop :=
  ∃ ns, (∀ n ∈ ns, Trail.Name 47 46 n) ∧ u ++ [47] = (⟨ns, []⟩ : Trail UInt8).text 47

structure Addressable (u : List UInt8) : Prop where
  bytes : ∀ c ∈ u, IsUriChar c ∧ c ≠ 37
  names : OfNames u
  /-- no `?` and no NUL, or a segment that starts with a dot before the first `?` -/
  query : 63 ∉ u ∧ 0 ∉ u ∨ Hides (beforeQuery u)

theorem requestFor_unread (us : List UInt8) :
    (requestFor (47 :: us)).unread = ascii "GET /" ++ (us ++ ascii " HTTP/1.1\x0d\n") := by
  have hascii : ascii "GET /" = ascii "GET " ++ [47] := by decide
  unfold requestFor Buf.unread
  rw [List.drop_zero, hascii]
  simp

def uriPart (us : List UInt8) : List UInt8 := us.takeWhile (fun c => decide (IsUriChar c))

theorem uriPart_line (us : List UInt8) :
    (us ++ ascii " HTTP/1.1\x0d\n").takeWhile (fun c => decide (IsUriChar c)) = uriPart us := by
  have hspace : (ascii " HTTP/1.1\x0d\n").takeWhile (fun c => decide (IsUriChar c)) = [] := by
    decide
  unfold uriPart
  induction us with
  | nil => exact hspace
  | cons c us ih =>
    rw [List.cons_append, List.takeWhile_cons, List.takeWhile_cons, ih]

variable {p : ParseState} {b : Buf}

theorem requestFor_marks (hparse : parseRequestLine {} (requestFor (47 :: us)) = (.ok, p, b)) :
    TargetMarks p 4 (uriPart us) ∧ p.uriEnd = 5 + (uriPart us).length := by
  have hok : (parseRequestLine {} (requestFor (47 :: us))).1 = .ok ∨
      (parseRequestLine {} (requestFor (47 :: us))).1 = .invalid09Method := by
    rw [hparse]
    exact Or.inl rfl
  obtain ⟨lead, method, spaces, target, us', tail, hhead, htail, hpre⟩ :=
    (requestLine_accepted_iff rfl).1 hok
  have hline := hpre
  rw [requestFor_unread] at hline
  obtain ⟨rfl, rfl, rfl, rfl, rfl⟩ := hhead.origin htail hline
  obtain ⟨hmarks, hend⟩ := hhead.marks htail hpre (show 4 + 1 = _ from rfl)
  rw [hparse, uriPart_line] at hmarks hend
  exact ⟨hmarks, hend⟩

theorem uriPart_length_le (us : List UInt8) : (uriPart us).length ≤ us.length :=
  (List.takeWhile_prefix _).length_le

theorem uriPart_eq_iff : uriPart us = us ↔ ∀ c ∈ us, IsUriChar c := by
  unfold uriPart
  rw [List.takeWhile_eq_self_iff]
  simp only [decide_eq_true_eq]

theorem requestFor_target (hparse : parseRequestLine {} (requestFor (47 :: us)) = (.ok, p, b))
    (hstart : p.uriStart = 4) (hlen : p.uriLen = (47 :: us).length) : Http.target p b = 47 :: us := by
  have hbytes : b.bytes = (requestFor (47 :: us)).bytes := by
    rw [(parseRequestLine_advances hparse).eq]
  have hascii : ascii "GET " = [71, 69, 84, 32] := by decide
  unfold Http.target Buf.span
  rw [hbytes, hstart, hlen]
  unfold requestFor
  rw [hascii, List.append_assoc]
  exact List.take_left

variable {u : List UInt8}

theorem hides_append_slash (w : List UInt8) : Hides (w ++ [47]) ↔ Hides w := by
  induction w with
  | nil => decide
  | cons c w ih =>
    have hhead : (w ++ [47]).head? = some 46 ↔ w.head? = some 46 := by
      cases w with
      | nil => decide
      | cons d w => exact Iff.rfl
    rw [List.cons_append, hides_cons, hides_cons, hhead, ih]

theorem hides_beforeQuery_slash (u : List UInt8) :
    Hides (beforeQuery (u ++ [47])) ↔ Hides (beforeQuery u) := by
  by_cases hmem : 63 ∈ u
  · have hbefore : beforeQuery (u ++ [47]) = beforeQuery u := Trail.takeWhile_of_mem hmem [47]
    rw [hbefore]
  · have hnil : beforeQuery (u ++ []) = u ++ beforeQuery [] := beforeQuery_append hmem
    have hslash : beforeQuery (u ++ [47]) = u ++ [47] := beforeQuery_append hmem
    rw [List.append_nil] at hnil
    rw [hslash, hides_append_slash, hnil]
    show _ ↔ Hides (u ++ [])
    rw [List.append_nil]

/-- The path of a trail ends in a slash only where no letter follows its last name. -/
theorem ofNames_of_text {t : Trail UInt8} (hok : t.Ok 47 46) (htext : u ++ [47] = t.text 47) :
    OfNames u := by
  have hcur : t.cur = [] := by
    rcases List.eq_nil_or_concat t.cur with hnil | ⟨cs, c, hcs⟩
    · exact hnil
    · have hc : c = 47 := by
        have hlast := congrArg List.getLast? htext
        unfold Trail.text at hlast
        rw [List.getLast?_concat, hcs, List.concat_eq_append, ← List.append_assoc, ← List.cons_append,
          List.getLast?_concat] at hlast
        exact (Option.some.inj hlast).symm
      have hmem : 47 ∈ t.cur := by
        rw [hcs, hc]
        simp
      exact absurd hmem hok.cur
  refine ⟨t.names, hok.names, ?_⟩
  rw [htext, ← hcur]

theorem unescapes_self (h : 37 ∉ u) : Unescapes u u := by
  induction u with
  | nil => exact .nil
  | cons c u ih =>
    have hc : c ≠ 37 := by
      rintro rfl
      exact h List.mem_cons_self
    exact .byte hc (ih fun hmem => h (List.mem_cons_of_mem _ hmem))

/-- A line that leads back to its own path has it as its URI, with no `?` seen. -/
theorem requestFor_whole (hparse : parseRequestLine {} (requestFor (47 :: us)) = (.ok, p, b))
    (hlen : (47 :: us).length ≤ p.uriLen) :
    (∀ c ∈ us, IsUriChar c) ∧ TargetMarks p 4 us ∧ p.uriLen = (47 :: us).length ∧
      (63 ∉ us ∨ Hides (47 :: beforeQuery us)) := by
  obtain ⟨hmarks, hend⟩ := requestFor_marks hparse
  have hle := uriPart_length_le us
  have hunseen : 63 ∉ uriPart us ∨ Hides (47 :: beforeQuery (uriPart us)) := by
    by_contra hnot
    obtain ⟨hquery, hplain⟩ := not_or.1 hnot
    have hquery := not_not.1 hquery
    have hshort := hmarks.uriLen_seen hquery hplain
    have hlt := beforeQuery_lt hquery
    simp only [List.length_cons] at hlen hshort
    omega
  have hlong := hmarks.uriLen_unseen hend hunseen
  have hself : uriPart us = us := by
    have hprefix : uriPart us <+: us := List.takeWhile_prefix _
    apply hprefix.eq_of_length
    simp only [List.length_cons] at hlen hlong
    omega
  rw [hself] at hmarks hlong hunseen
  exact ⟨uriPart_eq_iff.1 hself, hmarks, hlong, hunseen⟩

theorem single_name {n w : List UInt8} (hn : 47 ∉ n) (hw : ¬ [47, 47] <:+: 47 :: w) :
    ¬ [47, 47] <:+: n ++ 47 :: w := by
  induction n with
  | nil => exact hw
  | cons c n ih =>
    have hc : c ≠ 47 := by
      rintro rfl
      exact hn List.mem_cons_self
    rw [List.cons_append, pair_infix_cons]
    rintro (⟨heq, -⟩ | hinfix)
    · exact hc heq
    · exact ih (fun hmem => hn (List.mem_cons_of_mem _ hmem)) hinfix

theorem single_names {ns : List (List UInt8)} (hns : ∀ n ∈ ns, Trail.Name 47 46 n) :
    ¬ [47, 47] <:+: 47 :: ns.flatMap (· ++ [47]) := by
  induction ns with
  | nil => decide
  | cons n ns ih =>
    have hn := hns n List.mem_cons_self
    have hrest := ih fun n' hn' => hns n' (List.mem_cons_of_mem _ hn')
    rw [List.flatMap_cons, List.append_assoc, List.singleton_append, pair_infix_cons]
    rintro (⟨-, hhead⟩ | hinfix)
    · -- a name is not empty and starts with no slash
      cases n with
      | nil => exact hn.nonempty rfl
      | cons c n =>
        have hc : c = 47 := Option.some.inj hhead
        exact hn.whole (by rw [hc]; exact List.mem_cons_self)
    · exact single_name hn.whole hrest hinfix

theorem ofNames_single (h : OfNames u) : ¬ [47, 47] <:+: u ++ [47] := by
  obtain ⟨ns, hns, htext⟩ := h
  rw [htext]
  unfold Trail.text
  rw [List.append_nil]
  exact single_names hns

theorem CopiedUri.no_escape {uri : Str} (h : CopiedUri p b uri) (hcomplex : p.complexUri = true)
    (hlen : (Http.target p b).length ≤ uri.len) : 37 ∉ Http.target p b := by
  cases h with
  | @complex area s _ _ hloop =>
    intro hmem
    have hshort := uriLoop_shrinks (s := .init area) (uriScan_init_plain area) hmem hloop
    have hzero : (UriScan.init area).u = 0 := rfl
    have hu : (Http.target p b).length ≤ s.u := hlen
    omega
  | plain hplain _ =>
    rw [hcomplex] at hplain
    cases hplain

theorem stored_complex {uri : Str} (huri : CopiedUri p b uri)
    (hpath : PathAt b.bytes p (p.uriStart + p.uriLen) fun _ => True) (hcomplex : p.complexUri = true)
    (htarget : Http.target p b = u ++ [47]) (hsame : uri.bytes = u ++ [47]) :
    OfNames u ∧ 37 ∉ u ++ [47] := by
  obtain ⟨t, -, hok, htext, -⟩ := huri.resolved hpath hcomplex
  rw [hsame] at htext
  refine ⟨ofNames_of_text hok htext, ?_⟩
  have hlen : uri.bytes.length ≤ uri.len := List.length_take_le _ _
  rw [hsame] at hlen
  have hescape := huri.no_escape hcomplex (by rw [htarget]; exact hlen)
  rwa [htarget] at hescape

/-- A copy into zeros does not get past a NUL. -/
theorem stored_plain (hcomplex : p.complexUri = false) (hlen : p.uriLen = (u ++ [47]).length)
    (htarget : Http.target p b = u ++ [47])
    (hall : ∀ uri, CopiedUri p b uri → uri.bytes = u ++ [47]) : 0 ∉ u := by
  intro hnul
  have hdrop : 0 ∈ (Http.target p b).dropLast := by
    rw [htarget, List.dropLast_concat]
    exact hnul
  rw [List.length_append, List.length_singleton] at hlen
  have hpos : 0 < p.uriLen := by omega
  have hzero := copiedInto_last (b := b) 0 hpos hdrop
  have hcopy := hall _ (copiedInto_copied (b := b) 0 hcomplex)
  have hlast := getD_bytes (copiedInto 0 p b) (show p.uriLen - 1 < p.uriLen by omega)
  have hslash : (u ++ [47]).getD (p.uriLen - 1) 0 = 47 := by
    have hend : p.uriLen - 1 = u.length := by omega
    rw [hend, List.getD_append_right _ _ _ _ (Nat.le_refl _), Nat.sub_self]
    rfl
  rw [hcopy, hslash] at hlast
  exact absurd (hlast.trans hzero) (by decide)

/-- The line for an addressable directory is accepted, with all of it for its path. -/
theorem addressable_accepted (hchars : ∀ c ∈ us, IsUriChar c)
    (hquery : 63 ∉ us ∨ Hides (47 :: beforeQuery us)) : ∃ p b,
    parseRequestLine {} (requestFor (47 :: us)) = (.ok, p, b) ∧ TargetMarks p 4 us ∧
      p.uriLen = (47 :: us).length := by
  have hhead : IsRequestHead [] (ascii "GET") [32] [47] us := ⟨getMethod, .origin, hchars⟩
  have htail : VersionTail [49] [49] (ascii " HTTP/1.1\x0d\n") :=
    ⟨[32], [CR, LF], by decide, blank_space, by decide, isMajor_one, isMinor_digit (by decide), .crlf⟩
  have hpre : requestHead [] (ascii "GET") [32] [47] us ++ ascii " HTTP/1.1\x0d\n" <+:
      (requestFor (47 :: us)).unread := by
    rw [requestFor_unread, get_slash]
    simp [requestHead]
  obtain ⟨-, -, -, hrc, h09⟩ := hhead.parse_version htail hpre
  have hok : (parseRequestLine {} (requestFor (47 :: us))).1 = .ok :=
    hrc.resolve_right fun hbad => (h09.1 hbad).1 rfl
  have hparse : parseRequestLine {} (requestFor (47 :: us)) =
      (.ok, (parseRequestLine {} (requestFor (47 :: us))).2.1,
        (parseRequestLine {} (requestFor (47 :: us))).2.2) := by
    rw [← hok]
  obtain ⟨hmarks, hend⟩ := requestFor_marks hparse
  rw [uriPart_eq_iff.2 hchars] at hmarks hend
  exact ⟨_, _, hparse, hmarks, hmarks.uriLen_unseen hend hquery⟩

theorem OfNames.normalise (h : OfNames u) : Http.normalise (u ++ [47]) = some (u ++ [47]) := by
  obtain ⟨ns, hns, htext⟩ := h
  have hok : (⟨ns, []⟩ : Trail UInt8).Ok 47 46 := ⟨hns, List.not_mem_nil⟩
  unfold Http.normalise
  rw [htext, hok.ofText_text]
  rfl

section

variable (hus : u ++ [47] = 47 :: us)

include hus

theorem mem_slashed (c : UInt8) : c ∈ 47 :: us ↔ c ∈ u ∨ c = 47 := by
  rw [← hus, List.mem_append, List.mem_singleton]

theorem question_slashed : 63 ∈ us ↔ 63 ∈ u := by
  have h := mem_slashed hus 63
  rw [List.mem_cons] at h
  simpa using h

theorem hides_slashed : Hides (47 :: beforeQuery us) ↔ Hides (beforeQuery u) := by
  rw [← hides_beforeQuery_slash, hus, beforeQuery_cons (by decide)]

/-- A path whose redirect leads back to it is addressable. -/
theorem addressable_of_leadsTo (h : LeadsTo (u ++ [47]) (u ++ [47])) : Addressable u := by
  obtain ⟨p, b, hparse, ⟨v, hv⟩, hall⟩ := h
  have hlen : (47 :: us).length ≤ p.uriLen := by
    have hle := hv.len_le
    have hshort : v.bytes.length ≤ v.len := List.length_take_le _ _
    rw [hall v hv, hus] at hshort
    omega
  rw [hus] at hparse
  obtain ⟨hchars, hmarks, hlong, hunseen⟩ := requestFor_whole hparse hlen
  have htarget := requestFor_target hparse hmarks.uriStart hlong
  rw [← hus] at htarget hlong
  have hbytes : b.bytes = (requestFor (47 :: us)).bytes := by
    rw [(parseRequestLine_advances hparse).eq]
  have hpath := parseRequestLine_path hparse
  rw [← hbytes] at hpath
  -- a complex path was rewritten to itself, a plain one was copied
  have hparts : OfNames u ∧ 37 ∉ u ++ [47] ∧ (63 ∉ u ∧ 0 ∉ u ∨ Hides (beforeQuery u)) := by
    cases hcomplex : p.complexUri with
    | true =>
      obtain ⟨hnames, hescape⟩ := stored_complex hv hpath hcomplex htarget (hall v hv)
      refine ⟨hnames, hescape, Or.inr ?_⟩
      rcases hmarks.complex.1 hcomplex with hhides | hdouble
      · exact (hides_slashed hus).1 hhides
      · -- the mark does not come from two slashes
        have hprefix : beforeQuery us <+: us := List.takeWhile_prefix _
        have hinfix : 47 :: beforeQuery us <+: 47 :: us := List.cons_prefix_cons.2 ⟨rfl, hprefix⟩
        have hsingle := ofNames_single hnames
        rw [hus] at hsingle
        exact absurd (hdouble.trans hinfix.isInfix) hsingle
    | false =>
      obtain ⟨t, ht, htext, -⟩ := hv.copied hpath hcomplex
      rw [htarget] at htext
      have hhides : ¬ Hides (47 :: beforeQuery us) := by
        intro hhides
        have htrue := hmarks.complex.2 (Or.inl hhides)
        rw [hcomplex] at htrue
        cases htrue
      have hquery := hunseen.resolve_right hhides
      refine ⟨ofNames_of_text ht.toOk htext, ?_,
        Or.inl ⟨mt (question_slashed hus).2 hquery, stored_plain hcomplex hlong htarget hall⟩⟩
      intro hpercent
      apply hhides
      rw [hus] at hpercent
      have hself : beforeQuery (us ++ []) = us ++ beforeQuery [] := beforeQuery_append hquery
      rw [List.append_nil] at hself
      rw [hself]
      exact Or.inl (by simpa [beforeQuery] using hpercent)
  obtain ⟨hnames, hescape, hquery⟩ := hparts
  refine ⟨?_, hnames, hquery⟩
  intro c hc
  have hne : c ≠ 37 := by
    rintro rfl
    exact hescape (List.mem_append_left _ hc)
  rcases List.mem_cons.1 ((mem_slashed hus c).2 (Or.inl hc)) with rfl | hc'
  · exact ⟨by decide, hne⟩
  · exact ⟨hchars c hc', hne⟩

/-- An addressable directory is found. -/
theorem leadsTo_of_addressable (h : Addressable u) : LeadsTo (u ++ [47]) (u ++ [47]) := by
  obtain ⟨hchars, hnames, hquery⟩ := h
  have huri : ∀ c ∈ us, IsUriChar c := by
    intro c hc
    rcases (mem_slashed hus c).1 (List.mem_cons_of_mem _ hc) with hc | rfl
    · exact (hchars c hc).1
    · decide
  have hescape : 37 ∉ 47 :: us := by
    intro hpercent
    rcases (mem_slashed hus 37).1 hpercent with hc | hc
    · exact (hchars 37 hc).2 rfl
    · cases hc
  have hunseen : 63 ∉ us ∨ Hides (47 :: beforeQuery us) := by
    rw [question_slashed hus, hides_slashed hus]
    exact hquery.imp_left And.left
  have hnormal := hnames.normalise
  have hdrop : (47 :: us).dropLast = u := by rw [← hus, List.dropLast_concat]
  have hhides := hides_slashed hus
  rw [hus] at hnormal ⊢
  obtain ⟨p, b, hparse, hmarks, hlen⟩ := addressable_accepted huri hunseen
  have htarget := requestFor_target hparse hmarks.uriStart hlen
  -- without an escape the decoded path is the path
  have hloop : ∀ {area : List UInt8}, area.length = p.uriLen + 1 →
      (uriLoop (.init area) (47 :: us) = none ↔ Http.normalise (47 :: us) = none) ∧
      ∀ s, uriLoop (.init area) (47 :: us) = some s →
        Http.normalise (47 :: us) = some (s.data.take s.u) ∧ s.u ≤ s.data.length :=
    fun harea => uriLoop_normalise (by omega) rfl (unescapes_self hescape)
  refine ⟨p, b, hparse, ?_, ?_⟩
  · cases hcomplex : p.complexUri with
    | true =>
      apply copiedUri_of_accepted hcomplex
      rw [htarget, Option.isSome_iff_ne_none]
      intro hnone
      rw [(hloop List.length_replicate).1.1 hnone] at hnormal
      cases hnormal
    | false => exact ⟨_, copiedInto_copied 0 hcomplex⟩
  · intro v hv
    cases hcomplex : p.complexUri with
    | true =>
      cases hv with
      | @complex area s _ harea hrun =>
        have hspan : b.span p.uriStart p.uriLen = 47 :: us := htarget
        rw [hspan] at hrun
        have htake := ((hloop harea).2 s hrun).1
        rw [hnormal] at htake
        show (s.data.set s.u 0).take s.u = _
        rw [List.take_set_of_le (Nat.le_refl _)]
        exact (Option.some.inj htake).symm
      | plain hplain _ =>
        rw [hcomplex] at hplain
        cases hplain
    | false =>
      have hbytes : b.bytes = (requestFor (47 :: us)).bytes := by
        rw [(parseRequestLine_advances hparse).eq]
      have hpath := parseRequestLine_path hparse
      rw [← hbytes] at hpath
      -- a copy stops at a NUL, and there is none
      have hnul : 0 ∉ (Http.target p b).dropLast := by
        rw [htarget, hdrop]
        rcases hquery with ⟨-, hnul⟩ | hdot
        · exact hnul
        · have htrue := hmarks.complex.2 (Or.inl (hhides.2 hdot))
          rw [hcomplex] at htrue
          cases htrue
      rw [(hv.whole hpath hcomplex hnul).2, htarget]

end

/-- The line for a directory leads to it with a slash behind it exactly if the
directory is one that a line can name. -/
theorem leadsTo_iff (hslash : u.head? = some 47) : LeadsTo (u ++ [47]) (u ++ [47]) ↔ Addressable u := by
  obtain ⟨us, hus⟩ : ∃ us, u ++ [47] = 47 :: us := by
    cases u with
    | nil => cases hslash
    | cons c u => exact ⟨u ++ [47], by rw [Option.some.inj hslash]; rfl⟩
  exact ⟨addressable_of_leadsTo hus, leadsTo_of_addressable hus⟩

variable {w w' : World} {b' : Buf}

def locations (w : World) : List (List UInt8) :=
  (w.r.headersOut.headers.entries.filter fun t => t.key.bytes = ascii "Location").map fun t =>
    t.value.bytes

/-- The answer in `s` has one `Location`, which leads to the path of `w` with a slash behind it. -/
def RedirectLeads (w s : World) : Prop :=
  ∃ l, locations s = [l] ∧ LeadsTo l (w.r.uri.bytes ++ [47])

theorem SameHead.locations (h : SameHead w w') : Http.locations w' = Http.locations w := by
  unfold Http.locations
  rw [h.headersOut]

theorem HeadOf.locations {conf : Conf} {uri : Str} {f : File} (hsound : conf.Sound)
    (hfits : uri.len ≤ uri.data.length) (h : HeadOf conf uri .redirect f w) :
    Http.locations w = [uri.bytes ++ [47]] := by
  have hentries : w.r.headersOut.headers.entries =
      [location conf uri, htmlType, serverHeader,
        contentLengthHeader (pageBody EHD_HTTP_MOVED_TEMPORARILY).last] := by
    rw [h.headersOut, ← redirect_entries conf uri f]
  have hothers : ∀ t ∈ [htmlType, serverHeader,
      contentLengthHeader (pageBody EHD_HTTP_MOVED_TEMPORARILY).last],
      ¬ t.key.bytes = ascii "Location" := by
    decide
  have hkey : (location conf uri).key.bytes = ascii "Location" := by
    show (ehdString "Location").bytes = _
    decide
  have hnone : ([htmlType, serverHeader,
      contentLengthHeader (pageBody EHD_HTTP_MOVED_TEMPORARILY).last].filter
        fun t => t.key.bytes = ascii "Location") = [] := by
    apply List.filter_eq_nil_iff.2
    intro t ht hlocation
    exact hothers t ht (of_decide_eq_true hlocation)
  unfold Http.locations
  rw [hentries, List.filter_cons, if_pos (decide_eq_true hkey), hnone, List.map_singleton,
    location_value hsound hfits]

/-- For an accepted request whose path names a directory and has no slash at its end. -/
theorem redirect_leads_iff (hparse : parseRequestLine {} b = (.ok, p, b')) (hreading : Reading w)
    (hsound : w.conf.Sound) (huri : CopiedUri p b' w.r.uri)
    (hdone : returns handler w = true ∨ w.k.Reliable) (hredirect : Redirects w) :
    RedirectLeads w (after handler w) ↔ Addressable w.r.uri.bytes := by
  obtain ⟨t, hstands⟩ := huri.stands hparse
  apply after_handler_head (P := fun s => RedirectLeads w s ↔ Addressable w.r.uri.bytes)
    hreading hdone
  · intro s s' hsame hs
    unfold RedirectLeads
    rw [hsame.locations]
    exact hs
  · intro s f _ hhead
    rw [(answer_redirect_iff w).2 hredirect] at hhead
    have hlocations := hhead.locations hsound hstands.fits
    rw [← leadsTo_iff hstands.head]
    constructor
    · rintro ⟨l, hl, hleads⟩
      rw [hlocations] at hl
      rw [← (List.cons_eq_cons.1 hl).1] at hleads
      exact hleads
    · intro hleads
      exact ⟨_, hlocations, hleads⟩

/-- From `/a` to `/a/`. -/
theorem redirect_leads_plain : RedirectLeads (sampleRedirect ⟨2, ascii "/a\x00"⟩)
    (after handler (sampleRedirect ⟨2, ascii "/a\x00"⟩)) := by
  have hparse : parseRequestLine {} (lineBuf "GET /a HTTP/1.1\n") =
      (.ok, lineState "GET /a HTTP/1.1\n", lineRest "GET /a HTTP/1.1\n") := by
    decide
  have huri : CopiedUri (lineState "GET /a HTTP/1.1\n") (lineRest "GET /a HTTP/1.1\n")
      ⟨2, ascii "/a\x00"⟩ :=
    copiedUri_of_plain [0, 0, 0] (by decide) (by decide) (by decide)
  have hredirect : Redirects (sampleRedirect ⟨2, ascii "/a\x00"⟩) :=
    ⟨rfl, by decide, _, rfl, rfl⟩
  have hnames : OfNames (ascii "/a") := by
    refine ⟨[[97]], ?_, by decide⟩
    intro n hn
    rw [List.mem_singleton.1 hn]
    exact ⟨by decide, by decide, by decide, by decide⟩
  apply (redirect_leads_iff hparse (sampleRedirect_reading _) ehdConfInit_sound huri
    (Or.inr (sampleRedirect_reliable _)) hredirect).2
  exact ⟨by decide +kernel, hnames, Or.inl (by decide +kernel)⟩

/-- The space in the `Location` of the directory `/a b` ends the target. -/
theorem redirect_refused : ∃ (b b' : Buf) (p : ParseState) (w : World),
    parseRequestLine {} b = (.ok, p, b') ∧ Reading w ∧ w.conf.Sound ∧ CopiedUri p b' w.r.uri ∧
    w.k.Reliable ∧ Redirects w ∧ ¬ RedirectLeads w (after handler w) := by
  have hloop : uriLoop (.init (List.replicate 7 0))
      (target (lineState "GET /a%20b HTTP/1.1\n") (lineRest "GET /a%20b HTTP/1.1\n")) =
      some ⟨.usual, .usual, 2, 4, ascii "/a b\x00\x00\x00", none⟩ := by
    decide
  refine ⟨lineBuf "GET /a%20b HTTP/1.1\n", lineRest "GET /a%20b HTTP/1.1\n",
    lineState "GET /a%20b HTTP/1.1\n", sampleRedirect ⟨4, ascii "/a b\x00\x00\x00"⟩,
    by decide, sampleRedirect_reading _, ehdConfInit_sound, ?_, sampleRedirect_reliable _,
    ⟨rfl, by decide, _, rfl, rfl⟩, ?_⟩
  · exact .complex (by decide) (by decide) hloop
  · rintro ⟨l, hl, p, b, hparse, -⟩
    have hlocations : locations (after handler (sampleRedirect ⟨4, ascii "/a b\x00\x00\x00"⟩)) =
        [ascii "/a b/"] := by
      decide +kernel
    have hrc : (parseRequestLine {} (requestFor (ascii "/a b/"))).1 = .invalidRequest := by
      decide
    rw [hlocations] at hl
    rw [← (List.cons_eq_cons.1 hl).1] at hparse
    rw [hparse] at hrc
    cases hrc

/-- A path that `ehd_http_parse_complex_uri` has written is written again as it is exactly when no
`%` is left in it; any other is refused or becomes shorter. -/
theorem normalised_again_iff {path area area' : List UInt8} {s : UriScan}
    (hroom : path.length < area.length) (hslash : path.head? = some 47)
    (h : uriLoop (.init area) path = some s) (hroom' : s.u < area'.length) :
    (∃ s', uriLoop (.init area') (s.data.take s.u) = some s' ∧
      s'.data.take s'.u = s.data.take s.u) ↔ 37 ∉ s.data.take s.u := by
  obtain ⟨t, -, hw⟩ := uriLoop_resolve hroom hslash h
  have hlen : (s.data.take s.u).length = s.u := by
    rw [List.length_take, Nat.min_eq_left hw.fits]
  constructor
  · rintro ⟨s', hs', hsame⟩ hmem
    have hshort := uriLoop_shrinks (uriScan_init_plain area') hmem hs'
    have hle : (s'.data.take s'.u).length ≤ s'.u := List.length_take_le _ _
    have hzero : (UriScan.init area').u = 0 := rfl
    rw [hsame] at hle
    omega
  · intro hnone
    -- the path of a trail has the same trail
    have hself : normalise (s.data.take s.u) = some (s.data.take s.u) := by
      unfold normalise
      rw [hw.text, hw.ok.ofText_text]
      rfl
    have hhead : (s.data.take s.u).head? = some 47 := by
      rw [hw.text]
      rfl
    rw [← hlen] at hroom'
    obtain ⟨hrefused, hwritten⟩ := uriLoop_normalise hroom' hhead (unescapes_self hnone)
    cases hs' : uriLoop (.init area') (s.data.take s.u) with
    | none =>
      rw [hrefused.1 hs'] at hself
      cases hself
    | some s' =>
      obtain ⟨hnormal, -⟩ := hwritten s' hs'
      exact ⟨s', rfl, Option.some.inj (hnormal.symm.trans hself)⟩

/-- `/a%252fb` is written as `/a%2fb`, and that as `/a/b`. -/
theorem normalised_again_escaped :
    ¬ ∃ s', uriLoop (.init (List.replicate 9 0)) (ascii "/a%2fb") = some s' ∧
      s'.data.take s'.u = ascii "/a%2fb" := by
  have hfirst : uriLoop (.init (List.replicate 9 0)) (ascii "/a%252fb") =
      some ⟨.usual, .usual, 2, 6, ascii "/a%2fb\x00\x00\x00", none⟩ := by decide
  intro hagain
  exact (normalised_again_iff (by decide) (by decide) hfirst (by decide)).1 hagain (by decide)

end Ehd.Http
