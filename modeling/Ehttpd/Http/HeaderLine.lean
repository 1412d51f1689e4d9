import Ehttpd.Http.HeaderLineGrammar

namespace Ehd.Http

open Scanner Pattern

structure IsHeaderLine (name value ending : List UInt8) : Prop where
  nonempty : name ≠ []
  chars : ∀ ch ∈ name, IsNameChar ch
  value : ∀ ch ∈ value, IsValueChar ch
  ends : IsLineEnd ending

def headerLine (name value ending : List UInt8) : List UInt8 := name ++ 58 :: (value ++ ending)

def HeaderLine (line : List UInt8) : Prop :=
  ∃ name value ending, line = headerLine name value ending ∧ IsHeaderLine name value ending

def trimmed (value : List UInt8) : List UInt8 := (value.dropWhile (· == 32)).rdropWhile (· == 32)

variable {name value ending w line : List UInt8}

theorem headerLinePattern_iff : HeaderLinePattern w ↔ HeaderLine w := by
  constructor
  · rintro ⟨c, _, rfl, hc, cs, _, rfl, hcs, d, _, rfl, rfl, value, ending, rfl, hvalue, hends⟩
    refine ⟨c :: cs, value, ending, rfl, by simp, ?_, hvalue, lineEnd_iff.1 hends⟩
    intro ch hch
    rcases List.mem_cons.1 hch with rfl | hch
    · exact hc
    · exact hcs ch hch
  · rintro ⟨name, value, ending, rfl, hline⟩
    obtain ⟨c, cs, rfl⟩ := List.exists_cons_of_ne_nil hline.nonempty
    refine ⟨c, _, rfl, hline.chars c List.mem_cons_self, cs, _, rfl, ?_, 58, _, rfl, rfl, value,
      ending, rfl, hline.value, lineEnd_iff.2 hline.ends⟩
    intro ch hch
    exact hline.chars ch (List.mem_cons_of_mem _ hch)

theorem headerLine_leads : HeaderLineLeads .start w .done ↔ HeaderLine w :=
  headerLine_leads_iff.trans headerLinePattern_iff

theorem headerEnd_leads : HeaderLineLeads .start w .headerDone ↔ IsLineEnd w :=
  headerBlock_leads_iff.trans lineEnd_iff

section Marks

variable {buf : List UInt8} {r : ParseState} {p : Nat} {v spaces core : List UInt8}

theorem header_lineEnd {st : HeaderLineSw} {f : ParseState → ParseState} (hst : st.final = false)
    (he : IsLineEnd ending) (hcr : headerLineStep buf st r (p + 1) CR = .next .almostDone (f r))
    (hlf : headerLineStep buf st r (p + 1) LF = .next .done (f r)) :
    headerLineLoop buf st r p (ending ++ v) = .exit .done (f r) (p + ending.length) := by
  cases he with
  | lf =>
    show headerLineLoop buf st r p (LF :: v) = _
    rw [scan_cons_next hst hlf]
    exact scan_of_final rfl _ _ _
  | crlf =>
    have hdone : headerLineStep buf .almostDone (f r) (p + 1 + 1) LF = .next .done (f r) := rfl
    show headerLineLoop buf st r p (CR :: LF :: v) = _
    rw [scan_cons_next hst hcr, scan_cons_next rfl hdone]
    exact scan_of_final rfl _ _ _

theorem header_spaces (h : ∀ ch ∈ spaces, ch = 32) :
    headerLineLoop buf .spaceBeforeValue r p (spaces ++ v) =
      headerLineLoop buf .spaceBeforeValue r (p + spaces.length) v := by
  refine scan_many (C := (· = 32)) rfl ?_ h p
  rintro ch rfl q
  rfl

/-- The spaces behind a value, and the end of the line: the first of them ends the value. -/
theorem header_tail (h : ∀ ch ∈ spaces, ch = 32) (he : IsLineEnd ending) :
    headerLineLoop buf .value r p (spaces ++ (ending ++ v)) =
      .exit .done { r with headerEnd := p } (p + spaces.length + ending.length) := by
  cases spaces with
  | nil =>
    apply header_lineEnd (f := fun r => { r with headerEnd := p }) rfl he
    · rfl
    · rfl
  | cons ch spaces =>
    obtain rfl := h ch List.mem_cons_self
    have hfirst : headerLineStep buf .value r (p + 1) 32 =
        .next .spaceAfterValue { r with headerEnd := p } := rfl
    have hmany : headerLineLoop buf .spaceAfterValue { r with headerEnd := p } (p + 1)
        (spaces ++ (ending ++ v)) =
        headerLineLoop buf .spaceAfterValue { r with headerEnd := p } (p + 1 + spaces.length)
          (ending ++ v) := by
      refine scan_many (C := (· = 32)) rfl ?_ (fun c hc => h c (List.mem_cons_of_mem _ hc)) (p + 1)
      rintro c rfl q
      rfl
    have hend : headerLineLoop buf .spaceAfterValue { r with headerEnd := p } (p + 1 + spaces.length)
        (ending ++ v) = .exit .done { r with headerEnd := p }
          (p + 1 + spaces.length + ending.length) := by
      apply header_lineEnd (f := fun r => r) rfl he
      · rfl
      · rfl
    rw [List.cons_append, scan_cons_next rfl hfirst, hmany, hend, List.length_cons]
    congr 1
    omega

/-- A value that starts and ends with another byte than a space. -/
theorem header_core (hne : core ≠ []) (hchars : ∀ ch ∈ core, IsValueChar ch)
    (hfirst : core.head hne ≠ 32) (hlast : core.getLast hne ≠ 32) :
    ∃ e, headerLineLoop buf .spaceBeforeValue r p (core ++ v) =
      headerLineLoop buf .value { r with headerStart := p, headerEnd := e } (p + core.length) v := by
  obtain ⟨ch, chs, rfl⟩ := List.exists_cons_of_ne_nil hne
  have hch := hchars ch List.mem_cons_self
  have h32 : ch ≠ 32 := hfirst
  have hstart : headerLineStep buf .spaceBeforeValue r (p + 1) ch =
      .next .value { r with headerStart := p } := by
    simp only [headerLineStep, if_neg h32, if_neg hch.1, if_neg hch.2, Nat.add_sub_cancel]
  obtain ⟨st, e, -, hnil, hvalue, hscan⟩ := @scan_value buf { r with headerStart := p } (p + 1) chs
    (fun hm => (hchars _ (List.mem_cons_of_mem _ hm)).1 rfl)
    (fun hm => (hchars _ (List.mem_cons_of_mem _ hm)).2 rfl) v .value (Or.inl rfl)
  have hst : st = .value := by
    by_cases hchs : chs = []
    · exact hnil hchs
    · apply hvalue hchs
      rw [List.getLast?_eq_some_getLast hchs]
      rw [List.getLast_cons hchs] at hlast
      exact fun h => hlast (Option.some.inj h)
  rw [hst] at hscan
  refine ⟨e, ?_⟩
  rw [List.cons_append, scan_cons_next rfl hstart, hscan, List.length_cons, Nat.add_assoc,
    Nat.add_comm 1]

/-- A value is its trimmed bytes between spaces. -/
theorem value_parts (value : List UInt8) : ∃ spaces,
    value = value.takeWhile (· == 32) ++ (trimmed value ++ spaces) ∧ (∀ ch ∈ spaces, ch = 32) ∧
      (trimmed value = [] → spaces = []) := by
  refine ⟨(value.dropWhile (· == 32)).rtakeWhile (· == 32), ?_, ?_, ?_⟩
  · unfold trimmed
    rw [List.rdropWhile_append_rtakeWhile, List.takeWhile_append_dropWhile]
  · intro ch hch
    exact eq_of_beq (List.mem_rtakeWhile_imp (p := (· == 32)) hch)
  · intro hnil
    have hall := List.rdropWhile_eq_nil_iff.1 hnil
    have hdrop : value.dropWhile (· == 32) = [] := by
      cases hd : value.dropWhile (· == 32) with
      | nil => rfl
      | cons ch chs =>
        have hne : value.dropWhile (· == 32) ≠ [] := by simp [hd]
        have hhead := List.head_dropWhile_not (· == 32) hne
        rw [hall _ (List.head_mem hne)] at hhead
        cases hhead
    rw [hdrop]
    rfl

theorem trimmed_first (hne : trimmed value ≠ []) : (trimmed value).head hne ≠ 32 := by
  intro h
  have hpre : trimmed value <+: value.dropWhile (· == 32) := List.rdropWhile_prefix _ _
  have hdrop : value.dropWhile (· == 32) ≠ [] := by
    intro hnil
    rw [hnil] at hpre
    exact hne (List.prefix_nil.1 hpre)
  have hhead := List.head_dropWhile_not (· == 32) hdrop
  rw [← List.IsPrefix.head hpre hne, h] at hhead
  cases hhead

theorem trimmed_last (hne : trimmed value ≠ []) : (trimmed value).getLast hne ≠ 32 := by
  intro h
  have hlast := List.rdropWhile_last_not (· == 32) _ hne
  apply hlast
  exact beq_iff_eq.2 h

theorem takeWhile_spaces (value : List UInt8) :
    ∀ ch ∈ value.takeWhile (· == 32), ch = 32 := by
  intro ch hch
  exact eq_of_beq (List.mem_takeWhile_imp (p := (· == 32)) hch)

def ParseState.headerMarks (r : ParseState) (p : Nat) (name value : List UInt8) : ParseState :=
  { r with
    headerNameStart := p
    headerNameEnd := p + name.length
    headerStart := p + name.length + 1 + (value.takeWhile (· == 32)).length
    headerEnd := p + name.length + 1 + (value.takeWhile (· == 32)).length + (trimmed value).length }

/-- The name and the colon. -/
theorem header_name (h : IsHeaderLine name value ending) :
    headerLineLoop buf .start r p (name ++ 58 :: v) =
      headerLineLoop buf .spaceBeforeValue
        { r with headerNameStart := p, headerNameEnd := p + name.length } (p + name.length + 1) v := by
  obtain ⟨ch, chs, rfl⟩ := List.exists_cons_of_ne_nil h.nonempty
  have hch := (isHeaderNameChar_iff ch).2 (h.chars ch List.mem_cons_self)
  have hcr : ch ≠ CR := by
    rintro rfl
    cases hch
  have hlf : ch ≠ LF := by
    rintro rfl
    cases hch
  have hfirst : headerLineStep buf .start r (p + 1) ch =
      .next .name { r with headerNameStart := p } := by
    simp [headerLineStep, hcr, hlf, hch]
  have hcolon : headerLineStep buf .name { r with headerNameStart := p } (p + 1 + chs.length + 1) 58 =
      .next .spaceBeforeValue
        { r with headerNameStart := p, headerNameEnd := p + 1 + chs.length } := rfl
  rw [List.cons_append, scan_cons_next rfl hfirst,
    scan_name fun c hc => (isHeaderNameChar_iff c).2 (h.chars c (List.mem_cons_of_mem _ hc)),
    scan_cons_next rfl hcolon, List.length_cons, Nat.add_assoc p 1, Nat.add_comm 1]

/-- A whole line, with what it leaves in the record. -/
theorem IsHeaderLine.scan (h : IsHeaderLine name value ending) :
    headerLineLoop buf .start r p (headerLine name value ending ++ v) =
      .exit .done (r.headerMarks p name value) (p + (headerLine name value ending).length) := by
  obtain ⟨spaces, hparts, hspaces, hempty⟩ := value_parts value
  have hlen := congrArg List.length hparts
  simp only [List.length_append] at hlen
  have hlist : headerLine name value ending ++ v =
      name ++ 58 :: (value.takeWhile (· == 32) ++ (trimmed value ++ (spaces ++ (ending ++ v)))) := by
    unfold headerLine
    nth_rewrite 1 [hparts]
    simp only [List.append_assoc, List.cons_append]
  have hpos : p + (headerLine name value ending).length = p + name.length + 1 +
      (value.takeWhile (· == 32)).length + (trimmed value).length + spaces.length +
        ending.length := by
    unfold headerLine
    simp only [List.length_append, List.length_cons]
    omega
  rw [hlist, header_name h, header_spaces (takeWhile_spaces value), hpos]
  by_cases hne : trimmed value = []
  · have hnil := hempty hne
    rw [hne, hnil, List.nil_append, List.nil_append]
    have hend := @header_lineEnd ending buf
      { r with headerNameStart := p, headerNameEnd := p + name.length }
      (p + name.length + 1 + (value.takeWhile (· == 32)).length) v .spaceBeforeValue
      (fun r => { r with
        headerStart := p + name.length + 1 + (value.takeWhile (· == 32)).length
        headerEnd := p + name.length + 1 + (value.takeWhile (· == 32)).length })
      rfl h.ends rfl rfl
    rw [hend]
    unfold ParseState.headerMarks
    rw [hne]
    rfl
  · obtain ⟨e, hcore⟩ := @header_core buf
      { r with headerNameStart := p, headerNameEnd := p + name.length }
      (p + name.length + 1 + (value.takeWhile (· == 32)).length) (spaces ++ (ending ++ v))
      (trimmed value) hne
      (fun ch hch => h.value ch (by
        rw [hparts]
        exact List.mem_append_right _ (List.mem_append_left _ hch)))
      (trimmed_first hne) (trimmed_last hne)
    rw [hcore, header_tail hspaces h.ends]
    rfl

end Marks

section Results

variable {r : ParseState} {b : Buf}

theorem parseHeaderLine_of_done {r' : ParseState} {p : Nat}
    (hloop : headerLineLoop b.bytes (.ofUint r.state) r b.pos b.unread = .exit .done r' p) :
    parseHeaderLine r b = (.ok, { r' with state := 0 }, { b with pos := p }) := by
  unfold parseHeaderLine
  rw [hloop]

theorem parseHeaderLine_of_headerDone {r' : ParseState} {p : Nat}
    (hloop : headerLineLoop b.bytes (.ofUint r.state) r b.pos b.unread = .exit .headerDone r' p) :
    parseHeaderLine r b = (.headerDone, { r' with state := 0 }, { b with pos := p }) := by
  unfold parseHeaderLine
  rw [hloop]

theorem parseHeaderLine_of_exit {st : HeaderLineSw} {r' : ParseState} {p : Nat}
    (hst : st.final = false)
    (hloop : headerLineLoop b.bytes (.ofUint r.state) r b.pos b.unread = .exit st r' p) :
    parseHeaderLine r b =
      (.again, { r' with state := st.toUint }, { b with pos := b.pos + b.unread.length }) := by
  have hp := (scan_exit hloop).2.2 hst
  unfold parseHeaderLine
  rw [hloop, hp]
  cases st <;> first | rfl | cases hst

theorem parseHeaderLine_of_stop {r' : ParseState} {rc : Rc}
    (hloop : headerLineLoop b.bytes (.ofUint r.state) r b.pos b.unread = .stop rc r') :
    parseHeaderLine r b = (.invalidHeader, r', b) := by
  have hrc := scan_stop (C := fun rc => rc = .invalidHeader)
    (fun _ _ _ _ _ _ hs => headerLineStep_stop hs) hloop
  unfold parseHeaderLine
  rw [hloop, hrc]

theorem parseHeaderLine_ok_iff : (parseHeaderLine r b).1 = .ok ↔
    ∃ p r', headerLineLoop b.bytes (.ofUint r.state) r b.pos b.unread = .exit .done r' p := by
  constructor
  · intro h
    obtain ⟨r', hloop, -⟩ := parseHeaderLine_ok (r := r) (b := b) (Prod.ext h rfl)
    exact ⟨_, r', hloop⟩
  · rintro ⟨p, r', hloop⟩
    rw [parseHeaderLine_of_done hloop]

theorem parseHeaderLine_headerDone_iff : (parseHeaderLine r b).1 = .headerDone ↔
    ∃ p r', headerLineLoop b.bytes (.ofUint r.state) r b.pos b.unread = .exit .headerDone r' p := by
  constructor
  · intro h
    obtain ⟨r', hloop, -⟩ := parseHeaderLine_headerDone (r := r) (b := b) (Prod.ext h rfl)
    exact ⟨_, r', hloop⟩
  · rintro ⟨p, r', hloop⟩
    rw [parseHeaderLine_of_headerDone hloop]

theorem parseHeaderLine_again_iff : (parseHeaderLine r b).1 = .again ↔
    ∃ st r' p, st.final = false ∧
      headerLineLoop b.bytes (.ofUint r.state) r b.pos b.unread = .exit st r' p := by
  constructor
  · intro h
    obtain ⟨st, r', hloop, hst, -⟩ := parseHeaderLine_again (r := r) (b := b) (Prod.ext h rfl)
    exact ⟨st, r', _, hst, hloop⟩
  · rintro ⟨st, r', p, hst, hloop⟩
    rw [parseHeaderLine_of_exit hst hloop]

theorem parseHeaderLine_invalid_iff : (parseHeaderLine r b).1 = .invalidHeader ↔
    (parseHeaderLine r b).1 ≠ .ok ∧ (parseHeaderLine r b).1 ≠ .headerDone ∧
      (parseHeaderLine r b).1 ≠ .again := by
  constructor
  · intro h
    rw [h]
    decide
  · rintro ⟨hok, hdone, hagain⟩
    cases hloop : headerLineLoop b.bytes (.ofUint r.state) r b.pos b.unread with
    | stop rc r' => rw [parseHeaderLine_of_stop hloop]
    | exit st r' p =>
      cases hst : st.final with
      | false => exact absurd (parseHeaderLine_again_iff.2 ⟨st, r', p, hst, hloop⟩) hagain
      | true =>
        cases st with
        | done => exact absurd (parseHeaderLine_ok_iff.2 ⟨p, r', hloop⟩) hok
        | headerDone => exact absurd (parseHeaderLine_headerDone_iff.2 ⟨p, r', hloop⟩) hdone
        | _ => cases hst

theorem parseHeaderLine_line_iff (hr : r.state = 0) (hproxy : r.proxy = false) :
    (parseHeaderLine r b).1 = .ok ↔ ∃ line, line <+: b.unread ∧ HeaderLine line := by
  have hctl := headerLine_controls b.bytes
  have hstart : HeaderLineSw.ofUint r.state = .start := by rw [hr]; rfl
  rw [parseHeaderLine_ok_iff, hstart]
  constructor
  · rintro ⟨p, hloop⟩
    obtain ⟨line, hpre, hleads, -⟩ := (exit_iff hctl hproxy rfl).1 hloop
    exact ⟨line, hpre, headerLine_leads.1 hleads⟩
  · rintro ⟨line, hpre, hline⟩
    exact ⟨_, (exit_iff hctl hproxy rfl).2 ⟨line, hpre, headerLine_leads.2 hline, rfl⟩⟩

theorem parseHeaderLine_block_iff (hr : r.state = 0) (hproxy : r.proxy = false) :
    (parseHeaderLine r b).1 = .headerDone ↔ ∃ e, e <+: b.unread ∧ IsLineEnd e := by
  have hctl := headerLine_controls b.bytes
  have hstart : HeaderLineSw.ofUint r.state = .start := by rw [hr]; rfl
  rw [parseHeaderLine_headerDone_iff, hstart]
  constructor
  · rintro ⟨p, hloop⟩
    obtain ⟨e, hpre, hleads, -⟩ := (exit_iff hctl hproxy rfl).1 hloop
    exact ⟨e, hpre, headerEnd_leads.1 hleads⟩
  · rintro ⟨e, hpre, he⟩
    exact ⟨_, (exit_iff hctl hproxy rfl).2 ⟨e, hpre, headerEnd_leads.2 he, rfl⟩⟩

theorem parseHeaderLine_more_iff (hr : r.state = 0) (hproxy : r.proxy = false) :
    (parseHeaderLine r b).1 = .again ↔
      ∃ more, more ≠ [] ∧ (HeaderLine (b.unread ++ more) ∨ IsLineEnd (b.unread ++ more)) := by
  have hctl := headerLine_controls b.bytes
  have hstart : HeaderLineSw.ofUint r.state = .start := by rw [hr]; rfl
  rw [parseHeaderLine_again_iff, hstart]
  refine (more_iff hctl hproxy headerLine_live).trans ?_
  constructor
  · rintro ⟨more, f, hne, hf, hleads⟩
    cases f with
    | done => exact ⟨more, hne, Or.inl (headerLine_leads.1 hleads)⟩
    | headerDone => exact ⟨more, hne, Or.inr (headerEnd_leads.1 hleads)⟩
    | _ => cases hf
  · rintro ⟨more, hne, hline | hend⟩
    · exact ⟨more, .done, hne, rfl, headerLine_leads.2 hline⟩
    · exact ⟨more, .headerDone, hne, rfl, headerEnd_leads.2 hend⟩

/-- The start of a line end is nothing, or the CR of CR LF. -/
theorem proper_lineEnd {more : List UInt8} (hne : more ≠ []) :
    (HeaderLine (w ++ more) ∨ IsLineEnd (w ++ more)) →
      ∃ more', more' ≠ [] ∧ (HeaderLine (w ++ more') ∨ w ++ more' = CRLF) := by
  rintro (hline | hend)
  · exact ⟨more, hne, Or.inl hline⟩
  · cases w with
    | nil => exact ⟨CRLF, by decide, Or.inr rfl⟩
    | cons ch w =>
      refine ⟨more, hne, Or.inr ?_⟩
      generalize hall : ch :: w ++ more = all at hend
      cases hend with
      | lf =>
        have htail : w ++ more = [] := (List.cons.inj hall).2
        exact absurd (List.append_eq_nil_iff.1 htail).2 hne
      | crlf => rfl

theorem span_of_unread {u piece v : List UInt8} (h : b.unread = u ++ (piece ++ v)) :
    b.span (b.pos + u.length) piece.length = piece := by
  have hdrop : b.bytes.drop (b.pos + u.length) = piece ++ v := by
    rw [← List.drop_drop]
    show b.unread.drop u.length = _
    rw [h]
    exact List.drop_left
  unfold Buf.span
  rw [hdrop]
  exact List.take_left

/-- The name and the trimmed value lie at their marks. -/
theorem span_header {v : List UInt8} (h : b.unread = headerLine name value ending ++ v) :
    b.span b.pos name.length = name ∧
      b.span (b.pos + name.length + 1 + (value.takeWhile (· == 32)).length)
        (trimmed value).length = trimmed value := by
  constructor
  · have hname : b.unread = [] ++ (name ++ (58 :: (value ++ ending) ++ v)) := by
      rw [h]
      simp [headerLine]
    exact span_of_unread hname
  · obtain ⟨spaces, hparts, -, -⟩ := value_parts value
    have hvalue : b.unread = name ++ 58 :: value.takeWhile (· == 32) ++
        (trimmed value ++ (spaces ++ (ending ++ v))) := by
      rw [h]
      unfold headerLine
      nth_rewrite 1 [hparts]
      simp only [List.append_assoc, List.cons_append]
    have hspan := span_of_unread hvalue
    rw [List.length_append, List.length_cons] at hspan
    rwa [show b.pos + name.length + 1 + (value.takeWhile (· == 32)).length =
      b.pos + (name.length + ((value.takeWhile (· == 32)).length + 1)) by omega]

/-- From its start state the parser takes exactly the header lines and the line ends: each
list of bytes is one of four kinds, which its code tells; the marks that it leaves delimit
the name and the trimmed value. -/
theorem header_line_parsed (hr : r.state = 0) (hproxy : r.proxy = false) :
    ((parseHeaderLine r b).1 = .ok ↔ ∃ line, line <+: b.unread ∧ HeaderLine line) ∧
      (∀ name value ending, IsHeaderLine name value ending →
        headerLine name value ending <+: b.unread →
        (parseHeaderLine r b).2.2 =
            { b with pos := b.pos + (headerLine name value ending).length } ∧
          (parseHeaderLine r b).2.1.headerNameStart = b.pos ∧
          (parseHeaderLine r b).2.1.headerNameEnd = b.pos + name.length ∧
          (parseHeaderLine r b).2.1.headerStart =
            b.pos + name.length + 1 + (value.takeWhile (· == 32)).length ∧
          (parseHeaderLine r b).2.1.headerEnd =
            (parseHeaderLine r b).2.1.headerStart + (trimmed value).length ∧
          b.span b.pos name.length = name ∧
          b.span (parseHeaderLine r b).2.1.headerStart (trimmed value).length = trimmed value) ∧
      ((parseHeaderLine r b).1 = .headerDone ↔ ∃ e, e <+: b.unread ∧ (e = [LF] ∨ e = CRLF)) ∧
      (∀ e, e <+: b.unread → e = [LF] ∨ e = CRLF →
        (parseHeaderLine r b).2.2 = { b with pos := b.pos + e.length }) ∧
      (((parseHeaderLine r b).1 = .again ∧
          (parseHeaderLine r b).2.2 = { b with pos := b.pos + b.unread.length }) ↔
        (∃ more, more ≠ [] ∧ (HeaderLine (b.unread ++ more) ∨ b.unread ++ more = CRLF)) ∧
          ¬ ∃ line, line <+: b.unread ∧ (HeaderLine line ∨ line = CRLF)) ∧
      ((parseHeaderLine r b).1 = .invalidHeader ↔
        (¬ ∃ line, line <+: b.unread ∧ (HeaderLine line ∨ line = [LF] ∨ line = CRLF)) ∧
          ¬ ∃ more, more ≠ [] ∧ (HeaderLine (b.unread ++ more) ∨ b.unread ++ more = CRLF)) := by
  have hctl := headerLine_controls b.bytes
  have hstart : HeaderLineSw.ofUint r.state = .start := by rw [hr]; rfl
  have hends : ∀ e, IsLineEnd e ↔ e = [LF] ∨ e = CRLF := by
    intro e
    constructor
    · intro he
      cases he with
      | lf => exact Or.inl rfl
      | crlf => exact Or.inr rfl
    · rintro (rfl | rfl)
      · exact .lf
      · exact .crlf
  have hok := parseHeaderLine_line_iff (b := b) hr hproxy
  have hblock := parseHeaderLine_block_iff (b := b) hr hproxy
  simp only [hends] at hblock
  -- a form with a lone LF is complete already, and asks for nothing
  have hmore : (parseHeaderLine r b).1 = .again ↔
      ∃ more, more ≠ [] ∧ (HeaderLine (b.unread ++ more) ∨ b.unread ++ more = CRLF) := by
    rw [parseHeaderLine_more_iff hr hproxy]
    constructor
    · rintro ⟨more, hne, hform⟩
      exact proper_lineEnd hne hform
    · rintro ⟨more, hne, hline | hend⟩
      · exact ⟨more, hne, Or.inl hline⟩
      · exact ⟨more, hne, Or.inr ((hends _).2 (Or.inr hend))⟩
  refine ⟨hok, ?_, hblock, ?_, ?_, ?_⟩
  · rintro name value ending hline ⟨v, hv⟩
    have hloop : headerLineLoop b.bytes .start r b.pos (headerLine name value ending ++ v) = _ :=
      hline.scan
    rw [hv, ← hstart] at hloop
    rw [parseHeaderLine_of_done hloop]
    obtain ⟨hname, hvalue⟩ := span_header hv.symm
    exact ⟨rfl, rfl, rfl, rfl, rfl, hname, hvalue⟩
  · intro e hpre he
    obtain ⟨r', hloop⟩ := (exit_iff (r := r) (p := b.pos) hctl hproxy rfl).2
      ⟨e, hpre, headerEnd_leads.2 ((hends e).2 he), rfl⟩
    have hloop' : headerLineLoop b.bytes (.ofUint r.state) r b.pos b.unread =
        .exit .headerDone r' (b.pos + e.length) := by
      rw [hstart]
      exact hloop
    rw [parseHeaderLine_of_headerDone hloop']
  · constructor
    · rintro ⟨hagain, -⟩
      refine ⟨hmore.1 hagain, ?_⟩
      rintro ⟨line, hpre, hline | hend⟩
      · have h := hok.2 ⟨line, hpre, hline⟩
        rw [hagain] at h
        cases h
      · have h := hblock.2 ⟨line, hpre, Or.inr hend⟩
        rw [hagain] at h
        cases h
    · rintro ⟨hform, -⟩
      have hagain := hmore.2 hform
      obtain ⟨st, r', p, hst, hloop⟩ := parseHeaderLine_again_iff.1 hagain
      refine ⟨hagain, ?_⟩
      rw [parseHeaderLine_of_exit hst hloop]
  -- an input that is refused has none of the other results
  · rw [parseHeaderLine_invalid_iff, ← hmore]
    constructor
    · rintro ⟨hnok, hnblock, hnagain⟩
      refine ⟨?_, hnagain⟩
      rintro ⟨line, hpre, hline | hend⟩
      · exact hnok (hok.2 ⟨line, hpre, hline⟩)
      · exact hnblock (hblock.2 ⟨line, hpre, hend⟩)
    · rintro ⟨hnone, hnagain⟩
      refine ⟨?_, ?_, hnagain⟩
      · intro h
        obtain ⟨line, hpre, hline⟩ := hok.1 h
        exact hnone ⟨line, hpre, Or.inl hline⟩
      · intro h
        obtain ⟨e, hpre, he⟩ := hblock.1 h
        exact hnone ⟨e, hpre, Or.inr he⟩

/-- A header line with spaces in and around its value, and the end of the block. -/
def hostLines : Buf :=
  { bytes := ascii "Host:  a  b \x0d\n\x0d\n", pos := 0, size := EHD_DEFAULT_BUF_SIZE }

theorem header_line_parsed_hostLines :
    ((parseHeaderLine {} hostLines).1 = .ok ↔
        ∃ line, line <+: hostLines.unread ∧ HeaderLine line) ∧
      (parseHeaderLine {} hostLines).2.1.headerStart = 7 ∧
      (parseHeaderLine {} hostLines).2.1.headerEnd = 11 := by
  have hparsed := @header_line_parsed {} hostLines rfl rfl
  have hmarks := hparsed.2.1 (ascii "Host") (ascii "  a  b ") CRLF
    ⟨by decide, by unfold IsNameChar; decide +kernel, by unfold IsValueChar; decide +kernel, .crlf⟩
    ⟨CRLF, rfl⟩
  exact ⟨hparsed.1, hmarks.2.2.2.1, hmarks.2.2.2.2.1⟩

end Results

end Ehd.Http
