import Ehttpd.Http.HeadParser
import Ehttpd.Http.Control

namespace Ehd.Http

/-- The places of a name among the names of the headers, in any letter case. -/
def places (names : List (List UInt8)) (name : List UInt8) : List Nat :=
  (List.range names.length).filter fun i => strcaseeq (names.getD i []) name

structure Noted (names : List (List UInt8)) (headersN : Nat) (cookies : List Nat)
    (fields : HeaderField → Option Nat) : Prop where
  count : headersN = names.length
  cookies : cookies = places names (ascii "Cookie")
  fields : ∀ e ∈ headersInTable, fields e.2 = (places names e.1).getLast?

section Names

variable {names : List (List UInt8)} {x name : List UInt8}

theorem strcaseeq_iff : strcaseeq x name = true ↔ x.map toLower = name.map toLower := beq_iff_eq

theorem places_concat (names : List (List UInt8)) (x name : List UInt8) :
    places (names ++ [x]) name =
      places names name ++ if strcaseeq x name then [names.length] else [] := by
  unfold places
  rw [List.length_append, List.length_singleton, List.range_succ, List.filter_append]
  congr 1
  · apply List.filter_congr
    intro i hi
    have hlt := List.mem_range.1 hi
    rw [List.getD_append _ _ _ _ hlt]
  · have hlast : (names ++ [x]).getD names.length [] = x := by
      rw [List.getD_append_right _ _ _ _ (Nat.le_refl _), Nat.sub_self]
      rfl
    rw [List.filter_singleton, hlast]
    cases strcaseeq x name <;> rfl

theorem headersInTable_distinct : ∀ e ∈ headersInTable, ∀ e' ∈ headersInTable,
    (strcaseeq e.1 e'.1 = true ↔ e = e') ∧ (e.2 = e'.2 ↔ e = e') := by
  decide

theorem headersInTable_not_cookie : ∀ e ∈ headersInTable, strcaseeq (ascii "Cookie") e.1 = false := by
  decide

theorem strcaseeq_trans {y : List UInt8} (h : strcaseeq x name = true) :
    strcaseeq x y = strcaseeq name y := by
  unfold strcaseeq
  rw [strcaseeq_iff.1 h]

/-- The table is searched for the length and the letters; the letters decide. -/
theorem findHeaderField_eq (x : List UInt8) : findHeaderField x x.length =
    (headersInTable.find? fun e => strcaseeq x e.1).map Prod.snd := by
  unfold findHeaderField
  congr 2
  funext e
  cases hcase : strcaseeq x e.1 with
  | true =>
    have hmap := strcaseeq_iff.1 hcase
    have hlen := congrArg List.length hmap
    rw [List.length_map, List.length_map] at hlen
    rw [hlen, beq_self_eq_true, Bool.true_and]
    exact strcaseeq_iff.2 hmap.symm
  | false =>
    have hsym : strcaseeq e.1 x = false := by
      by_contra h
      rw [Bool.not_eq_false] at h
      rw [strcaseeq_iff.2 (strcaseeq_iff.1 h).symm] at hcase
      cases hcase
    rw [hsym, Bool.and_false]

/-- One more header. -/
theorem Noted.push {n : Nat} {hs : HeadersIn} (h : Noted names n hs.cookies.data hs.fields)
    (x : List UInt8) :
    Noted (names ++ [x]) (n + 1) (hs.noted x x.length names.length).1
      (hs.noted x x.length names.length).2 := by
  have hcount : n + 1 = (names ++ [x]).length := by
    rw [List.length_append, List.length_singleton, h.count]
  have hplaces := places_concat names x
  unfold HeadersIn.noted
  -- a cookie is listed, and no field of the table has its name
  by_cases hcookie : strcaseeq x (ascii "Cookie") = true
  · have hlen : x.length = 6 := by
      have hmap := congrArg List.length (strcaseeq_iff.1 hcookie)
      rw [List.length_map, List.length_map] at hmap
      exact hmap
    rw [if_pos ⟨hlen, hcookie⟩]
    refine ⟨hcount, ?_, ?_⟩
    · rw [hplaces, if_pos hcookie, h.cookies]
    · intro e he
      have hother : ¬ strcaseeq x e.1 = true := by
        rw [strcaseeq_trans hcookie, headersInTable_not_cookie e he]
        decide
      rw [hplaces, if_neg hother, List.append_nil]
      exact h.fields e he
  · have hnone : ¬ (x.length = 6 ∧ strcaseeq x (ascii "Cookie") = true) := fun hc => hcookie hc.2
    rw [if_neg hnone, findHeaderField_eq]
    have hcookies : places (names ++ [x]) (ascii "Cookie") = places names (ascii "Cookie") := by
      rw [hplaces, if_neg hcookie, List.append_nil]
    -- the names of the table differ, so at most one field changes
    cases hfind : headersInTable.find? fun e => strcaseeq x e.1 with
    | none =>
      refine ⟨hcount, by rw [hcookies]; exact h.cookies, ?_⟩
      intro e he
      have hother := List.find?_eq_none.1 hfind e he
      rw [hplaces, if_neg hother, List.append_nil]
      exact h.fields e he
    | some e₀ =>
      have he₀ : e₀ ∈ headersInTable := List.mem_of_find?_eq_some hfind
      have hcase : strcaseeq x e₀.1 = true :=
        List.find?_some (p := fun e : List UInt8 × HeaderField => strcaseeq x e.1) hfind
      refine ⟨hcount, by rw [hcookies]; exact h.cookies, ?_⟩
      intro e he
      obtain ⟨hletters, hfields⟩ := headersInTable_distinct e₀ he₀ e he
      show Function.update hs.fields e₀.2 (some names.length) e.2 = _
      by_cases heq : e₀ = e
      · subst heq
        rw [Function.update_self, hplaces, if_pos hcase, List.getLast?_concat]
      · have hother : ¬ strcaseeq x e.1 = true := by
          rw [strcaseeq_trans hcase]
          exact fun hc => heq (hletters.1 hc)
        have hne : e.2 ≠ e₀.2 := fun hc => heq (hfields.1 hc.symm)
        rw [Function.update_of_ne hne, hplaces, if_neg hother, List.append_nil]
        exact h.fields e he

theorem noted_nil {fields : HeaderField → Option Nat} (h : ∀ f, fields f = none) :
    Noted [] 0 [] fields := ⟨rfl, rfl, fun e _ => h e.2⟩

end Names

section Streams

variable {bytes more s rest : List UInt8} {p q : ParseState} {n m k : Nat} {es : List HeaderIn}

theorem uri_append (h : p.uriEnd ≤ bytes.length) (more : List UInt8) :
    ((bytes ++ more).drop p.uriStart).take (p.uriEnd - p.uriStart) =
      (bytes.drop p.uriStart).take (p.uriEnd - p.uriStart) := by
  by_cases hempty : p.uriEnd ≤ p.uriStart
  · rw [Nat.sub_eq_zero_of_le hempty, List.take_zero, List.take_zero]
  · rw [List.drop_append_of_le_length (by omega), List.take_append_of_le_length]
    rw [List.length_drop]
    omega

theorem pathAccepted_append (h : p.uriStart + p.uriLen ≤ bytes.length) (more : List UInt8) :
    pathAccepted p (inputBuf (bytes ++ more) m) = pathAccepted p (inputBuf bytes m) := by
  have hspan : (inputBuf (bytes ++ more) m).span p.uriStart p.uriLen =
      (inputBuf bytes m).span p.uriStart p.uriLen := by
    show ((bytes ++ more).drop p.uriStart).take p.uriLen = (bytes.drop p.uriStart).take p.uriLen
    rw [List.drop_append_of_le_length (by omega), List.take_append_of_le_length]
    rw [List.length_drop]
    omega
  unfold pathAccepted
  rw [hspan]

theorem HeadParsed.append (h : HeadParsed bytes p m es q k n) (more : List UInt8) :
    HeadParsed (bytes ++ more) p m es q k n := by
  obtain ⟨hstate, hproxy, hm⟩ := requestLine_between h.line
  have hb := h.between
  obtain ⟨q', hdone⟩ := h.done
  refine ⟨?_, ?_, h.lines.append hstate hproxy hm more, q', ?_⟩
  · exact parseRequestLine_append (Nat.zero_le _) h.line more
  · have hinside : p.uriStart + p.uriLen ≤ bytes.length := (parseRequestLine_path h.line).le
    have hpath : pathAccepted p (inputBuf (bytes ++ more) m) = true := by
      rw [pathAccepted_append hinside more]
      exact h.path
    exact hpath
  · exact parseHeaderLine_append hb.le hdone (Or.inr rfl) more

theorem HeadParsed.headOfParts_append (h : HeadParsed bytes p m es q k n) (more : List UInt8) :
    headOfParts (bytes ++ more) p es = headOfParts bytes p es := by
  have hb := h.between
  have hle := hb.le
  obtain ⟨-, -, hm⟩ := requestLine_between h.line
  obtain ⟨e, -, hstart, huri, he⟩ := requestLine_ends h.line
  unfold headOfParts
  congr 1
  · exact uri_append (by omega) more
  · apply List.map_congr_left
    intro e he
    obtain ⟨hkey, hvalue⟩ := hb.inside e he
    exact content_append (by omega) (by omega) more

/-- The head at the start of `bytes`, which takes `n` bytes, has been handed over as `h`. -/
structure HandedFrom (bytes : List UInt8) (h : Handed) (n : Nat) : Prop where
  parts : ∃ p m es q k, HeadParsed bytes p m es q k n ∧ h.toHead = headOfParts bytes p es
  noted : Noted (h.headers.map Prod.fst) h.headersN h.cookies h.fields

variable {h : Handed} {hs : List Handed}

theorem HandedFrom.append (hh : HandedFrom bytes h n) (more : List UInt8) :
    HandedFrom (bytes ++ more) h n := by
  obtain ⟨p, m, es, q, k, hparsed, hhead⟩ := hh.parts
  exact ⟨⟨p, m, es, q, k, hparsed.append more, by rw [hparsed.headOfParts_append]; exact hhead⟩,
    hh.noted⟩

theorem HandedFrom.parseHead (hh : HandedFrom bytes h n) :
    parseHead bytes = some (h.toHead, n) := by
  obtain ⟨p, m, es, q, k, hparsed, hhead⟩ := hh.parts
  rw [hparsed.parseHead, hhead]

theorem HandedFrom.bounds (hh : HandedFrom bytes h n) : 0 < n ∧ n ≤ bytes.length := by
  obtain ⟨p, m, es, q, k, hparsed, -⟩ := hh.parts
  obtain ⟨hlt, hle⟩ := hparsed.bounds
  omega

/-- The requests at the start of the stream `s`, and what is left of it. -/
inductive Heads (s : List UInt8) : List Handed → List UInt8 → Prop
  | nil : Heads s [] s
  | snoc {rest : List UInt8} {hs : List Handed} {h : Handed} {n : Nat} (hheads : Heads s hs rest)
    (hhead : HandedFrom (rest.take EHD_DEFAULT_BUF_SIZE) h n) : Heads s (hs ++ [h]) (rest.drop n)

theorem HandedFrom.le (hh : HandedFrom (rest.take EHD_DEFAULT_BUF_SIZE) h n) : n ≤ rest.length := by
  have hle := hh.bounds.2
  rw [List.length_take] at hle
  omega

theorem Heads.append (hheads : Heads s hs rest) (more : List UInt8) :
    Heads (s ++ more) hs (rest ++ more) := by
  induction hheads with
  | nil => exact .nil
  | @snoc rest hs h n _ hhead ih =>
    rw [← List.drop_append_of_le_length hhead.le]
    refine .snoc ih ?_
    rw [List.take_append]
    exact hhead.append _

theorem Heads.split (hheads : Heads s hs rest) : ∃ taken, s = taken ++ rest := by
  induction hheads with
  | nil => exact ⟨[], rfl⟩
  | @snoc rest hs h n _ _ ih =>
    obtain ⟨taken, htaken⟩ := ih
    refine ⟨taken ++ rest.take n, ?_⟩
    rw [List.append_assoc, List.take_append_drop]
    exact htaken

theorem Heads.length_le (hheads : Heads s hs rest) : hs.length + rest.length ≤ s.length := by
  induction hheads with
  | nil => simp
  | @snoc rest hs h n _ hhead ih =>
    have hpos := hhead.bounds.1
    have hle := hhead.le
    rw [List.length_append, List.length_singleton, List.length_drop]
    omega

theorem Heads.requests_eq (hheads : Heads s hs rest) : ∀ fuel, hs.length ≤ fuel →
    requests fuel s = hs.map Handed.toHead ++ requests (fuel - hs.length) rest := by
  induction hheads with
  | nil =>
    intro fuel _
    rfl
  | @snoc rest hs h n _ hhead ih =>
    intro fuel hfuel
    rw [List.length_append, List.length_singleton] at hfuel ⊢
    obtain ⟨fuel', hfuel'⟩ : ∃ fuel', fuel - hs.length = fuel' + 1 :=
      ⟨fuel - hs.length - 1, by omega⟩
    rw [ih fuel (by omega), hfuel', show fuel - (hs.length + 1) = fuel' by omega, requests,
      hhead.parseHead, List.map_append, List.append_assoc]
    rfl

theorem Heads.afterRequests_eq (hheads : Heads s hs rest) : ∀ n,
    afterRequests (hs.length + n) s = afterRequests n rest := by
  induction hheads with
  | nil =>
    intro n
    rw [List.length_nil, Nat.zero_add]
  | @snoc rest hs h k _ hhead ih =>
    intro n
    rw [List.length_append, List.length_singleton, Nat.add_assoc, ih (1 + n), Nat.add_comm 1 n,
      afterRequests, hhead.parseHead]

theorem Heads.afterRequests (hheads : Heads s hs rest) :
    Http.afterRequests hs.length s = some rest :=
  hheads.afterRequests_eq 0

theorem Heads.prefix_requests (hheads : Heads s hs rest) :
    hs.map Handed.toHead <+: requests s.length s := by
  have hle := hheads.length_le
  rw [hheads.requests_eq s.length (by omega)]
  exact List.prefix_append _ _

end Streams

end Ehd.Http
