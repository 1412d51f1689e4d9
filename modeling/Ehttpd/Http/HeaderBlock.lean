import Ehttpd.Http.Chunks

namespace Ehd.Http

open Program World

structure HeaderText where
  name : List UInt8
  value : List UInt8
  ending : List UInt8

def HeaderText.bytes (h : HeaderText) : List UInt8 := headerLine h.name h.value h.ending

def HeaderText.content (h : HeaderText) : List UInt8 × List UInt8 := (h.name, trimmed h.value)

/-- The parts of a head: the request line, the header lines and the line end behind them. -/
structure HeadText where
  line : List UInt8
  headers : List HeaderText
  ending : List UInt8

def HeadText.bytes (t : HeadText) : List UInt8 :=
  t.line ++ ((t.headers.map HeaderText.bytes).flatten ++ t.ending)

def HeadText.names (t : HeadText) : List (List UInt8) := t.headers.map HeaderText.name

structure HeadText.WellFormed (t : HeadText) : Prop where
  /-- the request line ends where the parser says -/
  line : ∃ more p, parseRequestLine {} (inputBuf (t.line ++ more) 0) =
    (.ok, p, inputBuf (t.line ++ more) t.line.length)
  headers : ∀ h ∈ t.headers, IsHeaderLine h.name h.value h.ending
  ending : IsLineEnd t.ending

structure HeadText.Listed (t : HeadText) (x : Handed) : Prop where
  headers : x.headers = t.headers.map HeaderText.content
  headersN : x.headersN = t.headers.length
  /-- the entries named `Cookie`, in order -/
  cookies : x.cookies = places t.names (ascii "Cookie")
  /-- the last entry with the name, in any letter case -/
  fields : ∀ e ∈ headersInTable, x.fields e.2 = (places t.names e.1).getLast?

section Lines

variable {bytes : List UInt8} {p q : ParseState} {n m k : Nat} {es : List HeaderIn}

/-- The header lines that have been read are these bytes of the buffer. -/
theorem HeaderLines.texts (h : HeaderLines bytes p n es q m) (hp : p.state = 0)
    (hproxy : p.proxy = false) (hn : n ≤ bytes.length) :
    ∃ hs : List HeaderText, (∀ h ∈ hs, IsHeaderLine h.name h.value h.ending) ∧
      es.map (·.content bytes) = hs.map HeaderText.content ∧
      bytes.drop n = (hs.map HeaderText.bytes).flatten ++ bytes.drop m := by
  induction h with
  | nil => exact ⟨[], by simp, rfl, rfl⟩
  | @snoc es q q' m m' h hline ih =>
    obtain ⟨hs, hlines, hcontent, hbytes⟩ := ih
    have hb := h.between hp hproxy hn
    obtain ⟨name, value, ending, v, hheader, hunread, hq', hm'⟩ :=
      parseHeaderLine_line_parts hb.state (hb.same.proxy.trans hproxy) hline
    obtain ⟨hname, hvalue⟩ := span_header hunread
    have hpiece : q'.header.content bytes = (name, trimmed value) := by
      rw [hq']
      unfold HeaderIn.content ParseState.header ParseState.headerMarks
      simp only [Nat.add_sub_cancel_left]
      exact Prod.ext hname hvalue
    refine ⟨hs ++ [⟨name, value, ending⟩], ?_, ?_, ?_⟩
    · intro h' hh'
      rcases List.mem_append.1 hh' with hh' | hh'
      · exact hlines h' hh'
      · rw [List.mem_singleton.1 hh']
        exact hheader
    · rw [List.map_append, List.map_append, hcontent, List.map_singleton, List.map_singleton, hpiece]
      rfl
    · have hdrop : bytes.drop m = headerLine name value ending ++ bytes.drop m' := by
        change m' = m + (headerLine name value ending).length at hm'
        rw [hm', ← List.drop_drop]
        change bytes.drop m = _ at hunread
        rw [hunread, List.drop_left]
      rw [hbytes, hdrop, List.map_append, List.flatten_append, List.append_assoc]
      simp [HeaderText.bytes]

/-- A head that has been parsed is a request line, header lines and a line end. -/
theorem HeadParsed.text (h : HeadParsed bytes p m es q k n) :
    ∃ t : HeadText, t.WellFormed ∧ t.bytes = bytes.take n ∧
      es.map (·.content bytes) = t.headers.map HeaderText.content := by
  obtain ⟨hstate, hproxy, hm⟩ := requestLine_between h.line
  have hb := h.between
  obtain ⟨hs, hlines, hcontent, hbytes⟩ := h.lines.texts hstate hproxy hm
  obtain ⟨q', hdone⟩ := h.done
  obtain ⟨ending, v, hend, hunread, hn⟩ :=
    parseHeaderLine_end_parts hb.state (hb.same.proxy.trans hproxy) hdone
  change n = k + ending.length at hn
  change bytes.drop k = ending ++ v at hunread
  have hline : bytes.take m ++ bytes.drop m = bytes := List.take_append_drop m bytes
  have hlen : (bytes.take m).length = m := by
    rw [List.length_take]
    omega
  refine ⟨⟨bytes.take m, hs, ending⟩, ⟨⟨bytes.drop m, p, ?_⟩, hlines, hend⟩, ?_, hcontent⟩
  · show parseRequestLine {} (inputBuf (bytes.take m ++ bytes.drop m) 0) =
      (.ok, p, inputBuf (bytes.take m ++ bytes.drop m) (bytes.take m).length)
    rw [hline, hlen]
    exact h.line
  · have hall : bytes = HeadText.bytes ⟨bytes.take m, hs, ending⟩ ++ v := by
      unfold HeadText.bytes
      rw [List.append_assoc, List.append_assoc, ← hunread, ← hbytes]
      exact hline.symm
    have htotal : (HeadText.bytes ⟨bytes.take m, hs, ending⟩).length = n := by
      have h₁ := congrArg List.length hbytes
      have h₂ := congrArg List.length hunread
      unfold HeadText.bytes
      simp only [List.length_append, List.length_drop] at *
      have hle := hb.le
      have hmany := hb.many
      omega
    have htake := congrArg (List.take n) hall
    have hleft : (HeadText.bytes ⟨bytes.take m, hs, ending⟩ ++ v).take n =
        HeadText.bytes ⟨bytes.take m, hs, ending⟩ := by
      rw [← htotal]
      exact List.take_left
    rw [htake, hleft]

end Lines

section Streams

variable {s rest : List UInt8} {h : Handed} {hs : List Handed} {n : Nat}

theorem HandedFrom.text {bytes : List UInt8} (hh : HandedFrom bytes h n) :
    ∃ t : HeadText, t.WellFormed ∧ t.Listed h ∧ t.bytes = bytes.take n := by
  obtain ⟨p, m, es, q, k, hparsed, hhead⟩ := hh.parts
  obtain ⟨t, ht, hbytes, hcontent⟩ := hparsed.text
  have hheaders : h.headers = t.headers.map HeaderText.content := by
    rw [← hcontent]
    exact congrArg Head.headers hhead
  have hnames : h.headers.map Prod.fst = t.names := by
    rw [hheaders, List.map_map]
    rfl
  have hnoted := hh.noted
  rw [hnames] at hnoted
  refine ⟨t, ht, ⟨hheaders, ?_, hnoted.cookies, hnoted.fields⟩, hbytes⟩
  rw [hnoted.count]
  exact List.length_map _

theorem Heads.texts (hheads : Heads s hs rest) : ∃ ts : List HeadText,
    s = (ts.map HeadText.bytes).flatten ++ rest ∧ (∀ t ∈ ts, t.WellFormed) ∧
      List.Forall₂ HeadText.Listed ts hs := by
  induction hheads with
  | nil => exact ⟨[], rfl, by simp, .nil⟩
  | @snoc rest hs h n _ hhead ih =>
    obtain ⟨ts, hbytes, hwell, hlisted⟩ := ih
    obtain ⟨t, ht, hlist, htake⟩ := hhead.text
    refine ⟨ts ++ [t], ?_, ?_, List.rel_append hlisted (.cons hlist .nil)⟩
    · have htaken : t.bytes = rest.take n := by
        rw [htake, List.take_take, Nat.min_eq_left]
        have hle := hhead.bounds.2
        rw [List.length_take] at hle
        omega
      rw [hbytes, List.map_append, List.flatten_append, List.append_assoc, List.map_singleton,
        List.flatten_singleton, htaken, List.take_append_drop]
    · intro t' ht'
      rcases List.mem_append.1 ht' with ht' | ht'
      · exact hwell t' ht'
      · rw [List.mem_singleton.1 ht']
        exact ht

end Streams

/-- In every run, the stream begins with the heads of the requests handed over, and each was
handed over with its headers in order of arrival, their names and trimmed values, their
number, the cookies among them and the last of each known name. -/
theorem header_blocks_listed {P : Kernel → Prop} {o : Option Stop} {w : World} (h : Run P o w) :
    ∃ (ts : List HeadText) (rest : List UInt8),
      w.t.received = (ts.map HeadText.bytes).flatten ++ rest ∧ (∀ t ∈ ts, t.WellFormed) ∧
        List.Forall₂ HeadText.Listed ts w.t.handed := by
  obtain ⟨C, hh, -⟩ := h.stream
  obtain ⟨ts, hbytes, hwell, hlisted⟩ := hh.texts
  exact ⟨ts, C, hbytes, hwell, hlisted⟩

def cookieWorld : World :=
  sampleWorld [.data (ascii "GET / HTTP/1.1\x0d\nHost: a\x0d\ncookie: b\x0d\nHOST:  c \x0d\nCookie:d\n\x0d\n")]
    [.sent 10000, .sent 10000]

theorem header_blocks_listed_cookies : ∃ (ts : List HeadText) (rest : List UInt8),
    (after (dispatch EPOLLIN) cookieWorld).t.received =
        (ts.map HeadText.bytes).flatten ++ rest ∧ (∀ t ∈ ts, t.WellFormed) ∧
      List.Forall₂ HeadText.Listed ts (after (dispatch EPOLLIN) cookieWorld).t.handed := by
  have hstart : Run Kernel.Reliable none cookieWorld := sampleWorld_run (sampleKernel_reliable _ _)
  have hrun : Run Kernel.Reliable none (after (dispatch EPOLLIN) cookieWorld) := by
    apply hstart.dispatch
    · unfold Registered
      decide
    · decide +kernel
  exact header_blocks_listed hrun

end Ehd.Http
