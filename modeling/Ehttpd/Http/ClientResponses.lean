import Ehttpd.Http.Framing
import Ehttpd.Http.Version
import Ehttpd.Lib.Framed

namespace Ehd.Http

open Framed

structure ClientResponse where
  status : List UInt8
  headers : List (List UInt8 × List UInt8)
  body : List UInt8
  deriving DecidableEq, Repr

namespace ClientResponse

def field (line : List UInt8) : List UInt8 × List UInt8 :=
  (line.takeWhile (· ≠ 58), (line.dropWhile (· ≠ 58)).drop 2)

/-- The length that the headers declare; a response without one has no body. -/
def contentLength (headers : List (List UInt8 × List UInt8)) : Nat :=
  ((headers.find? (·.1 = ascii "Content-Length")).map fun h => decimalValue h.2).getD 0

def reader : Reader UInt8 ClientResponse :=
  andThen (line CR LF) fun l =>
    andThen (mapped (List.map field) (lines CR LF)) fun hs =>
      mapped (ClientResponse.mk l hs) (counted (contentLength hs))

theorem reader_stable : Stable reader :=
  (lineFrom_stable []).andThen fun _ =>
    ((linesFrom_stable []).mapped _).andThen fun _ => (counted_stable _).mapped _

structure Fits (t : TableData) : Prop where
  name : t.key.bytes ≠ []
  colon : 58 ∉ t.key.bytes
  key : CR ∉ t.key.bytes
  value : CR ∉ t.value.bytes

def said (t : TableData) : List UInt8 × List UInt8 := (t.key.bytes, t.value.bytes)

variable {t : TableData} {ts : List TableData} {l body : List UInt8}

theorem Fits.field (h : Fits t) : field (t.key.bytes ++ [58, 32] ++ t.value.bytes) = said t := by
  have hname : ∀ c ∈ t.key.bytes, decide (c ≠ 58) = true := by
    intro c hc
    exact decide_eq_true fun heq => h.colon (heq ▸ hc)
  unfold ClientResponse.field said
  rw [List.append_assoc, List.takeWhile_append_of_pos hname, List.dropWhile_append_of_pos hname]
  exact Prod.ext (List.append_nil _) rfl

/-- The lines of the headers, and the empty one. -/
theorem headers_framed (h : ∀ t ∈ ts, Fits t) :
    Frames (mapped (List.map field) (lines CR LF)) (ts.flatMap encodeHeader ++ CRLF)
      (ts.map said) := by
  have htext : ts.flatMap encodeHeader =
      (ts.map fun t => t.key.bytes ++ [58, 32] ++ t.value.bytes).flatMap (· ++ [CR, LF]) := by
    rw [List.flatMap_map]
    rfl
  have hsaid : (ts.map fun t => t.key.bytes ++ [58, 32] ++ t.value.bytes).map field =
      ts.map said := by
    rw [List.map_map]
    exact List.map_congr_left fun t ht => (h t ht).field
  rw [htext, ← hsaid]
  refine Frames.mapped (lines_framed ?_) (List.map field)
  intro l hl
  obtain ⟨t, ht, rfl⟩ := List.mem_map.1 hl
  constructor
  · intro hcr
    rcases List.mem_append.1 hcr with hcr | hcr
    · rcases List.mem_append.1 hcr with hcr | hcr
      · exact (h t ht).key hcr
      · revert hcr
        decide
    · exact (h t ht).value hcr
  · intro hnil
    exact (h t ht).name (List.append_eq_nil_iff.1 (List.append_eq_nil_iff.1 hnil).1).1

theorem framed (hl : CR ∉ l) (hts : ∀ t ∈ ts, Fits t)
    (hbody : contentLength (ts.map said) = body.length) :
    Frames reader (l ++ CRLF ++ (ts.flatMap encodeHeader ++ CRLF) ++ body)
      ⟨l, ts.map said, body⟩ := by
  have hcounted := (counted_framed body).mapped (ClientResponse.mk l (ts.map said))
  rw [← hbody] at hcounted
  have hrest : Frames (andThen (mapped (List.map field) (lines CR LF)) fun hs =>
      mapped (ClientResponse.mk l hs) (counted (contentLength hs)))
      (ts.flatMap encodeHeader ++ CRLF ++ body) ⟨l, ts.map said, body⟩ :=
    (headers_framed hts).andThen hcounted
  rw [List.append_assoc]
  exact (Framed.line_framed hl).andThen hrest

/-- The digits of a number are read back. -/
theorem decimalValue_decimal (n : Nat) : decimalValue (decimal n) = n := by
  unfold decimal
  split
  · next hn =>
    rw [hn]
    rfl
  · have hdigits : ∀ ds : List Nat, (∀ d ∈ ds, d < 10) →
        decimalValue (ds.reverse.map fun d => (48 + d).toUInt8) = Nat.ofDigits 10 ds := by
      intro ds hds
      unfold decimalValue
      induction ds with
      | nil => rfl
      | cons d ds ih =>
        have hd := hds d List.mem_cons_self
        have hbyte : (48 + d).toUInt8.toNat = 48 + d := by
          rw [Nat.toUInt8_eq, UInt8.toNat_ofNat']
          omega
        rw [List.reverse_cons, List.map_append, List.foldl_append,
          ih fun d' hd' => hds d' (List.mem_cons_of_mem _ hd'), List.map_singleton,
          List.foldl_cons, List.foldl_nil, hbyte, Nat.ofDigits_cons]
        omega
    rw [hdigits _ fun d hd => Nat.digits_lt_base (by omega) hd, Nat.ofDigits_digits]

def statusText (status : Nat) : List UInt8 := ascii "HTTP/1.1 " ++ decimal status

def typed (ty : List UInt8) : List UInt8 × List UInt8 := (ascii "Content-Type", ty)

def server : List UInt8 × List UInt8 := (ascii "Server", EHD_VERSION)

def sized (n : Nat) : List UInt8 × List UInt8 := (ascii "Content-Length", decimal n)

def pageText (error : Nat) : List UInt8 := errorPages.getD (errorIndex error) [] ++ errorTail

def page (hs : List (List UInt8 × List UInt8)) (error : Nat) : ClientResponse where
  status := statusText (errorStatus error)
  headers := hs ++ [typed (ascii "text/html"), server, sized (pageText error).length]
  body := pageText error

def ofAnswer (uri : Str) (bs : List UInt8) : Answer → ClientResponse
  | .page error => page [] error
  | .redirect => page [(ascii "Location", uri.bytes ++ [47])] EHD_HTTP_MOVED_TEMPORARILY
  | .file _ =>
    { status := statusText 200
      headers := ((contentType uri).map typed).toList ++ server ::
        if bs = [] then [] else [sized bs.length]
      body := bs }

theorem contentLength_cons {h : List UInt8 × List UInt8} (hne : h.1 ≠ ascii "Content-Length")
    (hs : List (List UInt8 × List UInt8)) : contentLength (h :: hs) = contentLength hs := by
  unfold contentLength
  rw [List.find?_cons_of_neg (by simpa using hne)]

theorem contentLength_sized (n : Nat) (hs : List (List UInt8 × List UInt8)) :
    contentLength (sized n :: hs) = n := by
  unfold contentLength
  rw [List.find?_cons_of_pos (by rfl)]
  exact decimalValue_decimal n

theorem typed_ne (ty : List UInt8) : (typed ty).1 ≠ ascii "Content-Length" :=
  show ascii "Content-Type" ≠ ascii "Content-Length" by decide

theorem server_ne : server.1 ≠ ascii "Content-Length" := by decide

theorem contentLength_page (hs : List (List UInt8 × List UInt8)) (error : Nat)
    (hne : ∀ h ∈ hs, h.1 ≠ ascii "Content-Length") :
    contentLength (page hs error).headers = (pageText error).length := by
  unfold page
  dsimp only
  induction hs with
  | nil =>
    rw [List.nil_append, contentLength_cons (typed_ne _), contentLength_cons server_ne,
      contentLength_sized]
  | cons h hs ih =>
    rw [List.cons_append, contentLength_cons (hne h List.mem_cons_self)]
    exact ih fun h' hh' => hne h' (List.mem_cons_of_mem _ hh')

/-- The headers say how long the body is. -/
theorem contentLength_ofAnswer (uri : Str) (bs : List UInt8) (a : Answer) :
    contentLength (ofAnswer uri bs a).headers = (ofAnswer uri bs a).body.length := by
  cases a with
  | page error => exact contentLength_page [] error nofun
  | redirect =>
    refine contentLength_page _ EHD_HTTP_MOVED_TEMPORARILY (List.forall_mem_singleton.2 ?_)
    show ascii "Location" ≠ ascii "Content-Length"
    decide
  | file name =>
    have hlast : contentLength (server :: if bs = [] then [] else [sized bs.length]) = bs.length := by
      rw [contentLength_cons server_ne]
      split
      · next hnil =>
        rw [hnil]
        rfl
      · exact contentLength_sized _ _
    unfold ofAnswer
    dsimp only
    cases contentType uri with
    | none => exact hlast
    | some ty => exact (contentLength_cons (typed_ne ty) _).trans hlast

variable {conf : Conf} {uri : Str} {f : File} {a : Answer} {bs : List UInt8}

theorem headerName_plain {name : List UInt8} (h : HeaderName name) : 58 ∉ name ∧ CR ∉ name := by
  constructor
  · intro hmem
    exact absurd (h.chars _ hmem) (by decide)
  · intro hmem
    exact absurd (h.chars _ hmem) (by decide)

theorem fits_of_short (h : Short t) : Fits t :=
  ⟨h.name.nonempty, (headerName_plain h.name).1, (headerName_plain h.name).2, h.oneLine.cr⟩

theorem fits_location (hsound : conf.Sound) (hfits : uri.len ≤ uri.data.length)
    (hclean : CR ∉ uri.bytes) : Fits (location conf uri) := by
  refine ⟨?_, ?_, ?_, ?_⟩
  · show (ehdString "Location").bytes ≠ []
    decide
  · show 58 ∉ (ehdString "Location").bytes
    decide
  · show CR ∉ (ehdString "Location").bytes
    decide
  · rw [location_value hsound hfits]
    intro hcr
    rcases List.mem_append.1 hcr with hcr | hcr
    · exact hclean hcr
    · cases List.mem_singleton.1 hcr

theorem said_length {n : Nat} (hn : n < 2 ^ 63) : said (contentLengthHeader n) = sized n := by
  have hkey : (ehdString "Content-Length").bytes = ascii "Content-Length" := by decide
  exact Prod.ext hkey (contentLengthHeader_value hn)

theorem said_html : said htmlType = typed (ascii "text/html") := by decide

theorem said_server : said serverHeader = server := by decide

theorem said_page (error : Nat) (more : List TableData) :
    (more ++ [htmlType, serverHeader, contentLengthHeader (pageBody error).last]).map said =
      (page (more.map said) error).headers := by
  have hlast : (pageBody error).last = (pageText error).length := rfl
  have hle := @page_length_le error
  rw [List.map_append, List.map_cons, List.map_cons, List.map_singleton, said_html, said_server,
    said_length (by omega), hlast]
  rfl

structure AllOf (b : Buf) (bs : List UInt8) : Prop where
  length : bs.length = b.left
  memory : b.type = 0 → bs = b.unread

/-- The head and the body of an answer say what the response says. -/
theorem said_answer (hsound : conf.Sound) (hf : f.Opened) (hfits : uri.len ≤ uri.data.length)
    (hbs : AllOf (a.body f) bs) :
    (finalHeaders (a.headersOut conf uri freshHeadersOut f)).entries.map said =
        (ofAnswer uri bs a).headers ∧
      bs = (ofAnswer uri bs a).body ∧
      statusLine (a.headersOut conf uri freshHeadersOut f) =
        (ofAnswer uri bs a).status ++ CRLF := by
  cases a with
  | page error =>
    refine ⟨?_, hbs.memory rfl, rfl⟩
    have hentries : (finalHeaders ((Answer.page error).headersOut conf uri freshHeadersOut
        f)).entries = [] ++ [htmlType, serverHeader, contentLengthHeader (pageBody error).last] :=
      pageHeaders_entries rfl rfl
    rw [hentries]
    exact said_page error []
  | redirect =>
    refine ⟨?_, hbs.memory rfl, rfl⟩
    have hkey : (ehdString "Location").bytes = ascii "Location" := by decide
    have hlocation : said (location conf uri) = (ascii "Location", uri.bytes ++ [47]) :=
      Prod.ext hkey (location_value hsound hfits)
    have hsaid := said_page EHD_HTTP_MOVED_TEMPORARILY [location conf uri]
    rw [List.map_singleton, hlocation] at hsaid
    rw [redirect_entries]
    exact hsaid
  | file name =>
    refine ⟨?_, rfl, rfl⟩
    have hlen : bs.length = f.size := by
      have hleft : ((Answer.file name).body f).left = f.size := by
        show f.size - f.sysOffset = f.size
        rw [hf.offset, Nat.sub_zero]
      rw [hbs.length, hleft]
    have hsized : (if 0 < f.size then [contentLengthHeader f.size] else []).map said =
        if bs = [] then [] else [sized bs.length] := by
      by_cases hnil : bs = []
      · rw [if_pos hnil, if_neg (by rw [← hlen, hnil]; exact Nat.lt_irrefl 0)]
        rfl
      · rw [if_neg hnil, if_pos (by rw [← hlen]; exact List.length_pos_of_ne_nil hnil),
          List.map_singleton, said_length hf.size, hlen]
    have hentries : (finalHeaders ((Answer.file name).headersOut conf uri freshHeadersOut
        f)).entries = _ := file_entries uri f
    rw [hentries, List.map_append, List.map_cons, hsized, said_server]
    unfold ofAnswer
    dsimp only
    congr 1
    cases contentType uri with
    | none => rfl
    | some ty =>
      have hkey : (ehdString "Content-Type").bytes = ascii "Content-Type" := by decide
      have htype : said ⟨ehdString "Content-Type", ⟨ty.length, ty⟩⟩ = typed ty :=
        Prod.ext hkey List.take_length
      rw [Option.map_some, Option.map_some, Option.toList_some, Option.toList_some,
        List.map_singleton, htype]

theorem statusText_oneLine (n : Nat) : CR ∉ statusText n := by
  intro hcr
  rcases List.mem_append.1 hcr with hcr | hcr
  · revert hcr
    decide
  · exact absurd ((decimal_digits n).2 _ hcr) (by decide)

/-- An answer is read as what it says, whatever follows. -/
theorem answer_framed (hsound : conf.Sound) (hf : f.Opened) (hshort : uri.len ≤ 4097)
    (hfits : uri.len ≤ uri.data.length) (hclean : a = .redirect → CR ∉ uri.bytes)
    (hstatus : (a.headersOut conf uri freshHeadersOut f).status < 1000)
    (hbs : AllOf (a.body f) bs) :
    Frames reader ((headOf (a.headersOut conf uri freshHeadersOut f)).bytes ++ bs)
      (ofAnswer uri bs a) := by
  obtain ⟨h, hh⟩ : ∃ h, h = a.headersOut conf uri freshHeadersOut f := ⟨_, rfl⟩
  obtain ⟨hsaid, hbody, hline⟩ := said_answer hsound hf hfits hbs
  have hlisted := listed_answer conf uri hf a
  have hnone : h.statusLine = none := by
    rw [hh]
    cases a <;> rfl
  rw [← hh] at hstatus hsaid hline hlisted ⊢
  have hhead := headOf_answer hf hshort a hh (statusLine_length_le hnone hstatus)
  have hlines : ∀ t ∈ (finalHeaders h).entries, Fits t := by
    intro t ht
    rcases hlisted.short t ht with hs | ⟨hredirect, rfl⟩
    · exact fits_of_short hs
    · exact fits_location hsound hfits (hclean hredirect)
  have hstatusText : CR ∉ (ofAnswer uri bs a).status := by
    cases a <;> exact statusText_oneLine _
  have hlength : contentLength ((finalHeaders h).entries.map said) = bs.length := by
    rw [hsaid, contentLength_ofAnswer, ← hbody]
  have hwhole : ofAnswer uri bs a =
      ⟨(ofAnswer uri bs a).status, (finalHeaders h).entries.map said, bs⟩ := by
    rw [hsaid]
    exact congrArg (ClientResponse.mk _ _) hbody.symm
  rw [hhead, hline, hwhole]
  exact framed hstatusText hlines hlength

end ClientResponse

end Ehd.Http
