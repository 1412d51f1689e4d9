import Ehttpd.Http.ResponseHead

namespace Ehd.Http

open Program

/-- Every test for room that the loop over `ts` and the lines behind it make, from the
buffer `b` on, succeeds. -/
def RoomFor : Buf → List TableData → Prop
  | b, [] => b.room ≥ 2
  | b, t :: ts => b.room > t.key.len + 2 ∧
      (b.append (t.key.bytes ++ [58, 32])).room > t.value.len + 2 ∧ RoomFor (writeHeader b t) ts

theorem name_room {b : Buf} {t : TableData} (h : headerCost t < b.room) :
    b.room > t.key.len + 2 ∧ (b.append (t.key.bytes ++ [58, 32])).room > t.value.len + 2 := by
  have hkey := bytes_length_le t.key
  unfold headerCost at h
  constructor
  · omega
  · rw [room_append, List.length_append]
    show b.room - (t.key.bytes.length + 2) > t.value.len + 2
    omega

theorem roomFor_of_cost (ts : List TableData) {b : Buf}
    (h : (ts.map headerCost).sum + 2 ≤ b.room) : RoomFor b ts := by
  induction ts generalizing b with
  | nil =>
    show b.room ≥ 2
    omega
  | cons t ts ih =>
    rw [List.map_cons, List.sum_cons] at h
    have hcost : headerCost t < b.room := by omega
    obtain ⟨hname, hvalue⟩ := name_room hcost
    refine ⟨hname, hvalue, ih ?_⟩
    have hlen := encodeHeader_length_le t
    rw [writeHeader_eq hcost, room_append]
    omega

structure InData (t : TableData) : Prop where
  key : t.key.bytes.length = t.key.len
  value : t.value.bytes.length = t.value.len

theorem htmlType_inData : InData htmlType := by
  constructor <;> decide

theorem serverHeader_inData : InData serverHeader := by
  constructor <;> decide

theorem typeHeader_inData (ty : List UInt8) :
    InData ⟨ehdString "Content-Type", ⟨ty.length, ty⟩⟩ := by
  constructor
  · show (ehdString "Content-Type").bytes.length = (ehdString "Content-Type").len
    decide
  · exact uri_bytes_length (Nat.le_refl _)

theorem contentLengthHeader_inData {n : Nat} (hn : n < 2 ^ 63) :
    InData (contentLengthHeader n) := by
  constructor
  · show (ehdString "Content-Length").bytes.length = (ehdString "Content-Length").len
    decide
  · rw [contentLengthHeader_value hn]
    rfl

theorem uri_lt_rootName (conf : Conf) {uri : Str} (hfits : uri.len ≤ uri.data.length) :
    uri.len < (rootName conf uri).length := by
  unfold rootName memcpy
  simp only [List.length_append, List.length_take, List.length_drop, List.length_replicate]
  omega

theorem location_inData (conf : Conf) {uri : Str} (hfits : uri.len ≤ uri.data.length) :
    InData (location conf uri) := by
  constructor
  · show (ehdString "Location").bytes.length = (ehdString "Location").len
    decide
  · have harea := uri_lt_rootName conf hfits
    apply uri_bytes_length
    show uri.len + 1 ≤ ((memcpy (rootName conf uri) 0 uri.data uri.len).set uri.len 47).length
    unfold memcpy
    simp only [List.length_set, List.length_append, List.length_take, List.length_drop]
    omega

def pushedHeaders (conf : Conf) (uri : Str) : Answer → List TableData
  | .page _ => [htmlType]
  | .redirect => [location conf uri, htmlType]
  | .file _ =>
    ((contentType uri).map fun ty => ⟨ehdString "Content-Type", ⟨ty.length, ty⟩⟩).toList

def addedHeaders (n : Int) : List TableData :=
  serverHeader :: if n > 0 then [contentLengthHeader n.toNat] else []

section

variable {conf : Conf} {uri : Str} {f : File}

theorem headersOut_entries (a : Answer) :
    (a.headersOut conf uri freshHeadersOut f).headers.entries = pushedHeaders conf uri a := by
  cases a with
  | page error => exact EList.entries_push _ _
  | redirect =>
    show ((freshHeadersOut.headers.push (location conf uri)).push htmlType).entries = _
    rw [EList.entries_push, EList.entries_push]
    rfl
  | file name =>
    show (fileHeaders freshHeadersOut uri f).headers.entries = _
    unfold fileHeaders pushedHeaders
    cases contentType uri with
    | none => rfl
    | some ty => exact EList.entries_push _ _

theorem finalHeaders_answer (a : Answer) :
    (finalHeaders (a.headersOut conf uri freshHeadersOut f)).entries =
      pushedHeaders conf uri a ++
        addedHeaders (a.headersOut conf uri freshHeadersOut f).contentLengthN := by
  have hserver : (a.headersOut conf uri freshHeadersOut f).server = none := by
    cases a <;> rfl
  have hlength : (a.headersOut conf uri freshHeadersOut f).contentLength = none := by
    cases a <;> rfl
  rw [finalHeaders_entries hserver hlength, headersOut_entries]
  rfl

theorem contentLengthN_lt (hf : f.Opened) (a : Answer) :
    (a.headersOut conf uri freshHeadersOut f).contentLengthN < 2 ^ 63 := by
  have hpage : ∀ error,
      (((pageBody error).last - (pageBody error).pos : Nat) : Int) < 2 ^ 63 := by
    intro error
    have hle := @page_length_le error
    omega
  cases a with
  | page error => exact hpage error
  | redirect => exact hpage EHD_HTTP_MOVED_TEMPORARILY
  | file name =>
    have hsize := hf.size
    show (f.size : Int) < 2 ^ 63
    omega

theorem entries_inData (hfits : uri.len ≤ uri.data.length) (hf : f.Opened) (a : Answer) :
    ∀ t ∈ pushedHeaders conf uri a ++
      addedHeaders (a.headersOut conf uri freshHeadersOut f).contentLengthN, InData t := by
  have hn := @contentLengthN_lt conf uri f hf a
  generalize (a.headersOut conf uri freshHeadersOut f).contentLengthN = n at hn
  intro t ht
  rcases List.mem_append.1 ht with hpushed | hadded
  · cases a with
    | page error =>
      rw [List.mem_singleton.1 hpushed]
      exact htmlType_inData
    | redirect =>
      rcases List.mem_cons.1 hpushed with rfl | hhtml
      · exact location_inData conf hfits
      · rw [List.mem_singleton.1 hhtml]
        exact htmlType_inData
    | file name =>
      obtain ⟨ty, -, rfl⟩ := Option.map_eq_some_iff.1 (Option.mem_toList.1 hpushed)
      exact typeHeader_inData ty
  · rcases List.mem_cons.1 hadded with rfl | hlength
    · exact serverHeader_inData
    · split at hlength
      · rw [List.mem_singleton.1 hlength]
        apply contentLengthHeader_inData
        omega
      · cases hlength

end

/-- The head of `w` is whole: after the status line each entry stands with its name and
its value, the entries `pushed` first, and nothing was left out for want of room. -/
structure WholeHead (pushed : List TableData) (w : World) : Prop where
  entries : w.r.headersOut.headers.entries = pushed ++ addedHeaders w.r.headersOut.contentLengthN
  inData : ∀ t ∈ w.r.headersOut.headers.entries, InData t
  /-- the 20 bytes hold the number and its NUL -/
  length : 0 < w.r.headersOut.contentLengthN →
    (decimal w.r.headersOut.contentLengthN.toNat).length < 20 ∧
    (contentLengthHeader w.r.headersOut.contentLengthN.toNat).value.bytes =
      decimal w.r.headersOut.contentLengthN.toNat
  line : statusLine w.r.headersOut = ascii "HTTP/1.1 " ++ decimal w.r.headersOut.status ++ CRLF
  lineRoom : (statusLine w.r.headersOut).length < (Buf.temp 8192).room
  room : RoomFor ((Buf.temp 8192).append (statusLine w.r.headersOut))
    w.r.headersOut.headers.entries
  head : ∃ head body, w.r.response.data.map Buf.bytes = [head, body] ∧
    head = statusLine w.r.headersOut ++
      (w.r.headersOut.headers.entries.flatMap encodeHeader ++ CRLF) ∧
    head.length ≤ 8192

theorem SameHead.whole {w w' : World} {pushed : List TableData} (h : SameHead w w')
    (hw : WholeHead pushed w) : WholeHead pushed w' := by
  have hho := h.headersOut
  constructor
  · rw [hho]
    exact hw.entries
  · rw [hho]
    exact hw.inData
  · rw [hho]
    exact hw.length
  · rw [hho]
    exact hw.line
  · rw [hho]
    exact hw.lineRoom
  · rw [hho]
    exact hw.room
  · rw [hho, h.bytes]
    exact hw.head

section

variable {w : World}

/-- What the entries of an answer take: its `Location`, if any, is one byte longer than
the path, and the others take 64 bytes each at most. -/
theorem answer_cost {conf : Conf} {uri : Str} {f : File} (hshort : uri.len ≤ 4097) (hf : f.Opened)
    (a : Answer) : (((finalHeaders (a.headersOut conf uri freshHeadersOut f)).entries).map
      headerCost).sum ≤ 4302 := by
  have hcost := (listed_answer conf uri hf a).cost
  have hkey : (ehdString "Location").len = 8 := by decide
  have hlocation : headerCost (location conf uri) = 8 + (uri.len + 1) + 4 := by
    unfold headerCost location
    rw [hkey]
  omega

theorem HeadOf.whole {f : File} {s : World} (hfits : w.r.uri.len ≤ w.r.uri.data.length)
    (hshort : w.r.uri.len ≤ 4097) (hf : f.Opened)
    (h : HeadOf w.conf w.r.uri (answer w.conf w.r w.k) f s) :
    WholeHead (pushedHeaders w.conf w.r.uri (answer w.conf w.r w.k)) s := by
  have hstatus := answer_status w.conf w.r w.k freshHeadersOut f
  have hheaders := h.headersOut
  have hchain := h.bytes
  generalize answer w.conf w.r w.k = a at hstatus hheaders hchain ⊢
  have hcost := @answer_cost w.conf w.r.uri f hshort hf a
  have hentries := @finalHeaders_answer w.conf w.r.uri f a
  have hinData := @entries_inData w.conf w.r.uri f hfits hf a
  have hn := @contentLengthN_lt w.conf w.r.uri f hf a
  have hline : (a.headersOut w.conf w.r.uri freshHeadersOut f).statusLine = none := by
    cases a <;> rfl
  -- from here only the costs of the headers matter, not which answer it is
  generalize a.headersOut w.conf w.r.uri freshHeadersOut f = ho at *
  rw [← hentries] at hinData
  have hlen := statusLine_length_le hline hstatus
  have hsame : statusLine s.r.headersOut = statusLine ho := by
    rw [hheaders]
    rfl
  have hlist : s.r.headersOut.headers.entries = (finalHeaders ho).entries := by
    rw [hheaders]
  have hsize : s.r.headersOut.contentLengthN = ho.contentLengthN := by
    rw [hheaders]
  have hroom : ((Buf.temp 8192).append (statusLine ho)).room = 8192 - (statusLine ho).length :=
    room_append _ _
  have hbytes := @headOf_eq ho (by omega)
  constructor
  · rw [hlist, hsize]
    exact hentries
  · rw [hlist]
    exact hinData
  · rw [hsize]
    intro hpos
    -- 19 digits at most go into the 20 bytes
    have hnat : ho.contentLengthN.toNat < 2 ^ 63 := by omega
    have hdigits := decimal_length_le hnat
    exact ⟨by omega, contentLengthHeader_value hnat⟩
  · have hnone : s.r.headersOut.statusLine = none := by
      rw [hheaders]
      exact hline
    unfold statusLine
    rw [hnone]
  · rw [hsame]
    show _ < 8192
    omega
  · rw [hsame, hlist]
    apply roomFor_of_cost
    omega
  · rw [hsame, hlist]
    refine ⟨_, _, hchain, hbytes, ?_⟩
    have hsum := encodedHeaders_length_le (finalHeaders ho).entries
    have hcrlf : CRLF.length = 2 := rfl
    rw [hbytes, List.length_append, List.length_append]
    omega

/-- For an accepted request whose line is in the input buffer, whatever `stat` and
`open` say: the head of the answer is its status line, a line for each entry that the
handlers have pushed, for `Server` and for a body's length, and an empty line. -/
theorem response_head_whole {b b' : Buf} {p : ParseState}
    (hparse : parseRequestLine {} b = (.ok, p, b')) (hbuf : InBuf b) (hreading : Reading w)
    (huri : CopiedUri p b' w.r.uri) (hdone : returns handler w = true ∨ w.k.Reliable) :
    WholeHead (pushedHeaders w.conf w.r.uri (answer w.conf w.r w.k)) (after handler w) := by
  obtain ⟨t, hstands⟩ := huri.stands hparse
  have hshort := huri.short hparse hbuf
  apply after_handler_head hreading hdone
  · intro s s' hsame hs
    exact hsame.whole hs
  · intro s f hf hhead
    exact hhead.whole hstands.fits hshort hf

end

/-- The redirect from `/a` to `/a/` has a whole head. -/
theorem response_head_whole_redirect :
    WholeHead [location ehdConfInit ⟨2, ascii "/a\x00"⟩, htmlType]
      (after handler (sampleRedirect ⟨2, ascii "/a\x00"⟩)) := by
  have hparse : parseRequestLine {} (lineBuf "GET /a HTTP/1.1\n") =
      (.ok, lineState "GET /a HTTP/1.1\n", lineRest "GET /a HTTP/1.1\n") := by
    decide
  have hbuf : InBuf (lineBuf "GET /a HTTP/1.1\n") := by
    constructor <;> decide
  have huri : CopiedUri (lineState "GET /a HTTP/1.1\n") (lineRest "GET /a HTTP/1.1\n")
      ⟨2, ascii "/a\x00"⟩ :=
    copiedUri_of_plain [0, 0, 0] (by decide) (by decide) (by decide)
  exact response_head_whole hparse hbuf (sampleRedirect_reading _) huri
    (Or.inr (sampleRedirect_reliable _))

end Ehd.Http
