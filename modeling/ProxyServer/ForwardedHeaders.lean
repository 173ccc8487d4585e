import ProxyServer.RoundTrip

/-!
What becomes of the client's headers upstream. The headers of a message are read
off its lines, on both sides in the same way. Where every header line is a name,
a colon, a blank and a value, the header table holds each name once, under its
last value and in the order of the last lines, and what is sent is the rest of
the table behind which stand the headers that the proxy sets itself.
-/
namespace ProxyServer

open CStrings ParseError ParsedRequest ParsedHeader OrderedTable ProxyUtils

namespace ForwardedHeaders

def dropBlank : CString → CString
  | ' ' :: v => v
  | v => v

/-- Name and value of a header line, without the blank after the colon. -/
def headerOf (l : CString) : CString × CString :=
  (l.takeWhile (· != ':'), dropBlank ((l.dropWhile (· != ':')).drop 1))

def headerLine (e : CString × CString) : CString := e.1 ++ ": ".toList ++ e.2

/-- The line is a name, a colon, a blank and a value. -/
def IsHeaderLine (l : CString) : Prop := l = headerLine (headerOf l)

instance (l : CString) : Decidable (IsHeaderLine l) := inferInstanceAs (Decidable (_ = _))

/-- The lines between the first one and the blank line. -/
def headerLines (text : CString) : List CString :=
  ((splitCrlf text).drop 1).takeWhile (· ≠ [])

def headers (text : CString) : List (CString × CString) := (headerLines text).map headerOf

/-- The headers sent upstream for those that the client sent. -/
def forwarded (host : CString) (sent : List (CString × CString)) : List (CString × CString) :=
  lastOfEach (sent.filter (fun e => e.1 ≠ "Host".toList ∧ e.1 ≠ "Connection".toList)) ++
    [("Host".toList, host), ("Connection".toList, "close".toList)]

theorem headerOf_append {name : CString} (hname : ':' ∉ name) (after : CString) :
    headerOf (name ++ ':' :: after) = (name, dropBlank after) := by
  have hkeep : ∀ c ∈ name, (c != ':') = true := by
    intro c hc
    rw [bne_iff_ne]
    exact fun heq => hname (heq ▸ hc)
  rw [headerOf, List.takeWhile_append_of_pos hkeep, List.dropWhile_append_of_pos hkeep,
    List.takeWhile_cons_of_neg (by simp), List.dropWhile_cons_of_neg (by simp), List.append_nil]
  rfl

theorem headerOf_headerLine {e : CString × CString} (h : ':' ∉ e.1) :
    headerOf (headerLine e) = e := by
  have hsplit : headerLine e = e.1 ++ ':' :: ' ' :: e.2 := by simp [headerLine]
  rw [hsplit, headerOf_append h]
  rfl

theorem noColon_headerOf (l : CString) : ':' ∉ (headerOf l).1 := by
  intro hc
  have hne := List.mem_takeWhile_imp hc
  simp at hne

/-- A message is its first line, its header lines and a body. -/
theorem headerLines_block {l : CString} {lines : List CString} (hl : NoCrlf l)
    (hlines : ∀ u ∈ lines, IsLine u) (body : CString) :
    headerLines (l ++ (crlf ++ (block lines ++ body))) = lines := by
  rw [headerLines, splitCrlf_append hl, splitCrlf_block (fun u hu => (hlines u hu).noCrlf)]
  rw [List.drop_succ_cons, List.drop_zero, List.takeWhile_append_of_pos, List.takeWhile_cons_of_neg,
    List.append_nil]
  · simp
  · intro u hu
    simpa using (hlines u hu).nonempty

theorem headerText_block {e : CString × CString} (hcolon : ':' ∉ e.1)
    (hline : NoCrlf (headerLine e)) (lines : List CString) :
    HeaderText (block (headerLine e :: lines)) e.1 e.2 := by
  refine ⟨hcolon, ?_, ' ', block lines, ?_⟩
  · exact hline.of_isInfix ⟨e.1 ++ ": ".toList, [], by rw [List.append_nil]; rfl⟩
  · rw [block_cons, headerLine]
    simp

theorem headerSets_of_isHeaderLine {lines : List CString} (hlines : ∀ u ∈ lines, IsLine u)
    (hform : ∀ u ∈ lines, IsHeaderLine u) : HeaderSets lines (lines.map headerOf) := by
  induction lines with
  | nil => exact .nil
  | cons l lines ih =>
    apply HeaderSets.cons
    · have hl := (hlines l List.mem_cons_self).noCrlf
      have hheader := headerText_block (noColon_headerOf l)
        (by rwa [← hform l List.mem_cons_self]) lines
      rwa [← hform l List.mem_cons_self] at hheader
    · exact ih (fun u hu => hlines u (List.mem_cons_of_mem _ hu))
        (fun u hu => hform u (List.mem_cons_of_mem _ hu))

/-- Printed headers whose names have no colon and whose lines are lines are
read back. -/
theorem headers_upstreamText {line : RequestLine} {t : List (CString × CString)}
    (hline : NoCrlf (line.method ++ " ".toList ++ line.path ++ " ".toList ++ line.version))
    (hcolon : ∀ e ∈ t, ':' ∉ e.1) (hlines : ∀ e ∈ t, NoCrlf (headerLine e)) :
    headers (upstreamText line t) = t := by
  have hblock : t.flatMap headerText ++ crlf = block (t.map headerLine) := by
    rw [block, List.flatMap_map]
    rfl
  have hisLine : ∀ u ∈ t.map headerLine, IsLine u := by
    intro u hu
    obtain ⟨e, he, rfl⟩ := List.mem_map.mp hu
    exact ⟨by simp [headerLine], hlines e he⟩
  have hmessage := headerLines_block hline hisLine []
  rw [List.append_nil] at hmessage
  rw [upstreamText, hblock, List.append_assoc, headers, hmessage, List.map_map]
  have hid : ∀ e ∈ t, (headerOf ∘ headerLine) e = id e := fun e he =>
    headerOf_headerLine (hcolon e he)
  rw [List.map_congr_left hid, List.map_id]

theorem upstreamTable_ofSets (line : RequestLine) (sets : List (CString × CString)) :
    upstreamTable line (ofSets sets) = forwarded line.host sets :=
  set_set_ofSets (by decide) line.host "close".toList sets

theorem lastOfEach_sublist (sets : List (CString × CString)) :
    (lastOfEach sets).Sublist sets := by
  rw [← ofSets_eq_lastOfEach]
  exact ofSets_sublist sets

theorem nodup_keys_forwarded (host : CString) (sent : List (CString × CString)) :
    (keys (forwarded host sent)).Nodup := by
  rw [forwarded, ← set_set_ofSets (by decide)]
  exact nodup_set (nodup_set (nodup_ofSets sent) _ _) _ _

theorem mem_forwarded {host : CString} {sent : List (CString × CString)} {e : CString × CString}
    (h : e ∈ forwarded host sent) :
    e ∈ sent ∨ e = ("Host".toList, host) ∨ e = ("Connection".toList, "close".toList) := by
  rw [forwarded, List.mem_append] at h
  rcases h with h | h
  · exact Or.inl (List.mem_filter.mp ((lastOfEach_sublist _).subset h)).1
  · simpa using Or.inr h

theorem noCrlf_headerLine_forwarded {host : CString} {lines : List CString}
    (hlines : ∀ u ∈ lines, IsLine u) (hform : ∀ u ∈ lines, IsHeaderLine u) (hhost : NoCrlf host)
    {e : CString × CString} (he : e ∈ forwarded host (lines.map headerOf)) :
    ':' ∉ e.1 ∧ NoCrlf (headerLine e) := by
  rcases mem_forwarded he with he | rfl | rfl
  · obtain ⟨u, hu, rfl⟩ := List.mem_map.mp he
    refine ⟨noColon_headerOf u, ?_⟩
    rw [← hform u hu]
    exact (hlines u hu).noCrlf
  · refine ⟨by simp, ?_⟩
    show NoCrlf ("Host:".toList ++ ' ' :: host)
    rw [noCrlf_append_cons (by decide) (by decide)]
    exact ⟨by decide, hhost⟩
  · exact ⟨by simp, by decide⟩

theorem noCrlf_requestText {t : RequestText} (h : NoCrlf t.text) :
    NoCrlf (t.fields.method ++ " ".toList ++ t.fields.path ++ " ".toList ++ t.fields.version) := by
  have hpath := h.of_isInfix (RequestText.drop_isInfix t.pathTail_isInfix)
  have hversion := h.of_isInfix t.version_isInfix
  have hshape : t.fields.method ++ " ".toList ++ t.fields.path ++ " ".toList ++ t.fields.version =
      "GET ".toList ++ '/' :: (t.pathTail.drop 1 ++ ' ' :: t.version) := by
    simp [RequestText.fields]
  rw [hshape, noCrlf_append_cons (by decide) (by decide),
    noCrlf_append_cons (by decide) (by decide)]
  exact ⟨by decide, hpath, hversion⟩

/-- Upstream goes the request line with the path alone, and of each client
header its last value, in the order of the last lines, behind which stand the
parsed host and `close`. -/
theorem convert_forwards_last {buf : List Char} {errnoEinval : Bool} {pr : ParsedRequest}
    (hparse : parse create buf errnoEinval = .ok pr)
    (hform : ∀ l ∈ headerLines buf, IsHeaderLine l) :
    ∃ line req text, pr.requestLine = some line ∧
      convertRequestToString pr = some (req, text) ∧
      text = upstreamText line (forwarded line.host (headers buf)) ∧
      headers text = forwarded line.host (headers buf) ∧
      (keys (headers text)).Nodup := by
  obtain ⟨u, body, hbuf, hnul, hend⟩ := exists_blank_of_parse hparse
  obtain ⟨l, lines, hu, hl, hlines⟩ := hend.exists_block
  have hshape : buf = l ++ (crlf ++ (block lines ++ body)) := by
    rw [hbuf, ← List.append_assoc, hu]
    simp only [List.append_assoc]
  have hn : nul ∉ l ++ (crlf ++ block lines) := by
    rw [← hu]
    intro hc
    rcases List.mem_append.mp hc with hc | hc
    · exact hnul hc
    · exact absurd hc (by decide)
  subst hshape
  have hnLine : nul ∉ l := fun hc => hn (List.mem_append_left _ hc)
  have hmessage := headerLines_block hl hlines body
  rw [hmessage] at hform
  have hlineParse := hparse
  rw [parse_block hl hn body (length_of_parse hparse)] at hlineParse
  obtain ⟨line, hline, _⟩ := bind_ok hlineParse
  obtain ⟨pr', hparse', hrequest, hlive⟩ := parse_block_sets hl hlines hn body
    (length_of_parse hparse) hline
    (headerSets_of_isHeaderLine hlines hform)
  obtain rfl : pr = pr' := Except.ok.inj (hparse.symm.trans hparse')
  obtain ⟨t, _, rfl, rfl⟩ := parseRequestLine_ok hnLine hline
  have hsent : headers (t.text ++ (crlf ++ (block lines ++ body))) = lines.map headerOf := by
    rw [headers, hmessage]
  have htable : upstreamTable t.fields pr.live = forwarded t.fields.host (lines.map headerOf) := by
    rw [hlive, upstreamTable_ofSets]
  obtain ⟨line, req, hline', hconvert⟩ := convert_of_parse hparse
  obtain rfl : line = t.fields := Option.some.inj (hline'.symm.trans hrequest)
  rw [htable] at hconvert
  have hread : headers (upstreamText t.fields (forwarded t.fields.host (lines.map headerOf))) =
      forwarded t.fields.host (lines.map headerOf) := by
    have hhost := hl.of_isInfix t.host_isInfix
    apply headers_upstreamText (noCrlf_requestText hl)
    · exact fun e he => (noCrlf_headerLine_forwarded hlines hform hhost he).1
    · exact fun e he => (noCrlf_headerLine_forwarded hlines hform hhost he).2
  refine ⟨t.fields, req, _, hrequest, hconvert, ?_, ?_, ?_⟩
  · rw [hsent]
  · rw [hsent, hread]
  · rw [hread]
    exact nodup_keys_forwarded _ _

/-- A request that repeats a name and names a host of its own. -/
theorem convert_forwards_last_repeated :
    let buf := "GET http://h/ HTTP/1.0\r\nA: 1\r\nHost: x\r\nA: 2\r\n\r\n".toList
    ∃ pr, parse create buf false = .ok pr ∧
      ∃ line req text, pr.requestLine = some line ∧
        convertRequestToString pr = some (req, text) ∧
        text = upstreamText line (forwarded line.host (headers buf)) ∧
        headers text = forwarded line.host (headers buf) ∧
        (keys (headers text)).Nodup := by
  intro buf
  have hparse : parse create buf false = .ok ⟨some ⟨"GET".toList, "http".toList, "h".toList, none,
      "/".toList, "HTTP/1.0".toList⟩, [⟨none, "1".toList⟩, ⟨some "Host".toList, "x".toList⟩,
      ⟨some "A".toList, "2".toList⟩], 8⟩ := by decide
  exact ⟨_, hparse, convert_forwards_last hparse (by decide)⟩

/-- Names without regard to case. -/
def lower (name : CString) : CString := name.map Char.toLower

/-- Every header but Host and Connection is received as it was sent, and one of
each of these with the values that the proxy sets. -/
structure ForwardsEach (host : CString) (sent received : List (CString × CString)) : Prop where
  others : received.filter (fun e => lower e.1 ∉ ["host".toList, "connection".toList]) =
    sent.filter (fun e => lower e.1 ∉ ["host".toList, "connection".toList])
  host : (received.filter (fun e => lower e.1 = "host".toList)).map Prod.snd = [host]
  connection : (received.filter (fun e => lower e.1 = "connection".toList)).map Prod.snd =
    ["close".toList]

/-- What is sent upstream for the buffer has each header the buffer has. -/
def ForwardsAll (buf : List Char) : Prop :=
  ∀ pr line req text, parse create buf false = .ok pr → pr.requestLine = some line →
    convertRequestToString pr = some (req, text) →
    ForwardsEach line.host (headers buf) (headers text)

/-- A repeated name loses its first line, a lower-case host is sent beside the
one that the proxy sets, and without a blank the value loses a character. -/
theorem not_forwardsAll :
    ¬ ForwardsAll "GET http://h/ HTTP/1.0\r\nA: 1\r\nA: 2\r\n\r\n".toList ∧
    ¬ ForwardsAll "GET http://h/ HTTP/1.0\r\nhost: x\r\n\r\n".toList ∧
    ¬ ForwardsAll "GET http://h/ HTTP/1.0\r\nA:1\r\n\r\n".toList := by
  obtain ⟨line, hline⟩ : ∃ line : RequestLine, line = ⟨"GET".toList, "http".toList, "h".toList,
    none, "/".toList, "HTTP/1.0".toList⟩ := ⟨_, rfl⟩
  refine ⟨?_, ?_, ?_⟩
  · intro h
    have heach := h ⟨some line, [⟨none, "1".toList⟩, ⟨some "A".toList, "2".toList⟩], 8⟩ line
      ⟨some line, [⟨none, "1".toList⟩, ⟨some "A".toList, "2".toList⟩,
        ⟨some "Host".toList, "h".toList⟩, ⟨some "Connection".toList, "close".toList⟩], 8⟩
      "GET / HTTP/1.0\r\nA: 2\r\nHost: h\r\nConnection: close\r\n\r\n".toList
      (by subst hline; decide) rfl (by subst hline; decide)
    exact absurd heach.others (by decide)
  · intro h
    have heach := h ⟨some line, [⟨some "host".toList, "x".toList⟩], 8⟩ line
      ⟨some line, [⟨some "host".toList, "x".toList⟩, ⟨some "Host".toList, "h".toList⟩,
        ⟨some "Connection".toList, "close".toList⟩], 8⟩
      "GET / HTTP/1.0\r\nhost: x\r\nHost: h\r\nConnection: close\r\n\r\n".toList
      (by subst hline; decide) rfl (by subst hline; decide)
    exact absurd heach.host (by subst hline; decide)
  · intro h
    have heach := h ⟨some line, [⟨some "A".toList, []⟩], 8⟩ line
      ⟨some line, [⟨some "A".toList, []⟩, ⟨some "Host".toList, "h".toList⟩,
        ⟨some "Connection".toList, "close".toList⟩], 8⟩
      "GET / HTTP/1.0\r\nA: \r\nHost: h\r\nConnection: close\r\n\r\n".toList
      (by subst hline; decide) rfl (by subst hline; decide)
    exact absurd heach.others (by decide)

end ForwardedHeaders

end ProxyServer
