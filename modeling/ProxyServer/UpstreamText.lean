import ProxyServer.PrintedSizes
import ProxyServer.ReceiveLoop

/-!
What the C `handle_request` sends to the origin. The request line is written to a
buffer of `MAX_BYTES` with `strcpy` and `strcat`, and the headers behind it without a
terminator, so that `strlen` goes on into what was in the buffer before. The buffer of
the proxies with a cache has never been written to; the one of the proxy without a
cache is zeroed. Headers that do not fit are left out, and then the text is
terminated.
-/
namespace ProxyServer.V1

open CStrings ParsedHeader OrderedTable ParsedRequest

/-- `none` where the buffer is overrun. -/
def strcpy (dst : List Char) (src : CString) : Option (List Char) :=
  if src.length < dst.length then some (overwrite dst 0 (src ++ [nul])) else none

def strcat (dst : List Char) (src : CString) : Option (List Char) :=
  (cstring dst).bind (fun text =>
    if text.length + src.length < dst.length
    then some (overwrite dst text.length (src ++ [nul])) else none)

def copyRequestLine (buf : List Char) (line : RequestLine) : Option (List Char) := do
  let buf ← strcpy buf "GET ".toList
  let buf ← strcat buf line.path
  let buf ← strcat buf " ".toList
  let buf ← strcat buf line.version
  strcat buf crlf

/-- The request with the headers that `handle_request` sets. -/
def withRequestHeaders (request : ParsedRequest) (line : RequestLine) : ParsedRequest :=
  let request := ParsedHeader.set request "Connection".toList "close".toList
  match ParsedHeader.get request "Host".toList with
  | none => ParsedHeader.set request "Host".toList line.host
  | some _ => request

/-- What is sent of `buf`; a failed `ParsedRequest_unparse_headers` leaves it as it is. -/
def sendRequest (buf : List Char) (request : ParsedRequest) : Option CString := do
  let line ← request.requestLine
  let buf ← copyRequestLine buf line
  let text ← cstring buf
  let headers :=
    unparseHeaders (withRequestHeaders request line) (sizeT ((maxBytes : ℤ) - text.length))
  match headers with
  | none => cstring buf
  | some headers => cstring (overwrite buf text.length headers)

/-- The request line as it is meant. -/
def requestLineText (line : RequestLine) : CString :=
  "GET ".toList ++ (line.path ++ (" ".toList ++ (line.version ++ crlf)))

/-- The headers and the blank line as they are meant. -/
def requestHeadersText (request : ParsedRequest) (line : RequestLine) : CString :=
  (withRequestHeaders request line).live.flatMap headerText ++ crlf

section Strings

variable {g : List Char} {s src : CString}

/-- The buffer that held `g` with a string at its front. -/
def printed (g : List Char) (s : CString) : List Char := s ++ nul :: g.drop (s.length + 1)

theorem strcpy_eq (hroom : src.length < g.length) : strcpy g src = some (printed g src) := by
  rw [strcpy, if_pos hroom, overwrite, printed]
  simp

theorem length_printed (h : s.length < g.length) : (printed g s).length = g.length := by
  rw [printed, List.length_append, List.length_cons, List.length_drop]
  omega

theorem strcat_printed (hs : nul ∉ s) (hroom : (s ++ src).length < g.length) :
    strcat (printed g s) src = some (printed g (s ++ src)) := by
  have hsum : (s ++ src).length = s.length + src.length := List.length_append
  have hdrop : (printed g s).drop (s.length + (src ++ [nul]).length) =
      g.drop ((s ++ src).length + 1) := by
    have hone : (src ++ [nul]).length = src.length + 1 := List.length_append
    rw [printed, List.drop_append, List.drop_eq_nil_of_le (by omega), List.nil_append,
      Nat.add_sub_cancel_left, hone, List.drop_succ_cons, List.drop_drop]
    congr 1
    omega
  have hread : cstring (printed g s) = some s := cstring_append hs _
  have htake : (printed g s).take s.length = s := List.take_left
  rw [strcat, hread, Option.bind_some, length_printed (by omega), if_pos (by omega), overwrite,
    htake, hdrop, printed]
  simp

theorem cstring_append_left (hs : nul ∉ s) (p : List Char) :
    cstring (s ++ p) = (cstring p).map (fun text => s ++ text) := by
  unfold cstring
  by_cases hp : nul ∈ p
  · rw [if_pos hp, if_pos (List.mem_append_right s hp), List.takeWhile_append_of_pos]
    · rfl
    · intro c hc
      rw [bne_iff_ne]
      rintro rfl
      exact hs hc
  · rw [if_neg hp, if_neg]
    · rfl
    · rw [List.mem_append, not_or]
      exact ⟨hs, hp⟩

theorem copyRequestLine_eq {line : RequestLine} (hn : nul ∉ requestLineText line)
    (hroom : (requestLineText line).length < g.length) :
    copyRequestLine g line = some (printed g (requestLineText line)) := by
  have htext : requestLineText line =
      ((("GET ".toList ++ line.path) ++ " ".toList) ++ line.version) ++ crlf := by
    simp only [requestLineText, List.append_assoc]
  rw [htext] at hn hroom ⊢
  simp only [List.length_append] at hroom
  simp only [List.mem_append, not_or] at hn
  obtain ⟨⟨⟨⟨hget, hpath⟩, hspace⟩, hversion⟩, _⟩ := hn
  have hstart : strcpy g "GET ".toList = some (printed g "GET ".toList) :=
    strcpy_eq (by omega)
  have hget_path : strcat (printed g "GET ".toList) line.path =
      some (printed g ("GET ".toList ++ line.path)) :=
    strcat_printed hget (by simp only [List.length_append]; omega)
  have hget_space : strcat (printed g ("GET ".toList ++ line.path)) " ".toList =
      some (printed g ("GET ".toList ++ line.path ++ " ".toList)) :=
    strcat_printed (by simp only [List.mem_append, not_or]; exact ⟨hget, hpath⟩)
      (by simp only [List.length_append]; omega)
  have hget_version : strcat (printed g ("GET ".toList ++ line.path ++ " ".toList)) line.version =
      some (printed g ("GET ".toList ++ line.path ++ " ".toList ++ line.version)) :=
    strcat_printed (by simp only [List.mem_append, not_or]; exact ⟨⟨hget, hpath⟩, hspace⟩)
      (by simp only [List.length_append]; omega)
  have hget_crlf : strcat (printed g ("GET ".toList ++ line.path ++ " ".toList ++ line.version))
      crlf = some (printed g ("GET ".toList ++ line.path ++ " ".toList ++ line.version ++ crlf)) :=
    strcat_printed
      (by simp only [List.mem_append, not_or]; exact ⟨⟨⟨hget, hpath⟩, hspace⟩, hversion⟩)
      (by simp only [List.length_append]; omega)
  simp only [copyRequestLine, hstart, hget_path, hget_space, hget_version, hget_crlf,
    Option.bind_eq_bind, Option.bind_some]

end Strings

/-- The live headers are strings, and no key has a colon in it. -/
def Readable (pr : ParsedRequest) : Prop :=
  ∀ e ∈ pr.live, nul ∉ e.1 ∧ ':' ∉ e.1 ∧ nul ∉ e.2

section Headers

variable {pr pr' : ParsedRequest} {key value : CString}

/-- What a call with readable arguments keeps, and how much it adds. -/
structure KeepsReadable (pr pr' : ParsedRequest) (size : ℕ) : Prop where
  readable : Readable pr'
  nodup : (keys pr'.live).Nodup
  size : printedSize pr' ≤ printedSize pr + size
  requestLine : pr'.requestLine = pr.requestLine

theorem keeps_set (h : Readable pr) (hnodup : (keys pr.live).Nodup)
    (hkey : nul ∉ key) (hcolon : ':' ∉ key) (hvalue : nul ∉ value) :
    KeepsReadable pr (ParsedHeader.set pr key value) (key.length + value.length + 4) where
  readable := by
    intro e he
    rw [live_set hnodup, OrderedTable.set, List.mem_append, List.mem_singleton] at he
    rcases he with hold | rfl
    · exact h e (List.mem_filter.mp hold).1
    · exact ⟨hkey, hcolon, hvalue⟩
  nodup := by
    rw [live_set hnodup]
    exact nodup_set hnodup key value
  size := by
    rw [printedSize, live_set hnodup]
    exact length_flatMap_set pr.live key value
  requestLine := set_requestLine pr key value

/-- `handle_request` adds a header of its own and perhaps the host. -/
theorem keeps_withRequestHeaders {line : RequestLine} (h : Readable pr)
    (hnodup : (keys pr.live).Nodup) (hhost : nul ∉ line.host) :
    KeepsReadable pr (withRequestHeaders pr line) (27 + line.host.length) := by
  have hconnection : KeepsReadable pr (ParsedHeader.set pr "Connection".toList "close".toList) 19 :=
    keeps_set h hnodup (by decide) (by decide) (by decide)
  have hsize := hconnection.size
  have hboth := keeps_set hconnection.readable hconnection.nodup
    (by decide : nul ∉ "Host".toList) (by decide) hhost
  have hsize' := hboth.size
  have hfour : "Host".toList.length = 4 := rfl
  unfold withRequestHeaders
  dsimp only
  split
  · exact ⟨hboth.readable, hboth.nodup, by omega,
      hboth.requestLine.trans hconnection.requestLine⟩
  · exact ⟨hconnection.readable, hconnection.nodup, by omega, hconnection.requestLine⟩

/-- The searches stop at a NUL, so none is copied, and the key ends at a colon. -/
theorem parseHeader_readable {line : List Char} (h : ParsedHeader.parse pr line = .ok pr') :
    ∃ key value, pr' = ParsedHeader.set pr key value ∧
      nul ∉ key ∧ ':' ∉ key ∧ nul ∉ value := by
  obtain ⟨found, hfound, h⟩ := ParseError.bind_ok h
  obtain ⟨index1, hindex1, h⟩ := ParseError.bind_ok h
  obtain ⟨found2, hfound2, h⟩ := ParseError.bind_ok h
  obtain ⟨index2, hindex2, h⟩ := ParseError.bind_ok h
  rw [ParseError.orRejected_ok hindex1] at hfound
  obtain ⟨u, rfl, hu, hcolon, rest, rfl⟩ := index_eq_some (ParseError.orUndefined_ok hfound)
  rw [ParseError.orUndefined_ok hindex2] at hfound2
  obtain ⟨v, hv, hnv, _⟩ := strstr_eq_some (ParseError.orUndefined_ok hfound2)
  refine ⟨_, _, (Except.ok.inj h).symm, ?_, ?_, ?_⟩
  · rw [List.length_append, Nat.add_sub_cancel, List.take_left]
    exact hu
  · rw [List.length_append, Nat.add_sub_cancel, List.take_left]
    exact hcolon
  · rw [hv, List.length_append, Nat.add_sub_cancel, List.take_left]
    exact hnv

theorem parseHeaders_readable (fuel : ℕ) : ∀ {pr pr' : ParsedRequest} {currentHeader : List Char},
    Readable pr → (keys pr.live).Nodup →
      parseHeaders fuel pr currentHeader = .ok pr' → Readable pr' := by
  induction fuel with
  | zero =>
    intro pr pr' currentHeader _ _ h
    contradiction
  | succ fuel ih =>
    intro pr pr' currentHeader hread hnodup h
    rw [parseHeaders] at h
    split at h
    · contradiction
    · split at h
      · cases h
        exact hread
      · split at h
        · cases h
          exact hread
        · obtain ⟨pr₁, hheader, h⟩ := ParseError.bind_ok h
          obtain ⟨key, value, rfl, hkey, hcolon, hvalue⟩ := parseHeader_readable hheader
          have hkept := keeps_set hread hnodup hkey hcolon hvalue
          obtain ⟨next, _, h⟩ := ParseError.bind_ok h
          cases next with
          | none =>
            cases h
            exact hkept.readable
          | some next =>
            obtain ⟨text, _, h⟩ := ParseError.bind_ok h
            split at h
            · cases h
              exact hkept.readable
            · exact ih hkept.readable hkept.nodup h

/-- The headers of an accepted request can be printed. -/
theorem readable_of_parse {buf : List Char} {errnoEinval : Bool}
    (h : parse create buf errnoEinval = .ok pr) : Readable pr := by
  obtain ⟨u, rest, line, _, _, _, _, hheaders⟩ := parse_ok h
  have hempty : (keys (ParsedRequest.live { create with requestLine := some line })).Nodup :=
    List.nodup_nil
  have hnone : Readable { create with requestLine := some line } := by
    intro e he
    cases he
  exact parseHeaders_readable _ hnone hempty hheaders

end Headers

/-- All of the text as it is meant. -/
def requestText (request : ParsedRequest) (line : RequestLine) : CString :=
  requestLineText line ++ requestHeadersText request line

/-- What `handle_request` needs to know of the request it is given. -/
structure Sendable (buf : List Char) (pr : ParsedRequest) (line : RequestLine) : Prop where
  requestLine : pr.requestLine = some line
  keptLine : (withRequestHeaders pr line).requestLine = some line
  nulLine : nul ∉ requestLineText line
  nulHeaders : nul ∉ requestHeadersText pr line
  length_line : (requestLineText line).length ≤ buf.length
  headersLen : headersLen (withRequestHeaders pr line) = (requestHeadersText pr line).length

theorem Sendable.nulText {buf : List Char} {pr : ParsedRequest} {line : RequestLine}
    (h : Sendable buf pr line) : nul ∉ requestText pr line := by
  rw [requestText, List.mem_append, not_or]
  exact ⟨h.nulLine, h.nulHeaders⟩

theorem nul_notMem_headers {entries : List (CString × CString)}
    (h : ∀ e ∈ entries, nul ∉ e.1 ∧ ':' ∉ e.1 ∧ nul ∉ e.2) :
    nul ∉ entries.flatMap headerText ++ crlf := by
  intro hmem
  rcases List.mem_append.mp hmem with hheaders | hcrlf
  · obtain ⟨e, he, hnul⟩ := List.mem_flatMap.mp hheaders
    obtain ⟨hkey, _, hvalue⟩ := h e he
    simp only [headerText, List.mem_append, hkey, hvalue, false_or, or_false] at hnul
    exact absurd hnul (by decide)
  · exact absurd hcrlf (by decide)

theorem length_requestLineText {t : RequestText} (hhost : t.host ≠ []) {buf rest : List Char}
    (hbuf : buf ++ [nul] = t.text ++ (crlf ++ rest)) :
    (requestLineText t.fields).length ≤ buf.length := by
  have hsum := congrArg List.length hbuf
  have hpos := List.length_pos_of_ne_nil hhost
  simp only [RequestText.text, lineText, RequestText.addr, RequestText.uri, RequestText.hostText,
    List.length_append, List.length_cons, List.length_nil, crlf] at hsum
  simp only [requestLineText, RequestText.fields, List.length_append, List.length_cons,
    List.length_drop, List.length_nil, crlf]
  have hget : "GET".toList.length = 3 := rfl
  have hget' : "GET ".toList.length = 4 := rfl
  have hspace : " ".toList.length = 1 := rfl
  omega

theorem nul_notMem_requestLineText {t : RequestText} (hn : nul ∉ t.text) :
    nul ∉ requestLineText t.fields := by
  have hpart : ∀ {u : CString}, u <:+: t.text → nul ∉ u := fun hu hc => hn (hu.subset hc)
  have hpath := hpart (RequestText.drop_isInfix t.pathTail_isInfix)
  have hversion := hpart t.version_isInfix
  simp only [requestLineText, RequestText.fields, List.mem_append, List.mem_cons, not_or]
  exact ⟨by decide, ⟨by decide, hpath⟩, by decide, hversion, by decide⟩

/-- A request that has been accepted can be sent. -/
theorem sendable_of_parse {buf : List Char} {errnoEinval : Bool} {pr : ParsedRequest}
    (h : parse create buf errnoEinval = .ok pr) : ∃ line, Sendable buf pr line := by
  obtain ⟨u, rest, line, hbuf, hn, _, hline, hheaders⟩ := parse_ok h
  obtain ⟨t, haccepted, rfl, rfl⟩ := parseRequestLine_ok hn hline
  obtain ⟨hnodup, hsize⟩ := parse_printedSize h
  have hlength := length_of_parse h
  have hrequest : pr.requestLine = some t.fields := parseHeaders_requestLine _ hheaders
  have hread := readable_of_parse h
  have hhostNul : nul ∉ t.fields.host := fun hc => hn (t.host_isInfix.subset hc)
  have hhostLength : t.fields.host.length ≤ 65535 := by
    have htext := congrArg List.length hbuf
    have hle := t.host_isInfix.length_le
    simp only [List.length_append, List.length_cons, List.length_nil, crlf] at htext
    show t.host.length ≤ 65535
    omega
  have hkept := keeps_withRequestHeaders hread hnodup hhostNul
  have hrequest' := hkept.requestLine.trans hrequest
  refine ⟨t.fields, hrequest, hrequest', nul_notMem_requestLineText hn,
    nul_notMem_headers hkept.readable, length_requestLineText haccepted.shape.host.1 hbuf, ?_⟩
  have hbytes : PrintedSizes.headerBytes (withRequestHeaders pr t.fields) < 2 ^ 31 := by
    rw [PrintedSizes.headerBytes, List.length_append]
    have hsize' := hkept.size
    have hcrlf : crlf.length = 2 := rfl
    rw [printedSize] at hsize'
    omega
  rw [PrintedSizes.headersLen_eq_headerBytes hrequest', toInt_of_lt hbytes,
    sizeT_of_lt (by omega)]
  rfl

section Sending

variable {g text : List Char} {pr : ParsedRequest} {line : RequestLine}

theorem overwrite_printed {s src : CString} :
    overwrite (printed g s) s.length src =
      if src = [] then printed g s else s ++ (src ++ g.drop (s.length + src.length)) := by
  have htake : (printed g s).take s.length = s := List.take_left
  rw [overwrite, htake, printed, List.drop_append, List.drop_eq_nil_of_le (by omega),
    List.nil_append, Nat.add_sub_cancel_left, List.append_assoc]
  cases src with
  | nil =>
    rw [if_pos rfl]
    rfl
  | cons c src =>
    rw [if_neg (List.cons_ne_nil c src), List.length_cons, List.drop_succ_cons, List.drop_drop,
      Nat.add_right_comm, Nat.add_assoc]

theorem requestHeadersText_ne_nil : requestHeadersText pr line ≠ [] := by
  intro h
  have hlength := congrArg List.length h
  rw [requestHeadersText, List.length_append] at hlength
  have hcrlf : crlf.length = 2 := rfl
  rw [List.length_nil] at hlength
  omega

/-- What is sent: all of the text and what the buffer held behind it, up to a NUL, or
the request line. -/
theorem sendRequest_eq (h : Sendable text pr line) (htext : text.length < maxBytes)
    (hg : g.length = maxBytes) :
    sendRequest g pr = if (requestText pr line).length ≤ maxBytes
      then (cstring (g.drop (requestText pr line).length)).map (requestText pr line ++ ·)
      else some (requestLineText line) := by
  have hlength := h.length_line
  have hlineLength : (requestLineText line).length < g.length := by omega
  have hcopy := copyRequestLine_eq h.nulLine hlineLength
  have hread : cstring (printed g (requestLineText line)) = some (requestLineText line) :=
    cstring_append h.nulLine _
  have hsum : (requestText pr line).length =
      (requestLineText line).length + (requestHeadersText pr line).length := List.length_append
  have hroom : sizeT ((maxBytes : ℤ) - (requestLineText line).length) =
      maxBytes - (requestLineText line).length := by
    have hmax : maxBytes = 4096 := rfl
    unfold sizeT
    omega
  have hfits : (requestHeadersText pr line).length ≤ maxBytes - (requestLineText line).length ↔
      (requestText pr line).length ≤ maxBytes := by
    omega
  have hheaders : unparseHeaders (withRequestHeaders pr line)
      (maxBytes - (requestLineText line).length) =
        if (requestText pr line).length ≤ maxBytes then some (requestHeadersText pr line)
        else none := by
    rw [PrintedSizes.unparseHeaders_eq (h.keptLine), PrintedSizes.printHeaders_eq, h.headersLen,
      flatMap_printHeader, if_congr hfits rfl rfl]
    rfl
  rw [sendRequest, h.requestLine]
  simp only [Option.bind_eq_bind, Option.bind_some, hcopy, hread, hroom, hheaders]
  by_cases hle : (requestText pr line).length ≤ maxBytes
  · rw [if_pos hle, if_pos hle]
    dsimp only
    rw [overwrite_printed, if_neg requestHeadersText_ne_nil, ← hsum, ← List.append_assoc]
    exact cstring_append_left h.nulText _
  · rw [if_neg hle, if_neg hle]

theorem cstring_eq_nil_iff {p : List Char} : cstring p = some [] ↔ p.head? = some nul := by
  unfold cstring
  cases p with
  | nil => simp
  | cons c p =>
    by_cases hc : c = nul
    · subst hc
      simp
    · have hkept : (c != nul) = true := bne_iff_ne.mpr hc
      simp [hkept, hc]

end Sending

end ProxyServer.V1
