import ProxyServer.ForwardedHeaders
import ProxyServer.UpstreamText

/-!
The request that the C proxies mean to send beside the one that the C++ server sends.
The C code sets `Connection` and adds a host only where the client named none; the
C++ code replaces the client's host and then sets `Connection`. So the headers are the
same, in some order, unless the client named another host, and the texts are the same
only where the client's host stands behind all its other headers.
-/
namespace ProxyServer.V1

open CStrings ParsedHeader OrderedTable ParsedRequest ProxyUtils

def requestTable (line : RequestLine) (t : List (CString × CString)) : List (CString × CString) :=
  let t := OrderedTable.set t "Connection".toList "close".toList
  if (keys t).contains "Host".toList then t else OrderedTable.set t "Host".toList line.host

theorem live_withRequestHeaders {pr : ParsedRequest} (hnodup : (keys pr.live).Nodup)
    (line : RequestLine) : (withRequestHeaders pr line).live = requestTable line pr.live := by
  have hlive := live_set hnodup "Connection".toList "close".toList
  have hnodup' := nodup_set hnodup "Connection".toList "close".toList
  unfold withRequestHeaders requestTable
  dsimp only
  rcases get_cases (ParsedHeader.set pr "Connection".toList "close".toList) "Host".toList with
    ⟨hget, hmem⟩ | ⟨i, value, hget, _, hmem⟩
  · rw [hlive] at hmem
    rw [hget, if_neg (mt List.contains_iff_mem.mp hmem), live_set (by rwa [hlive]), hlive]
  · rw [hlive] at hmem
    rw [hget, if_pos (List.contains_iff_mem.mpr (mem_keys_of_mem hmem)), hlive]

section Tables

variable {t front behind : List (CString × CString)} {value : CString}

/-- The table without `Connection` has no host, or one in some place. -/
theorem host_cases (hnodup : (keys t).Nodup) :
    "Host".toList ∉ keys (erase t "Connection".toList) ∨
      ∃ front value behind, erase t "Connection".toList =
        front ++ ("Host".toList, value) :: behind ∧
          "Host".toList ∉ keys front ∧ "Host".toList ∉ keys behind := by
  by_cases hmem : "Host".toList ∈ keys (erase t "Connection".toList)
  · right
    obtain ⟨⟨key, value⟩, he, rfl⟩ := List.mem_map.mp hmem
    obtain ⟨front, behind, hsplit⟩ := List.append_of_mem he
    have hkeys := nodup_erase hnodup "Connection".toList
    rw [hsplit, keys_append, keys_cons, List.nodup_append] at hkeys
    obtain ⟨_, hrest, hapart⟩ := hkeys
    refine ⟨front, value, behind, hsplit, ?_, (List.nodup_cons.mp hrest).1⟩
    intro hfront
    exact hapart _ hfront _ List.mem_cons_self rfl
  · exact Or.inl hmem

theorem keys_set_connection :
    keys (OrderedTable.set t "Connection".toList "close".toList) =
      keys (erase t "Connection".toList) ++ ["Connection".toList] :=
  keys_append _ _

theorem host_notMem_connection : "Host".toList ∉ ["Connection".toList] := by decide

theorem erase_eq_self (h : "Host".toList ∉ keys t) : erase t "Host".toList = t := by
  apply List.filter_eq_self.mpr
  intro e he
  have hne : e.1 ≠ "Host".toList := by
    intro heq
    exact h (heq ▸ mem_keys_of_mem he)
  simpa using hne

theorem requestTable_of_notMem (line : RequestLine)
    (h : "Host".toList ∉ keys (erase t "Connection".toList)) :
    requestTable line t = erase t "Connection".toList ++
      [("Connection".toList, "close".toList), ("Host".toList, line.host)] := by
  have hnone : "Host".toList ∉
      keys (OrderedTable.set t "Connection".toList "close".toList) := by
    rw [keys_set_connection, List.mem_append, not_or]
    exact ⟨h, host_notMem_connection⟩
  have hkept := erase_eq_self hnone
  unfold requestTable
  dsimp only
  rw [if_neg (mt List.contains_iff_mem.mp hnone)]
  show erase _ "Host".toList ++ _ = _
  rw [hkept]
  show (erase t "Connection".toList ++ [_]) ++ [_] = _
  rw [List.append_assoc]
  rfl

theorem requestTable_of_mem (line : RequestLine)
    (h : erase t "Connection".toList = front ++ ("Host".toList, value) :: behind) :
    requestTable line t = front ++ (("Host".toList, value) ::
      (behind ++ [("Connection".toList, "close".toList)])) := by
  have hmem : "Host".toList ∈ keys (OrderedTable.set t "Connection".toList "close".toList) := by
    rw [keys_set_connection, h, keys_append, keys_cons]
    simp
  unfold requestTable
  dsimp only
  rw [if_pos (List.contains_iff_mem.mpr hmem)]
  show erase t "Connection".toList ++ [_] = _
  rw [h, List.append_assoc, List.cons_append]

theorem upstreamTable_eq (line : RequestLine) (t : List (CString × CString)) :
    upstreamTable line t = erase (erase t "Connection".toList) "Host".toList ++
      [("Host".toList, line.host), ("Connection".toList, "close".toList)] := by
  show erase (erase t "Host".toList ++ [_]) "Connection".toList ++ [_] = _
  have hcomm : erase (erase t "Host".toList) "Connection".toList =
      erase (erase t "Connection".toList) "Host".toList := by
    unfold erase
    rw [List.filter_filter, List.filter_filter]
    congr 1
    funext e
    exact Bool.and_comm _ _
  have hhost : erase [("Host".toList, line.host)] "Connection".toList =
      [("Host".toList, line.host)] := rfl
  rw [erase, List.filter_append, ← erase, ← erase, hcomm, hhost, List.append_assoc]
  rfl

theorem upstreamTable_of_notMem (line : RequestLine)
    (h : "Host".toList ∉ keys (erase t "Connection".toList)) :
    upstreamTable line t = erase t "Connection".toList ++
      [("Host".toList, line.host), ("Connection".toList, "close".toList)] := by
  rw [upstreamTable_eq, erase_eq_self h]

theorem upstreamTable_of_mem (line : RequestLine)
    (h : erase t "Connection".toList = front ++ ("Host".toList, value) :: behind)
    (hfront : "Host".toList ∉ keys front) (hbehind : "Host".toList ∉ keys behind) :
    upstreamTable line t = front ++ (behind ++
      [("Host".toList, line.host), ("Connection".toList, "close".toList)]) := by
  have hdropped : erase (front ++ ("Host".toList, value) :: behind) "Host".toList =
      front ++ behind := by
    rw [erase, List.filter_append, List.filter_cons_of_neg (by simp), ← erase, ← erase,
      erase_eq_self hfront, erase_eq_self hbehind]
  rw [upstreamTable_eq, h, hdropped, List.append_assoc]

/-- Where two texts are the same, their first keys are, and what stands behind them. -/
theorem headerText_inj {e e' : CString × CString} (he : ':' ∉ e.1) (he' : ':' ∉ e'.1)
    {rest rest' : CString} (h : headerText e ++ rest = headerText e' ++ rest') :
    e.1 = e'.1 ∧ e.2 ++ (crlf ++ rest) = e'.2 ++ (crlf ++ rest') := by
  rw [headerText_append, headerText_append] at h
  have hread := congrArg ForwardedHeaders.headerOf h
  rw [ForwardedHeaders.headerOf_append he, ForwardedHeaders.headerOf_append he'] at hread
  exact Prod.mk.inj hread

/-- The texts differ unless the host is the same and the last but for `Connection`. -/
theorem headers_eq_iff (hnodup : (keys t).Nodup) (hcolon : ∀ e ∈ t, ':' ∉ e.1)
    (line : RequestLine) :
    (requestTable line t).flatMap headerText = (upstreamTable line t).flatMap headerText ↔
      ∃ front, erase t "Connection".toList = front ++ [("Host".toList, line.host)] := by
  rcases host_cases hnodup with hnone | ⟨front, value, behind, hsplit, hfront, hbehind⟩
  · rw [requestTable_of_notMem line hnone, upstreamTable_of_notMem line hnone]
    constructor
    · intro h
      rw [List.flatMap_append, List.flatMap_append, List.append_cancel_left_eq,
        List.flatMap_cons, List.flatMap_cons] at h
      have hkey := (headerText_inj (by simp) (by simp) h).1
      exact absurd hkey (by simp)
    · rintro ⟨front, hlast⟩
      rw [hlast, keys_append] at hnone
      exact absurd (List.mem_append_right _ List.mem_cons_self) hnone
  · rw [requestTable_of_mem line hsplit, upstreamTable_of_mem line hsplit hfront hbehind,
      List.flatMap_append, List.flatMap_append, List.append_cancel_left_eq, hsplit]
    cases behind with
    | nil =>
      constructor
      · intro h
        rw [List.nil_append, List.nil_append, List.flatMap_cons, List.flatMap_cons] at h
        have hvalue : value = line.host :=
          List.append_cancel_right (headerText_inj (by simp) (by simp) h).2
        exact ⟨front, by rw [hvalue]⟩
      · rintro ⟨front', hlast⟩
        have hhost := (List.append_inj' hlast rfl).2
        obtain rfl : value = line.host := by simpa using hhost
        rfl
    | cons e behind =>
      have hapart : e.1 ≠ "Host".toList := by
        intro heq
        exact hbehind (heq ▸ List.mem_cons_self)
      constructor
      · intro h
        have hmem : e ∈ t := by
          have herase : e ∈ erase t "Connection".toList := by
            rw [hsplit]
            simp
          exact (List.mem_filter.mp herase).1
        rw [List.cons_append, List.cons_append, List.flatMap_cons, List.flatMap_cons] at h
        exact absurd (headerText_inj (by simp) (hcolon e hmem) h).1.symm hapart
      · rintro ⟨front', hlast⟩
        have hgetLast := congrArg List.getLast? hlast
        rw [List.getLast?_append_cons, List.getLast?_cons_cons, List.getLast?_concat] at hgetLast
        have hmem := List.mem_of_getLast? hgetLast
        exact absurd (mem_keys_of_mem hmem) hbehind

/-- The headers are the same, in some order, unless the client named another host. -/
theorem perm_iff (hnodup : (keys t).Nodup) (line : RequestLine) :
    (requestTable line t).Perm (upstreamTable line t) ↔
      ∀ value, ("Host".toList, value) ∈ t → value = line.host := by
  have herase : ∀ value : CString, ("Host".toList, value) ∈ t ↔
      ("Host".toList, value) ∈ erase t "Connection".toList := by
    intro value
    rw [erase, List.mem_filter]
    simp
  rcases host_cases hnodup with hnone | ⟨front, value, behind, hsplit, hfront, hbehind⟩
  · rw [requestTable_of_notMem line hnone, upstreamTable_of_notMem line hnone]
    constructor
    · intro _ value hmem
      exact absurd (mem_keys_of_mem ((herase value).mp hmem)) hnone
    · intro _
      exact (List.Perm.swap _ _ []).append_left _
  · rw [requestTable_of_mem line hsplit, upstreamTable_of_mem line hsplit hfront hbehind,
      List.perm_append_left_iff]
    constructor
    · intro hperm value' hmem
      have hvalue' : ("Host".toList, value') = ("Host".toList, value) := by
        have hplace := (herase value').mp hmem
        rw [hsplit, List.mem_append, List.mem_cons] at hplace
        rcases hplace with hplace | hplace | hplace
        · exact absurd (mem_keys_of_mem hplace) hfront
        · exact hplace
        · exact absurd (mem_keys_of_mem hplace) hbehind
      have hsent := hperm.subset List.mem_cons_self
      rw [← hvalue', List.mem_append] at hsent
      rcases hsent with hsent | hsent
      · exact absurd (mem_keys_of_mem hsent) hbehind
      · simpa using hsent
    · intro hhost
      have hvalue := hhost value ((herase value).mpr (by rw [hsplit]; simp))
      rw [hvalue]
      exact List.perm_middle.symm

end Tables

theorem requestText_eq {pr : ParsedRequest} {line : RequestLine} (hnodup : (keys pr.live).Nodup)
    (hmethod : line.method = "GET".toList) :
    requestText pr line = upstreamText line (requestTable line pr.live) := by
  have hget : "GET ".toList = "GET".toList ++ " ".toList := rfl
  rw [requestText, requestHeadersText, live_withRequestHeaders hnodup, upstreamText, hmethod,
    requestLineText, hget]
  simp only [List.append_assoc]

/-- For an accepted request, the C proxy with a zeroed buffer sends what the C++ server
sends only where it fits and the host is the URI's and the last but for `Connection`. -/
theorem same_upstream_iff {text : List Char} {errnoEinval : Bool} {pr : ParsedRequest}
    (h : parse create text errnoEinval = .ok pr) (htext : text.length < maxBytes) :
    ∃ line req sent, pr.requestLine = some line ∧
      convertRequestToString pr = some (req, sent) ∧
      (sendRequest (List.replicate maxBytes nul) pr = some sent ↔
        (requestText pr line).length < maxBytes ∧
          ∃ front, erase pr.live "Connection".toList = front ++ [("Host".toList, line.host)]) ∧
      ((withRequestHeaders pr line).live.Perm (withUpstreamHeaders pr line).live ↔
        ∀ value, ("Host".toList, value) ∈ pr.live → value = line.host) := by
  obtain ⟨t, _, hline, _⟩ := parse_fields h
  obtain ⟨line, req, hline', hconvert⟩ := convert_of_parse h
  obtain ⟨line'', hsend⟩ := sendable_of_parse h
  obtain rfl : line = t.fields := Option.some.inj (hline'.symm.trans hline)
  obtain rfl : t.fields = line'' := Option.some.inj (hline.symm.trans hsend.requestLine)
  obtain ⟨hnodup, _⟩ := parse_printedSize h
  have hcolon : ∀ e ∈ pr.live, ':' ∉ e.1 := fun e he => (readable_of_parse h e he).2.1
  have hequal : requestText pr t.fields = upstreamText t.fields (upstreamTable t.fields pr.live) ↔
      ∃ front, erase pr.live "Connection".toList =
        front ++ [("Host".toList, t.fields.host)] := by
    rw [← headers_eq_iff hnodup hcolon, requestText_eq hnodup rfl, upstreamText, upstreamText,
      List.append_cancel_left_eq, List.append_cancel_right_eq]
  have hlength : (requestLineText t.fields).length ≠
      (upstreamText t.fields (upstreamTable t.fields pr.live)).length := by
    simp only [requestLineText, upstreamText, RequestText.fields, List.length_append]
    have hget : "GET".toList.length = 3 := rfl
    have hget' : "GET ".toList.length = 4 := rfl
    have hspace : " ".toList.length = 1 := rfl
    have hcrlf : crlf.length = 2 := rfl
    omega
  have hzeroed : (List.replicate maxBytes nul).length = maxBytes := List.length_replicate
  refine ⟨t.fields, req, _, hline, hconvert, ?_, ?_⟩
  · rw [sendRequest_eq hsend htext hzeroed, ← hequal]
    rcases Nat.lt_trichotomy (requestText pr t.fields).length maxBytes with hlt | heq | hgt
    · have hbehind : cstring ((List.replicate maxBytes nul).drop
          (requestText pr t.fields).length) = some [] := by
        rw [cstring_eq_nil_iff, List.head?_drop, List.getElem?_replicate, if_pos hlt]
      rw [if_pos hlt.le, hbehind]
      simp [hlt]
    · rw [if_pos heq.le, heq, List.drop_eq_nil_of_le hzeroed.le]
      simp [cstring]
    · rw [if_neg (by omega)]
      constructor
      · intro hsame
        exact absurd (congrArg List.length (Option.some.inj hsame)) hlength
      · intro hshort
        omega
  · rw [live_withRequestHeaders hnodup, live_withUpstreamHeaders hnodup]
    exact perm_iff hnodup t.fields

/-- A client that names the host of the URI, last. -/
theorem same_upstream_iff_host : ∃ pr line req sent,
    parse create "GET http://h/ HTTP/1.0\r\nA: 1\r\nHost: h\r\n\r\n".toList false = .ok pr ∧
      pr.requestLine = some line ∧ convertRequestToString pr = some (req, sent) ∧
      (sendRequest (List.replicate maxBytes nul) pr = some sent ↔
        (requestText pr line).length < maxBytes ∧
          ∃ front, erase pr.live "Connection".toList = front ++ [("Host".toList, line.host)]) ∧
      ((withRequestHeaders pr line).live.Perm (withUpstreamHeaders pr line).live ↔
        ∀ value, ("Host".toList, value) ∈ pr.live → value = line.host) := by
  have hparse : parse create "GET http://h/ HTTP/1.0\r\nA: 1\r\nHost: h\r\n\r\n".toList
      false = .ok ⟨some ⟨"GET".toList, "http".toList, "h".toList, none, "/".toList,
        "HTTP/1.0".toList⟩,
        [⟨some "A".toList, "1".toList⟩, ⟨some "Host".toList, "h".toList⟩], 8⟩ := by decide
  obtain ⟨line, req, sent, hsame⟩ := same_upstream_iff hparse (by decide)
  exact ⟨_, line, req, sent, hparse, hsame⟩

end ProxyServer.V1
