import ProxyServer.HeaderTable
import ProxyServer.RequestSize
import ProxyServer.RoundTrip

/-!
The sizes computed for a request against the bytes that are printed, after any
calls on an accepted request. The request line is summed in `size_t`, but the
headers and the text for the origin in `int`, so the sizes are right when both, with
the NUL of the text, stay below 2 GiB. A header table whose size comes near the end of
`size_t` would also be counted right, by two conversions that cancel out.
-/
namespace ProxyServer

open CStrings ParsedHeader OrderedTable ParsedRequest ProxyUtils

namespace PrintedSizes

/-- What the live headers and the blank line print. -/
def headerBytes (pr : ParsedRequest) : ℕ := (pr.live.flatMap headerText ++ crlf).length

/-- What is written to the front of the buffer, also when the call fails. -/
def unparseWrites (pr : ParsedRequest) (buflen : ℕ) : CString :=
  match printRequestLine pr buflen with
  | none => []
  | some line => line ++ (printHeaders pr (sizeT (buflen - line.length))).getD []

/-- `requestSize` in `convertRequestToString`. -/
def requestSize (line : RequestLine) (req : ParsedRequest) : ℤ :=
  toInt (line.method.length + line.path.length + line.version.length +
    toInt (headersLen req) + 4)

/-- The sizes are those of what is printed, the last one with its NUL. -/
structure SizesAgree (pr : ParsedRequest) : Prop where
  unparse : ∀ buflen, buflen < 2 ^ 64 →
    ((∃ out, unparse pr buflen = some out) ↔ totalLen pr ≤ buflen) ∧
      ∀ out, unparse pr buflen = some out → out.length = totalLen pr
  written : ∀ buflen, buflen < 2 ^ 64 → (unparseWrites pr buflen).length ≤ buflen
  headers : ∀ buflen, buflen < 2 ^ 64 →
    ((∃ out, unparseHeaders pr buflen = some out) ↔ headersLen pr ≤ buflen) ∧
      ∀ out, unparseHeaders pr buflen = some out → out.length = headersLen pr
  upstream : ∃ line req, pr.requestLine = some line ∧
    convertRequestToString pr = some (req, upstreamText line req.live) ∧
      intSucc (requestSize line req) = some ((upstreamText line req.live).length + 1 : ℤ)

/-- The counts stay within `int`, or wrap round to themselves. -/
structure WithinInt (pr : ParsedRequest) : Prop where
  headers : headerBytes pr < 2 ^ 31 ∨
    2 ^ 64 - 2 ^ 31 ≤ headerBytes pr ∧ requestLineLen pr + headerBytes pr < 2 ^ 64
  upstream : ∀ line, pr.requestLine = some line →
    (upstreamText line (upstreamTable line pr.live)).length < 2 ^ 31 - 1

theorem sizeT_toInt_eq_iff {n : ℕ} :
    sizeT (toInt n) = n ↔ n < 2 ^ 31 ∨ 2 ^ 64 - 2 ^ 31 ≤ n ∧ n < 2 ^ 64 := by
  unfold sizeT toInt
  rw [Int.bmod_def]
  split <;> omega

section Fields

variable {pr : ParsedRequest} {line : RequestLine}

theorem length_headers (pr : ParsedRequest) :
    (pr.headers.flatMap printHeader ++ crlf).length = headerBytes pr := by
  rw [flatMap_printHeader]
  rfl

theorem headersLen_eq_headerBytes (hline : pr.requestLine = some line) :
    headersLen pr = sizeT (toInt (headerBytes pr : ℤ)) := by
  rw [headersLen_eq_sizeT (by rw [hline]; rfl), length_headers]

theorem headersLen_lt (hline : pr.requestLine = some line) : headersLen pr < 2 ^ 64 := by
  rw [headersLen_eq_headerBytes hline]
  unfold sizeT
  omega

theorem printHeaders_eq (len : ℕ) : printHeaders pr len =
    if headersLen pr ≤ len then some (pr.headers.flatMap printHeader ++ crlf) else none := by
  rw [printHeaders]
  by_cases hle : headersLen pr ≤ len
  · rw [if_neg (not_lt.mpr hle), if_pos hle]
  · rw [if_pos (not_le.mp hle), if_neg hle]

theorem unparseHeaders_eq (hline : pr.requestLine = some line) (len : ℕ) :
    unparseHeaders pr len = printHeaders pr len := by
  rw [unparseHeaders, hline]
  rfl

/-- Unparsing succeeds when the line and the headers, as counted, fit. -/
theorem unparse_eq (hline : pr.requestLine = some line) {buflen : ℕ} (hlt : buflen < 2 ^ 64) :
    unparse pr buflen = if requestLineLen pr + headersLen pr ≤ buflen then
      some (printLine line ++ (pr.headers.flatMap printHeader ++ crlf)) else none := by
  have hlen : requestLineLen pr = (printLine line).length := by
    rw [length_printLine, requestLineLen, hline]
  rw [unparse, printRequestLine, hline]
  simp only [Option.isNone_some, Bool.false_eq_true, if_false, Option.map_some]
  by_cases hfits : requestLineLen pr ≤ buflen
  · have hrest : sizeT ((buflen : ℤ) - (printLine line).length) =
        buflen - (printLine line).length := by
      unfold sizeT
      omega
    rw [if_neg (not_lt.mpr hfits), Option.bind_some, hrest, printHeaders_eq]
    by_cases hheaders : headersLen pr ≤ buflen - (printLine line).length
    · rw [if_pos hheaders, if_pos (by omega)]
      rfl
    · rw [if_neg hheaders, if_neg (by omega)]
      rfl
  · rw [if_pos (not_le.mp hfits), if_neg (by omega)]
    rfl

/-- A call that succeeds has written what it returns. -/
theorem unparseWrites_of_unparse {buflen : ℕ} {out : CString}
    (h : unparse pr buflen = some out) : unparseWrites pr buflen = out := by
  rw [unparse] at h
  split at h
  · contradiction
  · obtain ⟨text, htext, h⟩ := Option.bind_eq_some_iff.mp h
    obtain ⟨headers, hheaders, rfl⟩ := Option.map_eq_some_iff.mp h
    rw [unparseWrites, htext]
    dsimp only
    rw [hheaders]
    rfl

theorem totalLen_eq (hline : pr.requestLine = some line) :
    totalLen pr = (requestLineLen pr + headersLen pr) % 2 ^ 64 := by
  rw [totalLen, hline]
  simp only [Option.isNone_some, Bool.false_eq_true, if_false]
  unfold sizeT
  omega

theorem convert_req {req : ParsedRequest} {text : CString} (hline : pr.requestLine = some line)
    (h : convertRequestToString pr = some (req, text)) : req = withUpstreamHeaders pr line := by
  rw [convertRequestToString, hline, Option.bind_some] at h
  obtain ⟨_, _, heq⟩ := Option.map_eq_some_iff.mp h
  exact (congrArg Prod.fst heq).symm

end Fields

section Accepted

variable {pr : ParsedRequest} {line : RequestLine}

theorem requestSize_eq {req : ParsedRequest} (hline : req.requestLine = some line)
    (hlt : (upstreamText line req.live).length < 2 ^ 31) :
    requestSize line req = (upstreamText line req.live).length := by
  have hcrlf : crlf.length = 2 := rfl
  have hspace : " ".toList.length = 1 := rfl
  have hsum : (upstreamText line req.live).length =
      line.method.length + line.path.length + line.version.length + headerBytes req + 4 := by
    simp only [upstreamText, headerBytes, List.length_append, hcrlf, hspace]
    omega
  rw [hsum] at hlt ⊢
  have hheaders : headersLen req = headerBytes req := by
    rw [headersLen_eq_headerBytes hline]
    exact sizeT_toInt_eq_iff.mpr (Or.inl (by omega))
  have hcast : (line.method.length + line.path.length + line.version.length +
      headerBytes req + 4 : ℤ) = ((line.method.length + line.path.length +
      line.version.length + headerBytes req + 4 : ℕ) : ℤ) := by simp
  rw [requestSize, hheaders, toInt_of_lt (by omega), hcast, toInt_of_lt hlt]

/-- A buffer of the counted size is filled when the sizes agree. -/
theorem headersLen_of_sizesAgree (hline : pr.requestLine = some line) (h : SizesAgree pr) :
    headersLen pr = headerBytes pr := by
  obtain ⟨hfits, hlength⟩ := h.headers (headersLen pr) (headersLen_lt hline)
  obtain ⟨out, hout⟩ := hfits.mpr (le_refl _)
  rw [← hlength out hout]
  rw [unparseHeaders_eq hline, printHeaders_eq, if_pos (le_refl _)] at hout
  rw [← Option.some.inj hout, length_headers]

theorem fits_of_eq_ite {written : Option CString} {out : CString} {size buflen : ℕ}
    (hlength : out.length = size) (h : written = if size ≤ buflen then some out else none) :
    ((∃ text, written = some text) ↔ size ≤ buflen) ∧
      ∀ text, written = some text → text.length = size := by
  rw [h]
  by_cases hfits : size ≤ buflen
  · rw [if_pos hfits]
    refine ⟨iff_of_true ⟨out, rfl⟩ hfits, ?_⟩
    intro text htext
    rw [← Option.some.inj htext, hlength]
  · rw [if_neg hfits]
    refine ⟨iff_of_false ?_ hfits, ?_⟩
    · rintro ⟨text, htext⟩
      contradiction
    · intro text htext
      contradiction

/-- What is written fits the buffer, whether or not the call succeeds. -/
theorem length_unparseWrites_le (hline : pr.requestLine = some line)
    (hexact : headersLen pr = headerBytes pr) {buflen : ℕ} (hlt : buflen < 2 ^ 64) :
    (unparseWrites pr buflen).length ≤ buflen := by
  have hlen : (printLine line).length = requestLineLen pr := by
    rw [length_printLine, requestLineLen, hline]
  rw [unparseWrites, printRequestLine, hline]
  by_cases hfits : requestLineLen pr ≤ buflen
  · have hrest : sizeT ((buflen : ℤ) - (printLine line).length) =
        buflen - (printLine line).length := by
      unfold sizeT
      omega
    rw [if_neg (not_lt.mpr hfits), Option.map_some]
    dsimp only
    rw [hrest, printHeaders_eq]
    by_cases hheaders : headersLen pr ≤ buflen - (printLine line).length
    · rw [if_pos hheaders, Option.getD_some, List.length_append, length_headers]
      omega
    · rw [if_neg hheaders, Option.getD_none, List.append_nil]
      omega
  · rw [if_pos (not_le.mp hfits)]
    exact Nat.zero_le buflen

/-- When the sizes agree, the total has not wrapped round. -/
theorem total_of_sizesAgree (hline : pr.requestLine = some line) (h : SizesAgree pr) :
    requestLineLen pr + headersLen pr < 2 ^ 64 := by
  have htotal := totalLen_eq hline
  obtain ⟨hfits, _⟩ := h.unparse (totalLen pr) (by omega)
  obtain ⟨out, hout⟩ := hfits.mpr (le_refl _)
  rw [unparse_eq hline (by omega)] at hout
  split at hout
  · omega
  · contradiction

theorem upstream_of_sizesAgree (hline : pr.requestLine = some line)
    (hnodup : (keys pr.live).Nodup) (h : SizesAgree pr) :
    (upstreamText line (upstreamTable line pr.live)).length < 2 ^ 31 - 1 := by
  obtain ⟨line', req, hline', hconvert, hsize⟩ := h.upstream
  rw [hline] at hline'
  cases hline'
  obtain rfl := convert_req hline hconvert
  rw [← live_withUpstreamHeaders hnodup line]
  rw [intSucc] at hsize
  split at hsize
  · rw [Option.some.injEq] at hsize
    omega
  · contradiction

/-- The sizes agree for a request with distinct keys and a short request line
exactly when they stay within `int`. -/
theorem sizesAgree_iff_withinInt (hline : pr.requestLine = some line)
    (hnodup : (keys pr.live).Nodup) (hshort : requestLineLen pr < 2 ^ 31) :
    SizesAgree pr ↔ WithinInt pr := by
  have hheadersLen := headersLen_eq_headerBytes hline
  constructor
  · intro h
    have hexact := headersLen_of_sizesAgree hline h
    have hcases := sizeT_toInt_eq_iff.mp (hheadersLen.symm.trans hexact)
    have htotal := total_of_sizesAgree hline h
    refine ⟨by omega, ?_⟩
    intro line' hline'
    exact upstream_of_sizesAgree hline' hnodup h
  · intro h
    have hcases := h.headers
    have hexact : headersLen pr = headerBytes pr := by
      rw [hheadersLen]
      exact sizeT_toInt_eq_iff.mpr (by omega)
    have htotal : totalLen pr = requestLineLen pr + headersLen pr := by
      rw [totalLen_eq hline]
      omega
    refine ⟨?_, fun buflen hlt => length_unparseWrites_le hline hexact hlt, ?_, ?_⟩
    · intro buflen hlt
      have hwritten := unparse_eq hline hlt
      rw [← htotal] at hwritten
      refine fits_of_eq_ite ?_ hwritten
      rw [List.length_append, length_headers, length_printLine, htotal, hexact, requestLineLen,
        hline]
    · intro buflen _
      have hwritten := (unparseHeaders_eq hline buflen).trans (printHeaders_eq buflen)
      exact fits_of_eq_ite (by rw [length_headers, hexact]) hwritten
    · have hupstream := h.upstream line hline
      obtain ⟨req, hconvert, hrequest, hlive⟩ :=
        convertRequestToString_spec hline hnodup hupstream
      rw [← hlive] at hconvert hupstream
      refine ⟨line, req, hline, hconvert, ?_⟩
      rw [requestSize_eq hrequest (by omega)]
      exact intSucc_of_lt (by omega)

end Accepted

theorem callAll_requestLine (ops : List (Op CString CString)) :
    ∀ pr : ParsedRequest, (callAll pr ops).requestLine = pr.requestLine := by
  induction ops with
  | nil => exact fun _ => rfl
  | cons op ops ih =>
    intro pr
    rw [callAll, List.foldl_cons]
    refine (ih (call pr op)).trans ?_
    cases op with
    | set key value => exact set_requestLine pr key value
    | remove key => exact remove_requestLine pr key

/-- After any sets and removals on an accepted request the sizes agree exactly
when they stay within `int`. -/
theorem sizes_agree_iff {buf : List Char} {errnoEinval : Bool} {pr : ParsedRequest}
    (hparse : parse create buf errnoEinval = .ok pr) (ops : List (Op CString CString)) :
    SizesAgree (callAll pr ops) ↔ WithinInt (callAll pr ops) := by
  obtain ⟨t, _, hline, hlen⟩ := parse_fields hparse
  obtain ⟨hnodup, _⟩ := parse_printedSize hparse
  have hline' : (callAll pr ops).requestLine = some t.fields := by
    rw [callAll_requestLine, hline]
  have hshort : requestLineLen (callAll pr ops) < 2 ^ 31 := by
    have hprint := length_printLine_fields hlen
    rw [length_printLine] at hprint
    rw [requestLineLen, hline']
    exact lt_of_le_of_lt hprint (by decide)
  exact sizesAgree_iff_withinInt hline' (live_callAll ops hnodup).2 hshort

theorem sizes_agree_iff_short : ∃ pr, parse create "GET http://h/ HTTP/1.0\r\n\r\n".toList
    false = .ok pr ∧ SizesAgree (callAll pr [.set "A".toList "b".toList]) := by
  obtain ⟨pr, hpr⟩ : ∃ pr : ParsedRequest, pr =
      ⟨some ⟨"GET".toList, "http".toList, "h".toList, none, "/".toList, "HTTP/1.0".toList⟩,
        [], 8⟩ := ⟨_, rfl⟩
  have hparse : parse create "GET http://h/ HTTP/1.0\r\n\r\n".toList false = .ok pr := by
    rw [hpr]
    decide
  refine ⟨pr, hparse, (sizes_agree_iff hparse _).mpr ?_⟩
  rw [hpr]
  refine ⟨Or.inl (by decide), ?_⟩
  intro line hline
  cases hline
  decide

/-- A header of 2 GiB makes the counted size negative. -/
theorem headersLen_wraps : ∃ pr ops,
    parse create "GET http://h/ HTTP/1.0\r\n\r\n".toList false = .ok pr ∧
      ¬ SizesAgree (callAll pr ops) := by
  obtain ⟨value, hvalue⟩ : ∃ value : CString, value.length = 2 ^ 31 :=
    ⟨List.replicate (2 ^ 31) 'a', List.length_replicate⟩
  refine ⟨⟨some ⟨"GET".toList, "http".toList, "h".toList, none, "/".toList, "HTTP/1.0".toList⟩,
    [], 8⟩, [.set "A".toList value], by decide, ?_⟩
  intro h
  obtain ⟨pr, hpr⟩ : ∃ pr : ParsedRequest, pr =
      ⟨some ⟨"GET".toList, "http".toList, "h".toList, none, "/".toList, "HTTP/1.0".toList⟩,
        [⟨some "A".toList, value⟩], 8⟩ := ⟨_, rfl⟩
  have hcall : callAll ⟨some ⟨"GET".toList, "http".toList, "h".toList, none, "/".toList,
      "HTTP/1.0".toList⟩, [], 8⟩ [.set "A".toList value] = pr := hpr.symm
  rw [hcall] at h
  have hline : pr.requestLine = some ⟨"GET".toList, "http".toList, "h".toList, none, "/".toList,
      "HTTP/1.0".toList⟩ := by rw [hpr]
  have hbytes : headerBytes pr = 2 ^ 31 + 7 := by
    have hlive : pr.live = [("A".toList, value)] := by rw [hpr]; rfl
    rw [headerBytes, hlive, ← hvalue]
    simp [headerText, crlf]
  have hexact := (headersLen_eq_headerBytes hline).symm.trans (headersLen_of_sizesAgree hline h)
  rw [hbytes] at hexact
  contradiction

end PrintedSizes

end ProxyServer
