import ProxyServer.ParsedRequest
import ProxyServer.CacheStrategy

/-!
What the workers do with requests and sockets. `convertRequestToString` sets two
headers in the parsed object and prints it into buffers whose sizes are `int`s.
`writeToSocket` sends a buffer in as many pieces as the kernel makes of it, and
`writeToClient` passes a response on piece by piece while it collects it for the
cache. A call that does not return ends the process, or is undefined.
-/
namespace ProxyServer

open CStrings

/-- The ways in which a worker does not return. -/
inductive Fatal
  | undefined
  | exited (status : ℤ)
  | brokenPipe
  deriving DecidableEq, Repr

/-- What `recv` answers; no bytes once the peer has closed. -/
inductive RecvResult
  | error
  | data (bytes : List Char)
  deriving DecidableEq, Repr

/-- What `send` answers: that it took some of the bytes offered, never none. On
a broken pipe the process gets a signal that nothing handles. -/
inductive SendResult
  | error
  | brokenPipe
  | sent (extra : ℕ)
  deriving DecidableEq, Repr

/-- A socket that is written to: the calls of `send` made and the bytes taken. -/
structure Socket where
  calls : ℕ
  wire : List Char
  deriving DecidableEq, Repr

namespace ProxyUtils

/-- The object with the two headers set. -/
def withUpstreamHeaders (req : ParsedRequest) (line : RequestLine) : ParsedRequest :=
  ParsedHeader.set (ParsedHeader.set req "Host".toList line.host) "Connection".toList
    "close".toList

/-- The text printed for the origin; `none` where the size for `malloc` or `snprintf`
overflows or is negative, or a buffer is overrun. -/
def printUpstream (req : ParsedRequest) (line : RequestLine) : Option CString := do
  let headersLen := toInt (ParsedHeader.headersLen req)
  let _ ← intSucc headersLen
  let headersBuf ← ParsedRequest.unparseHeaders req (sizeT headersLen)
  if headersLen < headersBuf.length then none
  else
    let requestSize := toInt (line.method.length + line.path.length + line.version.length +
      headersLen + 4)
    let serverReq := line.method ++ " ".toList ++ line.path ++ " ".toList ++ line.version ++
      crlf ++ headersBuf
    let size ← intSucc requestSize
    if size ≤ 0 then none else some (serverReq.take (size - 1).toNat)

/-- The object after the call and the text; `none` also where a null pointer is read. -/
def convertRequestToString (req : ParsedRequest) : Option (ParsedRequest × CString) :=
  req.requestLine.bind (fun line =>
    (printUpstream (withUpstreamHeaders req line) line).map
      (fun serverReq => (withUpstreamHeaders req line, serverReq)))

/-- The loop of `writeToSocket`; each turn sends a byte at least. -/
def sendLoop (send : ℕ → SendResult) (buff : List Char) (length : ℕ) :
    ℕ → ℕ → Socket → Except Fatal Socket
  | 0, _, s => .ok s
  | fuel + 1, totalSent, s =>
      if length ≤ totalSent then .ok s
      else if buff.length < length then .error .undefined
      else match send s.calls with
        | .error => .ok { s with calls := s.calls + 1 }
        | .brokenPipe => .error .brokenPipe
        | .sent extra =>
            let sent := min (extra + 1) (length - totalSent)
            sendLoop send buff length fuel (totalSent + sent)
              ⟨s.calls + 1, s.wire ++ (buff.drop totalSent).take sent⟩

def writeToSocket (send : ℕ → SendResult) (buff : List Char) (length : ℤ) (s : Socket) :
    Except Fatal Socket :=
  sendLoop send buff length.toNat length.toNat 0 s

/-- The loop of `writeToClient`: the response, and whether `recv` answered 0. -/
def recvLoop (send : ℕ → SendResult) :
    List RecvResult → List Char → Socket → Except Fatal (List Char × Bool × Socket)
  | [], response, s => .ok (response, true, s)
  | .error :: _, response, s => .ok (response, false, s)
  | .data [] :: _, response, s => .ok (response, true, s)
  | .data bytes :: recvs, response, s => do
      let s ← writeToSocket send bytes bytes.length s
      recvLoop send recvs (response ++ bytes) s

/-- `cache.add` with the response. A new element cannot be made of a response
whose size is negative as an `int`. -/
def addResponse (cache : CacheStrategy) (url : CString) (response : List Char) (now : ℤ) :
    Except Fatal CacheStrategy :=
  if toInt response.length < 0 ∧ ∀ e ∈ cache.elements, e.url ≠ url then .error .undefined
  else match cache.step (.add url response (toInt response.length) now) with
    | none => .error .undefined
    | some cache => .ok cache

/-- The cache after the call and what the client got. -/
def writeToClient (send : ℕ → SendResult) (recvs : List RecvResult) (cache : CacheStrategy)
    (url : CString) (now : ℤ) (s : Socket) : Except Fatal (CacheStrategy × Socket) := do
  let (response, finished, s) ← recvLoop send recvs [] s
  if finished then
    let cache ← addResponse cache url response now
    return (cache, s)
  else return (cache, s)

section Sending

variable {send : ℕ → SendResult}

/-- A broken pipe aside, the loop returns, within one call for each byte. -/
theorem sendLoop_ok {buff : List Char} {length : ℕ} (hlen : length ≤ buff.length) (fuel : ℕ) :
    ∀ (totalSent : ℕ) (s : Socket), length ≤ totalSent + fuel →
      (∀ k, k < s.calls + (length - totalSent) → send k ≠ .brokenPipe) →
      ∃ s', sendLoop send buff length fuel totalSent s = .ok s' ∧
        s'.calls ≤ s.calls + (length - totalSent) := by
  induction fuel with
  | zero => exact fun totalSent s _ _ => ⟨s, rfl, Nat.le_add_right _ _⟩
  | succ fuel ih =>
    intro totalSent s hfuel hsend
    rw [sendLoop]
    by_cases hdone : length ≤ totalSent
    · rw [if_pos hdone]
      exact ⟨s, rfl, Nat.le_add_right _ _⟩
    · rw [if_neg hdone, if_neg (by omega)]
      cases hk : send s.calls with
      | error => exact ⟨_, rfl, by dsimp only; omega⟩
      | brokenPipe => exact absurd hk (hsend s.calls (by omega))
      | sent extra =>
        dsimp only
        obtain ⟨s', hs', hcalls⟩ := ih (totalSent + min (extra + 1) (length - totalSent))
          ⟨s.calls + 1, s.wire ++ (buff.drop totalSent).take (min (extra + 1) (length - totalSent))⟩
          (by omega) (fun k hk => hsend k (by dsimp only at hk; omega))
        exact ⟨s', hs', by dsimp only at hcalls; omega⟩

/-- Where every `send` takes something, the rest of the buffer is on the wire. -/
theorem sendLoop_wire (hsend : ∀ k, ∃ extra, send k = .sent extra) {buff : List Char} {length : ℕ}
    (hlen : length ≤ buff.length) (fuel : ℕ) :
    ∀ (totalSent : ℕ) (s : Socket), length ≤ totalSent + fuel →
      ∃ s', sendLoop send buff length fuel totalSent s = .ok s' ∧
        s'.wire = s.wire ++ (buff.take length).drop totalSent := by
  induction fuel with
  | zero =>
    intro totalSent s hfuel
    refine ⟨s, rfl, ?_⟩
    rw [List.drop_eq_nil_of_le, List.append_nil]
    rw [List.length_take]
    omega
  | succ fuel ih =>
    intro totalSent s hfuel
    rw [sendLoop]
    by_cases hdone : length ≤ totalSent
    · rw [if_pos hdone]
      refine ⟨s, rfl, ?_⟩
      rw [List.drop_eq_nil_of_le, List.append_nil]
      rw [List.length_take]
      omega
    · rw [if_neg hdone, if_neg (by omega)]
      obtain ⟨extra, hk⟩ := hsend s.calls
      rw [hk]
      obtain ⟨n, hn⟩ : ∃ n, n = min (extra + 1) (length - totalSent) := ⟨_, rfl⟩
      obtain ⟨s', hs', hwire⟩ := ih (totalSent + n)
        ⟨s.calls + 1, s.wire ++ (buff.drop totalSent).take n⟩ (by omega)
      refine ⟨s', by dsimp only; rw [← hn]; exact hs', ?_⟩
      have hpiece : (buff.drop totalSent).take n = ((buff.take length).drop totalSent).take n := by
        rw [List.drop_take, List.take_take, Nat.min_eq_left (by omega)]
      rw [hwire, hpiece, List.append_assoc, ← List.drop_drop, List.take_append_drop]

/-- A broken pipe aside, `writeToSocket` returns. -/
theorem writeToSocket_ok {buff : List Char} {length : ℤ} (hlen : length ≤ buff.length) (s : Socket)
    (hsend : ∀ k, k < s.calls + length.toNat → send k ≠ .brokenPipe) :
    ∃ s', writeToSocket send buff length s = .ok s' ∧ s'.calls ≤ s.calls + length.toNat :=
  sendLoop_ok (by omega) _ 0 s (by omega) hsend

theorem writeToSocket_wire (hsend : ∀ k, ∃ extra, send k = .sent extra) {buff : List Char}
    {length : ℤ} (hlen : length = buff.length) (s : Socket) :
    ∃ s', writeToSocket send buff length s = .ok s' ∧ s'.wire = s.wire ++ buff := by
  have hnat : length.toNat = buff.length := by omega
  rw [writeToSocket, hnat]
  have hloop := sendLoop_wire hsend (le_refl buff.length) buff.length 0 s (by omega)
  rwa [List.take_length, List.drop_zero] at hloop

/-- What the origin sends, and whether `recv` answers 0 after it. -/
def response : List RecvResult → List Char × Bool
  | [] => ([], true)
  | .error :: _ => ([], false)
  | .data [] :: _ => ([], true)
  | .data (c :: bytes) :: recvs => (c :: bytes ++ (response recvs).1, (response recvs).2)

/-- A broken pipe aside, the loop returns with what the origin sends. -/
theorem recvLoop_ok (recvs : List RecvResult) :
    ∀ (r : List Char) (s : Socket),
      (∀ k, k < s.calls + (response recvs).1.length → send k ≠ .brokenPipe) →
      ∃ s', recvLoop send recvs r s = .ok (r ++ (response recvs).1, (response recvs).2, s') := by
  induction recvs with
  | nil => exact fun r s _ => ⟨s, by rw [recvLoop, response, List.append_nil]⟩
  | cons recvd recvs ih =>
    intro r s hsend
    match recvd with
    | .error => exact ⟨s, by rw [recvLoop, response, List.append_nil]⟩
    | .data [] => exact ⟨s, by rw [recvLoop, response, List.append_nil]⟩
    | .data (c :: bytes) =>
      rw [response, List.length_append] at hsend
      obtain ⟨s₁, hs₁, hcalls⟩ := @writeToSocket_ok send (c :: bytes) (c :: bytes).length
        (le_refl _) s (fun k hk => hsend k (by rw [Int.toNat_natCast] at hk; omega))
      obtain ⟨s', hs'⟩ := ih (r ++ c :: bytes) s₁ (fun k hk => hsend k (by omega))
      refine ⟨s', ?_⟩
      rw [recvLoop, hs₁, response, ← List.append_assoc]
      · exact hs'
      · exact List.cons_ne_nil c bytes

/-- Where every `send` takes something, the client gets what the origin sends. -/
theorem recvLoop_wire (hsend : ∀ k, ∃ extra, send k = .sent extra) (recvs : List RecvResult) :
    ∀ (r : List Char) (s : Socket), ∃ s',
      recvLoop send recvs r s = .ok (r ++ (response recvs).1, (response recvs).2, s') ∧
        s'.wire = s.wire ++ (response recvs).1 := by
  induction recvs with
  | nil =>
    intro r s
    exact ⟨s, by rw [recvLoop, response, List.append_nil], by rw [response, List.append_nil]⟩
  | cons recvd recvs ih =>
    intro r s
    match recvd with
    | .error =>
      exact ⟨s, by rw [recvLoop, response, List.append_nil], by rw [response, List.append_nil]⟩
    | .data [] =>
      exact ⟨s, by rw [recvLoop, response, List.append_nil], by rw [response, List.append_nil]⟩
    | .data (c :: bytes) =>
      obtain ⟨s₁, hs₁, hwire₁⟩ := @writeToSocket_wire send hsend (c :: bytes) _ rfl s
      obtain ⟨s', hs', hwire⟩ := ih (r ++ c :: bytes) s₁
      refine ⟨s', ?_, ?_⟩
      · rw [recvLoop, hs₁, response, ← List.append_assoc]
        · exact hs'
        · exact List.cons_ne_nil c bytes
      · rw [hwire, hwire₁, response, List.append_assoc]

theorem addResponse_ok {cache : CacheStrategy} (hcache : cache.WellFormed) {r : List Char}
    (hsize : r.length < 2 ^ 31) (url : CString) (now : ℤ) :
    ∃ cache', cache.step (.add url r r.length now) = some cache' ∧
      addResponse cache url r now = .ok cache' := by
  obtain ⟨cache', hstep, _⟩ := CacheStrategy.step_spec hcache (.add url r r.length now)
  refine ⟨cache', hstep, ?_⟩
  rw [addResponse, toInt_of_lt hsize, if_neg, hstep]
  intro h
  exact absurd h.1 (by omega)

/-- What `writeToClient` does with a response below 2 GiB: it is added just when
`recv` answers 0 after it. -/
theorem writeToClient_cases {recvs : List RecvResult} {cache : CacheStrategy}
    (hcache : cache.WellFormed) {s s' : Socket} {r : List Char} {finished : Bool}
    (hloop : recvLoop send recvs [] s = .ok (r, finished, s')) (hsize : r.length < 2 ^ 31)
    (url : CString) (now : ℤ) :
    (finished = false ∧ writeToClient send recvs cache url now s = .ok (cache, s')) ∨
      (finished = true ∧ ∃ cache', cache.step (.add url r r.length now) = some cache' ∧
        writeToClient send recvs cache url now s = .ok (cache', s')) := by
  have hclient : writeToClient send recvs cache url now s =
      if finished then addResponse cache url r now >>= fun cache => .ok (cache, s')
      else .ok (cache, s') := by
    rw [writeToClient, hloop]
    rfl
  rw [hclient]
  cases finished with
  | false => exact Or.inl ⟨rfl, if_neg Bool.false_ne_true⟩
  | true =>
    obtain ⟨cache', hstep, hadd⟩ := addResponse_ok hcache hsize url now
    refine Or.inr ⟨rfl, cache', hstep, ?_⟩
    rw [if_pos rfl, hadd]
    rfl

end Sending

open ParsedHeader OrderedTable

def upstreamTable (line : RequestLine) (t : List (CString × CString)) : List (CString × CString) :=
  OrderedTable.set (OrderedTable.set t "Host".toList line.host) "Connection".toList "close".toList

def upstreamText (line : RequestLine) (t : List (CString × CString)) : CString :=
  line.method ++ " ".toList ++ line.path ++ " ".toList ++ line.version ++ crlf ++
    (t.flatMap headerText ++ crlf)

theorem withUpstreamHeaders_requestLine (req : ParsedRequest) (line : RequestLine) :
    (withUpstreamHeaders req line).requestLine = req.requestLine := by
  rw [withUpstreamHeaders, set_requestLine, set_requestLine]

theorem live_withUpstreamHeaders {req : ParsedRequest} (hnodup : (keys req.live).Nodup)
    (line : RequestLine) :
    (withUpstreamHeaders req line).live = upstreamTable line req.live := by
  have hhost := live_set hnodup "Host".toList line.host
  rw [withUpstreamHeaders, live_set, hhost]
  · rfl
  · rw [hhost]
    exact nodup_set hnodup _ _

/-- When the text and its NUL stay below 2 GiB, the text is printed whole. -/
theorem printUpstream_spec {req : ParsedRequest} {line : RequestLine}
    (hline : req.requestLine = some line)
    (hlt : (upstreamText line req.live).length < 2 ^ 31 - 1) :
    printUpstream req line = some (upstreamText line req.live) := by
  have hprint : req.headers.flatMap printHeader = req.live.flatMap headerText := by
    rw [flatMap_printHeader]
    rfl
  have hcrlf : crlf.length = 2 := rfl
  have hspace : " ".toList.length = 1 := rfl
  have htext : line.method ++ " ".toList ++ line.path ++ " ".toList ++ line.version ++ crlf ++
      (req.headers.flatMap printHeader ++ crlf) = upstreamText line req.live := by
    rw [hprint]
    rfl
  obtain ⟨n, hn⟩ : ∃ n, n = (req.headers.flatMap printHeader ++ crlf).length := ⟨_, rfl⟩
  have hlength : (upstreamText line req.live).length =
      line.method.length + line.path.length + line.version.length + n + 4 := by
    rw [← htext, hn]
    simp only [List.length_append, hcrlf, hspace]
    omega
  rw [hlength] at hlt
  have hlen : headersLen req = n := by
    rw [hn]
    apply headersLen_eq
    · rw [hline]
      rfl
    · rw [List.length_append] at hn
      omega
  have hunparse : ParsedRequest.unparseHeaders req n =
      some (req.headers.flatMap printHeader ++ crlf) := by
    rw [ParsedRequest.unparseHeaders, hline, printHeaders, hlen, if_neg (lt_irrefl n)]
    rfl
  have hsize : toInt (line.method.length + line.path.length + line.version.length + n + 4) =
      ((line.method.length + line.path.length + line.version.length + n + 4 : ℕ) : ℤ) := by
    have hsum : (line.method.length + line.path.length + line.version.length + n + 4 : ℤ) =
        ((line.method.length + line.path.length + line.version.length + n + 4 : ℕ) : ℤ) := by
      simp
    rw [hsum, toInt_of_lt (by omega)]
  rw [printUpstream, hlen, toInt_of_lt (by omega), intSucc_of_lt (by omega),
    sizeT_of_lt (by omega), hunparse]
  simp only [Option.bind_eq_bind, Option.bind_some]
  rw [← hn, if_neg (Int.lt_irrefl _), hsize, intSucc_of_lt (by omega), Option.bind_some,
    if_neg (by omega), htext, List.take_of_length_le]
  rw [hlength]
  omega

theorem convertRequestToString_spec {req : ParsedRequest} {line : RequestLine}
    (hline : req.requestLine = some line) (hnodup : (keys req.live).Nodup)
    (hlt : (upstreamText line (upstreamTable line req.live)).length < 2 ^ 31 - 1) :
    ∃ req', convertRequestToString req =
        some (req', upstreamText line (upstreamTable line req.live)) ∧
      req'.requestLine = some line ∧ req'.live = upstreamTable line req.live := by
  have hline' := (withUpstreamHeaders_requestLine req line).trans hline
  have hlive := live_withUpstreamHeaders hnodup line
  refine ⟨withUpstreamHeaders req line, ?_, hline', hlive⟩
  rw [← hlive] at hlt ⊢
  rw [convertRequestToString, hline, Option.bind_some, printUpstream_spec hline' hlt,
    Option.map_some]

end ProxyUtils

end ProxyServer
