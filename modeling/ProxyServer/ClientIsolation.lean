import ProxyServer.HandleClient
import ProxyServer.RoundTrip

/-!
When a worker returns. The receive loop ends with a blank line exactly when what
the client sent leaves room in the buffers, whose sizes are the doublings of 5000
bytes: the terminating NUL falls outside just when the count of bytes hits one
of these sizes and all of them were copied. Then the request has to be parsed,
and the client has to take what it is sent.
-/
namespace ProxyServer

open CStrings

namespace RequestMessage

/-- The text that `strncat` makes of what was received. -/
def received (bufs : List (List Char)) : CString := bufs.flatMap (·.takeWhile (· != nul))

/-- There is room for `buf` behind what was received before. -/
structure Room (past : List (List Char)) (buf : List Char) : Prop where
  size : buf.length ≤ 5000
  total : (past ++ [buf]).flatten.length ≤ 5000 * 2 ^ 18
  terminator : nul ∈ (past ++ [buf]).flatten ∨
    ∀ j, (past ++ [buf]).flatten.length ≠ 5000 * 2 ^ j

/-- The message counts what was received; the allocation is the least doubling
that holds it. -/
structure Counts (m : RequestMessage) (past : List (List Char)) : Prop where
  total : m.total = past.flatten.length
  text : m.text = received past
  size : ∃ j ≤ 18, m.maxBufferSize = 5000 * 2 ^ j ∧ m.total ≤ 5000 * 2 ^ j ∧
    ∀ i < j, 5000 * 2 ^ i < m.total

theorem counts_empty : Counts empty [] := by
  refine ⟨rfl, rfl, 0, by omega, rfl, by decide, ?_⟩
  intro i hi
  omega

theorem length_takeWhile_nul (buf : List Char) :
    (buf.takeWhile (· != nul)).length ≤ buf.length ∧
      ((buf.takeWhile (· != nul)).length = buf.length ↔ nul ∉ buf) := by
  refine ⟨(List.takeWhile_sublist _).length_le, ?_⟩
  constructor
  · intro hlen hmem
    have heq := (List.takeWhile_sublist (· != nul)).eq_of_length hlen
    rw [← heq] at hmem
    simpa using List.mem_takeWhile_imp hmem
  · intro hmem
    rw [List.takeWhile_eq_self_iff.mpr]
    intro c hc
    rw [bne_iff_ne]
    exact fun heq => hmem (heq ▸ hc)

/-- The text is as long as what was received unless a NUL was in it. -/
theorem length_received (bufs : List (List Char)) :
    (received bufs).length ≤ bufs.flatten.length ∧
      ((received bufs).length = bufs.flatten.length ↔ nul ∉ bufs.flatten) := by
  induction bufs with
  | nil => simp [received]
  | cons buf bufs ih =>
    have hbuf := length_takeWhile_nul buf
    have hcons : received (buf :: bufs) = buf.takeWhile (· != nul) ++ received bufs := rfl
    rw [hcons, List.flatten_cons, List.length_append, List.length_append, List.mem_append, not_or,
      ← hbuf.2, ← ih.2]
    omega

theorem received_concat (past : List (List Char)) (buf : List Char) :
    received (past ++ [buf]) = received past ++ buf.takeWhile (· != nul) := by
  simp [received]

/-- The allocation after `realloc` is the least doubling for the new count. -/
theorem exists_doubling {total size j : ℕ} (hsize : size ≤ 5000) (hle : total ≤ 5000 * 2 ^ j)
    (hleast : ∀ i < j, 5000 * 2 ^ i < total) :
    ∃ k, (if 5000 * 2 ^ j < total + size then 5000 * 2 ^ j * 2 else 5000 * 2 ^ j) =
        5000 * 2 ^ k ∧ total + size ≤ 5000 * 2 ^ k ∧ (∀ i < k, 5000 * 2 ^ i < total + size) ∧
        k ≤ j + 1 := by
  have hpos : 1 ≤ 2 ^ j := Nat.one_le_two_pow
  split
  · rename_i hlt
    refine ⟨j + 1, by rw [Nat.pow_succ, Nat.mul_assoc], by rw [Nat.pow_succ]; omega, ?_, by omega⟩
    intro i hi
    rcases Nat.lt_succ_iff_lt_or_eq.mp hi with hi | rfl
    · exact Nat.lt_of_lt_of_le (hleast i hi) (Nat.le_add_right total size)
    · exact hlt
  · rename_i hnlt
    refine ⟨j, rfl, by omega, ?_, by omega⟩
    intro i hi
    exact Nat.lt_of_lt_of_le (hleast i hi) (Nat.le_add_right total size)

/-- A count that is itself a doubling fills the allocation. -/
theorem eq_doubling {total k i : ℕ} (hle : total ≤ 5000 * 2 ^ k)
    (hleast : ∀ i < k, 5000 * 2 ^ i < total) (h : total = 5000 * 2 ^ i) : i = k := by
  rcases Nat.lt_trichotomy i k with hlt | heq | hgt
  · have hbelow := hleast i hlt
    omega
  · exact heq
  · have hpow : 2 ^ k < 2 ^ i := Nat.pow_lt_pow_right (by omega) hgt
    omega

/-- `buf` can be appended exactly when there is room for it. -/
theorem append_cases {m : RequestMessage} {past : List (List Char)} (h : m.Counts past)
    (buf : List Char) :
    (Room past buf ∧ ∃ m', m.append buf = some m' ∧ m'.Counts (past ++ [buf])) ∨
      (¬ Room past buf ∧ m.append buf = none) := by
  obtain ⟨j, hj, hmax, hle, hleast⟩ := h.size
  have htotal : m.total + buf.length = (past ++ [buf]).flatten.length := by
    rw [h.total]
    simp
  have htext : m.text ++ buf.takeWhile (· != nul) = received (past ++ [buf]) := by
    rw [h.text, received_concat]
  obtain ⟨hshort, hcopied⟩ := length_received (past ++ [buf])
  obtain ⟨text, htext'⟩ : ∃ text, text = received (past ++ [buf]) := ⟨_, rfl⟩
  rw [← htext'] at hshort hcopied htext
  rw [← htotal] at hshort hcopied
  unfold append
  rw [hmax]
  simp only [htext]
  by_cases hsize : buf.length ≤ 5000
  · obtain ⟨k, hk, hfits, hleast', _⟩ := exists_doubling hsize hle hleast
    rw [hk]
    by_cases hk18 : k ≤ 18
    · have hpow : 2 ^ k ≤ 2 ^ 18 := Nat.pow_le_pow_right (by omega) hk18
      by_cases hfull : 5000 * 2 ^ k ≤ text.length
      · right
        refine ⟨?_, if_pos (Or.inr (Or.inr (Or.inr hfull)))⟩
        intro hroom
        rcases hroom.terminator with hnul | hsizes
        · exact hcopied.mp (by omega) hnul
        · exact hsizes k (by omega)
      · left
        refine ⟨⟨hsize, by omega, ?_⟩, ⟨5000 * 2 ^ k, m.total + buf.length, text⟩, ?_,
          ⟨htotal, htext', k, hk18, rfl, hfits, hleast'⟩⟩
        · by_cases hnul : nul ∈ (past ++ [buf]).flatten
          · exact Or.inl hnul
          · right
            intro i hi
            have hlen := hcopied.mpr hnul
            rw [← htotal] at hi
            have hik := eq_doubling hfits hleast' hi
            subst hik
            omega
        · rw [if_neg]
          omega
    · right
      have hpow : 2 ^ 19 ≤ 2 ^ k := Nat.pow_le_pow_right (by omega) (by omega)
      have hbelow := hleast' 18 (by omega)
      refine ⟨?_, if_pos (Or.inr (Or.inr (Or.inl (by omega))))⟩
      intro hroom
      have htotal18 := hroom.total
      omega
  · right
    refine ⟨fun hroom => hsize hroom.size, if_pos (Or.inl (by omega))⟩

theorem receive_blank {m : RequestMessage} (h : crlf ++ crlf <:+: m.text)
    (recvs : List RecvResult) : m.receive recvs = .ok m.text := by
  cases recvs with
  | nil => rfl
  | cons recvd recvs =>
    unfold receive
    exact if_pos h

theorem receive_data {m m' : RequestMessage} (h : ¬ crlf ++ crlf <:+: m.text) {buf : List Char}
    (hbuf : buf ≠ []) (happend : m.append buf = some m') (recvs : List RecvResult) :
    m.receive (.data buf :: recvs) = m'.receive recvs := by
  obtain ⟨c, buf, rfl⟩ := List.exists_cons_of_ne_nil hbuf
  rw [receive, if_neg h]
  · simp only [happend]
  · exact List.cons_ne_nil c buf

/-- Received with `past` before them, the buffers leave room each, and the blank
line is complete with the last of them. -/
structure Completes (past bufs : List (List Char)) : Prop where
  nonempty : [] ∉ bufs
  room : ∀ front buf, front ++ [buf] <+: bufs → Room (past ++ front) buf
  first : ∀ front, front <+: bufs → (crlf ++ crlf <:+: received (past ++ front) ↔ front = bufs)

theorem Completes.tail {past bufs : List (List Char)} {buf : List Char}
    (h : Completes past (buf :: bufs)) : Completes (past ++ [buf]) bufs := by
  refine ⟨fun hc => h.nonempty (List.mem_cons_of_mem _ hc), ?_, ?_⟩
  · intro front b hfront
    have hroom := h.room (buf :: front) b (by simpa using hfront)
    rwa [List.append_assoc]
  · intro front hfront
    have hfirst := h.first (buf :: front) (by simpa using hfront)
    rw [List.append_assoc, List.singleton_append, hfirst, List.cons_inj_right]

/-- The loop ends with what completes the blank line. -/
theorem receive_of_completes {bufs : List (List Char)} (rest : List RecvResult) :
    ∀ {m : RequestMessage} {past : List (List Char)}, m.Counts past → Completes past bufs →
      m.receive (bufs.map .data ++ rest) = .ok (received (past ++ bufs)) := by
  induction bufs with
  | nil =>
    intro m past hm h
    have hblank : crlf ++ crlf <:+: m.text := by
      rw [hm.text]
      simpa using (h.first [] List.nil_prefix).mpr rfl
    rw [List.map_nil, List.nil_append, List.append_nil, ← hm.text]
    exact receive_blank hblank rest
  | cons buf bufs ih =>
    intro m past hm h
    have hblank : ¬ crlf ++ crlf <:+: m.text := by
      rw [hm.text]
      have hfirst := h.first [] List.nil_prefix
      rw [List.append_nil] at hfirst
      rw [hfirst]
      exact (List.cons_ne_nil buf bufs).symm
    have hroom : Room past buf := by
      simpa using h.room [] buf (by simp)
    have hne : buf ≠ [] := fun hnil => h.nonempty (hnil ▸ List.mem_cons_self)
    rcases append_cases hm buf with ⟨_, m', hm', hcounts⟩ | ⟨hnot, _⟩
    · rw [List.map_cons, List.cons_append, receive_data hblank hne hm', ih hcounts h.tail,
        List.append_assoc, List.singleton_append]
    · exact absurd hroom hnot

/-- Where the loop ends with a blank line, the first answers complete it. -/
theorem exists_completes {recvs : List RecvResult} :
    ∀ {m : RequestMessage} {past : List (List Char)} {text : CString}, m.Counts past →
      m.receive recvs = .ok text → crlf ++ crlf <:+: text →
      ∃ bufs, bufs.map .data <+: recvs ∧ Completes past bufs ∧ text = received (past ++ bufs) := by
  have hstop : ∀ {m : RequestMessage} {past : List (List Char)}, m.Counts past →
      crlf ++ crlf <:+: m.text → Completes past [] ∧ m.text = received (past ++ []) := by
    intro m past hm hblank
    rw [List.append_nil, hm.text] at *
    refine ⟨⟨List.not_mem_nil, by simp, ?_⟩, rfl⟩
    intro front hfront
    rw [List.prefix_nil.mp hfront, List.append_nil]
    exact iff_of_true hblank rfl
  induction recvs with
  | nil =>
    intro m past text hm h hblank
    obtain rfl : m.text = text := Except.ok.inj h
    exact ⟨[], List.nil_prefix, hstop hm hblank⟩
  | cons recvd recvs ih =>
    intro m past text hm h hblank
    unfold receive at h
    split at h
    · rename_i hdone
      obtain rfl : m.text = text := Except.ok.inj h
      exact ⟨[], List.nil_prefix, hstop hm hdone⟩
    · rename_i hopen
      split at h
      · contradiction
      · obtain rfl : m.text = text := Except.ok.inj h
        exact absurd hblank hopen
      · rename_i buf hbuf
        rcases append_cases hm buf with ⟨hroom, m', hm', hcounts⟩ | ⟨_, hnone⟩
        · rw [hm'] at h
          obtain ⟨bufs, hbufs, hcompletes, rfl⟩ := ih hcounts h hblank
          refine ⟨buf :: bufs, ?_, ⟨?_, ?_, ?_⟩, by rw [List.append_assoc]; rfl⟩
          · rw [List.map_cons]
            exact List.cons_prefix_cons.mpr ⟨rfl, hbufs⟩
          · intro hc
            rcases List.mem_cons.mp hc with hnil | hc
            · exact hbuf hnil.symm
            · exact hcompletes.nonempty hc
          · intro front b hfront
            cases front with
            | nil =>
              obtain rfl := (List.cons_prefix_cons.mp hfront).1
              rwa [List.append_nil]
            | cons x front =>
              obtain ⟨rfl, htail⟩ := List.cons_prefix_cons.mp hfront
              have hrest := hcompletes.room front b htail
              rwa [List.append_assoc] at hrest
          · intro front hfront
            cases front with
            | nil =>
              rw [List.append_nil, ← hm.text]
              exact iff_of_false hopen (List.cons_ne_nil buf bufs).symm
            | cons x front =>
              obtain ⟨rfl, htail⟩ := List.cons_prefix_cons.mp hfront
              have hrest := hcompletes.first front htail
              rwa [List.append_assoc, List.singleton_append, ← List.cons_inj_right x] at hrest
        · rw [hnone] at h
          contradiction

end RequestMessage

open ProxyUtils ParsedRequest RequestMessage

/-- A well-formed cache whose elements have the bytes they say, and origins that
take the request and send less than 2 GiB. -/
structure Surroundings.Sound (s : Surroundings) : Prop where
  cache : s.cache.WellFormed
  elements : ∀ e ∈ s.cache.elements, e.len < 2 ^ 31 ∧ e.len ≤ e.data.length
  requests : ∀ host port k, (s.origin host port).sends k ≠ .brokenPipe
  responses : ∀ host port, (response (s.origin host port).recvs).1.length < 2 ^ 31

/-- The worker gets to parsing and the parser accepts. -/
def Accepted (client : Client) (errnoEinval : Bool) : Prop :=
  ∃ text req, RequestMessage.empty.receive client.recvs = .ok text ∧
    parse create text errnoEinval = .ok req

/-- The worker returns, and where it did not accept the request the cache is as
it was. -/
def LeavesOthers (worker : Client → Bool → Surroundings → Except Fatal (CacheStrategy × List Char))
    (client : Client) (errnoEinval : Bool) (s : Surroundings) : Prop :=
  ∃ cache sent, worker client errnoEinval s = .ok (cache, sent) ∧
    (¬ Accepted client errnoEinval → cache = s.cache)

/-- The client sends a request that fits the buffers and is parsed. -/
def SendsRequest (client : Client) (errnoEinval : Bool) : Prop :=
  ∃ bufs, bufs.map .data <+: client.recvs ∧ Completes [] bufs ∧
    ∃ req, parse create (received bufs) errnoEinval = .ok req

/-- The client takes what it is sent, as long as a response can be. -/
def TakesResponse (client : Client) : Prop := ∀ k, k < 2 ^ 31 - 1 → client.sends k ≠ .brokenPipe

theorem accepted_iff {client : Client} {errnoEinval : Bool} :
    Accepted client errnoEinval ↔ SendsRequest client errnoEinval := by
  constructor
  · intro h
    obtain ⟨text, req, hreceive, hparse⟩ := h
    obtain ⟨bufs, hbufs, hcompletes, rfl⟩ :=
      exists_completes counts_empty hreceive (blank_of_parse hparse)
    exact ⟨bufs, hbufs, hcompletes, req, hparse⟩
  · intro h
    obtain ⟨bufs, ⟨rest, hrest⟩, hcompletes, req, hparse⟩ := h
    refine ⟨received bufs, req, ?_, hparse⟩
    rw [← hrest]
    exact receive_of_completes rest counts_empty hcompletes

/-- A client that takes what it is sent gets an answer to an accepted request. -/
theorem respond_ok {client : Client} {errnoEinval : Bool} {text : CString} {req : ParsedRequest}
    (hparse : parse create text errnoEinval = .ok req) (htakes : TakesResponse client)
    {s : Surroundings} (hs : s.Sound) :
    ∃ cache sent, respond client s req = .ok (cache, sent) := by
  obtain ⟨line, browserReq, hline, hconvert⟩ := convert_of_parse hparse
  obtain ⟨cache, answer, hfind, hstep, _⟩ := CacheStrategy.find_spec hs.cache line.url s.findTime
  rw [respond, hline, hconvert]
  simp only [hfind]
  cases answer with
  | some e =>
    obtain ⟨x, hx, _, rfl⟩ := CacheStrategy.find_answer hs.cache hfind
    obtain ⟨hint, hdata⟩ := hs.elements x hx
    obtain ⟨s', hs', _⟩ := @writeToSocket_ok client.sends x.data x.len hdata ⟨0, []⟩
      (fun k hk => htakes k (by dsimp only at hk; omega))
    refine ⟨cache, s'.wire, ?_⟩
    dsimp only
    rw [hs']
    rfl
  | none =>
    obtain ⟨origin, horigin⟩ : ∃ origin, origin = s.origin line.host line.effectivePort :=
      ⟨_, rfl⟩
    have hresponse := hs.responses line.host line.effectivePort
    have hrequest := hs.requests line.host line.effectivePort
    rw [← horigin] at hresponse hrequest
    obtain ⟨cache', hcache', hwf, _⟩ := CacheStrategy.step_spec hs.cache
      (.find line.url s.findTime)
    obtain rfl : cache = cache' := Option.some.inj (hstep.symm.trans hcache')
    obtain ⟨iServerfd, hserver, _⟩ := @writeToSocket_ok origin.sends _
      (upstreamText line (upstreamTable line req.live)).length (le_refl _) ⟨0, []⟩
      (fun k _ => hrequest k)
    obtain ⟨newsockfd, hloop⟩ := @recvLoop_ok client.sends origin.recvs [] ⟨0, []⟩
      (fun k hk => htakes k (by dsimp only at hk; omega))
    rw [List.nil_append] at hloop
    dsimp only
    rw [← horigin, hserver]
    rcases writeToClient_cases hwf hloop hresponse line.url s.addTime with
      ⟨_, hclient⟩ | ⟨_, cache', _, hclient⟩
    · exact ⟨cache, newsockfd.wire, by rw [hclient]; rfl⟩
    · exact ⟨cache', newsockfd.wire, by rw [hclient]; rfl⟩

section BrokenPipe

variable {send : ℕ → SendResult}

/-- An origin that sends its response a byte at a time. -/
def drip (n : ℕ) : Origin := ⟨List.replicate n (.data ['x']), fun _ => .error⟩

theorem writeToSocket_byte (c : Char) {s : Socket} (h : send s.calls ≠ .brokenPipe) :
    ∃ s', writeToSocket send [c] 1 s = .ok s' ∧ s'.calls = s.calls + 1 := by
  have hloop : writeToSocket send [c] 1 s = sendLoop send [c] 1 1 0 s := rfl
  rw [hloop, sendLoop, if_neg (by decide), if_neg (by simp)]
  cases hk : send s.calls with
  | error => exact ⟨_, rfl, rfl⟩
  | brokenPipe => exact absurd hk h
  | sent extra => exact ⟨_, rfl, rfl⟩

/-- A response a byte at a time reaches the first broken pipe. -/
theorem recvLoop_drip {k : ℕ} (hk : send k = .brokenPipe)
    (hbefore : ∀ i, i < k → send i ≠ .brokenPipe) (n : ℕ) :
    ∀ (r : List Char) (s : Socket), s.calls + n = k →
      recvLoop send (drip (n + 1)).recvs r s = .error .brokenPipe := by
  induction n with
  | zero =>
    intro r s hcalls
    have hs : send s.calls = .brokenPipe := by
      rw [← hk]
      congr 1
    have hloop : writeToSocket send ['x'] 1 s = .error .brokenPipe := by
      have hturn : writeToSocket send ['x'] 1 s = sendLoop send ['x'] 1 1 0 s := rfl
      rw [hturn, sendLoop, if_neg (by decide), if_neg (by simp), hs]
    show (writeToSocket send ['x'] 1 s >>= _) = _
    rw [hloop]
    rfl
  | succ n ih =>
    intro r s hcalls
    obtain ⟨s', hs', hcalls'⟩ := @writeToSocket_byte send 'x' s (hbefore s.calls (by omega))
    show (writeToSocket send ['x'] 1 s >>= fun s => recvLoop send (drip (n + 1)).recvs _ s) = _
    rw [hs']
    exact ih _ s' (by omega)

theorem response_drip (n : ℕ) : (response (drip n).recvs).1.length = n := by
  induction n with
  | zero => rfl
  | succ n ih =>
    have hcons : (response (drip (n + 1)).recvs).1 = 'x' :: (response (drip n).recvs).1 := rfl
    rw [hcons, List.length_cons, ih]

/-- A cold cache and origins that send a byte at a time. -/
def dripping (n : ℕ) : Surroundings := ⟨.lru (LRUCache.create 1), 0, 0, fun _ _ => drip n⟩

theorem dripping_sound {n : ℕ} (h : n < 2 ^ 31) : (dripping n).Sound where
  cache := ⟨le_refl 1, LRUCache.create_wellFormed 1⟩
  elements := by
    intro e he
    exact absurd he List.not_mem_nil
  requests := by
    intro host port k hc
    exact absurd hc (by simp [dripping, drip])
  responses := by
    intro host port
    show (response (drip n).recvs).1.length < 2 ^ 31
    rwa [response_drip]

/-- A client on whose connection a broken pipe is met takes the process down. -/
theorem respond_brokenPipe {client : Client} {errnoEinval : Bool} {text : CString}
    {req : ParsedRequest} (hparse : parse create text errnoEinval = .ok req) {k : ℕ}
    (hk : client.sends k = .brokenPipe) (hbefore : ∀ i, i < k → client.sends i ≠ .brokenPipe) :
    respond client (dripping (k + 1)) req = .error .brokenPipe := by
  obtain ⟨line, browserReq, hline, hconvert⟩ := convert_of_parse hparse
  have hfind : (dripping (k + 1)).cache.find line.url (dripping (k + 1)).findTime =
      some (.lru (LRUCache.create 1), none) := by
    simp [dripping, CacheStrategy.find, LRUCache.find, LRUCache.create]
  obtain ⟨iServerfd, hserver, _⟩ := @writeToSocket_ok (fun _ => .error) _
    (upstreamText line (upstreamTable line req.live)).length (le_refl _) ⟨0, []⟩
    (fun k _ => by simp)
  have hloop := recvLoop_drip hk hbefore k [] ⟨0, []⟩ (by simp)
  rw [respond, hline, hconvert]
  simp only [hfind]
  show (writeToSocket (fun _ => .error) _ _ _ >>= fun _ =>
    (recvLoop client.sends (drip (k + 1)).recvs [] ⟨0, []⟩ >>= _) >>= _) = _
  rw [hserver, hloop]
  rfl

end BrokenPipe

theorem parse_of_parseRequest {text : CString} {errnoEinval : Bool} {req : ParsedRequest}
    (h : parseRequest text errnoEinval = .ok req) :
    parse create text errnoEinval = .ok req := by
  unfold parseRequest at h
  split at h
  · rename_i hparse
    rw [hparse, Except.ok.inj h]
  · contradiction
  · contradiction

/-- A client leaves the others alone, whatever the cache and the origins, exactly
when it sends a request that fits the buffers and is parsed, and takes what it
is sent. -/
theorem leaves_others_iff (client : Client) (errnoEinval : Bool) :
    (∀ s : Surroundings, s.Sound →
      LeavesOthers ThreadPoolServer.handleClient client errnoEinval s ∧
      LeavesOthers SemaphoreServer.datafromclient client errnoEinval s) ↔
    SendsRequest client errnoEinval ∧ TakesResponse client := by
  have hserve : ∀ {text : CString} {req : ParsedRequest} (s : Surroundings),
      RequestMessage.empty.receive client.recvs = .ok text →
      parse create text errnoEinval = .ok req →
      serveClient client errnoEinval s = respond client s req := by
    intro text req s hreceive hparse
    rw [serveClient, hreceive]
    show (parseRequest text errnoEinval >>= respond client s) = respond client s req
    rw [parseRequest, hparse]
    rfl
  constructor
  · intro h
    have haccepted : Accepted client errnoEinval := by
      obtain ⟨cache, sent, hserved, _⟩ := (h (dripping 0) (dripping_sound (by decide))).1
      obtain ⟨text, hreceive, hserved⟩ := ParseError.bind_ok hserved
      obtain ⟨req, hreq, _⟩ := ParseError.bind_ok hserved
      exact ⟨text, req, hreceive, parse_of_parseRequest hreq⟩
    refine ⟨accepted_iff.mp haccepted, ?_⟩
    obtain ⟨text, req, hreceive, hparse⟩ := haccepted
    by_contra hbroken
    have hex : ∃ k, k < 2 ^ 31 - 1 ∧ client.sends k = .brokenPipe := by
      by_contra hnone
      exact hbroken (fun k hk hc => hnone ⟨k, hk, hc⟩)
    obtain ⟨hk, hpipe⟩ := Nat.find_spec hex
    have hbefore : ∀ i, i < Nat.find hex → client.sends i ≠ .brokenPipe := by
      intro i hi hc
      exact Nat.find_min hex hi ⟨lt_trans hi hk, hc⟩
    obtain ⟨cache, sent, hserved, _⟩ :=
      (h (dripping (Nat.find hex + 1)) (dripping_sound (by omega))).1
    have hdrip := hserve (dripping (Nat.find hex + 1)) hreceive hparse
    rw [respond_brokenPipe hparse hpipe hbefore] at hdrip
    have hboth := hdrip.symm.trans hserved
    contradiction
  · intro h s hs
    obtain ⟨hsends, htakes⟩ := h
    have haccepted := accepted_iff.mpr hsends
    obtain ⟨text, req, hreceive, hparse⟩ := haccepted
    obtain ⟨cache, sent, hrespond⟩ := respond_ok hparse htakes hs
    have hleaves : LeavesOthers serveClient client errnoEinval s := by
      refine ⟨cache, sent, ?_, fun hnot => absurd (accepted_iff.mpr hsends) hnot⟩
      rw [hserve s hreceive hparse, hrespond]
    exact ⟨hleaves, hleaves⟩

/-- A client that disconnects at once, one whose `recv` fails and one whose
request is rejected end the process. -/
theorem handleClient_exits :
    ThreadPoolServer.handleClient ⟨[], fun _ => .sent 0⟩ false (dripping 0) =
        .error (.exited 0) ∧
      ThreadPoolServer.handleClient ⟨[.error], fun _ => .sent 0⟩ false (dripping 0) =
        .error (.exited 1) ∧
      ThreadPoolServer.handleClient ⟨[.data "GET / HTTP/1.0\r\n\r\n".toList], fun _ => .sent 0⟩
        false (dripping 0) = .error (.exited 0) ∧
      ¬ ∀ (client : Client) (errnoEinval : Bool) (s : Surroundings), s.Sound →
        LeavesOthers ThreadPoolServer.handleClient client errnoEinval s ∧
        LeavesOthers SemaphoreServer.datafromclient client errnoEinval s := by
  have hexits : ThreadPoolServer.handleClient ⟨[], fun _ => .sent 0⟩ false (dripping 0) =
      .error (.exited 0) := rfl
  refine ⟨hexits, rfl, rfl, ?_⟩
  intro h
  obtain ⟨cache, sent, hserved, _⟩ :=
    (h ⟨[], fun _ => .sent 0⟩ false (dripping 0) (dripping_sound (by decide))).1
  rw [hexits] at hserved
  contradiction

end ProxyServer
