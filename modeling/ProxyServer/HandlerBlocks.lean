import ProxyServer.CacheBlocks
import ProxyServer.HandleClient

/-!
What a worker takes from the heap and the kernel to serve one client: the message
buffer, the parsed request, the two buffers of `convertRequestToString`, the
addresses of the origin, and two descriptors. A visit that returns gives all of it
back except the text it sent upstream, which nothing frees. Visits that end the
process are not followed.
-/
namespace ProxyServer

open CStrings Allocation Prog

variable {ι : Type}

/-- What `getaddrinfo`, `socket` and `connect` answer `createServerSocket`. -/
inductive Connection
  | noAddress
  | noSocket
  | refused
  | connected
  deriving DecidableEq, Repr

/-- A client with what its worker finds besides the cache. -/
structure Visit where
  client : Client
  errnoEinval : Bool
  findTime : ℤ
  addTime : ℤ
  origin : CString → CString → Origin
  connection : Connection

namespace Visit

def surroundings (v : Visit) (cache : CacheStrategy) : Surroundings :=
  ⟨cache, v.findTime, v.addTime, v.origin⟩

/-- The cache after the visits, one after another. -/
def serveAll (cache : CacheStrategy) : List Visit → Except Fatal CacheStrategy
  | [] => .ok cache
  | v :: visits => do
      let served ← serveClient v.client v.errnoEinval (v.surroundings cache)
      serveAll served.1 visits

section Functions
variable [DecidableEq ι]

/-- The receive loop; `realloc` where the count passes the size. -/
def receive (m : RequestMessage) (message : ι) :
    List RecvResult → Prog Site ι (CString × ι)
  | [] => pure (m.text, message)
  | recvd :: recvs =>
      if crlf ++ crlf <:+: m.text then pure (m.text, message)
      else match recvd with
        | .error => undefined
        | .data [] => pure (m.text, message)
        | .data buf =>
            match m.append buf with
            | none => undefined
            | some m' =>
                if m.maxBufferSize < m.total + buf.length then do
                  let message ← realloc .requestMessage message
                  receive m' message recvs
                else receive m' message recvs

def convertRequestToString (req : HeapRequest ι) (line : RequestLine) :
    Prog Site ι (HeapRequest ι × ι) := do
  let req ← req.set "Host".toList line.host
  let req ← req.set "Connection".toList "close".toList
  let headersBuf ← alloc .headersBuf
  let serverReq ← alloc .serverReq
  free headersBuf
  return (req, serverReq)

/-- No descriptor where the code returns -1. -/
def createServerSocket : Connection → Prog Site ι (Option ι)
  | .noAddress => pure none
  | .noSocket => do
      let res ← alloc .addrinfo
      free res
      return none
  | .refused => do
      let res ← alloc .addrinfo
      let sockfd ← alloc .serverSocket
      free sockfd
      free res
      return none
  | .connected => do
      let res ← alloc .addrinfo
      let sockfd ← alloc .serverSocket
      free res
      return some sockfd

/-- `cache.add` once `recv` has answered 0. -/
def cacheResponse (v : Visit) (h : HeapCache ι) (line : RequestLine) :
    Prog Site ι (HeapCache ι) :=
  match ProxyUtils.recvLoop v.client.sends (v.origin line.host line.effectivePort).recvs []
    ⟨0, []⟩ with
  | .error _ => undefined
  | .ok (_, false, _) => pure h
  | .ok (response, true, _) =>
      h.call (.add line.url response (toInt response.length) v.addTime)

/-- `close(-1)` closes nothing. -/
def respond (v : Visit) (h : HeapCache ι) (line : RequestLine) : Prog Site ι (HeapCache ι) := do
  let found ← h.call (.find line.url v.findTime)
  match h.cache.find line.url v.findTime with
  | none => undefined
  | some (_, some _) => pure found
  | some (_, none) => do
      let iServerfd ← createServerSocket v.connection
      let added ← v.cacheResponse found line
      freeNullable iServerfd
      return added

def serve (v : Visit) (h : HeapCache ι) (clientSocket : ι) : Prog Site ι (HeapCache ι) := do
  let message ← alloc .requestMessage
  let received ← receive .empty message v.client.recvs
  let req ← HeapRequest.create
  let parsed ← req.parse received.1 v.errnoEinval
  match parsed.2, parsed.1.requestLine with
  | none, some line => do
      let converted ← convertRequestToString parsed.1 line
      let h ← v.respond h line
      converted.1.destroy
      free received.2
      free clientSocket
      return h
  | _, _ => undefined

/-- Each client is accepted and served before the next. -/
def serveAllOnHeap (h : HeapCache ι) : List Visit → Prog Site ι (HeapCache ι)
  | [] => pure h
  | v :: visits => do
      let clientSocket ← alloc .clientSocket
      let h ← v.serve h clientSocket
      serveAllOnHeap h visits

/-- The loop ends with the text and the message buffer, wherever it then is. -/
theorem receive_spec (recvs : List RecvResult) {m : RequestMessage} {text : CString}
    (h : m.receive recvs = .ok text) (message : ι) :
    Spec (receive m message recvs) [(Site.requestMessage, message)]
      (fun r own => r.1 = text ∧ own = [(Site.requestMessage, r.2)]) := by
  induction recvs generalizing m message with
  | nil => exact spec_pure ⟨Except.ok.inj h, rfl⟩
  | cons recvd recvs ih =>
    unfold receive
    unfold RequestMessage.receive at h
    split at h
    · next hblank =>
      rw [if_pos hblank]
      exact spec_pure ⟨Except.ok.inj h, rfl⟩
    · next hblank =>
      rw [if_neg hblank]
      match recvd with
      | .error => contradiction
      | .data [] => exact spec_pure ⟨Except.ok.inj h, rfl⟩
      | .data (b :: bytes) =>
        dsimp only at h ⊢
        cases happend : m.append (b :: bytes) with
        | none =>
          rw [happend] at h
          contradiction
        | some m' =>
          rw [happend] at h
          dsimp only
          split
          · apply spec_bind (spec_realloc (List.Perm.refl _))
            intro message' own hown
            subst hown
            exact ih h message'
          · exact ih h message

theorem convertRequestToString_spec (req : HeapRequest ι) (line : RequestLine)
    {own : List (Site × ι)} (hown : own.Perm req.blocks) (hpos : 0 < req.headerslen) :
    Spec (convertRequestToString req line) own (fun r own' =>
      own'.Perm ((.serverReq, r.2) :: r.1.blocks) ∧ 0 < r.1.headerslen) := by
  apply spec_bind (spec_perm hown (HeapRequest.set_spec req "Host".toList line.host))
  rintro req₁ own₁ ⟨hown₁, herase₁⟩
  have hpos₁ : 0 < req₁.headerslen := by
    have hlen : 0 < (ParsedHeader.set req.erase "Host".toList line.host).headerslen :=
      HeapRequest.set_headerslen_pos hpos _ _
    rwa [← herase₁] at hlen
  apply spec_bind (spec_perm hown₁ (HeapRequest.set_spec req₁ "Connection".toList "close".toList))
  rintro req₂ own₂ ⟨hown₂, herase₂⟩
  have hpos₂ : 0 < req₂.headerslen := by
    have hlen : 0 <
        (ParsedHeader.set req₁.erase "Connection".toList "close".toList).headerslen :=
      HeapRequest.set_headerslen_pos hpos₁ _ _
    rwa [← herase₂] at hlen
  apply spec_bind spec_alloc
  intro headersBuf own₃ hown₃
  apply spec_bind spec_alloc
  intro serverReq own₄ hown₄
  subst hown₄ hown₃
  apply spec_bind (spec_free (List.Perm.swap _ _ _))
  intro _ own₅ hown₅
  subst hown₅
  exact spec_pure ⟨hown₂.cons _, hpos₂⟩

theorem createServerSocket_spec (connection : Connection) :
    Spec (ι := ι) (createServerSocket connection) []
      (fun fd own => own = fd.toList.map (fun p => (Site.serverSocket, p))) := by
  cases connection with
  | noAddress => exact spec_pure rfl
  | noSocket =>
    apply spec_bind spec_alloc
    intro res own₁ hown₁
    subst hown₁
    apply spec_bind (spec_free (List.Perm.refl _))
    intro _ own₂ hown₂
    exact spec_pure hown₂
  | refused =>
    apply spec_bind spec_alloc
    intro res own₁ hown₁
    apply spec_bind spec_alloc
    intro sockfd own₂ hown₂
    subst hown₂ hown₁
    apply spec_bind (spec_free (List.Perm.refl _))
    intro _ own₃ hown₃
    subst hown₃
    apply spec_bind (spec_free (List.Perm.refl _))
    intro _ own₄ hown₄
    exact spec_pure hown₄
  | connected =>
    apply spec_bind spec_alloc
    intro res own₁ hown₁
    apply spec_bind spec_alloc
    intro sockfd own₂ hown₂
    subst hown₂ hown₁
    apply spec_bind (spec_free (List.Perm.swap _ _ _))
    intro _ own₃ hown₃
    exact spec_pure hown₃

theorem step_of_addResponse {cache cache' : CacheStrategy} {url : CString} {response : List Char}
    {now : ℤ} (h : ProxyUtils.addResponse cache url response now = .ok cache') :
    cache.step (.add url response (toInt response.length) now) = some cache' := by
  unfold ProxyUtils.addResponse at h
  split at h
  · simp at h
  · cases hstep : cache.step (.add url response (toInt response.length) now) with
    | none => simp [hstep] at h
    | some added => simpa [hstep] using h

theorem requestLine_of_respond {client : Client} {around : Surroundings} {req : ParsedRequest}
    {r : CacheStrategy × List Char} (h : ProxyServer.respond client around req = .ok r) :
    ∃ line, req.requestLine = some line := by
  cases hline : req.requestLine with
  | some line => exact ⟨line, rfl⟩
  | none =>
    unfold ProxyServer.respond at h
    rw [hline] at h
    contradiction

theorem respond_cases {v : Visit} {cache cache' : CacheStrategy} {req : ParsedRequest}
    {line : RequestLine} (hline : req.requestLine = some line) {wire : List Char}
    (h : ProxyServer.respond v.client (v.surroundings cache) req = .ok (cache', wire)) :
    (∃ response, cache.find line.url v.findTime = some (cache', some response)) ∨
      ∃ found, cache.find line.url v.findTime = some (found, none) ∧
        ∃ response finished s, ProxyUtils.recvLoop v.client.sends
            (v.origin line.host line.effectivePort).recvs [] ⟨0, []⟩ =
              .ok (response, finished, s) ∧
          ((finished = false ∧ cache' = found) ∨ (finished = true ∧ found.step
            (.add line.url response (toInt response.length) v.addTime) = some cache')) := by
  unfold ProxyServer.respond at h
  rw [hline] at h
  cases hconvert : ProxyUtils.convertRequestToString req with
  | none =>
    rw [hconvert] at h
    contradiction
  | some converted =>
    rw [hconvert] at h
    dsimp only [surroundings] at h
    rcases hfind : cache.find line.url v.findTime with _ | ⟨found, _ | response⟩
    · rw [hfind] at h
      contradiction
    · rw [hfind] at h
      obtain ⟨_, _, h⟩ := ParseError.bind_ok h
      obtain ⟨⟨cache₁, s₁⟩, hclient, h⟩ := ParseError.bind_ok h
      obtain rfl : cache₁ = cache' := congrArg Prod.fst (Except.ok.inj h)
      obtain ⟨⟨response, finished, s⟩, hloop, hrest⟩ := ParseError.bind_ok hclient
      refine Or.inr ⟨found, rfl, response, finished, s, hloop, ?_⟩
      cases finished with
      | false => exact Or.inl ⟨rfl, (congrArg Prod.fst (Except.ok.inj hrest)).symm⟩
      | true =>
        obtain ⟨added, hadd, hrest⟩ := ParseError.bind_ok hrest
        obtain rfl : added = cache₁ := congrArg Prod.fst (Except.ok.inj hrest)
        exact Or.inr ⟨rfl, step_of_addResponse hadd⟩
    · rw [hfind] at h
      obtain ⟨_, _, h⟩ := ParseError.bind_ok h
      obtain rfl : found = cache' := congrArg Prod.fst (Except.ok.inj h)
      exact Or.inl ⟨response, rfl⟩

theorem respond_spec {v : Visit} {h : HeapCache ι} (hwf : h.cache.WellFormed)
    {cache' : CacheStrategy} {req : ParsedRequest} {line : RequestLine}
    (hline : req.requestLine = some line) {wire : List Char}
    (hrespond : ProxyServer.respond v.client (v.surroundings h.cache) req = .ok (cache', wire)) :
    Spec (v.respond h line) h.blocks (Leaves HeapCache.blocks (fun h' => h'.cache = cache')) := by
  obtain ⟨found, answer, hfind, hstep, _⟩ :=
    CacheStrategy.find_spec hwf line.url v.findTime
  obtain ⟨c₁, hstep₁, hwf₁, _⟩ := CacheStrategy.step_spec hwf (.find line.url v.findTime)
  obtain rfl := Option.some.inj (hstep.symm.trans hstep₁)
  apply spec_bind (HeapCache.call_spec hwf (.find line.url v.findTime) (List.Perm.refl _))
  rintro h₁ own₁ ⟨hown₁, hcall⟩
  obtain rfl := Option.some.inj (hstep.symm.trans hcall)
  rw [hfind]
  rcases respond_cases hline hrespond with
    ⟨response, hhit⟩ | ⟨found, hmiss, response, finished, s, hloop, hafter⟩
  · rw [hfind] at hhit
    simp only [Option.some.injEq, Prod.mk.injEq] at hhit
    obtain ⟨hcache, rfl⟩ := hhit
    exact spec_pure ⟨hown₁, hcache⟩
  · rw [hfind] at hmiss
    simp only [Option.some.injEq, Prod.mk.injEq] at hmiss
    obtain ⟨rfl, rfl⟩ := hmiss
    apply spec_bind_call (createServerSocket_spec v.connection) (List.Perm.refl _)
    intro iServerfd own₂ hown₂
    subst hown₂
    have hadded : Spec (v.cacheResponse h₁ line) own₁
        (Leaves HeapCache.blocks (fun h' => h'.cache = cache')) := by
      unfold cacheResponse
      rw [hloop]
      rcases hafter with ⟨rfl, hcache⟩ | ⟨rfl, hadd⟩
      · exact spec_pure ⟨hown₁, hcache.symm⟩
      · apply spec_weaken (HeapCache.call_spec hwf₁ _ hown₁)
        intro h₂ own₂ hcalled
        exact ⟨hcalled.1, Option.some.inj (hcalled.2.symm.trans hadd)⟩
    apply spec_bind_call hadded List.perm_append_comm
    intro h₂ own₂ hown₂
    apply spec_bind (spec_freeNullable ((hown₂.1.append_right _).trans List.perm_append_comm))
    intro _ own₃ hown₃
    subst hown₃
    exact spec_pure ⟨List.Perm.refl _, hown₂.2⟩

/-- A visit that returns leaves the cache's blocks and the text sent upstream. -/
theorem serve_spec {v : Visit} {h : HeapCache ι} (hwf : h.cache.WellFormed)
    {cache' : CacheStrategy} {wire : List Char}
    (hserve : serveClient v.client v.errnoEinval (v.surroundings h.cache) = .ok (cache', wire))
    (clientSocket : ι) :
    Spec (v.serve h clientSocket) ((.clientSocket, clientSocket) :: h.blocks) (fun h' own =>
      h'.cache = cache' ∧ ∃ p, own.Perm ((.serverReq, p) :: h'.blocks)) := by
  obtain ⟨text, htext, hserve⟩ := ParseError.bind_ok hserve
  obtain ⟨req, hparse, hrespond⟩ := ParseError.bind_ok hserve
  have hparsed : ParsedRequest.parse ParsedRequest.create text v.errnoEinval = .ok req := by
    unfold parseRequest at hparse
    split at hparse
    · next hok => rw [hok, Except.ok.inj hparse]
    · contradiction
    · contradiction
  obtain ⟨line, hline⟩ := requestLine_of_respond hrespond
  apply spec_bind spec_alloc
  intro message own₁ hown₁
  subst hown₁
  apply spec_bind_call (receive_spec v.client.recvs htext message) (List.Perm.refl _)
  rintro ⟨text', message'⟩ own₂ ⟨rfl, rfl⟩
  apply spec_bind_call HeapRequest.create_spec (List.Perm.refl _)
  rintro pr own₃ ⟨hown₃, herase, hunassigned⟩
  have hdef : ParsedRequest.parse pr.erase text' v.errnoEinval ≠ .error .undefined := by
    rw [herase, hparsed]
    simp
  apply spec_bind_call (spec_perm hown₃ (HeapRequest.parse_spec hunassigned text' v.errnoEinval
    hdef)) (List.Perm.refl _)
  rintro ⟨pr₁, ret⟩ own₄ ⟨hown₄, hagrees, hpos⟩
  rw [herase, hparsed] at hagrees
  cases ret with
  | some debug => exact absurd hagrees (by simp [HeapRequest.Agrees])
  | none =>
    have hreq : req = pr₁.erase := Except.ok.inj hagrees
    have hline₁ : pr₁.requestLine = some line := by
      rw [hreq] at hline
      exact hline
    rw [hline₁]
    apply spec_bind_call (convertRequestToString_spec pr₁ line hown₄ hpos) (List.Perm.refl _)
    rintro ⟨pr₂, browserReq⟩ own₅ ⟨hown₅, hpos₂⟩
    have hrespond' : ProxyServer.respond v.client (v.surroundings h.cache) pr₁.erase =
        .ok (cache', wire) := hreq ▸ hrespond
    have hcache : (own₅ ++ ([(Site.requestMessage, message')] ++
        (Site.clientSocket, clientSocket) :: h.blocks)).Perm (h.blocks ++
          (own₅ ++ [(.requestMessage, message'), (.clientSocket, clientSocket)])) := by
      refine (List.Perm.of_eq ?_).trans List.perm_append_comm
      simp
    apply spec_bind_call (respond_spec hwf hline₁ hrespond') hcache
    rintro h' own₆ ⟨hown₆, hcache'⟩
    have hrequest : (own₆ ++ (own₅ ++ [(Site.requestMessage, message'),
        (Site.clientSocket, clientSocket)])).Perm (pr₂.blocks ++ ((.serverReq, browserReq) ::
          (.requestMessage, message') :: (.clientSocket, clientSocket) :: own₆)) := by
      refine List.perm_append_comm.trans (((hown₅.append_right _).append_right _).trans ?_)
      rw [List.append_assoc]
      exact List.perm_middle.symm
    apply spec_bind_call (HeapRequest.destroy_spec hpos₂ (List.Perm.refl _)) hrequest
    intro _ own₇ hown₇
    subst hown₇
    apply spec_bind (spec_free (List.Perm.swap _ _ _))
    intro _ own₈ hown₈
    subst hown₈
    apply spec_bind (spec_free (List.Perm.swap _ _ _))
    intro _ own₉ hown₉
    subst hown₉
    exact spec_pure ⟨hcache', browserReq, hown₆.cons _⟩

/-- A visit that returns keeps the cache well formed. -/
theorem serveClient_wellFormed {v : Visit} {cache cache' : CacheStrategy} (hwf : cache.WellFormed)
    {wire : List Char}
    (h : serveClient v.client v.errnoEinval (v.surroundings cache) = .ok (cache', wire)) :
    cache'.WellFormed := by
  obtain ⟨text, _, h⟩ := ParseError.bind_ok h
  obtain ⟨req, _, h⟩ := ParseError.bind_ok h
  obtain ⟨line, hline⟩ := requestLine_of_respond h
  obtain ⟨found, answer, hfind, hstep, _⟩ := CacheStrategy.find_spec hwf line.url v.findTime
  obtain ⟨c₁, hstep₁, hwf₁, _⟩ := CacheStrategy.step_spec hwf (.find line.url v.findTime)
  obtain rfl := Option.some.inj (hstep.symm.trans hstep₁)
  rcases respond_cases hline h with
    ⟨response, hhit⟩ | ⟨found', hmiss, response, finished, s, _, hafter⟩
  · rw [hfind] at hhit
    obtain rfl : found = cache' := congrArg Prod.fst (Option.some.inj hhit)
    exact hwf₁
  · rw [hfind] at hmiss
    obtain rfl : found = found' := congrArg Prod.fst (Option.some.inj hmiss)
    rcases hafter with ⟨_, rfl⟩ | ⟨_, hadd⟩
    · exact hwf₁
    · obtain ⟨c₂, hadd₂, hwf₂, _⟩ := CacheStrategy.step_spec hwf₁
        (.add line.url response (toInt response.length) v.addTime)
      obtain rfl := Option.some.inj (hadd.symm.trans hadd₂)
      exact hwf₂

theorem serveAll_spec (visits : List Visit) {h : HeapCache ι} (hwf : h.cache.WellFormed)
    {cache' : CacheStrategy} (hserve : serveAll h.cache visits = .ok cache')
    {own : List (Site × ι)} (hown : own.Perm h.blocks) :
    Spec (serveAllOnHeap h visits) own (fun h' own' => h'.cache = cache' ∧
      ∃ sent : List ι, sent.length = visits.length ∧
        own'.Perm (sent.map (fun p => (Site.serverReq, p)) ++ h'.blocks)) := by
  induction visits generalizing h own with
  | nil => exact spec_pure ⟨Except.ok.inj hserve, [], rfl, hown⟩
  | cons v visits ih =>
    obtain ⟨⟨cache₁, wire⟩, hfirst, hrest⟩ := ParseError.bind_ok hserve
    apply spec_bind spec_alloc
    intro clientSocket own₁ hown₁
    subst hown₁
    apply spec_bind (spec_perm (hown.cons _) (serve_spec hwf hfirst clientSocket))
    rintro h₁ own₂ ⟨rfl, browserReq, hown₂⟩
    have hswap : own₂.Perm (h₁.blocks ++ [(.serverReq, browserReq)]) :=
      hown₂.trans (perm_concat _ _)
    apply spec_call (ih (serveClient_wellFormed hwf hfirst) hrest (List.Perm.refl _)) hswap
    rintro h₂ o ⟨hcache, sent, hlen, ho⟩
    refine ⟨hcache, browserReq :: sent, congrArg Nat.succ hlen, ?_⟩
    exact (ho.append_right _).trans (perm_concat _ _).symm

end Functions

/-- For every allocator and every run of visits that return, on a new cache of either
strategy: what is out at the end beyond what was out before is the cache's blocks and,
for each visit, the one text sent upstream. No descriptor, parsed request or other
buffer stays out, and nothing is given back twice. -/
theorem served_leave_requests [DecidableEq ι] {cacheType : String} {cacheSize : ℤ}
    {c cache' : CacheStrategy}
    (hcreate : CacheStrategy.createCacheStrategy cacheType cacheSize = some c)
    (hc : 1 ≤ c.capacity) (visits : List Visit) (hserve : serveAll c visits = .ok cache')
    (block : ℕ → ElementBlocks ι) (allocator : Allocator Site ι) (s : State Site ι) :
    ∃ (h : HeapCache ι) (s' : State Site ι) (sent : List ι),
      serveAllOnHeap ⟨c, block⟩ visits allocator s = some (h, s') ∧
      h.cache = cache' ∧ sent.length = visits.length ∧
      s'.memory.live.Perm (sent.map (fun p => (Site.serverReq, p)) ++ h.blocks ++
        s.memory.live) := by
  have hwf := CacheStrategy.createCacheStrategy_wellFormed hcreate hc
  have hempty : ([] : List (Site × ι)).Perm (HeapCache.blocks ⟨c, block⟩) := by
    rw [HeapCache.blocks, CacheStrategy.ptrs, CacheStrategy.elements_create hcreate]
    exact List.Perm.refl _
  obtain ⟨h, s', own, hrun, ⟨hcache, sent, hlen, hown⟩, hlive⟩ :=
    spec_run (serveAll_spec visits (h := ⟨c, block⟩) hwf hserve hempty) allocator s
  exact ⟨h, s', sent, hrun, hcache, hlen, hlive.trans (hown.append_right _)⟩

/-- One client, asking for the same response as any other. -/
def sample : Visit where
  client := ⟨[.data "GET http://a/b HTTP/1.0\r\n\r\n".toList], fun _ => .sent 100⟩
  errnoEinval := false
  findTime := 1
  addTime := 2
  origin := fun _ _ => ⟨[.data "x".toList], fun _ => .sent 100⟩
  connection := .connected

theorem served_leave_requests_twice : ∃ (cache' : CacheStrategy) (h : HeapCache ℕ)
    (s' : State Site ℕ) (sent : List ℕ),
    serveAllOnHeap ⟨.lru (LRUCache.create 3), fun _ => ⟨0, 0, 0⟩⟩ [sample, sample]
      (Allocator.above Site) .empty = some (h, s') ∧ h.cache = cache' ∧
    sent.length = [sample, sample].length ∧
    s'.memory.live.Perm (sent.map (fun p => (Site.serverReq, p)) ++ h.blocks ++ []) := by
  have hcreate : CacheStrategy.createCacheStrategy "LRUCache" 3 =
      some (.lru (LRUCache.create 3)) := rfl
  obtain ⟨cache', hserve⟩ : ∃ cache',
      serveAll (.lru (LRUCache.create 3)) [sample, sample] = .ok cache' := ⟨_, rfl⟩
  exact ⟨cache', served_leave_requests hcreate (by decide) _ hserve _ _ _⟩

end Visit

end ProxyServer
