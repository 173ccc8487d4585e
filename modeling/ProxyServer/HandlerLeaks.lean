import ProxyServer.RequestBlocks
import ProxyServer.ResponseCounters

/-!
What the handlers of the C proxies take and give back when they come back. The
handlers with a cache lose the text they meant to send upstream, and with it the
socket, wherever the connection fails; the one without a cache loses every remote
socket, and the copy of the request unless there was a connection to pass it on.
What the cache stores is its own and not followed.
-/
namespace ProxyServer.V1

open CStrings Allocation Prog

variable {ι : Type}

/-- Where `connectRemoteServer` stops. -/
inductive Connecting
  | noSocket
  | noHost
  | refused
  | connected
  deriving DecidableEq, Repr

/-- The client's request as the receive loop leaves it, and what the handler finds. -/
structure Arrival where
  text : CString
  /-- The last `recv` had bytes. -/
  received : Bool
  errnoEinval : Bool
  /-- The request is in the cache. -/
  hit : Bool
  connecting : Connecting
  /-- The `recv` and `send` results of the loop over the response. -/
  segments : List Segment
  /-- `add_cache_element` has the room it needs, or does not want any. -/
  added : Bool
  /-- The signal of a `send` to a connection that is gone ends the process, or the
  read behind a stored response does. -/
  crashes : Bool
  deriving DecidableEq

def checkHTTPversion (msg : CString) : ℤ :=
  if msg.take 8 = "HTTP/1.1".toList then 1
  else if msg.take 8 = "HTTP/1.0".toList then 1
  else -1

/-- A `send`, to either side. -/
def Arrival.send (a : Arrival) : Prog Site ι Unit :=
  if a.crashes then undefined else pure ()

/-- Where room must be made, it waits for the mutex that it holds. -/
def Arrival.addCacheElement (a : Arrival) : Prog Site ι Unit :=
  if a.added then pure () else undefined

section Functions
variable [DecidableEq ι]

/-- The two headers that `handle_request` sets. -/
def setHeaders (request : HeapRequest ι) (line : RequestLine) : Prog Site ι (HeapRequest ι) := do
  let request ← request.set "Connection".toList "close".toList
  match ParsedHeader.get request.erase "Host".toList with
  | none => request.set "Host".toList line.host
  | some _ => pure request

/-- No socket where the code returns -1; a socket that does not connect stays open. -/
def connectRemoteServer : Connecting → Prog Site ι (Option ι)
  | .noSocket => pure none
  | .noHost => do
      let _ ← alloc .remoteSocket
      return none
  | .refused => do
      let _ ← alloc .remoteSocket
      return none
  | .connected => do
      let remoteSocket ← alloc .remoteSocket
      return some remoteSocket

/-- The loop over the response, with `realloc` in every turn. Where its counters leave
the buffer or the range of `int`, it is undefined. -/
def responseLoopOnHeap (tempBuffer : ι) (c : Counters) : List Segment → Prog Site ι ι
  | [] => if (CounterEvent.write c).Safe then pure tempBuffer else undefined
  | s :: rest =>
      let r := Counters.copyLoop (sizeT s.sent) c
      if Counters.AllSafe r.1 ∧ (CounterEvent.set r.2.grow).Safe then do
        let tempBuffer ← realloc .tempBuffer tempBuffer
        if s.sent < 0 then
          if (CounterEvent.write r.2.grow).Safe then pure tempBuffer else undefined
        else responseLoopOnHeap tempBuffer r.2.grow rest
      else undefined

/-- `handle_request` of the proxies with a cache. -/
def handleRequestOnHeap (a : Arrival) (request : HeapRequest ι) (line : RequestLine) :
    Prog Site ι (HeapRequest ι × ℤ) := do
  let buf ← alloc .upstreamBuf
  let request ← setHeaders request line
  let remote ← connectRemoteServer a.connecting
  match remote with
  | none => return (request, -1)
  | some remoteSocket => do
      a.send
      let tempBuffer ← alloc .tempBuffer
      let tempBuffer ← responseLoopOnHeap tempBuffer .start a.segments
      free buf
      a.addCacheElement
      free tempBuffer
      free remoteSocket
      return (request, 0)

/-- `handle_request` of the proxy without a cache, which is given the client's
buffer and frees the copy of the request. -/
def handleRequestUncached (a : Arrival) (request : HeapRequest ι) (line : RequestLine)
    (tempReq : ι) : Prog Site ι (HeapRequest ι × ℤ) := do
  let request ← setHeaders request line
  let remote ← connectRemoteServer a.connecting
  match remote with
  | none => return (request, -1)
  | some _ => do
      a.send
      let tempBuffer ← alloc .tempBuffer
      let tempBuffer ← responseLoopOnHeap tempBuffer .start a.segments
      free tempBuffer
      free tempReq
      return (request, 0)

/-- The branch of a miss, up to `ParsedRequest_destroy`; the error pages are sent. -/
def miss (a : Arrival)
    (handle : HeapRequest ι → RequestLine → Prog Site ι (HeapRequest ι × ℤ)) :
    Prog Site ι Unit := do
  let request ← HeapRequest.create
  let parsed ← request.parse a.text a.errnoEinval
  match parsed.2, parsed.1.requestLine with
  | none, some line =>
      if line.method = "GET".toList then
        if checkHTTPversion line.version = 1 then do
          let handled ← handle parsed.1 line
          (if handled.2 = -1 then a.send else pure ())
          handled.1.destroy
        else do
          a.send
          parsed.1.destroy
      else parsed.1.destroy
  | _, _ => parsed.1.destroy

/-- `handle_client`, and `thread_fn` of the proxy with a cache. -/
def handleClient (a : Arrival) (socket : ι) : Prog Site ι Unit := do
  let buffer ← alloc .buffer
  let tempReq ← alloc .tempReq
  (if a.hit then a.send
    else if a.received then miss a (handleRequestOnHeap a) else pure ())
  free socket
  free buffer
  free tempReq

/-- `thread_fn` of the proxy without a cache; nothing is ever stored, so `find`
finds nothing. -/
def handleClientUncached (a : Arrival) (socket : ι) : Prog Site ι Unit := do
  let buffer ← alloc .buffer
  let tempReq ← alloc .tempReq
  (if a.received then
    miss a (fun request line => handleRequestUncached a request line tempReq) else pure ())
  free socket
  free buffer

def handleAll (handle : Arrival → ι → Prog Site ι Unit) : List Arrival → Prog Site ι Unit
  | [] => pure ()
  | a :: arrivals => do
      let socket ← alloc .clientSocket
      handle a socket
      handleAll handle arrivals

end Functions

def Arrival.handled (a : Arrival) : Bool :=
  match ParsedRequest.parse ParsedRequest.create a.text a.errnoEinval with
  | .error _ => false
  | .ok request =>
      match request.requestLine with
      | none => false
      | some line => line.method = "GET".toList ∧ checkHTTPversion line.version = 1

/-- The sockets that `connectRemoteServer` leaves open. -/
def Connecting.opened : Connecting → List Site
  | .noSocket => []
  | _ => [.remoteSocket]

/-- What a handler with a cache never gives back. -/
def Arrival.lost (a : Arrival) : List Site :=
  if a.hit = false ∧ a.received ∧ a.handled ∧ a.connecting ≠ .connected
  then a.connecting.opened ++ [.upstreamBuf] else []

/-- What the handler without a cache never gives back. -/
def Arrival.lostUncached (a : Arrival) : List Site :=
  if a.received ∧ a.handled then
    a.connecting.opened ++ (if a.connecting = .connected then [] else [.tempReq])
  else [.tempReq]

/-- No `send` of the response loop fails, and its counters stay in the range of `int`. -/
def Arrival.Relays (a : Arrival) : Prop :=
  (∀ s ∈ a.segments, 0 ≤ s.sent) ∧ a.segments.length ≤ 524286

/-- A request that gets to the parser is read within bounds, and if a connection
passes it on the response is relayed; then there may be more to ask for. -/
structure Arrival.ComesBack (a : Arrival) (afterwards : Prop) : Prop where
  readable : ParsedRequest.parse ParsedRequest.create a.text a.errnoEinval ≠ .error .undefined
  relays : a.handled → a.connecting = .connected → a.Relays ∧ afterwards

/-- The handlers with a cache come back, `add_cache_element` included. -/
structure Arrival.Returns (a : Arrival) : Prop where
  survives : a.crashes = false
  comesBack : a.hit = false → a.received → a.ComesBack a.added

structure Arrival.ReturnsUncached (a : Arrival) : Prop where
  survives : a.crashes = false
  comesBack : a.received → a.ComesBack True

/-- Of what is owned, `keep` and handles taken at these sites. -/
def Retains (sites : List Site) (keep own : List (Site × ι)) : Prop :=
  ∃ lost, own.Perm (keep ++ lost) ∧ lost.map Prod.fst = sites

/-- It answers a socket just when it connects, and then that socket is open. -/
theorem connectRemoteServer_spec (connecting : Connecting) :
    Spec (ι := ι) (connectRemoteServer connecting) [] (fun fd own =>
      (connecting ≠ .connected ∧ fd = none ∧ own.map Prod.fst = connecting.opened) ∨
        connecting = .connected ∧ ∃ p, fd = some p ∧ own = [(.remoteSocket, p)]) := by
  cases connecting with
  | noSocket => exact spec_pure (Or.inl ⟨by decide, rfl, rfl⟩)
  | noHost =>
    apply spec_bind spec_alloc
    intro p own hown
    subst hown
    exact spec_pure (Or.inl ⟨by decide, rfl, rfl⟩)
  | refused =>
    apply spec_bind spec_alloc
    intro p own hown
    subst hown
    exact spec_pure (Or.inl ⟨by decide, rfl, rfl⟩)
  | connected =>
    apply spec_bind spec_alloc
    intro p own hown
    subst hown
    exact spec_pure (Or.inr ⟨rfl, p, rfl, rfl⟩)

theorem send_spec {a : Arrival} (hsurvives : a.crashes = false) (own : List (Site × ι)) :
    Spec (a.send (ι := ι)) own (fun _ own' => own' = own) := by
  unfold Arrival.send
  rw [hsurvives]
  exact spec_pure rfl

theorem send_bind {β : Type} {a : Arrival} (hsurvives : a.crashes = false)
    {f : Unit → Prog Site ι β} {own : List (Site × ι)} {post : β → List (Site × ι) → Prop}
    (h : Spec (f ()) own post) : Spec (a.send >>= f) own post := by
  apply spec_bind (send_spec hsurvives own)
  intro _ own' hown
  subst hown
  exact h

theorem addCacheElement_bind {β : Type} {a : Arrival} (hadded : a.added)
    {f : Unit → Prog Site ι β} {own : List (Site × ι)} {post : β → List (Site × ι) → Prop}
    (h : Spec (f ()) own post) : Spec (a.addCacheElement >>= f) own post := by
  unfold Arrival.addCacheElement
  rw [if_pos hadded]
  have hreturned : Spec (pure () : Prog Site ι Unit) own (fun _ own' => own' = own) := spec_pure rfl
  apply spec_bind hreturned
  intro _ own' hown
  subst hown
  exact h

section Specs
variable [DecidableEq ι]

theorem setHeaders_spec {request : HeapRequest ι} (line : RequestLine) {own : List (Site × ι)}
    (hown : own.Perm request.blocks) (hpos : 0 < request.headerslen) :
    Spec (setHeaders request line) own
      (Leaves HeapRequest.blocks (fun r => 0 < r.headerslen)) := by
  have hset : ∀ (request : HeapRequest ι) (own : List (Site × ι)) (key value : CString),
      own.Perm request.blocks → 0 < request.headerslen → Spec (request.set key value) own
        (Leaves HeapRequest.blocks (fun r => 0 < r.headerslen)) := by
    intro request own key value hown hpos
    apply spec_weaken (spec_perm hown (HeapRequest.set_spec request key value))
    intro r own' hr
    have hlen : 0 < (ParsedHeader.set request.erase key value).headerslen :=
      HeapRequest.set_headerslen_pos hpos key value
    rw [← hr.2] at hlen
    exact ⟨hr.1, hlen⟩
  apply spec_bind (hset request own _ _ hown hpos)
  rintro r own₁ ⟨hown₁, hpos₁⟩
  cases ParsedHeader.get r.erase "Host".toList with
  | none => exact hset r own₁ _ _ hown₁ hpos₁
  | some i => exact spec_pure ⟨hown₁, hpos₁⟩

theorem responseLoopOnHeap_spec (segments : List Segment) {c : Counters}
    (hsafe : Counters.AllSafe (Counters.responseLoop c segments)) (tempBuffer : ι) :
    Spec (responseLoopOnHeap tempBuffer c segments) [(Site.tempBuffer, tempBuffer)]
      (fun p own => own = [(Site.tempBuffer, p)]) := by
  induction segments generalizing c tempBuffer with
  | nil =>
    have hwrite : (CounterEvent.write c).Safe := hsafe _ (List.mem_singleton.mpr rfl)
    unfold responseLoopOnHeap
    rw [if_pos hwrite]
    exact spec_pure rfl
  | cons s rest ih =>
    unfold Counters.AllSafe Counters.responseLoop at hsafe
    obtain ⟨hcopy, hrest⟩ := List.forall_mem_append.mp hsafe
    obtain ⟨hset, hrest⟩ := List.forall_mem_cons.mp hrest
    unfold responseLoopOnHeap
    dsimp only
    rw [if_pos ⟨hcopy, hset⟩]
    apply spec_bind (spec_realloc (List.Perm.refl _))
    intro p own hown
    subst hown
    by_cases hs : s.sent < 0
    · rw [if_pos hs] at hrest ⊢
      rw [if_pos (hrest _ (List.mem_singleton.mpr rfl))]
      exact spec_pure rfl
    · rw [if_neg hs] at hrest ⊢
      exact ih hrest p

/-- The response loop goes round between the buffers it works with. -/
theorem responseLoop_bind {β : Type} {a : Arrival} (hrelays : a.Relays) {tempBuffer : ι}
    {f : ι → Prog Site ι β} {rest : List (Site × ι)} {post : β → List (Site × ι) → Prop}
    (h : ∀ p, Spec (f p) ((.tempBuffer, p) :: rest) post) :
    Spec (responseLoopOnHeap tempBuffer .start a.segments >>= f)
      ((.tempBuffer, tempBuffer) :: rest) post := by
  have hsafe : Counters.AllSafe (Counters.responseLoop .start a.segments) := by
    apply (Counters.Gap.responseLoop_safe_iff a.segments Counters.Gap.start).mpr
    rw [Nat.zero_add]
    exact hrelays
  apply spec_bind_call (responseLoopOnHeap_spec a.segments hsafe tempBuffer) (List.Perm.refl _)
  intro p own hown
  subst hown
  exact h p

theorem handleRequestOnHeap_spec {a : Arrival} (hsurvives : a.crashes = false)
    (hrelays : a.connecting = .connected → a.Relays ∧ a.added)
    {request : HeapRequest ι} (line : RequestLine)
    {own : List (Site × ι)} (hown : own.Perm request.blocks) (hpos : 0 < request.headerslen) :
    Spec (handleRequestOnHeap a request line) own (fun r own' => 0 < r.1.headerslen ∧
      Retains (if a.connecting = .connected then [] else a.connecting.opened ++ [.upstreamBuf])
        r.1.blocks own') := by
  apply spec_bind spec_alloc
  intro buf own₁ hown₁
  subst hown₁
  apply spec_bind_call (setHeaders_spec line hown hpos) (perm_concat _ _)
  rintro r own₂ ⟨hown₂, hpos₂⟩
  apply spec_bind_call (connectRemoteServer_spec a.connecting) (List.Perm.refl _)
  rintro fd own₃ (⟨hconnecting, rfl, hopened⟩ | ⟨hconnecting, p, rfl, rfl⟩)
  · refine spec_pure ⟨hpos₂, own₃ ++ [(.upstreamBuf, buf)], ?_, ?_⟩
    · refine ((hown₂.append_right _).append_left own₃).trans ?_
      exact List.perm_append_comm_assoc _ _ _
    · rw [if_neg hconnecting, List.map_append, hopened]
      rfl
  · obtain ⟨hrelays, hadded⟩ := hrelays hconnecting
    rw [if_pos hconnecting]
    apply send_bind hsurvives
    apply spec_bind spec_alloc
    intro tempBuffer own₄ hown₄
    subst hown₄
    apply responseLoop_bind hrelays
    intro q
    have hbuf : ((Site.tempBuffer, q) :: ([(Site.remoteSocket, p)] ++
        (own₂ ++ [(Site.upstreamBuf, buf)]))).Perm ((.upstreamBuf, buf) ::
          (.tempBuffer, q) :: (.remoteSocket, p) :: own₂) :=
      (perm_concat (Site.upstreamBuf, buf)
        ((Site.tempBuffer, q) :: (Site.remoteSocket, p) :: own₂)).symm
    apply spec_bind (spec_free hbuf)
    intro _ own₅ hown₅
    subst hown₅
    apply addCacheElement_bind hadded
    apply spec_bind (spec_free (List.Perm.refl _))
    intro _ own₆ hown₆
    subst hown₆
    apply spec_bind (spec_free (List.Perm.refl _))
    intro _ own₇ hown₇
    subst hown₇
    exact spec_pure ⟨hpos₂, [], by rwa [List.append_nil], rfl⟩

theorem handleRequestUncached_spec {a : Arrival} (hsurvives : a.crashes = false)
    (hrelays : a.connecting = .connected → a.Relays)
    {request : HeapRequest ι} (line : RequestLine) (tempReq : ι) {own : List (Site × ι)}
    (hown : own.Perm (request.blocks ++ [(.tempReq, tempReq)])) (hpos : 0 < request.headerslen) :
    Spec (handleRequestUncached a request line tempReq) own (fun r own' => 0 < r.1.headerslen ∧
      Retains (a.connecting.opened ++ (if a.connecting = .connected then [] else [.tempReq]))
        r.1.blocks own') := by
  apply spec_bind_call (setHeaders_spec line (List.Perm.refl _) hpos) hown
  rintro r own₁ ⟨hown₁, hpos₁⟩
  apply spec_bind_call (connectRemoteServer_spec a.connecting) (List.Perm.refl _)
  rintro fd own₂ (⟨hconnecting, rfl, hopened⟩ | ⟨hconnecting, p, rfl, rfl⟩)
  · refine spec_pure ⟨hpos₁, own₂ ++ [(.tempReq, tempReq)], ?_, ?_⟩
    · refine ((hown₁.append_right _).append_left own₂).trans ?_
      exact List.perm_append_comm_assoc _ _ _
    · rw [if_neg hconnecting, List.map_append, hopened]
      rfl
  · rw [if_pos hconnecting, hconnecting]
    apply send_bind hsurvives
    apply spec_bind spec_alloc
    intro tempBuffer own₃ hown₃
    subst hown₃
    apply responseLoop_bind (hrelays hconnecting)
    intro q
    apply spec_bind (spec_free (List.Perm.refl _))
    intro _ own₄ hown₄
    subst hown₄
    have hreq : ([(Site.remoteSocket, p)] ++ (own₁ ++ [(Site.tempReq, tempReq)])).Perm
        ((.tempReq, tempReq) :: (.remoteSocket, p) :: own₁) :=
      (perm_concat (Site.tempReq, tempReq) ((Site.remoteSocket, p) :: own₁)).symm
    apply spec_bind (spec_free hreq)
    intro _ own₅ hown₅
    subst hown₅
    exact spec_pure ⟨hpos₁, [(.remoteSocket, p)], (hown₁.cons _).trans (perm_concat _ _), rfl⟩

/-- The parsed request is given back, and what `handle_request` keeps stays out where
the request is handed to it. -/
theorem miss_spec {a : Arrival} (hsurvives : a.crashes = false) {sites : List Site}
    (extra : List (Site × ι))
    {handle : HeapRequest ι → RequestLine → Prog Site ι (HeapRequest ι × ℤ)}
    (hhandle : a.handled → ∀ (request : HeapRequest ι) (line : RequestLine) (own : List (Site × ι)),
      own.Perm (request.blocks ++ extra) → 0 < request.headerslen →
        Spec (handle request line) own
          (fun r own' => 0 < r.1.headerslen ∧ Retains sites r.1.blocks own'))
    (hdef : ParsedRequest.parse ParsedRequest.create a.text a.errnoEinval ≠ .error .undefined) :
    Spec (miss a handle) extra (fun _ own' =>
      if a.handled then own'.map Prod.fst = sites else own' = extra) := by
  have hdestroy : ∀ (request : HeapRequest ι) (own rest : List (Site × ι)),
      own.Perm (request.blocks ++ rest) → 0 < request.headerslen →
        Spec request.destroy own (fun _ own' => own' = rest) := by
    intro request own rest hown hpos
    apply spec_call (HeapRequest.destroy_spec hpos (List.Perm.refl _)) hown
    intro _ o ho
    rw [ho, List.nil_append]
  apply spec_bind_call HeapRequest.create_spec (List.Perm.refl _)
  rintro pr own₁ ⟨hown₁, herase, hunassigned⟩
  rw [← herase] at hdef
  apply spec_bind_call (spec_perm hown₁ (HeapRequest.parse_spec hunassigned a.text a.errnoEinval
    hdef)) (List.Perm.refl _)
  rintro ⟨pr₂, ret⟩ own₂ ⟨hown₂, hagrees, hpos⟩
  rw [herase] at hagrees
  have hown : (own₂ ++ extra).Perm (pr₂.blocks ++ extra) := hown₂.append_right extra
  cases ret with
  | some debug =>
    have hparse : ParsedRequest.parse ParsedRequest.create a.text a.errnoEinval =
        .error (.rejected debug) := hagrees
    have hnot : a.handled = false := by simp [Arrival.handled, hparse]
    simp only [hnot, Bool.false_eq_true, if_false]
    exact hdestroy pr₂ _ extra hown hpos
  | none =>
    have hparse : ParsedRequest.parse ParsedRequest.create a.text a.errnoEinval =
        .ok pr₂.erase := hagrees
    cases hline : pr₂.requestLine with
    | none =>
      have hnot : a.handled = false := by simp [Arrival.handled, hparse, HeapRequest.erase, hline]
      simp only [hnot, Bool.false_eq_true, if_false]
      exact hdestroy pr₂ _ extra hown hpos
    | some line =>
      have hhandled : a.handled =
          decide (line.method = "GET".toList ∧ checkHTTPversion line.version = 1) := by
        simp only [Arrival.handled, hparse, HeapRequest.erase, hline]
      dsimp only
      by_cases hget : line.method = "GET".toList
      · rw [if_pos hget]
        by_cases hversion : checkHTTPversion line.version = 1
        · have hhandled : a.handled := by rw [hhandled]; exact decide_eq_true ⟨hget, hversion⟩
          rw [if_pos hversion]
          simp only [hhandled, if_true]
          apply spec_bind (hhandle hhandled pr₂ line _ hown hpos)
          rintro r own₃ ⟨hpos₃, lost, hown₃, hsites⟩
          have hrest : Spec r.1.destroy own₃ (fun _ own' => own'.map Prod.fst = sites) := by
            apply spec_weaken (hdestroy r.1 own₃ lost hown₃ hpos₃)
            intro _ own' hown'
            rw [hown']
            exact hsites
          by_cases hresult : r.2 = -1
          · rw [if_pos hresult]
            exact send_bind hsurvives hrest
          · rw [if_neg hresult]
            exact hrest
        · have hnot : a.handled = false := by
            rw [hhandled]
            exact decide_eq_false (fun h => hversion h.2)
          rw [if_neg hversion]
          simp only [hnot, Bool.false_eq_true, if_false]
          exact send_bind hsurvives (hdestroy pr₂ _ extra hown hpos)
      · have hnot : a.handled = false := by
          rw [hhandled]
          exact decide_eq_false (fun h => hget h.1)
        rw [if_neg hget]
        simp only [hnot, Bool.false_eq_true, if_false]
        exact hdestroy pr₂ _ extra hown hpos

theorem handleClient_spec {a : Arrival} (hret : a.Returns) (socket : ι) :
    Spec (handleClient a socket) [(.clientSocket, socket)]
      (fun _ own => own.map Prod.fst = a.lost) := by
  apply spec_bind spec_alloc
  intro buffer own₁ hown₁
  apply spec_bind spec_alloc
  intro tempReq own₂ hown₂
  subst hown₂ hown₁
  have hanswer : Spec (if a.hit then a.send
      else if a.received then miss a (handleRequestOnHeap (ι := ι) a) else pure ()) []
      (fun _ own => own.map Prod.fst = a.lost) := by
    unfold Arrival.lost
    by_cases hhit : a.hit
    · rw [if_pos hhit]
      apply spec_weaken (send_spec hret.survives [])
      intro _ own hown
      simp [hown, hhit]
    · rw [if_neg hhit]
      by_cases hreceived : a.received
      · rw [if_pos hreceived]
        have hback := hret.comesBack (Bool.eq_false_iff.mpr hhit) hreceived
        refine spec_weaken (miss_spec hret.survives [] (fun hhandled request line own hown hpos =>
          handleRequestOnHeap_spec hret.survives (hback.relays hhandled) line
            (by rwa [List.append_nil] at hown) hpos) hback.readable) ?_
        intro _ own hown
        by_cases hhandled : a.handled
        · rw [if_pos hhandled] at hown
          rw [hown]
          by_cases hconnecting : a.connecting = .connected
          · simp [hconnecting]
          · simp [hhit, hreceived, hhandled, hconnecting]
        · rw [if_neg hhandled] at hown
          rw [hown]
          simp [hhandled]
      · rw [if_neg hreceived]
        exact spec_pure (by simp [hreceived])
  apply spec_bind_call hanswer (List.Perm.refl _)
  intro _ lost hlost
  apply spec_perm (perm_append_reverse _ _)
  apply spec_bind (spec_free (List.Perm.refl _))
  intro _ own₃ hown₃
  subst hown₃
  apply spec_bind (spec_free (List.Perm.refl _))
  intro _ own₄ hown₄
  subst hown₄
  apply spec_weaken (spec_free (List.Perm.refl _))
  intro _ own₅ hown₅
  subst hown₅
  exact hlost

theorem handleClientUncached_spec {a : Arrival} (hret : a.ReturnsUncached) (socket : ι) :
    Spec (handleClientUncached a socket) [(.clientSocket, socket)]
      (fun _ own => own.map Prod.fst = a.lostUncached) := by
  apply spec_bind spec_alloc
  intro buffer own₁ hown₁
  apply spec_bind spec_alloc
  intro tempReq own₂ hown₂
  subst hown₂ hown₁
  have hanswer : Spec (if a.received then
        miss a (fun request line => handleRequestUncached a request line tempReq) else pure ())
      [(.tempReq, tempReq)] (fun _ own => own.map Prod.fst = a.lostUncached) := by
    unfold Arrival.lostUncached
    by_cases hreceived : a.received
    · rw [if_pos hreceived]
      have hback := hret.comesBack hreceived
      refine spec_weaken (miss_spec hret.survives [(.tempReq, tempReq)]
        (fun hhandled request line own hown hpos => handleRequestUncached_spec hret.survives
          (fun hconnecting => (hback.relays hhandled hconnecting).1) line tempReq hown hpos)
            hback.readable) ?_
      intro _ own hown
      by_cases hhandled : a.handled
      · rw [if_pos hhandled] at hown
        simp only [hreceived, hhandled, and_self, if_true]
        exact hown
      · rw [if_neg hhandled] at hown
        rw [hown, if_neg (fun h => hhandled h.2)]
        rfl
    · rw [if_neg hreceived]
      refine spec_pure ?_
      rw [if_neg (fun h => hreceived h.1)]
      rfl
  apply spec_bind_call hanswer (List.Perm.refl _)
  intro _ lost hlost
  apply spec_perm (perm_append_reverse _ _)
  apply spec_bind (spec_free (List.Perm.refl _))
  intro _ own₃ hown₃
  subst hown₃
  apply spec_weaken (spec_free (List.Perm.refl _))
  intro _ own₄ hown₄
  subst hown₄
  exact hlost

end Specs

theorem handleAll_spec {handle : Arrival → ι → Prog Site ι Unit} {lost : Arrival → List Site}
    (arrivals : List Arrival) (hhandle : ∀ a ∈ arrivals, ∀ socket,
      Spec (handle a socket) [(.clientSocket, socket)] (fun _ own => own.map Prod.fst = lost a)) :
    Spec (handleAll handle arrivals) []
      (fun _ own => (own.map Prod.fst).Perm (arrivals.flatMap lost)) := by
  induction arrivals with
  | nil => exact spec_pure (List.Perm.refl _)
  | cons a arrivals ih =>
    apply spec_bind spec_alloc
    intro socket own₁ hown₁
    subst hown₁
    apply spec_bind (hhandle a List.mem_cons_self socket)
    intro _ own₂ hown₂
    apply spec_call (ih (fun b hb => hhandle b (List.mem_cons_of_mem _ hb))) (List.Perm.refl _)
    intro _ o ho
    rw [List.map_append, List.flatMap_cons, hown₂]
    exact (ho.append_right _).trans List.perm_append_comm

/-- For every allocator and every run of clients whose handling comes back: the
proxies with a cache lose, for each client whose request gets as far as a
connection that fails, the upstream buffer and the socket if there was one, and
nothing else. -/
theorem handled_lose [DecidableEq ι] (arrivals : List Arrival)
    (hret : ∀ a ∈ arrivals, a.Returns) (allocator : Allocator Site ι) (s : State Site ι) :
    ∃ s' own, handleAll handleClient arrivals allocator s = some ((), s') ∧
      s'.memory.live.Perm (own ++ s.memory.live) ∧
      (own.map Prod.fst).Perm (arrivals.flatMap Arrival.lost) := by
  obtain ⟨_, s', own, hrun, hown, hlive⟩ := spec_run
    (handleAll_spec arrivals (fun a ha socket => handleClient_spec (hret a ha) socket)) allocator s
  exact ⟨s', own, hrun, hlive, hown⟩

def unknownHost : Arrival where
  text := "GET http://a/b HTTP/1.0\r\n\r\n".toList
  received := true
  errnoEinval := false
  hit := false
  connecting := .noHost
  segments := []
  added := true
  crashes := false

/-- The same request, and a response in two pieces. -/
def answered : Arrival :=
  { unknownHost with connecting := .connected, segments := [Counters.oneByte, Counters.oneByte] }

def askedAgain : Arrival := { unknownHost with hit := true }

theorem comesBack_of_mem {afterwards : Prop} (hafterwards : afterwards) :
    ∀ a ∈ [unknownHost, answered, askedAgain], a.ComesBack afterwards := by
  intro a ha
  have hcases : a = unknownHost ∨ a = answered ∨ a = askedAgain := by simpa using ha
  rcases hcases with rfl | rfl | rfl
  · exact ⟨by decide, fun _ h => absurd h (by decide)⟩
  · exact ⟨by decide, fun _ _ => ⟨⟨by decide, by decide⟩, hafterwards⟩⟩
  · exact ⟨by decide, fun _ h => absurd h (by decide)⟩

theorem survives_of_mem :
    ∀ a ∈ [unknownHost, answered, askedAgain], a.crashes = false ∧ a.added := by decide

theorem handled_lose_unknownHost : ∃ s' own,
    handleAll handleClient [unknownHost, answered, askedAgain] (Allocator.above Site) .empty =
      some ((), s') ∧
    s'.memory.live.Perm (own ++ []) ∧ (own.map Prod.fst).Perm
      ([unknownHost, answered, askedAgain].flatMap Arrival.lost) :=
  handled_lose _ (fun a ha => ⟨(survives_of_mem a ha).1,
    fun _ _ => comesBack_of_mem (survives_of_mem a ha).2 a ha⟩) _ _

/-- The proxy without a cache loses the socket of every connection, whether it
failed or not, and the copy of every request that no connection passed on. -/
theorem handledUncached_lose [DecidableEq ι] (arrivals : List Arrival)
    (hret : ∀ a ∈ arrivals, a.ReturnsUncached) (allocator : Allocator Site ι)
    (s : State Site ι) :
    ∃ s' own, handleAll handleClientUncached arrivals allocator s = some ((), s') ∧
      s'.memory.live.Perm (own ++ s.memory.live) ∧
      (own.map Prod.fst).Perm (arrivals.flatMap Arrival.lostUncached) := by
  obtain ⟨_, s', own, hrun, hown, hlive⟩ := spec_run (handleAll_spec arrivals
    (fun a ha socket => handleClientUncached_spec (hret a ha) socket)) allocator s
  exact ⟨s', own, hrun, hlive, hown⟩

theorem handledUncached_lose_unknownHost : ∃ s' own,
    handleAll handleClientUncached [unknownHost, answered] (Allocator.above Site) .empty =
      some ((), s') ∧
    s'.memory.live.Perm (own ++ []) ∧ (own.map Prod.fst).Perm
      ([unknownHost, answered].flatMap Arrival.lostUncached) :=
  handledUncached_lose _ (fun a ha =>
    have hmem : a ∈ [unknownHost, answered, askedAgain] := List.mem_append_left [askedAgain] ha
    ⟨(survives_of_mem a hmem).1, fun _ => comesBack_of_mem trivial a hmem⟩) _ _

end ProxyServer.V1
