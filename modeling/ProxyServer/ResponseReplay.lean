import ProxyServer.CacheLock
import ProxyServer.ResponseLoop

/-!
A response passed on by the C proxies and its replay from the cache. The cache
gets the bytes before the first NUL, and a hit sends them in blocks of
`MAX_BYTES`, the last one whole like the others and with what stands behind the
text; each block is sent once, whatever `send` takes of it. So the replay is the
response only where the last block ends with the text or its NUL, and `send` takes
just the part of each block that belongs to the response.
-/
namespace ProxyServer.V1

open CStrings

/-- `handle_request` from the first `recv` of the response on, with the cache as
it is when the add gets the mutex: what the client is sent and the outcome of the
add. -/
def handleRequest (c : Cache) (turns : List (List Char × SendResult)) (tempReq : CString)
    (now : ℤ) : Option (List Char × Option (ℤ × Cache)) := do
  let r ← Runs.run Relay.turn Relay.start turns
  let r ← r.write nul
  let text ← cstring r.tempBuffer
  some (r.client, lockedAdd c text (toInt text.length) tempReq now)

/-- The loop of a hit from a block on, with what the client has been sent. Reading
behind the NUL of the data is undefined. -/
def replayLoop (send : ℕ → SendResult) (data : List Char) (size : ℤ) :
    ℕ → ℕ → List Char → Option (List Char)
  | 0, _, client => some client
  | fuel + 1, n, client =>
      if size ≤ maxBytes * n then some client
      else if data.length < maxBytes * (n + 1) then none
      else match send n with
        | .error => replayLoop send data size fuel (n + 1) client
        | .brokenPipe => none
        | .sent extra =>
            replayLoop send data size fuel (n + 1)
              (client ++ (Blocks.block maxBytes data n).take (extra + 1))

/-- What a client is sent whose request has been found; a turn of the loop
advances `pos` by more than one. -/
def replay (send : ℕ → SendResult) (e : CacheElement) : Option (List Char) :=
  replayLoop send (e.data ++ [nul]) e.len e.len.toNat 0 []

/-- The bytes before the first NUL. -/
def text (bytes : List Char) : CString := bytes.takeWhile (· != nul)

/-- The number of blocks that a hit sends for a text. -/
def blocks (n : ℕ) : ℕ := (n + (maxBytes - 1)) / maxBytes

/-- The client of a miss is sent the response, and so is every client of a hit on
the element that the miss has stored. -/
def Replays (c : Cache) (turns : List (List Char × SendResult)) (extra : ℕ → ℕ)
    (tempReq : CString) (now : ℤ) : Prop :=
  ∃ added, handleRequest c turns tempReq now = some (response turns, added) ∧
    ∀ answer stored, added = some (answer, stored) →
      ∀ calls later, Runs.run step stored calls = some later →
        ∀ hitTime e, (find later tempReq hitTime).1 = some e → e.ptr = c.allocated →
          replay (fun n => .sent (extra n)) e = some (response turns)

/-- The blocks end with the text of the response or its NUL and reach the end of
the response, and of each the part that belongs to the response is taken. -/
structure InBlocks (bytes : List Char) (extra : ℕ → ℕ) : Prop where
  reach : bytes.length ≤ maxBytes * blocks (text bytes).length
  within : maxBytes * blocks (text bytes).length ≤ (text bytes).length + 1
  taken : ∀ n, n < blocks (text bytes).length →
    min (extra n + 1) maxBytes = min (bytes.length - maxBytes * n) maxBytes

/-- Every piece is sent whole, the pieces are not too many for the counter, and a
response that is stored lies in blocks. -/
structure Exact (c : Cache) (turns : List (List Char × SendResult)) (extra : ℕ → ℕ)
    (tempReq : CString) : Prop where
  whole : ∀ t ∈ turns, passedOn t = t.1
  few : turns.length ≤ 524286
  inBlocks : Room c (elementSize (text (response turns)).length tempReq) →
    InBlocks (response turns) extra

section Replay

variable {extra : ℕ → ℕ}

theorem blocks_le_iff {n j : ℕ} : blocks n ≤ j ↔ n ≤ maxBytes * j := by
  show (n + 4095) / 4096 ≤ j ↔ n ≤ 4096 * j
  omega

/-- The blocks from `j` on are sent if all lie within the data and its NUL. -/
theorem replayLoop_eq {data : List Char} {n : ℕ} (fuel : ℕ) :
    ∀ {j : ℕ} {client : List Char}, j ≤ blocks n → blocks n ≤ j + fuel →
      maxBytes * j ≤ data.length →
      replayLoop (fun j => .sent (extra j)) data n fuel j client =
        if maxBytes * blocks n ≤ data.length then
          some (client ++ ((List.range (blocks n)).drop j).flatMap
            (fun i => (Blocks.block maxBytes data i).take (extra i + 1)))
        else none := by
  induction fuel with
  | zero =>
    intro j client hj hblocks hread
    obtain rfl := le_antisymm hj hblocks
    rw [replayLoop, if_pos hread, List.drop_of_length_le (le_of_eq List.length_range)]
    simp
  | succ fuel ih =>
    intro j client hj hblocks hread
    rw [replayLoop]
    by_cases hdone : blocks n ≤ j
    · have hpos : (n : ℤ) ≤ maxBytes * j := by
        have hle := blocks_le_iff.mp hdone
        omega
      obtain rfl := le_antisymm hj hdone
      rw [if_pos hpos, if_pos hread, List.drop_of_length_le (le_of_eq List.length_range)]
      simp
    · have hpos : ¬ (n : ℤ) ≤ maxBytes * j := by
        have hlt := mt blocks_le_iff.mpr hdone
        omega
      rw [if_neg hpos]
      by_cases hover : data.length < maxBytes * (j + 1)
      · have hle := Nat.mul_le_mul_left maxBytes (Nat.succ_le_of_lt (not_le.mp hdone))
        rw [if_pos hover, if_neg (not_le.mpr (lt_of_lt_of_le hover hle))]
      · rw [if_neg hover]
        dsimp only
        rw [ih (Nat.succ_le_of_lt (not_le.mp hdone)) (by omega) (not_lt.mp hover)]
        have hrange : (List.range (blocks n)).drop j =
            j :: (List.range (blocks n)).drop (j + 1) := by
          rw [List.drop_eq_getElem_cons (by rw [List.length_range]; omega), List.getElem_range]
        rw [hrange, List.flatMap_cons, List.append_assoc]

/-- A hit on an element whose length is that of its data. -/
theorem replay_eq {e : CacheElement} (hlen : e.len = e.data.length) :
    replay (fun n => .sent (extra n)) e =
      if maxBytes * blocks e.data.length ≤ e.data.length + 1 then
        some ((List.range (blocks e.data.length)).flatMap
          (fun i => (Blocks.block maxBytes (e.data ++ [nul]) i).take (extra i + 1)))
      else none := by
  have hfuel : blocks e.data.length ≤ 0 + e.data.length := by
    rw [blocks_le_iff]
    show e.data.length ≤ 4096 * (0 + e.data.length)
    omega
  rw [replay, hlen, Int.toNat_natCast, replayLoop_eq e.data.length (Nat.zero_le _) hfuel
    (Nat.zero_le _), List.length_append, List.drop_zero, List.nil_append]
  rfl

theorem nul_notMem_text (bytes : List Char) : nul ∉ text bytes := by
  intro hmem
  have hne := List.mem_takeWhile_imp hmem
  simp at hne

theorem text_cases (bytes : List Char) :
    bytes = text bytes ∨ ∃ rest, bytes = text bytes ++ nul :: rest := by
  induction bytes with
  | nil => exact Or.inl rfl
  | cons c bytes ih =>
    by_cases hc : c = nul
    · right
      refine ⟨bytes, ?_⟩
      rw [hc, text, List.takeWhile_cons_of_neg (by simp)]
      rfl
    · have htext : text (c :: bytes) = c :: text bytes :=
        List.takeWhile_cons_of_pos (by simpa using hc)
      rw [htext]
      rcases ih with heq | ⟨rest, heq⟩
      · exact Or.inl (congrArg (List.cons c) heq)
      · exact Or.inr ⟨rest, congrArg (List.cons c) heq⟩

theorem text_concat_nul (bytes : List Char) : text (bytes ++ [nul]) = text bytes := by
  rw [text, List.takeWhile_append]
  split
  case isTrue hall =>
    rw [List.takeWhile_cons_of_neg (by simp), List.append_nil]
    exact ((List.takeWhile_prefix _).eq_of_length hall).symm
  case isFalse => rfl

theorem length_text_le (bytes : List Char) : (text bytes).length ≤ bytes.length :=
  (List.takeWhile_prefix _).length_le

/-- What reaches no further than the NUL behind the text is the beginning of the
text and that NUL. -/
theorem eq_take_of_length_le {bytes : List Char} (h : bytes.length ≤ (text bytes).length + 1) :
    (text bytes ++ [nul]).take bytes.length = bytes := by
  obtain ⟨s, hs⟩ : ∃ s, s = text bytes := ⟨_, rfl⟩
  rw [← hs] at h ⊢
  rcases text_cases bytes with heq | ⟨rest, heq⟩
  · rw [← hs] at heq
    rw [heq, List.take_left]
  · rw [← hs] at heq
    rw [heq, List.length_append, List.length_cons] at h
    obtain rfl := List.length_eq_zero_iff.mp (by omega : rest.length = 0)
    rw [heq]
    exact List.take_length

/-- The replay is the response exactly where it lies in blocks. -/
theorem replay_eq_some_iff {bytes : List Char} {e : CacheElement} (hdata : e.data = text bytes)
    (hlen : e.len = (text bytes).length) :
    replay (fun n => .sent (extra n)) e = some bytes ↔ InBlocks bytes extra := by
  have hmem : (text bytes ++ [nul]).length = (text bytes).length + 1 := by simp
  have hlower := length_text_le bytes
  have hblocks := blocks_le_iff.mp (le_refl (blocks (text bytes).length))
  rw [replay_eq (by rw [hlen, hdata]), hdata]
  have hmain : bytes.length ≤ maxBytes * blocks (text bytes).length →
      maxBytes * blocks (text bytes).length ≤ (text bytes).length + 1 →
      ((List.range (blocks (text bytes).length)).flatMap
        (fun i => (Blocks.block maxBytes (text bytes ++ [nul]) i).take (extra i + 1)) = bytes ↔
      ∀ n, n < blocks (text bytes).length →
        min (extra n + 1) maxBytes = min (bytes.length - maxBytes * n) maxBytes) := by
    intro hreach hwithin
    have hlast : bytes.length < maxBytes * blocks (text bytes).length →
        ∀ x, (text bytes ++ [nul])[bytes.length]? = some x →
          x ∉ (text bytes ++ [nul]).take bytes.length := by
      intro hlt x hx
      have hend : bytes.length = (text bytes).length := by omega
      rw [hend, List.getElem?_concat_length] at hx
      rw [hend, List.take_left, ← Option.some.inj hx]
      exact nul_notMem_text bytes
    have hiff := Blocks.flatMap_take_block_eq_iff (k := fun i => extra i + 1)
      (by rw [hmem]; exact hwithin) hreach (by omega) hlast
    rw [eq_take_of_length_le (by omega)] at hiff
    exact hiff
  by_cases hwithin : maxBytes * blocks (text bytes).length ≤ (text bytes).length + 1
  · rw [if_pos hwithin]
    constructor
    · intro heq
      have hsent := Option.some.inj heq
      have hreach : bytes.length ≤ maxBytes * blocks (text bytes).length := by
        have hle := Blocks.length_flatMap_take_le maxBytes (text bytes ++ [nul])
          (fun i => extra i + 1) (blocks (text bytes).length)
        rwa [hsent] at hle
      exact ⟨hreach, hwithin, (hmain hreach hwithin).mp hsent⟩
    · intro h
      rw [(hmain h.reach hwithin).mpr h.taken]
  · rw [if_neg hwithin]
    exact iff_of_false (fun heq => by contradiction) (fun h => hwithin h.within)

end Replay

section Stored

/-- The element with the pointer still has its data. -/
structure Keeps (ptr : ℕ) (data : CString) (c : Cache) : Prop where
  lt : ptr < c.allocated
  data : ∀ e ∈ c.elements, e.ptr = ptr → e.data = data ∧ e.len = data.length

namespace Keeps

variable {ptr : ℕ} {data : CString} {c : Cache}

/-- The elements are old ones, but for their readings. -/
theorem subset (h : Keeps ptr data c) {c' : Cache} (hlt : c.allocated ≤ c'.allocated)
    (hsub : ∀ e ∈ c'.elements, e.ptr = ptr →
      ∃ e' ∈ c.elements, e'.ptr = ptr ∧ e.data = e'.data ∧ e.len = e'.len) :
    Keeps ptr data c' := by
  refine ⟨lt_of_lt_of_le h.lt hlt, ?_⟩
  intro e he hptr
  obtain ⟨e', he', hptr', hdata, hlen⟩ := hsub e he hptr
  rw [hdata, hlen]
  exact h.data e' he' hptr'

theorem find (h : Keeps ptr data c) (url : CString) (now : ℤ) :
    Keeps ptr data (V1.find c url now).2 := by
  apply h.subset (find_allocated c url now).ge
  intro x hx hptr
  obtain ⟨e, he, hsame, _, hdata, hlen⟩ := mem_find hx
  exact ⟨e, he, hsame.trans hptr, hdata.symm, hlen.symm⟩

theorem remove (h : Keeps ptr data c) : Keeps ptr data (removeCacheElement c) := by
  apply h.subset (le_of_eq (removeCacheElement_allocated c).symm)
  intro e he hptr
  exact ⟨e, (removeCacheElement_sublist c).subset he, hptr, rfl, rfl⟩

theorem step (h : Keeps ptr data c) {call : Call} {c' : Cache}
    (hstep : V1.step c call = some c') : Keeps ptr data c' := by
  cases call with
  | find url now =>
    cases hstep
    exact h.find url now
  | remove =>
    cases hstep
    exact h.remove
  | add data' size url now =>
    obtain ⟨⟨answer, c''⟩, hadd, rfl⟩ := Option.map_eq_some_iff.mp hstep
    rcases addCacheElement_cases hadd with ⟨_, _, rfl⟩ | ⟨_, _, _, c₁, hevict, rfl⟩
    · exact h
    · obtain ⟨h₁, _⟩ := evictLoop_invariant (Keeps ptr data) (fun c hc => remove hc) _ h hevict
      refine h₁.subset (Nat.le_succ _) ?_
      intro e he hptr
      rcases List.mem_cons.mp he with rfl | he
      · exact absurd hptr (ne_of_gt h₁.lt)
      · exact ⟨e, he, hptr, rfl, rfl⟩

theorem found (h : Keeps ptr data c) {url : CString} {now : ℤ} {e : CacheElement}
    (hfind : (V1.find c url now).1 = some e) (hptr : e.ptr = ptr) :
    e.data = data ∧ e.len = data.length := by
  rcases find_spec c url now with ⟨_, heq⟩ | ⟨front, x, back, helements, _, _, heq⟩
  · rw [heq] at hfind
    contradiction
  · rw [heq] at hfind
    cases hfind
    exact h.data x (by simp [helements]) hptr

end Keeps

def stored (c : Cache) (data : CString) (url : CString) (now : ℤ) : Cache :=
  ⟨⟨c.allocated, data, data.length, url, now⟩ :: c.elements,
    toInt (c.cacheSize + elementSize data.length url), c.allocated + 1⟩

theorem keeps_stored {c : Cache} (h : Allocated c) (data : CString) (url : CString) (now : ℤ) :
    Keeps c.allocated data (stored c data url now) := by
  refine ⟨Nat.lt_succ_self c.allocated, ?_⟩
  intro e he hptr
  rcases List.mem_cons.mp he with rfl | he
  · exact ⟨rfl, rfl⟩
  · exact absurd hptr (ne_of_lt (h.lt e he))

theorem find_stored (c : Cache) (data : CString) (url : CString) (now hitTime : ℤ) :
    (find (stored c data url now) url hitTime).1 =
      some ⟨c.allocated, data, data.length, url, hitTime⟩ := by
  have hplace : findPlace (stored c data url now) url = some 0 := by
    rw [findPlace, stored, List.findIdx?_cons]
    simp
  rw [find, hplace]
  rfl

/-- An element that may be stored goes to the head where there is room. -/
theorem lockedAdd_eq {c : Cache} {data : CString} {url : CString} {now : ℤ}
    (hfits : elementSize data.length url ≤ maxElementSize) :
    lockedAdd c data data.length url now =
      if Room c (elementSize data.length url) then some (1, stored c data url now) else none := by
  by_cases hroom : Room c (elementSize data.length url)
  · rw [if_pos hroom, lockedAdd, if_neg (fun hfull => hfull.2 hroom)]
    exact addCacheElement_of_evict now hfits (le_refl _) (evictLoop_of_room hroom _)
  · rw [if_neg hroom, lockedAdd, if_pos ⟨hfits, hroom⟩]

/-- A miss: the loop is defined for a bounded number of pieces, and the bytes sent
before the first NUL are offered to the cache. -/
theorem handleRequest_eq {turns : List (List Char × SendResult)} (hturns : ∀ t ∈ turns, IsTurn t)
    (c : Cache) (tempReq : CString) (now : ℤ) :
    handleRequest c turns tempReq now =
      if turns.length ≤ 524286 then
        some (turns.flatMap passedOn, lockedAdd c (text (turns.flatMap passedOn))
          (toInt (text (turns.flatMap passedOn)).length) tempReq now)
      else none := by
  rcases Relayed.run turns Relayed.start hturns with
    ⟨hfew, r, hrun, hrelayed, hclient⟩ | ⟨hmany, hnone⟩
  · rw [Nat.zero_add] at hfew hrelayed
    rw [Relay.start, List.nil_append] at hclient
    have hlength : r.tempBuffer.length ≤ 4095 * turns.length := hrelayed.length
    have hsize : r.tempBufferSize = 4096 * (turns.length + 1) := hrelayed.size
    have hwrite : r.write nul = some { r with tempBuffer := r.tempBuffer ++ [nul] } := by
      rw [Relay.write, Relay.index, if_neg (by omega), intResult_of_lt (by omega) (by omega)]
      rfl
    have hcstring : cstring (r.tempBuffer ++ [nul]) = some (text (turns.flatMap passedOn)) := by
      rw [cstring, if_pos (by simp), hrelayed.copied, hclient]
      exact congrArg some (text_concat_nul _)
    rw [handleRequest, hrun, if_pos hfew]
    simp only [Option.bind_eq_bind, Option.bind_some, hwrite, hcstring, hclient]
  · rw [handleRequest, hnone, if_neg (by omega)]
    rfl

end Stored

section Claim

variable {c : Cache} {turns : List (List Char × SendResult)} {tempReq : CString}

/-- The response is replayed exactly where it is sent whole, in not too many
pieces, and lies in blocks if it is stored. -/
theorem replays_iff {calls : List Call} (hc : Runs.run step Cache.empty calls = some c)
    (hturns : ∀ t ∈ turns, IsTurn t)
    (hsize : (text (response turns)).length + 1 + tempReq.length + sizeofCacheElement ≤
      maxElementSize)
    (extra : ℕ → ℕ) (now : ℤ) :
    Replays c turns extra tempReq now ↔ Exact c turns extra tempReq := by
  have hsizeof : sizeofCacheElement = 40 ∧ maxElementSize = 10485760 := ⟨rfl, rfl⟩
  have hfits : elementSize (text (response turns)).length tempReq ≤ maxElementSize := by
    rw [elementSize_eq (by omega) (by omega)]
    omega
  have hadd : lockedAdd c (text (response turns)) (toInt (text (response turns)).length)
      tempReq now = if Room c (elementSize (text (response turns)).length tempReq) then
        some (1, stored c (text (response turns)) tempReq now) else none := by
    rw [toInt_of_lt (by omega)]
    exact lockedAdd_eq hfits
  have hkeeps := keeps_stored (allocated_run hc) (text (response turns)) tempReq now
  have hrequest := handleRequest_eq hturns c tempReq now
  have hwhole := passedOn_eq_response_iff hturns
  constructor
  · rintro ⟨added, heq, hlater⟩
    rw [hrequest] at heq
    split at heq
    case isFalse => exact absurd heq.symm (Option.some_ne_none _)
    case isTrue hfew =>
      obtain ⟨hsent, hadded⟩ := Prod.mk.inj (Option.some.inj heq)
      rw [hsent, hadd] at hadded
      refine ⟨hwhole.mp hsent, hfew, ?_⟩
      intro hroom
      rw [if_pos hroom] at hadded
      have hreplay := hlater _ _ hadded.symm [] _ rfl now _ (find_stored c _ tempReq now now) rfl
      exact (replay_eq_some_iff rfl rfl).mp hreplay
  · intro h
    have hsent := hwhole.mpr h.whole
    rw [if_pos h.few, hsent, hadd] at hrequest
    refine ⟨_, hrequest, ?_⟩
    intro answer c' hadded calls later hrun hitTime e hfind hptr
    split at hadded
    case isFalse => exact absurd hadded.symm (Option.some_ne_none _)
    case isTrue hroom =>
      obtain ⟨_, rfl⟩ := Prod.mk.inj (Option.some.inj hadded)
      have hkept : Keeps c.allocated (text (response turns)) later :=
        Runs.run_invariant step _ (fun _ _ _ hs hstep => Keeps.step hs hstep) calls _ later hkeeps
          hrun
      obtain ⟨hdata, hlen⟩ := hkept.found hfind hptr
      exact (replay_eq_some_iff hdata hlen).mpr (h.inBlocks hroom)

/-- A response of one block without a NUL, received in two pieces. -/
theorem replays_iff_block : ∃ turns, (response turns).length = 4096 ∧
    Replays Cache.empty turns (fun _ => 4095) "u".toList 0 := by
  obtain ⟨buf, hlength, ha⟩ : ∃ buf : List Char, buf.length = 2048 ∧ ∀ c ∈ buf, c = 'a' :=
    ⟨List.replicate 2048 'a', List.length_replicate, fun _ => List.eq_of_mem_replicate⟩
  obtain ⟨turns, hturns⟩ : ∃ turns : List (List Char × SendResult),
      turns = [(buf, .sent 2047), (buf, .sent 2047)] := ⟨_, rfl⟩
  have hresponse : response turns = buf ++ buf := by simp [response, hturns]
  have htext : text (buf ++ buf) = buf ++ buf := by
    apply List.takeWhile_eq_self_iff.mpr
    intro c hc
    rw [ha c ((List.mem_append.mp hc).elim id id)]
    decide
  have hsize : (buf ++ buf).length = 4096 := by rw [List.length_append, hlength]
  have hturn : ∀ t ∈ turns, t = (buf, .sent 2047) := by simp [hturns]
  have hexact : Exact Cache.empty turns (fun _ => 4095) "u".toList := by
    refine ⟨?_, by simp [hturns], fun _ => ?_⟩
    · intro t ht
      rw [hturn t ht]
      exact List.take_of_length_le (le_of_eq hlength)
    · rw [hresponse]
      refine ⟨?_, ?_, ?_⟩
      · rw [htext, hsize]
        decide
      · rw [htext, hsize]
        decide
      · intro n hn
        rw [htext, hsize] at hn
        rw [hsize, Nat.lt_one_iff.mp hn]
        decide
  refine ⟨turns, by rw [hresponse, hsize], ?_⟩
  apply (replays_iff (rfl : Runs.run step Cache.empty [] = some Cache.empty) ?_ ?_ _ 0).mpr hexact
  · intro t ht
    rw [hturn t ht]
    exact ⟨by rw [hlength]; decide, by rw [hlength]; decide, 2047, rfl⟩
  · rw [hresponse, htext, hsize]
    decide

/-- The hit on a response of one byte reads 4096 bytes of an allocation of two. -/
theorem short_response_overread : ¬ ∀ turns extra, (∀ t ∈ turns, IsTurn t) →
    Replays Cache.empty turns extra "GET http://h/ HTTP/1.0\r\n\r\n".toList 0 := by
  intro hall
  obtain ⟨tempReq, hreq⟩ : ∃ tempReq, tempReq = "GET http://h/ HTTP/1.0\r\n\r\n".toList := ⟨_, rfl⟩
  rw [← hreq] at hall
  have hturns : ∀ t ∈ [("a".toList, SendResult.sent 0)], IsTurn t := by
    intro t ht
    rw [List.mem_singleton.mp ht]
    exact ⟨by decide, by decide, 0, rfl⟩
  obtain ⟨added, hrequest, hlater⟩ := hall _ (fun _ => 4095) hturns
  have hmiss : handleRequest Cache.empty [("a".toList, .sent 0)] tempReq 0 =
      some ("a".toList, some (1, stored Cache.empty "a".toList tempReq 0)) := by
    have hadd : lockedAdd Cache.empty "a".toList (toInt 1) tempReq 0 =
        some (1, stored Cache.empty "a".toList tempReq 0) := by
      rw [hreq]
      decide
    rw [handleRequest_eq hturns, if_pos (by decide), ← hadd]
    rfl
  have hadded := (Prod.mk.inj (Option.some.inj (hmiss.symm.trans hrequest))).2
  have hreplay := hlater 1 _ hadded.symm [] _ rfl 0 _ (find_stored _ _ _ 0 0) rfl
  have hhit : replay (fun _ => .sent 4095) ⟨0, "a".toList, 1, tempReq, 0⟩ = none := by
    rw [hreq]
    decide
  have hsome : replay (fun _ => .sent 4095) ⟨0, "a".toList, 1, tempReq, 0⟩ =
      some (response [("a".toList, .sent 0)]) := hreplay
  rw [hhit] at hsome
  exact absurd hsome.symm (Option.some_ne_none _)

end Claim

end ProxyServer.V1
