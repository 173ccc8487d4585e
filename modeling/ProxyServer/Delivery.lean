import ProxyServer.ProxyUtils
import ProxyServer.Runs
import Mathlib.Logic.Function.Basic

/-!
What clients are sent over a whole run of workers on one cache. A worker that
misses fetches the response itself, passes it on as it comes and adds it in the
end; the finds and adds of the workers come in any order. What the cache holds
under a key is the whole response of some fetch of that key that ended with
`recv` = 0.
-/
namespace ProxyServer

open CStrings ProxyUtils

namespace Delivery

/-- What a client was sent: the element found, or the pieces of a fetch that
ended with `recv` = 0 or with an error. -/
inductive Sent
  | hit (url : CString) (wire : List Char)
  | fetched (url : CString) (pieces : List (List Char)) (closed : Bool) (wire : List Char)

/-- The cache, the keys that workers are fetching, and what was sent so far. -/
structure State (W : Type) where
  cache : CacheStrategy
  fetching : W → Option CString
  log : List Sent

/-- A worker's find, or the end of its fetch with the pieces `recv` gave. -/
inductive Label (W : Type)
  | find (w : W) (url : CString) (now : ℤ) (send : ℕ → SendResult)
  | fetch (w : W) (pieces : List (List Char)) (closed : Bool) (now : ℤ) (send : ℕ → SendResult)

def answers (pieces : List (List Char)) (closed : Bool) : List RecvResult :=
  pieces.map .data ++ [if closed then .data [] else .error]

variable {W : Type} [DecidableEq W]

def start (cache : CacheStrategy) : State W := ⟨cache, fun _ => none, []⟩

/-- `none` where the worker is not at the label, or does not return from it. -/
def step (s : State W) : Label W → Option (State W)
  | .find w url now send =>
      if s.fetching w = none then
        match s.cache.find url now with
        | none => none
        | some (cache, none) =>
            some ⟨cache, Function.update s.fetching w (some url), s.log⟩
        | some (cache, some response) =>
            match writeToSocket send response.data response.len ⟨0, []⟩ with
            | .error _ => none
            | .ok newsockfd => some ⟨cache, s.fetching, s.log ++ [.hit url newsockfd.wire]⟩
      else none
  | .fetch w pieces closed now send =>
      match s.fetching w with
      | none => none
      | some url =>
          match writeToClient send (answers pieces closed) s.cache url now ⟨0, []⟩ with
          | .error _ => none
          | .ok (cache, newsockfd) => some ⟨cache, Function.update s.fetching w none,
              s.log ++ [.fetched url pieces closed newsockfd.wire]⟩

def Enabled (s : State W) : Label W → Prop
  | .find w _ _ _ => s.fetching w = none
  | .fetch w _ _ _ _ => s.fetching w ≠ none

/-- Every `send` takes something; pieces are not empty and stay below 2 GiB. -/
def Regular : Label W → Prop
  | .find _ _ _ send => ∀ k, ∃ extra, send k = .sent extra
  | .fetch _ pieces _ _ send => (∀ k, ∃ extra, send k = .sent extra) ∧ [] ∉ pieces ∧
      pieces.flatten.length < 2 ^ 31

/-- The response was fetched whole under the key. -/
def Completed (log : List Sent) (url : CString) (response : List Char) : Prop :=
  ∃ pieces wire, Sent.fetched url pieces true wire ∈ log ∧ pieces.flatten = response

/-- What a step from `s` to `s'` owes the client: a hit is a response fetched
whole before, a fetch that is closed is sent whole, and one that fails leaves
the cache alone. -/
def Delivers (s s' : State W) : Label W → Prop
  | .find w url _ _ => (s'.log = s.log ∧ s'.fetching w = some url) ∨
      ∃ wire, s'.log = s.log ++ [.hit url wire] ∧ Completed s.log url wire
  | .fetch w pieces closed _ _ => ∃ url wire, s.fetching w = some url ∧
      s'.log = s.log ++ [.fetched url pieces closed wire] ∧
      (closed = true → wire = pieces.flatten) ∧ (closed = false → s'.cache = s.cache)

/-- The cache is well formed and its elements are completed fetches. -/
structure Holds (s : State W) : Prop where
  cache : s.cache.WellFormed
  elements : ∀ e ∈ s.cache.elements, e.len = e.data.length ∧ Completed s.log e.url e.data

omit [DecidableEq W] in
theorem holds_start {cache : CacheStrategy} (h : cache.WellFormed) (hempty : cache.elements = []) :
    Holds (start cache : State W) := by
  refine ⟨h, ?_⟩
  intro e he
  have hnil : e ∈ [] := hempty ▸ he
  contradiction

theorem Completed.append {log : List Sent} {url : CString} {response : List Char}
    (h : Completed log url response) (log' : List Sent) : Completed (log ++ log') url response := by
  obtain ⟨pieces, wire, hmem, heq⟩ := h
  exact ⟨pieces, wire, List.mem_append_left _ hmem, heq⟩

theorem response_answers {pieces : List (List Char)} (h : [] ∉ pieces) (closed : Bool) :
    response (answers pieces closed) = (pieces.flatten, closed) := by
  induction pieces with
  | nil => cases closed <;> rfl
  | cons piece pieces ih =>
    obtain ⟨c, bytes, rfl⟩ := List.exists_cons_of_ne_nil
      (fun hnil => h (hnil ▸ List.mem_cons_self) : piece ≠ [])
    have hrest := ih (fun hc => h (List.mem_cons_of_mem _ hc))
    have hcons : answers ((c :: bytes) :: pieces) closed =
        .data (c :: bytes) :: answers pieces closed := rfl
    rw [hcons, response, hrest, List.flatten_cons]

omit [DecidableEq W] in
/-- After a call the elements are completed fetches when the one added is. -/
theorem Holds.call {s : State W} (h : Holds s) {op : CacheOp} {cache : CacheStrategy}
    (hstep : s.cache.step op = some cache) (sent : List Sent)
    (hadd : ∀ url data len now, op = .add url data len now →
      len = data.length ∧ Completed (s.log ++ sent) url data) :
    cache.WellFormed ∧
      ∀ e ∈ cache.elements, e.len = e.data.length ∧ Completed (s.log ++ sent) e.url e.data := by
  obtain ⟨cache', hcache', hwf, _⟩ := CacheStrategy.step_spec h.cache op
  obtain rfl : cache = cache' := Option.some.inj (hstep.symm.trans hcache')
  refine ⟨hwf, ?_⟩
  intro e he
  rcases CacheStrategy.step_elements h.cache hstep he with
    ⟨x, hx, hsame⟩ | ⟨url, data, len, now, p, rfl, rfl, _⟩
  · obtain ⟨hlen, hcompleted⟩ := h.elements x hx
    rw [hsame.len, hsame.data, hsame.url]
    exact ⟨hlen, hcompleted.append sent⟩
  · obtain ⟨rfl, hcompleted⟩ := hadd url data len now rfl
    have htake : data.take (data.length : ℤ).toNat = data := by
      rw [Int.toNat_natCast, List.take_length]
    rw [CacheElement.make, htake]
    exact ⟨rfl, hcompleted⟩

/-- A find returns, and a hit sends a completed response. -/
theorem find_spec {s : State W} (h : Holds s) {w : W} (hidle : s.fetching w = none)
    (url : CString) (now : ℤ) {send : ℕ → SendResult} (hsend : ∀ k, ∃ extra, send k = .sent extra) :
    ∃ s', step s (.find w url now send) = some s' ∧ Holds s' ∧
      Delivers s s' (.find w url now send) := by
  obtain ⟨cache, answer, hfind, hstep, _⟩ := CacheStrategy.find_spec h.cache url now
  rw [step, if_pos hidle, hfind]
  cases answer with
  | none =>
    obtain ⟨hwf, helements⟩ := h.call hstep [] (by simp)
    rw [List.append_nil] at helements
    exact ⟨_, rfl, ⟨hwf, helements⟩, Or.inl ⟨rfl, Function.update_self ..⟩⟩
  | some response =>
    obtain ⟨x, hx, rfl, rfl⟩ := CacheStrategy.find_answer h.cache hfind
    obtain ⟨hlen, hcompleted⟩ := h.elements x hx
    obtain ⟨newsockfd, hsocket, hwire⟩ := writeToSocket_wire hsend hlen ⟨0, []⟩
    obtain ⟨hwf, helements⟩ := h.call hstep [.hit x.url newsockfd.wire] (by simp)
    dsimp only
    rw [hsocket]
    refine ⟨_, rfl, ⟨hwf, helements⟩, Or.inr ⟨newsockfd.wire, rfl, ?_⟩⟩
    rw [hwire, List.nil_append]
    exact hcompleted

/-- A fetch returns; closed, it is sent whole and may be added, and failed, it
leaves the cache alone. -/
theorem fetch_spec {s : State W} (h : Holds s) {w : W} {url : CString}
    (hfetching : s.fetching w = some url) {pieces : List (List Char)} (hpieces : [] ∉ pieces)
    (hsize : pieces.flatten.length < 2 ^ 31) (closed : Bool) (now : ℤ) {send : ℕ → SendResult}
    (hsend : ∀ k, ∃ extra, send k = .sent extra) :
    ∃ s', step s (.fetch w pieces closed now send) = some s' ∧ Holds s' ∧
      Delivers s s' (.fetch w pieces closed now send) := by
  obtain ⟨newsockfd, hloop, hwire⟩ :=
    recvLoop_wire hsend (answers pieces closed) [] ⟨0, []⟩
  rw [response_answers hpieces closed, List.nil_append] at hloop hwire
  have hsent : newsockfd.wire = pieces.flatten := hwire
  rw [step, hfetching]
  dsimp only
  rcases writeToClient_cases h.cache hloop hsize url now with
    ⟨rfl, hclient⟩ | ⟨rfl, cache, hstep, hclient⟩
  · rw [hclient]
    refine ⟨_, rfl, ⟨h.cache, ?_⟩, url, newsockfd.wire, hfetching, rfl, by simp, fun _ => rfl⟩
    intro e he
    obtain ⟨hlen, hcompleted⟩ := h.elements e he
    exact ⟨hlen, hcompleted.append _⟩
  · have hcompleted : Completed (s.log ++ [.fetched url pieces true newsockfd.wire]) url
        pieces.flatten :=
      ⟨pieces, newsockfd.wire, List.mem_append_right _ List.mem_cons_self, rfl⟩
    obtain ⟨hwf, helements⟩ := h.call hstep [.fetched url pieces true newsockfd.wire] (by
      intro url' data len now' hop
      cases hop
      exact ⟨rfl, hcompleted⟩)
    rw [hclient]
    exact ⟨_, rfl, ⟨hwf, helements⟩, url, newsockfd.wire, hfetching, rfl, fun _ => hsent, by simp⟩

theorem step_spec {s : State W} (h : Holds s) {l : Label W} (hregular : Regular l)
    (henabled : Enabled s l) : ∃ s', step s l = some s' ∧ Holds s' ∧ Delivers s s' l := by
  cases l with
  | find w url now send => exact find_spec h henabled url now hregular
  | fetch w pieces closed now send =>
    obtain ⟨hsend, hpieces, hsize⟩ := hregular
    obtain ⟨url, hurl⟩ := Option.ne_none_iff_exists'.mp henabled
    exact fetch_spec h hurl hpieces hsize closed now hsend

theorem enabled_of_step {s s' : State W} {l : Label W} (h : step s l = some s') : Enabled s l := by
  cases l with
  | find w url now send =>
    rw [step] at h
    split at h
    · assumption
    · contradiction
  | fetch w pieces closed now send =>
    intro hidle
    rw [step, hidle] at h
    contradiction

/-- What the cache holds is completed fetches, in every state a run reaches. -/
theorem run_holds {cache : CacheStrategy} (hcache : cache.WellFormed) (hempty : cache.elements = [])
    {labels : List (Label W)} (hlabels : ∀ l ∈ labels, Regular l) {s : State W}
    (hrun : Runs.run step (start cache) labels = some s) : Holds s := by
  apply Runs.run_invariant_of_everyStep step Holds (fun _ l => Regular l) ?_ labels (start cache) s
    (holds_start hcache hempty)
    (Runs.everyStep_of_forall step _ labels (fun l hl _ => hlabels l hl) _) hrun
  intro t l t' ht hl hstep
  obtain ⟨t₁, ht₁, hholds, _⟩ := step_spec ht hl (enabled_of_step hstep)
  rwa [Option.some.inj (hstep.symm.trans ht₁)]

/-- In every run of workers on an LRU cache, each further step returns: a miss
that is closed sends the response whole, a hit sends a response that was fetched
whole for its key, and a fetch that fails leaves the cache alone. -/
theorem lru_delivers {capacity : ℕ} (hc : 1 ≤ capacity) {labels : List (Label W)}
    (hlabels : ∀ l ∈ labels, Regular l) {s : State W}
    (hrun : Runs.run step (start (.lru (LRUCache.create capacity))) labels = some s) {l : Label W}
    (hregular : Regular l) (henabled : Enabled s l) :
    ∃ s', step s l = some s' ∧ Delivers s s' l := by
  have hwf : (CacheStrategy.lru (LRUCache.create capacity)).WellFormed :=
    ⟨hc, LRUCache.create_wellFormed capacity⟩
  have hholds := run_holds hwf rfl hlabels hrun
  obtain ⟨s', hstep, _, hdelivers⟩ := step_spec hholds hregular henabled
  exact ⟨s', hstep, hdelivers⟩

/-- Two workers fetch a key at once, and a third finds it. -/
theorem lru_delivers_concurrent :
    let send : ℕ → SendResult := fun _ => .sent 0
    let labels : List (Label (Fin 3)) := [.find 0 "h/".toList 0 send, .find 1 "h/".toList 0 send,
      .fetch 1 ["ab".toList, "c".toList] true 1 send, .fetch 0 ["d".toList] true 2 send]
    ∃ s, Runs.run step (start (.lru (LRUCache.create 1))) labels = some s ∧
      ∃ s', step s (.find 2 "h/".toList 3 send) = some s' ∧
        Delivers s s' (.find 2 "h/".toList 3 send) := by
  intro send labels
  have hsend : ∀ k, ∃ extra, send k = .sent extra := fun _ => ⟨0, rfl⟩
  have hlabels : ∀ l ∈ labels, Regular l := by
    intro l hl
    simp only [labels, List.mem_cons, List.not_mem_nil, or_false] at hl
    rcases hl with rfl | rfl | rfl | rfl
    · exact hsend
    · exact hsend
    · exact ⟨hsend, by decide, by decide⟩
    · exact ⟨hsend, by decide, by decide⟩
  obtain ⟨s, hs, hidle⟩ : ∃ s, Runs.run step (start (.lru (LRUCache.create 1))) labels = some s ∧
      s.fetching 2 = none := ⟨_, rfl, rfl⟩
  exact ⟨s, hs, lru_delivers (by decide) hlabels hs hsend hidle⟩

end Delivery

end ProxyServer
