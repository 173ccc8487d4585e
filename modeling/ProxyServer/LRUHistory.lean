import ProxyServer.LRUCache

/-!
Whole runs of the LRU cache. From the empty cache every sequence of calls is
defined; list and map hold what the reference cache ranked by last touch holds,
in its order, and an insertion into a full cache drops the URL touched longest
ago. A larger cache holds everything a smaller one does after the same calls.
-/
namespace ProxyServer.LRUCache

open CacheElement RefCache

def history (cap : ℕ) (ops : List CacheOp) : RefCache CString :=
  RefCache.run lruRank cap (ops.map CacheOp.access)

/-- A well-formed cache of capacity `cap` whose list is the recency order of
the residents of `r`. -/
structure Tracks (cap : ℕ) (c : LRUCache) (r : RefCache CString) : Prop where
  wellFormed : c.WellFormed
  capacity : c.capacity = cap
  orders : RecencyList.Orders c.urls r
  bound : c.urls.length ≤ cap

theorem Tracks.create (cap : ℕ) : Tracks cap (create cap) RefCache.empty :=
  ⟨create_wellFormed cap, rfl, RecencyList.orders_empty, Nat.zero_le _⟩

theorem Tracks.step {cap : ℕ} {c : LRUCache} {r : RefCache CString} (h : Tracks cap c r)
    (hcap : 1 ≤ cap) (op : CacheOp) :
    ∃ c', c.step op = some c' ∧ Tracks cap c' (r.step lruRank cap op.access) := by
  have hc : 1 ≤ c.capacity := h.capacity ▸ hcap
  obtain ⟨c', hstep, hwf, hcapacity, hurls⟩ := step_spec h.wellFormed hc op
  rw [h.capacity] at hcapacity hurls
  refine ⟨c', hstep, hwf, hcapacity, ?_, ?_⟩
  · rw [hurls]
    exact h.orders.step cap hcap op.access
  · rw [hurls]
    exact RecencyList.length_step cap c.urls op.access hcap h.bound

theorem exists_run_tracks (cap : ℕ) (hcap : 1 ≤ cap) (ops : List CacheOp) :
    ∃ c, Runs.run step (create cap) ops = some c ∧ Tracks cap c (history cap ops) := by
  obtain ⟨c, r, hrun, hr, htracks⟩ := Runs.run_simulation step
    (fun r op => some (RefCache.step lruRank cap r op.access)) (Tracks cap)
    (fun c r op h => by
      obtain ⟨c', hstep, h'⟩ := h.step hcap op
      exact ⟨c', _, hstep, rfl, h'⟩) ops (create cap) RefCache.empty (Tracks.create cap)
  rw [Runs.run_some] at hr
  refine ⟨c, hrun, ?_⟩
  have heq : history cap ops = r := by
    rw [history, RefCache.run, List.foldl_map]
    exact Option.some.inj hr
  rw [heq]
  exact htracks

/-- A find misses exactly when its URL is not resident, and a hit is the
element of that URL. -/
theorem Tracks.find {cap : ℕ} {c : LRUCache} {r : RefCache CString} (h : Tracks cap c r)
    (url : CString) (now : ℤ) :
    ∃ c' answer, c.find url now = some (c', answer) ∧
      (answer = none ↔ url ∉ r.resident) ∧ ∀ e, answer = some e → e.url = url := by
  rcases find_cases h.wellFormed url now with ⟨hmem, hfind⟩ | ⟨e, he, rfl, hfind⟩
  · refine ⟨c, none, hfind, ?_, by simp⟩
    simpa using mt (h.orders.mem_iff url).mpr hmem
  · refine ⟨_, _, hfind, ?_, ?_⟩
    · have hmem : e.url ∈ r.resident := (h.orders.mem_iff _).mp (List.mem_map_of_mem he)
      simpa using hmem
    · intro x hx
      rw [← Option.some.inj hx]

/-- An add of an absent URL to a full cache replaces the URL touched longest
ago and no other. -/
theorem Tracks.add_full {cap : ℕ} {c : LRUCache} {r : RefCache CString} (h : Tracks cap c r)
    (hcap : 1 ≤ cap) (url : CString) (data : List Char) (len now : ℤ)
    (habsent : url ∉ r.resident) (hfull : r.resident.card = cap) :
    ∃ c' v, c.add url data len now = some c' ∧ r.IsVictim lruRank v ∧
      ∀ u, u ∈ c'.urls ↔ u = url ∨ (u ∈ r.resident ∧ u ≠ v) := by
  have hc : 1 ≤ c.capacity := h.capacity ▸ hcap
  have hlen : c.cacheList.length = cap := by
    have hcard := h.orders.card
    simp only [urls, List.length_map] at hcard
    omega
  have hmem : url ∉ c.urls := mt (h.orders.mem_iff url).mp habsent
  rcases add_cases h.wellFormed hc url data len now with
    ⟨e, he, rfl, _⟩ | ⟨_, hlt, _⟩ | ⟨_, _, l, v, hl, hadd⟩
  · exact absurd (List.mem_map_of_mem he) hmem
  · have := h.capacity
    omega
  · have hurls : c.urls = l.map (·.url) ++ [v.url] := by simp [urls, hl]
    have horders := h.orders
    rw [hurls] at horders
    refine ⟨_, v.url, hadd, horders.last_isVictim, ?_⟩
    intro u
    have hv : v.url ∉ l.map (·.url) := by
      have hnodup := horders.nodup
      rw [List.nodup_append] at hnodup
      exact fun hv => hnodup.2.2 v.url hv v.url (by simp) rfl
    rw [urls_pushFront, List.mem_cons, ← h.orders.mem_iff, hurls]
    simp only [LRUCache.urls, List.mem_append, List.mem_singleton]
    constructor
    · intro hu
      rcases hu with hu | hu
      · exact Or.inl hu
      · exact Or.inr ⟨Or.inl hu, fun heq => hv (heq ▸ hu)⟩
    · intro hu
      rcases hu with hu | ⟨hu, hne⟩
      · exact Or.inl hu
      · exact Or.inr (hu.resolve_right hne)

/-- After any calls on the empty cache, list and map hold exactly the residents
of the reference cache, most recently touched first; finds answer by residency
and an insertion into a full cache evicts the URL touched longest ago. -/
theorem lru_holds_recency_order (cap : ℕ) (hcap : 1 ≤ cap) (ops : List CacheOp) :
    ∃ c, Runs.run step (create cap) ops = some c ∧
      c.urls.Nodup ∧
      (∀ url, url ∈ c.urls ↔ url ∈ (history cap ops).resident) ∧
      c.urls.Pairwise (fun j k => (history cap ops).lastTouch k < (history cap ops).lastTouch j) ∧
      (∀ url, url ∈ c.cacheMap ↔ url ∈ c.urls) ∧
      (∀ url it, c.cacheMap.lookup url = some it →
        ∃ e, deref c.cacheList it = some e ∧ e.url = url) ∧
      c.urls.length ≤ cap ∧
      (∀ url now, ∃ c' answer, c.find url now = some (c', answer) ∧
        (answer = none ↔ url ∉ (history cap ops).resident) ∧
        ∀ e, answer = some e → e.url = url) ∧
      (∀ url data len now, url ∉ (history cap ops).resident →
        (history cap ops).resident.card = cap →
        ∃ c' v, c.add url data len now = some c' ∧ (history cap ops).IsVictim lruRank v ∧
          ∀ u, u ∈ c'.urls ↔ u = url ∨ (u ∈ (history cap ops).resident ∧ u ≠ v)) := by
  obtain ⟨c, hrun, h⟩ := exists_run_tracks cap hcap ops
  refine ⟨c, hrun, h.orders.nodup, h.orders.mem_iff, h.orders.decreasing,
    h.wellFormed.mem_cacheMap, ?_, h.bound, h.find, h.add_full hcap⟩
  intro url it hlookup
  obtain ⟨e, he, hu, hp⟩ := (h.wellFormed.map_iff url it).mp hlookup
  exact ⟨e, hp ▸ deref_of_mem h.wellFormed.ptrs he, hu⟩

theorem lru_holds_recency_order_two :
    ∃ c, Runs.run step (create 2) [.add ['a'] ['x'] 1 0, .add ['b'] ['y'] 1 0,
        .find ['a'] 1, .add ['c'] ['z'] 1 2] = some c ∧ ['b'] ∉ c.urls := by
  obtain ⟨c, hrun, _, hmem, _⟩ := lru_holds_recency_order 2 (by decide)
    [.add ['a'] ['x'] 1 0, .add ['b'] ['y'] 1 0, .find ['a'] 1, .add ['c'] ['z'] 1 2]
  exact ⟨c, hrun, mt (hmem _).mp (by decide)⟩

section Inclusion

/-- Two caches under the same calls, the second of larger capacity. -/
structure Contains (cap cap' : ℕ) (c c' : LRUCache) : Prop where
  small : c.WellFormed
  large : c'.WellFormed
  capacity : c.capacity = cap
  capacity' : c'.capacity = cap'
  includes : RecencyList.Includes cap cap' c.urls c'.urls

theorem Contains.step {cap cap' : ℕ} {c c' : LRUCache} (h : Contains cap cap' c c')
    (hcap : 1 ≤ cap) (hle : cap ≤ cap') (op : CacheOp) :
    ∃ d d', c.step op = some d ∧ c'.step op = some d' ∧ Contains cap cap' d d' := by
  have hc : 1 ≤ c.capacity := h.capacity ▸ hcap
  have hc' : 1 ≤ c'.capacity := h.capacity' ▸ le_trans hcap hle
  obtain ⟨d, hd, hwf, hcapacity, hurls⟩ := step_spec h.small hc op
  obtain ⟨d', hd', hwf', hcapacity', hurls'⟩ := step_spec h.large hc' op
  rw [h.capacity] at hcapacity hurls
  rw [h.capacity'] at hcapacity' hurls'
  refine ⟨d, d', hd, hd', hwf, hwf', hcapacity, hcapacity', ?_⟩
  rw [hurls, hurls']
  exact h.includes.step hcap hle op.access

/-- Enlarging the cache never loses a resident or a hit. -/
theorem lru_larger_contains_smaller (cap cap' : ℕ) (hcap : 1 ≤ cap) (hle : cap ≤ cap')
    (ops : List CacheOp) :
    ∃ c c', Runs.run step (create cap) ops = some c ∧
      Runs.run step (create cap') ops = some c' ∧
      (∀ url ∈ c.urls, url ∈ c'.urls) ∧
      (∀ url now d e, c.find url now = some (d, some e) →
        ∃ d' e', c'.find url now = some (d', some e')) := by
  obtain ⟨c, c', hrun, hrun', h⟩ := Runs.run_simulation step step (Contains cap cap')
    (fun c c' op h => h.step hcap hle op) ops (create cap) (create cap')
    ⟨create_wellFormed cap, create_wellFormed cap', rfl, rfl, RecencyList.includes_nil hle⟩
  refine ⟨c, c', hrun, hrun', fun url hurl => h.includes.sublist.subset hurl, ?_⟩
  intro url now d e hhit
  rcases find_cases h.small url now with ⟨_, hmiss⟩ | ⟨x, hx, rfl, _⟩
  · rw [hmiss] at hhit
    simp at hhit
  · have hmem : x.url ∈ c'.urls := h.includes.sublist.subset (List.mem_map_of_mem hx)
    rcases find_cases h.large x.url now with ⟨hnot, _⟩ | ⟨y, _, _, hfind⟩
    · exact absurd hmem hnot
    · exact ⟨_, _, hfind⟩

theorem lru_larger_contains_smaller_one_two :
    ∃ c c', Runs.run step (create 1) [.add ['a'] [] 0 0, .add ['b'] [] 0 0] = some c ∧
      Runs.run step (create 2) [.add ['a'] [] 0 0, .add ['b'] [] 0 0] = some c' ∧
      ∀ url ∈ c.urls, url ∈ c'.urls := by
  obtain ⟨c, c', hrun, hrun', hsub, _⟩ := lru_larger_contains_smaller 1 2 (by decide)
    (by decide) [.add ['a'] [] 0 0, .add ['b'] [] 0 0]
  exact ⟨c, c', hrun, hrun', hsub⟩

end Inclusion

end ProxyServer.LRUCache
