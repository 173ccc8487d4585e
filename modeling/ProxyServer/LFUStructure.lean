import ProxyServer.CacheStrategy

/-!
The structure of the LFU cache along a run: list and map agree, and no more
URLs are resident than the capacity allows. Both hold whatever frequencies the
nodes have.
-/
namespace ProxyServer.LFUCache

open CacheElement FrequencyList

theorem length_le_of_subset {c : LFUCache} (h : c.WellFormed) {us : List CString}
    (hsub : c.urls ⊆ us) : c.urls.length ≤ us.length :=
  (List.subperm_of_subset h.urls hsub).length_le

theorem urls_subset_of_elements {c c' : LFUCache}
    (h : ∀ x ∈ elements c'.frequencyList, ∃ y ∈ elements c.frequencyList, y.url = x.url) :
    c'.urls ⊆ c.urls := by
  intro u hu
  obtain ⟨x, hx, rfl⟩ := List.mem_map.mp hu
  obtain ⟨y, hy, hyx⟩ := h x hx
  exact hyx ▸ List.mem_map_of_mem hy

theorem length_pushFront {c : LFUCache} (h : c.WellFormed) {url : CString} (hurl : url ∉ c.urls)
    {data : List Char} {len now : ℤ} {c' : LFUCache}
    (hpush : c.pushFront url data len now = some c') : c'.urls.length ≤ c.urls.length + 1 := by
  obtain ⟨c₁, hc₁, hwf, _, helements⟩ := pushFront_spec h hurl data len now
  cases hpush.symm.trans hc₁
  show c'.urls.length ≤ (url :: c.urls).length
  apply length_le_of_subset hwf
  intro u hu
  obtain ⟨x, hx, rfl⟩ := List.mem_map.mp hu
  rcases (helements x).mp hx with rfl | hx
  · exact List.mem_cons_self
  · exact List.mem_cons_of_mem _ (List.mem_map_of_mem hx)

theorem length_evict {c c₁ : LFUCache} (h : c.WellFormed) (h₁ : c₁.WellFormed) {v : CacheElement}
    (hv : v ∈ elements c.frequencyList)
    (hdrop : ∀ x, x ∈ elements c₁.frequencyList ↔ x ∈ elements c.frequencyList ∧ x ≠ v) :
    c₁.urls.length + 1 ≤ c.urls.length := by
  have hvurl : v.url ∉ c₁.urls := by
    intro hin
    obtain ⟨x, hx, hxv⟩ := List.mem_map.mp hin
    obtain ⟨hxl, hne⟩ := (hdrop x).mp hx
    exact hne (eq_of_url h.urls hxl hv hxv)
  have hsub : v.url :: c₁.urls ⊆ c.urls := by
    intro u hu
    rcases List.mem_cons.mp hu with rfl | hu
    · exact List.mem_map_of_mem hv
    · exact urls_subset_of_elements (fun x hx => ⟨x, ((hdrop x).mp hx).1, rfl⟩) hu
  exact (List.subperm_of_subset (List.nodup_cons.mpr ⟨hvurl, h₁.urls⟩) hsub).length_le

/-- No call makes more URLs resident than the capacity. -/
theorem length_step {c c' : LFUCache} (h : c.WellFormed) (hc : 1 ≤ c.capacity)
    (hlen : c.urls.length ≤ c.capacity) {op : CacheOp} (hstep : c.step op = some c') :
    c'.WellFormed ∧ c'.capacity = c.capacity ∧ c'.urls.length ≤ c.capacity := by
  cases op with
  | find url now =>
    rcases find_cases h url now with ⟨_, hfind⟩ | ⟨c₁, e, _, rfl, hfind, hwf, hcap, helements⟩
    · rw [step, hfind] at hstep
      cases hstep
      exact ⟨h, rfl, hlen⟩
    · rw [step, hfind] at hstep
      cases hstep
      refine ⟨hwf, hcap, le_trans (length_le_of_subset hwf (urls_subset_of_elements ?_)) hlen⟩
      intro x hx
      obtain ⟨y, hy, rfl⟩ := (helements x).mp hx
      exact ⟨y, hy, (retime_url _ _ _).symm⟩
  | add url data len now =>
    rcases add_cases h hc url data len now with
      ⟨_, c₁, hadd, hwf, hcap, helements⟩ | ⟨hmem, hlt, hadd⟩ | ⟨hmem, hfull, hne, hadd⟩
    · cases hstep.symm.trans hadd
      refine ⟨hwf, hcap, le_trans (length_le_of_subset hwf (urls_subset_of_elements ?_)) hlen⟩
      exact fun x hx => ⟨x, (helements x).mp hx, rfl⟩
    · obtain ⟨c₁, hpush, hwf, hcap, _⟩ := pushFront_spec h hmem data len now
      cases hstep.symm.trans (hadd.trans hpush)
      have hle := length_pushFront h hmem hpush
      exact ⟨hwf, hcap, by omega⟩
    · obtain ⟨c₁, es, v, hevict, _, hv, hwf₁, hcap₁, hdrop⟩ := evict_cases h hne
      have habsent : url ∉ c₁.urls := fun hin =>
        hmem (urls_subset_of_elements (fun x hx => ⟨x, ((hdrop x).mp hx).1, rfl⟩) hin)
      obtain ⟨c₂, hpush, hwf, hcap, _⟩ := pushFront_spec hwf₁ habsent data len now
      rw [step, hadd, hevict, Option.bind_some, hpush] at hstep
      cases hstep
      have hevicted := length_evict h hwf₁ hv hdrop
      have hle := length_pushFront hwf₁ habsent hpush
      exact ⟨hwf, hcap.trans hcap₁, by omega⟩
  | remove url =>
    rcases remove_cases h url with ⟨_, hremove⟩ | ⟨c₁, e, _, _, hremove, hwf, hcap, hdrop⟩
    · cases hstep.symm.trans hremove
      exact ⟨h, rfl, hlen⟩
    · cases hstep.symm.trans hremove
      refine ⟨hwf, hcap, le_trans (length_le_of_subset hwf (urls_subset_of_elements ?_)) hlen⟩
      exact fun x hx => ⟨x, ((hdrop x).mp hx).1, rfl⟩

/-- Along every run the cache is well formed and within its capacity. -/
theorem run_bounded {c : LFUCache} (h : c.WellFormed) (hc : 1 ≤ c.capacity)
    (hlen : c.urls.length ≤ c.capacity) (ops : List CacheOp) :
    ∃ c', Runs.run step c ops = some c' ∧ c'.WellFormed ∧ c'.capacity = c.capacity ∧
      c'.urls.length ≤ c.capacity := by
  apply Runs.run_total step
    (fun d => d.WellFormed ∧ d.capacity = c.capacity ∧ d.urls.length ≤ c.capacity) ?_ ops c
    ⟨h, rfl, hlen⟩
  rintro d op ⟨hwf, hcap, hbound⟩
  obtain ⟨d', hstep, _⟩ := step_spec hwf (hcap ▸ hc) op
  obtain ⟨hwf', hcap', hbound'⟩ := length_step hwf (hcap ▸ hc) (hcap ▸ hbound) hstep
  exact ⟨d', hstep, hwf', hcap'.trans hcap, hcap ▸ hbound'⟩

/-- After any calls on a new cache: the node list is not empty and its nodes are
distinct; each URL is resident once, and the residents are the keys of the map;
an entry names a node of the list and an element of that node; no more than `cap`
URLs are resident; and the scan of an eviction stops at a node with an element. -/
theorem lfu_structure (cap : ℕ) (hcap : 1 ≤ cap) (ops : List CacheOp) :
    ∃ c, Runs.run step (create cap) ops = some c ∧
      c.frequencyList ≠ [] ∧ (c.frequencyList.map (·.addr)).Nodup ∧
      c.urls.Nodup ∧ (∀ url, url ∈ c.urls ↔ url ∈ c.cacheMap.keys) ∧
      (∀ url n it, c.cacheMap.lookup url = some (n, it) →
        ∃ node ∈ c.frequencyList, node.addr = n ∧
          ∃ e, deref node.elements it = some e ∧ e.url = url) ∧
      c.urls.length ≤ cap ∧
      (∀ url, url ∉ c.cacheMap.keys → c.capacity ≤ c.cacheMap.keys.length →
        ∃ node ∈ c.frequencyList, leastFrequent c.frequencyList = some node ∧
          node.elements ≠ []) := by
  obtain ⟨c, hrun, h, hcapacity, hlen⟩ :=
    run_bounded (create_wellFormed cap) hcap (Nat.zero_le cap) ops
  refine ⟨c, hrun, h.nonempty, h.addrs, h.urls, ?_, ?_, hlen, ?_⟩
  · exact fun url => (h.mem_cacheMap url).symm.trans AList.mem_keys
  · intro url n it hlookup
    obtain ⟨e, ⟨node, hnode, haddr, he⟩, hu, rfl⟩ := (h.map_iff url n it).mp hlookup
    exact ⟨node, hnode, haddr, e, deref_of_mem (h.node_ptrs hnode) he, hu⟩
  · intro url _ hfull
    have hne : elements c.frequencyList ≠ [] := by
      intro hnil
      have hzero : c.urls = [] := by rw [urls, hnil, List.map_nil]
      rw [h.length_keys, hcapacity, hzero] at hfull
      exact absurd (le_trans hcap hfull) (Nat.not_succ_le_zero 0)
    obtain ⟨node, hleast, hnode, helements⟩ := exists_leastFrequent hne
    exact ⟨node, hnode, hleast, helements⟩

/-- The hit on `b` empties its node, which is no longer in front and goes. -/
theorem lfu_structure_one :
    ∃ c, Runs.run step (create 1) [.add ['b'] ['x'] 1 0, .find ['b'] 1] = some c ∧
      c.frequencyList.map (·.frequency) = [1] ∧ c.urls.length ≤ 1 := by
  obtain ⟨c, hrun, _, _, _, _, _, hlen, _⟩ :=
    lfu_structure 1 (by decide) [.add ['b'] ['x'] 1 0, .find ['b'] 1]
  refine ⟨c, hrun, ?_, hlen⟩
  have hfrequencies : (Runs.run step (create 1) [.add ['b'] ['x'] 1 0, .find ['b'] 1]).map
      (fun c => c.frequencyList.map (·.frequency)) = some [1] := by decide
  rw [hrun] at hfrequencies
  exact Option.some.inj hfrequencies

end ProxyServer.LFUCache
