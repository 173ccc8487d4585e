import ProxyServer.CacheMisses
import ProxyServer.FrequencyOrder
import ProxyServer.LFURecords

/-!
What one hit does to a full LFU cache. The first touch of a resident makes a node in
front of the others, with this element alone. An eviction empties the front node and
the new element goes into it, so from then on all requests for other URLs share this one
place, and the elements behind it stay for good. The LRU cache meanwhile misses each
URL once, as long as there are not too many.
-/
namespace ProxyServer

namespace LFUCache

open CacheElement FrequencyList

/-- One element in the front node, of no smaller frequency than any other node; the
elements behind it have the URLs `stale`, and the cache is full. -/
structure OneSlot (c : LFUCache) (url : CString) (stale : List CString) : Prop where
  wellFormed : c.WellFormed
  full : c.capacity = stale.length + 1
  front : ∃ addr frequency e back, c.frequencyList = ⟨addr, frequency, [e]⟩ :: back ∧
    e.url = url ∧ (∀ node ∈ back, node.frequency ≤ frequency) ∧
    (elements back).map (·.url) = stale

/-- A node that is not in front is pruned when it is empty; no element is lost. -/
theorem prune_second (front node : FrequencyNode) {back : Nodes} (hfront : front.addr ≠ node.addr)
    (hback : ∀ m ∈ back, m.addr ≠ node.addr) :
    ∃ back', prune (front :: node :: back) node.addr = front :: back' ∧
      elements back' = node.elements ++ elements back ∧ ∀ m ∈ back', m = node ∨ m ∈ back := by
  have hat : nodeAt (front :: node :: back) node.addr = some node := by
    rw [nodeAt, List.find?_cons_of_neg (by simpa using hfront), List.find?_cons_of_pos (by simp)]
  have hnot : ¬ frontIs (front :: node :: back) node.addr := by simpa [frontIs] using hfront
  by_cases hempty : node.elements = []
  · refine ⟨back, ?_, by rw [hempty]; rfl, fun m hm => Or.inr hm⟩
    rw [prune, hat, if_pos ⟨by simp [hempty], hnot⟩, eraseNode,
      List.filter_cons_of_pos (by simpa using hfront), List.filter_cons_of_neg (by simp),
      List.filter_eq_self.mpr (fun m hm => by simpa using hback m hm)]
  · refine ⟨node :: back, ?_, rfl, fun m hm => List.mem_cons.mp hm⟩
    rw [prune, hat, if_neg (by simp [hempty])]

/-- A hit in the front node of a full cache leaves it with one place. -/
theorem oneSlot_find {c : LFUCache} (h : c.WellFormed) {addr frequency : ℕ}
    {es : List CacheElement} {back : Nodes}
    (hlist : c.frequencyList = ⟨addr, frequency, es⟩ :: back)
    (hless : ∀ node ∈ back, node.frequency ≤ frequency)
    (hfull : c.capacity = es.length + (elements back).length) {e : CacheElement} (he : e ∈ es)
    (now : ℤ) :
    ∃ c' served, c.find e.url now = some (c', some served) ∧
      OneSlot c' e.url ((unlink es e.ptr ++ elements back).map (·.url)) := by
  have hnode : (⟨addr, frequency, es⟩ : FrequencyNode) ∈ c.frequencyList := by simp [hlist]
  have hgreatest : ∀ m ∈ c.frequencyList, m.frequency ≤ frequency := by
    intro m hm
    rw [hlist] at hm
    rcases List.mem_cons.mp hm with rfl | hm
    · exact le_refl _
    · exact hless m hm
  have hbackAddr : ∀ m ∈ back, m.addr ≠ addr := addr_ne_of_cons h hlist
  have hchanged : atNode c.frequencyList addr (fun es => unlink es e.ptr) =
      ⟨addr, frequency, unlink es e.ptr⟩ :: back := by
    rw [hlist, atNode_cons, if_pos rfl, atNode_of_ne _ hbackAddr]
  obtain ⟨back', hprune, helements, hmem⟩ := prune_second ⟨c.fresh, frequency + 1, [e]⟩
    ⟨addr, frequency, unlink es e.ptr⟩ (h.freshAddr _ hnode).ne' hbackAddr
  obtain ⟨c₁, hincrement, hlist₁⟩ := Option.map_eq_some_iff.mp
    (increment_greatest h hnode he hgreatest)
  rw [hchanged, hprune] at hlist₁
  have hseat : Sits c.frequencyList e addr := ⟨_, hnode, rfl, he⟩
  rcases find_cases h e.url now with ⟨hnot, _⟩ | ⟨c', x, _, _, hfind, hwf, hcap, _⟩
  · exact absurd (WellFormed.mem_urls.mpr ⟨e, addr, hseat, rfl⟩) hnot
  refine ⟨c', _, hfind, hwf, ?_, ?_⟩
  · have hlength : es.length = (unlink es e.ptr).length + 1 :=
      (unlink_perm (h.node_ptrs hnode) he).length_eq
    rw [hcap, hfull, List.length_map, List.length_append]
    omega
  · rw [find, h.lookup_of_sits hseat] at hfind
    simp only [hincrement, Option.bind_some] at hfind
    obtain ⟨_, _, heq⟩ := Option.map_eq_some_iff.mp hfind
    cases heq
    refine ⟨c.fresh, frequency + 1, retime e.ptr now e, setTimes back' e.ptr now, ?_,
      retime_url _ _ e, ?_, ?_⟩
    · show setTimes c₁.frequencyList e.ptr now = _
      rw [hlist₁]
      rfl
    · intro m' hm'
      obtain ⟨m, hm, rfl⟩ := List.mem_map.mp hm'
      rcases hmem m hm with rfl | hm
      · exact Nat.le_succ frequency
      · exact (hless m hm).trans (Nat.le_succ frequency)
    · rw [elements_setTimes, helements, List.map_map]
      apply List.map_congr_left
      exact fun x _ => retime_url _ _ x

namespace OneSlot

variable {c : LFUCache} {url : CString} {stale : List CString}

theorem urls (h : OneSlot c url stale) : c.urls = url :: stale := by
  obtain ⟨addr, frequency, e, back, hlist, rfl, _, rfl⟩ := h.front
  rw [LFUCache.urls, hlist]
  rfl

theorem find (h : OneSlot c url stale) (now : ℤ) :
    ∃ c' served, c.find url now = some (c', some served) ∧ OneSlot c' url stale := by
  obtain ⟨addr, frequency, e, back, hlist, rfl, hless, hstale⟩ := h.front
  have hfull : c.capacity = [e].length + (elements back).length := by
    rw [h.full, ← hstale, List.length_map, Nat.add_comm]
    rfl
  have hnone : unlink [e] e.ptr = [] := by simp [unlink]
  obtain ⟨c', served, hfind, hslot⟩ := oneSlot_find h.wellFormed hlist hless hfull
    (List.mem_singleton_self e) now
  rw [hnone, List.nil_append, hstale] at hslot
  exact ⟨c', served, hfind, hslot⟩

theorem add (h : OneSlot c url stale) {u : CString} (hu : u ∉ c.urls) (data : List Char)
    (len now : ℤ) : ∃ c', c.add u data len now = some c' ∧ OneSlot c' u stale := by
  obtain ⟨addr, frequency, e, back, hlist, _, hless, hstale⟩ := h.front
  have hlength : c.urls.length = c.capacity := by
    rw [h.urls, h.full, List.length_cons]
  have hcap : 1 ≤ c.capacity := by
    rw [h.full]
    omega
  have hbackAddr : ∀ m ∈ back, m.addr ≠ addr := addr_ne_of_cons h.wellFormed hlist
  rcases add_cases h.wellFormed hcap u data len now with
    ⟨hmem, _⟩ | ⟨_, hroom, _⟩ | ⟨_, _, _, hadd⟩
  · exact absurd hmem hu
  · omega
  · have hevict : c.evict = some { c with
        cacheMap := c.cacheMap.erase e.url
        frequencyList := ⟨addr, frequency, []⟩ :: back } := by
      have hleast : leastFrequent c.frequencyList = some ⟨addr, frequency, [e]⟩ := by
        rw [leastFrequent, hlist, List.find?_cons_of_pos (by simp)]
      have hdrop : prune (atNode c.frequencyList addr List.dropLast) addr =
          ⟨addr, frequency, []⟩ :: back := by
        rw [hlist, atNode_cons, if_pos rfl, atNode_of_ne _ hbackAddr, prune,
          if_neg (by simp [frontIs])]
        rfl
      rw [evict, hleast, Option.bind_some]
      simp only [hdrop, List.getLast?_singleton, Option.map_some]
    obtain ⟨c', hc', hwf, hcapacity, _⟩ := step_spec h.wellFormed hcap (.add u data len now)
    refine ⟨c', hc', hwf, hcapacity.trans h.full, addr, frequency,
      CacheElement.make u data len now c.fresh, back, ?_, rfl, hless, hstale⟩
    rw [step, hadd, hevict, Option.bind_some, pushFront, Option.map_eq_some_iff] at hc'
    obtain ⟨front, hfront, rfl⟩ := hc'
    cases hfront
    show atNode (⟨addr, frequency, []⟩ :: back) addr _ = _
    rw [atNode_cons, if_pos rfl, atNode_of_ne _ hbackAddr]

end OneSlot

end LFUCache

namespace CacheStrategy

open Paging LFUCache

/-- The requests that are not for the URL of the request before. -/
def changes : CString → List CString → ℕ
  | _, [] => 0
  | last, url :: urls => (if url = last then 0 else 1) + changes url urls

theorem serve_hit {c c' : LFUCache} {f : Fetch} {served : CacheElement}
    (hfind : c.find f.url f.findTime = some (c', some served)) :
    (lfu c).serve f = some (lfu c', 0) := by
  simp only [serve, find, hfind, Option.map_some]

theorem serve_miss {c c' : LFUCache} (h : c.WellFormed) {f : Fetch} (hurl : f.url ∉ c.urls)
    (hadd : c.add f.url f.data f.len f.addTime = some c') :
    (lfu c).serve f = some (lfu c', 1) := by
  rcases LFUCache.find_cases h f.url f.findTime with ⟨_, hfind⟩ | ⟨_, e, he, heq, _⟩
  · simp only [serve, find, hfind, Option.map_some, step, LFUCache.step, hadd]
  · exact absurd (heq ▸ List.mem_map_of_mem he) hurl

/-- Different URLs fill a cache in which nothing has been touched. -/
theorem misses_fill (fs gs : List Fetch) : ∀ {c : LFUCache} {addr : ℕ} {es : List CacheElement},
    c.WellFormed → c.frequencyList = [⟨addr, 0, es⟩] →
    ((fs.map (·.url)).reverse ++ es.map (·.url)).Nodup → fs.length + es.length ≤ c.capacity →
    ∃ (c' : LFUCache) (addr' : ℕ) (es' : List CacheElement),
      (lfu c).misses (fs ++ gs) = ((lfu c').misses gs).map (fs.length + ·) ∧
      c'.WellFormed ∧ c'.capacity = c.capacity ∧ c'.frequencyList = [⟨addr', 0, es'⟩] ∧
      es'.map (·.url) = (fs.map (·.url)).reverse ++ es.map (·.url) := by
  induction fs with
  | nil =>
    intro c addr es h hlist _ _
    refine ⟨c, addr, es, ?_, h, rfl, hlist, rfl⟩
    simp
  | cons f fs ih =>
    intro c addr es h hlist hnodup hroom
    rw [List.map_cons, List.reverse_cons, List.append_assoc] at hnodup ⊢
    rw [List.length_cons] at hroom
    have hurls : c.urls = es.map (·.url) := by
      rw [LFUCache.urls, hlist]
      simp [FrequencyList.elements]
    have hurl : f.url ∉ c.urls := by
      rw [hurls]
      exact (List.nodup_cons.mp hnodup.of_append_right).1
    have hcap : 1 ≤ c.capacity := by omega
    obtain ⟨c₁, hadd, hwf, hcapacity, _⟩ :=
      LFUCache.step_spec h hcap (.add f.url f.data f.len f.addTime)
    have hlength : c.urls.length = es.length := by rw [hurls, List.length_map]
    rcases LFUCache.add_cases h hcap f.url f.data f.len f.addTime with
      ⟨hmem, _⟩ | ⟨_, _, hpush⟩ | ⟨_, hfull, _⟩
    · exact absurd hmem hurl
    · obtain ⟨e, he, hlist₁⟩ := pushFront_single hlist (hpush.symm.trans hadd)
      obtain ⟨c', addr', es', hmisses, hwf', hcapacity', hlist', hes'⟩ := ih hwf hlist₁
        (by rwa [List.map_cons, he]) (by rw [hcapacity, List.length_cons]; omega)
      refine ⟨c', addr', es', ?_, hwf', hcapacity'.trans hcapacity, hlist', ?_⟩
      · rw [List.cons_append, misses, serve_miss h hurl hadd, Option.bind_some, hmisses,
          Option.map_map]
        congr 1
        funext n
        simp only [Function.comp_apply, List.length_cons]
        omega
      · rw [hes', List.map_cons, he]
        rfl
    · omega

/-- With one place, each request for another URL than the last one misses. -/
theorem misses_oneSlot (fs : List Fetch) : ∀ {c : LFUCache} {url : CString}
    {stale : List CString}, OneSlot c url stale → (∀ f ∈ fs, f.url ∉ stale) →
    (lfu c).misses fs = some (changes url (fs.map (·.url))) := by
  induction fs with
  | nil => exact fun _ _ => rfl
  | cons f fs ih =>
    intro c url stale h hstale
    have hrest : ∀ g ∈ fs, g.url ∉ stale := fun g hg => hstale g (List.mem_cons_of_mem f hg)
    rw [List.map_cons, changes, misses]
    by_cases hsame : f.url = url
    · obtain ⟨c', served, hfind, hslot⟩ := h.find f.findTime
      rw [← hsame] at hfind hslot
      rw [serve_hit hfind, Option.bind_some, ih hslot hrest, if_pos hsame]
      rfl
    · have hurl : f.url ∉ c.urls := by
        rw [h.urls, List.mem_cons, not_or]
        exact ⟨hsame, hstale f List.mem_cons_self⟩
      obtain ⟨c', hadd, hslot⟩ := h.add hurl f.data f.len f.addTime
      rw [serve_miss h.wellFormed hurl hadd, Option.bind_some, ih hslot hrest, if_neg hsame]
      rfl

section Hit
variable {cap : ℕ} {fill fs : List Fetch} {hit : Fetch}

theorem misses_lfu_hit (hfill : (fill.map (·.url)).Nodup) (hcap : fill.length = cap)
    (hhit : hit.url ∈ fill.map (·.url))
    (hfs : ∀ f ∈ fs, f.url ∈ fill.map (·.url) → f.url = hit.url) :
    (lfu (LFUCache.create cap)).misses (fill ++ hit :: fs) =
      some (cap + changes hit.url (fs.map (·.url))) := by
  obtain ⟨c, addr, es, hmisses, hwf, hcapacity, hlist, hes⟩ := misses_fill fill (hit :: fs)
    (create_wellFormed cap) rfl (by simpa using hfill) (by rw [hcap]; exact le_refl cap)
  rw [List.map_nil, List.append_nil] at hes
  have hmem : hit.url ∈ es.map (·.url) := by rwa [hes, List.mem_reverse]
  obtain ⟨e, he, heq⟩ := List.mem_map.mp hmem
  have hfull : c.capacity = es.length + (FrequencyList.elements []).length := by
    rw [hcapacity, ← List.length_map (f := (·.url)), hes, List.length_reverse, List.length_map,
      hcap]
    rfl
  obtain ⟨c', served, hfind, hslot⟩ := oneSlot_find hwf hlist
    (by simp) hfull he hit.findTime
  rw [heq] at hfind hslot
  have hstale : ∀ f ∈ fs, f.url ∉ (CacheElement.unlink es e.ptr ++
      FrequencyList.elements []).map (·.url) := by
    intro f hf hin
    have hnot : hit.url ∉ (CacheElement.unlink es e.ptr ++
        FrequencyList.elements []).map (·.url) := by
      have hnodup := hslot.wellFormed.urls
      have hurls := hslot.urls
      rw [LFUCache.urls] at hurls
      rw [hurls] at hnodup
      exact (List.nodup_cons.mp hnodup).1
    obtain ⟨x, hx, hxurl⟩ := List.mem_map.mp hin
    have hxes : x ∈ es := by
      rcases List.mem_append.mp hx with hx | hx
      · exact (CacheElement.mem_unlink.mp hx).1
      · contradiction
    have hin' : f.url ∈ fill.map (·.url) := by
      rw [← List.mem_reverse, ← hes, ← hxurl]
      exact List.mem_map_of_mem hxes
    exact hnot (hfs f hf hin' ▸ hin)
  rw [hmisses, misses, serve_hit hfind, Option.bind_some, misses_oneSlot fs hslot hstale, hcap,
    Option.map_some, Option.map_some, Nat.zero_add]

theorem misses_lru_hit (hfill : (fill.map (·.url)).Nodup) (hcap : fill.length = cap)
    (hhit : hit.url ∈ fill.map (·.url))
    (hfs : ∀ f ∈ fs, f.url ∈ fill.map (·.url) → f.url = hit.url)
    (hfew : ((fs.map (·.url)).toFinset.erase hit.url).card < cap) :
    (lru (LRUCache.create cap)).misses (fill ++ hit :: fs) =
      some (cap + ((fs.map (·.url)).toFinset.erase hit.url).card) := by
  have hlength : (fill.map (·.url)).length = cap := by rw [List.length_map, hcap]
  have hpos : 1 ≤ cap := hlength ▸ List.length_pos_of_mem hhit
  rw [misses_lru _ (LRUCache.create_wellFormed cap) hpos, List.map_append, List.map_cons]
  show some (lruFaults cap [] _) = _
  generalize fill.map (·.url) = ks at *
  have hfillFaults : lruFaults cap [] ks = cap := by
    have hroom : (ks.toFinset ∪ ([] : List CString).toFinset).card ≤ cap := by
      rw [List.toFinset_nil, Finset.union_empty, ← hlength]
      exact ks.toFinset_card_le
    have hfaults := lruFaults_of_few ks [] [] List.nodup_nil (Nat.zero_le cap) (by simp) hroom
    rw [List.toFinset_nil, Finset.sdiff_empty, List.toFinset_card_of_nodup hfill, hlength]
      at hfaults
    exact hfaults
  have hfilled := foldl_fresh cap ks (l := []) (by simpa using hfill) (by simp [hlength])
  have hmem : hit.url ∈ ks.reverse := List.mem_reverse.mpr hhit
  have hfault : fault ks.reverse.toFinset hit.url = 0 := if_pos (List.mem_toFinset.mpr hmem)
  have hstep : RecencyList.step cap ks.reverse (.add hit.url) =
      [hit.url] ++ ks.reverse.erase hit.url := if_pos hmem
  have hreverse : ks.reverse.Nodup := List.nodup_reverse.mpr hfill
  obtain ⟨hnodup, hlen⟩ := step_includes hpos hreverse (by rw [List.length_reverse, hlength])
    hit.url
  rw [hstep] at hnodup hlen
  have hback : ∀ url ∈ fs.map (·.url), url ∉ ks.reverse.erase hit.url := by
    intro url hurl hin
    obtain ⟨f, hf, rfl⟩ := List.mem_map.mp hurl
    have hsame := hfs f hf (List.mem_reverse.mp (List.mem_of_mem_erase hin))
    rw [hsame] at hin
    exact hreverse.not_mem_erase hin
  have hroom : ((fs.map (·.url)).toFinset ∪ [hit.url].toFinset).card ≤ cap := by
    have hsub : (fs.map (·.url)).toFinset ∪ [hit.url].toFinset ⊆
        insert hit.url ((fs.map (·.url)).toFinset.erase hit.url) := by
      intro url hurl
      by_cases hsame : url = hit.url
      · exact Finset.mem_insert.mpr (Or.inl hsame)
      · refine Finset.mem_insert_of_mem (Finset.mem_erase.mpr ⟨hsame, ?_⟩)
        simpa [hsame] using hurl
    exact ((Finset.card_le_card hsub).trans (Finset.card_insert_le _ _)).trans hfew
  have hnew : (fs.map (·.url)).toFinset \ [hit.url].toFinset =
      (fs.map (·.url)).toFinset.erase hit.url := Finset.sdiff_singleton_eq_erase _ _
  rw [lruFaults_append, hfillFaults, hfilled, List.append_nil, lruFaults, hfault, hstep,
    lruFaults_of_few _ _ _ hnodup hlen hback hroom, hnew, Nat.zero_add]

/-- After as many different URLs as the cache has places, and one of them again, the
LFU cache misses each request that is not for the URL of the request before, as long as
the other URLs of the beginning do not come again; the LRU cache misses each new URL
once, when they fit into it. -/
theorem lfu_single_slot (fill : List Fetch) (hit : Fetch) (fs : List Fetch)
    (hfill : (fill.map (·.url)).Nodup) (hcap : fill.length = cap)
    (hhit : hit.url ∈ fill.map (·.url))
    (hfs : ∀ f ∈ fs, f.url ∈ fill.map (·.url) → f.url = hit.url) :
    (lfu (LFUCache.create cap)).misses (fill ++ hit :: fs) =
        some (cap + changes hit.url (fs.map (·.url))) ∧
      (((fs.map (·.url)).toFinset.erase hit.url).card < cap →
        (lru (LRUCache.create cap)).misses (fill ++ hit :: fs) =
          some (cap + ((fs.map (·.url)).toFinset.erase hit.url).card)) :=
  ⟨misses_lfu_hit hfill hcap hhit hfs, misses_lru_hit hfill hcap hhit hfs⟩

/-- Two URLs in turn after one hit in a cache of three: four more misses against two. -/
theorem lfu_single_slot_turns :
    (lfu (LFUCache.create 3)).misses [⟨['a'], [], 0, 0, 0⟩, ⟨['b'], [], 0, 0, 0⟩,
        ⟨['c'], [], 0, 0, 0⟩, ⟨['b'], [], 0, 0, 0⟩, ⟨['x'], [], 0, 0, 0⟩, ⟨['y'], [], 0, 0, 0⟩,
        ⟨['x'], [], 0, 0, 0⟩, ⟨['y'], [], 0, 0, 0⟩] = some 7 ∧
      (lru (LRUCache.create 3)).misses [⟨['a'], [], 0, 0, 0⟩, ⟨['b'], [], 0, 0, 0⟩,
        ⟨['c'], [], 0, 0, 0⟩, ⟨['b'], [], 0, 0, 0⟩, ⟨['x'], [], 0, 0, 0⟩, ⟨['y'], [], 0, 0, 0⟩,
        ⟨['x'], [], 0, 0, 0⟩, ⟨['y'], [], 0, 0, 0⟩] = some 5 := by
  obtain ⟨hlfu, hlru⟩ := lfu_single_slot
    [⟨['a'], [], 0, 0, 0⟩, ⟨['b'], [], 0, 0, 0⟩, ⟨['c'], [], 0, 0, 0⟩] ⟨['b'], [], 0, 0, 0⟩
    [⟨['x'], [], 0, 0, 0⟩, ⟨['y'], [], 0, 0, 0⟩, ⟨['x'], [], 0, 0, 0⟩, ⟨['y'], [], 0, 0, 0⟩]
    (by decide) rfl (by decide) (by decide)
  exact ⟨hlfu, hlru (by decide)⟩

end Hit

end CacheStrategy

end ProxyServer
