import ProxyServer.LFUCache

/-!
The invariant of the LFU cache. The list is never empty, addresses and URLs
are distinct, and every entry of the map names a node of the list and an
element of that node's own elements with that URL. Each operation is reduced to
a few moves (insert an empty node, move an element to a node, drop an element,
push a new one, prune) that keep it. Frequencies play no part.
-/
namespace ProxyServer.LFUCache

open CacheElement FrequencyList

structure WellFormed (c : LFUCache) : Prop where
  nonempty : c.frequencyList ≠ []
  addrs : (c.frequencyList.map (·.addr)).Nodup
  ptrs : ((elements c.frequencyList).map (·.ptr)).Nodup
  urls : ((elements c.frequencyList).map (·.url)).Nodup
  map_iff : ∀ url n it, c.cacheMap.lookup url = some (n, it) ↔
    ∃ e, Sits c.frequencyList e n ∧ e.url = url ∧ e.ptr = it
  freshAddr : ∀ node ∈ c.frequencyList, node.addr < c.fresh
  freshPtr : ∀ e ∈ elements c.frequencyList, e.ptr < c.fresh

theorem create_wellFormed (cap : ℕ) : (create cap).WellFormed where
  nonempty := by simp [create]
  addrs := by simp [create]
  ptrs := by simp [create, elements]
  urls := by simp [create, elements]
  map_iff := by simp [create, Sits]
  freshAddr := by simp [create]
  freshPtr := by simp [create, elements]

namespace WellFormed

variable {c : LFUCache}

theorem mem_urls {url : CString} :
    url ∈ c.urls ↔ ∃ e n, Sits c.frequencyList e n ∧ e.url = url := by
  simp only [LFUCache.urls, List.mem_map, mem_elements]
  constructor
  · intro h
    obtain ⟨e, ⟨n, hn⟩, hu⟩ := h
    exact ⟨e, n, hn, hu⟩
  · intro h
    obtain ⟨e, n, hn, hu⟩ := h
    exact ⟨e, ⟨n, hn⟩, hu⟩

theorem lookup_of_sits (h : c.WellFormed) {e : CacheElement} {n : ℕ}
    (he : Sits c.frequencyList e n) : c.cacheMap.lookup e.url = some (n, e.ptr) :=
  (h.map_iff e.url n e.ptr).mpr ⟨e, he, rfl, rfl⟩

theorem lookup_eq_none (h : c.WellFormed) (url : CString) :
    c.cacheMap.lookup url = none ↔ url ∉ c.urls := by
  rw [mem_urls]
  constructor
  · intro hnone hmem
    obtain ⟨e, n, he, rfl⟩ := hmem
    rw [h.lookup_of_sits he] at hnone
    contradiction
  · intro hnot
    cases hl : c.cacheMap.lookup url with
    | none => rfl
    | some entry =>
      obtain ⟨e, he, hu, _⟩ := (h.map_iff url entry.1 entry.2).mp hl
      exact absurd ⟨e, entry.1, he, hu⟩ hnot

theorem mem_cacheMap (h : c.WellFormed) (url : CString) :
    url ∈ c.cacheMap ↔ url ∈ c.urls := by
  rw [← AList.lookup_isSome, ← not_iff_not, ← h.lookup_eq_none,
    Bool.not_eq_true, Option.isSome_eq_false_iff, Option.isNone_iff_eq_none]

theorem length_keys (h : c.WellFormed) : c.cacheMap.keys.length = c.urls.length := by
  apply List.Perm.length_eq
  apply (List.perm_ext_iff_of_nodup c.cacheMap.keys_nodup h.urls).mpr
  intro url
  exact (AList.mem_keys.symm).trans (h.mem_cacheMap url)

theorem node_ptrs (h : c.WellFormed) {node : FrequencyNode} (hnode : node ∈ c.frequencyList) :
    (node.elements.map (·.ptr)).Nodup := by
  have hp := h.ptrs
  rw [elements, List.map_flatMap] at hp
  exact (List.nodup_flatMap.mp hp).1 node hnode

theorem eq_of_sits (h : c.WellFormed) {e x : CacheElement} {m n : ℕ}
    (he : Sits c.frequencyList e m) (hx : Sits c.frequencyList x n) (hu : e.url = x.url) :
    e = x :=
  eq_of_url h.urls (mem_elements.mpr ⟨m, he⟩) (mem_elements.mpr ⟨n, hx⟩) hu

/-- An empty node with a fresh address may be inserted anywhere. -/
theorem insertNode (h : c.WellFormed) {i : ℕ} (hi : i ≤ c.frequencyList.length)
    (nextFrequency : ℕ) : (c.insertNode i nextFrequency).1.WellFormed := by
  have hperm := elements_insertIdx hi c.fresh nextFrequency
  refine ⟨?_, ?_, ?_, ?_, ?_, ?_, ?_⟩
  · apply List.ne_nil_of_length_pos
    rw [LFUCache.insertNode, List.length_insertIdx_of_le_length hi]
    omega
  · have hmap := (List.perm_insertIdx ⟨c.fresh, nextFrequency, []⟩ c.frequencyList hi).map (·.addr)
    refine hmap.nodup_iff.mpr (List.nodup_cons.mpr ⟨?_, h.addrs⟩)
    intro hmem
    obtain ⟨node, hnode, haddr⟩ := List.mem_map.mp hmem
    exact (h.freshAddr node hnode).ne haddr
  · exact (hperm.map _).nodup_iff.mpr h.ptrs
  · exact (hperm.map _).nodup_iff.mpr h.urls
  · intro url n it
    simp only [LFUCache.insertNode, sits_insertIdx hi]
    exact h.map_iff url n it
  · intro node hnode
    rcases (List.mem_insertIdx hi).mp hnode with rfl | hnode
    · exact Nat.lt_succ_self _
    · exact Nat.lt_succ_of_lt (h.freshAddr node hnode)
  · intro e he
    exact Nat.lt_succ_of_lt (h.freshPtr e (hperm.mem_iff.mp he))

theorem next_le (l : Nodes) (nextFrequency : ℕ) :
    next l (findIf l nextFrequency) ≤ l.length := by
  have hle : findIf l nextFrequency ≤ l.length := List.findIdx_le_length
  unfold next
  split
  · exact Nat.zero_le _
  · omega

/-- `c'` is `c` with at most an empty node more. -/
structure Extends (c c' : LFUCache) : Prop where
  wellFormed : c'.WellFormed
  sits : ∀ e n, Sits c'.frequencyList e n ↔ Sits c.frequencyList e n
  nodes : ∀ node ∈ c'.frequencyList, node ∈ c.frequencyList ∨ node.elements = []
  kept : ∀ node ∈ c.frequencyList, node ∈ c'.frequencyList
  cacheMap : c'.cacheMap = c.cacheMap
  capacity : c'.capacity = c.capacity

theorem extends_insertNode (h : c.WellFormed) {i : ℕ} (hi : i ≤ c.frequencyList.length)
    (nextFrequency : ℕ) : Extends c (c.insertNode i nextFrequency).1 where
  wellFormed := h.insertNode hi nextFrequency
  sits e n := sits_insertIdx hi c.fresh nextFrequency
  nodes node hnode := by
    rcases (List.mem_insertIdx hi).mp hnode with rfl | hnode
    · exact Or.inr rfl
    · exact Or.inl hnode
  kept node hnode := (List.mem_insertIdx hi).mpr (Or.inr hnode)
  cacheMap := rfl
  capacity := rfl

/-- `nextNode` names a node of the list, which may be a new empty one. -/
theorem nextNode (h : c.WellFormed) (nextFrequency : ℕ) :
    Extends c (c.nextNode nextFrequency).1 ∧
      ∃ node ∈ (c.nextNode nextFrequency).1.frequencyList,
        node.addr = (c.nextNode nextFrequency).2 := by
  have hi := next_le c.frequencyList nextFrequency
  have hnew : ∃ node ∈ (c.insertNode (next c.frequencyList (findIf c.frequencyList nextFrequency))
      nextFrequency).1.frequencyList, node.addr = c.fresh :=
    ⟨⟨c.fresh, nextFrequency, []⟩, (List.mem_insertIdx hi).mpr (Or.inl rfl), rfl⟩
  unfold LFUCache.nextNode
  dsimp only
  split
  · exact ⟨h.extends_insertNode hi nextFrequency, hnew⟩
  · rename_i node hget
    split
    · exact ⟨⟨h, fun _ _ => Iff.rfl, fun _ hnode => Or.inl hnode, fun _ hnode => hnode, rfl, rfl⟩,
        node, List.mem_of_getElem? hget, rfl⟩
    · exact ⟨h.extends_insertNode hi nextFrequency, hnew⟩

/-- Dropping one element from its node and from the map. -/
theorem drop (h : c.WellFormed) {node : FrequencyNode} (hnode : node ∈ c.frequencyList)
    {e : CacheElement} (he : e ∈ node.elements) :
    WellFormed { c with
      cacheMap := c.cacheMap.erase e.url
      frequencyList := atNode c.frequencyList node.addr (fun es => unlink es e.ptr) } := by
  have hperm := elements_unlink h.addrs h.ptrs hnode he
  have hseat : Sits c.frequencyList e node.addr := ⟨node, hnode, rfl, he⟩
  refine ⟨?_, ?_, ?_, ?_, ?_, ?_, ?_⟩
  · simpa [atNode] using h.nonempty
  · simpa using h.addrs
  · exact (List.nodup_cons.mp ((hperm.map _).nodup_iff.mp h.ptrs)).2
  · exact (List.nodup_cons.mp ((hperm.map _).nodup_iff.mp h.urls)).2
  · intro url n it
    simp only [sits_unlink h.ptrs hnode he]
    by_cases hu : url = e.url
    · subst hu
      simp only [AList.lookup_erase, reduceCtorEq, false_iff]
      intro hex
      obtain ⟨x, ⟨hx, hxe⟩, hxu, _⟩ := hex
      exact hxe (h.eq_of_sits hx hseat hxu)
    · rw [AList.lookup_erase_ne hu, h.map_iff]
      constructor
      · intro hex
        obtain ⟨x, hx, hxu, hxp⟩ := hex
        refine ⟨x, ⟨hx, ?_⟩, hxu, hxp⟩
        intro hxe
        exact hu (by rw [← hxu, hxe])
      · intro hex
        obtain ⟨x, ⟨hx, _⟩, hxu, hxp⟩ := hex
        exact ⟨x, hx, hxu, hxp⟩
  · intro m hm
    obtain ⟨m', hm', hma⟩ := List.mem_map.mp hm
    have hlt := h.freshAddr m' hm'
    split at hma <;> (subst hma; exact hlt)
  · intro x hx
    exact h.freshPtr x (hperm.mem_iff.mpr (List.mem_cons_of_mem _ hx))

/-- Seating an element under a URL that is not in the map. -/
theorem push (h : c.WellFormed) {node : FrequencyNode} (hnode : node ∈ c.frequencyList)
    {e : CacheElement} (hurl : e.url ∉ c.urls)
    (hptr : e.ptr ∉ (elements c.frequencyList).map (·.ptr)) {fresh : ℕ}
    (hfresh : c.fresh ≤ fresh) (hlt : e.ptr < fresh) :
    WellFormed { c with
      cacheMap := c.cacheMap.insert e.url (node.addr, e.ptr)
      frequencyList := atNode c.frequencyList node.addr (fun es => e :: es)
      fresh := fresh } := by
  have hperm := elements_push h.addrs hnode e
  refine ⟨?_, ?_, ?_, ?_, ?_, ?_, ?_⟩
  · simpa [atNode] using h.nonempty
  · simpa using h.addrs
  · exact (hperm.map _).nodup_iff.mpr (List.nodup_cons.mpr ⟨hptr, h.ptrs⟩)
  · exact (hperm.map _).nodup_iff.mpr (List.nodup_cons.mpr ⟨hurl, h.urls⟩)
  · intro url n it
    simp only [sits_push hnode]
    by_cases hu : url = e.url
    · subst hu
      simp only [AList.lookup_insert, Option.some.injEq, Prod.mk.injEq]
      constructor
      · intro heq
        exact ⟨e, Or.inl ⟨rfl, heq.1.symm⟩, rfl, heq.2⟩
      · intro hex
        obtain ⟨x, hx, hxu, hxp⟩ := hex
        rcases hx with ⟨rfl, hn⟩ | hx
        · exact ⟨hn.symm, hxp⟩
        · exact absurd (mem_urls.mpr ⟨x, n, hx, hxu⟩) hurl
    · rw [AList.lookup_insert_ne hu, h.map_iff]
      constructor
      · intro hex
        obtain ⟨x, hx, hxu, hxp⟩ := hex
        exact ⟨x, Or.inr hx, hxu, hxp⟩
      · intro hex
        obtain ⟨x, hx, hxu, hxp⟩ := hex
        rcases hx with ⟨rfl, _⟩ | hx
        · exact absurd hxu.symm hu
        · exact ⟨x, hx, hxu, hxp⟩
  · intro m hm
    obtain ⟨m', hm', hma⟩ := List.mem_map.mp hm
    have hlt := lt_of_lt_of_le (h.freshAddr m' hm') hfresh
    split at hma <;> (subst hma; exact hlt)
  · intro x hx
    rcases List.mem_cons.mp (hperm.mem_iff.mp hx) with rfl | hx
    · exact hlt
    · exact lt_of_lt_of_le (h.freshPtr x hx) hfresh

theorem prune (h : c.WellFormed) (n : ℕ) :
    WellFormed { c with frequencyList := FrequencyList.prune c.frequencyList n } where
  nonempty := by
    intro hnil
    have hhead := head?_prune h.addrs n
    simp only at hnil
    rw [hnil] at hhead
    exact h.nonempty (List.head?_eq_none_iff.mp hhead.symm)
  addrs := h.addrs.sublist ((prune_sublist n).map _)
  ptrs := by simpa only [elements_prune h.addrs] using h.ptrs
  urls := by simpa only [elements_prune h.addrs] using h.urls
  map_iff url m it := by simpa only [sits_prune h.addrs] using h.map_iff url m it
  freshAddr node hnode := h.freshAddr node ((prune_sublist n).subset hnode)
  freshPtr e he := h.freshPtr e (by simpa only [elements_prune h.addrs] using he)

theorem congr_map (h : c.WellFormed) {m : AList (fun _ : CString => ℕ × ℕ)}
    (hm : ∀ url, m.lookup url = c.cacheMap.lookup url) :
    WellFormed { c with cacheMap := m } :=
  { h with map_iff := fun url n it => by simpa only [hm] using h.map_iff url n it }

/-- Moving an element from its node to the front of another one. -/
theorem move (h : c.WellFormed) {node target : FrequencyNode} (hnode : node ∈ c.frequencyList)
    (htarget : target ∈ c.frequencyList) {e : CacheElement} (he : e ∈ node.elements) :
    WellFormed { c with
      cacheMap := c.cacheMap.insert e.url (target.addr, e.ptr)
      frequencyList := atNode (atNode c.frequencyList node.addr (fun es => unlink es e.ptr))
        target.addr (fun es => e :: es) } ∧
    ∀ x k, Sits (atNode (atNode c.frequencyList node.addr (fun es => unlink es e.ptr))
        target.addr (fun es => e :: es)) x k ↔
      (x = e ∧ k = target.addr) ∨ (x ≠ e ∧ Sits c.frequencyList x k) := by
  have hdrop := h.drop hnode he
  have hperm := elements_unlink h.addrs h.ptrs hnode he
  have hlt : e.ptr < c.fresh := h.freshPtr e (hperm.mem_iff.mpr List.mem_cons_self)
  obtain ⟨t, ht, hta⟩ := List.mem_map.mp (by
    rw [map_addr_atNode]
    exact List.mem_map_of_mem (f := (·.addr)) htarget :
    target.addr ∈ (atNode c.frequencyList node.addr (fun es => unlink es e.ptr)).map (·.addr))
  have hurl : e.url ∉ LFUCache.urls { c with
      cacheMap := c.cacheMap.erase e.url
      frequencyList := atNode c.frequencyList node.addr (fun es => unlink es e.ptr) } :=
    (List.nodup_cons.mp ((hperm.map _).nodup_iff.mp h.urls)).1
  have hptr := (List.nodup_cons.mp ((hperm.map _).nodup_iff.mp h.ptrs)).1
  have hpush := hdrop.push ht hurl hptr (le_refl _) hlt
  rw [hta] at hpush
  refine ⟨hpush.congr_map (m := c.cacheMap.insert e.url (target.addr, e.ptr)) ?_, ?_⟩
  · intro url
    by_cases hu : url = e.url
    · subst hu
      simp only [AList.lookup_insert]
    · simp only [AList.lookup_insert_ne hu, AList.lookup_erase_ne hu]
  · intro x k
    rw [← hta, sits_push ht, sits_unlink h.ptrs hnode he, and_comm (a := Sits _ x k)]

end WellFormed

/-- `incrementFrequency` moves the element of its URL to the front of some
node and leaves the others in their places. -/
theorem increment_spec {c : LFUCache} (h : c.WellFormed) {e : CacheElement} {n : ℕ}
    (he : Sits c.frequencyList e n) :
    ∃ c' m, c.incrementFrequency e.url = some c' ∧ c'.WellFormed ∧ c'.capacity = c.capacity ∧
      (∀ x k, Sits c'.frequencyList x k ↔
        (x = e ∧ k = m) ∨ (x ≠ e ∧ Sits c.frequencyList x k)) := by
  obtain ⟨node, hnode, rfl, hmem⟩ := he
  have hlookup := h.lookup_of_sits ⟨node, hnode, rfl, hmem⟩
  have hptrs := h.node_ptrs hnode
  obtain ⟨hext, target, htarget, haddr⟩ := h.nextNode (node.frequency + 1)
  obtain ⟨hmove, hsits⟩ := hext.wellFormed.move (hext.kept node hnode) htarget hmem
  rw [haddr, hext.cacheMap] at hmove
  rw [haddr] at hsits
  have hprune := hmove.prune node.addr
  refine ⟨_, (c.nextNode (node.frequency + 1)).2, ?_, hprune, hext.capacity, ?_⟩
  · unfold incrementFrequency
    rw [hlookup, Option.bind_some, nodeAt_of_mem h.addrs hnode, Option.bind_some,
      deref_of_mem hptrs hmem, Option.map_some]
    simp only [hext.cacheMap]
  · intro x k
    rw [sits_prune hmove.addrs, hsits, hext.sits]

/-- Moving an element to another seat keeps the elements. -/
theorem mem_elements_of_move {l l' : Nodes} {e : CacheElement} {n m : ℕ} (he : Sits l e n)
    (hsits : ∀ x k, Sits l' x k ↔ (x = e ∧ k = m) ∨ (x ≠ e ∧ Sits l x k)) (x : CacheElement) :
    x ∈ elements l' ↔ x ∈ elements l := by
  simp only [mem_elements, hsits]
  constructor
  · intro hx
    obtain ⟨k, hk⟩ := hx
    rcases hk with ⟨rfl, _⟩ | ⟨_, hk⟩
    · exact ⟨n, he⟩
    · exact ⟨k, hk⟩
  · intro hx
    obtain ⟨k, hk⟩ := hx
    by_cases hxe : x = e
    · exact ⟨m, Or.inl ⟨hxe, rfl⟩⟩
    · exact ⟨k, Or.inr ⟨hxe, hk⟩⟩

/-- A cache with an element has a first node that is not empty. -/
theorem exists_leastFrequent {l : Nodes} (h : elements l ≠ []) :
    ∃ node, leastFrequent l = some node ∧ node ∈ l ∧ node.elements ≠ [] := by
  obtain ⟨e, he⟩ := List.exists_mem_of_ne_nil _ h
  obtain ⟨m, hm, hem⟩ := List.mem_flatMap.mp he
  cases hf : leastFrequent l with
  | none =>
    have hnot := List.find?_eq_none.mp hf m hm
    simp only [Bool.not_eq_true', Bool.not_eq_false, List.isEmpty_iff] at hnot
    simp [hnot] at hem
  | some node =>
    refine ⟨node, rfl, List.mem_of_find?_eq_some hf, ?_⟩
    simpa using List.find?_some hf

/-- `evict` drops the last element of the first node that is not empty. -/
theorem evict_spec {c : LFUCache} (h : c.WellFormed) (hne : elements c.frequencyList ≠ []) :
    ∃ c' node es v, c.evict = some c' ∧ leastFrequent c.frequencyList = some node ∧
      node ∈ c.frequencyList ∧ node.elements = es ++ [v] ∧ c'.WellFormed ∧
      c'.capacity = c.capacity ∧
      (∀ x k, Sits c'.frequencyList x k ↔ Sits c.frequencyList x k ∧ x ≠ v) := by
  obtain ⟨node, hleast, hnode, hne'⟩ := exists_leastFrequent hne
  obtain ⟨es, v, hes⟩ := (List.eq_nil_or_concat node.elements).resolve_left hne'
  rw [List.concat_eq_append] at hes
  have hv : v ∈ node.elements := by simp [hes]
  have hptrs := h.node_ptrs hnode
  have hdrop : atNode c.frequencyList node.addr List.dropLast =
      atNode c.frequencyList node.addr (fun es => unlink es v.ptr) := by
    apply List.map_congr_left
    intro m hm
    by_cases hma : m.addr = node.addr
    · have hlast : node.elements.dropLast = unlink node.elements v.ptr := by
        rw [hes, List.dropLast_concat, unlink_last (hes ▸ hptrs)]
      rw [if_pos hma, if_pos hma, eq_of_addr h.addrs hm hnode hma, hlast]
    · rw [if_neg hma, if_neg hma]
  have hwf := h.drop hnode hv
  refine ⟨_, node, es, v, ?_, hleast, hnode, hes, hwf.prune node.addr, rfl, ?_⟩
  · unfold evict
    rw [hleast, Option.bind_some, hes, List.getLast?_concat, Option.map_some, hdrop]
  · intro x k
    rw [sits_prune hwf.addrs, sits_unlink h.ptrs hnode hv]

section SetTimes

theorem sits_setTimes {l : Nodes} {it : ℕ} {now : ℤ} {x : CacheElement} {k : ℕ} :
    Sits (setTimes l it now) x k ↔ ∃ e, Sits l e k ∧ x = retime it now e := by
  simp only [Sits, setTimes, setTime, List.mem_map]
  constructor
  · intro h
    obtain ⟨node', ⟨node, hnode, rfl⟩, haddr, hx⟩ := h
    obtain ⟨e, he, rfl⟩ := List.mem_map.mp hx
    exact ⟨e, ⟨node, hnode, haddr, he⟩, rfl⟩
  · intro h
    obtain ⟨e, ⟨node, hnode, haddr, he⟩, rfl⟩ := h
    exact ⟨_, ⟨node, hnode, rfl⟩, haddr, List.mem_map_of_mem he⟩

theorem elements_setTimes (l : Nodes) (it : ℕ) (now : ℤ) :
    elements (setTimes l it now) = (elements l).map (retime it now) := by
  simp only [elements, setTimes, setTime, List.flatMap_map, List.map_flatMap]

theorem WellFormed.setTimes {c : LFUCache} (h : c.WellFormed) (it : ℕ) (now : ℤ) :
    WellFormed { c with frequencyList := LFUCache.setTimes c.frequencyList it now } where
  nonempty := by simpa [LFUCache.setTimes] using h.nonempty
  addrs := by
    have haddr := h.addrs
    simpa [LFUCache.setTimes, Function.comp_def] using haddr
  ptrs := by
    have hptr := h.ptrs
    simpa [elements_setTimes, Function.comp_def] using hptr
  urls := by
    have hurl := h.urls
    simpa [elements_setTimes, Function.comp_def] using hurl
  map_iff url n k := by
    rw [h.map_iff]
    simp only [sits_setTimes]
    constructor
    · intro hex
      obtain ⟨e, he, hu, hp⟩ := hex
      exact ⟨_, ⟨e, he, rfl⟩, by simpa using hu, by simpa using hp⟩
    · intro hex
      obtain ⟨x, ⟨e, he, rfl⟩, hu, hp⟩ := hex
      exact ⟨e, he, by simpa using hu, by simpa using hp⟩
  freshAddr node hnode := by
    obtain ⟨m, hm, rfl⟩ := List.mem_map.mp hnode
    exact h.freshAddr m hm
  freshPtr e he := by
    simp only [elements_setTimes] at he
    obtain ⟨x, hx, rfl⟩ := List.mem_map.mp he
    simpa using h.freshPtr x hx

end SetTimes

/-- What `find` can do. The element found is served with its new time; the
others stay where they are. -/
theorem find_cases {c : LFUCache} (h : c.WellFormed) (url : CString) (now : ℤ) :
    (url ∉ c.urls ∧ c.find url now = some (c, none)) ∨
    ∃ c' e, e ∈ elements c.frequencyList ∧ e.url = url ∧
      c.find url now = some (c', some { e with lruTimeTrack := now }) ∧
      c'.WellFormed ∧ c'.capacity = c.capacity ∧
      (∀ x, x ∈ elements c'.frequencyList ↔
        ∃ y ∈ elements c.frequencyList, x = retime e.ptr now y) := by
  by_cases hmem : url ∈ c.urls
  · right
    obtain ⟨e, n, hseat, rfl⟩ := WellFormed.mem_urls.mp hmem
    have he : e ∈ elements c.frequencyList := mem_elements.mpr ⟨n, hseat⟩
    obtain ⟨c', m, hinc, hwf, hcap, hsits⟩ := increment_spec h hseat
    have hset := hwf.setTimes e.ptr now
    have hiff := mem_elements_of_move hseat hsits
    have hserved : ({ e with lruTimeTrack := now } : CacheElement) ∈
        elements (setTimes c'.frequencyList e.ptr now) := by
      rw [elements_setTimes, ← retime_self]
      exact List.mem_map_of_mem ((hiff e).mpr he)
    refine ⟨_, e, he, rfl, ?_, hset, hcap, ?_⟩
    · unfold find
      rw [h.lookup_of_sits hseat]
      simp only [hinc, Option.bind_some]
      rw [show e.ptr = ({ e with lruTimeTrack := now } : CacheElement).ptr from rfl,
        deref_of_mem hset.ptrs hserved, Option.map_some]
    · intro x
      simp only [elements_setTimes, List.mem_map, hiff, eq_comm (a := x)]
  · left
    refine ⟨hmem, ?_⟩
    unfold find
    rw [(h.lookup_eq_none url).mpr hmem]

theorem pushFront_spec {c : LFUCache} (h : c.WellFormed) {url : CString} (hurl : url ∉ c.urls)
    (data : List Char) (len now : ℤ) :
    ∃ c', c.pushFront url data len now = some c' ∧ c'.WellFormed ∧ c'.capacity = c.capacity ∧
      (∀ x, x ∈ elements c'.frequencyList ↔
        x = CacheElement.make url data len now c.fresh ∨ x ∈ elements c.frequencyList) := by
  obtain ⟨front, rest, hlist⟩ := List.exists_cons_of_ne_nil h.nonempty
  have hfront : front ∈ c.frequencyList := by simp [hlist]
  have hptr : c.fresh ∉ (elements c.frequencyList).map (·.ptr) := by
    intro hmem
    obtain ⟨x, hx, hxp⟩ := List.mem_map.mp hmem
    exact (h.freshPtr x hx).ne hxp
  have hpush := h.push hfront (e := CacheElement.make url data len now c.fresh) hurl hptr
    (Nat.le_succ c.fresh) (Nat.lt_succ_self c.fresh)
  have hperm := elements_push h.addrs hfront (CacheElement.make url data len now c.fresh)
  refine ⟨_, ?_, hpush, rfl, ?_⟩
  · simp only [pushFront, hlist, List.head?_cons, Option.map_some]
    rfl
  · intro x
    exact hperm.mem_iff.trans List.mem_cons

theorem evict_cases {c : LFUCache} (h : c.WellFormed) (hne : c.urls ≠ []) :
    ∃ c' es v, c.evict = some c' ∧
      (leastFrequent c.frequencyList).map (·.elements) = some (es ++ [v]) ∧
      v ∈ elements c.frequencyList ∧ c'.WellFormed ∧ c'.capacity = c.capacity ∧
      (∀ x, x ∈ elements c'.frequencyList ↔ x ∈ elements c.frequencyList ∧ x ≠ v) := by
  have hne' : elements c.frequencyList ≠ [] := by
    intro hnil
    exact hne (by rw [urls, hnil, List.map_nil])
  obtain ⟨c', node, es, v, hevict, hleast, hnode, hes, hwf, hcap, hsits⟩ := evict_spec h hne'
  refine ⟨c', es, v, hevict, ?_, ?_, hwf, hcap, ?_⟩
  · rw [hleast, Option.map_some, hes]
  · exact mem_elements.mpr ⟨_, node, hnode, rfl, by simp [hes]⟩
  · intro x
    simp only [mem_elements, hsits]
    constructor
    · intro hx
      obtain ⟨k, hk, hxv⟩ := hx
      exact ⟨⟨k, hk⟩, hxv⟩
    · intro hx
      obtain ⟨⟨k, hk⟩, hxv⟩ := hx
      exact ⟨k, hk, hxv⟩

theorem add_cases {c : LFUCache} (h : c.WellFormed) (hc : 1 ≤ c.capacity) (url : CString)
    (data : List Char) (len now : ℤ) :
    (url ∈ c.urls ∧ ∃ c', c.add url data len now = some c' ∧ c'.WellFormed ∧
      c'.capacity = c.capacity ∧
      (∀ x, x ∈ elements c'.frequencyList ↔ x ∈ elements c.frequencyList)) ∨
    (url ∉ c.urls ∧ c.urls.length < c.capacity ∧
      c.add url data len now = c.pushFront url data len now) ∨
    (url ∉ c.urls ∧ c.capacity ≤ c.urls.length ∧ c.urls ≠ [] ∧
      c.add url data len now = c.evict.bind (fun c => c.pushFront url data len now)) := by
  by_cases hmem : url ∈ c.urls
  · left
    refine ⟨hmem, ?_⟩
    obtain ⟨e, n, hseat, rfl⟩ := WellFormed.mem_urls.mp hmem
    obtain ⟨c', m, hinc, hwf, hcap, hsits⟩ := increment_spec h hseat
    refine ⟨c', ?_, hwf, hcap, mem_elements_of_move hseat hsits⟩
    unfold add
    rw [h.lookup_of_sits hseat]
    exact hinc
  · right
    have hlookup := (h.lookup_eq_none url).mpr hmem
    by_cases hfull : c.capacity ≤ c.urls.length
    · right
      have hne : c.urls ≠ [] := by
        intro hnil
        rw [hnil, List.length_nil] at hfull
        omega
      refine ⟨hmem, hfull, hne, ?_⟩
      unfold add
      simp only [hlookup, h.length_keys, hfull, if_true]
    · left
      refine ⟨hmem, by omega, ?_⟩
      unfold add
      simp only [hlookup, h.length_keys, hfull, if_false, Option.bind_some]

theorem remove_cases {c : LFUCache} (h : c.WellFormed) (url : CString) :
    (url ∉ c.urls ∧ c.remove url = some c) ∨
    ∃ c' e, e ∈ elements c.frequencyList ∧ e.url = url ∧ c.remove url = some c' ∧
      c'.WellFormed ∧ c'.capacity = c.capacity ∧
      (∀ x, x ∈ elements c'.frequencyList ↔ x ∈ elements c.frequencyList ∧ x ≠ e) := by
  by_cases hmem : url ∈ c.urls
  · right
    obtain ⟨e, n, hseat, rfl⟩ := WellFormed.mem_urls.mp hmem
    have hlookup := h.lookup_of_sits hseat
    obtain ⟨node, hnode, rfl, he⟩ := hseat
    refine ⟨_, e, mem_elements.mpr ⟨_, node, hnode, rfl, he⟩, rfl, ?_, h.drop hnode he, rfl,
      ?_⟩
    · unfold remove
      simp only [hlookup, nodeAt_of_mem h.addrs hnode, Option.bind_some,
        deref_of_mem (h.node_ptrs hnode) he, Option.map_some]
    · intro x
      simp only [mem_elements, sits_unlink h.ptrs hnode he]
      constructor
      · intro hx
        obtain ⟨k, hk, hxe⟩ := hx
        exact ⟨⟨k, hk⟩, hxe⟩
      · intro hx
        obtain ⟨⟨k, hk⟩, hxe⟩ := hx
        exact ⟨k, hk, hxe⟩
  · left
    refine ⟨hmem, ?_⟩
    unfold remove
    rw [(h.lookup_eq_none url).mpr hmem]

end ProxyServer.LFUCache
