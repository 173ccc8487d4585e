import ProxyServer.LFUInvariant
import ProxyServer.RecordCache

/-!
The LFU cache evicts by records of touches. The front node of the list has the largest
frequency. A touched element of this frequency goes into a new front node, any other one
behind the front node; a new element joins the front node, which an eviction empties from
the back. So the whole list can be told from the calls: the front node holds the holder
of the last record and the newcomers, and the frequency of a node is the level of its
elements.
-/
namespace ProxyServer.LFUCache

open CacheElement FrequencyList

theorem atNode_cons (node : FrequencyNode) (l : Nodes) (n : ℕ)
    (f : List CacheElement → List CacheElement) : atNode (node :: l) n f =
      (if node.addr = n then { node with elements := f node.elements } else node) ::
        atNode l n f := rfl

theorem addr_ne_of_cons {c : LFUCache} (h : c.WellFormed) {front : FrequencyNode} {back : Nodes}
    (hlist : c.frequencyList = front :: back) : ∀ m ∈ back, m.addr ≠ front.addr := by
  have haddrs := h.addrs
  rw [hlist, List.map_cons, List.nodup_cons] at haddrs
  intro m hm heq
  exact haddrs.1 (heq ▸ List.mem_map_of_mem hm)

theorem mem_atNode {l : Nodes} {n : ℕ} {f : List CacheElement → List CacheElement}
    {node' : FrequencyNode} (h : node' ∈ atNode l n f) :
    ∃ node ∈ l, node'.frequency = node.frequency ∧
      ((node.addr = n ∧ node'.elements = f node.elements) ∨
        (node.addr ≠ n ∧ node'.elements = node.elements)) := by
  obtain ⟨node, hnode, rfl⟩ := List.mem_map.mp h
  refine ⟨node, hnode, ?_⟩
  by_cases haddr : node.addr = n
  · rw [if_pos haddr]
    exact ⟨rfl, Or.inl ⟨haddr, rfl⟩⟩
  · rw [if_neg haddr]
    exact ⟨rfl, Or.inr ⟨haddr, rfl⟩⟩

/-- The node an element goes to has the frequency wanted. -/
theorem nextNode_frequency (c : LFUCache) (nextFrequency : ℕ) :
    (∃ node ∈ (c.nextNode nextFrequency).1.frequencyList,
      node.addr = (c.nextNode nextFrequency).2 ∧ node.frequency = nextFrequency) ∧
    ∀ node ∈ (c.nextNode nextFrequency).1.frequencyList,
      node ∈ c.frequencyList ∨ node = ⟨c.fresh, nextFrequency, []⟩ := by
  have hi := WellFormed.next_le c.frequencyList nextFrequency
  have hinserted : ∀ node, node ∈ (c.insertNode
      (next c.frequencyList (findIf c.frequencyList nextFrequency)) nextFrequency).1.frequencyList ↔
      node = ⟨c.fresh, nextFrequency, []⟩ ∨ node ∈ c.frequencyList :=
    fun node => List.mem_insertIdx hi
  unfold nextNode
  dsimp only
  split
  · exact ⟨⟨_, (hinserted _).mpr (Or.inl rfl), rfl, rfl⟩,
      fun node hnode => ((hinserted node).mp hnode).symm⟩
  · rename_i node hget
    split
    · rename_i hfrequency
      exact ⟨⟨node, List.mem_of_getElem? hget, rfl, hfrequency⟩, fun _ hnode => Or.inl hnode⟩
    · exact ⟨⟨_, (hinserted _).mpr (Or.inl rfl), rfl, rfl⟩,
        fun node hnode => ((hinserted node).mp hnode).symm⟩

/-- An element moves to a node of the next frequency, the others keep theirs. -/
theorem increment_frequency {c c' : LFUCache} (h : c.WellFormed) {node : FrequencyNode}
    (hnode : node ∈ c.frequencyList) {e : CacheElement} (he : e ∈ node.elements)
    (hincrement : c.incrementFrequency e.url = some c') :
    ∀ node' ∈ c'.frequencyList,
      (node'.frequency = node.frequency + 1 ∨
        ∃ m ∈ c.frequencyList, m.frequency = node'.frequency) ∧
      ∀ x ∈ node'.elements, (x = e ∧ node'.frequency = node.frequency + 1) ∨
        (x ≠ e ∧ ∃ m ∈ c.frequencyList, x ∈ m.elements ∧ m.frequency = node'.frequency) := by
  obtain ⟨hext, _⟩ := h.nextNode (node.frequency + 1)
  obtain ⟨⟨target, htarget, haddr, hfrequency⟩, hnodes⟩ :=
    nextNode_frequency c (node.frequency + 1)
  rw [incrementFrequency, h.lookup_of_sits ⟨node, hnode, rfl, he⟩, Option.bind_some,
    nodeAt_of_mem h.addrs hnode, Option.bind_some, deref_of_mem (h.node_ptrs hnode) he,
    Option.map_some, Option.some.injEq] at hincrement
  subst hincrement
  intro node' hnode'
  obtain ⟨m₂, hm₂, hf₂, hpush⟩ := mem_atNode ((prune_sublist node.addr).subset hnode')
  obtain ⟨m₁, hm₁, hf₁, hunlink⟩ := mem_atNode hm₂
  have hold : m₁ ∈ c.frequencyList ∨ m₁.elements = [] := hext.nodes m₁ hm₁
  have hrest : ∀ x ∈ m₂.elements, x ≠ e ∧
      ∃ m ∈ c.frequencyList, x ∈ m.elements ∧ m.frequency = node'.frequency := by
    intro x hx
    have hseat := (sits_unlink hext.wellFormed.ptrs (hext.kept node hnode) he).mp
      ⟨m₂, hm₂, rfl, hx⟩
    have hx₁ : x ∈ m₁.elements := by
      rcases hunlink with ⟨_, heq⟩ | ⟨_, heq⟩
      · rw [heq] at hx
        exact (unlink_sublist _ _).subset hx
      · rwa [heq] at hx
    rcases hold with hold | hempty
    · exact ⟨hseat.2, m₁, hold, hx₁, by rw [hf₂, hf₁]⟩
    · rw [hempty] at hx₁
      contradiction
  constructor
  · rcases hnodes m₁ hm₁ with hmem | rfl
    · exact Or.inr ⟨m₁, hmem, by rw [hf₂, hf₁]⟩
    · exact Or.inl (by rw [hf₂, hf₁])
  · intro x hx
    rcases hpush with ⟨hat, heq⟩ | ⟨_, heq⟩
    · rw [heq] at hx
      rcases List.mem_cons.mp hx with rfl | hx
      · obtain ⟨m, hm, hma, hmf⟩ : ∃ m ∈ (c.nextNode (node.frequency + 1)).1.frequencyList,
            m.addr = m₂.addr ∧ m.frequency = m₂.frequency := by
          obtain ⟨m, hm, rfl⟩ := List.mem_map.mp hm₂
          refine ⟨m, hm, ?_⟩
          split <;> exact ⟨rfl, rfl⟩
        have hsame : m = target :=
          eq_of_addr hext.wellFormed.addrs hm htarget (hma.trans (hat.trans haddr.symm))
        exact Or.inl ⟨rfl, by rw [hf₂, ← hmf, hsame, hfrequency]⟩
      · exact Or.inr (hrest x hx)
    · rw [heq] at hx
      exact Or.inr (hrest x hx)

/-- An element of the largest frequency goes into a new front node. -/
theorem increment_greatest {c : LFUCache} (h : c.WellFormed) {node : FrequencyNode}
    (hnode : node ∈ c.frequencyList) {e : CacheElement} (he : e ∈ node.elements)
    (hgreatest : ∀ m ∈ c.frequencyList, m.frequency ≤ node.frequency) :
    (c.incrementFrequency e.url).map (·.frequencyList) =
      some (prune (⟨c.fresh, node.frequency + 1, [e]⟩ ::
        atNode c.frequencyList node.addr (fun es => unlink es e.ptr)) node.addr) := by
  have hend : findIf c.frequencyList (node.frequency + 1) = c.frequencyList.length := by
    rw [findIf, List.findIdx_eq_length]
    intro m hm
    have := hgreatest m hm
    simp only [decide_eq_false_iff_not]
    omega
  have hnew : c.nextNode (node.frequency + 1) = c.insertNode 0 (node.frequency + 1) := by
    simp only [nextNode, next, hend, if_true]
    split
    · rfl
    · next m hm =>
      have := hgreatest m (List.mem_of_getElem? hm)
      rw [if_neg (by omega)]
  have hne : c.fresh ≠ node.addr := (h.freshAddr node hnode).ne'
  have hothers : ∀ m ∈ atNode c.frequencyList node.addr (fun es => unlink es e.ptr),
      m.addr ≠ c.fresh := by
    intro m hm
    have haddr : m.addr ∈ (atNode c.frequencyList node.addr
        (fun es => unlink es e.ptr)).map (·.addr) := List.mem_map_of_mem hm
    rw [map_addr_atNode] at haddr
    obtain ⟨m', hm', heq⟩ := List.mem_map.mp haddr
    rw [← heq]
    exact (h.freshAddr m' hm').ne
  have hmoved : atNode (atNode (⟨c.fresh, node.frequency + 1, []⟩ :: c.frequencyList) node.addr
      (fun es => unlink es e.ptr)) c.fresh (fun es => e :: es) =
      ⟨c.fresh, node.frequency + 1, [e]⟩ ::
        atNode c.frequencyList node.addr (fun es => unlink es e.ptr) := by
    rw [atNode_cons, if_neg hne, atNode_cons, if_pos rfl, atNode_of_ne _ hothers]
  rw [incrementFrequency, h.lookup_of_sits ⟨node, hnode, rfl, he⟩, Option.bind_some,
    nodeAt_of_mem h.addrs hnode, Option.bind_some, deref_of_mem (h.node_ptrs hnode) he,
    Option.map_some, Option.map_some, hnew]
  simp only [insertNode, List.insertIdx_zero, hmoved]

/-- An element of a smaller frequency than the front node's goes behind it. -/
theorem increment_smaller {c c' : LFUCache} (h : c.WellFormed) {front : FrequencyNode}
    {back : Nodes} (hlist : c.frequencyList = front :: back) {node : FrequencyNode}
    (hnode : node ∈ c.frequencyList) {e : CacheElement} (he : e ∈ node.elements)
    (hless : node.frequency < front.frequency)
    (hincrement : c.incrementFrequency e.url = some c') :
    c'.frequencyList.head? = some front := by
  have hfind : findIf c.frequencyList (node.frequency + 1) = 0 := by
    have hle : node.frequency + 1 ≤ front.frequency := hless
    rw [findIf, hlist, List.findIdx_cons, decide_eq_true hle]
    rfl
  have hnext : next c.frequencyList (findIf c.frequencyList (node.frequency + 1)) = 1 := by
    rw [hfind, next, if_neg (by simp [hlist])]
  have hback : node ∈ back := by
    rw [hlist] at hnode
    rcases List.mem_cons.mp hnode with rfl | hnode
    · exact absurd hless (lt_irrefl _)
    · exact hnode
  have hbackAddr := addr_ne_of_cons h hlist
  have hfront : front.addr ≠ node.addr := (hbackAddr node hback).symm
  obtain ⟨hhead, hit⟩ : (c.nextNode (node.frequency + 1)).1.frequencyList.head? = some front ∧
      front.addr ≠ (c.nextNode (node.frequency + 1)).2 := by
    have hfresh : front.addr ≠ c.fresh := (h.freshAddr front (by simp [hlist])).ne
    unfold nextNode
    dsimp only
    rw [hnext]
    split
    · exact ⟨by simp [insertNode, hlist], hfresh⟩
    · rename_i second hsecond
      split
      · rw [hlist, List.getElem?_cons_succ] at hsecond
        exact ⟨by simp [hlist], (hbackAddr second (List.mem_of_getElem? hsecond)).symm⟩
      · exact ⟨by simp [insertNode, hlist], hfresh⟩
  obtain ⟨hext, _⟩ := h.nextNode (node.frequency + 1)
  rw [incrementFrequency, h.lookup_of_sits ⟨node, hnode, rfl, he⟩, Option.bind_some,
    nodeAt_of_mem h.addrs hnode, Option.bind_some, deref_of_mem (h.node_ptrs hnode) he,
    Option.map_some, Option.some.injEq] at hincrement
  subst hincrement
  have haddrs : ((atNode (atNode (c.nextNode (node.frequency + 1)).1.frequencyList node.addr
      (fun es => unlink es e.ptr)) (c.nextNode (node.frequency + 1)).2
      (fun es => e :: es)).map (·.addr)).Nodup := by
    simpa using hext.wellFormed.addrs
  rw [head?_prune haddrs]
  simp only [atNode, List.head?_map, hhead, Option.map_some, if_neg hfront, if_neg hit]

/-- The front node holds `front` at the largest frequency, and every element sits in a
node of its level. -/
structure Levels (l : Nodes) (front : List CString) (records : ℕ) (level : CString → ℕ) :
    Prop where
  front : ∃ addr es, l.head? = some ⟨addr, records, es⟩ ∧ es.map (·.url) = front
  le : ∀ node ∈ l, node.frequency ≤ records
  level : ∀ node ∈ l, ∀ e ∈ node.elements, level e.url = node.frequency

/-- A cache that holds what `h` tells. -/
structure Follows (cap : ℕ) (c : LFUCache) (h : RecordCache CString) : Prop where
  wellFormed : c.WellFormed
  capacity : c.capacity = cap
  mem_iff : ∀ url, url ∈ c.urls ↔ url ∈ h.resident
  levels : Levels c.frequencyList h.front h.records h.level
  kept : h.Kept cap

theorem Levels.setTimes {l : Nodes} {front : List CString} {records : ℕ} {level : CString → ℕ}
    (h : Levels l front records level) (it : ℕ) (now : ℤ) :
    Levels (setTimes l it now) front records level where
  front := by
    obtain ⟨addr, es, hhead, rfl⟩ := h.front
    refine ⟨addr, setTime es it now, by simp [LFUCache.setTimes, hhead], ?_⟩
    simp [setTime, Function.comp_def]
  le node' hnode' := by
    obtain ⟨node, hnode, rfl⟩ := List.mem_map.mp hnode'
    exact h.le node hnode
  level node' hnode' e' he' := by
    obtain ⟨node, hnode, rfl⟩ := List.mem_map.mp hnode'
    obtain ⟨e, he, rfl⟩ := List.mem_map.mp he'
    rw [retime_url]
    exact h.level node hnode e he

/-- The elements that stay where they are keep the levels. -/
theorem Levels.of_nodes {l l' : Nodes} {front front' : List CString} {records : ℕ}
    {level level' : CString → ℕ} (h : Levels l front records level)
    (hhead : ∃ addr es, l'.head? = some ⟨addr, records, es⟩ ∧ es.map (·.url) = front')
    (hnodes : ∀ node' ∈ l', ∃ node ∈ l, node'.frequency = node.frequency ∧
      ∀ x ∈ node'.elements, (x ∈ node.elements ∧ level' x.url = level x.url) ∨
        level' x.url = node.frequency) : Levels l' front' records level' where
  front := hhead
  le node' hnode' := by
    obtain ⟨node, hnode, hf, _⟩ := hnodes node' hnode'
    rw [hf]
    exact h.le node hnode
  level node' hnode' x hx := by
    obtain ⟨node, hnode, hf, helements⟩ := hnodes node' hnode'
    rw [hf]
    rcases helements x hx with ⟨hmem, hlevel⟩ | hlevel
    · rw [hlevel]
      exact h.level node hnode x hmem
    · exact hlevel

namespace Follows

variable {cap : ℕ} {c : LFUCache} {h : RecordCache CString}

theorem create (hcap : 1 ≤ cap) : Follows cap (create cap) RecordCache.empty where
  wellFormed := create_wellFormed cap
  capacity := rfl
  mem_iff := by simp [LFUCache.create, urls, elements, RecordCache.empty]
  levels := ⟨⟨0, [], rfl, rfl⟩, by simp [LFUCache.create, RecordCache.empty],
    by simp [LFUCache.create]⟩
  kept := RecordCache.Kept.empty hcap

theorem card (hf : Follows cap c h) : h.resident.card = c.urls.length := by
  have heq : h.resident = c.urls.toFinset := by
    ext url
    rw [List.mem_toFinset, hf.mem_iff]
  have hnodup : c.urls.Nodup := hf.wellFormed.urls
  rw [heq, List.toFinset_card_of_nodup hnodup]

theorem increment (hf : Follows cap c h) {url : CString} (hurl : url ∈ c.urls) :
    ∃ c', c.incrementFrequency url = some c' ∧ Follows cap c' (h.touch url) := by
  obtain ⟨e, n, ⟨node, hnode, rfl, he⟩, rfl⟩ := WellFormed.mem_urls.mp hurl
  obtain ⟨c', m, hincrement, hwf, hcapacity, hsits⟩ :=
    increment_spec hf.wellFormed ⟨node, hnode, rfl, he⟩
  have helements := mem_elements_of_move ⟨node, hnode, rfl, he⟩ hsits
  have hmoved := increment_frequency hf.wellFormed hnode he hincrement
  have hlevel : h.level e.url = node.frequency := hf.levels.level node hnode e he
  have hmem : ∀ u, u ∈ c'.urls ↔ u ∈ (h.touch e.url).resident := by
    intro u
    have hresident : (h.touch e.url).resident = h.resident := by
      unfold RecordCache.touch
      split <;> rfl
    rw [hresident, ← hf.mem_iff]
    simp only [urls, List.mem_map, helements]
  have hkept := hf.kept.touch ((hf.mem_iff e.url).mp hurl)
  have hother : ∀ x m, m ∈ c.frequencyList → x ∈ m.elements → x ≠ e → x.url ≠ e.url := by
    intro x m hm hx hxe hu
    exact hxe (hf.wellFormed.eq_of_sits ⟨m, hm, rfl, hx⟩ ⟨node, hnode, rfl, he⟩ hu)
  refine ⟨c', hincrement, hwf, hcapacity.trans hf.capacity, hmem, ?_, hkept⟩
  unfold RecordCache.touch
  by_cases hrecord : h.level e.url = h.records
  · rw [if_pos hrecord]
    have hgreatest : ∀ m ∈ c.frequencyList, m.frequency ≤ node.frequency := by
      rw [← hlevel, hrecord]
      exact hf.levels.le
    have hlist := increment_greatest hf.wellFormed hnode he hgreatest
    rw [hincrement, Option.map_some, Option.some.injEq] at hlist
    refine ⟨⟨c.fresh, [e], ?_, rfl⟩, ?_, ?_⟩
    · have haddrs : ((⟨c.fresh, node.frequency + 1, [e]⟩ ::
          atNode c.frequencyList node.addr (fun es => unlink es e.ptr) : Nodes).map
            (·.addr)).Nodup := by
        rw [List.map_cons, map_addr_atNode]
        refine List.nodup_cons.mpr ⟨?_, hf.wellFormed.addrs⟩
        intro hin
        obtain ⟨m, hm, haddr⟩ := List.mem_map.mp hin
        exact (hf.wellFormed.freshAddr m hm).ne haddr
      rw [hlist, head?_prune haddrs, ← hrecord, hlevel]
      rfl
    · intro node' hnode'
      have hle := (hmoved node' hnode').1
      rw [← hrecord, hlevel]
      rcases hle with heq | ⟨m, hm, heq⟩
      · exact heq.le
      · rw [← heq]
        exact (hgreatest m hm).trans (Nat.le_succ _)
    · intro node' hnode' x hx
      rcases (hmoved node' hnode').2 x hx with ⟨rfl, heq⟩ | ⟨hxe, m, hm, hxm, heq⟩
      · rw [heq, ← hlevel, hrecord]
        exact Function.update_self ..
      · rw [← heq, ← hf.levels.level m hm x hxm]
        exact Function.update_of_ne (hother x m hm hxm hxe) ..
  · rw [if_neg hrecord]
    have hless : node.frequency < h.records :=
      lt_of_le_of_ne (hf.levels.le node hnode) (fun heq => hrecord (hlevel.trans heq))
    obtain ⟨addr, es, hhead, hfront⟩ := hf.levels.front
    obtain ⟨back, hlist⟩ := List.head?_eq_some_iff.mp hhead
    refine ⟨⟨addr, es, increment_smaller hf.wellFormed hlist hnode he hless hincrement, hfront⟩,
      ?_, ?_⟩
    · intro node' hnode'
      rcases (hmoved node' hnode').1 with heq | ⟨m, hm, heq⟩
      · rw [heq]
        exact hless
      · rw [← heq]
        exact hf.levels.le m hm
    · intro node' hnode' x hx
      rcases (hmoved node' hnode').2 x hx with ⟨rfl, heq⟩ | ⟨hxe, m, hm, hxm, heq⟩
      · rw [heq, ← hlevel]
        exact Function.update_self ..
      · rw [← heq, ← hf.levels.level m hm x hxm]
        exact Function.update_of_ne (hother x m hm hxm hxe) ..

theorem setTimes (hf : Follows cap c h) (it : ℕ) (now : ℤ) :
    Follows cap { c with frequencyList := LFUCache.setTimes c.frequencyList it now } h where
  wellFormed := hf.wellFormed.setTimes it now
  capacity := hf.capacity
  mem_iff url := by
    rw [← hf.mem_iff]
    simp only [urls, elements_setTimes, List.map_map, List.mem_map, Function.comp_apply,
      retime_url]
  levels := hf.levels.setTimes it now
  kept := hf.kept

theorem find (hf : Follows cap c h) (url : CString) (now : ℤ) :
    ∃ c' answer, c.find url now = some (c', answer) ∧
      Follows cap c' (h.step cap (.find url)) := by
  by_cases hurl : url ∈ c.urls
  · obtain ⟨c₁, hincrement, hf₁⟩ := hf.increment hurl
    rcases find_cases hf.wellFormed url now with
      ⟨hnot, _⟩ | ⟨c', e, he, rfl, hfind, _⟩
    · exact absurd hurl hnot
    · refine ⟨c', _, hfind, ?_⟩
      obtain ⟨n, hseat⟩ := mem_elements.mp he
      rw [LFUCache.find, hf.wellFormed.lookup_of_sits hseat] at hfind
      simp only [hincrement, Option.bind_some] at hfind
      obtain ⟨_, _, heq⟩ := Option.map_eq_some_iff.mp hfind
      cases heq
      rw [RecordCache.step, if_pos ((hf.mem_iff e.url).mp hurl)]
      exact hf₁.setTimes e.ptr now
  · rcases find_cases hf.wellFormed url now with ⟨_, hfind⟩ | ⟨_, e, he, rfl, _⟩
    · refine ⟨c, none, hfind, ?_⟩
      rw [RecordCache.step, if_neg (mt (hf.mem_iff url).mpr hurl)]
      exact hf
    · exact absurd (List.mem_map_of_mem he) hurl

theorem insert (hf : Follows cap c h) {url : CString} (hurl : url ∉ c.urls)
    (hroom : h.resident.card < cap) (data : List Char) (len now : ℤ) :
    ∃ c', c.pushFront url data len now = some c' ∧ Follows cap c' (h.insert url) := by
  obtain ⟨c', hpush, hwf, hcapacity, helements⟩ :=
    pushFront_spec hf.wellFormed hurl data len now
  refine ⟨c', hpush, hwf, hcapacity.trans hf.capacity, ?_, ?_,
    hf.kept.insert (mt (hf.mem_iff url).mpr hurl) hroom⟩
  · intro u
    simp only [RecordCache.insert, Finset.mem_insert, ← hf.mem_iff, urls, List.mem_map, helements]
    constructor
    · rintro ⟨x, rfl | hx, rfl⟩
      · exact Or.inl rfl
      · exact Or.inr ⟨x, hx, rfl⟩
    · rintro (rfl | ⟨x, hx, rfl⟩)
      · exact ⟨_, Or.inl rfl, rfl⟩
      · exact ⟨x, Or.inr hx, rfl⟩
  · obtain ⟨addr, es, hhead, hfront⟩ := hf.levels.front
    obtain ⟨back, hlist⟩ := List.head?_eq_some_iff.mp hhead
    have hbackAddr : ∀ m ∈ back, m.addr ≠ addr := addr_ne_of_cons hf.wellFormed hlist
    rw [pushFront, hlist] at hpush
    simp only [List.head?_cons, Option.map_some, Option.some.injEq] at hpush
    subst hpush
    apply hf.levels.of_nodes
    · refine ⟨addr, CacheElement.make url data len now c.fresh :: es, ?_, ?_⟩
      · simp [atNode_cons]
      · rw [List.map_cons, hfront]
        rfl
    · intro node' hnode'
      obtain ⟨node, hnode, hf', helems⟩ := mem_atNode hnode'
      have hmem : node ∈ c.frequencyList := hlist ▸ hnode
      refine ⟨node, hmem, hf', ?_⟩
      have hold : ∀ x ∈ node.elements, x ∈ node.elements ∧
          (h.insert url).level x.url = h.level x.url := by
        intro x hx
        refine ⟨hx, Function.update_of_ne ?_ ..⟩
        rintro rfl
        exact hurl (List.mem_map_of_mem (mem_elements.mpr ⟨_, node, hmem, rfl, hx⟩))
      intro x hx
      rcases helems with ⟨haddr, heq⟩ | ⟨_, heq⟩
      · rw [heq] at hx
        rcases List.mem_cons.mp hx with rfl | hx
        · right
          rcases List.mem_cons.mp hnode with rfl | hback
          · exact Function.update_self ..
          · exact absurd haddr (hbackAddr node hback)
        · exact Or.inl (hold x hx)
      · rw [heq] at hx
        exact Or.inl (hold x hx)

theorem drop (hf : Follows cap c h) {c' : LFUCache} {e : CacheElement}
    (he : e ∈ elements c.frequencyList) (hwf : c'.WellFormed) (hcapacity : c'.capacity = c.capacity)
    (hsub : ∀ x, x ∈ elements c'.frequencyList ↔ x ∈ elements c.frequencyList ∧ x ≠ e)
    (hlevels : Levels c'.frequencyList (h.drop e.url).front h.records h.level) :
    Follows cap c' (h.drop e.url) where
  wellFormed := hwf
  capacity := hcapacity.trans hf.capacity
  mem_iff url := by
    simp only [RecordCache.drop, Finset.mem_erase, ← hf.mem_iff, urls, List.mem_map, hsub]
    constructor
    · rintro ⟨x, ⟨hx, hxe⟩, rfl⟩
      exact ⟨fun heq => hxe (eq_of_url hf.wellFormed.urls hx he heq), x, hx, rfl⟩
    · rintro ⟨hue, x, hx, rfl⟩
      exact ⟨x, ⟨hx, fun heq => hue (by rw [heq])⟩, rfl⟩
  levels := hlevels
  kept := hf.kept.drop e.url

/-- Unlinking an element from its node, seen from the front. -/
theorem unlink_front (hf : Follows cap c h) {node : FrequencyNode} (hnode : node ∈ c.frequencyList)
    {e : CacheElement} (he : e ∈ node.elements) :
    Levels (atNode c.frequencyList node.addr (fun es => unlink es e.ptr)) (h.drop e.url).front
      h.records h.level := by
  obtain ⟨addr, es, hhead, hfront⟩ := hf.levels.front
  obtain ⟨back, hlist⟩ := List.head?_eq_some_iff.mp hhead
  have hin : (⟨addr, h.records, es⟩ : FrequencyNode) ∈ c.frequencyList := by simp [hlist]
  have hunlink : (unlink es e.ptr).map (·.url) = (h.drop e.url).front := by
    rw [RecordCache.front_drop, ← hfront, List.filter_map]
    congr 1
    apply List.filter_congr
    intro x hx
    have hsame : x.ptr = e.ptr ↔ x.url = e.url := by
      have hx' : x ∈ elements c.frequencyList := mem_elements.mpr ⟨_, _, hin, rfl, hx⟩
      have he' : e ∈ elements c.frequencyList := mem_elements.mpr ⟨_, node, hnode, rfl, he⟩
      constructor
      · exact fun hp => congrArg (·.url) (eq_of_ptr hf.wellFormed.ptrs hx' he' hp)
      · exact fun hu => congrArg (·.ptr) (eq_of_url hf.wellFormed.urls hx' he' hu)
    rw [Bool.eq_iff_iff, bne_iff_ne, Function.comp_apply, decide_eq_true_eq, ne_eq, hsame]
  apply hf.levels.of_nodes
  · by_cases haddr : addr = node.addr
    · refine ⟨addr, unlink es e.ptr, ?_, hunlink⟩
      simp [hlist, atNode_cons, haddr]
    · refine ⟨addr, es, ?_, ?_⟩
      · simp [hlist, atNode_cons, haddr]
      · rw [← hunlink, unlink, List.filter_eq_self.mpr]
        intro x hx
        rw [bne_iff_ne]
        intro hp
        have hxe : x = e := eq_of_ptr hf.wellFormed.ptrs (mem_elements.mpr ⟨_, _, hin, rfl, hx⟩)
          (mem_elements.mpr ⟨_, node, hnode, rfl, he⟩) hp
        exact haddr (seat_unique hf.wellFormed.ptrs ⟨_, hin, rfl, hx⟩
          (hxe ▸ ⟨node, hnode, rfl, he⟩))
  · intro node' hnode'
    obtain ⟨m, hm, hf', helems⟩ := mem_atNode hnode'
    refine ⟨m, hm, hf', fun x hx => Or.inl ⟨?_, rfl⟩⟩
    rcases helems with ⟨_, heq⟩ | ⟨_, heq⟩
    · rw [heq] at hx
      exact (unlink_sublist _ _).subset hx
    · rwa [heq] at hx

theorem remove (hf : Follows cap c h) (url : CString) :
    ∃ c', c.remove url = some c' ∧ Follows cap c' (h.drop url) := by
  by_cases hurl : url ∈ c.urls
  · obtain ⟨e, n, ⟨node, hnode, rfl, he⟩, rfl⟩ := WellFormed.mem_urls.mp hurl
    have hlookup := hf.wellFormed.lookup_of_sits ⟨node, hnode, rfl, he⟩
    have hin : e ∈ elements c.frequencyList := mem_elements.mpr ⟨_, node, hnode, rfl, he⟩
    rw [LFUCache.remove, hlookup]
    simp only [nodeAt_of_mem hf.wellFormed.addrs hnode, Option.bind_some,
      deref_of_mem (hf.wellFormed.node_ptrs hnode) he, Option.map_some]
    refine ⟨_, rfl, ?_⟩
    refine hf.drop hin (hf.wellFormed.drop hnode he) rfl ?_ (hf.unlink_front hnode he)
    intro x
    simp only [mem_elements, sits_unlink hf.wellFormed.ptrs hnode he, exists_and_right]
  · rcases remove_cases hf.wellFormed url with ⟨_, hremove⟩ | ⟨_, e, he, rfl, _⟩
    · refine ⟨c, hremove, ?_⟩
      have hnot : url ∉ h.resident := mt (hf.mem_iff url).mpr hurl
      refine ⟨hf.wellFormed, hf.capacity, ?_, ?_, hf.kept.drop url⟩
      · intro u
        rw [RecordCache.drop, Finset.erase_eq_of_notMem hnot]
        exact hf.mem_iff u
      · have hfront : (h.drop url).front = h.front := by
          rw [RecordCache.front_drop, List.filter_eq_self]
          intro u hu
          rw [decide_eq_true_eq]
          rintro rfl
          exact hnot (hf.kept.subset u hu)
        rw [hfront]
        exact hf.levels
    · exact absurd (List.mem_map_of_mem he) hurl

/-- A full cache evicts the URL at the back of the front node. -/
theorem evict (hf : Follows cap c h) (hfull : cap ≤ h.resident.card) :
    ∃ c' v, c.evict = some c' ∧
      (leastFrequent c.frequencyList).bind (fun node => node.elements.getLast?) = some v ∧
      h.front.getLast? = some v.url ∧ Follows cap c' h.evict := by
  obtain ⟨u, l, hl, hdrop, _⟩ := hf.kept.evict_eq hfull
  obtain ⟨addr, es, hhead, hfront⟩ := hf.levels.front
  obtain ⟨back, hlist⟩ := List.head?_eq_some_iff.mp hhead
  have hin : (⟨addr, h.records, es⟩ : FrequencyNode) ∈ c.frequencyList := by simp [hlist]
  have hes : es ≠ [] := by
    rintro rfl
    rw [hl] at hfront
    simp at hfront
  have hleast : leastFrequent c.frequencyList = some ⟨addr, h.records, es⟩ := by
    rw [leastFrequent, hlist, List.find?_cons_of_pos (by simpa using hes)]
  obtain ⟨e, he⟩ := List.exists_mem_of_ne_nil _ hes
  obtain ⟨c', node, init, v, hevict, hnode, _, helems, hwf, hcapacity, hsits⟩ :=
    evict_spec hf.wellFormed (List.ne_nil_of_mem (mem_elements.mpr ⟨_, _, hin, rfl, he⟩))
  rw [hleast, Option.some.injEq] at hnode
  subst hnode
  dsimp only at helems
  subst helems
  have hv : v ∈ elements c.frequencyList := mem_elements.mpr ⟨_, _, hin, rfl, by simp⟩
  rw [hl, List.map_append, List.map_cons, List.map_nil] at hfront
  obtain ⟨hinit, hlast⟩ := List.append_inj' hfront rfl
  rw [List.cons.injEq] at hlast
  obtain ⟨rfl, _⟩ := hlast
  refine ⟨c', v, hevict, ?_, by rw [hl, List.getLast?_concat], ?_⟩
  · rw [hleast, Option.bind_some, List.getLast?_concat]
  rw [hdrop]
  refine hf.drop hv hwf hcapacity ?_ ?_
  · intro x
    simp only [mem_elements, hsits, exists_and_right]
  · have hrest : (h.drop v.url).front = l := by
      have hnodup := hf.kept.nodup
      rw [hl, List.nodup_append] at hnodup
      rw [RecordCache.front_drop, hl, List.filter_append, List.filter_eq_self.mpr]
      · simp
      · intro j hj
        rw [decide_eq_true_eq]
        exact hnodup.2.2 j hj v.url (by simp)
    have hlist' : c'.frequencyList = prune (atNode c.frequencyList addr List.dropLast) addr := by
      rw [LFUCache.evict, hleast, Option.bind_some, List.getLast?_concat, Option.map_some,
        Option.some.injEq] at hevict
      rw [← hevict]
    have haddrs : ((atNode c.frequencyList addr List.dropLast).map (·.addr)).Nodup := by
      rw [map_addr_atNode]
      exact hf.wellFormed.addrs
    apply hf.levels.of_nodes
    · refine ⟨addr, init, ?_, by rw [hinit, hrest]⟩
      rw [hlist', head?_prune haddrs, hlist, atNode_cons, if_pos rfl, List.head?_cons,
        List.dropLast_concat]
    · intro node' hnode'
      rw [hlist'] at hnode'
      obtain ⟨m, hm, hf', hcase⟩ := mem_atNode ((prune_sublist addr).subset hnode')
      refine ⟨m, hm, hf', fun x hx => Or.inl ⟨?_, rfl⟩⟩
      rcases hcase with ⟨_, heq⟩ | ⟨_, heq⟩
      · rw [heq] at hx
        exact List.mem_of_mem_dropLast hx
      · rwa [heq] at hx

theorem add (hf : Follows cap c h) (hcap : 1 ≤ cap) (url : CString) (data : List Char)
    (len now : ℤ) :
    ∃ c', c.add url data len now = some c' ∧ Follows cap c' (h.step cap (.add url)) := by
  have hc : 1 ≤ c.capacity := hf.capacity ▸ hcap
  rcases add_cases hf.wellFormed hc url data len now with
    ⟨hurl, _⟩ | ⟨hurl, hlt, hadd⟩ | ⟨hurl, hfull, _, hadd⟩
  · obtain ⟨c', hincrement, hf'⟩ := hf.increment hurl
    obtain ⟨e, n, hseat, rfl⟩ := WellFormed.mem_urls.mp hurl
    refine ⟨c', ?_, ?_⟩
    · rw [LFUCache.add, hf.wellFormed.lookup_of_sits hseat]
      exact hincrement
    · rwa [RecordCache.step, if_pos ((hf.mem_iff _).mp hurl)]
  · have hroom : h.resident.card < cap := by
      rw [hf.card, ← hf.capacity]
      exact hlt
    rw [hadd, RecordCache.step, if_neg (mt (hf.mem_iff url).mpr hurl),
      if_neg (Nat.not_le.mpr hroom)]
    exact hf.insert hurl hroom data len now
  · have hfull' : cap ≤ h.resident.card := by
      rw [hf.card, ← hf.capacity]
      exact hfull
    obtain ⟨c₁, v, hevict, _, _, hf₁⟩ := hf.evict hfull'
    obtain ⟨u, _, _, hdrop, _, hroom⟩ := hf.kept.evict_eq hfull'
    have hurl₁ : url ∉ c₁.urls := by
      rw [hf₁.mem_iff, hdrop]
      exact mt Finset.mem_of_mem_erase (mt (hf.mem_iff url).mpr hurl)
    rw [hadd, hevict, Option.bind_some, RecordCache.step, if_neg (mt (hf.mem_iff url).mpr hurl),
      if_pos hfull']
    exact hf₁.insert hurl₁ (by rwa [hdrop]) data len now

/-- A call on the cache is the call on the records. -/
theorem step (hf : Follows cap c h) (hcap : 1 ≤ cap) (op : CacheOp) :
    ∃ c', c.step op = some c' ∧ Follows cap c' (h.step cap op.access) := by
  cases op with
  | find url now =>
    obtain ⟨c', answer, hfind, hf'⟩ := hf.find url now
    exact ⟨c', by rw [LFUCache.step, hfind, Option.map_some], hf'⟩
  | add url data len now => exact hf.add hcap url data len now
  | remove url => exact hf.remove url

end Follows

/-- What the calls tell of the records. -/
def records (cap : ℕ) (ops : List CacheOp) : RecordCache CString :=
  RecordCache.run cap (ops.map CacheOp.access)

theorem exists_run_follows (cap : ℕ) (hcap : 1 ≤ cap) (ops : List CacheOp) :
    ∃ c, Runs.run step (create cap) ops = some c ∧ Follows cap c (records cap ops) := by
  obtain ⟨c, h, hrun, hh, hfollows⟩ := Runs.run_simulation step
    (fun h op => some (RecordCache.step cap h op.access)) (Follows cap)
    (fun c h op hf => by
      obtain ⟨c', hstep, hf'⟩ := hf.step hcap op
      exact ⟨c', _, hstep, rfl, hf'⟩) ops (create cap) RecordCache.empty (Follows.create hcap)
  rw [Runs.run_some] at hh
  refine ⟨c, hrun, ?_⟩
  have heq : records cap ops = h := by
    rw [records, RecordCache.run, List.foldl_map]
    exact Option.some.inj hh
  rw [heq]
  exact hfollows

/-- A frequency is at most the number of calls, so `frequency + 1` stays within an int in
every run of fewer than `2 ^ 31 - 1` calls. -/
theorem frequency_le_length (cap : ℕ) (hcap : 1 ≤ cap) (ops : List CacheOp) :
    ∃ c, Runs.run step (create cap) ops = some c ∧
      ∀ node ∈ c.frequencyList, node.frequency ≤ ops.length := by
  obtain ⟨c, hrun, hf⟩ := exists_run_follows cap hcap ops
  refine ⟨c, hrun, fun node hnode => (hf.levels.le node hnode).trans ?_⟩
  have hle := RecordCache.records_le cap (ops.map CacheOp.access)
  rwa [List.length_map] at hle

end ProxyServer.LFUCache
