import ProxyServer.LRUCache
import ProxyServer.LFUInvariant

/-!
The interface both caches implement and the factory that picks one. For the
code around a cache three things matter: a call on a well-formed cache is
defined, the element it answers is resident when it returns, and of the
elements resident before it only the one it frees, if any, is gone after it.
-/
namespace ProxyServer

namespace LRUCache

open CacheElement

/-- The element a call frees: the one evicted, or the one removed. -/
def freed (c : LRUCache) : CacheOp → Option CacheElement
  | .find _ _ => none
  | .add url _ _ _ =>
      if c.cacheMap.lookup url = none ∧ c.capacity ≤ c.cacheList.length
      then c.cacheList.getLast? else none
  | .remove url => (c.cacheMap.lookup url).bind (deref c.cacheList)

theorem ptr_toFront {c : LRUCache} {e x : CacheElement} (he : e ∈ c.cacheList)
    (hx : x.ptr = e.ptr) (p : ℕ) :
    (∃ y ∈ x :: unlink c.cacheList e.ptr, y.ptr = p) ↔ ∃ y ∈ c.cacheList, y.ptr = p := by
  constructor
  · intro h
    obtain ⟨y, hy, rfl⟩ := h
    rcases List.mem_cons.mp hy with rfl | hy
    · exact ⟨e, he, hx.symm⟩
    · exact ⟨y, (mem_unlink.mp hy).1, rfl⟩
  · intro h
    obtain ⟨y, hy, rfl⟩ := h
    by_cases hye : y.ptr = e.ptr
    · exact ⟨x, List.mem_cons_self, hx.trans hye.symm⟩
    · exact ⟨y, List.mem_cons_of_mem _ (mem_unlink.mpr ⟨hy, hye⟩), rfl⟩

theorem ptr_unlink {c : LRUCache} {e : CacheElement} (p : ℕ) :
    (∃ y ∈ unlink c.cacheList e.ptr, y.ptr = p) ↔
      (∃ y ∈ c.cacheList, y.ptr = p) ∧ e.ptr ≠ p := by
  constructor
  · intro h
    obtain ⟨y, hy, rfl⟩ := h
    obtain ⟨hyl, hyp⟩ := mem_unlink.mp hy
    exact ⟨⟨y, hyl, rfl⟩, Ne.symm hyp⟩
  · intro h
    obtain ⟨⟨y, hy, rfl⟩, hne⟩ := h
    exact ⟨y, mem_unlink.mpr ⟨hy, Ne.symm hne⟩, rfl⟩

/-- Of the elements made before a call, it unlinks only the one it frees. -/
theorem step_freed {c c' : LRUCache} (h : c.WellFormed) (hc : 1 ≤ c.capacity) {op : CacheOp}
    (hstep : c.step op = some c') (p : ℕ) (hp : p < c.fresh) :
    (∃ x ∈ c'.cacheList, x.ptr = p) ↔
      (∃ x ∈ c.cacheList, x.ptr = p) ∧ ∀ v, c.freed op = some v → v.ptr ≠ p := by
  have hpush : ∀ (l : List CacheElement) (url : CString) (data : List Char) (len now : ℤ),
      (∃ x ∈ CacheElement.make url data len now c.fresh :: l, x.ptr = p) ↔
        ∃ x ∈ l, x.ptr = p := by
    intro l url data len now
    rw [List.exists_mem_cons_iff, or_iff_right]
    exact hp.ne'
  cases op with
  | find url now =>
    simp only [freed, reduceCtorEq, false_implies, implies_true, and_true]
    rcases find_cases h url now with ⟨_, hfind⟩ | ⟨e, he, rfl, hfind⟩
    · rw [step, hfind] at hstep
      cases hstep
      rfl
    · rw [step, hfind] at hstep
      cases hstep
      exact ptr_toFront (x := { e with lruTimeTrack := now }) he rfl p
  | add url data len now =>
    rcases add_cases h hc url data len now with
      ⟨e, he, rfl, hadd⟩ | ⟨hmem, hlt, hadd⟩ | ⟨hmem, hfull, l, v, hl, hadd⟩
    · rw [step, hadd] at hstep
      cases hstep
      simp only [freed, h.lookup_of_mem he, reduceCtorEq, false_and, if_false, false_implies,
        implies_true, and_true]
      exact ptr_toFront he rfl p
    · rw [step, hadd] at hstep
      cases hstep
      simp only [freed, Nat.not_le.mpr hlt, and_false, if_false, reduceCtorEq, false_implies,
        implies_true, and_true]
      exact hpush _ url data len now
    · rw [step, hadd] at hstep
      cases hstep
      have hfreed : c.freed (.add url data len now) = some v := by
        rw [freed, if_pos ⟨(h.lookup_eq_none url).mpr hmem, hfull⟩, hl, List.getLast?_concat]
      have hunlink : unlink c.cacheList v.ptr = l := by
        rw [hl, unlink_last (hl ▸ h.ptrs)]
      simp only [hfreed, Option.some.injEq, forall_eq']
      rw [← ptr_unlink, hunlink]
      exact hpush l url data len now
  | remove url =>
    rcases remove_cases h url with ⟨hmem, hremove⟩ | ⟨e, he, rfl, hremove⟩
    · rw [step, hremove] at hstep
      cases hstep
      simp [freed, (h.lookup_eq_none url).mpr hmem]
    · rw [step, hremove] at hstep
      cases hstep
      simp only [freed, h.lookup_of_mem he, Option.bind_some, deref_of_mem h.ptrs he,
        Option.some.injEq, forall_eq']
      exact ptr_unlink p

/-- The elements after a call were there before it, or the call made them. -/
theorem step_elements {c c' : LRUCache} (h : c.WellFormed) (hc : 1 ≤ c.capacity) {op : CacheOp}
    (hstep : c.step op = some c') {x : CacheElement} (hx : x ∈ c'.cacheList) :
    (∃ y ∈ c.cacheList, Same x y) ∨
      ∃ url data len now p, op = .add url data len now ∧
        x = CacheElement.make url data len now p ∧ ∀ y ∈ c.cacheList, y.ptr < p := by
  have hfront : ∀ {e e' : CacheElement}, e ∈ c.cacheList → Same e' e →
      x ∈ e' :: unlink c.cacheList e.ptr → ∃ y ∈ c.cacheList, Same x y := by
    intro e e' he hsame hx
    rcases List.mem_cons.mp hx with rfl | hx
    · exact ⟨e, he, hsame⟩
    · exact ⟨x, (mem_unlink.mp hx).1, Same.refl x⟩
  cases op with
  | find url now =>
    rcases find_cases h url now with ⟨_, hfind⟩ | ⟨e, he, rfl, hfind⟩
    · rw [step, hfind] at hstep
      cases hstep
      exact Or.inl ⟨x, hx, Same.refl x⟩
    · rw [step, hfind] at hstep
      cases hstep
      exact Or.inl (@hfront e { e with lruTimeTrack := now } he ⟨rfl, rfl, rfl, rfl⟩ hx)
  | add url data len now =>
    rcases add_cases h hc url data len now with
      ⟨e, he, rfl, hadd⟩ | ⟨_, _, hadd⟩ | ⟨_, _, l, v, hl, hadd⟩
    · rw [step, hadd] at hstep
      cases hstep
      exact Or.inl (hfront he (Same.refl e) hx)
    · rw [step, hadd] at hstep
      cases hstep
      rcases List.mem_cons.mp hx with rfl | hx
      · exact Or.inr ⟨url, data, len, now, c.fresh, rfl, rfl, h.fresh⟩
      · exact Or.inl ⟨x, hx, Same.refl x⟩
    · rw [step, hadd] at hstep
      cases hstep
      rcases List.mem_cons.mp hx with rfl | hx
      · exact Or.inr ⟨url, data, len, now, c.fresh, rfl, rfl, h.fresh⟩
      · refine Or.inl ⟨x, ?_, Same.refl x⟩
        rw [hl]
        exact List.mem_append_left [v] hx
  | remove url =>
    rcases remove_cases h url with ⟨_, hremove⟩ | ⟨e, he, rfl, hremove⟩
    · rw [step, hremove] at hstep
      cases hstep
      exact Or.inl ⟨x, hx, Same.refl x⟩
    · rw [step, hremove] at hstep
      cases hstep
      exact Or.inl ⟨x, (mem_unlink.mp hx).1, Same.refl x⟩

end LRUCache

namespace LFUCache

open CacheElement FrequencyList

/-- The element a call frees: the one evicted, or the one removed. -/
def freed (c : LFUCache) : CacheOp → Option CacheElement
  | .find _ _ => none
  | .add url _ _ _ =>
      if c.cacheMap.lookup url = none ∧ c.capacity ≤ c.cacheMap.keys.length
      then (leastFrequent c.frequencyList).bind (fun node => node.elements.getLast?) else none
  | .remove url => (c.cacheMap.lookup url).bind (fun entry =>
      (nodeAt c.frequencyList entry.1).bind (fun node => deref node.elements entry.2))

theorem evict_fresh {c c' : LFUCache} (h : c.evict = some c') : c'.fresh = c.fresh := by
  obtain ⟨node, _, hmap⟩ := Option.bind_eq_some_iff.mp h
  obtain ⟨v, _, rfl⟩ := Option.map_eq_some_iff.mp hmap
  rfl

theorem pushFront_elements {c c' : LFUCache} (h : c.WellFormed) {url : CString}
    (hurl : url ∉ c.urls) {data : List Char} {len now : ℤ}
    (hpush : c.pushFront url data len now = some c') (p : ℕ) (hp : p < c.fresh) :
    (∃ x ∈ elements c'.frequencyList, x.ptr = p) ↔ ∃ x ∈ elements c.frequencyList, x.ptr = p := by
  obtain ⟨d, hd, _, _, helements⟩ := pushFront_spec h hurl data len now
  cases hpush.symm.trans hd
  constructor
  · intro hx
    obtain ⟨x, hx, rfl⟩ := hx
    rcases (helements x).mp hx with rfl | hx
    · exact absurd hp (lt_irrefl _)
    · exact ⟨x, hx, rfl⟩
  · intro hx
    obtain ⟨x, hx, rfl⟩ := hx
    exact ⟨x, (helements x).mpr (Or.inr hx), rfl⟩

theorem ptr_drop {l l' : Nodes} (hptrs : ((elements l).map (·.ptr)).Nodup) {v : CacheElement}
    (hv : v ∈ elements l) (hdrop : ∀ x, x ∈ elements l' ↔ x ∈ elements l ∧ x ≠ v) (p : ℕ) :
    (∃ x ∈ elements l', x.ptr = p) ↔ (∃ x ∈ elements l, x.ptr = p) ∧ v.ptr ≠ p := by
  constructor
  · intro hx
    obtain ⟨x, hx, rfl⟩ := hx
    obtain ⟨hxl, hxv⟩ := (hdrop x).mp hx
    exact ⟨⟨x, hxl, rfl⟩, fun heq => hxv (eq_of_ptr hptrs hxl hv heq.symm)⟩
  · intro hx
    obtain ⟨⟨x, hx, rfl⟩, hne⟩ := hx
    exact ⟨x, (hdrop x).mpr ⟨hx, fun heq => hne (by rw [heq])⟩, rfl⟩

/-- A call on a well-formed cache is defined and keeps it well formed. -/
theorem step_spec {c : LFUCache} (h : c.WellFormed) (hc : 1 ≤ c.capacity) (op : CacheOp) :
    ∃ c', c.step op = some c' ∧ c'.WellFormed ∧ c'.capacity = c.capacity ∧
      ∀ p, p < c.fresh → ((∃ x ∈ elements c'.frequencyList, x.ptr = p) ↔
        (∃ x ∈ elements c.frequencyList, x.ptr = p) ∧
          ∀ v, c.freed op = some v → v.ptr ≠ p) := by
  cases op with
  | find url now =>
    simp only [freed, reduceCtorEq, false_implies, implies_true, and_true]
    rcases find_cases h url now with ⟨_, hfind⟩ | ⟨c', e, he, rfl, hfind, hwf, hcap, helements⟩
    · exact ⟨c, by rw [step, hfind]; rfl, h, rfl, fun _ _ => Iff.rfl⟩
    · refine ⟨c', by rw [step, hfind]; rfl, hwf, hcap, ?_⟩
      intro p _
      constructor
      · intro hx
        obtain ⟨x, hx, rfl⟩ := hx
        obtain ⟨y, hy, rfl⟩ := (helements x).mp hx
        exact ⟨y, hy, (retime_ptr _ _ _).symm⟩
      · intro hy
        obtain ⟨y, hy, rfl⟩ := hy
        exact ⟨_, (helements _).mpr ⟨y, hy, rfl⟩, retime_ptr _ _ _⟩
  | add url data len now =>
    rcases add_cases h hc url data len now with
      ⟨hmem, c', hadd, hwf, hcap, helements⟩ | ⟨hmem, hlt, hadd⟩ | ⟨hmem, hfull, hne, hadd⟩
    · refine ⟨c', hadd, hwf, hcap, ?_⟩
      intro p _
      have hsome : c.cacheMap.lookup url ≠ none := mt (h.lookup_eq_none url).mp (not_not.mpr hmem)
      simp only [freed, hsome, false_and, if_false, reduceCtorEq, false_implies, implies_true,
        and_true, helements]
    · obtain ⟨c', hpush, hwf, hcap, _⟩ := pushFront_spec h hmem data len now
      refine ⟨c', hadd.trans hpush, hwf, hcap, ?_⟩
      intro p hp
      simp only [freed, h.length_keys, Nat.not_le.mpr hlt, and_false, if_false, reduceCtorEq,
        false_implies, implies_true, and_true]
      exact pushFront_elements h hmem hpush p hp
    · obtain ⟨c₁, es, v, hevict, hleast, hv, hwf₁, hcap₁, hdrop⟩ := evict_cases h hne
      obtain ⟨node, hnode, hes⟩ := Option.map_eq_some_iff.mp hleast
      have habsent : url ∉ c₁.urls := by
        intro hin
        obtain ⟨x, hx, rfl⟩ := List.mem_map.mp hin
        exact hmem (List.mem_map_of_mem ((hdrop x).mp hx).1)
      obtain ⟨c', hpush, hwf, hcap, _⟩ := pushFront_spec hwf₁ habsent data len now
      refine ⟨c', ?_, hwf, hcap.trans hcap₁, ?_⟩
      · rw [step, hadd, hevict, Option.bind_some, hpush]
      · intro p hp
        have hfreed : c.freed (.add url data len now) = some v := by
          simp only [freed, (h.lookup_eq_none url).mpr hmem, h.length_keys, hfull, and_self,
            if_true, hnode, Option.bind_some, hes, List.getLast?_concat]
        rw [pushFront_elements hwf₁ habsent hpush p (by rw [evict_fresh hevict]; exact hp),
          ptr_drop h.ptrs hv hdrop, hfreed]
        simp only [Option.some.injEq, forall_eq']
  | remove url =>
    rcases remove_cases h url with
      ⟨hmem, hremove⟩ | ⟨c', e, he, rfl, hremove, hwf, hcap, hdrop⟩
    · refine ⟨c, hremove, h, rfl, ?_⟩
      simp [freed, (h.lookup_eq_none url).mpr hmem]
    · refine ⟨c', hremove, hwf, hcap, ?_⟩
      intro p _
      have hfreed : c.freed (.remove e.url) = some e := by
        obtain ⟨n, node, hnode, rfl, hmem⟩ := mem_elements.mp he
        simp only [freed, h.lookup_of_sits ⟨node, hnode, rfl, hmem⟩, Option.bind_some,
          nodeAt_of_mem h.addrs hnode, deref_of_mem (h.node_ptrs hnode) hmem]
      rw [ptr_drop h.ptrs he hdrop, hfreed]
      simp only [Option.some.injEq, forall_eq']

/-- The elements after a call were there before it, or the call made them. -/
theorem step_elements {c c' : LFUCache} (h : c.WellFormed) (hc : 1 ≤ c.capacity) {op : CacheOp}
    (hstep : c.step op = some c') {x : CacheElement} (hx : x ∈ elements c'.frequencyList) :
    (∃ y ∈ elements c.frequencyList, Same x y) ∨
      ∃ url data len now p, op = .add url data len now ∧
        x = CacheElement.make url data len now p ∧
        ∀ y ∈ elements c.frequencyList, y.ptr < p := by
  cases op with
  | find url now =>
    rcases find_cases h url now with ⟨_, hfind⟩ | ⟨c₁, e, _, rfl, hfind, _, _, helements⟩
    · rw [step, hfind] at hstep
      cases hstep
      exact Or.inl ⟨x, hx, Same.refl x⟩
    · rw [step, hfind] at hstep
      cases hstep
      obtain ⟨y, hy, rfl⟩ := (helements x).mp hx
      exact Or.inl ⟨y, hy, same_retime _ _ y⟩
  | add url data len now =>
    rcases add_cases h hc url data len now with
      ⟨_, c₁, hadd, _, _, helements⟩ | ⟨hmem, _, hadd⟩ | ⟨hmem, _, hne, hadd⟩
    · rw [step, hadd] at hstep
      cases hstep
      exact Or.inl ⟨x, (helements x).mp hx, Same.refl x⟩
    · obtain ⟨c₁, hpush, _, _, helements⟩ := pushFront_spec h hmem data len now
      rw [step, hadd, hpush] at hstep
      cases hstep
      rcases (helements x).mp hx with rfl | hx
      · exact Or.inr ⟨url, data, len, now, c.fresh, rfl, rfl, h.freshPtr⟩
      · exact Or.inl ⟨x, hx, Same.refl x⟩
    · obtain ⟨c₁, _, v, hevict, _, _, hwf₁, _, hdrop⟩ := evict_cases h hne
      have habsent : url ∉ c₁.urls := by
        intro hin
        obtain ⟨y, hy, rfl⟩ := List.mem_map.mp hin
        exact hmem (List.mem_map_of_mem ((hdrop y).mp hy).1)
      obtain ⟨c₂, hpush, _, _, helements⟩ := pushFront_spec hwf₁ habsent data len now
      rw [step, hadd, hevict, Option.bind_some, hpush] at hstep
      cases hstep
      rcases (helements x).mp hx with rfl | hx
      · exact Or.inr ⟨url, data, len, now, c₁.fresh, rfl, rfl,
          (evict_fresh hevict) ▸ h.freshPtr⟩
      · exact Or.inl ⟨x, ((hdrop x).mp hx).1, Same.refl x⟩
  | remove url =>
    rcases remove_cases h url with ⟨_, hremove⟩ | ⟨c₁, e, _, rfl, hremove, _, _, hdrop⟩
    · rw [step, hremove] at hstep
      cases hstep
      exact Or.inl ⟨x, hx, Same.refl x⟩
    · rw [step, hremove] at hstep
      cases hstep
      exact Or.inl ⟨x, ((hdrop x).mp hx).1, Same.refl x⟩

end LFUCache

inductive CacheStrategy
  | lru (c : LRUCache)
  | lfu (c : LFUCache)

namespace CacheStrategy

open CacheElement

/-- `none` where the factory throws. -/
def createCacheStrategy (cacheType : String) (cacheSize : ℤ) : Option CacheStrategy :=
  if cacheType = "LRUCache" then some (.lru (LRUCache.create (CStrings.sizeT cacheSize)))
  else if cacheType = "LFUCache" then some (.lfu (LFUCache.create (CStrings.sizeT cacheSize)))
  else none

def find : CacheStrategy → CString → ℤ → Option (CacheStrategy × Option CacheElement)
  | .lru c, url, now => (c.find url now).map (fun r => (.lru r.1, r.2))
  | .lfu c, url, now => (c.find url now).map (fun r => (.lfu r.1, r.2))

def step : CacheStrategy → CacheOp → Option CacheStrategy
  | .lru c, op => (c.step op).map .lru
  | .lfu c, op => (c.step op).map .lfu

def elements : CacheStrategy → List CacheElement
  | .lru c => c.cacheList
  | .lfu c => FrequencyList.elements c.frequencyList

def capacity : CacheStrategy → ℕ
  | .lru c => c.capacity
  | .lfu c => c.capacity

def freed : CacheStrategy → CacheOp → Option CacheElement
  | .lru c => c.freed
  | .lfu c => c.freed

def Resident (c : CacheStrategy) (p : ℕ) : Prop := ∃ e ∈ c.elements, e.ptr = p

/-- A well-formed cache with room for an element. -/
def WellFormed : CacheStrategy → Prop
  | .lru c => 1 ≤ c.capacity ∧ c.WellFormed
  | .lfu c => 1 ≤ c.capacity ∧ c.WellFormed

theorem elements_create {cacheType : String} {cacheSize : ℤ} {c : CacheStrategy}
    (h : createCacheStrategy cacheType cacheSize = some c) : c.elements = [] := by
  unfold createCacheStrategy at h
  split at h
  · cases h
    rfl
  · split at h
    · cases h
      rfl
    · contradiction

theorem capacity_create {cacheType : String} {cacheSize : ℤ} {c : CacheStrategy}
    (h : createCacheStrategy cacheType cacheSize = some c) :
    c.capacity = CStrings.sizeT cacheSize := by
  unfold createCacheStrategy at h
  split at h
  · cases h
    rfl
  · split at h
    · cases h
      rfl
    · contradiction

theorem createCacheStrategy_wellFormed {cacheType : String} {cacheSize : ℤ} {c : CacheStrategy}
    (h : createCacheStrategy cacheType cacheSize = some c) (hc : 1 ≤ c.capacity) :
    c.WellFormed := by
  unfold createCacheStrategy at h
  split at h
  · cases h
    exact ⟨hc, LRUCache.create_wellFormed _⟩
  · split at h
    · cases h
      exact ⟨hc, LFUCache.create_wellFormed _⟩
    · contradiction

/-- A call is defined and unlinks, of the residents, only what it frees. -/
theorem step_spec {c : CacheStrategy} (h : c.WellFormed) (op : CacheOp) :
    ∃ c', c.step op = some c' ∧ c'.WellFormed ∧ c'.capacity = c.capacity ∧
      ∀ p, c.Resident p → (c'.Resident p ↔ ∀ v, c.freed op = some v → v.ptr ≠ p) := by
  cases c with
  | lru c =>
    obtain ⟨hc, hwf⟩ := h
    obtain ⟨c', hstep, hwf', hcap, _⟩ := LRUCache.step_spec hwf hc op
    refine ⟨.lru c', by rw [step, hstep, Option.map_some], ⟨hcap.symm ▸ hc, hwf'⟩, hcap, ?_⟩
    intro p hp
    obtain ⟨e, he, rfl⟩ := hp
    refine (LRUCache.step_freed hwf hc hstep e.ptr (hwf.fresh e he)).trans ?_
    exact and_iff_right ⟨e, he, rfl⟩
  | lfu c =>
    obtain ⟨hc, hwf⟩ := h
    obtain ⟨c', hstep, hwf', hcap, hfreed⟩ := LFUCache.step_spec hwf hc op
    refine ⟨.lfu c', by rw [step, hstep, Option.map_some], ⟨hcap.symm ▸ hc, hwf'⟩, hcap, ?_⟩
    intro p hp
    obtain ⟨e, he, rfl⟩ := hp
    exact (hfreed e.ptr (hwf.freshPtr e he)).trans (and_iff_right ⟨e, he, rfl⟩)

/-- A find is the call, and the element it answers is resident after it. -/
theorem find_spec {c : CacheStrategy} (h : c.WellFormed) (url : CString) (now : ℤ) :
    ∃ c' answer, c.find url now = some (c', answer) ∧ c.step (.find url now) = some c' ∧
      ∀ e, answer = some e → c'.Resident e.ptr := by
  cases c with
  | lru c =>
    obtain ⟨_, hwf⟩ := h
    rcases LRUCache.find_cases hwf url now with ⟨_, hfind⟩ | ⟨e, he, rfl, hfind⟩
    · refine ⟨.lru c, none, ?_, ?_, by simp⟩
      · rw [find, hfind, Option.map_some]
      · rw [step, LRUCache.step, hfind]
        rfl
    · refine ⟨.lru (c.toFront { e with lruTimeTrack := now }), some { e with lruTimeTrack := now },
        ?_, ?_, ?_⟩
      · rw [find, hfind, Option.map_some]
      · rw [step, LRUCache.step, hfind]
        rfl
      · intro x hx
        cases hx
        exact ⟨_, List.mem_cons_self, rfl⟩
  | lfu c =>
    obtain ⟨_, hwf⟩ := h
    rcases LFUCache.find_cases hwf url now with
      ⟨_, hfind⟩ | ⟨c', e, he, rfl, hfind, _, _, helements⟩
    · refine ⟨.lfu c, none, ?_, ?_, by simp⟩
      · rw [find, hfind, Option.map_some]
      · rw [step, LFUCache.step, hfind]
        rfl
    · refine ⟨.lfu c', some { e with lruTimeTrack := now }, ?_, ?_, ?_⟩
      · rw [find, hfind, Option.map_some]
      · rw [step, LFUCache.step, hfind]
        rfl
      · intro x hx
        cases hx
        exact ⟨_, (helements _).mpr ⟨e, he, rfl⟩, retime_ptr _ _ _⟩

/-- The element a find answers is one of the cache, with a new time. -/
theorem find_answer {c c' : CacheStrategy} (h : c.WellFormed) {url : CString} {now : ℤ}
    {e : CacheElement} (hfind : c.find url now = some (c', some e)) :
    ∃ x ∈ c.elements, x.url = url ∧ e = { x with lruTimeTrack := now } := by
  cases c with
  | lru c =>
    rcases LRUCache.find_cases h.2 url now with ⟨_, hcase⟩ | ⟨x, hx, rfl, hcase⟩
    · rw [find, hcase] at hfind
      simp at hfind
    · rw [find, hcase] at hfind
      cases hfind
      exact ⟨x, hx, rfl, rfl⟩
  | lfu c =>
    rcases LFUCache.find_cases h.2 url now with
      ⟨_, hcase⟩ | ⟨c₁, x, hx, rfl, hcase, _⟩
    · rw [find, hcase] at hfind
      simp at hfind
    · rw [find, hcase] at hfind
      cases hfind
      exact ⟨x, hx, rfl, rfl⟩

theorem step_elements {c c' : CacheStrategy} (h : c.WellFormed) {op : CacheOp}
    (hstep : c.step op = some c') {x : CacheElement} (hx : x ∈ c'.elements) :
    (∃ y ∈ c.elements, Same x y) ∨
      ∃ url data len now p, op = .add url data len now ∧
        x = CacheElement.make url data len now p ∧ ∀ y ∈ c.elements, y.ptr < p := by
  cases c with
  | lru c =>
    obtain ⟨c₁, hc₁, rfl⟩ := Option.map_eq_some_iff.mp hstep
    exact LRUCache.step_elements h.2 h.1 hc₁ hx
  | lfu c =>
    obtain ⟨c₁, hc₁, rfl⟩ := Option.map_eq_some_iff.mp hstep
    exact LFUCache.step_elements h.2 h.1 hc₁ hx

end CacheStrategy

end ProxyServer
