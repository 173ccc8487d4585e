import ProxyServer.CacheStrategy
import ProxyServer.LRUHistory
import ProxyServer.LFURecords

/-!
Which call drops a URL, told from the calls before it. With either cache an add of an
absent URL to a full cache drops one. Of the LRU cache it is the URL used longest ago. Of
the LFU cache it is the holder of the last record of touches, while it is there; a URL
that has been touched since it came in is never dropped otherwise. Addresses are not used
again, so an element that is gone stays gone.
-/
namespace ProxyServer

namespace LRUCache

open CacheElement

/-- The call drops `url`, from a cache that holds what `r` does. -/
def Drops (cap : ℕ) (r : RefCache CString) (url : CString) : CacheOp → Prop
  | .find _ _ => False
  | .add u _ _ _ => u ∉ r.resident ∧ cap ≤ r.resident.card ∧
      ∀ k ∈ r.resident, k ≠ url → r.lastTouch url < r.lastTouch k
  | .remove u => u = url

theorem step_fresh {c c' : LRUCache} (h : c.WellFormed) (hc : 1 ≤ c.capacity) {op : CacheOp}
    (hstep : c.step op = some c') : c.fresh ≤ c'.fresh := by
  cases op with
  | find url now =>
    rcases find_cases h url now with ⟨_, hfind⟩ | ⟨e, _, _, hfind⟩ <;>
      (rw [step, hfind] at hstep; cases hstep; exact Nat.le_refl _)
  | add url data len now =>
    rcases add_cases h hc url data len now with
      ⟨_, _, _, hadd⟩ | ⟨_, _, hadd⟩ | ⟨_, _, _, _, _, hadd⟩ <;>
      (rw [step, hadd] at hstep; cases hstep)
    · exact Nat.le_refl _
    · exact Nat.le_succ _
    · exact Nat.le_succ _
  | remove url =>
    rcases remove_cases h url with ⟨_, hremove⟩ | ⟨_, _, _, hremove⟩ <;>
      (rw [step, hremove] at hstep; cases hstep; exact Nat.le_refl _)

/-- The call frees an element exactly when it drops its URL. -/
theorem Tracks.freed_iff {cap : ℕ} {c : LRUCache} {r : RefCache CString} (h : Tracks cap c r)
    {e : CacheElement} (he : e ∈ c.cacheList) (op : CacheOp) :
    (∃ v, c.freed op = some v ∧ v.ptr = e.ptr) ↔ Drops cap r e.url op := by
  have hsame : ∀ v ∈ c.cacheList, v.ptr = e.ptr ↔ v.url = e.url := by
    intro v hv
    constructor
    · exact fun hp => congrArg (·.url) (eq_of_ptr h.wellFormed.ptrs hv he hp)
    · exact fun hu => congrArg (·.ptr) (eq_of_url h.wellFormed.urls hv he hu)
  have heu : e.url ∈ c.urls := List.mem_map_of_mem he
  cases op with
  | find url now => simp [freed, Drops]
  | add url data len now =>
    have hfull : c.capacity ≤ c.cacheList.length ↔ cap ≤ r.resident.card := by
      rw [h.capacity, h.orders.card, urls, List.length_map]
    have habsent : c.cacheMap.lookup url = none ↔ url ∉ r.resident := by
      rw [h.wellFormed.lookup_eq_none, h.orders.mem_iff]
    simp only [freed, Drops, habsent, hfull]
    by_cases hevicts : url ∉ r.resident ∧ cap ≤ r.resident.card
    · rw [if_pos hevicts, ← and_assoc, and_iff_right hevicts]
      obtain ⟨l, v, hl⟩ := (List.eq_nil_or_concat' c.cacheList).resolve_left
        (List.ne_nil_of_mem he)
      have hv : v ∈ c.cacheList := by simp [hl]
      have horders := h.orders
      rw [urls, hl, List.map_append, List.map_cons, List.map_nil] at horders
      have hvictim := horders.last_isVictim
      simp only [hl, List.getLast?_concat, Option.some.injEq, exists_eq_left', hsame v hv]
      constructor
      · intro hu k hk hne
        rw [← hu] at hne ⊢
        exact hvictim.least k hk hne
      · intro hall
        by_contra hne
        have hlater := hall v.url hvictim.resident hne
        have hearlier := hvictim.least e.url ((h.orders.mem_iff _).mp heu) (Ne.symm hne)
        exact lt_asymm hlater hearlier
    · rw [if_neg hevicts, ← and_assoc]
      simp [hevicts]
  | remove url =>
    simp only [freed, Drops]
    constructor
    · rintro ⟨v, hv, hp⟩
      obtain ⟨it, hlookup, hderef⟩ := Option.bind_eq_some_iff.mp hv
      obtain ⟨x, hx, rfl, rfl⟩ := (h.wellFormed.map_iff url it).mp hlookup
      rw [deref_of_mem h.wellFormed.ptrs hx, Option.some.injEq] at hderef
      exact (hsame x hx).mp (hderef ▸ hp)
    · rintro rfl
      refine ⟨e, ?_, rfl⟩
      rw [h.wellFormed.lookup_of_mem he, Option.bind_some, deref_of_mem h.wellFormed.ptrs he]

end LRUCache

namespace LFUCache

open CacheElement FrequencyList

/-- The call drops `url`, which has been touched since it came in, from a cache that
holds what `h` does. -/
def Drops (cap : ℕ) (h : RecordCache CString) (url : CString) : CacheOp → Prop
  | .find _ _ => False
  | .add u _ _ _ => u ∉ h.resident ∧ cap ≤ h.resident.card ∧ h.holder = some url
  | .remove u => u = url

theorem increment_fresh {c c' : LFUCache} {url : CString}
    (h : c.incrementFrequency url = some c') : c.fresh ≤ c'.fresh := by
  obtain ⟨entry, _, h⟩ := Option.bind_eq_some_iff.mp h
  obtain ⟨node, _, h⟩ := Option.bind_eq_some_iff.mp h
  obtain ⟨_, _, rfl⟩ := Option.map_eq_some_iff.mp h
  unfold nextNode
  dsimp only
  split
  · exact Nat.le_succ _
  · split
    · exact Nat.le_refl _
    · exact Nat.le_succ _

theorem step_fresh {c c' : LFUCache} {op : CacheOp} (hstep : c.step op = some c') :
    c.fresh ≤ c'.fresh := by
  cases op with
  | find url now =>
    obtain ⟨⟨c₁, answer⟩, hfind, rfl⟩ := Option.map_eq_some_iff.mp hstep
    rw [find] at hfind
    split at hfind
    · cases hfind
      exact Nat.le_refl _
    · obtain ⟨c₂, hincrement, hfind⟩ := Option.bind_eq_some_iff.mp hfind
      obtain ⟨_, _, heq⟩ := Option.map_eq_some_iff.mp hfind
      cases heq
      have hle := increment_fresh hincrement
      exact hle
  | add url data len now =>
    rw [step, add] at hstep
    split at hstep
    · exact increment_fresh hstep
    · obtain ⟨c₁, hroom, hpush⟩ := Option.bind_eq_some_iff.mp hstep
      have hle : c.fresh ≤ c₁.fresh := by
        split at hroom
        · exact (evict_fresh hroom).ge
        · cases hroom
          exact Nat.le_refl _
      obtain ⟨front, _, rfl⟩ := Option.map_eq_some_iff.mp hpush
      exact hle.trans (Nat.le_succ _)
  | remove url =>
    rw [step, remove] at hstep
    split at hstep
    · cases hstep
      exact Nat.le_refl _
    · obtain ⟨node, _, hstep⟩ := Option.bind_eq_some_iff.mp hstep
      obtain ⟨_, _, rfl⟩ := Option.map_eq_some_iff.mp hstep
      exact Nat.le_refl _

/-- The call frees an element that has been touched exactly when it drops its URL. -/
theorem Follows.freed_iff {cap : ℕ} {c : LFUCache} {h : RecordCache CString}
    (hf : Follows cap c h) {e : CacheElement} (he : e ∈ elements c.frequencyList)
    (htouched : e.url ∉ h.newcomers) (op : CacheOp) :
    (∃ v, c.freed op = some v ∧ v.ptr = e.ptr) ↔ Drops cap h e.url op := by
  have hsame : ∀ v ∈ elements c.frequencyList, v.ptr = e.ptr ↔ v.url = e.url := by
    intro v hv
    constructor
    · exact fun hp => congrArg (·.url) (eq_of_ptr hf.wellFormed.ptrs hv he hp)
    · exact fun hu => congrArg (·.ptr) (eq_of_url hf.wellFormed.urls hv he hu)
  cases op with
  | find url now => simp [freed, Drops]
  | add url data len now =>
    have hfull : c.capacity ≤ c.cacheMap.keys.length ↔ cap ≤ h.resident.card := by
      rw [hf.capacity, hf.card, hf.wellFormed.length_keys]
    have habsent : c.cacheMap.lookup url = none ↔ url ∉ h.resident := by
      rw [hf.wellFormed.lookup_eq_none, hf.mem_iff]
    simp only [freed, Drops, habsent, hfull]
    by_cases hevicts : url ∉ h.resident ∧ cap ≤ h.resident.card
    · rw [if_pos hevicts, ← and_assoc, and_iff_right hevicts]
      obtain ⟨_, v, _, hleast, hlast, _⟩ := hf.evict hevicts.2
      have hv : v ∈ elements c.frequencyList := by
        obtain ⟨node, hnode, hlastElem⟩ := Option.bind_eq_some_iff.mp hleast
        exact mem_elements.mpr ⟨_, node, List.mem_of_find?_eq_some hnode, rfl,
          List.mem_of_getLast? hlastElem⟩
      simp only [hleast, Option.some.injEq, exists_eq_left', hsame v hv]
      -- The last of the front is the holder, or else a newcomer.
      cases hholder : h.holder with
      | some k =>
        rw [RecordCache.front, hholder, Option.toList_some, List.getLast?_concat] at hlast
        rw [hlast, Option.some.injEq]
      | none =>
        rw [RecordCache.front, hholder, Option.toList_none, List.append_nil] at hlast
        refine iff_of_false (fun hu => htouched ?_) (by simp)
        exact hu ▸ List.mem_of_getLast? hlast
    · rw [if_neg hevicts, ← and_assoc]
      simp [hevicts]
  | remove url =>
    simp only [freed, Drops]
    constructor
    · rintro ⟨v, hv, hp⟩
      obtain ⟨entry, hlookup, hv⟩ := Option.bind_eq_some_iff.mp hv
      obtain ⟨node, hnode, hderef⟩ := Option.bind_eq_some_iff.mp hv
      obtain ⟨x, hseat, rfl, hx⟩ := (hf.wellFormed.map_iff url entry.1 entry.2).mp hlookup
      obtain ⟨m, hm, hma, hxm⟩ := hseat
      rw [← hma, nodeAt_of_mem hf.wellFormed.addrs hm, Option.some.injEq] at hnode
      subst hnode
      rw [← hx, deref_of_mem (hf.wellFormed.node_ptrs hm) hxm, Option.some.injEq] at hderef
      exact (hsame x (mem_elements.mpr ⟨_, m, hm, rfl, hxm⟩)).mp (hderef ▸ hp)
    · rintro rfl
      obtain ⟨n, node, hnode, rfl, hmem⟩ := mem_elements.mp he
      refine ⟨e, ?_, rfl⟩
      rw [hf.wellFormed.lookup_of_sits ⟨node, hnode, rfl, hmem⟩, Option.bind_some,
        nodeAt_of_mem hf.wellFormed.addrs hnode, Option.bind_some,
        deref_of_mem (hf.wellFormed.node_ptrs hnode) hmem]

end LFUCache

namespace RecordCache

variable {K : Type*} [DecidableEq K]

theorem Kept.notMem_touch {cap : ℕ} {h : RecordCache K} (hk : h.Kept cap) (k : K) :
    k ∉ (h.touch k).newcomers := by
  unfold RecordCache.touch
  split
  · exact List.not_mem_nil
  · rename_i hne
    exact fun hin => hne (hk.level k (List.mem_append_left _ hin))

theorem notMem_step {cap : ℕ} {h : RecordCache K} {k : K} (hmem : k ∈ h.resident)
    (hnot : k ∉ h.newcomers) (a : Access K) : k ∉ (h.step cap a).newcomers := by
  have htouch : ∀ j, k ∉ (h.touch j).newcomers := by
    intro j
    unfold touch
    split
    · exact List.not_mem_nil
    · exact hnot
  cases a with
  | find j =>
    rw [step]
    split
    · exact htouch j
    · exact hnot
  | add j =>
    rw [step]
    split
    · exact htouch j
    · rename_i hj
      have hevict : k ∉ h.evict.newcomers := by
        unfold evict
        cases h.front.getLast? with
        | none => exact hnot
        | some v => exact fun hin => hnot (List.mem_of_mem_filter hin)
      intro hin
      rcases List.mem_cons.mp hin with rfl | hin
      · exact hj hmem
      · split at hin
        · exact hevict hin
        · exact hnot hin
  | remove j => exact fun hin => hnot (List.mem_of_mem_filter hin)

end RecordCache

namespace CacheStrategy

open CacheElement

/-- After the calls of `past` on a new cache `c`, the call drops `url`, which has been
found since it came in. -/
def Drops (past : List CacheOp) (url : CString) (op : CacheOp) : CacheStrategy → Prop
  | .lru c => LRUCache.Drops c.capacity (LRUCache.history c.capacity past) url op
  | .lfu c => LFUCache.Drops c.capacity (LFUCache.records c.capacity past) url op

/-- In the LFU cache, that a URL has been found since it came in. -/
def Found (past : List CacheOp) (url : CString) : CacheStrategy → Prop
  | .lru _ => True
  | .lfu c => url ∉ (LFUCache.records c.capacity past).newcomers

/-- The caches of one kind after the calls of `past`, seen from their history. -/
def Tracks (past : List CacheOp) : CacheStrategy → CacheStrategy → Prop
  | .lru c₀, .lru c => LRUCache.Tracks c₀.capacity c (LRUCache.history c₀.capacity past)
  | .lfu c₀, .lfu c => LFUCache.Follows c₀.capacity c (LFUCache.records c₀.capacity past)
  | _, _ => False

def fresh : CacheStrategy → ℕ
  | .lru c => c.fresh
  | .lfu c => c.fresh

theorem WellFormed.lt_fresh {c : CacheStrategy} (h : c.WellFormed) {e : CacheElement}
    (he : e ∈ c.elements) : e.ptr < c.fresh := by
  cases c with
  | lru c => exact h.2.fresh e he
  | lfu c => exact h.2.freshPtr e he

theorem WellFormed.eq_of_ptr {c : CacheStrategy} (h : c.WellFormed) {x y : CacheElement}
    (hx : x ∈ c.elements) (hy : y ∈ c.elements) (hp : x.ptr = y.ptr) : x = y := by
  cases c with
  | lru c => exact CacheElement.eq_of_ptr h.2.ptrs hx hy hp
  | lfu c => exact CacheElement.eq_of_ptr h.2.ptrs hx hy hp

/-- The element at an address keeps its URL through a call. -/
theorem url_of_ptr {c c' : CacheStrategy} (h : c.WellFormed) {op : CacheOp}
    (hstep : c.step op = some c') {x y : CacheElement} (hx : x ∈ c.elements)
    (hy : y ∈ c'.elements) (hp : x.ptr = y.ptr) : y.url = x.url := by
  rcases step_elements h hstep hy with ⟨z, hz, hsame⟩ | ⟨_, _, _, _, p, _, rfl, hlater⟩
  · rw [h.eq_of_ptr hx hz (hp.trans hsame.ptr)]
    exact hsame.url
  · exact absurd hp (hlater x hx).ne

theorem tracks_create {cacheType : String} {cacheSize : ℤ} {c : CacheStrategy}
    (h : createCacheStrategy cacheType cacheSize = some c) (hc : 1 ≤ c.capacity) :
    c.Tracks [] c := by
  unfold createCacheStrategy at h
  split at h
  · cases h
    exact LRUCache.Tracks.create _
  · split at h
    · cases h
      exact LFUCache.Follows.create hc
    · contradiction

namespace Tracks

variable {past : List CacheOp} {c₀ c : CacheStrategy}

theorem wellFormed (h : c₀.Tracks past c) (hc : 1 ≤ c₀.capacity) : c.WellFormed := by
  cases c₀ <;> cases c
  · exact ⟨LRUCache.Tracks.capacity h ▸ hc, LRUCache.Tracks.wellFormed h⟩
  · exact h.elim
  · exact h.elim
  · exact ⟨LFUCache.Follows.capacity h ▸ hc, LFUCache.Follows.wellFormed h⟩

/-- One call more: below the next address only what the call frees is gone, and nothing
is made. -/
theorem step (h : c₀.Tracks past c) (hc : 1 ≤ c₀.capacity) (op : CacheOp) :
    ∃ c', c.step op = some c' ∧ c₀.Tracks (past ++ [op]) c' ∧ c.fresh ≤ c'.fresh ∧
      ∀ p, p < c.fresh → (c'.Resident p ↔ c.Resident p ∧
        ∀ v, c.freed op = some v → v.ptr ≠ p) := by
  have hwf := h.wellFormed hc
  cases c₀ with
  | lru c₀ =>
    cases c with
    | lfu c => exact h.elim
    | lru c =>
      obtain ⟨c', hstep, htracks⟩ := LRUCache.Tracks.step h hc op
      refine ⟨.lru c', by rw [CacheStrategy.step, hstep, Option.map_some], ?_,
        LRUCache.step_fresh hwf.2 hwf.1 hstep, LRUCache.step_freed hwf.2 hwf.1 hstep⟩
      rw [Tracks, LRUCache.history, List.map_append, List.map_singleton, RefCache.run_concat]
      exact htracks
  | lfu c₀ =>
    cases c with
    | lru c => exact h.elim
    | lfu c =>
      obtain ⟨c', hstep, hfollows⟩ := LFUCache.Follows.step h hc op
      obtain ⟨c₁, hstep₁, _, _, hfreed⟩ := LFUCache.step_spec hwf.2 hwf.1 op
      cases hstep.symm.trans hstep₁
      refine ⟨.lfu c', by rw [CacheStrategy.step, hstep, Option.map_some], ?_,
        LFUCache.step_fresh hstep, hfreed⟩
      rw [Tracks, LFUCache.records, List.map_append, List.map_singleton, RecordCache.run_concat]
      exact hfollows

theorem freed_iff (h : c₀.Tracks past c) {e : CacheElement} (he : e ∈ c.elements)
    (hfound : c₀.Found past e.url) (op : CacheOp) :
    (∃ v, c.freed op = some v ∧ v.ptr = e.ptr) ↔ c₀.Drops past e.url op := by
  cases c₀ <;> cases c
  · exact LRUCache.Tracks.freed_iff h he op
  · exact h.elim
  · exact h.elim
  · exact LFUCache.Follows.freed_iff h he hfound op

theorem found_step (h : c₀.Tracks past c) {e : CacheElement} (he : e ∈ c.elements)
    (hfound : c₀.Found past e.url) (op : CacheOp) : c₀.Found (past ++ [op]) e.url := by
  cases c₀ with
  | lru c₀ => trivial
  | lfu c₀ =>
    cases c with
    | lru c => exact h.elim
    | lfu c =>
      have hmem : e.url ∈ (LFUCache.records c₀.capacity past).resident :=
        (LFUCache.Follows.mem_iff h e.url).mp (List.mem_map_of_mem he)
      rw [Found, LFUCache.records, List.map_append, List.map_singleton, RecordCache.run_concat]
      exact RecordCache.notMem_step hmem hfound op.access

theorem found_find (h : c₀.Tracks past c) {e : CacheElement} (he : e ∈ c.elements) (now : ℤ) :
    c₀.Found (past ++ [.find e.url now]) e.url := by
  cases c₀ with
  | lru c₀ => trivial
  | lfu c₀ =>
    cases c with
    | lru c => exact h.elim
    | lfu c =>
      have hmem : e.url ∈ (LFUCache.records c₀.capacity past).resident :=
        (LFUCache.Follows.mem_iff h e.url).mp (List.mem_map_of_mem he)
      have hrun : LFUCache.records c₀.capacity (past ++ [.find e.url now]) =
          (LFUCache.records c₀.capacity past).touch e.url := by
        rw [LFUCache.records, List.map_append, List.map_singleton, RecordCache.run_concat]
        exact if_pos hmem
      rw [Found, hrun]
      exact (LFUCache.Follows.kept h).notMem_touch e.url

end Tracks

end CacheStrategy

end ProxyServer
