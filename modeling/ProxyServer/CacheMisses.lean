import ProxyServer.CacheSize
import ProxyServer.Paging

/-!
How often a cache misses. A worker asks the cache for the URL of a request and adds
the response where it was not there, so either strategy serves the requests by demand
and within its capacity. The LRU cache then misses little more often than any cache
can, and so than the other strategy.
-/
namespace ProxyServer.CacheStrategy

open Paging

/-- A request, the response of its origin, and the times of the two calls. -/
structure Fetch where
  url : CString
  data : List Char
  len : ℤ
  findTime : ℤ
  addTime : ℤ
  deriving DecidableEq, Repr

/-- `find`, and `add` after a miss; whether it was one. -/
def serve (c : CacheStrategy) (f : Fetch) : Option (CacheStrategy × ℕ) :=
  match c.find f.url f.findTime with
  | none => none
  | some (c, some _) => some (c, 0)
  | some (c, none) => (c.step (.add f.url f.data f.len f.addTime)).map (fun c => (c, 1))

def misses (c : CacheStrategy) : List Fetch → Option ℕ
  | [] => some 0
  | f :: fs => (c.serve f).bind (fun r => (misses r.1 fs).map (fun n => r.2 + n))

def cached (c : CacheStrategy) : Finset CString := (c.elements.map (·.url)).toFinset

theorem mem_cached {c : CacheStrategy} {url : CString} :
    url ∈ c.cached ↔ ∃ e ∈ c.elements, e.url = url := by
  rw [cached, List.mem_toFinset, List.mem_map]

theorem card_cached {c : CacheStrategy} (h : c.Bounded) : c.cached.card ≤ c.capacity := by
  have hle := (c.elements.map (·.url)).toFinset_card_le
  rw [List.length_map] at hle
  exact hle.trans h.bound

theorem cached_find {c c' : CacheStrategy} (h : c.WellFormed) {url : CString} {now : ℤ}
    (hstep : c.step (.find url now) = some c') : c'.cached = c.cached := by
  ext u
  rw [mem_cached, mem_cached]
  cases c with
  | lru c =>
    obtain ⟨d, hd, rfl⟩ := Option.map_eq_some_iff.mp hstep
    rcases LRUCache.find_cases h.2 url now with ⟨_, hfind⟩ | ⟨e, he, rfl, hfind⟩
    · rw [LRUCache.step, hfind] at hd
      cases hd
      rfl
    · rw [LRUCache.step, hfind] at hd
      cases hd
      constructor
      · rintro ⟨x, hx, rfl⟩
        rcases List.mem_cons.mp hx with rfl | hx
        · exact ⟨e, he, rfl⟩
        · exact ⟨x, (CacheElement.mem_unlink.mp hx).1, rfl⟩
      · rintro ⟨x, hx, rfl⟩
        by_cases hptr : x.ptr = e.ptr
        · rw [CacheElement.eq_of_ptr h.2.ptrs hx he hptr]
          exact ⟨_, List.mem_cons_self, rfl⟩
        · exact ⟨x, List.mem_cons_of_mem _ (CacheElement.mem_unlink.mpr ⟨hx, hptr⟩), rfl⟩
  | lfu c =>
    obtain ⟨d, hd, rfl⟩ := Option.map_eq_some_iff.mp hstep
    rcases LFUCache.find_cases h.2 url now with
      ⟨_, hfind⟩ | ⟨c₁, e, he, rfl, hfind, _, _, helements⟩
    · rw [LFUCache.step, hfind] at hd
      cases hd
      rfl
    · rw [LFUCache.step, hfind] at hd
      cases hd
      constructor
      · rintro ⟨x, hx, rfl⟩
        obtain ⟨y, hy, rfl⟩ := (helements x).mp hx
        exact ⟨y, hy, (CacheElement.retime_url _ _ y).symm⟩
      · rintro ⟨y, hy, rfl⟩
        exact ⟨_, (helements _).mpr ⟨y, hy, rfl⟩, CacheElement.retime_url _ _ y⟩

theorem mem_cached_add {c c' : CacheStrategy} (h : c.WellFormed) {url : CString}
    {data : List Char} {len now : ℤ} (hstep : c.step (.add url data len now) = some c') :
    url ∈ c'.cached := by
  rw [mem_cached]
  cases c with
  | lru c =>
    obtain ⟨d, hd, rfl⟩ := Option.map_eq_some_iff.mp hstep
    rcases LRUCache.add_cases h.2 h.1 url data len now with
      ⟨e, _, rfl, hadd⟩ | ⟨_, _, hadd⟩ | ⟨_, _, l, v, _, hadd⟩
    · rw [LRUCache.step, hadd] at hd
      cases hd
      exact ⟨e, List.mem_cons_self, rfl⟩
    · rw [LRUCache.step, hadd] at hd
      cases hd
      exact ⟨_, List.mem_cons_self, rfl⟩
    · rw [LRUCache.step, hadd] at hd
      cases hd
      exact ⟨_, List.mem_cons_self, rfl⟩
  | lfu c =>
    obtain ⟨d, hd, rfl⟩ := Option.map_eq_some_iff.mp hstep
    rcases LFUCache.add_cases h.2 h.1 url data len now with
      ⟨hmem, c₁, hadd, _, _, helements⟩ | ⟨hmem, _, hadd⟩ | ⟨hmem, _, hne, hadd⟩
    · rw [LFUCache.step, hadd] at hd
      cases hd
      obtain ⟨e, he, rfl⟩ := List.mem_map.mp hmem
      exact ⟨e, (helements e).mpr he, rfl⟩
    · obtain ⟨c₁, hpush, _, _, helements⟩ := LFUCache.pushFront_spec h.2 hmem data len now
      rw [LFUCache.step, hadd, hpush] at hd
      cases hd
      exact ⟨_, (helements _).mpr (Or.inl rfl), rfl⟩
    · obtain ⟨c₁, _, v, hevict, _, _, hwf₁, _, hdrop⟩ := LFUCache.evict_cases h.2 hne
      have habsent : url ∉ c₁.urls := by
        intro hin
        obtain ⟨y, hy, rfl⟩ := List.mem_map.mp hin
        exact hmem (List.mem_map_of_mem ((hdrop y).mp hy).1)
      obtain ⟨c₂, hpush, _, _, helements⟩ := LFUCache.pushFront_spec hwf₁ habsent data len now
      rw [LFUCache.step, hadd, hevict, Option.bind_some, hpush] at hd
      cases hd
      exact ⟨_, (helements _).mpr (Or.inl rfl), rfl⟩

/-- Nothing but what is added comes into the cache. -/
theorem cached_add_subset {c c' : CacheStrategy} (h : c.WellFormed) {url : CString}
    {data : List Char} {len now : ℤ} (hstep : c.step (.add url data len now) = some c') :
    c'.cached ⊆ insert url c.cached := by
  intro u hu
  obtain ⟨x, hx, rfl⟩ := mem_cached.mp hu
  rcases step_elements h hstep hx with ⟨y, hy, hsame⟩ | ⟨_, _, _, _, _, hop, rfl, _⟩
  · exact Finset.mem_insert_of_mem (mem_cached.mpr ⟨y, hy, hsame.url.symm⟩)
  · cases hop
    exact Finset.mem_insert_self url _

theorem find_none_iff {c c' : CacheStrategy} (h : c.WellFormed) {url : CString} {now : ℤ}
    {answer : Option CacheElement} (hfind : c.find url now = some (c', answer)) :
    answer = none ↔ url ∉ c.cached := by
  cases answer with
  | none =>
    refine iff_of_true rfl ?_
    rw [mem_cached]
    cases c with
    | lru c =>
      rcases LRUCache.find_cases h.2 url now with ⟨hmem, _⟩ | ⟨e, _, rfl, hcase⟩
      · rintro ⟨e, he, heq⟩
        exact hmem (heq ▸ List.mem_map_of_mem he)
      · rw [find, hcase] at hfind
        simp at hfind
    | lfu c =>
      rcases LFUCache.find_cases h.2 url now with ⟨hmem, _⟩ | ⟨_, e, _, rfl, hcase, _⟩
      · rintro ⟨e, he, heq⟩
        exact hmem (heq ▸ List.mem_map_of_mem he)
      · rw [find, hcase] at hfind
        simp at hfind
  | some e =>
    obtain ⟨x, hx, hurl, _⟩ := find_answer h hfind
    exact iff_of_false (Option.some_ne_none e) (not_not.mpr (mem_cached.mpr ⟨x, hx, hurl⟩))

/-- Either strategy serves a request by demand, within its capacity. -/
theorem serve_spec {c : CacheStrategy} (h : c.Bounded) (f : Fetch) :
    ∃ c', c.serve f = some (c', fault c.cached f.url) ∧ c'.Bounded ∧
      c'.capacity = c.capacity ∧ Serves c.capacity c.cached f.url c'.cached := by
  obtain ⟨c₁, answer, hfind, hstep, _⟩ := find_spec h.wellFormed f.url f.findTime
  have hsame := cached_find h.wellFormed hstep
  have hiff := find_none_iff h.wellFormed hfind
  obtain ⟨hbounded, hcapacity⟩ := h.step hstep
  cases answer with
  | some e =>
    have hmem : f.url ∈ c.cached := by
      by_contra hnot
      exact Option.some_ne_none e (hiff.mpr hnot)
    refine ⟨c₁, ?_, hbounded, hcapacity, ?_, ?_, ?_⟩
    · simp only [serve, hfind, fault, if_pos hmem]
    · rw [hsame]
      exact hmem
    · rw [hsame]
      exact Finset.subset_insert _ _
    · rw [← hcapacity]
      exact card_cached hbounded
  | none =>
    have hnot : f.url ∉ c.cached := hiff.mp rfl
    obtain ⟨c₂, hadd, _⟩ := step_spec hbounded.wellFormed (.add f.url f.data f.len f.addTime)
    obtain ⟨hbounded₂, hcapacity₂⟩ := hbounded.step hadd
    refine ⟨c₂, ?_, hbounded₂, hcapacity₂.trans hcapacity, ?_, ?_, ?_⟩
    · simp only [serve, hfind, hadd, Option.map_some, fault, if_neg hnot]
    · exact mem_cached_add hbounded.wellFormed hadd
    · rw [← hsame]
      exact cached_add_subset hbounded.wellFormed hadd
    · rw [← hcapacity, ← hcapacity₂]
      exact card_cached hbounded₂

/-- The misses of a strategy are the faults of a schedule. -/
theorem misses_schedule (fs : List Fetch) : ∀ {c : CacheStrategy}, c.Bounded →
    ∃ schedule, Feasible c.capacity c.cached schedule ∧
      schedule.map Prod.fst = fs.map (·.url) ∧ c.misses fs = some (faults c.cached schedule) := by
  induction fs with
  | nil => exact fun _ => ⟨[], trivial, rfl, rfl⟩
  | cons f fs ih =>
    intro c h
    obtain ⟨c', hserve, hbounded, hcapacity, hserves⟩ := serve_spec h f
    obtain ⟨schedule, hfeasible, hurls, hmisses⟩ := ih hbounded
    rw [hcapacity] at hfeasible
    refine ⟨(f.url, c'.cached) :: schedule, ⟨hserves, hfeasible⟩, ?_, ?_⟩
    · rw [List.map_cons, List.map_cons, hurls]
    · rw [misses, hserve, Option.bind_some, hmisses]
      rfl

section Lru

/-- The LRU cache acts on its URLs as the recency list does. -/
theorem serve_lru {c : LRUCache} (h : c.WellFormed) (hc : 1 ≤ c.capacity) (f : Fetch) :
    ∃ c' : LRUCache, (lru c).serve f = some (lru c', fault c.urls.toFinset f.url) ∧
      c'.WellFormed ∧ c'.capacity = c.capacity ∧
      c'.urls = RecencyList.step c.capacity c.urls (.add f.url) := by
  rcases LRUCache.find_cases h f.url f.findTime with ⟨hmem, hfind⟩ | ⟨e, he, hurl, hfind⟩
  · obtain ⟨c', hadd, hwf, hcapacity, hurls⟩ :=
      LRUCache.step_spec h hc (.add f.url f.data f.len f.addTime)
    have hfault : fault c.urls.toFinset f.url = 1 := if_neg (by rwa [List.mem_toFinset])
    refine ⟨c', ?_, hwf, hcapacity, hurls⟩
    simp only [serve, find, hfind, Option.map_some, step, hadd, hfault]
  · have hmem : f.url ∈ c.urls := hurl ▸ List.mem_map_of_mem he
    have hfault : fault c.urls.toFinset f.url = 0 := if_pos (List.mem_toFinset.mpr hmem)
    refine ⟨c.toFront { e with lruTimeTrack := f.findTime }, ?_, h.toFront he f.findTime, rfl, ?_⟩
    · simp only [serve, find, hfind, Option.map_some, hfault]
    · rw [LRUCache.urls_toFront h he f.findTime, hurl, RecencyList.step, if_pos hmem]

theorem misses_lru (fs : List Fetch) : ∀ {c : LRUCache}, c.WellFormed → 1 ≤ c.capacity →
    (lru c).misses fs = some (lruFaults c.capacity c.urls (fs.map (·.url))) := by
  induction fs with
  | nil => exact fun _ _ => rfl
  | cons f fs ih =>
    intro c h hc
    obtain ⟨c', hserve, hwf, hcapacity, hurls⟩ := serve_lru h hc f
    have hrest := ih hwf (hcapacity ▸ hc)
    rw [hcapacity, hurls] at hrest
    rw [misses, hserve, Option.bind_some, hrest]
    rfl

/-- Against every schedule for the same requests, also one made with knowledge of all of
them, and so against every cache of either strategy. -/
theorem lru_competitive {cap : ℕ} (hcap : 1 ≤ cap) (fs : List Fetch) :
    ∃ n, (lru (LRUCache.create cap)).misses fs = some n ∧
      (∀ h C schedule, Feasible h C schedule → schedule.map Prod.fst = fs.map (·.url) →
        (cap + 1 - h) * n ≤ cap * faults C schedule + (cap + 1 - h) * cap) ∧
      ∀ c : CacheStrategy, c.Bounded → ∃ m, c.misses fs = some m ∧
        (cap + 1 - c.capacity) * n ≤ cap * m + (cap + 1 - c.capacity) * cap := by
  have hschedules : ∀ h C schedule, Feasible h C schedule →
      schedule.map Prod.fst = fs.map (·.url) →
      (cap + 1 - h) * lruFaults cap [] (fs.map (·.url)) ≤
        cap * faults C schedule + (cap + 1 - h) * cap := by
    intro h C schedule hfeasible hurls
    rw [← hurls]
    exact lru_le hcap List.nodup_nil (Nat.zero_le cap) hfeasible
  refine ⟨_, misses_lru fs (LRUCache.create_wellFormed cap) hcap, hschedules, ?_⟩
  intro c hbounded
  obtain ⟨schedule, hfeasible, hurls, hmisses⟩ := misses_schedule fs hbounded
  exact ⟨_, hmisses, hschedules _ _ schedule hfeasible hurls⟩

/-- Two entries and three URLs in turn: the LRU cache misses every time. -/
theorem lru_competitive_turns :
    ∃ n, (lru (LRUCache.create 2)).misses [⟨['a'], [], 0, 0, 0⟩, ⟨['b'], [], 0, 0, 0⟩,
        ⟨['c'], [], 0, 0, 0⟩, ⟨['a'], [], 0, 0, 0⟩] = some n ∧
      (∀ h C schedule, Feasible h C schedule →
        schedule.map Prod.fst = [['a'], ['b'], ['c'], ['a']] →
        (2 + 1 - h) * n ≤ 2 * faults C schedule + (2 + 1 - h) * 2) ∧
      ∀ c : CacheStrategy, c.Bounded → ∃ m, c.misses [⟨['a'], [], 0, 0, 0⟩,
        ⟨['b'], [], 0, 0, 0⟩, ⟨['c'], [], 0, 0, 0⟩, ⟨['a'], [], 0, 0, 0⟩] = some m ∧
        (2 + 1 - c.capacity) * n ≤ 2 * m + (2 + 1 - c.capacity) * 2 :=
  lru_competitive (by decide) [⟨['a'], [], 0, 0, 0⟩, ⟨['b'], [], 0, 0, 0⟩, ⟨['c'], [], 0, 0, 0⟩,
    ⟨['a'], [], 0, 0, 0⟩]

end Lru

end ProxyServer.CacheStrategy

