import ProxyServer.CacheElement
import ProxyServer.RecencyList
import ProxyServer.Runs

/-!
The LRU cache: a list of elements, most recently used first, and a map from
URLs to iterators into the list. Operations return `none` where the code would
use an iterator that dangles or take `back()` of an empty list. Under the
invariant that list and map agree no call does, and each call acts on the list
of URLs as the recency list does.
-/
namespace ProxyServer

structure LRUCache where
  capacity : ℕ
  cacheList : List CacheElement
  cacheMap : AList (fun _ : CString => ℕ)
  fresh : ℕ

namespace LRUCache

open CacheElement

def create (cap : ℕ) : LRUCache := ⟨cap, [], ∅, 0⟩

def moveToFront (c : LRUCache) (it : ℕ) : Option LRUCache :=
  (deref c.cacheList it).map (fun elem =>
    { c with cacheList := elem :: unlink c.cacheList it })

def evict (c : LRUCache) : Option LRUCache :=
  c.cacheList.getLast?.map (fun elem =>
    { c with cacheMap := c.cacheMap.erase elem.url, cacheList := c.cacheList.dropLast })

/-- The new element goes to the front and into the map. -/
def pushFront (c : LRUCache) (url : CString) (data : List Char) (len now : ℤ) : LRUCache :=
  { c with
    cacheList := CacheElement.make url data len now c.fresh :: c.cacheList
    cacheMap := c.cacheMap.insert url c.fresh
    fresh := c.fresh + 1 }

def find (c : LRUCache) (url : CString) (now : ℤ) : Option (LRUCache × Option CacheElement) :=
  match c.cacheMap.lookup url with
  | none => some (c, none)
  | some it =>
      (c.moveToFront it).bind (fun c =>
        let c := { c with cacheList := setTime c.cacheList it now }
        (deref c.cacheList it).map (fun elem => (c, some elem)))

def add (c : LRUCache) (url : CString) (data : List Char) (len now : ℤ) : Option LRUCache :=
  match c.cacheMap.lookup url with
  | some it => c.moveToFront it
  | none =>
      (if c.capacity ≤ c.cacheList.length then c.evict else some c).map
        (fun c => c.pushFront url data len now)

def remove (c : LRUCache) (url : CString) : Option LRUCache :=
  match c.cacheMap.lookup url with
  | none => some c
  | some it =>
      (deref c.cacheList it).map (fun _ =>
        { c with cacheList := unlink c.cacheList it, cacheMap := c.cacheMap.erase url })

def step (c : LRUCache) : CacheOp → Option LRUCache
  | .find url now => (c.find url now).map Prod.fst
  | .add url data len now => c.add url data len now
  | .remove url => c.remove url

def urls (c : LRUCache) : List CString := c.cacheList.map (·.url)

/-- List and map agree, and the next address is unused. -/
structure WellFormed (c : LRUCache) : Prop where
  ptrs : (c.cacheList.map (·.ptr)).Nodup
  urls : (c.cacheList.map (·.url)).Nodup
  map_iff : ∀ url it, c.cacheMap.lookup url = some it ↔
    ∃ e ∈ c.cacheList, e.url = url ∧ e.ptr = it
  fresh : ∀ e ∈ c.cacheList, e.ptr < c.fresh

theorem create_wellFormed (cap : ℕ) : (create cap).WellFormed :=
  ⟨List.nodup_nil, List.nodup_nil, by simp [create], by simp [create]⟩

namespace WellFormed

variable {c : LRUCache}

theorem lookup_of_mem (h : c.WellFormed) {e : CacheElement} (he : e ∈ c.cacheList) :
    c.cacheMap.lookup e.url = some e.ptr :=
  (h.map_iff e.url e.ptr).mpr ⟨e, he, rfl, rfl⟩

theorem lookup_eq_none (h : c.WellFormed) (url : CString) :
    c.cacheMap.lookup url = none ↔ url ∉ c.urls := by
  constructor
  · intro hnone hmem
    obtain ⟨e, he, rfl⟩ := List.mem_map.mp hmem
    rw [h.lookup_of_mem he] at hnone
    contradiction
  · intro hnot
    cases hl : c.cacheMap.lookup url with
    | none => rfl
    | some it =>
      obtain ⟨e, he, hu, _⟩ := (h.map_iff url it).mp hl
      exact absurd (List.mem_map.mpr ⟨e, he, hu⟩) hnot

theorem mem_cacheMap (h : c.WellFormed) (url : CString) :
    url ∈ c.cacheMap ↔ url ∈ c.urls := by
  rw [← AList.lookup_isSome, ← not_iff_not, ← h.lookup_eq_none,
    Bool.not_eq_true, Option.isSome_eq_false_iff, Option.isNone_iff_eq_none]

end WellFormed

/-- An element of the list, with a new time, moved to the front. -/
def toFront (c : LRUCache) (e : CacheElement) : LRUCache :=
  { c with cacheList := e :: unlink c.cacheList e.ptr }

theorem moveToFront_eq {c : LRUCache} (h : c.WellFormed) {e : CacheElement}
    (he : e ∈ c.cacheList) : c.moveToFront e.ptr = some (c.toFront e) := by
  unfold moveToFront toFront
  rw [deref_of_mem h.ptrs he, Option.map_some]

theorem find_cases {c : LRUCache} (h : c.WellFormed) (url : CString) (now : ℤ) :
    (url ∉ c.urls ∧ c.find url now = some (c, none)) ∨
    ∃ e ∈ c.cacheList, e.url = url ∧ c.find url now =
      some (c.toFront { e with lruTimeTrack := now }, some { e with lruTimeTrack := now }) := by
  by_cases hmem : url ∈ c.urls
  · right
    obtain ⟨e, he, rfl⟩ := List.mem_map.mp hmem
    refine ⟨e, he, rfl, ?_⟩
    have hrest : setTime (unlink c.cacheList e.ptr) e.ptr now = unlink c.cacheList e.ptr :=
      setTime_of_ne now (fun x hx => (mem_unlink.mp hx).2)
    have hlist : setTime (e :: unlink c.cacheList e.ptr) e.ptr now =
        { e with lruTimeTrack := now } :: unlink c.cacheList e.ptr := by
      rw [setTime, List.map_cons, retime_self, ← setTime, hrest]
    simp only [find, h.lookup_of_mem he, moveToFront_eq h he, Option.bind_some, toFront, hlist]
    simp [deref]
  · left
    refine ⟨hmem, ?_⟩
    unfold find
    rw [(h.lookup_eq_none url).mpr hmem]

theorem add_cases {c : LRUCache} (h : c.WellFormed) (hc : 1 ≤ c.capacity) (url : CString)
    (data : List Char) (len now : ℤ) :
    (∃ e ∈ c.cacheList, e.url = url ∧ c.add url data len now = some (c.toFront e)) ∨
    (url ∉ c.urls ∧ c.cacheList.length < c.capacity ∧
      c.add url data len now = some (c.pushFront url data len now)) ∨
    (url ∉ c.urls ∧ c.capacity ≤ c.cacheList.length ∧ ∃ l v, c.cacheList = l ++ [v] ∧
      c.add url data len now = some ({ c with
        cacheMap := c.cacheMap.erase v.url
        cacheList := l }.pushFront url data len now)) := by
  by_cases hmem : url ∈ c.urls
  · left
    obtain ⟨e, he, rfl⟩ := List.mem_map.mp hmem
    refine ⟨e, he, rfl, ?_⟩
    unfold add
    rw [h.lookup_of_mem he]
    exact moveToFront_eq h he
  · right
    have hlookup := (h.lookup_eq_none url).mpr hmem
    by_cases hfull : c.capacity ≤ c.cacheList.length
    · right
      have hne : c.cacheList ≠ [] := by
        intro hnil
        rw [hnil] at hfull
        simp at hfull
        omega
      obtain ⟨l, v, hl⟩ := (List.eq_nil_or_concat c.cacheList).resolve_left hne
      rw [List.concat_eq_append] at hl
      refine ⟨hmem, hfull, l, v, hl, ?_⟩
      unfold add
      simp only [hlookup, hfull, if_true]
      simp only [evict, hl, List.getLast?_concat, Option.map_some, List.dropLast_concat]
    · left
      refine ⟨hmem, by omega, ?_⟩
      unfold add
      simp only [hlookup, hfull, if_false, Option.map_some]

theorem remove_cases {c : LRUCache} (h : c.WellFormed) (url : CString) :
    (url ∉ c.urls ∧ c.remove url = some c) ∨
    ∃ e ∈ c.cacheList, e.url = url ∧ c.remove url = some { c with
      cacheList := unlink c.cacheList e.ptr
      cacheMap := c.cacheMap.erase url } := by
  by_cases hmem : url ∈ c.urls
  · right
    obtain ⟨e, he, rfl⟩ := List.mem_map.mp hmem
    refine ⟨e, he, rfl, ?_⟩
    unfold remove
    simp only [h.lookup_of_mem he, deref_of_mem h.ptrs he, Option.map_some]
  · left
    refine ⟨hmem, ?_⟩
    unfold remove
    rw [(h.lookup_eq_none url).mpr hmem]

namespace WellFormed

variable {c : LRUCache}

/-- Dropping the element of one URL from both structures keeps them in step. -/
theorem drop (h : c.WellFormed) {e : CacheElement} (he : e ∈ c.cacheList) :
    WellFormed { c with
      cacheList := unlink c.cacheList e.ptr
      cacheMap := c.cacheMap.erase e.url } where
  ptrs := h.ptrs.sublist ((unlink_sublist _ _).map _)
  urls := h.urls.sublist ((unlink_sublist _ _).map _)
  map_iff url it := by
    by_cases hu : url = e.url
    · subst hu
      simp only [AList.lookup_erase, reduceCtorEq, false_iff]
      intro hex
      obtain ⟨x, hx, hxu, _⟩ := hex
      have hxe := mem_unlink.mp hx
      exact hxe.2 (congrArg CacheElement.ptr (eq_of_url h.urls hxe.1 he hxu))
    · rw [AList.lookup_erase_ne hu, h.map_iff]
      constructor
      · intro hex
        obtain ⟨x, hx, hxu, hxp⟩ := hex
        refine ⟨x, mem_unlink.mpr ⟨hx, ?_⟩, hxu, hxp⟩
        intro hp
        exact hu (hxu ▸ congrArg CacheElement.url (eq_of_ptr h.ptrs hx he hp))
      · intro hex
        obtain ⟨x, hx, hxu, hxp⟩ := hex
        exact ⟨x, (mem_unlink.mp hx).1, hxu, hxp⟩
  fresh x hx := h.fresh x (mem_unlink.mp hx).1

/-- Moving an element to the front, its time set anew, keeps list and map in
step. -/
theorem toFront (h : c.WellFormed) {e : CacheElement} (he : e ∈ c.cacheList) (now : ℤ) :
    (c.toFront { e with lruTimeTrack := now }).WellFormed := by
  have hptr : e.ptr ∉ (unlink c.cacheList e.ptr).map (·.ptr) := by
    intro hmem
    obtain ⟨x, hx, hxp⟩ := List.mem_map.mp hmem
    exact (mem_unlink.mp hx).2 hxp
  have hurl : e.url ∉ (unlink c.cacheList e.ptr).map (·.url) := by
    rw [url_unlink h.ptrs h.urls he]
    exact h.urls.not_mem_erase
  refine ⟨?_, ?_, ?_, ?_⟩
  · exact List.nodup_cons.mpr ⟨hptr, h.ptrs.sublist ((unlink_sublist _ _).map _)⟩
  · exact List.nodup_cons.mpr ⟨hurl, h.urls.sublist ((unlink_sublist _ _).map _)⟩
  · intro url it
    refine Iff.trans (h.map_iff url it) ⟨?_, ?_⟩
    · intro hex
      obtain ⟨x, hx, hxu, hxp⟩ := hex
      by_cases hxe : x.ptr = e.ptr
      · have heq := eq_of_ptr h.ptrs hx he hxe
        subst heq
        exact ⟨_, List.mem_cons_self, hxu, hxp⟩
      · exact ⟨x, List.mem_cons_of_mem _ (mem_unlink.mpr ⟨hx, hxe⟩), hxu, hxp⟩
    · intro hex
      obtain ⟨x, hx, hxu, hxp⟩ := hex
      rcases List.mem_cons.mp hx with rfl | hx
      · exact ⟨e, he, hxu, hxp⟩
      · exact ⟨x, (mem_unlink.mp hx).1, hxu, hxp⟩
  · intro x hx
    rcases List.mem_cons.mp hx with rfl | hx
    · exact h.fresh e he
    · exact h.fresh x (mem_unlink.mp hx).1

/-- A new element goes under a new URL and a new address. -/
theorem pushFront (h : c.WellFormed) {url : CString} (hurl : url ∉ c.urls)
    (data : List Char) (len now : ℤ) : (c.pushFront url data len now).WellFormed := by
  have hptr : ∀ x ∈ c.cacheList, x.ptr ≠ c.fresh := fun x hx => (h.fresh x hx).ne
  refine ⟨?_, ?_, ?_, ?_⟩
  · refine List.nodup_cons.mpr ⟨?_, h.ptrs⟩
    intro hmem
    obtain ⟨x, hx, hxp⟩ := List.mem_map.mp hmem
    exact hptr x hx hxp
  · exact List.nodup_cons.mpr ⟨hurl, h.urls⟩
  · intro url' it
    by_cases hu : url' = url
    · subst hu
      simp only [LRUCache.pushFront, AList.lookup_insert, Option.some.injEq, List.mem_cons]
      constructor
      · intro hit
        exact ⟨_, Or.inl rfl, rfl, hit⟩
      · intro hex
        obtain ⟨x, hx, hxu, hxp⟩ := hex
        rcases hx with rfl | hx
        · exact hxp
        · exact absurd (List.mem_map.mpr ⟨x, hx, hxu⟩) hurl
    · simp only [LRUCache.pushFront, AList.lookup_insert_ne hu, h.map_iff, List.mem_cons]
      constructor
      · intro hex
        obtain ⟨x, hx, hxu⟩ := hex
        exact ⟨x, Or.inr hx, hxu⟩
      · intro hex
        obtain ⟨x, hx, hxu⟩ := hex
        rcases hx with rfl | hx
        · exact absurd hxu.1.symm hu
        · exact ⟨x, hx, hxu⟩
  · intro x hx
    rcases List.mem_cons.mp hx with rfl | hx
    · exact Nat.lt_succ_self _
    · exact Nat.lt_succ_of_lt (h.fresh x hx)

end WellFormed

@[simp] theorem urls_pushFront (c : LRUCache) (url : CString) (data : List Char) (len now : ℤ) :
    (c.pushFront url data len now).urls = url :: c.urls := rfl

theorem urls_toFront {c : LRUCache} (h : c.WellFormed) {e : CacheElement}
    (he : e ∈ c.cacheList) (now : ℤ) :
    (c.toFront { e with lruTimeTrack := now }).urls = RecencyList.touch c.urls e.url := by
  have hunlink := url_unlink h.ptrs h.urls he
  exact congrArg (List.cons e.url) hunlink

/-- Every call on a well-formed cache is defined, keeps it well formed, and
acts on the URLs as the recency list does. -/
theorem step_spec {c : LRUCache} (h : c.WellFormed) (hc : 1 ≤ c.capacity) (op : CacheOp) :
    ∃ c', c.step op = some c' ∧ c'.WellFormed ∧ c'.capacity = c.capacity ∧
      c'.urls = RecencyList.step c.capacity c.urls op.access := by
  cases op with
  | find url now =>
    rcases find_cases h url now with ⟨hmem, hfind⟩ | ⟨e, he, rfl, hfind⟩
    · refine ⟨c, by rw [step, hfind]; rfl, h, rfl, ?_⟩
      simp [CacheOp.access, RecencyList.step, hmem]
    · have hmem : e.url ∈ c.urls := List.mem_map_of_mem he
      refine ⟨_, by rw [step, hfind]; rfl, h.toFront he now, rfl, ?_⟩
      rw [urls_toFront h he now]
      simp [CacheOp.access, RecencyList.step, hmem]
  | add url data len now =>
    rcases add_cases h hc url data len now with
      ⟨e, he, rfl, hadd⟩ | ⟨hmem, hlt, hadd⟩ | ⟨hmem, hfull, l, v, hl, hadd⟩
    · have hmem : e.url ∈ c.urls := List.mem_map_of_mem he
      refine ⟨_, hadd, h.toFront he e.lruTimeTrack, rfl, ?_⟩
      refine (urls_toFront h he e.lruTimeTrack).trans ?_
      simp [CacheOp.access, RecencyList.step, hmem]
    · refine ⟨_, hadd, h.pushFront hmem data len now, rfl, ?_⟩
      have hlen : ¬ c.capacity ≤ c.urls.length := by
        simpa [urls] using hlt
      simp [CacheOp.access, RecencyList.step, RecencyList.insert, hmem, hlen]
    · have hv : v ∈ c.cacheList := by simp [hl]
      have hdrop := h.drop hv
      rw [hl, unlink_last (hl ▸ h.ptrs)] at hdrop
      have hsub : l.map (·.url) = c.urls.dropLast := by simp [urls, hl]
      have hmem' : url ∉ l.map (·.url) := by
        rw [hsub]
        exact fun hm => hmem (List.mem_of_mem_dropLast hm)
      refine ⟨_, hadd, hdrop.pushFront hmem' data len now, rfl, ?_⟩
      have hlen : c.capacity ≤ c.urls.length := by
        simpa [urls] using hfull
      simp only [CacheOp.access, RecencyList.step, RecencyList.insert, hmem, hlen, if_false,
        if_true, urls_pushFront, ← hsub]
      rfl
  | remove url =>
    rcases remove_cases h url with ⟨hmem, hremove⟩ | ⟨e, he, rfl, hremove⟩
    · refine ⟨c, hremove, h, rfl, ?_⟩
      simp [CacheOp.access, RecencyList.step, List.erase_of_not_mem hmem]
    · refine ⟨_, hremove, h.drop he, rfl, ?_⟩
      exact url_unlink h.ptrs h.urls he

end LRUCache

end ProxyServer
