import ProxyServer.FirstLeast
import ProxyServer.CStrings
import ProxyServer.Runs
import Mathlib.Data.Int.Order.Basic

/-!
The cache of the C proxies under `v1`: a list with the newest element at its
head, whose size is counted in `cache_size`. Elements carry the reading of a
clock at their last access, and one with the least reading is dropped when room
is needed. The pointer to an element is the number of its allocation; inside the
functions a node is given by its place in the list. The calls of the mutex are
left out here.
-/
namespace ProxyServer.V1

open CStrings

abbrev maxSize : ℤ := 200 * 2 ^ 20

abbrev maxElementSize : ℤ := 10 * 2 ^ 20

/-- `sizeof(cache_element)` -/
abbrev sizeofCacheElement : ℤ := 40

structure CacheElement where
  ptr : ℕ
  data : CString
  len : ℤ
  url : CString
  lruTimeTrack : ℤ
  deriving DecidableEq, Repr

structure Cache where
  elements : List CacheElement
  cacheSize : ℤ
  allocated : ℕ
  deriving DecidableEq, Repr

def Cache.empty : Cache := ⟨[], 0, 0⟩

def findPlace (c : Cache) (url : CString) : Option ℕ :=
  c.elements.findIdx? (fun site => site.url == url)

/-- The element found, with its new reading, and the cache. -/
def find (c : Cache) (url : CString) (now : ℤ) : Option CacheElement × Cache :=
  match findPlace c url with
  | none => (none, c)
  | some i =>
      let elements := c.elements.modify i (fun site => { site with lruTimeTrack := now })
      (elements[i]?, { c with elements := elements })

/-- The pointers `p` and `temp` of `remove_cache_element`, and what `temp`
points to. -/
structure Search where
  p : ℕ
  temp : ℕ
  least : CacheElement

/-- The loop of `remove_cache_element` with `q` before the given nodes. -/
def searchLoop : List CacheElement → ℕ → Search → Search
  | [], _, r => r
  | next :: rest, q, r =>
      searchLoop rest (q + 1)
        (if next.lruTimeTrack < r.least.lruTimeTrack then ⟨q, q + 1, next⟩ else r)

def removeCacheElement (c : Cache) : Cache :=
  match c.elements with
  | [] => c
  | head :: rest =>
      let r := searchLoop rest 0 ⟨0, 0, head⟩
      { c with
        elements := if r.temp = 0 then rest
          else c.elements.take (r.p + 1) ++ c.elements.drop (r.temp + 1)
        cacheSize := toInt (c.cacheSize - r.least.len - sizeofCacheElement -
          r.least.url.length - 1) }

/-- `element_size` in `add_cache_element`. -/
def elementSize (size : ℤ) (url : CString) : ℤ :=
  toInt (size + 1 + url.length + sizeofCacheElement)

/-- There is room for an element without removing another. -/
def Room (c : Cache) (elementSize : ℤ) : Prop := toInt (c.cacheSize + elementSize) ≤ maxSize

instance (c : Cache) (elementSize : ℤ) : Decidable (Room c elementSize) :=
  inferInstanceAs (Decidable (_ ≤ _))

/-- The loop of `add_cache_element`, with the number of elements. On an empty
list a turn changes nothing, and the loop does not end. -/
def evictLoop (elementSize : ℤ) : ℕ → Cache → Option Cache
  | 0, c => if Room c elementSize then some c else none
  | n + 1, c =>
      if Room c elementSize then some c else evictLoop elementSize n (removeCacheElement c)

/-- The element is put at the head; the copy of the data would overrun its
`size + 1` bytes where it is longer. -/
def insert (c : Cache) (data : CString) (size : ℤ) (url : CString) (now : ℤ) : Option Cache :=
  if size < data.length then none
  else some
    { elements := ⟨c.allocated, data, size, url, now⟩ :: c.elements
      cacheSize := toInt (c.cacheSize + elementSize size url)
      allocated := c.allocated + 1 }

/-- The answer and the cache; `none` where the call does not return or overruns
an allocation. -/
def addCacheElement (c : Cache) (data : CString) (size : ℤ) (url : CString) (now : ℤ) :
    Option (ℤ × Cache) :=
  if maxElementSize < elementSize size url then some (0, c)
  else do
    let c ← evictLoop (elementSize size url) c.elements.length c
    let c ← insert c data size url now
    some (1, c)

/-- The calls, with what `time(NULL)` answers in them. -/
inductive Call
  | find (url : CString) (now : ℤ)
  | remove
  | add (data : CString) (size : ℤ) (url : CString) (now : ℤ)
  deriving DecidableEq, Repr

def step (c : Cache) : Call → Option Cache
  | .find url now => some (find c url now).2
  | .remove => some (removeCacheElement c)
  | .add data size url now => (addCacheElement c data size url now).map Prod.snd

section Find

/-- The first element with the url gets the new reading. -/
theorem find_spec (c : Cache) (url : CString) (now : ℤ) :
    ((∀ e ∈ c.elements, e.url ≠ url) ∧ find c url now = (none, c)) ∨
    ∃ front e back, c.elements = front ++ e :: back ∧ (∀ x ∈ front, x.url ≠ url) ∧ e.url = url ∧
      find c url now = (some { e with lruTimeTrack := now },
        { c with elements := front ++ { e with lruTimeTrack := now } :: back }) := by
  unfold find
  cases hplace : findPlace c url with
  | none =>
    left
    refine ⟨?_, rfl⟩
    intro e he
    have hne := List.findIdx?_eq_none_iff.mp hplace e he
    exact ne_of_beq_false hne
  | some i =>
    right
    obtain ⟨hi, hurl, hfirst⟩ := List.findIdx?_eq_some_iff_getElem.mp hplace
    refine ⟨c.elements.take i, c.elements[i], c.elements.drop (i + 1), ?_, ?_, eq_of_beq hurl, ?_⟩
    · rw [← List.drop_eq_getElem_cons hi, List.take_append_drop]
    · intro x hx
      obtain ⟨j, hj, rfl⟩ := List.mem_take_iff_getElem.mp hx
      have hne := hfirst j (by omega)
      simpa using hne
    · dsimp only
      rw [List.getElem?_modify_eq, List.getElem?_eq_getElem hi, List.modify_eq_take_cons_drop hi]
      rfl

/-- An element after a lookup is one from before, but for its reading. -/
theorem mem_find {c : Cache} {url : CString} {now : ℤ} {x : CacheElement}
    (hx : x ∈ (find c url now).2.elements) :
    ∃ e ∈ c.elements, e.ptr = x.ptr ∧ e.url = x.url ∧ e.data = x.data ∧ e.len = x.len := by
  rcases find_spec c url now with ⟨_, heq⟩ | ⟨front, e, back, helements, _, _, heq⟩
  · rw [heq] at hx
    exact ⟨x, hx, rfl, rfl, rfl, rfl⟩
  · rw [heq] at hx
    rw [helements]
    rcases List.mem_append.mp hx with hx | hx
    · exact ⟨x, List.mem_append_left _ hx, rfl, rfl, rfl, rfl⟩
    · rcases List.mem_cons.mp hx with rfl | hx
      · exact ⟨e, List.mem_append_right _ List.mem_cons_self, rfl, rfl, rfl, rfl⟩
      · exact ⟨x, List.mem_append_right _ (List.mem_cons_of_mem e hx), rfl, rfl, rfl, rfl⟩

/-- What does not look at the reading is the same of all elements. -/
theorem map_find {β : Type*} (f : CacheElement → β)
    (hf : ∀ e now, f { e with lruTimeTrack := now } = f e) (c : Cache) (url : CString) (now : ℤ) :
    (find c url now).2.elements.map f = c.elements.map f := by
  rcases find_spec c url now with ⟨_, heq⟩ | ⟨front, e, back, helements, _, _, heq⟩
  · rw [heq]
  · rw [heq, helements]
    simp only [List.map_append, List.map_cons, hf]

theorem find_cacheSize (c : Cache) (url : CString) (now : ℤ) :
    (find c url now).2.cacheSize = c.cacheSize := by
  unfold find
  cases findPlace c url <;> rfl

theorem find_allocated (c : Cache) (url : CString) (now : ℤ) :
    (find c url now).2.allocated = c.allocated := by
  unfold find
  cases findPlace c url <;> rfl

end Find

section Remove

/-- The nodes seen, with the first of the least among them and its predecessor. -/
structure Seen (seen : List CacheElement) (r : Search) (front back : List CacheElement) :
    Prop where
  least : FirstLeast CacheElement.lruTimeTrack seen front r.least back
  temp : r.temp = front.length
  p : r.temp ≠ 0 → r.p + 1 = r.temp

theorem Seen.next {seen front back : List CacheElement} {r : Search} (h : Seen seen r front back)
    {q : ℕ} (hq : q + 1 = seen.length) (next : CacheElement) :
    ∃ front' back', Seen (seen ++ [next])
      (if next.lruTimeTrack < r.least.lruTimeTrack then ⟨q, q + 1, next⟩ else r) front' back' := by
  by_cases hlt : next.lruTimeTrack < r.least.lruTimeTrack
  · rw [if_pos hlt]
    exact ⟨seen, [], h.least.concat_of_lt hlt, hq, fun _ => rfl⟩
  · rw [if_neg hlt]
    exact ⟨front, back ++ [next], h.least.concat_of_le (not_lt.mp hlt), h.temp, h.p⟩

theorem Seen.loop (rest : List CacheElement) :
    ∀ {seen front back : List CacheElement} {r : Search} {q : ℕ}, Seen seen r front back →
      q + 1 = seen.length →
      ∃ front' back', Seen (seen ++ rest) (searchLoop rest q r) front' back' := by
  induction rest with
  | nil =>
    intro seen front back r q h _
    rw [List.append_nil]
    exact ⟨front, back, h⟩
  | cons next rest ih =>
    intro seen front back r q h hq
    obtain ⟨front', back', h'⟩ := h.next hq next
    rw [searchLoop, ← List.singleton_append, ← List.append_assoc]
    apply ih h'
    rw [List.length_append, ← hq]
    rfl

/-- From a list that is not empty the first of the least elements is unlinked. -/
theorem removeCacheElement_spec {c : Cache} (h : c.elements ≠ []) :
    ∃ front victim back,
      FirstLeast CacheElement.lruTimeTrack c.elements front victim back ∧
      removeCacheElement c = { c with
        elements := front ++ back
        cacheSize := toInt (c.cacheSize - victim.len - sizeofCacheElement -
          victim.url.length - 1) } := by
  obtain ⟨head, rest, helements⟩ := List.exists_cons_of_ne_nil h
  have hhead : Seen [head] ⟨0, 0, head⟩ [] [] :=
    ⟨FirstLeast.singleton _ head, rfl, fun h => absurd rfl h⟩
  obtain ⟨front, back, hseen⟩ := Seen.loop rest (q := 0) hhead rfl
  rw [List.singleton_append, ← helements] at hseen
  refine ⟨front, _, back, hseen.least, ?_⟩
  have heq := hseen.least.eq
  have hunlink : (if (searchLoop rest 0 ⟨0, 0, head⟩).temp = 0 then rest
      else c.elements.take ((searchLoop rest 0 ⟨0, 0, head⟩).p + 1) ++
        c.elements.drop ((searchLoop rest 0 ⟨0, 0, head⟩).temp + 1)) = front ++ back := by
    by_cases hzero : (searchLoop rest 0 ⟨0, 0, head⟩).temp = 0
    · have hfront : front = [] := List.length_eq_zero_iff.mp (hseen.temp.symm.trans hzero)
      rw [if_pos hzero]
      rw [helements, hfront] at heq
      rw [hfront]
      exact (List.cons.inj heq).2
    · rw [if_neg hzero, hseen.p hzero, hseen.temp, heq, List.take_left, ← List.drop_drop,
        List.drop_left]
      rfl
  unfold removeCacheElement
  rw [helements] at hunlink ⊢
  dsimp only
  rw [hunlink]

theorem removeCacheElement_of_nil {c : Cache} (h : c.elements = []) :
    removeCacheElement c = c := by
  unfold removeCacheElement
  rw [h]

theorem length_removeCacheElement (c : Cache) :
    (removeCacheElement c).elements.length = c.elements.length - 1 := by
  by_cases h : c.elements = []
  · rw [removeCacheElement_of_nil h, h]
    rfl
  · obtain ⟨front, victim, back, hleast, heq⟩ := removeCacheElement_spec h
    rw [heq, hleast.eq, List.length_append, List.length_append, List.length_cons]
    omega

theorem removeCacheElement_sublist (c : Cache) :
    (removeCacheElement c).elements.Sublist c.elements := by
  by_cases h : c.elements = []
  · rw [removeCacheElement_of_nil h]
  · obtain ⟨front, victim, back, hleast, heq⟩ := removeCacheElement_spec h
    rw [heq, hleast.eq]
    exact (List.Sublist.refl front).append (List.sublist_cons_self victim back)

theorem removeCacheElement_allocated (c : Cache) :
    (removeCacheElement c).allocated = c.allocated := by
  unfold removeCacheElement
  cases c.elements <;> rfl

end Remove

section Evict

theorem evictLoop_of_room {elementSize : ℤ} {c : Cache} (h : Room c elementSize) (n : ℕ) :
    evictLoop elementSize n c = some c := by
  cases n <;> exact if_pos h

/-- What a removal keeps, the loop keeps, and it leaves with room. -/
theorem evictLoop_invariant (inv : Cache → Prop) (hinv : ∀ c, inv c → inv (removeCacheElement c))
    {elementSize : ℤ} (n : ℕ) : ∀ {c c' : Cache}, inv c → evictLoop elementSize n c = some c' →
      inv c' ∧ Room c' elementSize := by
  induction n with
  | zero =>
    intro c c' hc h
    rw [evictLoop] at h
    split at h
    case isTrue hroom =>
      cases h
      exact ⟨hc, hroom⟩
    case isFalse => contradiction
  | succ n ih =>
    intro c c' hc h
    rw [evictLoop] at h
    split at h
    case isTrue hroom =>
      cases h
      exact ⟨hc, hroom⟩
    case isFalse => exact ih (hinv c hc) h

theorem evictLoop_sublist {elementSize : ℤ} {n : ℕ} {c c' : Cache}
    (h : evictLoop elementSize n c = some c') :
    c'.elements.Sublist c.elements ∧ c'.allocated = c.allocated := by
  refine (evictLoop_invariant (fun x => x.elements.Sublist c.elements ∧ x.allocated = c.allocated)
    ?_ n ⟨List.Sublist.refl _, rfl⟩ h).1
  rintro x ⟨hsub, hallocated⟩
  exact ⟨(removeCacheElement_sublist x).trans hsub,
    (removeCacheElement_allocated x).trans hallocated⟩

/-- The loop has ended, or never will, once it has taken as many turns as there
are elements. -/
theorem evictLoop_eq (elementSize : ℤ) (n : ℕ) :
    ∀ c : Cache, c.elements.length ≤ n →
      evictLoop elementSize n c = evictLoop elementSize c.elements.length c := by
  induction n with
  | zero =>
    intro c hc
    rw [Nat.le_zero.mp hc]
  | succ n ih =>
    intro c hc
    by_cases hroom : Room c elementSize
    · rw [evictLoop_of_room hroom, evictLoop_of_room hroom]
    · rw [evictLoop, if_neg hroom]
      have hlength := length_removeCacheElement c
      rw [ih (removeCacheElement c) (by omega)]
      cases hm : c.elements.length with
      | zero =>
        rw [removeCacheElement_of_nil (List.length_eq_zero_iff.mp hm), hm]
      | succ m =>
        rw [evictLoop, if_neg hroom, hlength, hm]
        rfl

end Evict

section Add

theorem addCacheElement_cases {c c' : Cache} {data : CString} {size : ℤ} {url : CString}
    {now answer : ℤ} (h : addCacheElement c data size url now = some (answer, c')) :
    (maxElementSize < elementSize size url ∧ answer = 0 ∧ c' = c) ∨
    (elementSize size url ≤ maxElementSize ∧ answer = 1 ∧ data.length ≤ size ∧
      ∃ c₁, evictLoop (elementSize size url) c.elements.length c = some c₁ ∧
        c' = ⟨⟨c₁.allocated, data, size, url, now⟩ :: c₁.elements,
          toInt (c₁.cacheSize + elementSize size url), c₁.allocated + 1⟩) := by
  unfold addCacheElement at h
  split at h
  case isTrue hlarge =>
    cases h
    exact Or.inl ⟨hlarge, rfl, rfl⟩
  case isFalse hfits =>
    obtain ⟨c₁, hevict, h⟩ := Option.bind_eq_some_iff.mp h
    obtain ⟨c₂, hinsert, h⟩ := Option.bind_eq_some_iff.mp h
    cases h
    unfold insert at hinsert
    split at hinsert
    case isTrue => contradiction
    case isFalse hcopy =>
      cases hinsert
      exact Or.inr ⟨not_lt.mp hfits, rfl, not_lt.mp hcopy, c₁, hevict, rfl⟩

/-- An add that may store its element does so once there is room. -/
theorem addCacheElement_of_evict {c c₁ : Cache} {data : CString} {size : ℤ} {url : CString}
    (now : ℤ) (hfits : elementSize size url ≤ maxElementSize) (hcopy : data.length ≤ size)
    (hevict : evictLoop (elementSize size url) c.elements.length c = some c₁) :
    addCacheElement c data size url now = some (1, ⟨⟨c₁.allocated, data, size, url, now⟩ ::
      c₁.elements, toInt (c₁.cacheSize + elementSize size url), c₁.allocated + 1⟩) := by
  rw [addCacheElement, if_neg (not_lt.mpr hfits), hevict, Option.bind_eq_bind, Option.bind_some,
    insert, if_neg (not_lt.mpr hcopy)]
  rfl

end Add

section Pointers

/-- Pointers to different elements differ, and no later allocation gives one. -/
structure Allocated (c : Cache) : Prop where
  nodup : (c.elements.map CacheElement.ptr).Nodup
  lt : ∀ e ∈ c.elements, e.ptr < c.allocated

namespace Allocated

variable {c : Cache}

theorem empty : Allocated Cache.empty :=
  ⟨List.nodup_nil, fun _ he => absurd he List.not_mem_nil⟩

theorem sublist {c' : Cache} (h : Allocated c) (hallocated : c'.allocated = c.allocated)
    (hsub : (c'.elements.map CacheElement.ptr).Sublist (c.elements.map CacheElement.ptr)) :
    Allocated c' := by
  refine ⟨h.nodup.sublist hsub, ?_⟩
  intro e he
  obtain ⟨e', he', hptr⟩ := List.mem_map.mp (hsub.subset (List.mem_map_of_mem he))
  rw [hallocated, ← hptr]
  exact h.lt e' he'

theorem find (h : Allocated c) (url : CString) (now : ℤ) : Allocated (V1.find c url now).2 := by
  apply h.sublist (find_allocated c url now)
  rw [map_find CacheElement.ptr (fun _ _ => rfl)]

theorem remove (h : Allocated c) : Allocated (removeCacheElement c) :=
  h.sublist (removeCacheElement_allocated c) ((removeCacheElement_sublist c).map _)

theorem insert (h : Allocated c) (data : CString) (size : ℤ) (url : CString) (now cacheSize : ℤ) :
    Allocated ⟨⟨c.allocated, data, size, url, now⟩ :: c.elements, cacheSize, c.allocated + 1⟩ := by
  constructor
  · dsimp only
    rw [List.map_cons, List.nodup_cons]
    refine ⟨?_, h.nodup⟩
    intro hmem
    obtain ⟨e, he, hptr⟩ := List.mem_map.mp hmem
    exact absurd (h.lt e he) (by dsimp only at hptr; omega)
  · intro e he
    rcases List.mem_cons.mp he with rfl | he
    · exact Nat.lt_succ_self c.allocated
    · exact Nat.lt_succ_of_lt (h.lt e he)

theorem step (h : Allocated c) {call : Call} {c' : Cache} (hstep : V1.step c call = some c') :
    Allocated c' := by
  cases call with
  | find url now =>
    cases hstep
    exact h.find url now
  | remove =>
    cases hstep
    exact h.remove
  | add data size url now =>
    obtain ⟨⟨answer, c''⟩, hadd, rfl⟩ := Option.map_eq_some_iff.mp hstep
    rcases addCacheElement_cases hadd with ⟨_, _, rfl⟩ | ⟨_, _, _, c₁, hevict, rfl⟩
    · exact h
    · obtain ⟨hc₁, _⟩ := evictLoop_invariant Allocated (fun c hc => remove hc) _ h hevict
      exact hc₁.insert data size url now _

end Allocated

theorem allocated_run {calls : List Call} {c : Cache}
    (hrun : Runs.run step Cache.empty calls = some c) : Allocated c :=
  Runs.run_invariant step Allocated (fun _ _ _ hc hstep => hc.step hstep) calls _ c
    Allocated.empty hrun

end Pointers

end ProxyServer.V1
