import ProxyServer.TimedCache
import Mathlib.Logic.Function.Basic

/-!
Workers of the C proxy on one cache. The lookup of a request and the insertion of its
response are two critical sections, and `add_cache_element` does not look for the url
again. Two workers that both miss a request therefore both store an element for it;
and an element is stored beside another one in no other way.
-/
namespace ProxyServer.V1

open CStrings

/-- A worker that has missed a request remembers it. With it stands the number of
elements allocated before, which no step reads. -/
inductive HandlerPoint
  | free
  | missed (tempReq : CString) (allocated : ℕ)
  deriving DecidableEq

structure Handlers (W : Type*) where
  cache : Cache
  point : W → HandlerPoint

namespace Handlers

variable {W : Type*}

/-- `handle_client` looks a request up. After a miss it adds the response, or leaves the
request without one. -/
inductive Step (W : Type*)
  | find (w : W) (tempReq : CString) (now : ℤ)
  | add (w : W) (tempBuffer : CString) (now : ℤ)
  | leave (w : W)
  deriving DecidableEq

def start : Handlers W := ⟨Cache.empty, fun _ => .free⟩

def DistinctUrls (s : Handlers W) : Prop := (s.cache.elements.map CacheElement.url).Nodup

/-- When the add of `w` stores its element, the elements left after making room were
not stored for the same request since `w` missed it. -/
def NotOvertaken (s : Handlers W) : Step W → Prop
  | .add w tempBuffer _ => ∀ tempReq allocated, s.point w = .missed tempReq allocated →
      let size := toInt tempBuffer.length
      elementSize size tempReq ≤ maxElementSize → tempBuffer.length ≤ size →
        ∀ c, evictLoop (elementSize size tempReq) s.cache.elements.length s.cache = some c →
          ∀ e ∈ c.elements, e.url = tempReq → e.ptr < allocated
  | _ => True

/-- What a worker that has missed a request knows of the cache later on. -/
def Missed (c : Cache) : HandlerPoint → Prop
  | .free => True
  | .missed tempReq allocated =>
      allocated ≤ c.allocated ∧ ∀ e ∈ c.elements, e.url = tempReq → allocated ≤ e.ptr

structure Inv (s : Handlers W) : Prop where
  allocated : Allocated s.cache
  missed : ∀ w, Missed s.cache (s.point w)

theorem start_inv : (start : Handlers W).Inv := ⟨Allocated.empty, fun _ => trivial⟩

section Missed

variable {c c' : Cache} {p : HandlerPoint}

/-- Elements keep their urls and pointers, or go, or are new. -/
theorem Missed.mono (h : Missed c p) (hallocated : c.allocated ≤ c'.allocated)
    (helements : ∀ e ∈ c'.elements, c.allocated ≤ e.ptr ∨
      ∃ x ∈ c.elements, x.url = e.url ∧ x.ptr = e.ptr) : Missed c' p := by
  cases p with
  | free => trivial
  | missed tempReq allocated =>
    refine ⟨h.1.trans hallocated, ?_⟩
    intro e he hurl
    rcases helements e he with hnew | ⟨x, hx, hxurl, hptr⟩
    · exact h.1.trans hnew
    · rw [← hptr]
      exact h.2 x hx (hxurl.trans hurl)

theorem Missed.find (h : Missed c p) (url : CString) (now : ℤ) :
    Missed (V1.find c url now).2 p := by
  apply h.mono (find_allocated c url now).ge
  intro x hx
  obtain ⟨e, he, hptr, hurl, _, _⟩ := mem_find hx
  exact Or.inr ⟨e, he, hurl, hptr⟩

/-- A lookup that answers NULL leaves the cache, and the worker knows its request is
not in it. -/
theorem missed_of_find_none {c : Cache} {url : CString} {now : ℤ}
    (h : (V1.find c url now).1 = none) :
    (V1.find c url now).2 = c ∧ Missed c (.missed url c.allocated) := by
  rcases find_spec c url now with ⟨hnot, heq⟩ | ⟨front, e, back, helements, _, _, heq⟩
  · rw [heq]
    exact ⟨rfl, le_refl _, fun e he hurl => absurd hurl (hnot e he)⟩
  · rw [heq] at h
    contradiction

end Missed

section Step
variable [DecidableEq W]

def goto (s : Handlers W) (w : W) (p : HandlerPoint) : Handlers W :=
  { s with point := Function.update s.point w p }

def step (s : Handlers W) : Step W → Option (Handlers W)
  | .find w tempReq now =>
      match s.point w with
      | .free =>
          let (site, cache) := V1.find s.cache tempReq now
          let s := { s with cache := cache }
          some (if site.isSome then s else s.goto w (.missed tempReq s.cache.allocated))
      | .missed _ _ => none
  | .add w tempBuffer now =>
      match s.point w with
      | .free => none
      | .missed tempReq _ =>
          (addCacheElement s.cache tempBuffer (toInt tempBuffer.length) tempReq now).map
            (fun (_, cache) => { s with cache := cache }.goto w .free)
  | .leave w =>
      match s.point w with
      | .free => none
      | .missed _ _ => some (s.goto w .free)

/-- The cache with the element in front, once there is room. -/
def stored (c : Cache) (tempBuffer tempReq : CString) (now : ℤ) : Cache where
  elements := ⟨c.allocated, tempBuffer, toInt tempBuffer.length, tempReq, now⟩ :: c.elements
  cacheSize := toInt (c.cacheSize + elementSize (toInt tempBuffer.length) tempReq)
  allocated := c.allocated + 1

/-- The steps of the workers, one constructor a branch of the code. -/
inductive Transition (s : Handlers W) : Step W → Handlers W → Prop
  | hit {w : W} {tempReq : CString} {now : ℤ} :
      s.point w = .free → (V1.find s.cache tempReq now).1.isSome →
      Transition s (.find w tempReq now) { s with cache := (V1.find s.cache tempReq now).2 }
  | miss {w : W} {tempReq : CString} {now : ℤ} :
      s.point w = .free → (V1.find s.cache tempReq now).1 = none →
      Transition s (.find w tempReq now) (s.goto w (.missed tempReq s.cache.allocated))
  | refuse {w : W} {tempBuffer tempReq : CString} {now : ℤ} {allocated : ℕ} :
      s.point w = .missed tempReq allocated →
      maxElementSize < elementSize (toInt tempBuffer.length) tempReq →
      Transition s (.add w tempBuffer now) (s.goto w .free)
  | store {w : W} {tempBuffer tempReq : CString} {now : ℤ} {allocated : ℕ} {c : Cache} :
      s.point w = .missed tempReq allocated →
      elementSize (toInt tempBuffer.length) tempReq ≤ maxElementSize →
      tempBuffer.length ≤ toInt tempBuffer.length →
      evictLoop (elementSize (toInt tempBuffer.length) tempReq) s.cache.elements.length s.cache =
        some c →
      Transition s (.add w tempBuffer now)
        ({ s with cache := stored c tempBuffer tempReq now }.goto w .free)
  | leave {w : W} {tempReq : CString} {allocated : ℕ} :
      s.point w = .missed tempReq allocated → Transition s (.leave w) (s.goto w .free)

variable {s s' : Handlers W}

theorem transition_of_step {l : Step W} (h : step s l = some s') : Transition s l s' := by
  cases l with
  | find w tempReq now =>
    simp only [step] at h
    split at h
    case h_1 hpoint =>
      cases h
      split
      case isTrue hsome => exact Transition.hit hpoint hsome
      case isFalse hnone =>
        have hnone := Option.not_isSome_iff_eq_none.mp hnone
        rw [(missed_of_find_none hnone).1]
        exact Transition.miss hpoint hnone
    case h_2 => contradiction
  | add w tempBuffer now =>
    simp only [step] at h
    split at h
    case h_1 => contradiction
    case h_2 tempReq allocated hpoint =>
      obtain ⟨⟨answer, cache⟩, hadd, rfl⟩ := Option.map_eq_some_iff.mp h
      rcases addCacheElement_cases hadd with ⟨hlarge, _, rfl⟩ | ⟨hfits, _, hcopy, c, hevict, rfl⟩
      · exact Transition.refuse hpoint hlarge
      · exact Transition.store hpoint hfits hcopy hevict
  | leave w =>
    simp only [step] at h
    split at h
    case h_1 => contradiction
    case h_2 hpoint =>
      cases h
      exact Transition.leave hpoint

namespace Inv

/-- A worker moves, and the elements stay, go or are new. -/
theorem moved (h : s.Inv) {w : W} {p : HandlerPoint} {c : Cache} (hallocated : Allocated c)
    (hothers : ∀ q, Missed s.cache q → Missed c q) (hp : Missed c p) :
    Inv ({ s with cache := c }.goto w p) := by
  refine ⟨hallocated, ?_⟩
  intro v
  show Missed c (Function.update s.point w p v)
  by_cases hv : v = w
  · subst hv
    rw [Function.update_self]
    exact hp
  · rw [Function.update_of_ne hv]
    exact hothers _ (h.missed v)

theorem step {l : Step W} (h : s.Inv) (hstep : Transition s l s') : s'.Inv := by
  cases hstep with
  | @hit _ tempReq now _ _ =>
    exact ⟨h.allocated.find tempReq now, fun v => (h.missed v).find tempReq now⟩
  | miss _ hnone => exact h.moved h.allocated (fun _ hq => hq) (missed_of_find_none hnone).2
  | refuse _ _ => exact h.moved h.allocated (fun _ hq => hq) trivial
  | @store w tempBuffer tempReq now _ c _ _ _ hevict =>
    obtain ⟨hsub, hallocated⟩ := evictLoop_sublist hevict
    obtain ⟨hc, _⟩ := evictLoop_invariant Allocated (fun c hc => hc.remove) _ h.allocated hevict
    refine h.moved (hc.insert tempBuffer _ tempReq now _) (fun q hq => hq.mono ?_ ?_) trivial
    · show s.cache.allocated ≤ c.allocated + 1
      omega
    · intro e he
      rcases List.mem_cons.mp he with rfl | he
      · exact Or.inl hallocated.ge
      · exact Or.inr ⟨e, hsub.subset he, rfl, rfl⟩
  | leave _ => exact h.moved h.allocated (fun _ hq => hq) trivial

omit [DecidableEq W] in
/-- After a miss, the elements for the request are those stored since. -/
theorem notOvertaken_iff (h : s.Inv) {w : W} {tempReq : CString} {allocated : ℕ}
    (hpoint : s.point w = .missed tempReq allocated) {c : Cache}
    (hsub : c.elements.Sublist s.cache.elements) :
    (∀ e ∈ c.elements, e.url = tempReq → e.ptr < allocated) ↔
      tempReq ∉ c.elements.map CacheElement.url := by
  have hmissed := h.missed w
  rw [hpoint] at hmissed
  constructor
  · intro hbefore hmem
    obtain ⟨e, he, hurl⟩ := List.mem_map.mp hmem
    have hsince := hmissed.2 e (hsub.subset he) hurl
    exact absurd (hbefore e he hurl) (not_lt.mpr hsince)
  · intro hnot e he hurl
    exact absurd (List.mem_map.mpr ⟨e, he, hurl⟩) hnot

end Inv

theorem step_store {w : W} {tempBuffer tempReq : CString} {now : ℤ} {allocated : ℕ} {c : Cache}
    (hpoint : s.point w = .missed tempReq allocated)
    (hfits : elementSize (toInt tempBuffer.length) tempReq ≤ maxElementSize)
    (hcopy : tempBuffer.length ≤ toInt tempBuffer.length)
    (hevict : evictLoop (elementSize (toInt tempBuffer.length) tempReq) s.cache.elements.length
      s.cache = some c) :
    step s (.add w tempBuffer now) =
      some ({ s with cache := stored c tempBuffer tempReq now }.goto w .free) := by
  simp only [step, hpoint, addCacheElement_of_evict now hfits hcopy hevict, Option.map_some]
  rfl

/-- The step keeps the urls apart exactly when its worker has not been overtaken. -/
theorem distinctUrls_step_iff (h : s.Inv) (hdistinct : s.DistinctUrls) (l : Step W) :
    (∀ s', step s l = some s' → s'.DistinctUrls) ↔ NotOvertaken s l := by
  constructor
  · intro hstep
    cases l with
    | find w tempReq now => trivial
    | leave w => trivial
    | add w tempBuffer now =>
      intro tempReq allocated hpoint size hfits hcopy c hevict
      obtain ⟨hsub, _⟩ := evictLoop_sublist hevict
      have hnodup := hstep _ (step_store hpoint hfits hcopy hevict)
      exact (h.notOvertaken_iff hpoint hsub).mpr (List.nodup_cons.mp hnodup).1
  · intro hl s' hstep
    cases transition_of_step hstep with
    | @hit _ tempReq now _ _ =>
      show ((V1.find s.cache tempReq now).2.elements.map CacheElement.url).Nodup
      rw [map_find CacheElement.url (fun _ _ => rfl)]
      exact hdistinct
    | miss _ _ => exact hdistinct
    | refuse _ _ => exact hdistinct
    | @store w tempBuffer tempReq now allocated c hpoint hfits hcopy hevict =>
      obtain ⟨hsub, _⟩ := evictLoop_sublist hevict
      have hnot := (h.notOvertaken_iff hpoint hsub).mp
        (hl tempReq allocated hpoint hfits hcopy c hevict)
      exact List.nodup_cons.mpr ⟨hnot, hdistinct.sublist (hsub.map _)⟩
    | leave _ => exact hdistinct

/-- In every state a run leads through the urls are distinct, exactly when no add of the
run stores an element beside one stored for the same request since the worker's miss. -/
theorem distinctUrls_iff (ls : List (Step W)) :
    (∀ ms, ms <+: ls → ∀ s : Handlers W, Runs.run step start ms = some s → s.DistinctUrls) ↔
      Runs.EveryStep step NotOvertaken (start : Handlers W) ls := by
  apply Runs.everyStep_iff_prefixes step Inv (fun o => ∀ s, o = some s → s.DistinctUrls)
    NotOvertaken
  · intro s l hs hdistinct
    exact distinctUrls_step_iff hs (hdistinct s rfl) l
  · intro s l s' hs _ hstep
    exact hs.step (transition_of_step hstep)
  · exact start_inv
  · intro s hs
    cases hs
    exact List.nodup_nil

/-- Two workers miss one request, and both store a response. -/
theorem stores_request_twice : ¬ ∀ (ls : List (Step Bool)) (s : Handlers Bool),
    Runs.run step start ls = some s → s.DistinctUrls := by
  intro hall
  obtain ⟨tempReq, hreq⟩ : ∃ tempReq, tempReq = "GET http://h/ HTTP/1.0\r\n\r\n".toList := ⟨_, rfl⟩
  obtain ⟨s, hrun, htwice⟩ : ∃ s : Handlers Bool, Runs.run step start
      [.find false tempReq 0, .find true tempReq 0, .add false ['a'] 1, .add true ['a'] 1] =
        some s ∧ s.cache.elements.map CacheElement.url = [tempReq, tempReq] := by
    subst hreq
    exact ⟨_, rfl, rfl⟩
  have hnodup := hall _ s hrun
  unfold DistinctUrls at hnodup
  rw [htwice] at hnodup
  simp at hnodup

end Step

end Handlers

end ProxyServer.V1
