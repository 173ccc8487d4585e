import ProxyServer.DroppedUrls
import Mathlib.Logic.Function.Basic

/-!
Workers on one cache. A call holds the mutex and is one step; a find that hits
leaves its worker with a pointer to the element, which it reads in later steps,
without the mutex, until it has served its client. Nothing in the caches keeps a call
of another worker from freeing the element in between. Whether a run reads residents
only can be told from its calls: none between a find and a read drops the URL found.
-/
namespace ProxyServer

/-- The cache, and the address each worker reads its response from. -/
structure SharedCache (W : Type*) where
  cache : CacheStrategy
  cachedResponse : W → Option ℕ

namespace SharedCache

variable {W : Type*}

inductive Step (W : Type*)
  | call (w : W) (op : CacheOp)
  | read (w : W)
  | finish (w : W)

def start (c : CacheStrategy) : SharedCache W := ⟨c, fun _ => none⟩

/-- The element that is read is still resident. -/
def ReadsResident (s : SharedCache W) : Step W → Prop
  | .read w => ∀ p, s.cachedResponse w = some p → s.cache.Resident p
  | _ => True

instance (s : SharedCache W) : ∀ l, Decidable (s.ReadsResident l)
  | .call _ _ | .finish _ => isTrue trivial
  | .read w =>
      match h : s.cachedResponse w with
      | none => isTrue (fun p hp => by rw [h] at hp; contradiction)
      | some p => decidable_of_iff (∃ e ∈ s.cache.elements, e.ptr = p)
          ⟨fun hp q hq => by rw [h] at hq; cases hq; exact hp, fun hall => hall p h⟩

/-- The step is no call of `w` and does not end what it serves. -/
def Step.Keeps (w : W) : Step W → Prop
  | .call v _ | .finish v => v ≠ w
  | .read _ => True

def Step.op : Step W → Option CacheOp
  | .call _ op => some op
  | _ => none

/-- The calls of a run, in their order. -/
def calls (ls : List (Step W)) : List CacheOp := ls.filterMap Step.op

/-- None of the calls `ops`, made after those of `past`, drops `url`. -/
def Spared (c : CacheStrategy) (url : CString) (past ops : List CacheOp) : Prop :=
  Runs.EveryStep (fun past op => some (past ++ [op])) (fun past op => ¬ c.Drops past url op)
    past ops

/-- Between each find and each read of what it found, the calls spare its URL. -/
def SparesServed (c : CacheStrategy) (ls : List (Step W)) : Prop :=
  ∀ before w url now served rest,
    ls = before ++ .call w (.find url now) :: (served ++ .read w :: rest) →
    (∀ l ∈ served, l.Keeps w) →
    Spared c url (calls (before ++ [.call w (.find url now)])) (calls served)

section Step
variable [DecidableEq W]

/-- A worker that serves a client makes no call; reads and the end of the
serving leave the cache alone. -/
def step (s : SharedCache W) : Step W → Option (SharedCache W)
  | .call w op =>
      if s.cachedResponse w = none then
        match op with
        | .find url now => (s.cache.find url now).map (fun r =>
            ⟨r.1, Function.update s.cachedResponse w (r.2.map (·.ptr))⟩)
        | op => (s.cache.step op).map (fun cache => { s with cache := cache })
      else none
  | .read w => if s.cachedResponse w = none then none else some s
  | .finish w =>
      if s.cachedResponse w = none then none
      else some { s with cachedResponse := Function.update s.cachedResponse w none }

end Step

theorem spared_concat (c : CacheStrategy) (url : CString) (past ops : List CacheOp) (op : CacheOp) :
    Spared c url past (ops ++ [op]) ↔ Spared c url past ops ∧ ¬ c.Drops (past ++ ops) url op := by
  have hrun : ∀ ops past : List CacheOp,
      Runs.run (fun past op => some (past ++ [op])) past ops = some (past ++ ops) := by
    intro ops
    induction ops with
    | nil => simp
    | cons op ops ih =>
      intro past
      rw [Runs.run_cons, Option.bind_some, ih, List.append_assoc, List.singleton_append]
  rw [Spared, Runs.everyStep_append, hrun]
  simp only [Option.some.injEq, forall_eq', Runs.EveryStep, implies_true, and_true]
  rfl

theorem calls_append (ms ls : List (Step W)) : calls (ms ++ ls) = calls ms ++ calls ls :=
  List.filterMap_append

/-- The last call of a worker splits a run in one way. -/
theorem split_unique {w : W} {op op' : CacheOp} {before served before' served' : List (Step W)}
    (h : before ++ .call w op :: served = before' ++ .call w op' :: served')
    (hserved : ∀ l ∈ served, l.Keeps w) (hserved' : ∀ l ∈ served', l.Keeps w) :
    before = before' ∧ op = op' ∧ served = served' := by
  rcases List.append_eq_append_iff.mp h with ⟨a, rfl, ha⟩ | ⟨a, rfl, ha⟩
  · cases a with
    | nil =>
      simp only [List.nil_append, List.cons.injEq, Step.call.injEq, true_and] at ha
      exact ⟨(List.append_nil _).symm, ha.1, ha.2⟩
    | cons l a =>
      rw [List.cons_append, List.cons.injEq] at ha
      exact absurd rfl (hserved (.call w op') (by simp [ha.2]))
  · cases a with
    | nil =>
      simp only [List.nil_append, List.cons.injEq, Step.call.injEq, true_and] at ha
      exact ⟨List.append_nil _, ha.1.symm, ha.2.symm⟩
    | cons l a =>
      rw [List.cons_append, List.cons.injEq] at ha
      exact absurd rfl (hserved' (.call w op) (by simp [ha.2]))

/-- What holds of a worker that got the address `p`: it found some URL, the element is
there as long as the calls since then spare this URL, and no other element has or gets
its address. -/
structure Serves (c₀ : CacheStrategy) (ms : List (Step W)) (c : CacheStrategy) (w : W) (p : ℕ)
    (before : List (Step W)) (url : CString) (now : ℤ) (served : List (Step W)) : Prop where
  split : ms = before ++ .call w (.find url now) :: served
  keeps : ∀ l ∈ served, l.Keeps w
  made : p < c.fresh
  resident_iff : c.Resident p ↔
    Spared c₀ url (calls (before ++ [.call w (.find url now)])) (calls served)
  element : ∀ e ∈ c.elements, e.ptr = p → e.url = url ∧ c₀.Found (calls ms) url

structure Holds (c₀ : CacheStrategy) (ms : List (Step W)) (s : SharedCache W) : Prop where
  cache : c₀.Tracks (calls ms) s.cache
  serves : ∀ w p, s.cachedResponse w = some p →
    ∃ before url now served, Serves c₀ ms s.cache w p before url now served

namespace Serves

variable {c₀ c : CacheStrategy} {ms before served : List (Step W)} {w : W} {p : ℕ} {url : CString}
  {now : ℤ}

/-- A step that is no call leaves the cache, and what is served from it, alone. -/
theorem concat (h : Serves c₀ ms c w p before url now served) {l : Step W} (hl : l.op = none)
    (hkeeps : l.Keeps w) : Serves c₀ (ms ++ [l]) c w p before url now (served ++ [l]) where
  split := by rw [h.split, List.append_assoc, List.cons_append]
  keeps := by
    intro m hm
    rcases List.mem_append.mp hm with hm | hm
    · exact h.keeps m hm
    · rwa [List.mem_singleton.mp hm]
  made := h.made
  resident_iff := by
    have hnone : calls [l] = [] := by simp [calls, hl]
    rw [calls_append served, hnone, List.append_nil]
    exact h.resident_iff
  element := by
    have hnone : calls [l] = [] := by simp [calls, hl]
    rw [calls_append ms, hnone, List.append_nil]
    exact h.element

theorem call (h : Serves c₀ ms c w p before url now served) (htracks : c₀.Tracks (calls ms) c)
    (hc : 1 ≤ c₀.capacity) {v : W} (hv : v ≠ w) {op : CacheOp} {c' : CacheStrategy}
    (hstep : c.step op = some c') :
    Serves c₀ (ms ++ [.call v op]) c' w p before url now (served ++ [.call v op]) := by
  have hwf := htracks.wellFormed hc
  obtain ⟨c₁, hstep₁, _, hfresh, hresident⟩ := htracks.step hc op
  cases hstep.symm.trans hstep₁
  have hcalls : ∀ ls : List (Step W), calls (ls ++ [.call v op]) = calls ls ++ [op] :=
    fun ls => calls_append ls _
  have hpast : calls (before ++ [.call w (.find url now)]) ++ calls served = calls ms := by
    rw [← calls_append, h.split, List.append_assoc, List.singleton_append]
  have hdrops : c.Resident p → ((∀ v, c.freed op = some v → v.ptr ≠ p) ↔
      ¬ c₀.Drops (calls ms) url op) := by
    rintro ⟨e, he, rfl⟩
    obtain ⟨rfl, hfound⟩ := h.element e he rfl
    rw [← htracks.freed_iff he hfound op]
    simp only [not_exists, not_and, ne_eq]
  refine ⟨?_, ?_, lt_of_lt_of_le h.made hfresh, ?_, ?_⟩
  · rw [h.split, List.append_assoc, List.cons_append]
  · intro m hm
    rcases List.mem_append.mp hm with hm | hm
    · exact h.keeps m hm
    · rwa [List.mem_singleton.mp hm]
  · rw [hcalls, spared_concat, hpast, hresident p h.made, ← h.resident_iff]
    exact and_congr_right hdrops
  · intro e' he' hp
    obtain ⟨⟨e, he, hep⟩, _⟩ := (hresident p h.made).mp ⟨e', he', hp⟩
    obtain ⟨rfl, hfound⟩ := h.element e he hep
    have hurl : e'.url = e.url := CacheStrategy.url_of_ptr hwf hstep he he' (hep.trans hp.symm)
    rw [hcalls]
    exact ⟨hurl, htracks.found_step he hfound op⟩

end Serves

section Run
variable [DecidableEq W]

theorem Holds.step {c₀ : CacheStrategy} (hc : 1 ≤ c₀.capacity) {ms : List (Step W)}
    {s s' : SharedCache W} (h : Holds c₀ ms s) {l : Step W} (hstep : s.step l = some s') :
    Holds c₀ (ms ++ [l]) s' := by
  have hquiet : ∀ {l : Step W}, l.op = none → c₀.Tracks (calls (ms ++ [l])) s.cache := by
    intro l hl
    have hnone : calls [l] = [] := by simp [calls, hl]
    rw [calls_append, hnone, List.append_nil]
    exact h.cache
  cases l with
  | call w op =>
    by_cases hw : s.cachedResponse w = none
    · have hother : ∀ {v p}, s.cachedResponse v = some p → w ≠ v := by
        rintro v p hv rfl
        rw [hw] at hv
        contradiction
      obtain ⟨c', hc', htracks, _⟩ := h.cache.step hc op
      have hcalls : calls (ms ++ [.call w op]) = calls ms ++ [op] := calls_append ms _
      have hserves : ∀ v p, s.cachedResponse v = some p → ∃ before url now served,
          Serves c₀ (ms ++ [.call w op]) c' v p before url now served := by
        intro v p hv
        obtain ⟨before, url, now, served, hs⟩ := h.serves v p hv
        exact ⟨before, url, now, _, hs.call h.cache hc (hother hv) hc'⟩
      cases op with
      | find url now =>
        have hwf := h.cache.wellFormed hc
        obtain ⟨c₁, answer, hfind, hc₁, hanswer⟩ := CacheStrategy.find_spec hwf url now
        cases hc'.symm.trans hc₁
        simp only [SharedCache.step, hw, if_true, hfind, Option.map_some,
          Option.some.injEq] at hstep
        subst hstep
        refine ⟨hcalls ▸ htracks, fun v p hv => ?_⟩
        by_cases hvw : v = w
        · subst hvw
          simp only [Function.update_self] at hv
          obtain ⟨e, rfl, rfl⟩ := Option.map_eq_some_iff.mp hv
          obtain ⟨x, hx, rfl, rfl⟩ := CacheStrategy.find_answer hwf hfind
          have hresident := hanswer _ rfl
          refine ⟨ms, x.url, now, [], rfl, by simp, ?_, iff_of_true hresident trivial, ?_⟩
          · obtain ⟨e', he', hp⟩ := hresident
            rw [← hp]
            exact (htracks.wellFormed hc).lt_fresh he'
          · intro e' he' hp
            rw [hcalls]
            exact ⟨CacheStrategy.url_of_ptr hwf hc' hx he' hp.symm, h.cache.found_find hx now⟩
        · simp only [Function.update_of_ne hvw] at hv
          exact hserves v p hv
      | add url data len now =>
        simp only [SharedCache.step, hw, if_true, hc', Option.map_some, Option.some.injEq] at hstep
        subst hstep
        exact ⟨hcalls ▸ htracks, hserves⟩
      | remove url =>
        simp only [SharedCache.step, hw, if_true, hc', Option.map_some, Option.some.injEq] at hstep
        subst hstep
        exact ⟨hcalls ▸ htracks, hserves⟩
    · simp only [SharedCache.step, hw, if_false, reduceCtorEq] at hstep
  | read w =>
    by_cases hw : s.cachedResponse w = none
    · simp only [SharedCache.step, hw, if_true, reduceCtorEq] at hstep
    · simp only [SharedCache.step, hw, if_false, Option.some.injEq] at hstep
      subst hstep
      refine ⟨hquiet rfl, fun v p hv => ?_⟩
      obtain ⟨before, url, now, served, hs⟩ := h.serves v p hv
      exact ⟨before, url, now, _, hs.concat rfl trivial⟩
  | finish w =>
    by_cases hw : s.cachedResponse w = none
    · simp only [SharedCache.step, hw, if_true, reduceCtorEq] at hstep
    · simp only [SharedCache.step, hw, if_false, Option.some.injEq] at hstep
      subst hstep
      refine ⟨hquiet rfl, fun v p hv => ?_⟩
      by_cases hvw : v = w
      · subst hvw
        simp at hv
      · simp only [Function.update_of_ne hvw] at hv
        obtain ⟨before, url, now, served, hs⟩ := h.serves v p hv
        exact ⟨before, url, now, _, hs.concat rfl (Ne.symm hvw)⟩

theorem holds_run {cacheType : String} {cacheSize : ℤ} {c : CacheStrategy}
    (hnew : CacheStrategy.createCacheStrategy cacheType cacheSize = some c)
    (hcap : 1 ≤ c.capacity) (ms : List (Step W)) {s : SharedCache W}
    (hrun : Runs.run step (start c) ms = some s) : Holds c ms s := by
  have hstart : Holds c [] (start c : SharedCache W) :=
    ⟨CacheStrategy.tracks_create hnew hcap, by simp [start]⟩
  have h := Runs.run_invariant_of_labels step (Holds c)
    (fun ls s l s' hs hstep => hs.step hcap hstep) ms [] (start c) s hstart hrun
  rwa [List.nil_append] at h

/-- From a new cache of either kind, in any interleaving: every read finds its element
resident exactly when, between each find and each read of what it found, no call removes
the URL and none evicts it, which is an add to a full LRU cache in which every other URL
was used later, or to a full LFU cache in which it was touched to the last record. -/
theorem reads_resident_iff_spares_served {cacheType : String} {cacheSize : ℤ} {c : CacheStrategy}
    (hnew : CacheStrategy.createCacheStrategy cacheType cacheSize = some c)
    (hcap : 1 ≤ c.capacity) {ls : List (Step W)} {s : SharedCache W}
    (hrun : Runs.run step (start c) ls = some s) :
    Runs.EveryStep step ReadsResident (start c) ls ↔ SparesServed c ls := by
  constructor
  · rintro hreads before w url now served rest rfl hkeeps
    rw [← List.cons_append, ← List.append_assoc] at hreads hrun
    obtain ⟨_, hrest⟩ := (Runs.everyStep_append step _ _ _ _).mp hreads
    rw [Runs.run_append] at hrun
    obtain ⟨t, ht, hread⟩ := Option.bind_eq_some_iff.mp hrun
    obtain ⟨hresident, _⟩ := hrest t ht
    cases hp : t.cachedResponse w with
    | none =>
      rw [Runs.run_cons, step, if_pos hp] at hread
      contradiction
    | some p =>
      obtain ⟨before', url', now', served', hs⟩ := (holds_run hnew hcap _ ht).serves w p hp
      obtain ⟨rfl, hop, rfl⟩ := split_unique hs.split hkeeps hs.keeps
      cases hop
      exact hs.resident_iff.mp (hresident p hp)
  · intro hspares
    apply Runs.everyStep_of_reached
    intro ms l hms t ht
    cases l with
    | call w op => trivial
    | finish w => trivial
    | read w =>
      intro p hp
      obtain ⟨before, url, now, served, hs⟩ := (holds_run hnew hcap ms ht).serves w p hp
      obtain ⟨rest, rfl⟩ := hms
      refine hs.resident_iff.mpr (hspares before w url now served rest ?_ hs.keeps)
      rw [hs.split]
      simp

end Run

/-- At capacity 1, worker 0 holds the element of `a` when worker 1 adds `b`. -/
def lateRead : List (Step ℕ) :=
  [.call 0 (.add ['a'] [] 0 0), .call 0 (.find ['a'] 1), .call 1 (.find ['b'] 2),
    .call 1 (.add ['b'] [] 0 3), .read 0]

/-- The same with the read before the add that frees the element. -/
def timelyRead : List (Step ℕ) :=
  [.call 0 (.add ['a'] [] 0 0), .call 0 (.find ['a'] 1), .read 0, .call 1 (.find ['b'] 2),
    .call 1 (.add ['b'] [] 0 3), .finish 0]

theorem reads_resident_iff_spares_served_one :
    SparesServed (.lfu (LFUCache.create 1)) timelyRead := by
  have hnew : CacheStrategy.createCacheStrategy "LFUCache" 1 =
      some (.lfu (LFUCache.create 1)) := rfl
  exact (reads_resident_iff_spares_served hnew (by decide) rfl).mp (by decide)

/-- With either cache, worker 0 reads an element that worker 1 has freed. -/
theorem reads_freed_element :
    (¬ ∀ c, CacheStrategy.createCacheStrategy "LRUCache" 1 = some c →
      Runs.EveryStep step ReadsResident (start c) lateRead) ∧
    ¬ ∀ c, CacheStrategy.createCacheStrategy "LFUCache" 1 = some c →
      Runs.EveryStep step ReadsResident (start c) lateRead := by
  refine ⟨?_, ?_⟩
  · intro hall
    exact absurd (hall (.lru (LRUCache.create 1)) rfl) (by decide)
  · intro hall
    exact absurd (hall (.lfu (LFUCache.create 1)) rfl) (by decide)

end SharedCache

end ProxyServer
