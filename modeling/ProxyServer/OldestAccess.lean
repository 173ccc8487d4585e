import ProxyServer.TimedCache
import Mathlib.Data.List.Nodup

/-!
Which element the C cache drops. Each access, an insertion or a hit of `find`,
stores the reading of a clock that counts seconds. Along a run the last access of
each element is kept beside the cache, and an element stands with the reading of
it. The one dropped is the first of those with the least reading, so it is the one
not accessed for the longest time unless another was accessed in the same second.
-/
namespace ProxyServer.V1

/-- What `time(NULL)` answers in the call. -/
def Call.now : Call → Option ℤ
  | .find _ now => some now
  | .remove => none
  | .add _ _ _ now => some now

/-- The element the call accesses, found or inserted. -/
def accessed (c : Cache) : Call → Option ℕ
  | .find url now => (find c url now).1.map CacheElement.ptr
  | .remove => none
  | .add _ size url _ =>
      if maxElementSize < elementSize size url then none else some c.allocated

/-- The cache after some calls, and the last of them that accessed each element. -/
structure Trace where
  cache : Cache
  calls : ℕ
  lastAccess : ℕ → ℕ

def Trace.start : Trace := ⟨Cache.empty, 0, fun _ => 0⟩

def recordAccess (t : Trace) : Option ℕ → ℕ → ℕ
  | none => t.lastAccess
  | some ptr => Function.update t.lastAccess ptr t.calls

def traceStep (t : Trace) (call : Call) : Option Trace :=
  (step t.cache call).map (fun c => ⟨c, t.calls + 1, recordAccess t (accessed t.cache call)⟩)

theorem exists_trace (calls : List Call) :
    ∀ {t : Trace} {c : Cache}, Runs.run step t.cache calls = some c →
      ∃ t', Runs.run traceStep t calls = some t' ∧ t'.cache = c := by
  induction calls with
  | nil =>
    intro t c hrun
    exact ⟨t, rfl, Option.some.inj hrun⟩
  | cons call calls ih =>
    intro t c hrun
    obtain ⟨c₁, hc₁, hrest⟩ := Option.bind_eq_some_iff.mp hrun
    rw [Runs.run_cons, traceStep, hc₁, Option.map_some, Option.bind_some]
    exact ih hrest

def NonDecreasing (calls : List Call) : Prop := (calls.filterMap Call.now).Pairwise (· ≤ ·)

def reading (calls : List Call) (n : ℕ) : Option ℤ := (calls[n]?).bind Call.now

theorem reading_concat {calls : List Call} {n : ℕ} {now : ℤ} (h : reading calls n = some now)
    (call : Call) : reading (calls ++ [call]) n = some now := by
  obtain ⟨c, hc, hnow⟩ := Option.bind_eq_some_iff.mp h
  have hlt := (List.getElem?_eq_some_iff.mp hc).1
  rw [reading, List.getElem?_append_left hlt, hc]
  exact hnow

theorem reading_last (calls : List Call) (call : Call) :
    reading (calls ++ [call]) calls.length = call.now := by
  rw [reading, List.getElem?_concat_length]
  rfl

theorem NonDecreasing.reading_le {calls : List Call} (h : NonDecreasing calls) {m n : ℕ}
    {a b : ℤ} (hle : m ≤ n) (ha : reading calls m = some a) (hb : reading calls n = some b) :
    a ≤ b := by
  obtain ⟨x, hx, hxa⟩ := Option.bind_eq_some_iff.mp ha
  obtain ⟨y, hy, hyb⟩ := Option.bind_eq_some_iff.mp hb
  rcases Nat.eq_or_lt_of_le hle with rfl | hlt
  · rw [ha] at hb
    exact le_of_eq (Option.some.inj hb)
  · obtain ⟨hm, rfl⟩ := List.getElem?_eq_some_iff.mp hx
    obtain ⟨hn, rfl⟩ := List.getElem?_eq_some_iff.mp hy
    have hpairs := List.pairwise_iff_getElem.mp (List.pairwise_filterMap.mp h)
    exact hpairs m n hm hn hlt a hxa b hyb

/-- Every element stands with the reading of its last access. -/
structure Tracked (calls : List Call) (t : Trace) : Prop where
  count : t.calls = calls.length
  allocated : Allocated t.cache
  reading : ∀ e ∈ t.cache.elements, reading calls (t.lastAccess e.ptr) = some e.lruTimeTrack

namespace Tracked

variable {calls : List Call} {t : Trace}

theorem start : Tracked [] Trace.start :=
  ⟨rfl, Allocated.empty, fun _ he => absurd he List.not_mem_nil⟩

theorem unaccessed (h : Tracked calls t) {call : Call} {c : Cache}
    (hstep : step t.cache call = some c)
    (hsub : ∀ e ∈ c.elements, e ∈ t.cache.elements) :
    Tracked (calls ++ [call]) ⟨c, t.calls + 1, t.lastAccess⟩ := by
  refine ⟨?_, h.allocated.step hstep, ?_⟩
  · rw [List.length_append, ← h.count]
    rfl
  · intro e he
    exact reading_concat (h.reading e (hsub e he)) call

/-- A call that accesses the element that then stands between the others. -/
theorem accessed (h : Tracked calls t) {call : Call} {c : Cache} {front back : List CacheElement}
    {x : CacheElement} (hstep : step t.cache call = some c)
    (helements : c.elements = front ++ x :: back) (hnow : call.now = some x.lruTimeTrack)
    (hsub : ∀ e ∈ front ++ back, e ∈ t.cache.elements) :
    Tracked (calls ++ [call]) ⟨c, t.calls + 1, Function.update t.lastAccess x.ptr t.calls⟩ := by
  have hallocated := h.allocated.step hstep
  refine ⟨?_, hallocated, ?_⟩
  · rw [List.length_append, ← h.count]
    rfl
  · intro e he
    have hnodup := hallocated.nodup
    dsimp only at he ⊢
    rw [helements] at he hnodup
    rw [List.map_append, List.map_cons, List.nodup_middle, List.nodup_cons,
      ← List.map_append] at hnodup
    by_cases hx : e = x
    · rw [hx, Function.update_self, h.count, reading_last, hnow]
    · have hrest : e ∈ front ++ back := by
        rcases List.mem_append.mp he with he | he
        · exact List.mem_append_left back he
        · exact List.mem_append_right front ((List.mem_cons.mp he).resolve_left hx)
      have hptr : e.ptr ≠ x.ptr := by
        intro heq
        exact hnodup.1 (heq ▸ List.mem_map_of_mem hrest)
      rw [Function.update_of_ne hptr]
      exact reading_concat (h.reading e (hsub e hrest)) call

theorem step (h : Tracked calls t) {call : Call} {t' : Trace}
    (hstep : traceStep t call = some t') : Tracked (calls ++ [call]) t' := by
  obtain ⟨c, hc, rfl⟩ := Option.map_eq_some_iff.mp hstep
  cases call with
  | find url now =>
    rcases find_spec t.cache url now with ⟨_, heq⟩ | ⟨front, e, back, helements, _, _, heq⟩
    · have hnone : V1.accessed t.cache (.find url now) = none := by
        rw [V1.accessed, heq]
        rfl
      rw [hnone]
      apply h.unaccessed hc
      intro e he
      rw [V1.step, heq] at hc
      cases hc
      exact he
    · have hsome : V1.accessed t.cache (.find url now) = some e.ptr := by
        rw [V1.accessed, heq]
        rfl
      rw [hsome]
      apply h.accessed (x := { e with lruTimeTrack := now }) hc _ rfl
      · intro y hy
        rw [helements]
        rcases List.mem_append.mp hy with hy | hy
        · exact List.mem_append_left _ hy
        · exact List.mem_append_right _ (List.mem_cons_of_mem e hy)
      · rw [V1.step, heq] at hc
        cases hc
        rfl
  | remove =>
    apply h.unaccessed hc
    intro e he
    cases hc
    exact (removeCacheElement_sublist t.cache).subset he
  | add data size url now =>
    obtain ⟨⟨answer, c'⟩, hadd, rfl⟩ := Option.map_eq_some_iff.mp hc
    rcases addCacheElement_cases hadd with ⟨hlarge, _, rfl⟩ | ⟨hfits, _, _, c₁, hevict, rfl⟩
    · rw [V1.accessed, if_pos hlarge]
      exact h.unaccessed hc (fun _ he => he)
    · rw [V1.accessed, if_neg (not_lt.mpr hfits)]
      obtain ⟨hsub, hallocated⟩ := evictLoop_sublist hevict
      rw [← hallocated]
      exact h.accessed hc (List.nil_append _).symm rfl (fun e he => hsub.subset he)

theorem run {t' : Trace} (hrun : Runs.run traceStep Trace.start calls = some t') :
    Tracked calls t' :=
  Runs.run_invariant_of_labels traceStep Tracked (fun _ _ _ _ h hstep => h.step hstep) calls []
    Trace.start t' start hrun

/-- Of two elements the one accessed last has the later reading. -/
theorem lruTimeTrack_le (h : Tracked calls t) (hclock : NonDecreasing calls) {a b : CacheElement}
    (ha : a ∈ t.cache.elements) (hb : b ∈ t.cache.elements)
    (hle : t.lastAccess a.ptr ≤ t.lastAccess b.ptr) : a.lruTimeTrack ≤ b.lruTimeTrack :=
  hclock.reading_le hle (h.reading a ha) (h.reading b hb)

end Tracked

theorem iterate_sublist (c : Cache) (k : ℕ) :
    (removeCacheElement^[k] c).elements.Sublist c.elements := by
  induction k with
  | zero => exact List.Sublist.refl c.elements
  | succ k ih =>
    rw [Function.iterate_succ_apply']
    exact (removeCacheElement_sublist _).trans ih

/-- With a clock that does not go back, a removal from a list that is not empty
unlinks the first of the elements whose last access has the least reading, also
when an add has removed `k` elements before. -/
theorem remove_first_least {calls : List Call} {t : Trace} {c : Cache} {k : ℕ}
    (hclock : NonDecreasing calls) (hrun : Runs.run traceStep Trace.start calls = some t)
    (hremoved : c = removeCacheElement^[k] t.cache) (hne : c.elements ≠ []) :
    (∀ e ∈ c.elements, reading calls (t.lastAccess e.ptr) = some e.lruTimeTrack) ∧
    ∃ front victim back,
      FirstLeast CacheElement.lruTimeTrack c.elements front victim back ∧
      (removeCacheElement c).elements = front ++ back ∧
      (∀ e ∈ c.elements, t.lastAccess e.ptr ≤ t.lastAccess victim.ptr →
        e.lruTimeTrack = victim.lruTimeTrack) ∧
      ((∀ e ∈ front ++ back, e.lruTimeTrack ≠ victim.lruTimeTrack) →
        ∀ e ∈ front ++ back, t.lastAccess victim.ptr < t.lastAccess e.ptr) := by
  have htracked := Tracked.run hrun
  have hsub : c.elements ⊆ t.cache.elements := by
    rw [hremoved]
    exact (iterate_sublist t.cache k).subset
  refine ⟨fun e he => htracked.reading e (hsub he), ?_⟩
  obtain ⟨front, victim, back, hleast, heq⟩ := removeCacheElement_spec hne
  have hrank : ∀ a ∈ c.elements, ∀ b ∈ c.elements,
      t.lastAccess a.ptr ≤ t.lastAccess b.ptr → a.lruTimeTrack ≤ b.lruTimeTrack :=
    fun a ha b hb hle => htracked.lruTimeTrack_le hclock (hsub ha) (hsub hb) hle
  refine ⟨front, victim, back, hleast, by rw [heq], ?_, ?_⟩
  · intro e he hle
    exact hleast.key_eq_of_rank_le (fun e => t.lastAccess e.ptr) hrank he hle
  · intro hties e he
    exact hleast.rank_lt (fun e => t.lastAccess e.ptr) hrank (hleast.mem_of_mem_others he)
      (hties e he)

/-- An insertion, a hit and another insertion, a second apart each. -/
theorem remove_first_least_hit : ∃ t front victim back,
    Runs.run traceStep Trace.start [.add "x".toList 1 "a".toList 5, .find "a".toList 6,
      .add "y".toList 1 "b".toList 7] = some t ∧
    t.cache.elements = front ++ victim :: back ∧
    (removeCacheElement t.cache).elements = front ++ back := by
  obtain ⟨t, hrun, hcache⟩ := exists_trace _ (t := Trace.start)
    (by decide : Runs.run step Cache.empty [.add "x".toList 1 "a".toList 5, .find "a".toList 6,
      .add "y".toList 1 "b".toList 7] =
      some ⟨[⟨1, "y".toList, 1, "b".toList, 7⟩, ⟨0, "x".toList, 1, "a".toList, 6⟩], 86, 2⟩)
  obtain ⟨_, front, victim, back, hleast, hremoved, _⟩ := remove_first_least (k := 0)
    (by unfold NonDecreasing; decide) hrun rfl (by rw [hcache]; exact List.cons_ne_nil _ _)
  exact ⟨t, front, victim, back, hrun, hleast.eq, hremoved⟩

/-- Of two insertions within a second the later one is dropped. -/
theorem remove_drops_newest : ¬ ∀ calls t, NonDecreasing calls →
    Runs.run traceStep Trace.start calls = some t → t.cache.elements ≠ [] →
    ∃ front victim back, t.cache.elements = front ++ victim :: back ∧
      (removeCacheElement t.cache).elements = front ++ back ∧
      ∀ e ∈ front ++ back, t.lastAccess victim.ptr < t.lastAccess e.ptr := by
  intro hall
  have hfirst : step Cache.empty (.add "x".toList 1 "a".toList 5) =
      some ⟨[⟨0, "x".toList, 1, "a".toList, 5⟩], 43, 1⟩ := by decide
  have hsecond : step ⟨[⟨0, "x".toList, 1, "a".toList, 5⟩], 43, 1⟩
      (.add "y".toList 1 "b".toList 5) = some ⟨[⟨1, "y".toList, 1, "b".toList, 5⟩,
        ⟨0, "x".toList, 1, "a".toList, 5⟩], 86, 2⟩ := by decide
  have hfits : ¬ maxElementSize < elementSize 1 "a".toList ∧
      ¬ maxElementSize < elementSize 1 "b".toList := by decide
  have hrun : Runs.run traceStep Trace.start
      [.add "x".toList 1 "a".toList 5, .add "y".toList 1 "b".toList 5] =
      some ⟨⟨[⟨1, "y".toList, 1, "b".toList, 5⟩, ⟨0, "x".toList, 1, "a".toList, 5⟩], 86, 2⟩, 2,
        Function.update (Function.update (fun _ => 0) 0 0) 1 1⟩ := by
    rw [Runs.run_cons, traceStep, Trace.start, hfirst, accessed, if_neg hfits.1, Option.map_some,
      Option.bind_some, Runs.run_cons, traceStep, hsecond, accessed, if_neg hfits.2]
    rfl
  obtain ⟨front, victim, back, helements, hremoved, holdest⟩ :=
    hall _ _ (by unfold NonDecreasing; decide) hrun (List.cons_ne_nil _ _)
  have hleft : (removeCacheElement ⟨[⟨1, "y".toList, 1, "b".toList, 5⟩,
      ⟨0, "x".toList, 1, "a".toList, 5⟩], 86, 2⟩).elements =
      [⟨0, "x".toList, 1, "a".toList, 5⟩] := by decide
  rw [hremoved] at hleft
  have hold := holdest ⟨0, "x".toList, 1, "a".toList, 5⟩ (by rw [hleft]; exact List.mem_cons_self)
  exact absurd hold (Nat.not_lt_zero _)

end ProxyServer.V1
