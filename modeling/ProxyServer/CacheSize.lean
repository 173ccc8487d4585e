import ProxyServer.LFUStructure
import ProxyServer.ServerFactory

/-!
The cache size given on the command line. A positive one is the capacity of the
cache. Zero makes the first add evict from an empty cache, and a negative one
becomes a capacity near the largest `size_t`.
-/
namespace ProxyServer.CacheStrategy

open CStrings

/-- The call is an add that runs `evict`. -/
def EntersEvict : CacheStrategy → CacheOp → Prop
  | .lru c, .add url _ _ _ =>
      c.cacheMap.lookup url = none ∧ c.capacity ≤ c.cacheList.length
  | .lfu c, .add url _ _ _ =>
      c.cacheMap.lookup url = none ∧ c.capacity ≤ c.cacheMap.keys.length
  | _, _ => False

/-- The calls run from `c` evict from caches that hold something only, and keep
no more than `cacheSize` elements. -/
def WithinSize (cacheSize : ℤ) (c : CacheStrategy) (ops : List CacheOp) : Prop :=
  Runs.EveryStep step (fun c op => c.EntersEvict op → c.elements ≠ []) c ops ∧
    ∀ calls, calls <+: ops → ∀ c', Runs.run step c calls = some c' →
      (c'.elements.length : ℤ) ≤ cacheSize

/-- A well-formed cache that holds no more than its capacity. -/
structure Bounded (c : CacheStrategy) : Prop where
  wellFormed : c.WellFormed
  bound : c.elements.length ≤ c.capacity

/-- Every call keeps the cache within its capacity. -/
theorem Bounded.step {c c' : CacheStrategy} (h : c.Bounded) {op : CacheOp}
    (hstep : c.step op = some c') : c'.Bounded ∧ c'.capacity = c.capacity := by
  obtain ⟨c₁, hc₁, hwf, hcap, _⟩ := step_spec h.wellFormed op
  cases hstep.symm.trans hc₁
  have hlen : c'.elements.length ≤ c.capacity := by
    cases c with
    | lru c =>
      obtain ⟨d, hd, rfl⟩ := Option.map_eq_some_iff.mp hstep
      obtain ⟨hc, hwfc⟩ := h.wellFormed
      obtain ⟨d₁, hd₁, _, _, hurls⟩ := LRUCache.step_spec hwfc hc op
      cases hd.symm.trans hd₁
      have hbound : c.urls.length ≤ c.capacity := by
        rw [LRUCache.urls, List.length_map]
        exact h.bound
      show d.cacheList.length ≤ c.capacity
      calc d.cacheList.length = d.urls.length := by rw [LRUCache.urls, List.length_map]
        _ = (RecencyList.step c.capacity c.urls op.access).length := by rw [hurls]
        _ ≤ c.capacity := RecencyList.length_step c.capacity c.urls op.access hc hbound
    | lfu c =>
      obtain ⟨d, hd, rfl⟩ := Option.map_eq_some_iff.mp hstep
      obtain ⟨hc, hwfc⟩ := h.wellFormed
      have hbound : c.urls.length ≤ c.capacity := by
        rw [LFUCache.urls, List.length_map]
        exact h.bound
      have hd := (LFUCache.length_step hwfc hc hbound hd).2.2
      rwa [LFUCache.urls, List.length_map] at hd
  exact ⟨⟨hwf, hcap.symm ▸ hlen⟩, hcap⟩

/-- An eviction is entered at the capacity, which is not 0. -/
theorem Bounded.elements_ne_nil {c : CacheStrategy} (h : c.Bounded) {op : CacheOp}
    (hevict : c.EntersEvict op) : c.elements ≠ [] := by
  have hpositive : 1 ≤ c.elements.length := by
    cases c with
    | lru c =>
      cases op with
      | add url data len now => exact le_trans h.wellFormed.1 hevict.2
      | find url now => contradiction
      | remove url => contradiction
    | lfu c =>
      obtain ⟨hc, hwf⟩ := h.wellFormed
      cases op with
      | add url data len now =>
        have hfull := hevict.2
        rw [hwf.length_keys, LFUCache.urls, List.length_map] at hfull
        exact le_trans hc hfull
      | find url now => contradiction
      | remove url => contradiction
  exact List.ne_nil_of_length_pos hpositive

theorem sizeT_of_nonneg {n : ℤ} (hzero : 0 ≤ n) (hlarge : n < 2 ^ 31) : (sizeT n : ℤ) = n := by
  rw [sizeT, Int.emod_eq_of_lt hzero (by omega), Int.toNat_of_nonneg hzero]

/-- A cache of at least one element stays within its size. -/
theorem withinSize_of_pos {cacheType : String} {cacheSize : ℤ} {c : CacheStrategy}
    (hnew : createCacheStrategy cacheType cacheSize = some c) (hpos : 1 ≤ cacheSize)
    (hlarge : cacheSize < 2 ^ 31) (ops : List CacheOp) : WithinSize cacheSize c ops := by
  have hcap : (c.capacity : ℤ) = cacheSize := by
    rw [capacity_create hnew, sizeT_of_nonneg (by omega) hlarge]
  have hstart : Bounded c ∧ (c.capacity : ℤ) = cacheSize := by
    refine ⟨⟨createCacheStrategy_wellFormed hnew (by omega), ?_⟩, hcap⟩
    rw [elements_create hnew]
    exact Nat.zero_le c.capacity
  constructor
  · apply Runs.everyStep_of_invariant step Bounded (fun _ _ => True) _ ?_ ?_ ops c hstart.1
      (Runs.everyStep_of_forall step _ ops (fun _ _ _ => trivial) c)
    · exact fun d op hd _ => hd.elements_ne_nil
    · exact fun d op d' hd _ hstep => (hd.step hstep).1
  · intro calls _ c' hrun
    obtain ⟨hbounded, hcap'⟩ := Runs.run_invariant step
      (fun d => Bounded d ∧ (d.capacity : ℤ) = cacheSize)
      (fun d op d' hd hstep => ⟨(hd.1.step hstep).1, (hd.1.step hstep).2 ▸ hd.2⟩)
      calls c c' hstart hrun
    have hbound := hbounded.bound
    omega

/-- A call on a new cache other than an add changes nothing. -/
theorem step_create {cacheType : String} {cacheSize : ℤ} {c : CacheStrategy}
    (hnew : createCacheStrategy cacheType cacheSize = some c) {op : CacheOp}
    (hop : ∀ url data len now, op ≠ .add url data len now) : c.step op = some c := by
  unfold createCacheStrategy at hnew
  split at hnew
  · cases hnew
    cases op with
    | find url now => rfl
    | add url data len now => exact absurd rfl (hop url data len now)
    | remove url => rfl
  · split at hnew
    · cases hnew
      cases op with
      | find url now => rfl
      | add url data len now => exact absurd rfl (hop url data len now)
      | remove url => rfl
    · contradiction

/-- An add to a new cache of no capacity evicts from the empty cache. -/
theorem entersEvict_create {cacheType : String} {c : CacheStrategy}
    (hnew : createCacheStrategy cacheType 0 = some c) (url : CString) (data : List Char)
    (len now : ℤ) : c.EntersEvict (.add url data len now) := by
  unfold createCacheStrategy at hnew
  split at hnew
  · cases hnew
    exact ⟨rfl, Nat.zero_le _⟩
  · split at hnew
    · cases hnew
      exact ⟨rfl, Nat.zero_le _⟩
    · contradiction

/-- With no capacity the cache stays within its size until the first add. -/
theorem withinSize_zero_iff {cacheType : String} {c : CacheStrategy}
    (hnew : createCacheStrategy cacheType 0 = some c) (ops : List CacheOp) :
    WithinSize 0 c ops ↔ ∀ url data len now, CacheOp.add url data len now ∉ ops := by
  constructor
  · rintro ⟨hevicts, hbound⟩
    clear hbound
    induction ops with
    | nil => simp
    | cons op ops ih =>
      obtain ⟨hop, hrest⟩ := hevicts
      have hother : ∀ url data len now, op ≠ .add url data len now := by
        rintro url data len now rfl
        exact hop (entersEvict_create hnew url data len now) (elements_create hnew)
      intro url data len now hmem
      rcases List.mem_cons.mp hmem with heq | hmem
      · exact hother url data len now heq.symm
      · exact ih (hrest c (step_create hnew hother)) url data len now hmem
  · intro hnone
    have hothers : ∀ calls, calls <+: ops → Runs.EveryStep step
        (fun _ op => ∀ url data len now, op ≠ .add url data len now) c calls := by
      intro calls hcalls
      apply Runs.everyStep_of_forall
      rintro op hop _ url data len now rfl
      exact hnone url data len now (hcalls.subset hop)
    have hsame : ∀ d op d', d = c → (∀ url data len now, op ≠ .add url data len now) →
        step d op = some d' → d' = c := by
      rintro d op d' rfl hop hstep
      exact Option.some.inj (hstep.symm.trans (step_create hnew hop))
    constructor
    · apply Runs.everyStep_of_invariant step (· = c) _ _ ?_ hsame ops c rfl
        (hothers ops (List.prefix_refl ops))
      rintro d op rfl hop hevict
      cases op with
      | add url data len now => exact absurd rfl (hop url data len now)
      | find url now => cases d <;> contradiction
      | remove url => cases d <;> contradiction
    · intro calls hcalls c' hrun
      have hc' := Runs.run_invariant_of_everyStep step (· = c) _ hsame calls c c' rfl
        (hothers calls hcalls) hrun
      rw [hc', elements_create hnew]
      exact le_refl 0

/-- Of the sizes `main` accepts: the calls of a run evict from caches that hold
something only, and keep within the size, exactly when the size is positive, or
is zero and nothing is added. -/
theorem within_size_iff {program : CString} {argv : List CString} {arguments : Arguments}
    (hargs : readArguments program argv = .ok arguments) {c : CacheStrategy}
    (hnew : createCacheStrategy arguments.cacheType arguments.cacheSize = some c)
    (ops : List CacheOp) :
    WithinSize arguments.cacheSize c ops ↔ 1 ≤ arguments.cacheSize ∨
      arguments.cacheSize = 0 ∧ ∀ url data len now, CacheOp.add url data len now ∉ ops := by
  obtain ⟨_, _, hlarge⟩ := readArguments_range hargs
  rcases lt_trichotomy arguments.cacheSize 0 with hneg | hzero | hpos
  · refine iff_of_false ?_ (by omega)
    rintro ⟨_, hbound⟩
    have hempty := hbound [] List.nil_prefix c rfl
    rw [elements_create hnew] at hempty
    exact absurd hempty (not_le.mpr hneg)
  · rw [hzero] at hnew ⊢
    rw [withinSize_zero_iff hnew]
    simp
  · exact iff_of_true (withinSize_of_pos hnew hpos hlarge ops) (Or.inl hpos)

theorem within_size_iff_two :
    WithinSize 2 (.lru (LRUCache.create 2)) [.add ['a'] [] 0 0, .add ['b'] [] 0 1,
      .find ['a'] 2, .add ['c'] [] 0 3, .remove ['c'], .add ['b'] [] 0 4, .add ['d'] [] 0 5] := by
  have hargs : readArguments "proxy".toList ["Threadpool".toList, "LRUCache".toList,
      "8080".toList, "4".toList, "2".toList] =
        .ok ⟨"Threadpool", "LRUCache", 8080, 4, 2⟩ := rfl
  exact (within_size_iff hargs rfl _).mpr (Or.inl (by decide))

/-- `./proxy Threadpool LRUCache 8080 4 0`, and one add. -/
theorem add_exceeds_size_zero : ¬ ∀ program argv arguments c,
    readArguments program argv = .ok arguments →
    createCacheStrategy arguments.cacheType arguments.cacheSize = some c →
    ∀ ops, WithinSize arguments.cacheSize c ops := by
  intro hall
  have hargs : readArguments "proxy".toList ["Threadpool".toList, "LRUCache".toList,
      "8080".toList, "4".toList, "0".toList] =
        .ok ⟨"Threadpool", "LRUCache", 8080, 4, 0⟩ := rfl
  have hwithin := hall _ _ _ (.lru (LRUCache.create 0)) hargs rfl
    [.add ['a'] [] 0 0]
  exact hwithin.1.1 ⟨rfl, Nat.zero_le 0⟩ rfl

end ProxyServer.CacheStrategy
