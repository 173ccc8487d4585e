import ProxyServer.CacheSize
import ProxyServer.RequestBlocks

/-!
The caches on the heap. An element is a `new`, a `strdup` of its URL and a `malloc`
for its data; `evict` and `remove` give the three back and then the list node and
the map entry are gone, and the destructors give back what the lists still hold.
-/
namespace ProxyServer

namespace LRUCache

open CacheElement

/-- The address of the element that a call makes. -/
def made (c : LRUCache) : CacheOp → Option ℕ
  | .add url _ _ _ => if c.cacheMap.lookup url = none then some c.fresh else none
  | _ => none

theorem step_made {c c' : LRUCache} (h : c.WellFormed) (hc : 1 ≤ c.capacity) {op : CacheOp}
    (hstep : c.step op = some c') :
    (∀ x ∈ c'.cacheList, c.made op = some x.ptr ∨ ∃ y ∈ c.cacheList, y.ptr = x.ptr) ∧
      ∀ p, c.made op = some p → p = c.fresh ∧ ∃ x ∈ c'.cacheList, x.ptr = p := by
  cases op with
  | find url now =>
    refine ⟨?_, by simp [made]⟩
    intro x hx
    right
    rcases find_cases h url now with ⟨_, hfind⟩ | ⟨e, he, rfl, hfind⟩
    · rw [step, hfind] at hstep
      cases hstep
      exact ⟨x, hx, rfl⟩
    · rw [step, hfind] at hstep
      cases hstep
      exact (@ptr_toFront c e { e with lruTimeTrack := now } he rfl x.ptr).mp ⟨x, hx, rfl⟩
  | add url data len now =>
    rcases add_cases h hc url data len now with
      ⟨e, he, rfl, hadd⟩ | ⟨hmem, _, hadd⟩ | ⟨hmem, _, l, v, hl, hadd⟩
    · rw [step, hadd] at hstep
      cases hstep
      refine ⟨?_, by simp [made, h.lookup_of_mem he]⟩
      intro x hx
      exact Or.inr ((ptr_toFront he rfl x.ptr).mp ⟨x, hx, rfl⟩)
    · rw [step, hadd] at hstep
      cases hstep
      have hmade : c.made (.add url data len now) = some c.fresh :=
        if_pos ((h.lookup_eq_none url).mpr hmem)
      refine ⟨?_, ?_⟩
      · intro x hx
        rcases List.mem_cons.mp hx with rfl | hx
        · exact Or.inl hmade
        · exact Or.inr ⟨x, hx, rfl⟩
      · intro p hp
        obtain rfl := Option.some.inj (hmade.symm.trans hp)
        exact ⟨rfl, _, List.mem_cons_self, rfl⟩
    · rw [step, hadd] at hstep
      cases hstep
      have hmade : c.made (.add url data len now) = some c.fresh :=
        if_pos ((h.lookup_eq_none url).mpr hmem)
      refine ⟨?_, ?_⟩
      · intro x hx
        rcases List.mem_cons.mp hx with rfl | hx
        · exact Or.inl hmade
        · exact Or.inr ⟨x, by rw [hl]; exact List.mem_append_left _ hx, rfl⟩
      · intro p hp
        obtain rfl := Option.some.inj (hmade.symm.trans hp)
        exact ⟨rfl, _, List.mem_cons_self, rfl⟩
  | remove url =>
    refine ⟨?_, by simp [made]⟩
    intro x hx
    right
    rcases remove_cases h url with ⟨_, hremove⟩ | ⟨e, he, rfl, hremove⟩
    · rw [step, hremove] at hstep
      cases hstep
      exact ⟨x, hx, rfl⟩
    · rw [step, hremove] at hstep
      cases hstep
      exact ⟨x, (mem_unlink.mp hx).1, rfl⟩

theorem freed_mem {c : LRUCache} {op : CacheOp} {v : CacheElement} (h : c.freed op = some v) :
    v ∈ c.cacheList := by
  cases op with
  | find url now => contradiction
  | add url data len now =>
    simp only [freed] at h
    split at h
    · exact List.mem_of_getLast? h
    · contradiction
  | remove url =>
    obtain ⟨it, _, hderef⟩ := Option.bind_eq_some_iff.mp h
    exact List.mem_of_find?_eq_some hderef

end LRUCache

namespace LFUCache

open CacheElement FrequencyList

def made (c : LFUCache) : CacheOp → Option ℕ
  | .add url _ _ _ => if c.cacheMap.lookup url = none then some c.fresh else none
  | _ => none

theorem step_made {c c' : LFUCache} (h : c.WellFormed) (hc : 1 ≤ c.capacity) {op : CacheOp}
    (hstep : c.step op = some c') :
    (∀ x ∈ elements c'.frequencyList,
      c.made op = some x.ptr ∨ ∃ y ∈ elements c.frequencyList, y.ptr = x.ptr) ∧
      ∀ p, c.made op = some p → p = c.fresh ∧ ∃ x ∈ elements c'.frequencyList, x.ptr = p := by
  cases op with
  | find url now =>
    refine ⟨?_, by simp [made]⟩
    intro x hx
    right
    rcases find_cases h url now with ⟨_, hfind⟩ | ⟨c₁, e, _, rfl, hfind, _, _, helements⟩
    · rw [step, hfind] at hstep
      cases hstep
      exact ⟨x, hx, rfl⟩
    · rw [step, hfind] at hstep
      cases hstep
      obtain ⟨y, hy, rfl⟩ := (helements x).mp hx
      exact ⟨y, hy, (retime_ptr _ _ y).symm⟩
  | add url data len now =>
    rcases add_cases h hc url data len now with
      ⟨hmem, c₁, hadd, _, _, helements⟩ | ⟨hmem, _, hadd⟩ | ⟨hmem, _, hne, hadd⟩
    · rw [step, hadd] at hstep
      cases hstep
      have hsome : c.cacheMap.lookup url ≠ none := mt (h.lookup_eq_none url).mp (not_not.mpr hmem)
      refine ⟨?_, by simp [made, hsome]⟩
      intro x hx
      exact Or.inr ⟨x, (helements x).mp hx, rfl⟩
    · have hmade : c.made (.add url data len now) = some c.fresh :=
        if_pos ((h.lookup_eq_none url).mpr hmem)
      obtain ⟨c₁, hpush, _, _, helements⟩ := pushFront_spec h hmem data len now
      rw [step, hadd, hpush] at hstep
      cases hstep
      refine ⟨?_, ?_⟩
      · intro x hx
        rcases (helements x).mp hx with rfl | hx
        · exact Or.inl hmade
        · exact Or.inr ⟨x, hx, rfl⟩
      · intro p hp
        obtain rfl := Option.some.inj (hmade.symm.trans hp)
        exact ⟨rfl, _, (helements _).mpr (Or.inl rfl), rfl⟩
    · have hmade : c.made (.add url data len now) = some c.fresh :=
        if_pos ((h.lookup_eq_none url).mpr hmem)
      obtain ⟨c₁, _, v, hevict, _, _, hwf₁, _, hdrop⟩ := evict_cases h hne
      have habsent : url ∉ c₁.urls := by
        intro hin
        obtain ⟨y, hy, rfl⟩ := List.mem_map.mp hin
        exact hmem (List.mem_map_of_mem ((hdrop y).mp hy).1)
      obtain ⟨c₂, hpush, _, _, helements⟩ := pushFront_spec hwf₁ habsent data len now
      rw [step, hadd, hevict, Option.bind_some, hpush] at hstep
      cases hstep
      rw [evict_fresh hevict] at helements
      refine ⟨?_, ?_⟩
      · intro x hx
        rcases (helements x).mp hx with rfl | hx
        · exact Or.inl hmade
        · exact Or.inr ⟨x, ((hdrop x).mp hx).1, rfl⟩
      · intro p hp
        obtain rfl := Option.some.inj (hmade.symm.trans hp)
        exact ⟨rfl, _, (helements _).mpr (Or.inl rfl), rfl⟩
  | remove url =>
    refine ⟨?_, by simp [made]⟩
    intro x hx
    right
    rcases remove_cases h url with ⟨_, hremove⟩ | ⟨c₁, e, _, rfl, hremove, _, _, hdrop⟩
    · rw [step, hremove] at hstep
      cases hstep
      exact ⟨x, hx, rfl⟩
    · rw [step, hremove] at hstep
      cases hstep
      exact ⟨x, ((hdrop x).mp hx).1, rfl⟩

theorem freed_mem {c : LFUCache} {op : CacheOp} {v : CacheElement} (h : c.freed op = some v) :
    v ∈ elements c.frequencyList := by
  cases op with
  | find url now => contradiction
  | add url data len now =>
    simp only [freed] at h
    split at h
    · obtain ⟨node, hnode, hlast⟩ := Option.bind_eq_some_iff.mp h
      exact List.mem_flatMap.mpr
        ⟨node, List.mem_of_find?_eq_some hnode, List.mem_of_getLast? hlast⟩
    · contradiction
  | remove url =>
    obtain ⟨entry, _, hbind⟩ := Option.bind_eq_some_iff.mp h
    obtain ⟨node, hnode, hderef⟩ := Option.bind_eq_some_iff.mp hbind
    exact List.mem_flatMap.mpr
      ⟨node, List.mem_of_find?_eq_some hnode, List.mem_of_find?_eq_some hderef⟩

end LFUCache

namespace CacheStrategy

def made : CacheStrategy → CacheOp → Option ℕ
  | .lru c => c.made
  | .lfu c => c.made

def ptrs (c : CacheStrategy) : List ℕ := c.elements.map (·.ptr)

theorem mem_ptrs {c : CacheStrategy} {p : ℕ} : p ∈ c.ptrs ↔ c.Resident p := List.mem_map

theorem nodup_ptrs {c : CacheStrategy} (h : c.WellFormed) : c.ptrs.Nodup := by
  cases c with
  | lru c => exact h.2.ptrs
  | lfu c => exact h.2.ptrs

/-- What a call frees is resident, what it makes is not. -/
theorem step_made {c c' : CacheStrategy} (h : c.WellFormed) {op : CacheOp}
    (hstep : c.step op = some c') :
    (∀ p, c'.Resident p → c.made op = some p ∨ c.Resident p) ∧
      ∀ p, c.made op = some p → ¬ c.Resident p ∧ c'.Resident p := by
  cases c with
  | lru c =>
    obtain ⟨hc, hwf⟩ := h
    obtain ⟨c₁, hc₁, rfl⟩ := Option.map_eq_some_iff.mp hstep
    obtain ⟨hold, hmade⟩ := LRUCache.step_made hwf hc hc₁
    refine ⟨?_, ?_⟩
    · intro p hp
      obtain ⟨x, hx, rfl⟩ := hp
      exact hold x hx
    · intro p hp
      obtain ⟨rfl, hx⟩ := hmade p hp
      exact ⟨fun ⟨e, he, heq⟩ => (hwf.fresh e he).ne heq, hx⟩
  | lfu c =>
    obtain ⟨hc, hwf⟩ := h
    obtain ⟨c₁, hc₁, rfl⟩ := Option.map_eq_some_iff.mp hstep
    obtain ⟨hold, hmade⟩ := LFUCache.step_made hwf hc hc₁
    refine ⟨?_, ?_⟩
    · intro p hp
      obtain ⟨x, hx, rfl⟩ := hp
      exact hold x hx
    · intro p hp
      obtain ⟨rfl, hx⟩ := hmade p hp
      exact ⟨fun ⟨e, he, heq⟩ => (hwf.freshPtr e he).ne heq, hx⟩

theorem freed_resident {c : CacheStrategy} {op : CacheOp} {v : CacheElement}
    (h : c.freed op = some v) : c.Resident v.ptr := by
  cases c with
  | lru c => exact ⟨v, LRUCache.freed_mem h, rfl⟩
  | lfu c => exact ⟨v, LFUCache.freed_mem h, rfl⟩

/-- The addresses after a call: the one it makes, and those before but the one it
frees. -/
theorem ptrs_step {c c' : CacheStrategy} (h : c.WellFormed) {op : CacheOp}
    (hstep : c.step op = some c') :
    c'.ptrs.Perm ((c.made op).toList ++
      c.ptrs.filter (fun p => (c.freed op).map (·.ptr) ≠ some p)) := by
  obtain ⟨c₁, hstep₁, hwf, _, hfreed⟩ := step_spec h op
  obtain rfl := Option.some.inj (hstep.symm.trans hstep₁)
  obtain ⟨hold, hmade⟩ := step_made h hstep
  have hkeep : ∀ p, (c.freed op).map (·.ptr) ≠ some p ↔
      ∀ v, c.freed op = some v → v.ptr ≠ p := by
    intro p
    cases c.freed op <;> simp
  apply (List.perm_ext_iff_of_nodup (nodup_ptrs hwf) ?_).mpr
  · intro p
    simp only [List.mem_append, Option.mem_toList, List.mem_filter, decide_eq_true_eq,
      mem_ptrs, hkeep]
    constructor
    · intro hp
      rcases hold p hp with hp' | hp'
      · exact Or.inl hp'
      · exact Or.inr ⟨hp', (hfreed p hp').mp hp⟩
    · intro hp
      rcases hp with hp | ⟨hp, hne⟩
      · exact (hmade p hp).2
      · exact (hfreed p hp).mpr hne
  · refine List.nodup_append.mpr ⟨?_, (nodup_ptrs h).filter _, ?_⟩
    · cases c.made op <;> simp
    · intro p hp q hq hpq
      subst hpq
      exact (hmade p (Option.mem_toList.mp hp)).1 (mem_ptrs.mp (List.mem_of_mem_filter hq))

end CacheStrategy

open Allocation Prog Runs

variable {ι : Type}

structure ElementBlocks (ι : Type) where
  element : ι
  url : ι
  data : ι

namespace ElementBlocks

def blocks (b : ElementBlocks ι) : List (Site × ι) :=
  [(.elementData, b.data), (.elementUrl, b.url), (.element, b.element)]

def free [DecidableEq ι] (b : ElementBlocks ι) : Prog Site ι Unit := do
  Prog.free b.data
  Prog.free b.url
  Prog.free b.element

def make : Prog Site ι (ElementBlocks ι) := do
  let element ← alloc .element
  let url ← alloc .elementUrl
  let data ← alloc .elementData
  return ⟨element, url, data⟩

theorem free_spec [DecidableEq ι] (b : ElementBlocks ι) :
    Spec b.free b.blocks (fun _ own => own = []) := by
  apply spec_bind (spec_free (List.Perm.refl _))
  intro _ own₁ hown₁
  subst hown₁
  apply spec_bind (spec_free (List.Perm.refl _))
  intro _ own₂ hown₂
  subst hown₂
  exact spec_free (List.Perm.refl _)

theorem make_spec (own : List (Site × ι)) :
    Spec make own (fun b own' => own' = b.blocks ++ own) := by
  apply spec_bind spec_alloc
  intro element own₁ hown₁
  apply spec_bind spec_alloc
  intro url own₂ hown₂
  apply spec_bind spec_alloc
  intro data own₃ hown₃
  subst hown₃ hown₂ hown₁
  exact spec_pure rfl

end ElementBlocks

/-- A cache, with the blocks of the element at each address. -/
structure HeapCache (ι : Type) where
  cache : CacheStrategy
  block : ℕ → ElementBlocks ι

namespace HeapCache

def blocks (h : HeapCache ι) : List (Site × ι) :=
  h.cache.ptrs.flatMap (fun p => (h.block p).blocks)

section Functions
variable [DecidableEq ι]

def freeVictim (h : HeapCache ι) (op : CacheOp) : Prog Site ι Unit :=
  match h.cache.freed op with
  | none => pure ()
  | some elem => (h.block elem.ptr).free

/-- A call frees first and makes then. -/
def call (h : HeapCache ι) (op : CacheOp) : Prog Site ι (HeapCache ι) := do
  h.freeVictim op
  match h.cache.step op, h.cache.made op with
  | none, _ => undefined
  | some cache, none => pure ⟨cache, h.block⟩
  | some cache, some p => do
      let b ← ElementBlocks.make
      return ⟨cache, Function.update h.block p b⟩

def callAll (h : HeapCache ι) : List CacheOp → Prog Site ι (HeapCache ι)
  | [] => pure h
  | op :: ops => do
      let h ← h.call op
      h.callAll ops

/-- `~LRUCache` and `~LFUCache`. -/
def destroy (h : HeapCache ι) : Prog Site ι Unit :=
  forEach (fun e => (h.block e.ptr).free) h.cache.elements

def kept (c : CacheStrategy) (op : CacheOp) : List ℕ :=
  c.ptrs.filter (fun p => (c.freed op).map (·.ptr) ≠ some p)

theorem freeVictim_spec {h : HeapCache ι} (hwf : h.cache.WellFormed) (op : CacheOp) :
    Spec (h.freeVictim op) h.blocks
      (fun _ own => own = (kept h.cache op).flatMap (fun p => (h.block p).blocks)) := by
  unfold freeVictim blocks kept
  cases hfreed : h.cache.freed op with
  | none =>
    refine spec_pure ?_
    simp
  | some v =>
    have hmem : v.ptr ∈ h.cache.ptrs := CacheStrategy.mem_ptrs.mpr
      (CacheStrategy.freed_resident hfreed)
    have hsplit : h.cache.ptrs.Perm (v.ptr :: h.cache.ptrs.filter
        (fun p => (some v).map (·.ptr) ≠ some p)) := by
      apply (List.perm_cons_erase hmem).trans
      rw [(CacheStrategy.nodup_ptrs hwf).erase_eq_filter]
      apply List.Perm.of_eq
      congr 1
      apply List.filter_congr
      intro p _
      by_cases hp : p = v.ptr
      · simp [hp]
      · simp [hp, Ne.symm hp]
    apply spec_call (ElementBlocks.free_spec (h.block v.ptr)) (hsplit.flatMap_right _)
    intro _ o ho
    subst ho
    rfl

/-- A call leaves the cache owning the blocks of what is then resident. -/
theorem call_spec {h : HeapCache ι} (hwf : h.cache.WellFormed) (op : CacheOp)
    {own : List (Site × ι)} (hown : own.Perm h.blocks) :
    Spec (h.call op) own (Leaves blocks (fun h' => h.cache.step op = some h'.cache)) := by
  obtain ⟨c', hstep, _⟩ := CacheStrategy.step_spec hwf op
  have hptrs := CacheStrategy.ptrs_step hwf hstep
  have hmade := (CacheStrategy.step_made hwf hstep).2
  apply spec_perm hown
  apply spec_bind (freeVictim_spec hwf op)
  intro _ own₁ hown₁
  subst hown₁
  rw [hstep]
  cases hop : h.cache.made op with
  | none =>
    rw [hop] at hptrs
    exact spec_pure ⟨(hptrs.flatMap_right _).symm, rfl⟩
  | some p =>
    rw [hop] at hptrs
    apply spec_bind (ElementBlocks.make_spec _)
    intro b own₂ hown₂
    subst hown₂
    refine spec_pure ⟨?_, rfl⟩
    have hkept : (kept h.cache op).flatMap (fun q => (Function.update h.block p b q).blocks) =
        (kept h.cache op).flatMap (fun q => (h.block q).blocks) := by
      apply List.flatMap_congr
      intro q hq
      have hqp : q ≠ p := by
        intro heq
        subst heq
        exact (hmade q hop).1 (CacheStrategy.mem_ptrs.mp (List.mem_of_mem_filter hq))
      rw [Function.update_of_ne hqp]
    have hblocks := hptrs.flatMap_right (fun q => (Function.update h.block p b q).blocks)
    rw [List.flatMap_append] at hblocks
    refine List.Perm.trans ?_ hblocks.symm
    show (b.blocks ++ _).Perm (_ ++ (kept h.cache op).flatMap _)
    rw [hkept]
    simp

theorem callAll_spec (ops : List CacheOp) {h : HeapCache ι} (hwf : h.cache.WellFormed)
    {own : List (Site × ι)} (hown : own.Perm h.blocks) :
    Spec (h.callAll ops) own
      (Leaves blocks (fun h' => run CacheStrategy.step h.cache ops = some h'.cache)) := by
  induction ops generalizing h own with
  | nil => exact spec_pure ⟨hown, rfl⟩
  | cons op ops ih =>
    apply spec_bind (call_spec hwf op hown)
    intro h₁ own₁ hcall
    obtain ⟨hown₁, hstep⟩ := hcall
    obtain ⟨c', hstep', hwf', _⟩ := CacheStrategy.step_spec hwf op
    obtain rfl := Option.some.inj (hstep'.symm.trans hstep)
    apply spec_weaken (ih hwf' hown₁)
    intro h₂ own₂ hrest
    refine ⟨hrest.1, ?_⟩
    rw [run_cons, hstep]
    exact hrest.2

theorem destroy_spec (h : HeapCache ι) {own : List (Site × ι)} (hown : own.Perm h.blocks) :
    Spec h.destroy own (fun _ own' => own' = []) := by
  have hblocks : h.blocks = h.cache.elements.flatMap (fun e => (h.block e.ptr).blocks) := by
    rw [blocks, CacheStrategy.ptrs, List.flatMap_map]
  rw [hblocks] at hown
  exact spec_perm hown
    (spec_forEach (fun e : CacheElement => ElementBlocks.free_spec (h.block e.ptr)) _)

end Functions

end HeapCache

end ProxyServer
