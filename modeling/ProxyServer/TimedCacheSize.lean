import ProxyServer.TimedCache
import Mathlib.Algebra.Ring.Int.Defs

/-!
The size the C cache counts. As long as the sizes of elements stay within `int`,
every call keeps `cache_size` at the sum of what the elements count for, so the
loop that makes room ends: where the list is empty the count is zero, and an
element that may be stored fits.
-/
namespace ProxyServer.V1

open CStrings

def CacheElement.size (e : CacheElement) : ℤ := e.len + 1 + e.url.length + sizeofCacheElement

structure Accounted (c : Cache) : Prop where
  cacheSize : c.cacheSize = (c.elements.map CacheElement.size).sum
  le : c.cacheSize ≤ maxSize
  len : ∀ e ∈ c.elements, 0 ≤ e.len

/-- The size is not negative and the element's stays within `int`. -/
def Call.InRange : Call → Prop
  | .add _ size url _ => 0 ≤ size ∧ size + 1 + url.length + sizeofCacheElement < 2 ^ 31
  | _ => True

def Call.Copies : Call → Prop
  | .add data size url _ => maxElementSize < elementSize size url ∨ data.length ≤ size
  | _ => True

theorem sum_size_nonneg {l : List CacheElement} (h : ∀ e ∈ l, 0 ≤ e.len) :
    0 ≤ (l.map CacheElement.size).sum := by
  induction l with
  | nil => exact le_refl 0
  | cons e l ih =>
    have hlen := h e List.mem_cons_self
    have hrest := ih (fun x hx => h x (List.mem_cons_of_mem e hx))
    rw [List.map_cons, List.sum_cons, CacheElement.size]
    have hsizeof : sizeofCacheElement = 40 := rfl
    omega

theorem elementSize_eq {size : ℤ} {url : CString} (hzero : 0 ≤ size)
    (hlt : size + 1 + url.length + sizeofCacheElement < 2 ^ 31) :
    elementSize size url = size + 1 + url.length + sizeofCacheElement := by
  have hsizeof : sizeofCacheElement = 40 := rfl
  exact toInt_eq_self (by omega) hlt

namespace Accounted

variable {c : Cache}

theorem nonneg (h : Accounted c) : 0 ≤ c.cacheSize := by
  rw [h.cacheSize]
  exact sum_size_nonneg h.len

theorem empty : Accounted Cache.empty :=
  ⟨rfl, by decide, fun _ he => absurd he List.not_mem_nil⟩

theorem find (h : Accounted c) (url : CString) (now : ℤ) : Accounted (V1.find c url now).2 := by
  refine ⟨?_, ?_, ?_⟩
  · rw [find_cacheSize, map_find CacheElement.size (fun _ _ => rfl), h.cacheSize]
  · rw [find_cacheSize]
    exact h.le
  · intro x hx
    obtain ⟨e, he, _, _, _, hlen⟩ := mem_find hx
    rw [← hlen]
    exact h.len e he

theorem remove (h : Accounted c) : Accounted (removeCacheElement c) := by
  by_cases hnil : c.elements = []
  · rw [removeCacheElement_of_nil hnil]
    exact h
  · obtain ⟨front, victim, back, hleast, heq⟩ := removeCacheElement_spec hnil
    have hrest : ∀ e ∈ front ++ back, 0 ≤ e.len :=
      fun e he => h.len e (hleast.mem_of_mem_others he)
    have hsum : c.cacheSize = ((front ++ back).map CacheElement.size).sum + victim.size := by
      rw [h.cacheSize, hleast.eq, List.map_append, List.map_append, List.sum_append,
        List.sum_append, List.map_cons, List.sum_cons]
      omega
    have hnonneg := sum_size_nonneg hrest
    have hvictim := h.len victim hleast.mem
    have hle := h.le
    have hsize : victim.size = victim.len + 1 + victim.url.length + sizeofCacheElement := rfl
    have hconstants : sizeofCacheElement = 40 ∧ maxSize = 209715200 := ⟨rfl, rfl⟩
    have hcount : toInt (c.cacheSize - victim.len - sizeofCacheElement - victim.url.length - 1) =
        ((front ++ back).map CacheElement.size).sum := by
      rw [toInt_eq_self (by omega) (by omega)]
      omega
    rw [heq, hcount]
    refine ⟨rfl, ?_, hrest⟩
    dsimp only
    omega

theorem room_iff (h : Accounted c) {size : ℤ} (hzero : 0 ≤ size) (hsize : size ≤ maxElementSize) :
    Room c size ↔ c.cacheSize + size ≤ maxSize := by
  have hnonneg := h.nonneg
  have hle := h.le
  have hconstants : maxElementSize = 10485760 ∧ maxSize = 209715200 := ⟨rfl, rfl⟩
  rw [Room, toInt_eq_self (by omega) (by omega)]

theorem exists_evictLoop {size : ℤ} (hzero : 0 ≤ size) (hsize : size ≤ maxElementSize) (n : ℕ) :
    ∀ {c : Cache}, Accounted c → c.elements.length ≤ n →
      ∃ c', evictLoop size n c = some c' ∧ Accounted c' ∧ c'.cacheSize + size ≤ maxSize := by
  induction n with
  | zero =>
    intro c h hlength
    have hroom : Room c size := by
      rw [h.room_iff hzero hsize, h.cacheSize, List.length_eq_zero_iff.mp (Nat.le_zero.mp hlength)]
      exact le_trans (by simpa using hsize) (by decide : maxElementSize ≤ maxSize)
    exact ⟨c, evictLoop_of_room hroom 0, h, (h.room_iff hzero hsize).mp hroom⟩
  | succ n ih =>
    intro c h hlength
    by_cases hroom : Room c size
    · exact ⟨c, evictLoop_of_room hroom (n + 1), h, (h.room_iff hzero hsize).mp hroom⟩
    · rw [evictLoop, if_neg hroom]
      apply ih h.remove
      rw [length_removeCacheElement]
      omega

theorem insert {data : CString} {size : ℤ} {url : CString} {now : ℤ} {c' : Cache}
    (h : Accounted c) (hzero : 0 ≤ size)
    (hlt : size + 1 + url.length + sizeofCacheElement < 2 ^ 31)
    (hroom : c.cacheSize + elementSize size url ≤ maxSize)
    (hinsert : V1.insert c data size url now = some c') : Accounted c' := by
  unfold V1.insert at hinsert
  split at hinsert
  case isTrue => contradiction
  case isFalse hcopy =>
    cases hinsert
    have hnonneg := h.nonneg
    have hsum := h.cacheSize
    rw [elementSize_eq hzero hlt] at hroom ⊢
    have hconstants : sizeofCacheElement = 40 ∧ maxSize = 209715200 := ⟨rfl, rfl⟩
    have hcount : toInt (c.cacheSize + (size + 1 + url.length + sizeofCacheElement)) =
        c.cacheSize + (size + 1 + url.length + sizeofCacheElement) :=
      toInt_eq_self (by omega) (by omega)
    rw [hcount]
    refine ⟨?_, hroom, ?_⟩
    · dsimp only
      rw [List.map_cons, List.sum_cons, hsum]
      exact Int.add_comm _ _
    · intro e he
      rcases List.mem_cons.mp he with rfl | he
      · exact hzero
      · exact h.len e he

/-- A call in range is undefined only where the copy overruns its allocation. -/
theorem step (h : Accounted c) {call : Call} (hcall : call.InRange) :
    ((V1.step c call).isSome ↔ call.Copies) ∧ ∀ c', V1.step c call = some c' → Accounted c' := by
  cases call with
  | find url now =>
    refine ⟨iff_of_true rfl trivial, ?_⟩
    intro c' hstep
    cases hstep
    exact h.find url now
  | remove =>
    refine ⟨iff_of_true rfl trivial, ?_⟩
    intro c' hstep
    cases hstep
    exact h.remove
  | add data size url now =>
    obtain ⟨hzero, hlt⟩ := hcall
    by_cases hlarge : maxElementSize < elementSize size url
    · rw [V1.step, addCacheElement, if_pos hlarge]
      refine ⟨iff_of_true rfl (Or.inl hlarge), ?_⟩
      intro c' hstep
      cases hstep
      exact h
    · have hsizeof : sizeofCacheElement = 40 := rfl
      have hpos : 0 ≤ elementSize size url := by
        rw [elementSize_eq hzero hlt]
        omega
      obtain ⟨c₁, hevict, hc₁, hroom⟩ :=
        h.exists_evictLoop hpos (not_lt.mp hlarge) _ (le_refl c.elements.length)
      rw [V1.step, addCacheElement, if_neg hlarge, hevict]
      simp only [Option.bind_eq_bind, Option.bind_some]
      constructor
      · by_cases hcopy : size < data.length
        · rw [V1.insert, if_pos hcopy]
          refine iff_of_false Bool.false_ne_true ?_
          rintro (hover | hle)
          · exact hlarge hover
          · exact absurd hle (not_le.mpr hcopy)
        · rw [V1.insert, if_neg hcopy]
          exact iff_of_true rfl (Or.inr (not_lt.mp hcopy))
      · intro c' hstep
        obtain ⟨r, hr, rfl⟩ := Option.map_eq_some_iff.mp hstep
        obtain ⟨c₂, hinsert, hr⟩ := Option.bind_eq_some_iff.mp hr
        cases hr
        exact hc₁.insert hzero hlt hroom hinsert

end Accounted

theorem accounted_run (calls : List Call) :
    ∀ {c : Cache}, Accounted c → (∀ call ∈ calls, call.InRange) →
      ((Runs.run step c calls).isSome ↔ ∀ call ∈ calls, call.Copies) ∧
        ∀ c', Runs.run step c calls = some c' → Accounted c' := by
  induction calls with
  | nil =>
    intro c h _
    refine ⟨iff_of_true rfl (fun _ hcall => absurd hcall List.not_mem_nil), ?_⟩
    intro c' hrun
    cases hrun
    exact h
  | cons call calls ih =>
    intro c h hcalls
    obtain ⟨hsome, hnext⟩ := h.step (hcalls call List.mem_cons_self)
    have hrest : ∀ call ∈ calls, call.InRange :=
      fun x hx => hcalls x (List.mem_cons_of_mem call hx)
    rw [Runs.run_cons, List.forall_mem_cons, ← hsome]
    cases hstep : step c call with
    | none =>
      refine ⟨iff_of_false Bool.false_ne_true (fun hall => Bool.false_ne_true hall.1), ?_⟩
      intro c' hrun
      contradiction
    | some c₁ =>
      obtain ⟨hsome', hrun⟩ := ih (hnext c₁ hstep) hrest
      rw [Option.bind_some]
      exact ⟨hsome'.trans (and_iff_right rfl).symm, hrun⟩

/-- After any calls in range whose copies fit, the count is exact and within the
limit, and a further add with an element that may be stored makes room. -/
theorem cacheSize_exact {calls : List Call} (hcalls : ∀ call ∈ calls, call.InRange) :
    ((Runs.run step Cache.empty calls).isSome ↔ ∀ call ∈ calls, call.Copies) ∧
    ∀ c, Runs.run step Cache.empty calls = some c →
      c.cacheSize = (c.elements.map CacheElement.size).sum ∧
      0 ≤ c.cacheSize ∧ c.cacheSize ≤ maxSize ∧
      ∀ size (url : CString), 0 ≤ size → size + 1 + url.length + sizeofCacheElement < 2 ^ 31 →
        elementSize size url ≤ maxElementSize →
        ∃ c', (∀ n, c.elements.length ≤ n → evictLoop (elementSize size url) n c = some c') ∧
          c'.cacheSize + elementSize size url ≤ maxSize := by
  obtain ⟨hsome, hrun⟩ := accounted_run calls Accounted.empty hcalls
  refine ⟨hsome, ?_⟩
  intro c hc
  have h := hrun c hc
  refine ⟨h.cacheSize, h.nonneg, h.le, ?_⟩
  intro size url hzero hlt hfits
  have hsizeof : sizeofCacheElement = 40 := rfl
  have hpos : 0 ≤ elementSize size url := by
    rw [elementSize_eq hzero hlt]
    omega
  obtain ⟨c', hevict, _, hroom⟩ := h.exists_evictLoop hpos hfits _ (le_refl c.elements.length)
  exact ⟨c', fun n hn => (evictLoop_eq _ n c hn).trans hevict, hroom⟩

/-- Adds of nearly 10 MiB under different requests, one after the other. -/
def largeAdds (n : ℕ) : List Call :=
  (List.range n).map (fun i => .add "b".toList 10485000 (List.replicate i 'a') i)

set_option maxRecDepth 8000 in
/-- The twenty-first large element takes the place of the first, and a further one
would take the place of the second. -/
theorem cacheSize_exact_one : ∃ c, Runs.run step Cache.empty (largeAdds 21) = some c ∧
    c.elements.length = 20 ∧ c.cacheSize = (c.elements.map CacheElement.size).sum ∧
    0 ≤ c.cacheSize ∧ c.cacheSize ≤ maxSize ∧
    ∃ c', (∀ n, c.elements.length ≤ n → evictLoop (elementSize 10485000 []) n c = some c') ∧
      c'.cacheSize + elementSize 10485000 [] ≤ maxSize := by
  have hcalls : ∀ call ∈ largeAdds 21, call.InRange := by
    intro call hcall
    obtain ⟨i, hi, rfl⟩ := List.mem_map.mp hcall
    have hlt := List.mem_range.mp hi
    refine ⟨by decide, ?_⟩
    have hsizeof : sizeofCacheElement = 40 := rfl
    rw [List.length_replicate]
    omega
  obtain ⟨c, hrun, hlength⟩ : ∃ c, Runs.run step Cache.empty (largeAdds 21) = some c ∧
      c.elements.length = 20 := ⟨_, rfl, by decide⟩
  obtain ⟨_, hexact⟩ := cacheSize_exact hcalls
  obtain ⟨hcount, hnonneg, hle, hroom⟩ := hexact c hrun
  exact ⟨c, hrun, hlength, hcount, hnonneg, hle, hroom 10485000 [] (by decide) (by decide)
    (by decide)⟩

end ProxyServer.V1
