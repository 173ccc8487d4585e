import Mathlib.Data.Finset.Card
import Mathlib.Data.Finset.Max
import Mathlib.Data.Finset.Erase
import Mathlib.Data.Prod.Lex

/-!
Caches of bounded size that evict by rank, over any key type. A resident key
carries the number of its touches since it was inserted and the time of its
last touch or insertion; a rank made of these two picks the victim. With the
time alone this is least recently used, with the count first it is least
frequently used. Times are distinct, so the victim is unique.
-/
namespace ProxyServer

/-- A call on a cache, with only its key kept. -/
inductive Access (K : Type*)
  | find (k : K)
  | add (k : K)
  | remove (k : K)

structure RefCache (K : Type*) where
  resident : Finset K
  touches : K → ℕ
  lastTouch : K → ℕ
  clock : ℕ

namespace RefCache

variable {K R : Type*} [LinearOrder R]

def empty : RefCache K := ⟨∅, fun _ => 0, fun _ => 0, 0⟩

def rankOf (rank : ℕ → ℕ → R) (r : RefCache K) (k : K) : R :=
  rank (r.touches k) (r.lastTouch k)

/-- Drops the resident of least rank; see `evict_resident`. -/
def evict (rank : ℕ → ℕ → R) (r : RefCache K) : RefCache K :=
  { r with resident :=
      r.resident.filter (fun k => ∃ j ∈ r.resident, r.rankOf rank j < r.rankOf rank k) }

def tick (r : RefCache K) : RefCache K := { r with clock := r.clock + 1 }

/-- The rank that looks only at the last touch. -/
def lruRank (_touches lastTouch : ℕ) : ℕ := lastTouch

/-- The rank that looks at the number of touches and breaks ties by age. -/
def lfuRank (touches lastTouch : ℕ) : ℕ ×ₗ ℕ := toLex (touches, lastTouch)

/-- `v` is the one resident of least rank. -/
structure IsVictim (rank : ℕ → ℕ → R) (r : RefCache K) (v : K) : Prop where
  resident : v ∈ r.resident
  least : ∀ k ∈ r.resident, k ≠ v → r.rankOf rank v < r.rankOf rank k

/-- Distinct residents have distinct last touches, all before the clock. -/
structure Stamped (r : RefCache K) : Prop where
  past : ∀ k ∈ r.resident, r.lastTouch k < r.clock
  distinct : ∀ j ∈ r.resident, ∀ k ∈ r.resident, r.lastTouch j = r.lastTouch k → j = k

theorem empty_stamped : (empty : RefCache K).Stamped :=
  ⟨by simp [empty], by simp [empty]⟩

theorem Stamped.subset {r : RefCache K} (h : r.Stamped) (s : Finset K)
    (hs : s ⊆ r.resident) : Stamped { r with resident := s } :=
  ⟨fun k hk => h.past k (hs hk), fun j hj k hk => h.distinct j (hs hj) k (hs hk)⟩

theorem Stamped.tick {r : RefCache K} (h : r.Stamped) : r.tick.Stamped :=
  ⟨fun k hk => Nat.lt_succ_of_lt (h.past k hk), h.distinct⟩

/-- A rank that tells apart keys with different last touches has a unique
victim among the residents of a stamped cache. -/
theorem Stamped.exists_victim {r : RefCache K} (h : r.Stamped) (rank : ℕ → ℕ → R)
    (hrank : ∀ m s n t, rank m s = rank n t → s = t) (hne : r.resident.Nonempty) :
    ∃ v, r.IsVictim rank v := by
  obtain ⟨v, hv, hmin⟩ := r.resident.exists_min_image (r.rankOf rank) hne
  refine ⟨v, hv, fun k hk hkv => lt_of_le_of_ne (hmin k hk) ?_⟩
  intro heq
  exact hkv (h.distinct k hk v hv (hrank _ _ _ _ heq).symm)

section Step
variable [DecidableEq K]

/-- A find that hits and an add of a present key count as a touch. -/
def touch (r : RefCache K) (k : K) : RefCache K :=
  { r with
    touches := Function.update r.touches k (r.touches k + 1)
    lastTouch := Function.update r.lastTouch k r.clock }

def insert (r : RefCache K) (k : K) : RefCache K :=
  { r with
    resident := Insert.insert k r.resident
    touches := Function.update r.touches k 0
    lastTouch := Function.update r.lastTouch k r.clock }

/-- One call on a cache of capacity `c`. -/
def step (rank : ℕ → ℕ → R) (c : ℕ) (r : RefCache K) : Access K → RefCache K
  | .find k => tick (if k ∈ r.resident then r.touch k else r)
  | .add k =>
      tick (if k ∈ r.resident then r.touch k
        else if c ≤ r.resident.card then (r.evict rank).insert k else r.insert k)
  | .remove k => tick { r with resident := r.resident.erase k }

def run (rank : ℕ → ℕ → R) (c : ℕ) (accesses : List (Access K)) : RefCache K :=
  accesses.foldl (step rank c) empty

theorem run_concat (rank : ℕ → ℕ → R) (c : ℕ) (accesses : List (Access K)) (a : Access K) :
    run rank c (accesses ++ [a]) = step rank c (run rank c accesses) a :=
  List.foldl_concat ..

theorem evict_resident (rank : ℕ → ℕ → R) (r : RefCache K) (v : K)
    (h : r.IsVictim rank v) : (r.evict rank).resident = r.resident.erase v := by
  ext k
  simp only [evict, Finset.mem_filter, Finset.mem_erase]
  constructor
  · rintro ⟨hk, j, hj, hlt⟩
    refine ⟨?_, hk⟩
    rintro rfl
    by_cases hjk : j = k
    · subst hjk
      exact lt_irrefl _ hlt
    · exact lt_asymm hlt (h.least j hj hjk)
  · rintro ⟨hne, hk⟩
    exact ⟨hk, v, h.resident, h.least k hk hne⟩

private theorem Stamped.stamp {r : RefCache K} (h : r.Stamped) (k : K) (t : K → ℕ) :
    Stamped (RefCache.tick { r with
      resident := Insert.insert k r.resident
      touches := t
      lastTouch := Function.update r.lastTouch k r.clock }) := by
  constructor
  · intro j hj
    simp only [RefCache.tick]
    by_cases hjk : j = k
    · subst hjk
      simp
    · have := h.past j (Finset.mem_of_mem_insert_of_ne hj hjk)
      simp only [Function.update_of_ne hjk]
      omega
  · intro i hi j hj hij
    simp only [RefCache.tick] at hi hj hij
    by_cases hik : i = k <;> by_cases hjk : j = k
    · exact hik.trans hjk.symm
    · subst hik
      have := h.past j (Finset.mem_of_mem_insert_of_ne hj hjk)
      simp only [Function.update_self, Function.update_of_ne hjk] at hij
      omega
    · subst hjk
      have := h.past i (Finset.mem_of_mem_insert_of_ne hi hik)
      simp only [Function.update_self, Function.update_of_ne hik] at hij
      omega
    · simp only [Function.update_of_ne hik, Function.update_of_ne hjk] at hij
      exact h.distinct i (Finset.mem_of_mem_insert_of_ne hi hik) j
        (Finset.mem_of_mem_insert_of_ne hj hjk) hij

theorem Stamped.insert {r : RefCache K} (h : r.Stamped) (k : K) : (r.insert k).tick.Stamped :=
  h.stamp k _

theorem Stamped.step {r : RefCache K} (h : r.Stamped) (rank : ℕ → ℕ → R) (c : ℕ)
    (a : Access K) : (r.step rank c a).Stamped := by
  cases a with
  | find k =>
    simp only [RefCache.step]
    split
    · rename_i hk
      have hstamp := h.stamp k (Function.update r.touches k (r.touches k + 1))
      simpa only [touch, Finset.insert_eq_of_mem hk] using hstamp
    · exact h.tick
  | add k =>
    simp only [RefCache.step]
    split
    · rename_i hk
      have hstamp := h.stamp k (Function.update r.touches k (r.touches k + 1))
      simpa only [touch, Finset.insert_eq_of_mem hk] using hstamp
    · split
      · exact (h.subset _ (Finset.filter_subset _ _)).insert k
      · exact h.insert k
  | remove k => exact (h.subset _ (Finset.erase_subset _ _)).tick

theorem run_stamped (rank : ℕ → ℕ → R) (c : ℕ) (accesses : List (Access K)) :
    (run rank c accesses).Stamped := by
  induction accesses using List.reverseRecOn with
  | nil => exact empty_stamped
  | append_singleton accesses a ih =>
    rw [run_concat]
    exact ih.step rank c a

/-- After any calls the reference has one victim, so an eviction drops one key. -/
theorem existsUnique_victim (rank : ℕ → ℕ → R)
    (hrank : ∀ m s n t, rank m s = rank n t → s = t) (c : ℕ) (accesses : List (Access K))
    (hne : (run rank c accesses).resident.Nonempty) :
    ∃! v, (run rank c accesses).IsVictim rank v := by
  obtain ⟨v, hv⟩ := (run_stamped rank c accesses).exists_victim rank hrank hne
  refine ⟨v, hv, fun w hw => ?_⟩
  by_contra hwv
  exact lt_asymm (hv.least w hw.resident hwv) (hw.least v hv.resident (Ne.symm hwv))

end Step
end RefCache

end ProxyServer
