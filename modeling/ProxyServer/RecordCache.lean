import ProxyServer.ReferenceCache
import ProxyServer.Runs
import Mathlib.Data.List.Nodup

/-!
A cache that evicts by records of touches, over any key type. A touch sets a record when
its key has been touched as often since it came in as there were records since then.
The holder of the last record goes first, then the keys that came in after it, oldest
first. Beside the reference cache that counts touches this is the same only as long as
every key evicted happens to be the least touched one.
-/
namespace ProxyServer

/-- The level of a key is the number of records when it came in and of its touches since. -/
structure RecordCache (K : Type*) where
  resident : Finset K
  level : K → ℕ
  records : ℕ
  holder : Option K
  newcomers : List K

namespace RecordCache

variable {K : Type*} [DecidableEq K]

def empty : RecordCache K := ⟨∅, fun _ => 0, 0, none, []⟩

/-- The keys that are evicted first, the next one last. -/
def front (h : RecordCache K) : List K := h.newcomers ++ h.holder.toList

def touch (h : RecordCache K) (k : K) : RecordCache K :=
  if h.level k = h.records then
    { h with
      level := Function.update h.level k (h.records + 1)
      records := h.records + 1
      holder := some k
      newcomers := [] }
  else { h with level := Function.update h.level k (h.level k + 1) }

def insert (h : RecordCache K) (k : K) : RecordCache K :=
  { h with
    resident := Insert.insert k h.resident
    level := Function.update h.level k h.records
    newcomers := k :: h.newcomers }

def drop (h : RecordCache K) (k : K) : RecordCache K :=
  { h with
    resident := h.resident.erase k
    holder := h.holder.filter (fun j => decide (j ≠ k))
    newcomers := h.newcomers.filter (fun j => decide (j ≠ k)) }

def evict (h : RecordCache K) : RecordCache K := (h.front.getLast?).elim h h.drop

/-- One call on a cache of capacity `cap`. -/
def step (cap : ℕ) (h : RecordCache K) : Access K → RecordCache K
  | .find k => if k ∈ h.resident then h.touch k else h
  | .add k =>
      if k ∈ h.resident then h.touch k
      else (if cap ≤ h.resident.card then h.evict else h).insert k
  | .remove k => h.drop k

def run (cap : ℕ) (accesses : List (Access K)) : RecordCache K :=
  accesses.foldl (step cap) empty

theorem run_concat (cap : ℕ) (accesses : List (Access K)) (a : Access K) :
    run cap (accesses ++ [a]) = step cap (run cap accesses) a :=
  List.foldl_concat ..

theorem front_drop (h : RecordCache K) (k : K) :
    (h.drop k).front = h.front.filter (fun j => decide (j ≠ k)) := by
  simp only [front, drop, List.filter_append]
  cases h.holder with
  | none => rfl
  | some j => by_cases hj : j = k <;> simp [hj]

/-- The keys evicted first are residents, of the largest level, and a cache without
any of them has room. -/
structure Kept (cap : ℕ) (h : RecordCache K) : Prop where
  nodup : h.front.Nodup
  subset : ∀ k ∈ h.front, k ∈ h.resident
  level : ∀ k ∈ h.front, h.level k = h.records
  bound : h.resident.card ≤ cap
  room : h.front = [] → h.resident.card < cap

namespace Kept

variable {cap : ℕ} {h : RecordCache K}

omit [DecidableEq K] in
theorem empty (hcap : 1 ≤ cap) : Kept cap (RecordCache.empty : RecordCache K) where
  nodup := List.nodup_nil
  subset := by simp [RecordCache.empty, front]
  level := by simp [RecordCache.empty, front]
  bound := Nat.zero_le _
  room _ := hcap

theorem touch (hk : Kept cap h) {k : K} (hmem : k ∈ h.resident) : Kept cap (h.touch k) := by
  unfold RecordCache.touch
  split
  · refine ⟨List.nodup_singleton k, ?_, ?_, hk.bound, ?_⟩
    · intro j hj
      rw [List.mem_singleton.mp hj]
      exact hmem
    · intro j hj
      rw [List.mem_singleton.mp hj]
      exact Function.update_self ..
    · intro hnil
      simp [front] at hnil
  · rename_i hne
    refine ⟨hk.nodup, hk.subset, ?_, hk.bound, hk.room⟩
    intro j hj
    have hjk : j ≠ k := fun heq => hne (heq ▸ hk.level j hj)
    exact (Function.update_of_ne hjk ..).trans (hk.level j hj)

theorem drop (hk : Kept cap h) (k : K) : Kept cap (h.drop k) := by
  have hle : (h.resident.erase k).card ≤ h.resident.card := Finset.card_erase_le
  refine ⟨?_, ?_, ?_, hle.trans hk.bound, ?_⟩
  · rw [front_drop]
    exact hk.nodup.filter _
  · intro j hj
    rw [front_drop, List.mem_filter, decide_eq_true_eq] at hj
    exact Finset.mem_erase.mpr ⟨hj.2, hk.subset j hj.1⟩
  · intro j hj
    rw [front_drop, List.mem_filter] at hj
    exact hk.level j hj.1
  · intro hnil
    rw [front_drop, List.filter_eq_nil_iff] at hnil
    by_cases hfront : h.front = []
    · exact lt_of_le_of_lt hle (hk.room hfront)
    · obtain ⟨j, hj⟩ := List.exists_mem_of_ne_nil _ hfront
      have hjk : j = k := by simpa using hnil j hj
      have hlt := Finset.card_erase_lt_of_mem (hjk ▸ hk.subset j hj)
      exact lt_of_lt_of_le hlt hk.bound

theorem insert (hk : Kept cap h) {k : K} (hmem : k ∉ h.resident)
    (hroom : h.resident.card < cap) : Kept cap (h.insert k) := by
  have hfront : (h.insert k).front = k :: h.front := rfl
  refine ⟨?_, ?_, ?_, ?_, ?_⟩
  · rw [hfront, List.nodup_cons]
    exact ⟨mt (hk.subset k) hmem, hk.nodup⟩
  · intro j hj
    rw [hfront, List.mem_cons] at hj
    rcases hj with rfl | hj
    · exact Finset.mem_insert_self ..
    · exact Finset.mem_insert_of_mem (hk.subset j hj)
  · intro j hj
    rw [hfront, List.mem_cons] at hj
    rcases hj with rfl | hj
    · exact Function.update_self ..
    · have hjk : j ≠ k := fun heq => hmem (heq ▸ hk.subset j hj)
      exact (Function.update_of_ne hjk ..).trans (hk.level j hj)
  · exact (Finset.card_insert_of_notMem hmem).trans_le hroom
  · intro hnil
    rw [hfront] at hnil
    contradiction

/-- A full cache has a key to evict, and room after that. -/
theorem evict_eq (hk : Kept cap h) (hfull : cap ≤ h.resident.card) :
    ∃ v l, h.front = l ++ [v] ∧ h.evict = h.drop v ∧ v ∈ h.resident ∧
      (h.drop v).resident.card < cap := by
  have hne : h.front ≠ [] := fun hnil => absurd (hk.room hnil) (Nat.not_lt.mpr hfull)
  obtain ⟨l, v, hl⟩ := (List.eq_nil_or_concat' h.front).resolve_left hne
  have hv : v ∈ h.resident := hk.subset v (by simp [hl])
  refine ⟨v, l, hl, ?_, hv, lt_of_lt_of_le (Finset.card_erase_lt_of_mem hv) hk.bound⟩
  rw [evict, hl, List.getLast?_concat, Option.elim_some]

theorem step (hk : Kept cap h) (a : Access K) : Kept cap (h.step cap a) := by
  cases a with
  | find k =>
    rw [RecordCache.step]
    split
    · exact hk.touch ‹_›
    · exact hk
  | add k =>
    rw [RecordCache.step]
    split
    · exact hk.touch ‹_›
    · rename_i hmem
      split
      · rename_i hfull
        obtain ⟨v, _, _, hevict, _, hroom⟩ := hk.evict_eq hfull
        rw [hevict]
        exact (hk.drop v).insert (mt Finset.mem_of_mem_erase hmem) hroom
      · exact hk.insert hmem (by omega)
  | remove k => exact hk.drop k

theorem run (hcap : 1 ≤ cap) (accesses : List (Access K)) :
    Kept cap (RecordCache.run cap accesses) := by
  induction accesses using List.reverseRecOn with
  | nil => exact Kept.empty hcap
  | append_singleton accesses a ih =>
    rw [run_concat]
    exact ih.step a

end Kept

theorem records_le (cap : ℕ) (accesses : List (Access K)) :
    (run cap accesses).records ≤ accesses.length := by
  induction accesses using List.reverseRecOn with
  | nil => exact Nat.le_refl _
  | append_singleton accesses a ih =>
    have hstep : ∀ h : RecordCache K, (h.step cap a).records ≤ h.records + 1 := by
      intro h
      have htouch : ∀ k, (h.touch k).records ≤ h.records + 1 := by
        intro k
        unfold touch
        split <;> simp
      have hevict : h.evict.records = h.records := by
        unfold evict
        cases h.front.getLast? <;> rfl
      cases a with
      | find k =>
        rw [step]
        split
        · exact htouch k
        · exact Nat.le_succ _
      | add k =>
        rw [step]
        split
        · exact htouch k
        · split
          · exact hevict.le.trans (Nat.le_succ _)
          · exact Nat.le_succ _
      | remove k => exact Nat.le_succ _
    rw [run_concat, List.length_append, List.length_singleton]
    exact (hstep _).trans (Nat.succ_le_succ ih)

section Reference

open RefCache

/-- The same keys as in the reference cache. The newcomers are untouched, the later the
nearer to the head, and all other untouched keys are older. -/
structure Together (cap : ℕ) (h : RecordCache K) (r : RefCache K) : Prop where
  kept : h.Kept cap
  stamped : r.Stamped
  resident : h.resident = r.resident
  untouched : ∀ k ∈ h.newcomers, r.touches k = 0
  decreasing : h.newcomers.Pairwise (fun j k => r.lastTouch k < r.lastTouch j)
  older : ∀ k ∈ r.resident, r.touches k = 0 → k ∉ h.newcomers →
    ∀ j ∈ h.newcomers, r.lastTouch k < r.lastTouch j

/-- When the call evicts: if the holder of the last record is still there, no other key
has been touched less, and none as often but longer ago; if not, every key that came in
before the last record has been touched since. -/
def RecordIsLeast (cap : ℕ) (s : RecordCache K × RefCache K) : Access K → Prop
  | .add k => k ∉ s.2.resident → cap ≤ s.2.resident.card →
      match s.1.holder with
      | some v => ∀ j ∈ s.2.resident, j ≠ v → s.2.touches v < s.2.touches j ∨
          (s.2.touches v = s.2.touches j ∧ s.2.lastTouch v < s.2.lastTouch j)
      | none => ∀ j ∈ s.2.resident, s.2.touches j = 0 → j ∈ s.1.newcomers
  | _ => True

instance (cap : ℕ) (s : RecordCache K × RefCache K) :
    ∀ a : Access K, Decidable (RecordIsLeast cap s a)
  | .find _ | .remove _ => isTrue trivial
  | .add k =>
      match h : s.1.holder with
      | some v => decidable_of_iff (k ∉ s.2.resident → cap ≤ s.2.resident.card →
          ∀ j ∈ s.2.resident, j ≠ v → s.2.touches v < s.2.touches j ∨
            (s.2.touches v = s.2.touches j ∧ s.2.lastTouch v < s.2.lastTouch j))
          (by rw [RecordIsLeast, h])
      | none => decidable_of_iff (k ∉ s.2.resident → cap ≤ s.2.resident.card →
          ∀ j ∈ s.2.resident, s.2.touches j = 0 → j ∈ s.1.newcomers)
          (by rw [RecordIsLeast, h])

def bothStep (cap : ℕ) (s : RecordCache K × RefCache K) (a : Access K) :
    Option (RecordCache K × RefCache K) :=
  some (s.1.step cap a, s.2.step lfuRank cap a)

namespace Together

variable {cap : ℕ} {h : RecordCache K} {r : RefCache K}

omit [DecidableEq K] in
theorem empty (hcap : 1 ≤ cap) : Together cap RecordCache.empty (RefCache.empty : RefCache K) where
  kept := Kept.empty hcap
  stamped := empty_stamped
  resident := rfl
  untouched := by simp [RecordCache.empty]
  decreasing := List.Pairwise.nil
  older := by simp [RefCache.empty]

omit [DecidableEq K] in
theorem tick (ht : Together cap h r) : Together cap h r.tick :=
  ⟨ht.kept, ht.stamped.tick, ht.resident, ht.untouched, ht.decreasing, ht.older⟩

theorem touch (ht : Together cap h r) {k : K} (hmem : k ∈ r.resident) :
    Together cap (h.touch k) (r.touch k).tick := by
  have hkept := ht.kept.touch (ht.resident ▸ hmem)
  have hstamped : (r.touch k).tick.Stamped := by
    have hstep := ht.stamped.step lfuRank cap (.find k)
    rwa [RefCache.step, if_pos hmem] at hstep
  unfold RecordCache.touch at hkept ⊢
  by_cases hrecord : h.level k = h.records
  · rw [if_pos hrecord] at hkept ⊢
    exact ⟨hkept, hstamped, ht.resident, by simp, List.Pairwise.nil, by simp⟩
  · rw [if_neg hrecord] at hkept ⊢
    have hnew : ∀ j ∈ h.newcomers, j ≠ k := by
      rintro j hj rfl
      exact hrecord (ht.kept.level j (List.mem_append_left _ hj))
    refine ⟨hkept, hstamped, ht.resident, ?_, ?_, ?_⟩
    · intro j hj
      exact (Function.update_of_ne (hnew j hj) ..).trans (ht.untouched j hj)
    · refine ht.decreasing.imp_of_mem ?_
      intro i j hi hj hlt
      simp only [RefCache.touch, RefCache.tick, Function.update_of_ne (hnew i hi),
        Function.update_of_ne (hnew j hj)]
      exact hlt
    · intro i hi hzero hnot j hj
      have hik : i ≠ k := by
        rintro rfl
        simp [RefCache.touch, RefCache.tick] at hzero
      simp only [RefCache.touch, RefCache.tick, Function.update_of_ne hik,
        Function.update_of_ne (hnew j hj)] at hzero ⊢
      exact ht.older i hi hzero hnot j hj

theorem drop (ht : Together cap h r) (k : K) :
    Together cap (h.drop k) { r with resident := r.resident.erase k } where
  kept := ht.kept.drop k
  stamped := ht.stamped.subset _ (Finset.erase_subset k _)
  resident := congrArg (fun s => s.erase k) ht.resident
  untouched j hj := ht.untouched j (List.mem_of_mem_filter hj)
  decreasing := ht.decreasing.filter _
  older i hi hzero hnot j hj := by
    obtain ⟨hik, hi⟩ := Finset.mem_erase.mp hi
    refine ht.older i hi hzero (fun hin => hnot ?_) j (List.mem_of_mem_filter hj)
    exact List.mem_filter.mpr ⟨hin, decide_eq_true hik⟩

theorem insert (ht : Together cap h r) {k : K} (hmem : k ∉ r.resident)
    (hroom : r.resident.card < cap) : Together cap (h.insert k) (r.insert k).tick := by
  have hmem' : k ∉ h.resident := ht.resident ▸ hmem
  have hpast : ∀ j ∈ r.resident, r.lastTouch j < r.clock := ht.stamped.past
  have hother : ∀ j ∈ r.resident, j ≠ k := by
    rintro j hj rfl
    exact hmem hj
  have hnew : ∀ j ∈ h.newcomers, j ∈ r.resident := by
    intro j hj
    rw [← ht.resident]
    exact ht.kept.subset j (List.mem_append_left _ hj)
  refine ⟨ht.kept.insert hmem' (ht.resident ▸ hroom), ht.stamped.insert k, ?_, ?_, ?_, ?_⟩
  · exact congrArg (fun s => Insert.insert k s) ht.resident
  · intro j hj
    rcases List.mem_cons.mp hj with rfl | hj
    · exact Function.update_self ..
    · exact (Function.update_of_ne (hother j (hnew j hj)) ..).trans (ht.untouched j hj)
  · refine List.pairwise_cons.mpr ⟨?_, ht.decreasing.imp_of_mem ?_⟩
    · intro j hj
      simp only [RefCache.insert, RefCache.tick, Function.update_self,
        Function.update_of_ne (hother j (hnew j hj))]
      exact hpast j (hnew j hj)
    · intro i j hi hj hlt
      simp only [RefCache.insert, RefCache.tick, Function.update_of_ne (hother i (hnew i hi)),
        Function.update_of_ne (hother j (hnew j hj))]
      exact hlt
  · intro i hi hzero hnot j hj
    have hik : i ≠ k := by
      rintro rfl
      exact hnot List.mem_cons_self
    have hir : i ∈ r.resident := Finset.mem_of_mem_insert_of_ne hi hik
    simp only [RefCache.insert, RefCache.tick, Function.update_of_ne hik] at hzero ⊢
    rcases List.mem_cons.mp hj with rfl | hj
    · rw [Function.update_self]
      exact hpast i hir
    · rw [Function.update_of_ne (hother j (hnew j hj))]
      exact ht.older i hir hzero (fun hin => hnot (List.mem_cons_of_mem _ hin)) j hj

omit [DecidableEq K] in
theorem isVictim_iff (v : K) : r.IsVictim lfuRank v ↔ v ∈ r.resident ∧
    ∀ j ∈ r.resident, j ≠ v → r.touches v < r.touches j ∨
      (r.touches v = r.touches j ∧ r.lastTouch v < r.lastTouch j) := by
  have hrank : ∀ j, r.rankOf lfuRank v < r.rankOf lfuRank j ↔ r.touches v < r.touches j ∨
      (r.touches v = r.touches j ∧ r.lastTouch v < r.lastTouch j) :=
    fun j => Prod.Lex.toLex_lt_toLex
  simp only [← hrank]
  exact ⟨fun h => ⟨h.resident, h.least⟩, fun h => ⟨h.1, h.2⟩⟩

/-- The key evicted is the victim of the reference cache exactly under the condition. -/
theorem recordIsLeast_iff (ht : Together cap h r) {k v : K} {l : List K}
    (hmem : k ∉ r.resident) (hfull : cap ≤ r.resident.card) (hfront : h.front = l ++ [v]) :
    RecordIsLeast cap (h, r) (.add k) ↔ r.IsVictim lfuRank v := by
  have hv : v ∈ r.resident := by
    rw [← ht.resident]
    exact ht.kept.subset v (by simp [hfront])
  rw [isVictim_iff, and_iff_right hv]
  simp only [RecordIsLeast, hmem, hfull, not_false_iff, true_implies]
  cases hholder : h.holder with
  | some u =>
    rw [front, hholder, Option.toList_some] at hfront
    obtain ⟨_, hlast⟩ := List.append_inj' hfront rfl
    rw [List.cons.injEq] at hlast
    rw [hlast.1]
  | none =>
    rw [front, hholder, Option.toList_none, List.append_nil] at hfront
    have hlast : v ∈ h.newcomers := by simp [hfront]
    have hzero := ht.untouched v hlast
    constructor
    · intro hall j hj hjv
      by_cases hj0 : r.touches j = 0
      · have hjl : j ∈ l := by simpa [hfront, hjv] using hall j hj hj0
        have hpair := ht.decreasing
        rw [hfront, List.pairwise_append] at hpair
        exact Or.inr ⟨hzero.trans hj0.symm, hpair.2.2 j hjl v (List.mem_singleton_self v)⟩
      · exact Or.inl (hzero ▸ Nat.pos_of_ne_zero hj0)
    · intro hall j hj hj0
      by_contra hnot
      have hjv : j ≠ v := by
        rintro rfl
        exact hnot hlast
      have hlt := ht.older j hj hj0 hnot v hlast
      have := hall j hj hjv
      omega

/-- A call on both caches leaves them the same keys exactly under the condition, and
then they stay together. -/
theorem step (ht : Together cap h r) (a : Access K) :
    ((h.step cap a).resident = (r.step lfuRank cap a).resident ↔ RecordIsLeast cap (h, r) a) ∧
      (RecordIsLeast cap (h, r) a → Together cap (h.step cap a) (r.step lfuRank cap a)) := by
  have hfree : ∀ {h' : RecordCache K} {r' : RefCache K} {p : Prop}, p → Together cap h' r' →
      (h'.resident = r'.resident ↔ p) ∧ (p → Together cap h' r') :=
    fun hp ht' => ⟨iff_of_true ht'.resident hp, fun _ => ht'⟩
  cases a with
  | find k =>
    rw [RecordCache.step, RefCache.step, ht.resident]
    split
    · exact hfree trivial (ht.touch ‹_›)
    · exact hfree trivial ht.tick
  | add k =>
    rw [RecordCache.step, RefCache.step, ht.resident]
    by_cases hmem : k ∈ r.resident
    · rw [if_pos hmem, if_pos hmem]
      exact hfree (fun hnot => absurd hmem hnot) (ht.touch hmem)
    rw [if_neg hmem, if_neg hmem]
    by_cases hfull : cap ≤ r.resident.card
    · rw [if_pos hfull, if_pos hfull]
      obtain ⟨v, l, hfront, hdrop, hv, hroom⟩ := ht.kept.evict_eq (ht.resident ▸ hfull)
      rw [ht.resident] at hv
      rw [ht.recordIsLeast_iff hmem hfull hfront, hdrop]
      constructor
      · constructor
        · intro hsame
          obtain ⟨w, hw⟩ := ht.stamped.exists_victim lfuRank
            (fun m s n t heq => (Prod.mk.inj (toLex.injective heq)).2) ⟨v, hv⟩
          -- The key that is gone from the reference cache is the one evicted.
          have hwv : w = v := by
            by_contra hne
            have hin : w ∈ ((h.drop v).insert k).resident := by
              refine Finset.mem_insert_of_mem (Finset.mem_erase.mpr ⟨hne, ?_⟩)
              rw [ht.resident]
              exact hw.resident
            rw [hsame] at hin
            simp only [RefCache.tick, RefCache.insert, evict_resident lfuRank r w hw] at hin
            rcases Finset.mem_insert.mp hin with rfl | hin
            · exact hmem hw.resident
            · exact absurd hin (Finset.notMem_erase _ _)
          rwa [← hwv]
        · intro hvictim
          simp only [RecordCache.insert, RecordCache.drop, RefCache.tick, RefCache.insert,
            evict_resident lfuRank r v hvictim, ht.resident]
      · intro hvictim
        have heq : r.evict lfuRank = { r with resident := r.resident.erase v } := by
          rw [← evict_resident lfuRank r v hvictim]
          rfl
        rw [heq]
        refine (ht.drop v).insert (mt Finset.mem_of_mem_erase hmem) ?_
        simpa only [RecordCache.drop, ht.resident] using hroom
    · rw [if_neg hfull, if_neg hfull]
      exact hfree (fun _ hnot => absurd hnot hfull) (ht.insert hmem (by omega))
  | remove k =>
    exact hfree trivial (ht.drop k).tick

end Together

/-- Under the same calls the two caches hold the same keys all along exactly when every
call meets the condition. -/
theorem resident_eq_iff (cap : ℕ) (hcap : 1 ≤ cap) (accesses : List (Access K)) :
    (∀ calls, calls <+: accesses → (run cap calls).resident =
      (RefCache.run lfuRank cap calls).resident) ↔
      Runs.EveryStep (bothStep cap) (RecordIsLeast cap) (empty, RefCache.empty) accesses := by
  have hrun : ∀ calls, Runs.run (bothStep cap) (empty, RefCache.empty) calls =
      some (run cap calls, RefCache.run (K := K) lfuRank cap calls) := by
    intro calls
    induction calls using List.reverseRecOn with
    | nil => rfl
    | append_singleton calls a ih =>
      rw [Runs.run_concat, ih, Option.bind_some, bothStep, run_concat, RefCache.run_concat]
  have hiff := Runs.everyStep_iff_prefixes (bothStep cap)
    (fun s : RecordCache K × RefCache K => s.1.resident = s.2.resident → Together cap s.1 s.2)
    (fun o => ∀ s, o = some s → s.1.resident = s.2.resident) (RecordIsLeast cap)
    (fun s a ht hsame => by
      simpa [bothStep] using ((ht (hsame s rfl)).step a).1)
    (fun s a s' ht hsame hstep hsame' => by
      cases hstep
      have hstep := (ht (hsame s rfl)).step a
      exact hstep.2 (hstep.1.mp hsame')) accesses (empty, RefCache.empty)
    (fun _ => Together.empty hcap) (by simp [empty, RefCache.empty])
  rw [← hiff]
  simp only [hrun, Option.some.injEq, forall_eq']

end Reference

end RecordCache

end ProxyServer
