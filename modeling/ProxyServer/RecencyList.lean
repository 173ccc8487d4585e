import ProxyServer.ReferenceCache
import Mathlib.Data.List.Sublists
import Mathlib.Data.List.Nodup

/-!
Least recently used caches as lists of keys, most recent first. A touch moves
a key to the front, an insertion into a full list drops the last key. The list
of a run is the residents of the reference cache in decreasing order of last
touch, and the list of a smaller capacity is always a sublist of the list of a
larger one: when the larger one evicts, the smaller one is full as well.
-/
namespace ProxyServer.RecencyList

variable {K : Type*}

def touch [BEq K] (l : List K) (k : K) : List K := k :: l.erase k

def insert (c : ℕ) (l : List K) (k : K) : List K :=
  k :: (if c ≤ l.length then l.dropLast else l)

def step [BEq K] [LawfulBEq K] (c : ℕ) (l : List K) : Access K → List K
  | .find k => if k ∈ l then touch l k else l
  | .add k => if k ∈ l then touch l k else insert c l k
  | .remove k => l.erase k

theorem length_touch [BEq K] [LawfulBEq K] (l : List K) (k : K) (hk : k ∈ l) :
    (touch l k).length = l.length := by
  have := List.length_pos_of_mem hk
  simp only [touch, List.length_cons, List.length_erase_of_mem hk]
  omega

theorem length_insert (c : ℕ) (l : List K) (k : K) (hc : 1 ≤ c) (hl : l.length ≤ c) :
    (insert c l k).length ≤ c := by
  unfold insert
  split
  · simp only [List.length_cons, List.length_dropLast]
    omega
  · simp only [List.length_cons]
    omega

theorem length_step [BEq K] [LawfulBEq K] (c : ℕ) (l : List K) (a : Access K)
    (hc : 1 ≤ c) (hl : l.length ≤ c) : (step c l a).length ≤ c := by
  cases a with
  | find k =>
    simp only [step]
    split
    · rename_i hk
      rw [length_touch l k hk]
      exact hl
    · exact hl
  | add k =>
    simp only [step]
    split
    · rename_i hk
      rw [length_touch l k hk]
      exact hl
    · exact length_insert c l k hc hl
  | remove k => exact le_trans List.length_erase_le hl

section Inclusion

/-- The small list is a sublist of the large one, and the large one has at
most as many keys of its own as its capacity is larger. -/
structure Includes (c c' : ℕ) (l l' : List K) : Prop where
  sublist : l.Sublist l'
  extra : l'.length + c ≤ l.length + c'
  nodup : l'.Nodup
  small : l.length ≤ c
  large : l'.length ≤ c'

/-- A touched key leads both lists, wherever it was before. -/
private theorem touch_sublist [BEq K] (l l' : List K) (k : K) (h : l.Sublist l') :
    (touch l k).Sublist (touch l' k) := (h.erase k).cons_cons k

private theorem length_erase_large [BEq K] [LawfulBEq K] {l l' : List K} (k : K)
    (hk : k ∈ l') : (l'.erase k).length + l.length ≤ l'.length + (l.erase k).length := by
  have hpos := List.length_pos_of_mem hk
  rw [List.length_erase_of_mem hk]
  by_cases hkl : k ∈ l
  · have := List.length_pos_of_mem hkl
    rw [List.length_erase_of_mem hkl]
    omega
  · rw [List.erase_of_not_mem hkl]
    omega

theorem Includes.find [BEq K] [LawfulBEq K] {c c' : ℕ} {l l' : List K}
    (h : Includes c c' l l') (k : K) :
    Includes c c' (step c l (.find k)) (step c' l' (.find k)) := by
  by_cases hk' : k ∈ l'
  · have hnodup : (touch l' k).Nodup :=
      List.nodup_cons.mpr ⟨h.nodup.not_mem_erase, h.nodup.erase k⟩
    have hlarge := length_touch l' k hk'
    have := h.extra
    by_cases hk : k ∈ l
    · have hsmall := length_touch l k hk
      simp only [step, hk, hk', if_true]
      exact ⟨touch_sublist l l' k h.sublist, by omega, hnodup,
        by have := h.small; omega, by have := h.large; omega⟩
    · simp only [step, hk, hk', if_true, if_false]
      refine ⟨?_, by omega, hnodup, h.small, by have := h.large; omega⟩
      have herase := h.sublist.erase k
      rw [List.erase_of_not_mem hk] at herase
      exact herase.cons k
  · have hk : k ∉ l := fun hk => hk' (h.sublist.subset hk)
    simpa only [step, hk, hk', if_false] using h

private theorem nodup_insert (c : ℕ) {l : List K} (k : K) (h : l.Nodup) (hk : k ∉ l) :
    (insert c l k).Nodup := by
  unfold insert
  split
  · exact List.nodup_cons.mpr ⟨fun hm => hk (List.mem_of_mem_dropLast hm), h.sublist
      (List.dropLast_sublist l)⟩
  · exact List.nodup_cons.mpr ⟨hk, h⟩

private theorem dropLast_sublist_dropLast {l l' : List K} (h : l.Sublist l') :
    l.dropLast.Sublist l'.dropLast := by
  have := (h.reverse.tail).reverse
  simpa only [List.tail_reverse, List.reverse_reverse] using this

/-- The key is new to both lists. If the large one evicts then the small one
is full and evicts too, so what is dropped from the large list is not kept. -/
private theorem Includes.insert_both {c c' : ℕ} {l l' : List K} (h : Includes c c' l l')
    (hc : 1 ≤ c) (hcc : c ≤ c') (k : K) (hk : k ∉ l') :
    Includes c c' (insert c l k) (insert c' l' k) := by
  have hext := h.extra
  have hsmall := h.small
  have hlarge := h.large
  refine ⟨?_, ?_, nodup_insert c' k h.nodup hk, length_insert c l k hc h.small,
    length_insert c' l' k (by omega) h.large⟩
  · unfold insert
    by_cases hfull' : c' ≤ l'.length
    · have hfull : c ≤ l.length := by omega
      simp only [hfull, hfull', if_true]
      exact (dropLast_sublist_dropLast h.sublist).cons_cons k
    · simp only [hfull', if_false]
      split
      · exact ((List.dropLast_sublist l).trans h.sublist).cons_cons k
      · exact h.sublist.cons_cons k
  · unfold insert
    by_cases hfull' : c' ≤ l'.length
    · have hfull : c ≤ l.length := by omega
      simp only [hfull, hfull', if_true, List.length_cons, List.length_dropLast]
      omega
    · simp only [hfull', if_false]
      split
      · simp only [List.length_cons, List.length_dropLast]
        omega
      · simp only [List.length_cons]
        omega

/-- The key is new to the small list and an extra of the large one. -/
private theorem Includes.insert_small [BEq K] [LawfulBEq K] {c c' : ℕ} {l l' : List K}
    (h : Includes c c' l l') (hc : 1 ≤ c) (k : K) (hk : k ∉ l) (hk' : k ∈ l') :
    Includes c c' (insert c l k) (touch l' k) := by
  have hext := h.extra
  have hsmall := h.small
  have hlarge := h.large
  have hlen := length_touch l' k hk'
  have hnodup : (touch l' k).Nodup :=
    List.nodup_cons.mpr ⟨h.nodup.not_mem_erase, h.nodup.erase k⟩
  have herase : l.Sublist (l'.erase k) := by
    simpa only [List.erase_of_not_mem hk] using h.sublist.erase k
  refine ⟨?_, ?_, hnodup, length_insert c l k hc h.small, by omega⟩
  · unfold insert touch
    split
    · exact ((List.dropLast_sublist l).trans herase).cons_cons k
    · exact herase.cons_cons k
  · have hlt := herase.length_le
    unfold insert
    split
    · simp only [List.length_cons, List.length_dropLast]
      omega
    · simp only [List.length_cons]
      omega

theorem Includes.add [BEq K] [LawfulBEq K] {c c' : ℕ} {l l' : List K} (h : Includes c c' l l')
    (hc : 1 ≤ c) (hcc : c ≤ c') (k : K) :
    Includes c c' (step c l (.add k)) (step c' l' (.add k)) := by
  by_cases hk' : k ∈ l'
  · by_cases hk : k ∈ l
    · have htouch := h.find k
      simpa only [step, hk, hk', if_true] using htouch
    · simp only [step, hk, hk', if_true, if_false]
      exact h.insert_small hc k hk hk'
  · have hk : k ∉ l := fun hk => hk' (h.sublist.subset hk)
    simp only [step, hk, hk', if_false]
    exact h.insert_both hc hcc k hk'

theorem Includes.remove [BEq K] [LawfulBEq K] {c c' : ℕ} {l l' : List K}
    (h : Includes c c' l l') (k : K) :
    Includes c c' (step c l (.remove k)) (step c' l' (.remove k)) := by
  have hlen : (l'.erase k).length + c ≤ (l.erase k).length + c' := by
    have hext := h.extra
    by_cases hk' : k ∈ l'
    · have := length_erase_large (l := l) k hk'
      omega
    · have hk : k ∉ l := fun hk => hk' (h.sublist.subset hk)
      simpa only [List.erase_of_not_mem hk, List.erase_of_not_mem hk'] using hext
  exact ⟨h.sublist.erase k, hlen, h.nodup.erase k,
    le_trans List.length_erase_le h.small, le_trans List.length_erase_le h.large⟩

theorem Includes.step [BEq K] [LawfulBEq K] {c c' : ℕ} {l l' : List K} (h : Includes c c' l l')
    (hc : 1 ≤ c) (hcc : c ≤ c') (a : Access K) :
    Includes c c' (RecencyList.step c l a) (RecencyList.step c' l' a) := by
  cases a with
  | find k => exact h.find k
  | add k => exact h.add hc hcc k
  | remove k => exact h.remove k

theorem includes_nil {c c' : ℕ} (hcc : c ≤ c') : Includes c c' ([] : List K) [] :=
  ⟨List.Sublist.refl _, by simpa using hcc, List.nodup_nil, by simp, by simp⟩

end Inclusion

section Order

open RefCache

/-- The list holds the residents in strictly decreasing order of last touch. -/
structure Orders (l : List K) (r : RefCache K) : Prop where
  mem_iff : ∀ k, k ∈ l ↔ k ∈ r.resident
  decreasing : l.Pairwise (fun j k => r.lastTouch k < r.lastTouch j)
  past : ∀ k ∈ l, r.lastTouch k < r.clock

theorem Orders.nodup {l : List K} {r : RefCache K} (h : Orders l r) : l.Nodup :=
  h.decreasing.imp (fun hlt heq => by subst heq; exact lt_irrefl _ hlt)

theorem Orders.card [DecidableEq K] {l : List K} {r : RefCache K} (h : Orders l r) :
    r.resident.card = l.length := by
  have hset : l.toFinset = r.resident := by
    ext k
    rw [List.mem_toFinset, h.mem_iff]
  rw [← hset, List.toFinset_card_of_nodup h.nodup]

theorem Orders.tick {l : List K} {r : RefCache K} (h : Orders l r) : Orders l r.tick :=
  ⟨h.mem_iff, h.decreasing, fun k hk => Nat.lt_succ_of_lt (h.past k hk)⟩

theorem Orders.erase [BEq K] [LawfulBEq K] [DecidableEq K] {l : List K} {r : RefCache K}
    (h : Orders l r) (k : K) :
    Orders (l.erase k) { r with resident := r.resident.erase k } where
  mem_iff j := by
    rw [h.nodup.mem_erase_iff, Finset.mem_erase, h.mem_iff]
  decreasing := h.decreasing.sublist List.erase_sublist
  past j hj := h.past j (List.mem_of_mem_erase hj)

/-- A key that is stamped with the current time goes in front of a list that
does not hold it. -/
private theorem Orders.stamp [DecidableEq K] {l : List K} {r : RefCache K} (h : Orders l r) (k : K)
    (hk : k ∉ l) (t : K → ℕ) :
    Orders (k :: l) (RefCache.tick { r with
      resident := Insert.insert k r.resident
      touches := t
      lastTouch := Function.update r.lastTouch k r.clock }) := by
  have hne : ∀ j ∈ l, j ≠ k := fun j hj heq => hk (heq ▸ hj)
  refine ⟨?_, ?_, ?_⟩
  · intro j
    simp only [RefCache.tick, List.mem_cons, Finset.mem_insert, h.mem_iff]
  · refine List.pairwise_cons.mpr ⟨?_, ?_⟩
    · intro j hj
      simpa only [RefCache.tick, Function.update_self, Function.update_of_ne (hne j hj)]
        using h.past j hj
    · refine h.decreasing.imp_of_mem ?_
      intro i j hi hj hij
      simpa only [RefCache.tick, Function.update_of_ne (hne i hi),
        Function.update_of_ne (hne j hj)] using hij
  · intro j hj
    simp only [RefCache.tick]
    rcases List.mem_cons.mp hj with rfl | hjl
    · simp
    · rw [Function.update_of_ne (hne j hjl)]
      exact Nat.lt_succ_of_lt (h.past j hjl)

theorem Orders.touch [BEq K] [LawfulBEq K] [DecidableEq K] {l : List K} {r : RefCache K}
    (h : Orders l r) (k : K) (hk : k ∈ l) :
    Orders (RecencyList.touch l k) (r.touch k).tick := by
  have hback : Insert.insert k (r.resident.erase k) = r.resident :=
    Finset.insert_erase ((h.mem_iff k).mp hk)
  have hstamp := (h.erase k).stamp k h.nodup.not_mem_erase
    (Function.update r.touches k (r.touches k + 1))
  simp only [hback] at hstamp
  exact hstamp

/-- The last key of the list is the resident touched longest ago. -/
theorem Orders.last_isVictim {l : List K} {r : RefCache K} {v : K}
    (h : Orders (l ++ [v]) r) : r.IsVictim lruRank v where
  resident := (h.mem_iff v).mp (by simp)
  least k hk hkv := by
    have hmem : k ∈ l := by
      have := (h.mem_iff k).mpr hk
      simpa [hkv] using this
    exact (List.pairwise_append.mp h.decreasing).2.2 k hmem v (List.mem_singleton.mpr rfl)

theorem Orders.evict [DecidableEq K] {l : List K} {r : RefCache K} (h : Orders l r)
    (hne : l ≠ []) :
    Orders l.dropLast (r.evict lruRank) := by
  obtain ⟨l', v, rfl⟩ := List.eq_nil_or_concat l |>.resolve_left hne
  rw [List.concat_eq_append] at h ⊢
  have hnodup := h.nodup
  have hv : v ∉ l' := by
    intro hv
    exact (List.disjoint_of_nodup_append hnodup) hv (List.mem_singleton.mpr rfl)
  have herase := h.erase v
  rw [List.erase_append_right _ hv] at herase
  simp only [List.erase_cons_head, List.append_nil] at herase
  rw [List.dropLast_concat]
  refine ⟨?_, herase.decreasing, herase.past⟩
  intro k
  rw [herase.mem_iff, RefCache.evict_resident _ _ v h.last_isVictim]

theorem Orders.step [BEq K] [LawfulBEq K] [DecidableEq K] {l : List K} {r : RefCache K}
    (h : Orders l r) (c : ℕ) (hc : 1 ≤ c) (a : Access K) :
    Orders (RecencyList.step c l a) (r.step lruRank c a) := by
  cases a with
  | find k =>
    by_cases hk : k ∈ l
    · simpa only [RecencyList.step, RefCache.step, hk, (h.mem_iff k).mp hk, if_true]
        using h.touch k hk
    · simpa only [RecencyList.step, RefCache.step, hk, mt (h.mem_iff k).mpr hk, if_false]
        using h.tick
  | add k =>
    by_cases hk : k ∈ l
    · simpa only [RecencyList.step, RefCache.step, hk, (h.mem_iff k).mp hk, if_true]
        using h.touch k hk
    · simp only [RecencyList.step, RefCache.step, hk, mt (h.mem_iff k).mpr hk, if_false,
        RecencyList.insert, h.card]
      split
      · rename_i hfull
        have hne : l ≠ [] := by
          rintro rfl
          simp at hfull
          omega
        exact (h.evict hne).stamp k (fun hm => hk (List.mem_of_mem_dropLast hm)) _
      · exact h.stamp k hk _
  | remove k => exact (h.erase k).tick

theorem orders_empty : Orders ([] : List K) RefCache.empty :=
  ⟨by simp [RefCache.empty], List.Pairwise.nil, by simp⟩

end Order

end ProxyServer.RecencyList
