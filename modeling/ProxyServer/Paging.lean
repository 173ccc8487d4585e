import ProxyServer.RecencyList
import Mathlib.Data.Finset.Basic

/-!
Demand paging. A schedule serves each request with a cache of at most `h` keys, to
which nothing but the request is added; it may know all requests beforehand. The least
recently used cache of `c` keys is cut into phases, each of `c` different requests
besides the one before the phase. In a phase it has at most `c` faults, and the
schedule, which starts the phase with the request before it in the cache, has at
least `c + 1 - h`.
-/
namespace ProxyServer.Paging

variable {K : Type*} [DecidableEq K]

/-- The requests, each with the keys in the cache after it. -/
abbrev Schedule (K : Type*) := List (K × Finset K)

/-- The request is served within `h` keys. -/
structure Serves (h : ℕ) (C : Finset K) (k : K) (C' : Finset K) : Prop where
  served : k ∈ C'
  demand : C' ⊆ insert k C
  card_le : C'.card ≤ h

def Feasible (h : ℕ) : Finset K → Schedule K → Prop
  | _, [] => True
  | C, (k, C') :: rest => Serves h C k C' ∧ Feasible h C' rest

def fault (C : Finset K) (k : K) : ℕ := if k ∈ C then 0 else 1

/-- The faults of a schedule that starts with the keys `C`. -/
def faults : Finset K → Schedule K → ℕ
  | _, [] => 0
  | C, (k, C') :: rest => fault C k + faults C' rest

/-- The faults of the least recently used cache. -/
def lruFaults [BEq K] [LawfulBEq K] (c : ℕ) : List K → List K → ℕ
  | _, [] => 0
  | l, k :: ks => fault l.toFinset k + lruFaults c (RecencyList.step c l (.add k)) ks

section Recency

omit [DecidableEq K]
variable [BEq K] [LawfulBEq K] {c : ℕ} {l : List K}

theorem step_includes (hc : 1 ≤ c) (hl : l.Nodup) (hlen : l.length ≤ c) (k : K) :
    (RecencyList.step c l (.add k)).Nodup ∧ (RecencyList.step c l (.add k)).length ≤ c := by
  have hincludes : RecencyList.Includes c c l l :=
    ⟨List.Sublist.refl l, le_refl _, hl, hlen, hlen⟩
  have hstep := hincludes.step hc (le_refl c) (.add k)
  exact ⟨hstep.nodup, hstep.small⟩

theorem step_head (c : ℕ) (l : List K) (k : K) :
    ∃ back, RecencyList.step c l (.add k) = k :: back := by
  simp only [RecencyList.step]
  split
  · exact ⟨_, rfl⟩
  · exact ⟨_, rfl⟩

/-- A request from the front of the list leaves the front's keys there. -/
theorem step_of_mem {front back : List K} {k : K} (hk : k ∈ front) :
    RecencyList.step c (front ++ back) (.add k) = RecencyList.touch front k ++ back := by
  have hmem : k ∈ front ++ back := List.mem_append_left back hk
  simp only [RecencyList.step, if_pos hmem, RecencyList.touch]
  rw [List.erase_append_left _ hk]
  rfl

/-- A request from elsewhere goes before a front that is shorter than the cache. -/
theorem step_of_notMem {front : List K} (back : List K) {k : K} (hk : k ∉ front)
    (hlen : front.length < c) :
    ∃ back', RecencyList.step c (front ++ back) (.add k) = (k :: front) ++ back' ∧
      back' ⊆ back := by
  simp only [RecencyList.step]
  split
  · refine ⟨back.erase k, ?_, List.erase_subset⟩
    rw [RecencyList.touch, List.erase_append_right _ hk]
    rfl
  · rw [RecencyList.insert]
    split
    · next hfull =>
      have hback : back ≠ [] := by
        rintro rfl
        rw [List.append_nil] at hfull
        omega
      refine ⟨back.dropLast, ?_, List.dropLast_subset back⟩
      rw [List.dropLast_append_of_ne_nil hback]
      rfl
    · exact ⟨back, rfl, List.Subset.refl back⟩

/-- Different requests fill an empty part of the cache. -/
theorem foldl_fresh (c : ℕ) (ks : List K) : ∀ {l : List K}, (ks.reverse ++ l).Nodup →
    (ks.reverse ++ l).length ≤ c →
    ks.foldl (fun l k => RecencyList.step c l (.add k)) l = ks.reverse ++ l := by
  induction ks with
  | nil => exact fun _ _ => rfl
  | cons k ks ih =>
    intro l hnodup hlen
    rw [List.reverse_cons, List.append_assoc] at hnodup hlen ⊢
    have hfresh : k ∉ l := (List.nodup_cons.mp hnodup.of_append_right).1
    have hroom : ¬ c ≤ l.length := by
      simp only [List.length_append, List.length_cons, List.length_nil] at hlen
      omega
    have hstep : RecencyList.step c l (.add k) = k :: l := by
      simp only [RecencyList.step, if_neg hfresh, RecencyList.insert, if_neg hroom]
    rw [List.foldl_cons, hstep]
    exact ih hnodup hlen

end Recency

/-- A phase after the request `p`: so far the keys `E` were requested besides `p`, the
least recently used cache had `a` faults and the schedule, which had `S` at the start,
`b`. -/
structure Phase (c h : ℕ) (l : List K) (C : Finset K) (p : K) (E S : Finset K) (a b : ℕ) :
    Prop where
  nodup : l.Nodup
  length_le : l.length ≤ c
  front : ∃ front back, l = front ++ back ∧ front.toFinset = insert p E
  fresh : p ∉ E
  start : p ∈ S
  card_le : S.card ≤ h
  cached : C ⊆ S ∪ insert p E
  card_lt : E.card < c
  lru : a ≤ E.card
  schedule : (E \ S).card ≤ b

namespace Phase

variable {c h : ℕ} {l : List K} {C C' : Finset K} {p k : K} {E S : Finset K} {a b : ℕ}

theorem length_front (hphase : Phase c h l C p E S a b) {front back : List K}
    (hl : l = front ++ back) (hfront : front.toFinset = insert p E) :
    front.length = E.card + 1 := by
  have hnodup : front.Nodup := (hl ▸ hphase.nodup).of_append_left
  rw [← List.toFinset_card_of_nodup hnodup, hfront, Finset.card_insert_of_notMem hphase.fresh]

/-- What the schedule has not had since the start of the phase is a fault. -/
theorem schedule_insert (hphase : Phase c h l C p E S a b) (hk : k ∉ insert p E) :
    (insert k E \ S).card ≤ b + fault C k := by
  by_cases hS : k ∈ S
  · rw [Finset.insert_sdiff_of_mem E hS]
    exact hphase.schedule.trans (Nat.le_add_right b _)
  · have hC : k ∉ C := by
      intro hC
      rcases Finset.mem_union.mp (hphase.cached hC) with h | h
      · exact hS h
      · exact hk h
    have hfault : fault C k = 1 := if_neg hC
    rw [hfault, Finset.insert_sdiff_of_notMem E hS]
    exact (Finset.card_insert_le _ _).trans (Nat.succ_le_succ hphase.schedule)

theorem lru_insert (hphase : Phase c h l C p E S a b) (hk : k ∉ insert p E) :
    a + fault l.toFinset k ≤ (insert k E).card := by
  have hE : k ∉ E := fun hE => hk (Finset.mem_insert_of_mem hE)
  have hfault : fault l.toFinset k ≤ 1 := by
    unfold fault
    split <;> omega
  have := hphase.lru
  rw [Finset.card_insert_of_notMem hE]
  omega

/-- The schedule had the request before the phase, and room for `h - 1` others. -/
theorem le_schedule (hphase : Phase c h l C p E S a b) {F : Finset K} (hp : p ∉ F) :
    F.card + 1 ≤ (F \ S).card + h := by
  have hinter : (F ∩ S).card + 1 ≤ S.card := by
    rw [← Finset.card_insert_of_notMem (a := p) (by simp [hp])]
    exact Finset.card_le_card (Finset.insert_subset hphase.start Finset.inter_subset_right)
  have hsplit := Finset.card_sdiff_add_card_inter F S
  have := hphase.card_le
  omega

section Run
variable [BEq K] [LawfulBEq K]

theorem begins (hc : 1 ≤ c) (hl : l.Nodup) (hlen : l.length ≤ c) (hserves : Serves h C k C') :
    Phase c h (RecencyList.step c l (.add k)) C' k ∅ C' 0 0 := by
  obtain ⟨hnodup, hlength⟩ := step_includes hc hl hlen k
  obtain ⟨back, hback⟩ := step_head c l k
  refine ⟨hnodup, hlength, ⟨[k], back, hback, rfl⟩, Finset.notMem_empty k, hserves.served,
    hserves.card_le, Finset.subset_union_left, ?_, le_refl 0, ?_⟩
  · rw [Finset.card_empty]
    exact hc
  · rw [Finset.empty_sdiff, Finset.card_empty]

theorem again (hphase : Phase c h l C p E S a b) (hserves : Serves h C k C')
    (hk : k ∈ insert p E) :
    Phase c h (RecencyList.step c l (.add k)) C' p E S (a + fault l.toFinset k)
      (b + fault C k) := by
  obtain ⟨front, back, rfl, hfront⟩ := hphase.front
  have hc : 1 ≤ c := by
    have := hphase.card_lt
    omega
  have hmem : k ∈ front := by
    rw [← List.mem_toFinset, hfront]
    exact hk
  obtain ⟨hnodup, hlength⟩ := step_includes hc hphase.nodup hphase.length_le k
  refine ⟨hnodup, hlength, ⟨RecencyList.touch front k, back, step_of_mem hmem, ?_⟩,
    hphase.fresh, hphase.start, hphase.card_le, ?_, hphase.card_lt, ?_, ?_⟩
  · have hfrontNodup : front.Nodup := hphase.nodup.of_append_left
    rw [RecencyList.touch, List.toFinset_cons, ← hfront]
    ext j
    rw [Finset.mem_insert, List.mem_toFinset, List.mem_toFinset, hfrontNodup.mem_erase_iff]
    by_cases hj : j = k
    · simp [hj, hmem]
    · simp [hj]
  · intro j hj
    rcases Finset.mem_insert.mp (hserves.demand hj) with rfl | hjC
    · exact Finset.mem_union_right S hk
    · exact hphase.cached hjC
  · have hhit : fault (front ++ back).toFinset k = 0 :=
      if_pos (List.mem_toFinset.mpr (List.mem_append_left back hmem))
    rw [hhit]
    exact hphase.lru
  · exact hphase.schedule.trans (Nat.le_add_right b _)

theorem grows (hphase : Phase c h l C p E S a b) (hserves : Serves h C k C')
    (hk : k ∉ insert p E) (hcard : (insert k E).card < c) :
    Phase c h (RecencyList.step c l (.add k)) C' p (insert k E) S (a + fault l.toFinset k)
      (b + fault C k) := by
  obtain ⟨front, back, hl, hfront⟩ := hphase.front
  have hlength := hphase.length_front hl hfront
  have hE : k ∉ E := fun hE => hk (Finset.mem_insert_of_mem hE)
  have hkp : p ≠ k := fun heq => hk (heq ▸ Finset.mem_insert_self p E)
  have hroom : front.length < c := by
    rw [Finset.card_insert_of_notMem hE] at hcard
    omega
  have hnot : k ∉ front := by
    rw [← List.mem_toFinset, hfront]
    exact hk
  obtain ⟨hnodup, hlen⟩ := step_includes (by omega) hphase.nodup hphase.length_le k
  obtain ⟨back', hstep, _⟩ := step_of_notMem back hnot hroom
  rw [← hl] at hstep
  refine ⟨hnodup, hlen, ⟨k :: front, back', hstep, ?_⟩, ?_, hphase.start, hphase.card_le, ?_,
    hcard, hphase.lru_insert hk, hphase.schedule_insert hk⟩
  · rw [List.toFinset_cons, hfront, Finset.insert_comm]
  · rw [Finset.mem_insert, not_or]
    exact ⟨hkp, hphase.fresh⟩
  · intro j hj
    rcases Finset.mem_insert.mp (hserves.demand hj) with rfl | hjC
    · exact Finset.mem_union_right S (Finset.mem_insert_of_mem (Finset.mem_insert_self j E))
    · rcases Finset.mem_union.mp (hphase.cached hjC) with hS | hp
      · exact Finset.mem_union_left _ hS
      · exact Finset.mem_union_right S
          (Finset.insert_subset_insert p (Finset.subset_insert k E) hp)

/-- The phase goes on, or it is over and the next one begins. -/
theorem step (hphase : Phase c h l C p E S a b) (hserves : Serves h C k C') :
    (∃ E', Phase c h (RecencyList.step c l (.add k)) C' p E' S (a + fault l.toFinset k)
      (b + fault C k)) ∨
    (a + fault l.toFinset k ≤ c ∧ c + 1 ≤ b + fault C k + h ∧
      Phase c h (RecencyList.step c l (.add k)) C' k ∅ C' 0 0) := by
  by_cases hk : k ∈ insert p E
  · exact Or.inl ⟨E, hphase.again hserves hk⟩
  · by_cases hcard : (insert k E).card < c
    · exact Or.inl ⟨insert k E, hphase.grows hserves hk hcard⟩
    · right
      have hE : k ∉ E := fun hE => hk (Finset.mem_insert_of_mem hE)
      have hkp : p ≠ k := fun heq => hk (heq ▸ Finset.mem_insert_self p E)
      have hfull : (insert k E).card = c := by
        have := hphase.card_lt
        rw [Finset.card_insert_of_notMem hE] at hcard ⊢
        omega
      have hlru := hphase.lru_insert hk
      have hschedule := hphase.schedule_insert hk
      have hfew := hphase.le_schedule (F := insert k E) (by simp [hkp, hphase.fresh])
      have hlt := hphase.card_lt
      refine ⟨by omega, by omega, begins (by omega) hphase.nodup hphase.length_le hserves⟩

/-- The faults of the rest of the requests, with those of the phase so far. -/
theorem run (schedule : Schedule K) :
    ∀ {l : List K} {C : Finset K} {p : K} {E S : Finset K} {a b : ℕ}, Phase c h l C p E S a b →
      Feasible h C schedule →
      (c + 1 - h) * (a + lruFaults c l (schedule.map Prod.fst)) ≤
        c * (b + faults C schedule) + (c + 1 - h) * (c - 1) := by
  induction schedule with
  | nil =>
    intro l C p E S a b hphase _
    have hlt : a ≤ c - 1 := by
      have := hphase.lru
      have := hphase.card_lt
      omega
    calc (c + 1 - h) * (a + 0) ≤ (c + 1 - h) * (c - 1) := Nat.mul_le_mul_left _ hlt
      _ ≤ c * (b + 0) + (c + 1 - h) * (c - 1) := Nat.le_add_left _ _
  | cons request schedule ih =>
    obtain ⟨k, C'⟩ := request
    rintro l C p E S a b hphase ⟨hserves, hrest⟩
    rw [List.map_cons, lruFaults, faults, ← Nat.add_assoc, ← Nat.add_assoc]
    rcases hphase.step hserves with ⟨E', hnext⟩ | ⟨hlru, hschedule, hnext⟩
    · exact ih hnext hrest
    · have hafter := ih hnext hrest
      rw [Nat.zero_add, Nat.zero_add] at hafter
      calc (c + 1 - h) * (a + fault l.toFinset k +
            lruFaults c (RecencyList.step c l (.add k)) (schedule.map Prod.fst))
          = (c + 1 - h) * (a + fault l.toFinset k) + (c + 1 - h) *
            lruFaults c (RecencyList.step c l (.add k)) (schedule.map Prod.fst) :=
          Nat.mul_add _ _ _
        _ ≤ (b + fault C k) * c + (c * faults C' schedule + (c + 1 - h) * (c - 1)) :=
          Nat.add_le_add (Nat.mul_le_mul (by omega) hlru) hafter
        _ = c * (b + fault C k + faults C' schedule) + (c + 1 - h) * (c - 1) := by
          rw [Nat.mul_add, Nat.mul_comm c (b + fault C k), Nat.add_assoc]

end Run

end Phase

/-- The least recently used cache of `c` keys has no more than `c / (c + 1 - h)` times
the faults of any schedule with `h` keys, and `c` more. -/
theorem lru_le [BEq K] [LawfulBEq K] {c h : ℕ} (hc : 1 ≤ c) {l : List K} (hl : l.Nodup)
    (hlen : l.length ≤ c) {C : Finset K} {schedule : Schedule K}
    (hfeasible : Feasible h C schedule) :
    (c + 1 - h) * lruFaults c l (schedule.map Prod.fst) ≤
      c * faults C schedule + (c + 1 - h) * c := by
  cases schedule with
  | nil => exact Nat.zero_le _
  | cons request schedule =>
    obtain ⟨k, C'⟩ := request
    have hrun := (Phase.begins hc hl hlen hfeasible.1).run schedule hfeasible.2
    rw [Nat.zero_add, Nat.zero_add] at hrun
    have hfault : fault l.toFinset k ≤ 1 := by
      unfold fault
      split <;> omega
    rw [List.map_cons, lruFaults, faults]
    calc (c + 1 - h) * (fault l.toFinset k +
          lruFaults c (RecencyList.step c l (.add k)) (schedule.map Prod.fst))
        ≤ (c + 1 - h) * 1 + (c * faults C' schedule + (c + 1 - h) * (c - 1)) := by
          rw [Nat.mul_add]
          exact Nat.add_le_add (Nat.mul_le_mul_left _ hfault) hrun
      _ = c * faults C' schedule + (c + 1 - h) * (1 + (c - 1)) := by
          rw [Nat.mul_add]
          omega
      _ ≤ c * (fault C k + faults C' schedule) + (c + 1 - h) * c := by
          rw [Nat.add_sub_cancel' hc]
          exact Nat.add_le_add_right (Nat.mul_le_mul_left c (Nat.le_add_left _ _)) _

section Few
variable [BEq K] [LawfulBEq K]

theorem lruFaults_append (c : ℕ) (ks js : List K) : ∀ l : List K,
    lruFaults c l (ks ++ js) = lruFaults c l ks +
      lruFaults c (ks.foldl (fun l k => RecencyList.step c l (.add k)) l) js := by
  induction ks with
  | nil => exact fun l => (Nat.zero_add _).symm
  | cons k ks ih =>
    intro l
    rw [List.cons_append, lruFaults, lruFaults, ih, List.foldl_cons, Nat.add_assoc]

/-- Requests that fit into the cache with the front of the list, and are not behind it,
have one fault for each key that is new. -/
theorem lruFaults_of_few {c : ℕ} (ks : List K) : ∀ (front back : List K),
    (front ++ back).Nodup → (front ++ back).length ≤ c → (∀ k ∈ ks, k ∉ back) →
    (ks.toFinset ∪ front.toFinset).card ≤ c →
    lruFaults c (front ++ back) ks = (ks.toFinset \ front.toFinset).card := by
  induction ks with
  | nil =>
    intro front back _ _ _ _
    simp [lruFaults]
  | cons k ks ih =>
    intro front back hnodup hlen hback hfew
    have hkback : k ∉ back := hback k List.mem_cons_self
    have hrest : ∀ j ∈ ks, j ∉ back := fun j hj => hback j (List.mem_cons_of_mem k hj)
    rw [List.toFinset_cons, Finset.insert_union] at hfew
    rw [lruFaults, List.toFinset_cons]
    by_cases hk : k ∈ front
    · have hmem : k ∈ front.toFinset := List.mem_toFinset.mpr hk
      have htouch : (RecencyList.touch front k).toFinset = front.toFinset := by
        ext j
        by_cases hj : j = k
        · simp [RecencyList.touch, hj, hk]
        · simp [RecencyList.touch, hj, List.mem_erase_of_ne]
      have hfault : fault (front ++ back).toFinset k = 0 :=
        if_pos (List.mem_toFinset.mpr (List.mem_append_left back hk))
      have hc : 1 ≤ c := by
        have := List.length_pos_of_mem (List.mem_append_left back hk)
        omega
      obtain ⟨hnodup', hlen'⟩ := step_includes hc hnodup hlen k
      rw [Finset.insert_eq_of_mem (Finset.mem_union_right _ hmem)] at hfew
      rw [step_of_mem hk] at hnodup' hlen' ⊢
      rw [hfault, ih _ _ hnodup' hlen' hrest (htouch.symm ▸ hfew), htouch,
        Finset.insert_sdiff_of_mem _ hmem, Nat.zero_add]
    · have hnot : k ∉ front.toFinset := mt List.mem_toFinset.mp hk
      have hfault : fault (front ++ back).toFinset k = 1 := by
        refine if_neg ?_
        rw [List.mem_toFinset, List.mem_append, not_or]
        exact ⟨hk, hkback⟩
      have hroom : front.length < c := by
        have hsub : insert k front.toFinset ⊆ insert k (ks.toFinset ∪ front.toFinset) :=
          Finset.insert_subset_insert k Finset.subset_union_right
        have hle := (Finset.card_le_card hsub).trans hfew
        rw [Finset.card_insert_of_notMem hnot,
          List.toFinset_card_of_nodup hnodup.of_append_left] at hle
        exact hle
      obtain ⟨back', hstep, hsub⟩ := step_of_notMem back hk hroom
      obtain ⟨hnodup', hlen'⟩ := step_includes (by omega) hnodup hlen k
      rw [hstep] at hnodup' hlen' ⊢
      rw [hfault, ih _ _ hnodup' hlen' (fun j hj hin => hrest j hj (hsub hin))
        (by rwa [List.toFinset_cons, Finset.union_insert]), List.toFinset_cons,
        Finset.insert_sdiff_of_notMem _ hnot, Finset.sdiff_insert]
      by_cases hlater : k ∈ ks.toFinset \ front.toFinset
      · rw [Finset.insert_eq_of_mem hlater, Nat.add_comm, Finset.card_erase_add_one hlater]
      · rw [Finset.erase_eq_of_notMem hlater, Finset.card_insert_of_notMem hlater, Nat.add_comm]

end Few

end ProxyServer.Paging
