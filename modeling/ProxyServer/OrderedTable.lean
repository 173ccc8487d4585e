import Mathlib.Data.List.Dedup
import Mathlib.Data.List.Induction

/-!
Tables of keys and values in the order in which their keys were last set, over
any types. Setting a key drops its older entry and puts the new one last, so a
sequence of sets leaves, for each key, its last value, in the order of the last
sets. A sequence that sets every entry of such a table, each followed only by
keys that are set again later, leaves the table itself. With removals between
the sets, the table holds the sets that no later operation on their key follows.
-/
namespace ProxyServer.OrderedTable

variable {K V : Type*} [DecidableEq K]

def keys (t : List (K × V)) : List K := t.map Prod.fst

def set (t : List (K × V)) (k : K) (v : V) : List (K × V) :=
  t.filter (fun e => e.1 ≠ k) ++ [(k, v)]

def setAll (t sets : List (K × V)) : List (K × V) :=
  sets.foldl (fun t e => set t e.1 e.2) t

def ofSets (sets : List (K × V)) : List (K × V) := setAll [] sets

omit [DecidableEq K] in
@[simp] theorem keys_cons (e : K × V) (t : List (K × V)) : keys (e :: t) = e.1 :: keys t := rfl

omit [DecidableEq K] in
@[simp] theorem keys_append (s t : List (K × V)) : keys (s ++ t) = keys s ++ keys t :=
  List.map_append ..

omit [DecidableEq K] in
theorem mem_keys_of_mem {t : List (K × V)} {e : K × V} (h : e ∈ t) : e.1 ∈ keys t :=
  List.mem_map_of_mem h

theorem keys_set (t : List (K × V)) (k : K) (v : V) :
    keys (set t k v) = (keys t).filter (· ≠ k) ++ [k] := by
  rw [set, keys_append]
  congr 1
  rw [keys, keys, List.filter_map]
  rfl

theorem nodup_set {t : List (K × V)} (h : (keys t).Nodup) (k : K) (v : V) :
    (keys (set t k v)).Nodup := by
  rw [keys_set, List.nodup_append]
  refine ⟨h.filter _, List.nodup_singleton k, ?_⟩
  intro x hx y hy
  rw [List.mem_singleton.mp hy]
  simpa using (List.mem_filter.mp hx).2

theorem nodup_setAll (sets : List (K × V)) :
    ∀ {t : List (K × V)}, (keys t).Nodup → (keys (setAll t sets)).Nodup := by
  induction sets with
  | nil => exact fun h => h
  | cons e sets ih => exact fun h => ih (nodup_set h e.1 e.2)

theorem nodup_ofSets (sets : List (K × V)) : (keys (ofSets sets)).Nodup :=
  nodup_setAll sets List.nodup_nil

theorem setAll_append (t s s' : List (K × V)) :
    setAll t (s ++ s') = setAll (setAll t s) s' :=
  List.foldl_append

/-- The entries whose keys are set again go; those of the sequence come last. -/
theorem setAll_eq (sets : List (K × V)) :
    ∀ t, setAll t sets = t.filter (fun e => e.1 ∉ keys sets) ++ ofSets sets := by
  induction sets with
  | nil =>
    intro t
    simp [setAll, ofSets, keys]
  | cons e sets ih =>
    intro t
    have hcons : ∀ t, setAll t (e :: sets) = setAll (set t e.1 e.2) sets := fun _ => rfl
    have hofSets : ofSets (e :: sets) = setAll (set [] e.1 e.2) sets := rfl
    rw [hcons, hofSets, ih, ih (set [] e.1 e.2), set, set]
    simp only [List.filter_append, List.filter_filter, List.filter_nil, List.nil_append,
      List.append_assoc]
    congr 1
    apply List.filter_congr
    intro x _
    simp only [keys_cons, List.mem_cons, not_or, decide_not, Bool.decide_and]
    rw [Bool.and_comm]

theorem ofSets_append (s t : List (K × V)) :
    ofSets (s ++ t) = (ofSets s).filter (fun e => e.1 ∉ keys t) ++ ofSets t := by
  rw [ofSets, setAll_append, setAll_eq]
  rfl

/-- An entry stays when its key is not set again. -/
theorem ofSets_cons (e : K × V) (sets : List (K × V)) :
    ofSets (e :: sets) = if e.1 ∈ keys sets then ofSets sets else e :: ofSets sets := by
  have happend := ofSets_append [e] sets
  rw [List.singleton_append] at happend
  rw [happend]
  have hone : ofSets [e] = [e] := rfl
  rw [hone]
  by_cases he : e.1 ∈ keys sets
  · simp [he]
  · simp [he]

theorem ofSets_sublist (sets : List (K × V)) : (ofSets sets).Sublist sets := by
  induction sets with
  | nil => exact List.Sublist.slnil
  | cons e sets ih =>
    rw [ofSets_cons]
    split
    · exact ih.cons e
    · exact ih.cons_cons e

theorem keys_ofSets (sets : List (K × V)) : keys (ofSets sets) = (keys sets).dedup := by
  induction sets with
  | nil => rfl
  | cons e sets ih =>
    rw [ofSets_cons, keys_cons]
    by_cases he : e.1 ∈ keys sets
    · rw [if_pos he, List.dedup_cons_of_mem he, ih]
    · rw [if_neg he, List.dedup_cons_of_notMem he, keys_cons, ih]

theorem mem_keys_ofSets {sets : List (K × V)} {k : K} :
    k ∈ keys (ofSets sets) ↔ k ∈ keys sets := by
  rw [keys_ofSets, List.mem_dedup]

/-- The value of a key is the one of its last set. -/
theorem mem_ofSets {sets : List (K × V)} {e : K × V} :
    e ∈ ofSets sets ↔ ∃ s t, sets = s ++ e :: t ∧ e.1 ∉ keys t := by
  induction sets with
  | nil => simp [ofSets, setAll]
  | cons x sets ih =>
    have hrest : (∃ s t, sets = s ++ e :: t ∧ e.1 ∉ keys t) →
        ∃ s t, x :: sets = s ++ e :: t ∧ e.1 ∉ keys t := by
      intro h
      obtain ⟨s, t, hst, ht⟩ := h
      exact ⟨x :: s, t, by rw [hst, List.cons_append], ht⟩
    rw [ofSets_cons]
    constructor
    · intro he
      split at he
      · exact hrest (ih.mp he)
      · rename_i hx
        rcases List.mem_cons.mp he with rfl | he
        · exact ⟨[], sets, rfl, hx⟩
        · exact hrest (ih.mp he)
    · intro h
      obtain ⟨s, t, hst, ht⟩ := h
      cases s with
      | nil =>
        cases hst
        rw [if_neg ht]
        exact List.mem_cons_self
      | cons y s =>
        have hst' : sets = s ++ e :: t := (List.cons.inj hst).2
        have he : e ∈ ofSets sets := ih.mpr ⟨s, t, hst', ht⟩
        split
        · exact he
        · exact List.mem_cons_of_mem _ he

section Last

/-- The entries whose key does not come again, in order. -/
def lastOfEach : List (K × V) → List (K × V)
  | [] => []
  | e :: t => if e.1 ∈ keys t then lastOfEach t else e :: lastOfEach t

theorem ofSets_eq_lastOfEach (sets : List (K × V)) : ofSets sets = lastOfEach sets := by
  induction sets with
  | nil => rfl
  | cons e sets ih => rw [ofSets_cons, lastOfEach, ih]

omit [DecidableEq K] in
theorem mem_keys_filter {p : K → Bool} {t : List (K × V)} {k : K} :
    k ∈ keys (t.filter (fun e => p e.1)) ↔ k ∈ keys t ∧ p k := by
  simp only [keys, List.mem_map, List.mem_filter]
  constructor
  · intro h
    obtain ⟨e, ⟨he, hp⟩, rfl⟩ := h
    exact ⟨⟨e, he, rfl⟩, hp⟩
  · intro h
    obtain ⟨⟨e, he, rfl⟩, hp⟩ := h
    exact ⟨e, ⟨he, hp⟩, rfl⟩

/-- Dropping keys and taking the last entries commute. -/
theorem lastOfEach_filter (p : K → Bool) (t : List (K × V)) :
    (lastOfEach t).filter (fun e => p e.1) = lastOfEach (t.filter (fun e => p e.1)) := by
  induction t with
  | nil => rfl
  | cons e t ih =>
    rw [lastOfEach, List.filter_cons]
    by_cases hp : p e.1
    · have hmem : e.1 ∈ keys (t.filter (fun e => p e.1)) ↔ e.1 ∈ keys t := by
        rw [mem_keys_filter, and_iff_left hp]
      rw [if_pos hp, lastOfEach]
      by_cases he : e.1 ∈ keys t
      · rw [if_pos he, if_pos (hmem.mpr he), ih]
      · rw [if_neg he, if_neg (mt hmem.mp he), List.filter_cons, if_pos hp, ih]
    · rw [if_neg hp, ← ih]
      split
      · rfl
      · rw [List.filter_cons, if_neg hp]

/-- Two sets of different keys at the end of a sequence. -/
theorem set_set_ofSets {k k' : K} (hne : k ≠ k') (v v' : V) (sets : List (K × V)) :
    set (set (ofSets sets) k v) k' v' =
      lastOfEach (sets.filter (fun e => e.1 ≠ k ∧ e.1 ≠ k')) ++ [(k, v), (k', v')] := by
  have hfilter := lastOfEach_filter (fun x => decide (x ≠ k ∧ x ≠ k')) sets
  rw [← hfilter, ofSets_eq_lastOfEach, set, set, List.filter_append, List.filter_filter,
    List.filter_cons, if_pos (by simpa using hne), List.append_assoc]
  congr 1
  apply List.filter_congr
  intro e _
  simp only [decide_not, Bool.decide_and]
  rw [Bool.and_comm]

end Last

section Chains

variable (next : K → Option K)

/-- Every key is followed, later in the sequence, by the key `next` gives. -/
def Linked : List (K × V) → Prop
  | [] => True
  | e :: sets => (∀ k, next e.1 = some k → k ∈ keys sets) ∧ Linked sets

theorem Linked.ofSets {sets : List (K × V)} (h : Linked next sets) :
    Linked next (OrderedTable.ofSets sets) := by
  induction sets with
  | nil => trivial
  | cons e sets ih =>
    rw [ofSets_cons]
    split
    · exact ih h.2
    · refine ⟨?_, ih h.2⟩
      intro k hk
      exact mem_keys_ofSets.mpr (h.1 k hk)

end Chains

/-- Sets that come before sets of the same keys leave no trace. -/
theorem ofSets_append_of_subset {s t : List (K × V)} (h : ∀ e ∈ s, e.1 ∈ keys t) :
    ofSets (s ++ t) = ofSets t := by
  rw [ofSets_append, List.filter_eq_nil_iff.mpr, List.nil_append]
  intro e he
  have hs : e.1 ∈ keys s := mem_keys_ofSets.mp (mem_keys_of_mem he)
  obtain ⟨x, hx, hxe⟩ := List.mem_map.mp hs
  simpa [hxe] using h x hx

/-- Setting every entry of a table, each with keys after it that later entries
set again, leaves the table. -/
theorem ofSets_flatMap (f : K × V → List (K × V)) {t : List (K × V)} (hnodup : (keys t).Nodup)
    (hf : ∀ s e r, t = s ++ e :: r → ∀ x ∈ f e, x.1 ∈ keys r) :
    ofSets (t.flatMap (fun e => e :: f e)) = t := by
  induction t with
  | nil => rfl
  | cons e t ih =>
    rw [keys_cons, List.nodup_cons] at hnodup
    have hrest := ih hnodup.2 (fun s e' r hst => hf (e :: s) e' r (by rw [hst, List.cons_append]))
    have hkeys : ∀ k, k ∈ keys (t.flatMap (fun e => e :: f e)) ↔ k ∈ keys t := by
      intro k
      rw [← mem_keys_ofSets, hrest]
    have hfe : ∀ x ∈ f e, x.1 ∈ keys t := hf [] e t rfl
    rw [List.flatMap_cons, List.cons_append, ofSets_cons, if_neg, ofSets_append_of_subset, hrest]
    · intro x hx
      exact (hkeys x.1).mpr (hfe x hx)
    · rw [keys_append, List.mem_append, hkeys]
      intro hmem
      rcases hmem with hmem | hmem
      · obtain ⟨x, hx, hxe⟩ := List.mem_map.mp hmem
        exact hnodup.1 (hxe ▸ hfe x hx)
      · exact hnodup.1 hmem

section Histories

def erase (t : List (K × V)) (k : K) : List (K × V) := t.filter (fun e => e.1 ≠ k)

inductive Op (K V : Type*)
  | set (k : K) (v : V)
  | remove (k : K)
  deriving DecidableEq

omit [DecidableEq K] in
def Op.key : Op K V → K
  | .set k _ => k
  | .remove k => k

omit [DecidableEq K] in
def Op.value : Op K V → Option V
  | .set _ v => some v
  | .remove _ => none

def apply (t : List (K × V)) : Op K V → List (K × V)
  | .set k v => set t k v
  | .remove k => erase t k

def ofOps (ops : List (Op K V)) : List (K × V) := ops.foldl apply []

/-- The sets that no later operation on their key follows, in order. -/
def lastSets : List (Op K V) → List (K × V)
  | [] => []
  | op :: ops =>
      if op.key ∈ ops.map Op.key then lastSets ops
      else op.value.toList.map (fun v => (op.key, v)) ++ lastSets ops

/-- The value of the last operation on the key, where that is a set. -/
def lastValue (ops : List (Op K V)) (k : K) : Option V :=
  (ops.reverse.find? (fun op => op.key = k)).bind Op.value

theorem lastValue_concat (ops : List (Op K V)) (op : Op K V) (k : K) :
    lastValue (ops ++ [op]) k = if op.key = k then op.value else lastValue ops k := by
  rw [lastValue, List.reverse_concat, List.find?_cons]
  by_cases hk : op.key = k
  · simp [hk]
  · simp [hk, lastValue]

/-- An operation drops the older entry of its key and puts its own one last. -/
theorem apply_eq (t : List (K × V)) (op : Op K V) :
    apply t op = erase t op.key ++ op.value.toList.map (fun v => (op.key, v)) := by
  cases op with
  | set k v => rfl
  | remove k => exact (List.append_nil _).symm

theorem foldl_apply_eq (ops : List (Op K V)) :
    ∀ t, ops.foldl apply t = t.filter (fun e => e.1 ∉ ops.map Op.key) ++ lastSets ops := by
  induction ops with
  | nil =>
    intro t
    simp [lastSets]
  | cons op ops ih =>
    intro t
    rw [List.foldl_cons, ih, apply_eq, erase, List.filter_append, List.filter_filter, lastSets,
      List.append_assoc]
    congr 1
    · apply List.filter_congr
      intro e _
      simp only [List.map_cons, List.mem_cons, not_or, decide_not, Bool.decide_and]
      rw [Bool.and_comm]
    · by_cases hmem : op.key ∈ ops.map Op.key
      · rw [if_pos hmem, List.filter_eq_nil_iff.mpr, List.nil_append]
        intro e he
        obtain ⟨v, _, rfl⟩ := List.mem_map.mp he
        simpa using hmem
      · rw [if_neg hmem, List.filter_eq_self.mpr]
        intro e he
        obtain ⟨v, _, rfl⟩ := List.mem_map.mp he
        simpa using hmem

/-- The table holds, in order, the sets that count. -/
theorem ofOps_eq_lastSets (ops : List (Op K V)) : ofOps ops = lastSets ops := by
  rw [ofOps, foldl_apply_eq, List.filter_nil, List.nil_append]

theorem nodup_erase {t : List (K × V)} (h : (keys t).Nodup) (k : K) : (keys (erase t k)).Nodup :=
  h.sublist (List.filter_sublist.map Prod.fst)

theorem nodup_apply {t : List (K × V)} (h : (keys t).Nodup) (op : Op K V) :
    (keys (apply t op)).Nodup := by
  cases op with
  | set k v => exact nodup_set h k v
  | remove k => exact nodup_erase h k

/-- The entries of the table are the last values. -/
theorem mem_ofOps {ops : List (Op K V)} {k : K} {v : V} :
    (k, v) ∈ ofOps ops ↔ lastValue ops k = some v := by
  induction ops using List.reverseRecOn with
  | nil => simp [ofOps, lastValue]
  | append_singleton ops op ih =>
    have hstep : ofOps (ops ++ [op]) = apply (ofOps ops) op := List.foldl_concat ..
    rw [hstep, apply_eq, lastValue_concat, List.mem_append, erase, List.mem_filter, ih]
    by_cases hk : op.key = k
    · subst hk
      simp
    · simp [hk, Ne.symm hk]

end Histories

end ProxyServer.OrderedTable
