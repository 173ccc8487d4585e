import ProxyServer.ParsedRequest

/-!
The header table over any history of sets and removals. No key is in two live
slots, so the live slots are the ordered table of the history, and what a get
finds is the entry of the last operation on the key, where that is a set. Other
keys keep their slots. The array is doubled before the counter that was compared
gets to its size, so a set always writes inside it.
-/
namespace ProxyServer.ParsedHeader

open OrderedTable ParsedRequest

/-- One call; a removal also says whether it found the key. -/
def call (pr : ParsedRequest) : Op CString CString → ParsedRequest
  | .set key value => set pr key value
  | .remove key => (remove pr key).1

def callAll (pr : ParsedRequest) (ops : List (Op CString CString)) : ParsedRequest :=
  ops.foldl call pr

def history (ops : List (Op CString CString)) : ParsedRequest := callAll create ops

theorem live_call {pr : ParsedRequest} (h : (keys pr.live).Nodup) (op : Op CString CString) :
    (call pr op).live = apply pr.live op := by
  cases op with
  | set key value => exact live_set h key value
  | remove key => exact live_remove h key

theorem nodup_call {pr : ParsedRequest} (h : (keys pr.live).Nodup) (op : Op CString CString) :
    (keys (call pr op).live).Nodup := by
  rw [live_call h]
  exact nodup_apply h op

/-- The live slots follow the history as the ordered table does. -/
theorem live_callAll (ops : List (Op CString CString)) :
    ∀ {pr : ParsedRequest}, (keys pr.live).Nodup →
      (callAll pr ops).live = ops.foldl apply pr.live ∧ (keys (callAll pr ops).live).Nodup := by
  induction ops with
  | nil => exact fun h => ⟨rfl, h⟩
  | cons op ops ih =>
    intro pr h
    obtain ⟨hlive, hnodup⟩ := ih (nodup_call h op)
    rw [live_call h] at hlive
    exact ⟨hlive, hnodup⟩

theorem nodup_create : (keys create.live).Nodup := List.nodup_nil

section Gets

/-- A get finds no live slot of the key, or one of them. -/
theorem get_cases (pr : ParsedRequest) (key : CString) :
    (get pr key = none ∧ key ∉ keys pr.live) ∨
      ∃ i value, get pr key = some i ∧ pr.headers[i]? = some ⟨some key, value⟩ ∧
        (key, value) ∈ pr.live := by
  cases hget : get pr key with
  | none =>
    left
    refine ⟨rfl, ?_⟩
    intro hmem
    obtain ⟨e, he, rfl⟩ := List.mem_map.mp hmem
    obtain ⟨slot, hslot, hlive⟩ := List.mem_filterMap.mp he
    obtain ⟨key, hkey, rfl⟩ := Option.map_eq_some_iff.mp hlive
    have hnot := List.findIdx?_eq_none_iff.mp hget slot hslot
    simp [hkey] at hnot
  | some i =>
    right
    obtain ⟨hi, hkey, _⟩ := List.findIdx?_eq_some_iff_getElem.mp hget
    have hslot : pr.headers[i]? = some ⟨some key, pr.headers[i].value⟩ := by
      rw [List.getElem?_eq_getElem hi, ← beq_iff_eq.mp hkey]
    refine ⟨i, _, rfl, hslot, ?_⟩
    exact List.mem_filterMap.mpr ⟨_, List.mem_of_getElem? hslot, rfl⟩

theorem slot_unique {pr : ParsedRequest} (h : (keys pr.live).Nodup) {key : CString} {i j : ℕ}
    {a b : ParsedHeader} (ha : pr.headers[i]? = some a) (hb : pr.headers[j]? = some b)
    (hakey : a.key = some key) (hbkey : b.key = some key) : i = j := by
  have hkeys : keys pr.live = pr.headers.filterMap (·.key) := by
    rw [keys, ParsedRequest.live, List.map_filterMap]
    congr 1
    funext slot
    rw [live, Option.map_map]
    exact Option.map_id' ..
  rw [hkeys, List.Nodup, List.pairwise_filterMap] at h
  obtain ⟨hi, rfl⟩ := List.getElem?_eq_some_iff.mp ha
  obtain ⟨hj, rfl⟩ := List.getElem?_eq_some_iff.mp hb
  rcases Nat.lt_trichotomy i j with hlt | heq | hgt
  · exact absurd rfl (List.pairwise_iff_getElem.mp h i j hi hj hlt key hakey key hbkey)
  · exact heq
  · exact absurd rfl (List.pairwise_iff_getElem.mp h j i hj hi hgt key hbkey key hakey)

end Gets

section Others

/-- Clearing the slot of another key changes no search. -/
theorem findIdx?_removeAt {key : CString} (slots : List ParsedHeader) :
    ∀ {i : ℕ}, (∀ a, slots[i]? = some a → a.key ≠ some key) →
      (removeAt slots i).findIdx? (fun tmp => tmp.key == some key) =
        slots.findIdx? (fun tmp => tmp.key == some key) := by
  induction slots with
  | nil =>
    intro i _
    rw [removeAt, List.modify_nil]
  | cons slot slots ih =>
    intro i hi
    cases i with
    | zero =>
      have hslot := hi slot rfl
      rw [removeAt, List.modify_zero_cons, List.findIdx?_cons, List.findIdx?_cons]
      simp [hslot]
    | succ i =>
      have hrest := ih (fun a ha => hi a (by rwa [List.getElem?_cons_succ]))
      rw [removeAt, List.modify_succ_cons, List.findIdx?_cons, List.findIdx?_cons]
      rw [removeAt] at hrest
      rw [hrest]

/-- What a get finds, and its slot, is left alone by a removal of another key. -/
theorem get_remove_of_ne (pr : ParsedRequest) {key other : CString} (hne : other ≠ key) :
    get (remove pr other).1 key = get pr key ∧
      ∀ i, get pr key = some i → (remove pr other).1.headers[i]? = pr.headers[i]? := by
  unfold remove
  rcases get_cases pr other with ⟨hnone, _⟩ | ⟨j, v, hj, hslot, _⟩
  · rw [hnone]
    exact ⟨rfl, fun _ _ => rfl⟩
  · rw [hj]
    constructor
    · apply findIdx?_removeAt
      intro a ha hkey
      rw [hslot] at ha
      cases ha
      exact hne (Option.some.inj hkey)
    · intro i hi
      dsimp only
      rw [removeAt, List.getElem?_modify]
      have hij : j ≠ i := by
        rintro rfl
        obtain ⟨k, w, hk, hw, _⟩ := (get_cases pr key).resolve_left (by simp [hi])
        rw [hi] at hk
        cases hk
        rw [hslot] at hw
        cases hw
        exact hne rfl
      simp only [if_neg hij, Option.map_eq_map, Option.map_id']

theorem set_headers (pr : ParsedRequest) (key value : CString) :
    (set pr key value).headers = (remove pr key).1.headers ++ [⟨some key, value⟩] := by
  unfold set
  dsimp only
  split <;> rfl

theorem get_call_of_ne (pr : ParsedRequest) {op : Op CString CString} {key : CString}
    (hne : op.key ≠ key) :
    get (call pr op) key = get pr key ∧
      ∀ i, get pr key = some i → (call pr op).headers[i]? = pr.headers[i]? := by
  cases op with
  | remove other => exact get_remove_of_ne pr hne
  | set other value =>
    have hother : other ≠ key := hne
    obtain ⟨hget, hslot⟩ := get_remove_of_ne pr hother
    constructor
    · rw [← hget, call, get, set_headers, List.findIdx?_append]
      simp [hother, get]
    · intro i hi
      obtain ⟨j, w, hj, hw, _⟩ := (get_cases pr key).resolve_left (by simp [hi])
      rw [hi] at hj
      cases hj
      have hremoved := hslot i hi
      rw [call, set_headers, List.getElem?_append_left, hremoved]
      rw [hw] at hremoved
      exact (List.getElem?_eq_some_iff.mp hremoved).1

end Others

section Room

theorem length_remove (pr : ParsedRequest) (key : CString) :
    (remove pr key).1.headers.length = pr.headers.length ∧
      (remove pr key).1.headerslen = pr.headerslen := by
  unfold remove
  split
  · exact ⟨rfl, rfl⟩
  · exact ⟨List.length_modify .., rfl⟩

/-- A set leaves room for the slot it wrote and for one more. -/
theorem set_room {pr : ParsedRequest} (h : pr.headers.length < pr.headerslen)
    (key value : CString) :
    (set pr key value).headers.length = pr.headers.length + 1 ∧
      (set pr key value).headers.length < (set pr key value).headerslen := by
  obtain ⟨hlength, hlen⟩ := length_remove pr key
  have hused : (set pr key value).headers.length = pr.headers.length + 1 := by
    rw [set_headers, List.length_append, hlength]
    rfl
  refine ⟨hused, ?_⟩
  rw [hused]
  unfold set
  dsimp only
  split
  · rename_i hfull
    dsimp only
    omega
  · rename_i hfull
    omega

theorem call_room {pr : ParsedRequest} (h : pr.headers.length < pr.headerslen)
    (op : Op CString CString) : (call pr op).headers.length < (call pr op).headerslen := by
  cases op with
  | set key value => exact (set_room h key value).2
  | remove key =>
    obtain ⟨hlength, hlen⟩ := length_remove pr key
    rw [call, hlength, hlen]
    exact h

theorem callAll_room (ops : List (Op CString CString)) :
    ∀ {pr : ParsedRequest}, pr.headers.length < pr.headerslen →
      (callAll pr ops).headers.length < (callAll pr ops).headerslen := by
  induction ops with
  | nil => exact fun h => h
  | cons op ops ih => exact fun h => ih (call_room h op)

end Room

/-- After any history on a new object: a key is in one live slot at most; a get
finds the value of the last operation on the key where that is a set, and nothing
otherwise; an operation leaves what other keys have; the live slots are in the
order of their sets; and the next set writes inside the array. -/
theorem table_laws (ops : List (Op CString CString)) :
    (∀ (key : CString) (i j : ℕ) (a b : ParsedHeader), (history ops).headers[i]? = some a →
      (history ops).headers[j]? = some b → a.key = some key → b.key = some key → i = j) ∧
    (∀ key, (get (history ops) key = none ∧ lastValue ops key = none) ∨
      ∃ i value, get (history ops) key = some i ∧
        (history ops).headers[i]? = some ⟨some key, value⟩ ∧ lastValue ops key = some value) ∧
    (∀ (op : Op CString CString) key, op.key ≠ key →
      get (call (history ops) op) key = get (history ops) key ∧
      ∀ i, get (history ops) key = some i →
        (call (history ops) op).headers[i]? = (history ops).headers[i]?) ∧
    (history ops).live = lastSets ops ∧
    ∀ key value, (set (history ops) key value).headers[(history ops).headers.length]? =
        some ⟨some key, value⟩ ∧
      (history ops).headers.length < (set (history ops) key value).headerslen := by
  obtain ⟨hlive, hnodup⟩ := live_callAll ops nodup_create
  have htable : (history ops).live = ofOps ops := hlive
  have hroom : (history ops).headers.length < (history ops).headerslen :=
    callAll_room ops (by decide)
  refine ⟨?_, ?_, ?_, ?_, ?_⟩
  · intro key i j a b ha hb hakey hbkey
    exact slot_unique hnodup ha hb hakey hbkey
  · intro key
    rcases get_cases (history ops) key with ⟨hnone, habsent⟩ | ⟨i, value, hi, hslot, hmem⟩
    · refine Or.inl ⟨hnone, ?_⟩
      cases hlast : lastValue ops key with
      | none => rfl
      | some value =>
        rw [htable] at habsent
        exact absurd (mem_keys_of_mem (mem_ofOps.mpr hlast)) habsent
    · rw [htable] at hmem
      exact Or.inr ⟨i, value, hi, hslot, mem_ofOps.mp hmem⟩
  · exact fun op key hne => get_call_of_ne (history ops) hne
  · rw [htable, ofOps_eq_lastSets]
  · intro key value
    obtain ⟨hused, hlt⟩ := set_room hroom key value
    refine ⟨?_, by omega⟩
    rw [set_headers, ← (length_remove (history ops) key).1, List.getElem?_concat_length]

end ProxyServer.ParsedHeader
