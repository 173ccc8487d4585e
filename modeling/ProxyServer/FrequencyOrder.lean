import ProxyServer.CacheStrategy

/-!
The frequencies of the LFU cache against a count of the touches. A new cache
has one node, of frequency 0, and keeps it as long as no resident is touched. The
first touch looks for a node of frequency 1, finds none, and advances past the
end of the list, to its front.
-/
namespace ProxyServer.LFUCache

open CacheElement FrequencyList

/-- The call is a find that hits or an add of a URL that is resident. -/
def Touches (c : LFUCache) : CacheOp → Prop
  | .find url _ | .add url _ _ _ => url ∈ c.urls
  | .remove _ => False

/-- The call runs `incrementFrequency`, and it advances the iterator that
`find_if` returns when no node has the frequency wanted or a larger one. -/
def AdvancesEnd (c : LFUCache) : CacheOp → Prop
  | .find url _ | .add url _ _ _ => ∃ entry node, c.cacheMap.lookup url = some entry ∧
      nodeAt c.frequencyList entry.1 = some node ∧
      findIf c.frequencyList (node.frequency + 1) = c.frequencyList.length
  | .remove _ => False

/-- The number of touches of each URL since it was inserted. -/
def countTouches (c : LFUCache) (touches : CString → ℕ) : CacheOp → CString → ℕ
  | .find url _ =>
      if url ∈ c.urls then Function.update touches url (touches url + 1) else touches
  | .add url _ _ _ =>
      Function.update touches url (if url ∈ c.urls then touches url + 1 else 0)
  | .remove _ => touches

/-- A call on the cache, with the count beside it. -/
def countedStep (s : LFUCache × (CString → ℕ)) (op : CacheOp) :
    Option (LFUCache × (CString → ℕ)) :=
  (s.1.step op).map (fun c => (c, countTouches s.1 s.2 op))

/-- The frequencies increase from 0, and each resident sits in the node of its
touches. -/
structure Ordered (s : LFUCache × (CString → ℕ)) : Prop where
  increasing : s.1.frequencyList.Pairwise (fun m n => m.frequency < n.frequency)
  front : (s.1.frequencyList.head?).map (·.frequency) = some 0
  counted : ∀ node ∈ s.1.frequencyList, ∀ e ∈ node.elements, node.frequency = s.2 e.url

/-- The one node of frequency 0 holds everything, untouched. -/
structure Untouched (s : LFUCache × (CString → ℕ)) : Prop where
  wellFormed : s.1.WellFormed
  capacity : 1 ≤ s.1.capacity
  single : ∃ addr es, s.1.frequencyList = [⟨addr, 0, es⟩] ∧ ∀ e ∈ es, s.2 e.url = 0

theorem evict_single {c c' : LFUCache} {addr : ℕ} {es : List CacheElement}
    (hlist : c.frequencyList = [⟨addr, 0, es⟩]) (hevict : c.evict = some c') :
    c'.frequencyList = [⟨addr, 0, es.dropLast⟩] := by
  unfold evict at hevict
  obtain ⟨node, hleast, hevict⟩ := Option.bind_eq_some_iff.mp hevict
  obtain ⟨v, _, rfl⟩ := Option.map_eq_some_iff.mp hevict
  rw [hlist] at hleast
  have hnode : node = ⟨addr, 0, es⟩ := List.mem_singleton.mp (List.mem_of_find?_eq_some hleast)
  subst hnode
  simp [hlist, atNode, FrequencyList.prune, frontIs]

theorem pushFront_single {c c' : LFUCache} {addr : ℕ} {es : List CacheElement}
    (hlist : c.frequencyList = [⟨addr, 0, es⟩]) {url : CString} {data : List Char} {len now : ℤ}
    (hpush : c.pushFront url data len now = some c') :
    ∃ e, e.url = url ∧ c'.frequencyList = [⟨addr, 0, e :: es⟩] := by
  rw [pushFront, hlist] at hpush
  simp only [List.head?_cons, Option.map_some, Option.some.injEq] at hpush
  subst hpush
  exact ⟨CacheElement.make url data len now c.fresh, rfl, by simp [atNode]⟩

/-- Without a touch the list keeps its one node: a call leaves the elements
alone, drops some, or adds an element of its own URL. -/
theorem step_single {c c' : LFUCache} (h : c.WellFormed) {addr : ℕ} {es : List CacheElement}
    (hlist : c.frequencyList = [⟨addr, 0, es⟩]) {op : CacheOp} (huntouched : ¬ c.Touches op)
    (hstep : c.step op = some c') :
    ∃ es', c'.frequencyList = [⟨addr, 0, es'⟩] ∧ ∀ x ∈ es', x ∈ es ∨
      ∃ url data len now, op = .add url data len now ∧ x.url = url := by
  cases op with
  | find url now =>
    have hlookup := (h.lookup_eq_none url).mpr huntouched
    rw [step, find, hlookup] at hstep
    cases hstep
    exact ⟨es, hlist, fun x hx => Or.inl hx⟩
  | add url data len now =>
    have hlookup := (h.lookup_eq_none url).mpr huntouched
    rw [step, add, hlookup] at hstep
    obtain ⟨c₁, hroom, hpush⟩ := Option.bind_eq_some_iff.mp hstep
    have hmade : ∀ e : CacheElement, e.url = url → ∃ url' data' len' now',
        CacheOp.add url data len now = .add url' data' len' now' ∧ e.url = url' :=
      fun e he => ⟨url, data, len, now, rfl, he⟩
    split at hroom
    · obtain ⟨e, he, hpushed⟩ := pushFront_single (evict_single hlist hroom) hpush
      refine ⟨e :: es.dropLast, hpushed, fun x hx => ?_⟩
      rcases List.mem_cons.mp hx with rfl | hx
      · exact Or.inr (hmade x he)
      · exact Or.inl (List.mem_of_mem_dropLast hx)
    · cases hroom
      obtain ⟨e, he, hpushed⟩ := pushFront_single hlist hpush
      refine ⟨e :: es, hpushed, fun x hx => ?_⟩
      rcases List.mem_cons.mp hx with rfl | hx
      · exact Or.inr (hmade x he)
      · exact Or.inl hx
  | remove url =>
    rw [step, remove] at hstep
    split at hstep
    · cases hstep
      exact ⟨es, hlist, fun x hx => Or.inl hx⟩
    · rename_i n it _
      obtain ⟨node, hnode, hstep⟩ := Option.bind_eq_some_iff.mp hstep
      obtain ⟨_, _, rfl⟩ := Option.map_eq_some_iff.mp hstep
      rw [hlist] at hnode
      obtain ⟨hmem, haddr⟩ := mem_of_nodeAt hnode
      rw [List.mem_singleton.mp hmem] at haddr
      refine ⟨unlink es it, ?_, fun x hx => Or.inl (mem_unlink.mp hx).1⟩
      simp only at haddr
      simp [hlist, atNode, haddr]

namespace Untouched

variable {s s' : LFUCache × (CString → ℕ)}

theorem create {cap : ℕ} (hcap : 1 ≤ cap) :
    Untouched (LFUCache.create cap, fun _ => 0) :=
  ⟨create_wellFormed cap, hcap, 0, [], rfl, by simp⟩

theorem ordered (h : Untouched s) : Ordered s := by
  obtain ⟨addr, es, hlist, hcount⟩ := h.single
  refine ⟨by simp [hlist], by simp [hlist], ?_⟩
  intro node hnode e he
  rw [hlist, List.mem_singleton] at hnode
  subst hnode
  exact (hcount e he).symm

theorem step (h : Untouched s) {op : CacheOp} (huntouched : ¬ s.1.Touches op)
    (hstep : countedStep s op = some s') : Untouched s' := by
  obtain ⟨c', hc', rfl⟩ := Option.map_eq_some_iff.mp hstep
  obtain ⟨addr, es, hlist, hcount⟩ := h.single
  obtain ⟨es', hlist', hmem⟩ := step_single h.wellFormed hlist huntouched hc'
  obtain ⟨c₁, hc₁, hwf, hcap, _⟩ := step_spec h.wellFormed h.capacity op
  cases hc'.symm.trans hc₁
  refine ⟨hwf, hcap.symm ▸ h.capacity, addr, es', hlist', fun x hx => ?_⟩
  cases op with
  | find url now =>
    have hnot : url ∉ s.1.urls := huntouched
    simp only [countTouches, if_neg hnot]
    rcases hmem x hx with hx | ⟨_, _, _, _, hop, _⟩
    · exact hcount x hx
    · contradiction
  | add url data len now =>
    have hnot : url ∉ s.1.urls := huntouched
    simp only [countTouches, if_neg hnot]
    by_cases hu : x.url = url
    · rw [hu, Function.update_self]
    · rw [Function.update_of_ne hu]
      rcases hmem x hx with hx | ⟨_, _, _, _, hop, hxu⟩
      · exact hcount x hx
      · cases hop
        exact absurd hxu hu
  | remove url =>
    rcases hmem x hx with hx | ⟨_, _, _, _, hop, _⟩
    · exact hcount x hx
    · contradiction

/-- In a list with no frequency but 0 the first touch runs past the end. -/
theorem advancesEnd_iff (h : Untouched s) (op : CacheOp) :
    s.1.AdvancesEnd op ↔ s.1.Touches op := by
  obtain ⟨addr, es, hlist, _⟩ := h.single
  have hend : ∀ url, (∃ entry node, s.1.cacheMap.lookup url = some entry ∧
      nodeAt s.1.frequencyList entry.1 = some node ∧
      findIf s.1.frequencyList (node.frequency + 1) = s.1.frequencyList.length) ↔
        url ∈ s.1.urls := by
    intro url
    constructor
    · rintro ⟨entry, _, hlookup, _⟩
      by_contra hnot
      rw [(h.wellFormed.lookup_eq_none url).mpr hnot] at hlookup
      contradiction
    · intro hmem
      obtain ⟨e, n, hseat, rfl⟩ := WellFormed.mem_urls.mp hmem
      have hlookup := h.wellFormed.lookup_of_sits hseat
      obtain ⟨node, hnode, rfl, _⟩ := hseat
      refine ⟨_, node, hlookup, nodeAt_of_mem h.wellFormed.addrs hnode, ?_⟩
      rw [hlist, List.mem_singleton] at hnode
      simp [hlist, hnode, findIf]
  cases op with
  | find url now => exact hend url
  | add url data len now => exact hend url
  | remove url => exact Iff.rfl

end Untouched

/-- The property of a run: in every state reached the frequencies are in order
and count the touches, and no call advances the end of the list. -/
def CountsInOrder (cap : ℕ) (ops : List CacheOp) : Prop :=
  (∀ calls, calls <+: ops → ∀ s,
    Runs.run countedStep (create cap, fun _ => 0) calls = some s → Ordered s) ∧
  Runs.EveryStep countedStep (fun s op => ¬ s.1.AdvancesEnd op) (create cap, fun _ => 0) ops

/-- A run has the property exactly when none of its calls touches a resident. -/
theorem counts_in_order_iff (cap : ℕ) (hcap : 1 ≤ cap) (ops : List CacheOp) :
    CountsInOrder cap ops ↔
      Runs.EveryStep countedStep (fun s op => ¬ s.1.Touches op) (create cap, fun _ => 0) ops := by
  constructor
  · rintro ⟨_, hadvances⟩
    apply Runs.everyStep_of_invariant countedStep Untouched
      (fun s op => ¬ s.1.AdvancesEnd op) _ ?_ ?_ ops _ (Untouched.create hcap) hadvances
    · exact fun s op h => mt (h.advancesEnd_iff op).mpr
    · exact fun s op s' h hadvances => h.step (mt (h.advancesEnd_iff op).mpr hadvances)
  · intro huntouched
    constructor
    · rintro calls ⟨rest, rfl⟩ s hrun
      have hcalls := ((Runs.everyStep_append countedStep _ calls rest _).mp huntouched).1
      exact (Runs.run_invariant_of_everyStep countedStep Untouched
        (fun s op => ¬ s.1.Touches op) (fun _ _ _ h hop hstep => h.step hop hstep) calls _ s
        (Untouched.create hcap) hcalls hrun).ordered
    · apply Runs.everyStep_of_invariant countedStep Untouched
        (fun s op => ¬ s.1.Touches op) _ ?_ ?_ ops _ (Untouched.create hcap) huntouched
      · exact fun s op h => mt (h.advancesEnd_iff op).mp
      · exact fun s op s' h hop => h.step hop

/-- Misses, an eviction and a removal keep the order, a hit does not. -/
theorem counts_in_order_iff_two :
    CountsInOrder 2 [.add ['a'] [] 0 0, .add ['b'] [] 0 1, .find ['c'] 2, .add ['c'] [] 0 2,
      .remove ['b'], .add ['a'] [] 0 3] ∧
    ¬ CountsInOrder 2 [.add ['a'] [] 0 0, .add ['b'] [] 0 1, .find ['a'] 2, .add ['c'] [] 0 3] := by
  let _ (s : LFUCache × (CString → ℕ)) : DecidablePred (fun op => ¬ s.1.Touches op)
    | .find url _ | .add url _ _ _ => inferInstanceAs (Decidable (url ∉ s.1.urls))
    | .remove _ => isTrue id
  constructor
  · apply (counts_in_order_iff 2 (by decide) _).mpr
    decide
  · apply mt (counts_in_order_iff 2 (by decide) _).mp
    decide

/-- One hit leaves a list whose front node has frequency 1. -/
theorem first_touch_moves_front : ¬ ∀ cap, 1 ≤ cap → ∀ ops, CountsInOrder cap ops := by
  intro hall
  obtain ⟨hordered, _⟩ := hall 1 (le_refl 1) [.add ['a'] [] 0 0, .find ['a'] 1]
  obtain ⟨s, hs⟩ : ∃ s, Runs.run countedStep (create 1, fun _ => 0)
      [.add ['a'] [] 0 0, .find ['a'] 1] = some s := ⟨_, rfl⟩
  have hfront := (hordered _ (List.prefix_refl _) s hs).front
  have hone : (Runs.run countedStep (create 1, fun _ => 0)
      [.add ['a'] [] 0 0, .find ['a'] 1]).map
        (fun s => (s.1.frequencyList.head?).map (·.frequency)) = some (some 1) := by decide
  rw [hs, Option.map_some, hfront] at hone
  contradiction

end ProxyServer.LFUCache
