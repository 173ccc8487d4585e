import ProxyServer.CacheStrategy

/-!
The bytes a hit answers against the bytes last added under its URL. Neither
cache stores anything when the URL added is resident, so a hit answers the bytes
of the add that inserted its element, and these are the last ones only as long
as every add of a resident URL brings the bytes that are stored already.
-/
namespace ProxyServer.CacheStrategy

open CacheElement

/-- A call on the cache, beside it the bytes last added under each URL. -/
abbrev Tracked := CacheStrategy × (CString → Option (List Char × ℤ))

def lastAdd (added : CString → Option (List Char × ℤ)) :
    CacheOp → CString → Option (List Char × ℤ)
  | .find _ _ => added
  | .add url data len _ => Function.update added url (some (data.take len.toNat, len))
  | .remove _ => added

def trackedStep (s : Tracked) (op : CacheOp) : Option Tracked :=
  (s.1.step op).map (fun c => (c, lastAdd s.2 op))

/-- Every find that hits answers the bytes last added under its URL. -/
def AnswersLast (s : Tracked) : Prop :=
  ∀ url now c e, s.1.find url now = some (c, some e) → s.2 url = some (e.data, e.len)

/-- An add of a resident URL brings the bytes stored under it. -/
def AddsStored (s : Tracked) : CacheOp → Prop
  | .add url data len _ =>
      ∀ e ∈ s.1.elements, e.url = url → e.data = data.take len.toNat ∧ e.len = len
  | _ => True

theorem find_of_mem {c : CacheStrategy} (h : c.WellFormed) {e : CacheElement}
    (he : e ∈ c.elements) (now : ℤ) :
    ∃ c', c.find e.url now = some (c', some { e with lruTimeTrack := now }) := by
  cases c with
  | lru c =>
    rcases LRUCache.find_cases h.2 e.url now with ⟨hnot, _⟩ | ⟨x, hx, hxu, hfind⟩
    · exact absurd (List.mem_map_of_mem he) hnot
    · have hxe : x = e := eq_of_url h.2.urls hx he hxu
      subst hxe
      exact ⟨_, by rw [find, hfind, Option.map_some]⟩
  | lfu c =>
    rcases LFUCache.find_cases h.2 e.url now with ⟨hnot, _⟩ | ⟨c', x, hx, hxu, hfind, _⟩
    · exact absurd (List.mem_map_of_mem he) hnot
    · have hxe : x = e := eq_of_url h.2.urls hx he hxu
      subst hxe
      exact ⟨_, by rw [find, hfind, Option.map_some]⟩

/-- An add of a resident URL leaves the residents as they are. -/
theorem add_of_mem {c c' : CacheStrategy} (h : c.WellFormed) {e : CacheElement}
    (he : e ∈ c.elements) {data : List Char} {len now : ℤ}
    (hstep : c.step (.add e.url data len now) = some c') (x : CacheElement) :
    x ∈ c'.elements ↔ x ∈ c.elements := by
  cases c with
  | lru c =>
    obtain ⟨c₁, hc₁, rfl⟩ := Option.map_eq_some_iff.mp hstep
    rcases LRUCache.add_cases h.2 h.1 e.url data len now with
      ⟨y, hy, hyu, hadd⟩ | ⟨hnot, _⟩ | ⟨hnot, _⟩
    · have hye : y = e := eq_of_url h.2.urls hy he hyu
      subst hye
      cases hc₁.symm.trans hadd
      show x ∈ y :: unlink c.cacheList y.ptr ↔ x ∈ c.cacheList
      rw [List.mem_cons, mem_unlink]
      constructor
      · rintro (rfl | ⟨hx, _⟩)
        · exact hy
        · exact hx
      · intro hx
        by_cases hp : x.ptr = y.ptr
        · exact Or.inl (eq_of_ptr h.2.ptrs hx hy hp)
        · exact Or.inr ⟨hx, hp⟩
    · exact absurd (List.mem_map_of_mem he) hnot
    · exact absurd (List.mem_map_of_mem he) hnot
  | lfu c =>
    obtain ⟨c₁, hc₁, rfl⟩ := Option.map_eq_some_iff.mp hstep
    rcases LFUCache.add_cases h.2 h.1 e.url data len now with
      ⟨_, c₂, hadd, _, _, helements⟩ | ⟨hnot, _⟩ | ⟨hnot, _⟩
    · cases hc₁.symm.trans hadd
      exact helements x
    · exact absurd (List.mem_map_of_mem he) hnot
    · exact absurd (List.mem_map_of_mem he) hnot

/-- Finds answer the last bytes exactly when the residents hold them. -/
theorem answersLast_iff {s : Tracked} (h : s.1.WellFormed) :
    AnswersLast s ↔ ∀ e ∈ s.1.elements, s.2 e.url = some (e.data, e.len) := by
  constructor
  · intro hlast e he
    obtain ⟨c, hfind⟩ := find_of_mem h he 0
    exact hlast e.url 0 c { e with lruTimeTrack := 0 } hfind
  · intro hheld url now c e hfind
    obtain ⟨x, hx, rfl, rfl⟩ := find_answer h hfind
    exact hheld x hx

/-- A step keeps the answers right exactly when it brings no other bytes for a
URL that is resident. -/
theorem step_answersLast_iff {s s' : Tracked} (h : s.1.WellFormed) (hlast : AnswersLast s)
    {op : CacheOp} (hstep : trackedStep s op = some s') :
    s'.1.WellFormed ∧ (AnswersLast s' ↔ AddsStored s op) := by
  obtain ⟨c, hc, rfl⟩ := Option.map_eq_some_iff.mp hstep
  obtain ⟨c₁, hc₁, hwf, _⟩ := step_spec h op
  cases hc.symm.trans hc₁
  refine ⟨hwf, ?_⟩
  have hheld := (answersLast_iff h).mp hlast
  rw [answersLast_iff hwf]
  constructor
  · intro hheld'
    cases op with
    | add url data len now =>
      rintro e he rfl
      have hadded := hheld' e ((add_of_mem h he hc e).mpr he)
      simp only [lastAdd, Function.update_self, Option.some.injEq, Prod.mk.injEq] at hadded
      exact ⟨hadded.1.symm, hadded.2.symm⟩
    | find url now => trivial
    | remove url => trivial
  · intro hstored x hx
    rcases step_elements h hc hx with ⟨y, hy, hsame⟩ | ⟨url, data, len, now, p, rfl, rfl, _⟩
    · rw [hsame.url, hsame.data, hsame.len]
      cases op with
      | find url now => exact hheld y hy
      | add url data len now =>
        show Function.update s.2 url (some (data.take len.toNat, len)) y.url = _
        by_cases hu : y.url = url
        · obtain ⟨hdata, hlen⟩ := hstored y hy hu
          rw [hu, Function.update_self, hdata, hlen]
        · rw [Function.update_of_ne hu]
          exact hheld y hy
      | remove url => exact hheld y hy
    · show Function.update s.2 url (some (data.take len.toNat, len)) url = _
      rw [Function.update_self]
      rfl

/-- From a new cache of either kind: all along the run every hit answers the
bytes last added, exactly when no add brings other bytes for a resident URL. -/
theorem answers_last_iff_adds_stored {cacheType : String} {cacheSize : ℤ} {c : CacheStrategy}
    (hnew : createCacheStrategy cacheType cacheSize = some c) (hcap : 1 ≤ c.capacity)
    (ops : List CacheOp) :
    (∀ calls, calls <+: ops → ∃ s, Runs.run trackedStep (c, fun _ => none) calls = some s ∧
      AnswersLast s) ↔ Runs.EveryStep trackedStep AddsStored (c, fun _ => none) ops := by
  have hwf := createCacheStrategy_wellFormed hnew hcap
  apply Runs.everyStep_iff_prefixes trackedStep (fun s => s.1.WellFormed)
    (fun o => ∃ s, o = some s ∧ AnswersLast s)
  · rintro s op hs ⟨t, ht, hlast⟩
    cases ht
    obtain ⟨c', hc', _⟩ := step_spec hs op
    have hstep : trackedStep s op = some (c', lastAdd s.2 op) := by
      rw [trackedStep, hc', Option.map_some]
    simpa [hstep] using (step_answersLast_iff hs hlast hstep).2
  · rintro s op s' hs ⟨t, ht, hlast⟩ hstep
    cases ht
    exact (step_answersLast_iff hs hlast hstep).1
  · exact hwf
  · exact ⟨_, rfl, (answersLast_iff hwf).mpr (by simp [elements_create hnew])⟩

/-- The second add of `a` brings what is stored; the one after its eviction may bring
something else. -/
def readded : List CacheOp :=
  [.add ['a'] ['x'] 1 0, .add ['a'] ['x', 'y'] 1 1, .find ['a'] 2, .add ['b'] ['x'] 1 3,
    .add ['a'] ['z'] 1 4, .find ['a'] 5]

theorem answers_last_iff_adds_stored_one :
    Runs.EveryStep trackedStep AddsStored (.lru (LRUCache.create 1), fun _ => none) readded ∧
      ∀ calls, calls <+: readded → ∃ s,
        Runs.run trackedStep (.lru (LRUCache.create 1), fun _ => none) calls = some s ∧
          AnswersLast s := by
  have hnew : createCacheStrategy "LRUCache" 1 = some (.lru (LRUCache.create 1)) := rfl
  let _ (s : Tracked) : DecidablePred (AddsStored s)
    | .add url data len _ => inferInstanceAs (Decidable (∀ e ∈ s.1.elements, e.url = url →
        e.data = data.take len.toNat ∧ e.len = len))
    | .find _ _ | .remove _ => isTrue trivial
  have hstored : Runs.EveryStep trackedStep AddsStored (.lru (LRUCache.create 1), fun _ => none)
      readded := by decide
  exact ⟨hstored, (answers_last_iff_adds_stored hnew (by decide) _).mpr hstored⟩

/-- The second add of a URL is dropped, and the next hit answers the first. -/
theorem hit_answers_first_add : ¬ ∀ cacheType cacheSize c,
    createCacheStrategy cacheType cacheSize = some c → 1 ≤ c.capacity → ∀ calls, ∃ s,
      Runs.run trackedStep (c, fun _ => none) calls = some s ∧ AnswersLast s := by
  intro hall
  obtain ⟨s, hrun, hlast⟩ := hall "LRUCache" 1 (.lru (LRUCache.create 1)) rfl (by decide)
    [.add ['a'] ['x'] 1 0, .add ['a'] ['y'] 1 1]
  have hfind : (Runs.run trackedStep (.lru (LRUCache.create 1), fun _ => none)
      [.add ['a'] ['x'] 1 0, .add ['a'] ['y'] 1 1]).bind
        (fun s => (s.1.find ['a'] 2).bind (fun r => r.2.map (fun e => (s.2 ['a'], e.data)))) =
          some (some (['y'], 1), ['x']) := by decide
  rw [hrun, Option.bind_some] at hfind
  obtain ⟨⟨c, answer⟩, hanswer, hfind⟩ := Option.bind_eq_some_iff.mp hfind
  obtain ⟨e, rfl, he⟩ := Option.map_eq_some_iff.mp hfind
  have hadded := hlast ['a'] 2 c e hanswer
  simp only [Prod.mk.injEq] at he
  rw [he.1, he.2] at hadded
  simp at hadded

end ProxyServer.CacheStrategy
