import ProxyServer.LFURecords

/-!
Whole runs of the LFU cache beside the reference cache that counts touches. Both can be
told from the calls: what the cache holds by the records, what the reference holds by
the counts. So it can be told from the calls as well whether the two agree all along a
run. A touched element goes one node too far, or from the end of the list to its front,
and there it is evicted first.
-/
namespace ProxyServer.LFUCache

open RefCache

def history (cap : ℕ) (ops : List CacheOp) : RefCache CString :=
  RefCache.run lfuRank cap (ops.map CacheOp.access)

/-- A find answers by residency, with the element of its URL. -/
def AnswersBy (c : LFUCache) (resident : Finset CString) : Prop :=
  ∀ url now, ∃ c' answer, c.find url now = some (c', answer) ∧
    (answer = none ↔ url ∉ resident) ∧ ∀ e, answer = some e → e.url = url

/-- After every call, the same URLs are resident in both caches and finds
answer alike. -/
def Agrees (cap : ℕ) (ops : List CacheOp) : Prop :=
  ∀ calls, calls <+: ops → ∃ c, Runs.run step (create cap) calls = some c ∧
    (∀ url, url ∈ c.urls ↔ url ∈ (history cap calls).resident) ∧
    c.AnswersBy (history cap calls).resident

/-- The condition on the calls: each of them that evicts meets `RecordIsLeast`. -/
def RecordsLeast (cap : ℕ) (ops : List CacheOp) : Prop :=
  Runs.EveryStep (RecordCache.bothStep cap) (RecordCache.RecordIsLeast cap)
    (RecordCache.empty, RefCache.empty) (ops.map CacheOp.access)

instance (cap : ℕ) (ops : List CacheOp) : Decidable (RecordsLeast cap ops) :=
  inferInstanceAs (Decidable (Runs.EveryStep _ _ _ _))

theorem WellFormed.answersBy {c : LFUCache} (h : c.WellFormed) {resident : Finset CString}
    (hmem : ∀ url, url ∈ c.urls ↔ url ∈ resident) : c.AnswersBy resident := by
  intro url now
  rcases find_cases h url now with ⟨hnot, hfind⟩ | ⟨c', e, he, rfl, hfind, _⟩
  · refine ⟨c, none, hfind, ?_, by simp⟩
    simpa using mt (hmem url).mpr hnot
  · refine ⟨c', _, hfind, ?_, ?_⟩
    · have hurl : e.url ∈ resident := (hmem _).mp (List.mem_map_of_mem he)
      simpa using hurl
    · intro x hx
      rw [← Option.some.inj hx]

/-- The cache agrees with the reference after a run exactly when its records do. -/
theorem agree_after_iff (cap : ℕ) (hcap : 1 ≤ cap) (calls : List CacheOp) :
    (∃ c, Runs.run step (create cap) calls = some c ∧
      (∀ url, url ∈ c.urls ↔ url ∈ (history cap calls).resident) ∧
      c.AnswersBy (history cap calls).resident) ↔
      (records cap calls).resident = (history cap calls).resident := by
  obtain ⟨c, hrun, hf⟩ := exists_run_follows cap hcap calls
  constructor
  · rintro ⟨c', hrun', hmem, _⟩
    cases hrun.symm.trans hrun'
    ext url
    rw [← hf.mem_iff, hmem]
  · intro hsame
    have hmem : ∀ url, url ∈ c.urls ↔ url ∈ (history cap calls).resident := by
      intro url
      rw [hf.mem_iff, hsame]
    exact ⟨c, hrun, hmem, hf.wellFormed.answersBy hmem⟩

/-- After any calls on the empty cache both caches hold the same URLs and answer alike
all along, exactly when at each eviction the holder of the last record, or the newcomer
that goes in its place, was the least touched URL. -/
theorem lfu_agrees_iff_records_least (cap : ℕ) (hcap : 1 ≤ cap) (ops : List CacheOp) :
    Agrees cap ops ↔ RecordsLeast cap ops := by
  rw [RecordsLeast, ← RecordCache.resident_eq_iff cap hcap]
  constructor
  · intro hagrees calls hcalls
    obtain ⟨ops', rfl, hops'⟩ : ∃ ops', calls = ops'.map CacheOp.access ∧ ops' <+: ops := by
      refine ⟨ops.take calls.length, ?_, List.take_prefix _ _⟩
      rw [List.map_take]
      exact List.prefix_iff_eq_take.mp hcalls
    exact (agree_after_iff cap hcap ops').mp (hagrees ops' hops')
  · intro hsame calls hcalls
    exact (agree_after_iff cap hcap calls).mpr (hsame _ (hcalls.map CacheOp.access))

/-- Both residents of a full cache have one hit, the holder of the record the older one. -/
theorem lfu_agrees_iff_records_least_two :
    Agrees 2 [.add ['a'] [] 0 0, .add ['b'] [] 0 0, .find ['a'] 1, .find ['b'] 2,
      .add ['c'] [] 0 3, .remove ['b'], .add ['d'] [] 0 4, .add ['e'] [] 0 5] :=
  (lfu_agrees_iff_records_least 2 (by decide) _).mpr (by decide)

/-- One hit on `a` puts its node in front, `b` joins it there, and the next
insertion evicts `a`, which has the larger count. -/
theorem lfu_evicts_touched_url :
    ¬ ∀ cap, 1 ≤ cap → ∀ ops, Agrees cap ops := by
  intro hall
  obtain ⟨c, hrun, hmem, _⟩ := hall 2 (by decide)
    [.add ['a'] [] 0 0, .find ['a'] 1, .add ['b'] [] 0 2, .add ['c'] [] 0 3] _
    (List.prefix_refl _)
  have hurls : (Runs.run step (create 2) [.add ['a'] [] 0 0, .find ['a'] 1, .add ['b'] [] 0 2,
      .add ['c'] [] 0 3]).map urls = some [['c'], ['b']] := by decide
  rw [hrun, Option.map_some, Option.some.injEq] at hurls
  have ha := (hmem ['a']).mpr (by decide)
  rw [hurls] at ha
  revert ha
  decide

end ProxyServer.LFUCache
