import Mathlib.Data.List.Basic

/-!
Runs of a partial labelled machine. A machine is a function giving the state
after a label, or `none` where the label is not enabled (or the program's
behaviour is undefined). An invariant or a simulation is checked on one step
here and then holds along every run; a property of steps is stated with
`EveryStep`, which looks at each step of a run in the state it is taken in.
-/
namespace ProxyServer.Runs

variable {S T L : Type*}

/-- The state reached from `s` by taking the labels in order. -/
def run (step : S → L → Option S) (s : S) (labels : List L) : Option S :=
  labels.foldlM step s

@[simp] theorem run_nil (step : S → L → Option S) (s : S) : run step s [] = some s := rfl

@[simp] theorem run_cons (step : S → L → Option S) (s : S) (l : L) (ls : List L) :
    run step s (l :: ls) = (step s l).bind (fun s' => run step s' ls) := rfl

theorem run_append (step : S → L → Option S) (s : S) (ls ms : List L) :
    run step s (ls ++ ms) = (run step s ls).bind (fun s' => run step s' ms) :=
  List.foldlM_append

theorem run_concat (step : S → L → Option S) (s : S) (ls : List L) (l : L) :
    run step s (ls ++ [l]) = (run step s ls).bind (fun t => step t l) := by
  rw [run_append]
  simp only [run_cons, run_nil, Option.bind_fun_some]

theorem exists_run_of_prefix {step : S → L → Option S} {s t : S} {ms ls : List L} (h : ms <+: ls)
    (hrun : run step s ls = some t) : ∃ u, run step s ms = some u := by
  obtain ⟨rest, rfl⟩ := h
  rw [run_append] at hrun
  obtain ⟨u, hu, _⟩ := Option.bind_eq_some_iff.mp hrun
  exact ⟨u, hu⟩

/-- Stages that each lead to the next one lead to the last. -/
theorem run_stages (step : S → L → Option S) (R : ℕ → S → Prop) (n : ℕ)
    (hnext : ∀ k, k < n → ∀ s, R k s → ∃ ls s', run step s ls = some s' ∧ R (k + 1) s')
    {s : S} (hs : R 0 s) : ∃ ls s', run step s ls = some s' ∧ R n s' := by
  induction n with
  | zero => exact ⟨[], s, rfl, hs⟩
  | succ n ih =>
    obtain ⟨ls, t, hrun, ht⟩ := ih (fun k hk => hnext k (Nat.lt_succ_of_lt hk))
    obtain ⟨ms, s', hrest, hs'⟩ := hnext n (Nat.lt_succ_self n) t ht
    exact ⟨ls ++ ms, s', by rw [run_append, hrun, Option.bind_some, hrest], hs'⟩

/-- A machine that is enabled everywhere folds its step function. -/
theorem run_some (f : S → L → S) (ls : List L) :
    ∀ s, run (fun s l => some (f s l)) s ls = some (ls.foldl f s) := by
  induction ls with
  | nil => exact fun _ => rfl
  | cons l ls ih => exact fun s => ih (f s l)

/-- `EveryStep step P s ls`: each label of the run from `s` satisfies `P` in
the state it is taken in. -/
def EveryStep (step : S → L → Option S) (P : S → L → Prop) (s : S) : List L → Prop
  | [] => True
  | l :: ls => P s l ∧ ∀ s', step s l = some s' → EveryStep step P s' ls

instance EveryStep.decidable (step : S → L → Option S) (P : S → L → Prop)
    [∀ s l, Decidable (P s l)] : ∀ s ls, Decidable (EveryStep step P s ls)
  | _, [] => isTrue trivial
  | s, l :: ls =>
      match h : step s l with
      | none => decidable_of_iff (P s l) ⟨fun hl => ⟨hl, by simp [h]⟩, And.left⟩
      | some t =>
          have := EveryStep.decidable step P t ls
          decidable_of_iff (P s l ∧ EveryStep step P t ls)
            ⟨fun hl => ⟨hl.1, by simpa [h] using hl.2⟩, fun hl => ⟨hl.1, hl.2 t h⟩⟩

/-- What the steps of a run cost, each in the state it is taken in. -/
def cost (step : S → L → Option S) (c : S → L → ℕ) : S → List L → ℕ
  | _, [] => 0
  | s, l :: ls => c s l + match step s l with
    | none => 0
    | some s' => cost step c s' ls

/-- Steps that use up a weight, but for what they cost, are no more than the weight and
the cost. -/
theorem length_le_cost (step : S → L → Option S) (c : S → L → ℕ) (weight : S → ℕ)
    (inv : S → Prop) (hstep : ∀ s l s', inv s → step s l = some s' →
      inv s' ∧ weight s' + 1 ≤ weight s + c s l) (ls : List L) :
    ∀ s s', inv s → run step s ls = some s' →
      weight s' + ls.length ≤ weight s + cost step c s ls := by
  induction ls with
  | nil =>
    intro s s' _ hrun
    cases hrun
    exact Nat.le_refl _
  | cons l ls ih =>
    intro s s' hs hrun
    obtain ⟨t, ht, hrest⟩ := Option.bind_eq_some_iff.mp hrun
    obtain ⟨hinv, hfirst⟩ := hstep s l t hs ht
    have hlater := ih t s' hinv hrest
    rw [List.length_cons, cost, ht]
    dsimp only
    omega

theorem everyStep_append (step : S → L → Option S) (P : S → L → Prop) (ls ms : List L) :
    ∀ s, EveryStep step P s (ls ++ ms) ↔ EveryStep step P s ls ∧
      ∀ s', run step s ls = some s' → EveryStep step P s' ms := by
  induction ls with
  | nil => simp [EveryStep]
  | cons l ls ih =>
    intro s
    simp only [List.cons_append, EveryStep, ih]
    constructor
    · rintro ⟨hP, hrest⟩
      refine ⟨⟨hP, fun s' hs' => (hrest s' hs').1⟩, ?_⟩
      intro s' hrun
      obtain ⟨t, ht, htail⟩ := Option.bind_eq_some_iff.mp hrun
      exact (hrest t ht).2 s' htail
    · rintro ⟨⟨hP, hsteps⟩, hrest⟩
      refine ⟨hP, fun t ht => ⟨hsteps t ht, fun s' htail => ?_⟩⟩
      exact hrest s' (by rw [run_cons, ht, Option.bind_some, htail])

/-- A step property that holds wherever a part of the run has led. -/
theorem everyStep_of_reached (step : S → L → Option S) (P : S → L → Prop) (ls : List L) :
    ∀ s, (∀ ms l, ms ++ [l] <+: ls → ∀ t, run step s ms = some t → P t l) →
      EveryStep step P s ls := by
  induction ls with
  | nil => exact fun _ _ => trivial
  | cons l ls ih =>
    intro s h
    refine ⟨h [] l ((List.cons_prefix_cons.mpr ⟨rfl, List.nil_prefix⟩)) s rfl, fun t ht => ?_⟩
    apply ih t
    intro ms m hms u hu
    apply h (l :: ms) m (List.cons_prefix_cons.mpr ⟨rfl, hms⟩) u
    rw [run_cons, ht, Option.bind_some, hu]

/-- A step property that the invariant and a step condition together imply
holds at every step of a run whose steps meet the condition. -/
theorem everyStep_of_invariant (step : S → L → Option S) (inv : S → Prop)
    (C P : S → L → Prop)
    (hP : ∀ s l, inv s → C s l → P s l)
    (hstep : ∀ s l s', inv s → C s l → step s l = some s' → inv s') (ls : List L) :
    ∀ s, inv s → EveryStep step C s ls → EveryStep step P s ls := by
  induction ls with
  | nil => exact fun _ _ _ => trivial
  | cons l ls ih =>
    rintro s hs ⟨hC, hrest⟩
    exact ⟨hP s l hs hC, fun t ht => ih t (hstep s l t hs hC ht) (hrest t ht)⟩

/-- An invariant that steps meeting the condition preserve holds at the end of
every run whose steps all meet it. -/
theorem run_invariant_of_everyStep (step : S → L → Option S) (inv : S → Prop)
    (C : S → L → Prop)
    (hstep : ∀ s l s', inv s → C s l → step s l = some s' → inv s') (ls : List L) :
    ∀ s s', inv s → EveryStep step C s ls → run step s ls = some s' → inv s' := by
  induction ls with
  | nil =>
    intro s s' hs _ hrun
    cases hrun
    exact hs
  | cons l ls ih =>
    rintro s s' hs ⟨hC, hrest⟩ hrun
    obtain ⟨t, ht, htail⟩ := Option.bind_eq_some_iff.mp hrun
    exact ih t s' (hstep s l t hs hC ht) (hrest t ht) htail

/-- A condition that the labels of the run meet in every state. -/
theorem everyStep_of_forall (step : S → L → Option S) (P : S → L → Prop) (ls : List L)
    (hls : ∀ l ∈ ls, ∀ s, P s l) : ∀ s, EveryStep step P s ls := by
  induction ls with
  | nil => exact fun _ => trivial
  | cons l ls ih =>
    intro s
    refine ⟨hls l List.mem_cons_self s, fun s' _ => ih ?_ s'⟩
    exact fun m hm => hls m (List.mem_cons_of_mem l hm)

/-- What one enabled step preserves, every run preserves. -/
theorem run_invariant (step : S → L → Option S) (inv : S → Prop)
    (hstep : ∀ s l s', inv s → step s l = some s' → inv s') (ls : List L) (s s' : S)
    (hs : inv s) (hrun : run step s ls = some s') : inv s' :=
  run_invariant_of_everyStep step inv (fun _ _ => True) (fun s l s' hs _ => hstep s l s' hs) ls s s'
    hs (everyStep_of_forall step (fun _ _ => True) ls (fun _ _ _ => trivial) s) hrun

/-- An invariant that knows the labels taken so far. -/
theorem run_invariant_of_labels (step : S → L → Option S) (inv : List L → S → Prop)
    (hstep : ∀ ls s l s', inv ls s → step s l = some s' → inv (ls ++ [l]) s') (ms : List L) :
    ∀ ls s s', inv ls s → run step s ms = some s' → inv (ls ++ ms) s' := by
  induction ms with
  | nil =>
    intro ls s s' hs hrun
    cases hrun
    rw [List.append_nil]
    exact hs
  | cons m ms ih =>
    intro ls s s' hs hrun
    obtain ⟨t, ht, hrest⟩ := Option.bind_eq_some_iff.mp hrun
    have hnext := ih (ls ++ [m]) t s' (hstep ls s m t hs ht) hrest
    rw [List.append_assoc, List.singleton_append] at hnext
    exact hnext

/-- When the invariant makes every label enabled and one step preserves it,
every run is defined and ends inside it. -/
theorem run_total (step : S → L → Option S) (inv : S → Prop)
    (hstep : ∀ s l, inv s → ∃ s', step s l = some s' ∧ inv s') (ls : List L) :
    ∀ s, inv s → ∃ s', run step s ls = some s' ∧ inv s' := by
  induction ls with
  | nil => exact fun s hs => ⟨s, rfl, hs⟩
  | cons l ls ih =>
    intro s hs
    obtain ⟨t, ht, hinv⟩ := hstep s l hs
    obtain ⟨s', hrun, hs'⟩ := ih t hinv
    exact ⟨s', by rw [run_cons, ht, Option.bind_some, hrun], hs'⟩

/-- Where the outcome of a step keeps `Q` exactly when the step meets the
condition, `Q` holds all along a run exactly when every step of it does. -/
theorem everyStep_iff_prefixes (step : S → L → Option S) (inv : S → Prop) (Q : Option S → Prop)
    (C : S → L → Prop)
    (hiff : ∀ s l, inv s → Q (some s) → (Q (step s l) ↔ C s l))
    (hinv : ∀ s l s', inv s → Q (some s) → step s l = some s' → inv s') (ls : List L) :
    ∀ s, inv s → Q (some s) →
      ((∀ ms, ms <+: ls → Q (run step s ms)) ↔ EveryStep step C s ls) := by
  induction ls with
  | nil =>
    intro s _ hQ
    refine iff_of_true ?_ trivial
    intro ms hms
    rw [List.prefix_nil.mp hms]
    exact hQ
  | cons l ls ih =>
    intro s hs hQ
    constructor
    · intro hall
      have hstep : Q (step s l) := by
        simpa using hall [l] (List.prefix_append [l] ls)
      refine ⟨(hiff s l hs hQ).mp hstep, ?_⟩
      intro t ht
      rw [ht] at hstep
      apply (ih t (hinv s l t hs hQ ht) hstep).mp
      intro ms hms
      have hrun := hall (l :: ms) (List.cons_prefix_cons.mpr ⟨rfl, hms⟩)
      rwa [run_cons, ht, Option.bind_some] at hrun
    · rintro ⟨hC, hrest⟩ ms hms
      have hstep : Q (step s l) := (hiff s l hs hQ).mpr hC
      cases ms with
      | nil => exact hQ
      | cons m ms =>
        obtain ⟨rfl, htail⟩ := List.cons_prefix_cons.mp hms
        cases ht : step s m with
        | none =>
          rw [run_cons, ht, Option.bind_none]
          rwa [ht] at hstep
        | some t =>
          rw [run_cons, ht, Option.bind_some]
          rw [ht] at hstep
          exact (ih t (hinv s m t hs hQ ht) hstep).mpr (hrest t ht) ms htail

/-- Two machines on the same labels: a relation that every step of the first
and the step of the second under the same label preserve holds after any run. -/
theorem run_simulation (step : S → L → Option S) (stepT : T → L → Option T)
    (R : S → T → Prop)
    (hstep : ∀ s t l, R s t → ∃ s' t', step s l = some s' ∧ stepT t l = some t' ∧ R s' t')
    (ls : List L) :
    ∀ s t, R s t → ∃ s' t', run step s ls = some s' ∧ run stepT t ls = some t' ∧ R s' t' := by
  induction ls with
  | nil => exact fun s t h => ⟨s, t, rfl, rfl, h⟩
  | cons l ls ih =>
    intro s t h
    obtain ⟨s', t', hs, ht, h'⟩ := hstep s t l h
    obtain ⟨s'', t'', hrs, hrt, h''⟩ := ih s' t' h'
    exact ⟨s'', t'', by rw [run_cons, hs, Option.bind_some, hrs],
      by rw [run_cons, ht, Option.bind_some, hrt], h''⟩

end ProxyServer.Runs
