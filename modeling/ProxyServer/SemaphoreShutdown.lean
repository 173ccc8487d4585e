import ProxyServer.SemaphoreBalance

/-!
The shutdown of the semaphore server. Once the signal handler has cleared `running`, no
worker comes to `accept` any more: one that is there may serve one client more, and
every worker has a bounded number of steps before it returns. What is left in the end
are the workers that `accept` does not answer, for which `start` waits.
-/
namespace ProxyServer.SemaphoreServer

open Parties

variable {W : Type*}

def isAccept : Point → Bool
  | .accept => true
  | _ => false

/-- The steps until a worker returns once `running` is cleared. -/
def ahead : Point → ℕ
  | .loop => 1
  | .semWait => 3
  | .check => 2
  | .accept => 9
  | .serve _ => 8
  | .socket _ => 7
  | .connect _ _ => 6
  | .forward _ _ => 5
  | .closeNewsockfd _ => 4
  | .closeClientSocket _ => 3
  | .semPost leave => if leave then 1 else 2
  | .returned => 0

def sigints (ls : List (Step W)) : ℕ :=
  ls.countP (fun l => match l with
    | .sigint => true
    | .worker _ _ => false)

/-- No worker can take a step but those that `accept` may answer. -/
def OnlyAccepts [DecidableEq W] (s : SemaphoreServer W) : Prop :=
  ∀ w event s', s.step (.worker w event) = some s' → s.point w = .accept

theorem ahead_le (p : Point) : ahead p ≤ 9 := by
  cases p with
  | semPost leave => cases leave <;> simp [ahead]
  | _ => simp [ahead]

section Steps
variable [DecidableEq W] {s s' : SemaphoreServer W} {w : W} {event : Event}

/-- With `running` cleared a worker moves towards its return, and not to `accept`. -/
theorem shutdown_workerStep (hstop : s.running = false)
    (hstep : s.step (.worker w event) = some s') (hevent : event ≠ .exit) :
    s'.running = false ∧ ∃ p, s'.point = Function.update s.point w p ∧
      ahead p + 1 ≤ ahead (s.point w) ∧ isAccept p = false := by
  rw [step] at hstep
  generalize hp : s.point w = p at hstep
  unfold workerStep at hstep
  split at hstep
  case h_1 =>
    cases hstep
    rw [hstop]
    exact ⟨hstop, _, rfl, by decide, rfl⟩
  case h_2 =>
    split at hstep
    case isTrue hpos =>
      cases hstep
      exact ⟨hstop, _, rfl, by decide, rfl⟩
    case isFalse => contradiction
  case h_3 =>
    cases hstep
    rw [hstop]
    exact ⟨hstop, _, rfl, by decide, rfl⟩
  case h_5 =>
    split at hstep
    · cases hstep
      exact ⟨hstop, _, rfl, by simp [ahead], rfl⟩
    · contradiction
  case h_8 => exact absurd rfl hevent
  case h_10 =>
    split at hstep
    · cases hstep
      exact ⟨hstop, _, rfl, by simp [ahead], rfl⟩
    · contradiction
  case h_16 leave =>
    cases hstep
    refine ⟨hstop, _, rfl, ?_, ?_⟩
    · cases leave <;> decide
    · cases leave <;> rfl
  case h_17 => contradiction
  all_goals
    cases hstep
    exact ⟨hstop, _, rfl, by simp [ahead], rfl⟩

theorem exit_step (hstep : s.step (.worker w .exit) = some s') :
    s' = { s with point := fun _ => .returned } ∧ ∃ fd, s.point w = .serve fd := by
  rw [step] at hstep
  cases hp : s.point w with
  | serve fd =>
    rw [hp, workerStep] at hstep
    exact ⟨(Option.some.inj hstep).symm, fd, rfl⟩
  | _ =>
    rw [hp] at hstep
    contradiction

/-- A worker passes `accept` when it is there, and does not come back. -/
theorem accept_step {l : Step W} (hstop : s.running = false) (hstep : s.step l = some s') (v : W) :
    s'.running = false ∧ passed isAccept v s l + (isAccept (s'.point v)).toNat ≤
      (isAccept (s.point v)).toNat := by
  cases l with
  | sigint =>
    cases hstep
    exact ⟨rfl, le_of_eq (Nat.zero_add _)⟩
  | worker w event =>
    by_cases hexit : event = .exit
    · subst hexit
      obtain ⟨rfl, fd, hfd⟩ := exit_step hstep
      refine ⟨hstop, ?_⟩
      rw [passed]
      by_cases hw : w = v
      · subst hw
        rw [if_pos rfl]
        exact le_refl _
      · rw [if_neg hw]
        exact Nat.zero_le _
    · obtain ⟨hstopped, p, hpoint, _, hp⟩ := shutdown_workerStep hstop hstep hexit
      refine ⟨hstopped, ?_⟩
      rw [passed, hpoint]
      by_cases hw : w = v
      · rw [if_pos hw, ← hw, Function.update_self, hp]
        exact le_refl _
      · rw [if_neg hw, Function.update_of_ne (Ne.symm hw), Nat.zero_add]

variable [Fintype W]

theorem total_step {l : Step W} (hstop : s.running = false) (hstep : s.step l = some s') :
    total ahead s'.point + 1 ≤ total ahead s.point + sigints [l] := by
  cases l with
  | sigint =>
    cases hstep
    exact le_refl _
  | worker w event =>
    by_cases hexit : event = .exit
    · subst hexit
      obtain ⟨rfl, fd, hfd⟩ := exit_step hstep
      obtain ⟨others, hbefore, _⟩ := total_split ahead s.point w
      have hnone : total ahead (fun _ : W => Point.returned) = 0 := total_eq_zero (fun _ => rfl)
      rw [hfd] at hbefore
      simp only [ahead] at hbefore
      rw [hnone]
      omega
    · obtain ⟨_, p, hpoint, hless, _⟩ := shutdown_workerStep hstop hstep hexit
      have hmove := total_update ahead s.point w p
      rw [hpoint]
      omega

end Steps

section Runs
variable [DecidableEq W]

theorem accept_run (w : W) (labels : List (Step W)) :
    ∀ {s t : SemaphoreServer W}, s.running = false → Runs.run step s labels = some t →
      t.running = false ∧ passes isAccept w s labels + (isAccept (t.point w)).toNat ≤
        (isAccept (s.point w)).toNat := by
  induction labels with
  | nil =>
    intro s t hstop hrun
    cases hrun
    exact ⟨hstop, le_of_eq (Nat.zero_add _)⟩
  | cons l ls ih =>
    intro s t hstop hrun
    obtain ⟨u, hu, hrest⟩ := Option.bind_eq_some_iff.mp hrun
    obtain ⟨hstopped, hfirst⟩ := accept_step hstop hu w
    obtain ⟨hlast, hpasses⟩ := ih hstopped hrest
    refine ⟨hlast, ?_⟩
    rw [passes, hu, Option.elim_some]
    omega

variable [Fintype W]

theorem length_run (labels : List (Step W)) :
    ∀ {s t : SemaphoreServer W}, s.running = false → Runs.run step s labels = some t →
      total ahead t.point + labels.length ≤ total ahead s.point + sigints labels := by
  induction labels with
  | nil =>
    intro s t _ hrun
    cases hrun
    exact le_refl _
  | cons l ls ih =>
    intro s t hstop hrun
    obtain ⟨u, hu, hrest⟩ := Option.bind_eq_some_iff.mp hrun
    have hstopped : u.running = false := by
      cases l with
      | sigint =>
        cases hu
        rfl
      | worker w event => exact (accept_step hstop hu w).1
    have hfirst := total_step hstop hu
    have hlast := ih hstopped hrest
    have hsigints : sigints ([l] ++ ls) = sigints [l] + sigints ls := List.countP_append
    rw [List.singleton_append] at hsigints
    rw [List.length_cons]
    omega

theorem permits_run_eq {labels : List (Step W)} {s t : SemaphoreServer W}
    (hreturns : Returns labels) (hrun : Runs.run step s labels = some t) :
    t.permits = s.permits := by
  apply Runs.run_invariant_of_everyStep step (fun u => u.permits = s.permits)
    (fun _ l => ∀ w, l ≠ .worker w .exit) _ labels s t rfl _ hrun
  · intro u l u' hu hl hstep
    rw [step_permits hl hstep, hu]
  · apply Runs.everyStep_of_forall
    intro l hl _ w heq
    exact hreturns w (heq ▸ hl)

/-- Every point has a step before it but `accept`, whose answer the worker awaits, and
the end. -/
theorem OnlyAccepts.point {s : SemaphoreServer W} (h : s.OnlyAccepts)
    (hpermits : s.permits = Fintype.card W) (w : W) :
    s.point w = .accept ∨ s.point w = .returned := by
  have hmoves : ∀ event s', s.workerStep w (s.point w) event = some s' → s.point w = .accept :=
    fun event s' hstep => h w event s' hstep
  cases hp : s.point w with
  | accept => exact Or.inl rfl
  | returned => exact Or.inr rfl
  | semWait =>
    have hpos : 0 < s.threadSemaphore := threadSemaphore_pos hpermits (w := w) (by rw [hp]; rfl)
    have haccept := hmoves .next _ (by rw [hp, workerStep, if_pos hpos])
    rw [hp] at haccept
    contradiction
  | serve fd =>
    have haccept := hmoves .hit _ (by rw [hp]; rfl)
    rw [hp] at haccept
    contradiction
  | socket fd =>
    have haccept := hmoves (.descriptor none) _ (by rw [hp]; rfl)
    rw [hp] at haccept
    contradiction
  | connect fd sockfd =>
    have haccept := hmoves (.connected true) _ (by rw [hp]; rfl)
    rw [hp] at haccept
    contradiction
  | _ =>
    have haccept := hmoves .next _ (by rw [hp]; rfl)
    rw [hp] at haccept
    contradiction

end Runs

/-- Once `running` is cleared, few steps are left, a worker accepts one client more at
most, and only if it was in `accept`; and when no worker can move but there, the others
have returned and given their permits back. -/
theorem shutdown_ends {numThreads : ℕ} {openFiles : ℤ → Option (Owner (Fin numThreads))}
    {labels rest : List (Step (Fin numThreads))} {s t : SemaphoreServer (Fin numThreads)}
    (hreturns : Returns (labels ++ rest))
    (hrun : Runs.run step (start numThreads openFiles) labels = some s)
    (hstop : s.running = false) (hrest : Runs.run step s rest = some t) :
    rest.length ≤ 9 * numThreads + sigints rest ∧
    (∀ w, passes isAccept w s rest + (isAccept (t.point w)).toNat ≤
      (isAccept (s.point w)).toNat) ∧
    (t.OnlyAccepts → (∀ w, t.point w = .accept ∨ t.point w = .returned) ∧
      t.threadSemaphore + count (isAccept ·) t.point = numThreads) := by
  have hstart : (start numThreads openFiles).permits = numThreads := by
    have hnone : total (fun p => (holdsPermit p).toNat)
        (start numThreads openFiles).point = 0 := total_eq_zero (fun _ => rfl)
    rw [permits_eq_total, hnone]
    rfl
  have hwhole : Runs.run step (start numThreads openFiles) (labels ++ rest) = some t := by
    rw [Runs.run_append, hrun, Option.bind_some, hrest]
  have hpermits : t.permits = numThreads := (permits_run_eq hreturns hwhole).trans hstart
  refine ⟨?_, fun w => (accept_run w rest hstop hrest).2, ?_⟩
  · have hlength := length_run rest hstop hrest
    have hbound : total ahead s.point ≤ 9 * numThreads := by
      calc total ahead s.point ≤ ∑ _w : Fin numThreads, 9 :=
            Finset.sum_le_sum (fun w _ => ahead_le (s.point w))
        _ = Finset.univ.card * 9 := Finset.sum_const_nat (fun _ _ => rfl)
        _ = 9 * numThreads := by rw [Finset.card_univ, Fintype.card_fin, Nat.mul_comm]
    omega
  · intro honly
    have hpoint := honly.point (by rw [hpermits, Fintype.card_fin])
    refine ⟨hpoint, ?_⟩
    have hsame : count (holdsPermit ·) t.point = count (isAccept ·) t.point := by
      rw [count_eq_total, count_eq_total]
      apply Finset.sum_congr rfl
      intro w _
      rcases hpoint w with hw | hw
      · rw [hw]
        rfl
      · rw [hw]
        rfl
    rw [permits, hsame] at hpermits
    exact hpermits

/-- Of three workers one is in `accept` when the signal comes and stays there, one serves
a client to its end, and one finds `running` cleared. -/
theorem shutdown_ends_accept : ∃ s t : SemaphoreServer (Fin 3),
    Runs.run step (start 3 (fun _ => none)) [.worker 0 .next, .worker 0 .next, .worker 0 .next,
      .worker 1 .next, .worker 1 .next, .worker 1 .next, .worker 1 (.descriptor (some 4)),
      .sigint] = some s ∧
    Runs.run step s [.worker 1 .hit, .worker 1 .next, .worker 2 .next, .worker 1 .next,
      .worker 1 .next, .worker 1 .next] = some t ∧
    (∀ w, passes isAccept w s [.worker 1 .hit, .worker 1 .next, .worker 2 .next, .worker 1 .next,
      .worker 1 .next, .worker 1 .next] + (isAccept (t.point w)).toNat ≤
        (isAccept (s.point w)).toNat) ∧
    (∀ w, t.point w = .accept ∨ t.point w = .returned) ∧
    t.threadSemaphore + count (isAccept ·) t.point = 3 := by
  obtain ⟨s, t, hrun, hstop, hrest, hpoint⟩ : ∃ s t : SemaphoreServer (Fin 3),
      Runs.run step (start 3 (fun _ => none)) [.worker 0 .next, .worker 0 .next, .worker 0 .next,
        .worker 1 .next, .worker 1 .next, .worker 1 .next, .worker 1 (.descriptor (some 4)),
        .sigint] = some s ∧ s.running = false ∧
      Runs.run step s [.worker 1 .hit, .worker 1 .next, .worker 2 .next, .worker 1 .next,
        .worker 1 .next, .worker 1 .next] = some t ∧
      ∀ w, t.point w = .accept ∨ t.point w = .returned :=
    ⟨_, _, rfl, rfl, rfl, by decide⟩
  have hreturns : Returns ([Step.worker (0 : Fin 3) .next, .worker 0 .next, .worker 0 .next,
      .worker 1 .next, .worker 1 .next, .worker 1 .next, .worker 1 (.descriptor (some 4)),
      .sigint] ++ [.worker 1 .hit, .worker 1 .next, .worker 2 .next, .worker 1 .next,
      .worker 1 .next, .worker 1 .next]) := by
    intro w hw
    simp at hw
  have honly : t.OnlyAccepts := by
    intro w event t' hstep
    refine (hpoint w).resolve_right (fun hreturned => ?_)
    rw [step, hreturned] at hstep
    cases event <;> contradiction
  obtain ⟨_, hpasses, hends⟩ := shutdown_ends hreturns hrun hstop hrest
  exact ⟨s, t, hrun, hrest, hpasses, hends honly⟩

end ProxyServer.SemaphoreServer
