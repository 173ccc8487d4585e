import ProxyServer.SemaphoreServer
import ProxyServer.Parties
import Mathlib.Algebra.Group.Nat.Defs

/-!
The permits of the semaphore server. A worker holds one from the return of its
`sem_wait` to the `sem_post` after it, whichever of the ways leads there, so the
value of the semaphore and the workers in between make up the initial value, and
a worker at `sem_wait` always finds a permit. As long as no `datafromclient` ends
the process this holds along every run.
-/
namespace ProxyServer.SemaphoreServer

open Parties

variable {W : Type*}

def isWait : Point → Bool
  | .semWait => true
  | _ => false

def isPost : Point → Bool
  | .semPost _ => true
  | _ => false

/-- Between `sem_wait` and the matching `sem_post`. -/
def holdsPermit : Point → Bool
  | .loop => false
  | .semWait => false
  | .returned => false
  | _ => true

section Steps
variable [DecidableEq W] {s s' : SemaphoreServer W} {w : W} {event : Event}

/-- What a step of a worker does to the semaphore and to its own permit. -/
theorem permits_workerStep (hstep : s.step (.worker w event) = some s') (hevent : event ≠ .exit) :
    ∃ p, s'.point = Function.update s.point w p ∧
      s.threadSemaphore + (isPost (s.point w)).toNat =
        s'.threadSemaphore + (isWait (s.point w)).toNat ∧
      (isWait (s.point w)).toNat + (holdsPermit (s.point w)).toNat =
        (isPost (s.point w)).toNat + (holdsPermit p).toNat := by
  rw [step] at hstep
  generalize hp : s.point w = p at hstep
  unfold workerStep at hstep
  split at hstep
  case h_1 =>
    cases hstep
    refine ⟨_, rfl, rfl, ?_⟩
    cases s.running <;> rfl
  case h_2 =>
    split at hstep
    case isTrue hpos =>
      cases hstep
      refine ⟨_, rfl, ?_, rfl⟩
      exact (Nat.sub_add_cancel hpos).symm
    case isFalse => contradiction
  case h_3 =>
    cases hstep
    refine ⟨_, rfl, rfl, ?_⟩
    cases s.running <;> rfl
  case h_5 =>
    split at hstep
    · cases hstep
      exact ⟨_, rfl, rfl, rfl⟩
    · contradiction
  case h_8 => exact absurd rfl hevent
  case h_10 =>
    split at hstep
    · cases hstep
      exact ⟨_, rfl, rfl, rfl⟩
    · contradiction
  case h_16 leave =>
    cases hstep
    refine ⟨_, rfl, rfl, ?_⟩
    cases leave <;> rfl
  case h_17 => contradiction
  all_goals
    cases hstep
    exact ⟨_, rfl, rfl, rfl⟩

end Steps

section Runs
variable [DecidableEq W]

/-- The step is one of the worker at a point of the kind. -/
def passed (kind : Point → Bool) (w : W) (s : SemaphoreServer W) : Step W → ℕ
  | .sigint => 0
  | .worker v _ => if v = w then (kind (s.point w)).toNat else 0

/-- How often the worker passes points of the kind in a run. -/
def passes (kind : Point → Bool) (w : W) : SemaphoreServer W → List (Step W) → ℕ
  | _, [] => 0
  | s, l :: ls => passed kind w s l + (s.step l).elim 0 (fun t => passes kind w t ls)

/-- The calls of `datafromclient` all return. -/
def Returns (labels : List (Step W)) : Prop := ∀ w, Step.worker w .exit ∉ labels

/-- A worker holds a permit for each wait that no post has answered. -/
theorem permits_step {s t : SemaphoreServer W} {l : Step W} (hl : ∀ w, l ≠ .worker w .exit)
    (hstep : s.step l = some t) (w : W) :
    passed isWait w s l + (holdsPermit (s.point w)).toNat =
      passed isPost w s l + (holdsPermit (t.point w)).toNat := by
  cases l with
  | sigint =>
    cases hstep
    rfl
  | worker v event =>
    have hevent : event ≠ .exit := by
      intro heq
      exact hl v (by rw [heq])
    obtain ⟨p, hpoint, _, hpermit⟩ := permits_workerStep hstep hevent
    rw [passed, passed, hpoint]
    by_cases hv : v = w
    · rw [if_pos hv, if_pos hv, hv, Function.update_self]
      rw [hv] at hpermit
      exact hpermit
    · rw [if_neg hv, if_neg hv, Function.update_of_ne (Ne.symm hv)]

theorem permits_run (w : W) (labels : List (Step W)) :
    ∀ {s t : SemaphoreServer W}, Returns labels → Runs.run step s labels = some t →
      passes isWait w s labels + (holdsPermit (s.point w)).toNat =
        passes isPost w s labels + (holdsPermit (t.point w)).toNat := by
  induction labels with
  | nil =>
    intro s t _ hrun
    cases hrun
    rfl
  | cons l ls ih =>
    intro s t hreturns hrun
    obtain ⟨u, hu, hrest⟩ := Option.bind_eq_some_iff.mp hrun
    have hl : ∀ v, l ≠ .worker v .exit := by
      intro v heq
      exact hreturns v (heq ▸ List.mem_cons_self)
    have hfirst := permits_step hl hu w
    have hlast := ih (fun v hv => hreturns v (List.mem_cons_of_mem l hv)) hrest
    rw [passes, passes, hu, Option.elim_some, Option.elim_some]
    omega

end Runs

section Balance
variable [Fintype W]

/-- The value of the semaphore and the permits held. -/
def permits (s : SemaphoreServer W) : ℕ := s.threadSemaphore + count (holdsPermit ·) s.point

theorem permits_eq_total (s : SemaphoreServer W) :
    s.permits = s.threadSemaphore + total (fun p => (holdsPermit p).toNat) s.point := by
  have hbit : (fun p => if holdsPermit p = true then 1 else 0) =
      fun p => (holdsPermit p).toNat := by
    funext p
    cases holdsPermit p <;> rfl
  rw [permits, count_eq_total, hbit]

/-- A worker that holds no permit leaves one for the semaphore. -/
theorem threadSemaphore_pos {s : SemaphoreServer W} (h : s.permits = Fintype.card W) {w : W}
    (hw : holdsPermit (s.point w) = false) : 0 < s.threadSemaphore := by
  have hlt : count (holdsPermit ·) s.point < Fintype.card W :=
    count_lt_card (w := w) (by rw [hw]; exact Bool.false_ne_true)
  rw [permits] at h
  omega

theorem step_permits [DecidableEq W] {s s' : SemaphoreServer W} {l : Step W}
    (hl : ∀ w, l ≠ .worker w .exit) (hstep : s.step l = some s') : s'.permits = s.permits := by
  cases l with
  | sigint =>
    cases hstep
    rfl
  | worker w event =>
    have hevent : event ≠ .exit := by
      intro heq
      exact hl w (by rw [heq])
    obtain ⟨p, hpoint, hsemaphore, hpermit⟩ := permits_workerStep hstep hevent
    have hmove := total_update (fun p => (holdsPermit p).toNat) s.point w p
    rw [permits_eq_total, permits_eq_total, hpoint]
    omega

end Balance

/-- In every state reached the permits are balanced, each worker has posted as
often as it has waited but for the permit it holds, and no `sem_wait` blocks. -/
theorem permits_balanced {numThreads : ℕ} {openFiles : ℤ → Option (Owner (Fin numThreads))}
    {labels : List (Step (Fin numThreads))} {s : SemaphoreServer (Fin numThreads)}
    (hreturns : Returns labels)
    (hrun : Runs.run step (start numThreads openFiles) labels = some s) :
    s.threadSemaphore + count (holdsPermit ·) s.point = numThreads ∧
    (∀ w, passes isWait w (start numThreads openFiles) labels =
      passes isPost w (start numThreads openFiles) labels + (holdsPermit (s.point w)).toNat) ∧
    (∀ w, s.point w = .returned → passes isWait w (start numThreads openFiles) labels =
      passes isPost w (start numThreads openFiles) labels) ∧
    ∀ w, s.point w = .semWait → (s.step (.worker w .next)).isSome := by
  have hstart : (start numThreads openFiles).permits = numThreads := by
    have hnone : total (fun p => (holdsPermit p).toNat)
        (start numThreads openFiles).point = 0 := total_eq_zero (fun _ => rfl)
    rw [permits_eq_total, hnone]
    rfl
  have hbalance : s.permits = numThreads := by
    apply Runs.run_invariant_of_everyStep step (fun t => t.permits = numThreads)
      (fun _ l => ∀ w, l ≠ .worker w .exit) _ labels _ s hstart _ hrun
    · intro t l t' ht hl hstep
      rw [step_permits hl hstep, ht]
    · apply Runs.everyStep_of_forall
      intro l hl _ w heq
      exact hreturns w (heq ▸ hl)
  have hpermit : ∀ w, passes isWait w (start numThreads openFiles) labels =
      passes isPost w (start numThreads openFiles) labels + (holdsPermit (s.point w)).toNat :=
    fun w => permits_run w labels hreturns hrun
  refine ⟨hbalance, hpermit, ?_, ?_⟩
  · intro w hw
    have hcount := hpermit w
    rw [hw] at hcount
    exact hcount
  · intro w hw
    have hpos : 0 < s.threadSemaphore := by
      apply threadSemaphore_pos (w := w)
      · rw [hbalance, Fintype.card_fin]
      · rw [hw]
        rfl
    rw [step, hw, workerStep, if_pos hpos]
    rfl

/-- One worker waits while the other is shown the shutdown after its wait. -/
theorem permits_balanced_shutdown : ∃ s,
    Runs.run step (start 2 (fun _ => none) : SemaphoreServer (Fin 2))
      [.worker 0 .next, .worker 1 .next, .worker 0 .next, .sigint, .worker 0 .next] = some s ∧
    s.threadSemaphore + count (holdsPermit ·) s.point = 2 ∧
    (s.step (.worker 1 .next)).isSome := by
  obtain ⟨s, hs⟩ : ∃ s, Runs.run step (start 2 (fun _ => none) : SemaphoreServer (Fin 2))
      [.worker 0 .next, .worker 1 .next, .worker 0 .next, .sigint, .worker 0 .next] = some s :=
    ⟨_, rfl⟩
  have hreturns : Returns [Step.worker (0 : Fin 2) .next, .worker 1 .next, .worker 0 .next,
      .sigint, .worker 0 .next] := by
    intro w hw
    simp at hw
  obtain ⟨hbalance, _, _, hwait⟩ := permits_balanced hreturns hs
  have hpoint : s.point 1 = .semWait := by
    cases hs
    rfl
  exact ⟨s, hs, hbalance, hwait 1 hpoint⟩

end ProxyServer.SemaphoreServer
