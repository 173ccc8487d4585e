import ProxyServer.ThreadPool

/-!
The wake-ups of a pool. A notification may find nobody asleep, and the worker
it wakes may find the task gone; but while a worker sleeps, every task in the
queue has a notification still to come or a worker that is awake with empty
hands, since such a worker looks at the queue before it sleeps.
-/
namespace ProxyServer.ThreadPool

open Parties

variable {W T : Type*}

/-- Neither blocked nor with a task in hand. -/
def isIdle : WorkerPoint T → Bool
  | .blocked | .took _ | .executing _ => false
  | _ => true

variable [Fintype W]

def Attended (s : ThreadPool W T) : Prop :=
  (∃ w, s.point w = .blocked) → s.tasks.length ≤ s.notifying + count (isIdle ·) s.point

theorem create_attended : (create : ThreadPool W T).Attended := by
  rintro ⟨w, hw⟩
  contradiction

namespace Attended

variable [DecidableEq W] {s s' : ThreadPool W T}

/-- A worker moves to a point where it is not blocked, and what the move costs
in tasks it brings in notifications or workers awake. -/
theorem moved (h : s.Attended) {w : W} {p : WorkerPoint T} (hp : p ≠ .blocked)
    (hpoint : s'.point = Function.update s.point w p)
    (hcost : s'.tasks.length + (s.notifying + count (isIdle ·) s.point) ≤
      s.tasks.length + (s'.notifying + count (isIdle ·) (Function.update s.point w p))) :
    s'.Attended := by
  intro hblocked
  have hbefore : (∃ v, s.point v = .blocked) →
      s.tasks.length ≤ s.notifying + count (isIdle ·) s.point := h
  rw [hpoint] at hblocked ⊢
  exact le_awake_of_move (fun q : WorkerPoint T => q = .blocked) (isIdle ·) hbefore hp hcost
    hblocked

theorem step (h : s.Attended) (hguarded : s.Guarded) {l : Step W T}
    (hstep : Transition s l s') : s'.Attended := by
  cases hstep with
  | enqueue task =>
    intro hblocked
    have hle := h hblocked
    simp only [push, List.length_append, List.length_cons, List.length_nil]
    omega
  | notifyOne _ hnotifying hw =>
    apply h.moved (by simp) rfl
    rw [count_update_enter (by simp [hw, isIdle]) (by simp [isIdle])]
    simp only [goto]
    omega
  | notifyNone _ _ hnone =>
    rintro ⟨w, hw⟩
    exact absurd hw (hnone w)
  | ready hw =>
    apply h.moved (by simp) rfl
    rw [count_update_of_iff (by simp [hw, isIdle])]
    exact le_refl _
  | @take w task rest hw _ htasks =>
    apply h.moved (by simp) rfl
    have hleave : count (isIdle ·) (Function.update s.point w (.took task)) + 1 =
        count (isIdle ·) s.point :=
      count_update_leave (by simp [hw, isIdle]) (by simp [isIdle])
    simp only [goto, htasks, List.length_cons]
    omega
  | leave hw =>
    apply h.moved (by simp) rfl
    rw [count_update_of_iff (by simp [hw, isIdle])]
    exact le_refl _
  | check hw =>
    apply h.moved (by simp) rfl
    rw [count_update_of_iff (by simp [hw, isIdle])]
    exact le_refl _
  | block hw =>
    intro _
    simp [goto, hguarded.empty _ hw]
  | wake hw =>
    apply h.moved (by simp) rfl
    rw [count_update_enter (by simp [hw, isIdle]) (by simp [isIdle])]
    simp only [goto]
    omega
  | start hw =>
    apply h.moved (by simp) rfl
    rw [count_update_of_iff (by simp [hw, isIdle])]
    exact le_refl _
  | finish hw =>
    apply h.moved (by simp) rfl
    rw [count_update_enter (by simp [hw, isIdle]) (by simp [isIdle])]
    simp only [goto]
    omega
  | setStop => exact h
  | notifyAll =>
    rintro ⟨w, hw⟩
    simp only [wakeAll] at hw
    split at hw
    · contradiction
    · rename_i hawake
      exact absurd (isBlocked_iff.mpr hw) hawake
  | join => exact h

end Attended

variable [DecidableEq W]

/-- While a worker sleeps, each task in the queue has a notification to come or
a worker that is awake with empty hands. -/
theorem queued_le_notifying_add_idle {ls : List (Step W T)} {s : ThreadPool W T}
    (hrun : Runs.run step create ls = some s) (hblocked : ∃ w, s.point w = .blocked) :
    s.tasks.length ≤ s.notifying + count (isIdle ·) s.point := by
  have hboth := Runs.run_invariant step (fun s => s.Guarded ∧ s.Attended)
    (fun _ _ _ h hstep => ⟨h.1.step (transition_of_step hstep),
      h.2.step h.1 (transition_of_step hstep)⟩) ls create s
    ⟨create_guarded, create_attended⟩ hrun
  exact hboth.2 hblocked

/-- Worker 0 sleeps, and worker 1 takes the first of two tasks before anybody is
notified of them. -/
theorem queued_le_notifying_add_idle_two :
    ∃ s : ThreadPool (Fin 2) ℕ, Runs.run step create [.worker 0, .worker 0, .worker 0, .worker 1,
        .enqueue 7, .enqueue 8, .worker 1] = some s ∧ s.point 0 = .blocked ∧
      s.tasks.length ≤ s.notifying + count (isIdle ·) s.point := by
  obtain ⟨s, hrun, hblocked⟩ : ∃ s : ThreadPool (Fin 2) ℕ, Runs.run step create [.worker 0,
      .worker 0, .worker 0, .worker 1, .enqueue 7, .enqueue 8, .worker 1] = some s ∧
      s.point 0 = .blocked := ⟨_, rfl, rfl⟩
  exact ⟨s, hrun, hblocked, queued_le_notifying_add_idle hrun ⟨0, hblocked⟩⟩

end ProxyServer.ThreadPool
