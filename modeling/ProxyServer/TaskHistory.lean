import ProxyServer.ThreadPool

/-!
What becomes of the tasks of a pool. The tasks removed, followed by those still
in the queue, are the tasks enqueued, so that none is lost, doubled or
overtaken; and the tasks removed are those that workers have taken and not
started, with those that were started, of which the same holds in turn. Once
all workers have returned every task has been executed.
-/
namespace ProxyServer.ThreadPool

open Parties

variable {W T : Type*}

/-- The task a worker has removed and not started. -/
def unstarted : WorkerPoint T → Multiset (Task T)
  | .took task => {task}
  | _ => 0

/-- The task a worker has started and not finished. -/
def unfinished : WorkerPoint T → Multiset (Task T)
  | .executing task => {task}
  | _ => 0

/-- The functions that the run enqueues, in order. -/
def enqueues (ls : List (Step W T)) : List T :=
  ls.filterMap (fun l => match l with
    | .enqueue task => some task
    | _ => none)

/-- The books of the history agree with the queue and the points of the
workers. -/
structure Accounts [Fintype W] (s : ThreadPool W T) : Prop where
  calls : s.history.enqueued.map Task.call = List.range s.history.enqueued.length
  queue : s.history.removed.map Prod.snd ++ s.tasks = s.history.enqueued
  removed : (s.history.removed.map Prod.snd : Multiset (Task T)) =
    total unstarted s.point + s.history.started
  started : (s.history.started : Multiset (Task T)) =
    total unfinished s.point + s.history.executed

namespace Accounts

variable [Fintype W] {s s' : ThreadPool W T}

theorem create : (ThreadPool.create : ThreadPool W T).Accounts where
  calls := rfl
  queue := rfl
  removed := by
    have hnone : total unstarted (ThreadPool.create : ThreadPool W T).point = 0 :=
      total_eq_zero (fun _ => rfl)
    rw [hnone]
    rfl
  started := by
    have hnone : total unfinished (ThreadPool.create : ThreadPool W T).point = 0 :=
      total_eq_zero (fun _ => rfl)
    rw [hnone]
    rfl

theorem nodup (h : s.Accounts) : s.history.enqueued.Nodup := by
  apply List.Nodup.of_map Task.call
  rw [h.calls]
  exact List.nodup_range

/-- The queue and the history stay, and no worker's hands change. -/
theorem moved (h : s.Accounts) (htasks : s'.tasks = s.tasks) (hhistory : s'.history = s.history)
    (hunstarted : total unstarted s'.point = total unstarted s.point)
    (hunfinished : total unfinished s'.point = total unfinished s.point) : s'.Accounts where
  calls := by rw [hhistory, h.calls]
  queue := by rw [hhistory, htasks, h.queue]
  removed := by rw [hhistory, hunstarted, h.removed]
  started := by rw [hhistory, hunfinished, h.started]

theorem push (h : s.Accounts) (task : T) : (s.push task).Accounts where
  calls := by
    simp only [ThreadPool.push, List.map_append, List.map_cons, List.map_nil, List.length_append,
      List.length_cons, List.length_nil, List.range_succ, h.calls]
  queue := by
    simp only [ThreadPool.push]
    rw [← List.append_assoc, h.queue]
  removed := h.removed
  started := h.started

theorem started_le (h : s.Accounts) :
    (s.history.started : Multiset (Task T)) ≤ s.history.removed.map Prod.snd := by
  rw [h.removed]
  exact Multiset.le_add_left _ _

theorem started_nodup (h : s.Accounts) : s.history.started.Nodup := by
  have hremoved : (s.history.removed.map Prod.snd).Nodup := by
    have hall := h.nodup
    rw [← h.queue] at hall
    exact hall.of_append_left
  exact Multiset.coe_nodup.mp (Multiset.nodup_of_le h.started_le (Multiset.coe_nodup.mpr hremoved))

/-- A task is in the queue, or one worker and no other has removed it. -/
theorem removed_by_one (h : s.Accounts) {task : Task T} (htask : task ∈ s.history.enqueued) :
    task ∈ s.tasks ∨ ∃! w, (w, task) ∈ s.history.removed := by
  have hnodup := h.nodup
  rw [← h.queue] at htask hnodup
  rcases List.mem_append.mp htask with hremoved | hqueued
  · obtain ⟨⟨w, task⟩, hmem, rfl⟩ := List.mem_map.mp hremoved
    refine Or.inr ⟨w, hmem, fun v hv => ?_⟩
    have hsame := List.inj_on_of_nodup_map hnodup.of_append_left hv hmem rfl
    exact congrArg Prod.fst hsame
  · exact Or.inl hqueued

/-- With the queue empty and nothing in the workers' hands, all is executed. -/
theorem executed_perm (h : s.Accounts) (htasks : s.tasks = [])
    (hreturned : ∀ w, s.point w = .returned) : s.history.executed.Perm s.history.enqueued := by
  have hremoved := h.removed
  have hstarted := h.started
  rw [total_eq_zero (fun w => by rw [hreturned w]; rfl), zero_add] at hremoved hstarted
  apply Multiset.coe_eq_coe.mp
  rw [← hstarted, ← hremoved, ← h.queue, htasks, List.append_nil]

variable [DecidableEq W]

/-- A worker whose hands are empty before and after. -/
theorem goto (h : s.Accounts) {w : W} {p : WorkerPoint T}
    (hunstarted : unstarted p = unstarted (s.point w))
    (hunfinished : unfinished p = unfinished (s.point w)) : (s.goto w p).Accounts :=
  h.moved rfl rfl (total_update_of_eq hunstarted) (total_update_of_eq hunfinished)

theorem take (h : s.Accounts) {w : W} (hw : s.point w = .lock) {task : Task T}
    {rest : List (Task T)} (htasks : s.tasks = task :: rest) :
    Accounts ({ s with
      tasks := rest
      history := { s.history with removed := s.history.removed ++ [(w, task)] } }.goto w
        (.took task)) where
  calls := h.calls
  queue := by
    simp only [ThreadPool.goto, List.map_append, List.map_cons, List.map_nil, List.append_assoc,
      List.singleton_append]
    rw [← htasks, h.queue]
  removed := by
    have hmove := total_update unstarted s.point w (.took task)
    rw [hw] at hmove
    simp only [unstarted, add_zero] at hmove
    simp only [ThreadPool.goto, List.map_append, List.map_cons, List.map_nil, ← Multiset.coe_add,
      Multiset.coe_singleton]
    rw [h.removed, hmove]
    ac_rfl
  started := by
    simp only [ThreadPool.goto]
    rw [total_update_of_eq (by rw [hw]; rfl), h.started]

theorem start (h : s.Accounts) {w : W} {task : Task T} (hw : s.point w = .took task) :
    Accounts ({ s with
      history := { s.history with started := s.history.started ++ [task] } }.goto w
        (.executing task)) where
  calls := h.calls
  queue := h.queue
  removed := by
    have hmove := total_update unstarted s.point w (.executing task)
    rw [hw] at hmove
    simp only [unstarted, add_zero] at hmove
    simp only [ThreadPool.goto, ← Multiset.coe_add, Multiset.coe_singleton]
    rw [h.removed, ← hmove]
    ac_rfl
  started := by
    have hmove := total_update unfinished s.point w (.executing task)
    rw [hw] at hmove
    simp only [unfinished, add_zero] at hmove
    simp only [ThreadPool.goto, ← Multiset.coe_add, Multiset.coe_singleton]
    rw [h.started, hmove]
    ac_rfl

theorem finish (h : s.Accounts) {w : W} {task : Task T} (hw : s.point w = .executing task) :
    Accounts ({ s with
      history := { s.history with executed := s.history.executed ++ [task] } }.goto w .lock) where
  calls := h.calls
  queue := h.queue
  removed := by
    simp only [ThreadPool.goto]
    rw [total_update_of_eq (by rw [hw]; rfl), h.removed]
  started := by
    have hmove := total_update unfinished s.point w .lock
    rw [hw] at hmove
    simp only [unfinished, add_zero] at hmove
    simp only [ThreadPool.goto, ← Multiset.coe_add, Multiset.coe_singleton]
    rw [h.started, ← hmove]
    ac_rfl

theorem step (h : s.Accounts) {l : Step W T} (hstep : Transition s l s') : s'.Accounts := by
  cases hstep with
  | enqueue task => exact h.push task
  | notifyOne _ _ hw => exact (h.goto (by rw [hw]; rfl) (by rw [hw]; rfl)).moved rfl rfl rfl rfl
  | notifyNone => exact h.moved rfl rfl rfl rfl
  | ready hw => exact (h.goto (by rw [hw]; rfl) (by rw [hw]; rfl)).moved rfl rfl rfl rfl
  | take hw _ htasks => exact h.take hw htasks
  | leave hw => exact h.goto (by rw [hw]; rfl) (by rw [hw]; rfl)
  | check hw => exact (h.goto (by rw [hw]; rfl) (by rw [hw]; rfl)).moved rfl rfl rfl rfl
  | block hw => exact (h.goto (by rw [hw]; rfl) (by rw [hw]; rfl)).moved rfl rfl rfl rfl
  | wake hw => exact h.goto (by rw [hw]; rfl) (by rw [hw]; rfl)
  | start hw => exact h.start hw
  | finish hw => exact h.finish hw
  | setStop => exact h.moved rfl rfl rfl rfl
  | notifyAll =>
    have hwoken : ∀ w, unstarted (wakeAll s.point w) = unstarted (s.point w) ∧
        unfinished (wakeAll s.point w) = unfinished (s.point w) := by
      intro w
      unfold wakeAll
      split
      · rename_i hw
        rw [isBlocked_iff.mp hw]
        exact ⟨rfl, rfl⟩
      · exact ⟨rfl, rfl⟩
    exact h.moved rfl rfl (total_congr (fun w => (hwoken w).1))
      (total_congr (fun w => (hwoken w).2))
  | join => exact h.moved rfl rfl rfl rfl

end Accounts

variable [Fintype W] [DecidableEq W] {s s' : ThreadPool W T}

theorem run_accounts {ls : List (Step W T)} (hrun : Runs.run step create ls = some s) :
    s.Accounts :=
  Runs.run_invariant step Accounts (fun _ _ _ h hstep => h.step (transition_of_step hstep)) ls
    create s Accounts.create hrun

/-- The tasks that the history has as enqueued are those that the run enqueues. -/
theorem run_enqueued {ls : List (Step W T)} (hrun : Runs.run step s ls = some s') :
    s'.history.enqueued.map Task.task = s.history.enqueued.map Task.task ++ enqueues ls := by
  induction ls generalizing s with
  | nil =>
    cases hrun
    simp [enqueues]
  | cons l ls ih =>
    obtain ⟨t, ht, hrest⟩ := Option.bind_eq_some_iff.mp hrun
    rw [ih hrest]
    cases transition_of_step ht <;> simp [enqueues, push, goto]

/-- The step is not a call of `enqueue` once the destructor has begun. -/
def EnqueuesInTime (s : ThreadPool W T) (l : Step W T) : Prop :=
  s.destructor ≠ .setStop → ∀ task, l ≠ .enqueue task

/-- A worker returns when the pool is stopped and its queue is empty, and the
destructor when all workers have. -/
structure Draining (s : ThreadPool W T) : Prop where
  stopped : s.stop = true → s.destructor ≠ .setStop
  drained : ∀ w, s.point w = .returned → s.stop = true ∧ s.tasks = []
  joined : s.destructor = .returned → ∀ w, s.point w = .returned

namespace Draining

omit [Fintype W] [DecidableEq W] in
theorem create : (ThreadPool.create : ThreadPool W T).Draining :=
  ⟨by simp [ThreadPool.create], by simp [ThreadPool.create], by simp [ThreadPool.create]⟩

omit [Fintype W] in
/-- A worker moves on and does not return, and the queue grows no longer. -/
theorem moved (h : s.Draining) {w : W} {p : WorkerPoint T} (hw : s.point w ≠ .returned)
    (hp : p ≠ .returned) (hpoint : s'.point = Function.update s.point w p)
    (hstop : s'.stop = s.stop) (hdestructor : s'.destructor = s.destructor)
    (htasks : s.tasks = [] → s'.tasks = []) : s'.Draining := by
  have hreturned : ∀ v, s'.point v = .returned → s.point v = .returned := by
    intro v hv
    rw [hpoint] at hv
    by_cases hvw : v = w
    · subst hvw
      rw [Function.update_self] at hv
      exact absurd hv hp
    · rwa [Function.update_of_ne hvw] at hv
  refine ⟨?_, ?_, ?_⟩
  · rw [hstop, hdestructor]
    exact h.stopped
  · intro v hv
    obtain ⟨hvstop, hvtasks⟩ := h.drained v (hreturned v hv)
    exact ⟨hstop.trans hvstop, htasks hvtasks⟩
  · intro hgone
    exact absurd (h.joined (hdestructor.symm.trans hgone) w) hw

omit [Fintype W] in
theorem step (h : s.Draining) {l : Step W T} (hin : EnqueuesInTime s l)
    (hstep : Transition s l s') : s'.Draining := by
  cases hstep with
  | enqueue task hlive =>
    have hbegun : s.destructor = .setStop := by
      by_contra hbegun
      exact hin hbegun task rfl
    refine ⟨h.stopped, fun w hw => ?_, fun hgone => absurd hgone hlive⟩
    exact absurd hbegun (h.stopped (h.drained w hw).1)
  | notifyOne _ _ hw => exact h.moved (by simp [hw]) (by simp) rfl rfl rfl id
  | notifyNone => exact ⟨h.stopped, h.drained, h.joined⟩
  | ready hw => exact h.moved (by simp [hw]) (by simp) rfl rfl rfl id
  | take hw _ htasks =>
    refine h.moved (by simp [hw]) (by simp) rfl rfl rfl ?_
    simp [htasks]
  | @leave w hw _ hstop htasks =>
    refine ⟨h.stopped, fun _ _ => ⟨hstop, htasks⟩, fun hgone => ?_⟩
    have hreturned := h.joined hgone w
    rw [hw] at hreturned
    contradiction
  | check hw => exact h.moved (by simp [hw]) (by simp) rfl rfl rfl id
  | block hw => exact h.moved (by simp [hw]) (by simp) rfl rfl rfl id
  | wake hw => exact h.moved (by simp [hw]) (by simp) rfl rfl rfl id
  | start hw => exact h.moved (by simp [hw]) (by simp) rfl rfl rfl id
  | finish hw => exact h.moved (by simp [hw]) (by simp) rfl rfl rfl id
  | setStop => exact ⟨by simp, fun w hw => ⟨rfl, (h.drained w hw).2⟩, by simp⟩
  | notifyAll =>
    refine ⟨by simp, fun w hw => ?_, by simp⟩
    apply h.drained w
    simp only [wakeAll] at hw
    split at hw
    · contradiction
    · exact hw
  | join hd hreturned =>
    refine ⟨by simp, fun w hw => ?_, fun _ => hreturned⟩
    exact h.drained w hw

end Draining

/-- No schedule loses, doubles or reorders a task; and where the destructor
begins after the last `enqueue`, all have been executed when it returns. -/
theorem run_executes_once [Nonempty W] {ls : List (Step W T)}
    (hrun : Runs.run step create ls = some s) :
    s.history.enqueued.map Task.task = enqueues ls ∧ s.history.enqueued.Nodup ∧
      s.history.removed.map Prod.snd ++ s.tasks = s.history.enqueued ∧
      (∀ task ∈ s.history.enqueued,
        task ∈ s.tasks ∨ ∃! w, (w, task) ∈ s.history.removed) ∧
      s.history.started.Nodup ∧ s.history.started ⊆ s.history.removed.map Prod.snd ∧
      (Runs.EveryStep step EnqueuesInTime create ls → s.destructor = .returned →
        s.history.executed.Perm s.history.enqueued) := by
  have h := run_accounts hrun
  refine ⟨?_, h.nodup, h.queue, fun _ => h.removed_by_one, h.started_nodup, ?_, ?_⟩
  · rw [run_enqueued hrun]
    rfl
  · intro task htask
    exact Multiset.mem_coe.mp (Multiset.mem_of_le h.started_le (Multiset.mem_coe.mpr htask))
  · intro hin hgone
    have hdraining := Runs.run_invariant_of_everyStep step Draining EnqueuesInTime
      (fun _ _ _ h hin hstep => h.step hin (transition_of_step hstep)) ls create s
      Draining.create hin hrun
    have hreturned := hdraining.joined hgone
    exact h.executed_perm (hdraining.drained (Classical.arbitrary W) (hreturned _)).2 hreturned

/-- One of two workers executes the task and is the first to return. -/
theorem run_executes_once_two :
    ∃ s : ThreadPool (Fin 2) ℕ, Runs.run step create [.enqueue 7, .notifyOne none, .worker 0,
        .worker 0, .worker 1, .setStop, .worker 0, .worker 0, .notifyAll, .worker 0, .worker 1,
        .join] = some s ∧ s.destructor = .returned ∧
      s.history.executed.Perm s.history.enqueued ∧ s.history.enqueued.map Task.task = [7] := by
  obtain ⟨s, hrun, hgone⟩ : ∃ s : ThreadPool (Fin 2) ℕ, Runs.run step create [.enqueue 7,
      .notifyOne none, .worker 0, .worker 0, .worker 1, .setStop, .worker 0, .worker 0, .notifyAll,
      .worker 0, .worker 1, .join] = some s ∧ s.destructor = .returned := ⟨_, rfl, rfl⟩
  obtain ⟨henqueued, _, _, _, _, _, hexecuted⟩ := run_executes_once hrun
  refine ⟨s, hrun, hgone, hexecuted ⟨fun hbegun => absurd rfl hbegun, fun _ _ => ?_⟩ hgone,
    henqueued⟩
  apply Runs.everyStep_of_forall
  intro l hl _ _ task htask
  subst htask
  simp at hl

end ProxyServer.ThreadPool
