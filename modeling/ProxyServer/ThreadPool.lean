import ProxyServer.Runs
import ProxyServer.Parties

/-!
The thread pool. A critical section under `queueMutex` is one step, but for the
wait in a worker's loop: finding the predicate false and blocking are two, with
the mutex held in between, since `stop` and `notify_all` do not ask for it. A
task carries the number of the call that enqueued it, so that one function
enqueued twice is two tasks. Beside the pool stands its history, which no step
reads.
-/
namespace ProxyServer

structure Task (T : Type*) where
  call : ℕ
  task : T
  deriving DecidableEq, Repr

/-- Where a worker thread is. At `checked` it has found the wait predicate
false and holds `queueMutex`; at `took` it has a task that it has not started. -/
inductive WorkerPoint (T : Type*)
  | starting
  | lock
  | checked
  | blocked
  | took (task : Task T)
  | executing (task : Task T)
  | returned
  deriving DecidableEq

/-- What the destructor does next. -/
inductive DestructorPoint
  | setStop
  | notifyAll
  | join
  | returned
  deriving DecidableEq

/-- Tasks in the order in which they were enqueued, removed (with the worker
that removed them), started and executed. -/
structure History (W T : Type*) where
  enqueued : List (Task T)
  removed : List (W × Task T)
  started : List (Task T)
  executed : List (Task T)

structure ThreadPool (W T : Type*) where
  point : W → WorkerPoint T
  tasks : List (Task T)
  queueMutex : Option W
  stop : Bool
  readyThreads : ℕ
  /-- Calls of `enqueue` that have left their critical section and have not
  notified yet. -/
  notifying : ℕ
  destructor : DestructorPoint
  history : History W T

namespace ThreadPool

variable {W T : Type*}

/-- `notifyOne` names the thread that the notification wakes, when one waits. -/
inductive Step (W T : Type*)
  | enqueue (task : T)
  | notifyOne (woken : Option W)
  | worker (w : W)
  | setStop
  | notifyAll
  | join

def create : ThreadPool W T where
  point := fun _ => .starting
  tasks := []
  queueMutex := none
  stop := false
  readyThreads := 0
  notifying := 0
  destructor := .setStop
  history := ⟨[], [], [], []⟩

/-- The critical section of `enqueue`. -/
def push (s : ThreadPool W T) (task : T) : ThreadPool W T :=
  let task := ⟨s.history.enqueued.length, task⟩
  { s with
    tasks := s.tasks ++ [task]
    notifying := s.notifying + 1
    history := { s.history with enqueued := s.history.enqueued ++ [task] } }

section Step
variable [DecidableEq W]

def goto (s : ThreadPool W T) (w : W) (p : WorkerPoint T) : ThreadPool W T :=
  { s with point := Function.update s.point w p }

/-- The front task is moved out of the queue and popped. -/
def take (s : ThreadPool W T) (w : W) : Option (ThreadPool W T) :=
  match s.tasks with
  | [] => none
  | task :: rest =>
      some ({ s with
        tasks := rest
        history := { s.history with removed := s.history.removed ++ [(w, task)] } }.goto w
          (.took task))

/-- The critical section of the loop, up to the wait when the predicate does
not hold. -/
def check (s : ThreadPool W T) (w : W) : Option (ThreadPool W T) :=
  if s.stop || !s.tasks.isEmpty then
    if s.stop && s.tasks.isEmpty then some (s.goto w .returned) else s.take w
  else some ({ s with queueMutex := some w }.goto w .checked)

/-- One step of the worker `w` at the point `p`; from `blocked` it is a
spurious wake-up. -/
def workerStep (s : ThreadPool W T) (w : W) : WorkerPoint T → Option (ThreadPool W T)
  | .starting =>
      if s.queueMutex.isNone
      then some ({ s with readyThreads := s.readyThreads + 1 }.goto w .lock) else none
  | .lock => if s.queueMutex.isNone then s.check w else none
  | .checked => some ({ s with queueMutex := none }.goto w .blocked)
  | .blocked => some (s.goto w .lock)
  | .took task =>
      some ({ s with
        history := { s.history with started := s.history.started ++ [task] } }.goto w
          (.executing task))
  | .executing task =>
      some ({ s with
        history := { s.history with executed := s.history.executed ++ [task] } }.goto w .lock)
  | .returned => none

def isBlocked : WorkerPoint T → Bool
  | .blocked => true
  | _ => false

def isReturned : WorkerPoint T → Bool
  | .returned => true
  | _ => false

/-- `notify_one` wakes a blocked thread when there is one. -/
def notifyOne [Fintype W] (s : ThreadPool W T) : Option W → Option (ThreadPool W T)
  | some w =>
      if isBlocked (s.point w)
      then some ({ s with notifying := s.notifying - 1 }.goto w .lock) else none
  | none =>
      if ∀ w, isBlocked (s.point w) = false
      then some { s with notifying := s.notifying - 1 } else none

def wakeAll (point : W → WorkerPoint T) (w : W) : WorkerPoint T :=
  if isBlocked (point w) then .lock else point w

/-- One step. The pool is gone once its destructor has returned. -/
def step [Fintype W] (s : ThreadPool W T) : Step W T → Option (ThreadPool W T)
  | .enqueue task =>
      if s.destructor ≠ .returned ∧ s.queueMutex.isNone then some (s.push task) else none
  | .notifyOne woken =>
      if s.destructor ≠ .returned ∧ 0 < s.notifying then s.notifyOne woken else none
  | .worker w => s.workerStep w (s.point w)
  | .setStop =>
      if s.destructor = .setStop
      then some { s with stop := true, destructor := .notifyAll } else none
  | .notifyAll =>
      if s.destructor = .notifyAll
      then some { s with point := wakeAll s.point, destructor := .join } else none
  | .join =>
      if s.destructor = .join ∧ ∀ w, isReturned (s.point w)
      then some { s with destructor := .returned } else none

/-- The steps of the pool, one constructor a branch of the code. -/
inductive Transition (s : ThreadPool W T) : Step W T → ThreadPool W T → Prop
  | enqueue (task : T) : s.destructor ≠ .returned → s.queueMutex = none →
      Transition s (.enqueue task) (s.push task)
  | notifyOne {w : W} : s.destructor ≠ .returned → 0 < s.notifying → s.point w = .blocked →
      Transition s (.notifyOne (some w)) ({ s with notifying := s.notifying - 1 }.goto w .lock)
  | notifyNone : s.destructor ≠ .returned → 0 < s.notifying → (∀ w, s.point w ≠ .blocked) →
      Transition s (.notifyOne none) { s with notifying := s.notifying - 1 }
  | ready {w : W} : s.point w = .starting → s.queueMutex = none →
      Transition s (.worker w) ({ s with readyThreads := s.readyThreads + 1 }.goto w .lock)
  | take {w : W} {task : Task T} {rest : List (Task T)} : s.point w = .lock →
      s.queueMutex = none → s.tasks = task :: rest →
      Transition s (.worker w) ({ s with
        tasks := rest
        history := { s.history with removed := s.history.removed ++ [(w, task)] } }.goto w
          (.took task))
  | leave {w : W} : s.point w = .lock → s.queueMutex = none → s.stop = true → s.tasks = [] →
      Transition s (.worker w) (s.goto w .returned)
  | check {w : W} : s.point w = .lock → s.queueMutex = none → s.stop = false → s.tasks = [] →
      Transition s (.worker w) ({ s with queueMutex := some w }.goto w .checked)
  | block {w : W} : s.point w = .checked →
      Transition s (.worker w) ({ s with queueMutex := none }.goto w .blocked)
  | wake {w : W} : s.point w = .blocked → Transition s (.worker w) (s.goto w .lock)
  | start {w : W} {task : Task T} : s.point w = .took task →
      Transition s (.worker w) ({ s with
        history := { s.history with started := s.history.started ++ [task] } }.goto w
          (.executing task))
  | finish {w : W} {task : Task T} : s.point w = .executing task →
      Transition s (.worker w) ({ s with
        history := { s.history with executed := s.history.executed ++ [task] } }.goto w .lock)
  | setStop : s.destructor = .setStop →
      Transition s .setStop { s with stop := true, destructor := .notifyAll }
  | notifyAll : s.destructor = .notifyAll →
      Transition s .notifyAll { s with point := wakeAll s.point, destructor := .join }
  | join : s.destructor = .join → (∀ w, s.point w = .returned) →
      Transition s .join { s with destructor := .returned }

theorem isBlocked_iff {p : WorkerPoint T} : isBlocked p = true ↔ p = .blocked := by
  cases p <;> simp [isBlocked]

theorem isReturned_iff {p : WorkerPoint T} : isReturned p = true ↔ p = .returned := by
  cases p <;> simp [isReturned]

theorem check_cons {s : ThreadPool W T} {task : Task T} {rest : List (Task T)} (w : W)
    (htasks : s.tasks = task :: rest) : s.check w = s.take w := by
  rw [check, if_pos (by simp [htasks]), if_neg (by simp [htasks])]

theorem check_nil {s : ThreadPool W T} (w : W) (htasks : s.tasks = []) :
    s.check w = some (if s.stop then s.goto w .returned
      else { s with queueMutex := some w }.goto w .checked) := by
  by_cases hstop : s.stop = true
  · rw [check, if_pos (by simp [hstop]), if_pos (by simp [hstop, htasks]), if_pos hstop]
  · rw [check, if_neg (by simp [hstop, htasks]), if_neg hstop]

theorem transition_of_check {s s' : ThreadPool W T} {w : W} (hp : s.point w = .lock)
    (hfree : s.queueMutex = none) (h : s.check w = some s') : Transition s (.worker w) s' := by
  cases htasks : s.tasks with
  | nil =>
    rw [check_nil w htasks, Option.some.injEq] at h
    subst h
    split
    · rename_i hstop
      exact .leave hp hfree hstop htasks
    · rename_i hstop
      exact .check hp hfree (Bool.eq_false_iff.mpr hstop) htasks
  | cons task rest =>
    rw [check_cons w htasks, take, htasks, Option.some.injEq] at h
    subst h
    exact .take hp hfree htasks

theorem transition_of_workerStep {s s' : ThreadPool W T} {w : W}
    (h : s.workerStep w (s.point w) = some s') : Transition s (.worker w) s' := by
  cases hp : s.point w with
  | starting =>
    simp only [hp, workerStep, Option.isNone_iff_eq_none, Option.ite_none_right_eq_some,
      Option.some.injEq] at h
    obtain ⟨hfree, rfl⟩ := h
    exact .ready hp hfree
  | lock =>
    simp only [hp, workerStep, Option.isNone_iff_eq_none, Option.ite_none_right_eq_some] at h
    exact transition_of_check hp h.1 h.2
  | checked =>
    rw [hp, workerStep, Option.some.injEq] at h
    exact h ▸ .block hp
  | blocked =>
    rw [hp, workerStep, Option.some.injEq] at h
    exact h ▸ .wake hp
  | took task =>
    rw [hp, workerStep, Option.some.injEq] at h
    exact h ▸ .start hp
  | executing task =>
    rw [hp, workerStep, Option.some.injEq] at h
    exact h ▸ .finish hp
  | returned =>
    rw [hp, workerStep] at h
    contradiction

/-- Every step of the pool is one of the transitions. -/
theorem transition_of_step [Fintype W] {s s' : ThreadPool W T} {l : Step W T}
    (h : s.step l = some s') : Transition s l s' := by
  cases l with
  | enqueue task =>
    simp only [step, Option.isNone_iff_eq_none, Option.ite_none_right_eq_some,
      Option.some.injEq] at h
    obtain ⟨⟨hlive, hfree⟩, rfl⟩ := h
    exact .enqueue task hlive hfree
  | notifyOne woken =>
    simp only [step, Option.ite_none_right_eq_some] at h
    obtain ⟨⟨hlive, hnotifying⟩, h⟩ := h
    cases woken with
    | none =>
      simp only [notifyOne, Option.ite_none_right_eq_some, Option.some.injEq] at h
      obtain ⟨hnone, rfl⟩ := h
      refine .notifyNone hlive hnotifying (fun w hw => ?_)
      have hfalse := hnone w
      rw [isBlocked_iff.mpr hw] at hfalse
      contradiction
    | some w =>
      simp only [notifyOne, Option.ite_none_right_eq_some, Option.some.injEq] at h
      obtain ⟨hblocked, rfl⟩ := h
      exact .notifyOne hlive hnotifying (isBlocked_iff.mp hblocked)
  | worker w => exact transition_of_workerStep h
  | setStop =>
    simp only [step, Option.ite_none_right_eq_some, Option.some.injEq] at h
    obtain ⟨hd, rfl⟩ := h
    exact .setStop hd
  | notifyAll =>
    simp only [step, Option.ite_none_right_eq_some, Option.some.injEq] at h
    obtain ⟨hd, rfl⟩ := h
    exact .notifyAll hd
  | join =>
    simp only [step, Option.ite_none_right_eq_some, Option.some.injEq] at h
    obtain ⟨⟨hd, hreturned⟩, rfl⟩ := h
    exact .join hd (fun w => isReturned_iff.mp (hreturned w))

theorem step_of_transition [Fintype W] {s s' : ThreadPool W T} {l : Step W T}
    (h : Transition s l s') : s.step l = some s' := by
  cases h with
  | enqueue task hlive hfree => exact if_pos ⟨hlive, Option.isNone_iff_eq_none.mpr hfree⟩
  | notifyOne hlive hnotifying hw =>
    rw [step, if_pos ⟨hlive, hnotifying⟩, notifyOne, if_pos (isBlocked_iff.mpr hw)]
  | notifyNone hlive hnotifying hnone =>
    have hawake : ∀ w, isBlocked (s.point w) = false :=
      fun w => Bool.eq_false_iff.mpr (mt isBlocked_iff.mp (hnone w))
    rw [step, if_pos ⟨hlive, hnotifying⟩, notifyOne, if_pos hawake]
  | ready hw hfree =>
    rw [step, hw, workerStep, if_pos (Option.isNone_iff_eq_none.mpr hfree)]
  | take hw hfree htasks =>
    rw [step, hw, workerStep, if_pos (Option.isNone_iff_eq_none.mpr hfree), check_cons _ htasks,
      take, htasks]
  | leave hw hfree hstop htasks =>
    rw [step, hw, workerStep, if_pos (Option.isNone_iff_eq_none.mpr hfree), check_nil _ htasks,
      if_pos hstop]
  | check hw hfree hstop htasks =>
    rw [step, hw, workerStep, if_pos (Option.isNone_iff_eq_none.mpr hfree), check_nil _ htasks,
      if_neg (by simp [hstop])]
  | block hw => rw [step, hw, workerStep]
  | wake hw => rw [step, hw, workerStep]
  | start hw => rw [step, hw, workerStep]
  | finish hw => rw [step, hw, workerStep]
  | setStop hd => exact if_pos hd
  | notifyAll hd => exact if_pos hd
  | join hd hreturned => exact if_pos ⟨hd, fun w => isReturned_iff.mpr (hreturned w)⟩

/-- The mutex is held between steps by a worker that found its predicate false
and is about to block, and while it is held the queue stays empty. -/
structure Guarded (s : ThreadPool W T) : Prop where
  mutex_iff : ∀ w, s.queueMutex = some w ↔ s.point w = .checked
  empty : ∀ w, s.point w = .checked → s.tasks = []

omit [DecidableEq W] in
theorem create_guarded : (create : ThreadPool W T).Guarded :=
  ⟨by simp [create], by simp [create]⟩

namespace Guarded

variable {s s' : ThreadPool W T}

/-- A worker that neither takes nor releases the mutex moves. -/
theorem moved (h : s.Guarded) {w : W} {p : WorkerPoint T} (hw : s.point w ≠ .checked)
    (hp : p ≠ .checked) (hpoint : s'.point = Function.update s.point w p)
    (hmutex : s'.queueMutex = s.queueMutex)
    (htasks : s'.tasks = s.tasks ∨ s.queueMutex = none) : s'.Guarded := by
  have hchecked : ∀ v, s'.point v = .checked ↔ s.point v = .checked := by
    intro v
    rw [hpoint]
    by_cases hv : v = w
    · subst hv
      rw [Function.update_self]
      exact iff_of_false hp hw
    · rw [Function.update_of_ne hv]
  refine ⟨fun v => ?_, fun v hv => ?_⟩
  · rw [hmutex, h.mutex_iff, hchecked]
  · have hheld := (hchecked v).mp hv
    rcases htasks with htasks | hfree
    · rw [htasks]
      exact h.empty v hheld
    · rw [(h.mutex_iff v).mpr hheld] at hfree
      contradiction

omit [DecidableEq W] in
theorem not_checked (h : s.Guarded) (hfree : s.queueMutex = none) (w : W) :
    s.point w ≠ .checked := by
  intro hw
  rw [(h.mutex_iff w).mpr hw] at hfree
  contradiction

theorem step (h : s.Guarded) {l : Step W T} (hstep : Transition s l s') : s'.Guarded := by
  cases hstep with
  | enqueue task _ hfree =>
    exact ⟨h.mutex_iff, fun w hw => absurd hw (h.not_checked hfree w)⟩
  | notifyOne _ _ hw => exact h.moved (by simp [hw]) (by simp) rfl rfl (Or.inl rfl)
  | notifyNone => exact ⟨h.mutex_iff, h.empty⟩
  | ready hw _ => exact h.moved (by simp [hw]) (by simp) rfl rfl (Or.inl rfl)
  | take hw hfree _ => exact h.moved (by simp [hw]) (by simp) rfl rfl (Or.inr hfree)
  | leave hw => exact h.moved (by simp [hw]) (by simp) rfl rfl (Or.inl rfl)
  | @check w hw hfree _ htasks =>
    refine ⟨fun v => ?_, fun _ _ => htasks⟩
    by_cases hv : v = w
    · subst hv
      simp [goto]
    · simp only [goto, Option.some.injEq, Function.update_of_ne hv]
      exact iff_of_false (Ne.symm hv) (h.not_checked hfree v)
  | @block w hw =>
    have hmutex := (h.mutex_iff w).mpr hw
    have hnone : ∀ v, Function.update s.point w .blocked v ≠ .checked := by
      intro v
      by_cases hv : v = w
      · subst hv
        simp
      · rw [Function.update_of_ne hv]
        intro hchecked
        have hheld := (h.mutex_iff v).mpr hchecked
        rw [hmutex, Option.some.injEq] at hheld
        exact hv hheld.symm
    exact ⟨fun v => iff_of_false (by simp [goto]) (hnone v), fun v hv => absurd hv (hnone v)⟩
  | wake hw => exact h.moved (by simp [hw]) (by simp) rfl rfl (Or.inl rfl)
  | start hw => exact h.moved (by simp [hw]) (by simp) rfl rfl (Or.inl rfl)
  | finish hw => exact h.moved (by simp [hw]) (by simp) rfl rfl (Or.inl rfl)
  | setStop => exact ⟨h.mutex_iff, h.empty⟩
  | notifyAll =>
    have hchecked : ∀ w, wakeAll s.point w = .checked ↔ s.point w = .checked := by
      intro w
      unfold wakeAll
      split
      · rename_i hw
        rw [isBlocked_iff.mp hw]
        simp
      · rfl
    exact ⟨fun w => (h.mutex_iff w).trans (hchecked w).symm,
      fun w hw => h.empty w ((hchecked w).mp hw)⟩
  | join => exact ⟨h.mutex_iff, h.empty⟩

end Guarded

theorem run_guarded [Fintype W] {ls : List (Step W T)} {s : ThreadPool W T}
    (hrun : Runs.run step create ls = some s) : s.Guarded :=
  Runs.run_invariant step Guarded (fun _ _ _ h hstep => h.step (transition_of_step hstep)) ls
    create s create_guarded hrun

end Step

end ThreadPool

end ProxyServer
