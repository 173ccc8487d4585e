import ProxyServer.ThreadPool

/-!
The thread-pool server: one thread accepts clients and enqueues their handling,
the workers of the pool handle them. Before that it waits for their announcements,
each of which notifies it. `start` does not return, so the pool is never destroyed,
and a `handleClient` that ends the process ends the run.
-/
namespace ProxyServer

/-- What `start` does next; at `asleep` it waits for `allThreadsReady`. -/
inductive Acceptor
  | waitForThreads
  | asleep
  | accept
  | enqueue (clientSocket : ℤ)
  | notify
  deriving DecidableEq

/-- `allThreadsReady.notify_one()` -/
def Acceptor.notified : Acceptor → Acceptor
  | .asleep => .waitForThreads
  | acceptor => acceptor

/-- A task of the pool is the client socket its `handleClient` is called with. -/
structure ThreadPoolServer (W : Type*) where
  pool : ThreadPool W ℤ
  acceptor : Acceptor

namespace ThreadPoolServer

open ThreadPool Parties

variable {W : Type*}

/-- `wakeUp` is a spurious one, of `start`. -/
inductive Step (W : Type*)
  | waitForThreads
  | wakeUp
  | accept (clientSocket : ℤ)
  | enqueue
  | notifyOne (woken : Option W)
  | worker (w : W)

def create : ThreadPoolServer W := ⟨ThreadPool.create, .waitForThreads⟩

def isExecuting : WorkerPoint ℤ → Bool
  | .executing _ => true
  | _ => false

def handled [Fintype W] (s : ThreadPoolServer W) : ℕ := count (isExecuting ·) s.pool.point

def step [Fintype W] [DecidableEq W] (s : ThreadPoolServer W) :
    Step W → Option (ThreadPoolServer W)
  -- only announcements change what is looked at, and they need the mutex too
  | .waitForThreads =>
      if s.acceptor = .waitForThreads ∧ s.pool.queueMutex.isNone
      then some { s with
        acceptor := if s.pool.readyThreads = Fintype.card W then .accept else .asleep } else none
  | .wakeUp => if s.acceptor = .asleep then some { s with acceptor := .waitForThreads } else none
  | .accept clientSocket =>
      if s.acceptor = .accept
      then some (if clientSocket < 0 then s else { s with acceptor := .enqueue clientSocket })
      else none
  | .enqueue =>
      match s.acceptor with
      | .enqueue clientSocket =>
          (s.pool.step (.enqueue clientSocket)).map (fun pool => ⟨pool, .notify⟩)
      | _ => none
  | .notifyOne woken =>
      if s.acceptor = .notify
      then (s.pool.step (.notifyOne woken)).map (fun pool => ⟨pool, .accept⟩) else none
  | .worker w =>
      (s.pool.step (.worker w)).map (fun pool => { s with
        pool := pool
        acceptor := if s.pool.point w = .starting then s.acceptor.notified else s.acceptor })

theorem handled_le {n : ℕ} (s : ThreadPoolServer (Fin n)) : s.handled ≤ n := by
  have hle := count_le_card (isExecuting ·) s.pool.point
  rwa [Fintype.card_fin] at hle

/-- The first `k` workers have passed their announcement and look for tasks. -/
structure Ready {n : ℕ} (k : ℕ) (s : ThreadPoolServer (Fin n)) : Prop where
  acceptor : s.acceptor = .waitForThreads
  tasks : s.pool.tasks = []
  mutex : s.pool.queueMutex = none
  destructor : s.pool.destructor = .setStop
  readyThreads : s.pool.readyThreads = k
  point : Advanced k (fun p => p = .lock) .starting s.pool.point

/-- The first `k` workers are inside `handleClient`, and the others idle. -/
structure Serving {n : ℕ} (k : ℕ) (s : ThreadPoolServer (Fin n)) : Prop where
  acceptor : s.acceptor = .accept
  tasks : s.pool.tasks = []
  mutex : s.pool.queueMutex = none
  destructor : s.pool.destructor = .setStop
  point : Advanced k (fun p => isExecuting p = true) .lock s.pool.point

variable {n k : ℕ} {s : ThreadPoolServer (Fin n)}

theorem Ready.next (h : Ready k s) (hk : k < n) :
    ∃ ls s', Runs.run step s ls = some s' ∧ Ready (k + 1) s' := by
  have hready := step_of_transition (.ready (h.point.waiting ⟨k, hk⟩ (le_refl k)) h.mutex)
  refine ⟨[.worker ⟨k, hk⟩],
    ⟨{ s.pool with readyThreads := s.pool.readyThreads + 1 }.goto ⟨k, hk⟩ .lock, s.acceptor⟩,
    ?_, ?_⟩
  · rw [Runs.run_cons, step, hready, h.acceptor]
    simp [Acceptor.notified]
  · exact ⟨h.acceptor, h.tasks, h.mutex, h.destructor, congrArg Nat.succ h.readyThreads,
      h.point.next hk rfl⟩

theorem Ready.accepting (h : Ready n s) :
    ∃ s', s.step .waitForThreads = some s' ∧ Serving 0 s' := by
  have hguard : s.acceptor = .waitForThreads ∧ s.pool.queueMutex.isNone :=
    ⟨h.acceptor, Option.isNone_iff_eq_none.mpr h.mutex⟩
  have hready : s.pool.readyThreads = Fintype.card (Fin n) := by
    rw [h.readyThreads, Fintype.card_fin]
  refine ⟨⟨s.pool, .accept⟩, ?_, rfl, h.tasks, h.mutex, h.destructor, Advanced.zero h.point.all⟩
  rw [step, if_pos hguard, if_pos hready]

theorem enqueue_notify {W : Type*} [Fintype W] [DecidableEq W] {p : ThreadPool W ℤ}
    (hlive : p.destructor ≠ .returned) (hfree : p.queueMutex = none)
    (hawake : ∀ w, p.point w ≠ .blocked) (clientSocket : ℤ) :
    ∃ p₁ p₂ task, p.step (.enqueue clientSocket) = some p₁ ∧
      p₁.step (.notifyOne none) = some p₂ ∧ p₂.point = p.point ∧
      p₂.tasks = p.tasks ++ [task] ∧ p₂.queueMutex = none ∧ p₂.destructor = p.destructor :=
  ⟨_, _, _, step_of_transition (.enqueue clientSocket hlive hfree),
    step_of_transition (.notifyNone hlive (Nat.succ_pos _) hawake), rfl, rfl, hfree, rfl⟩

/-- An idle worker takes the one task and starts it. -/
theorem take_start {W : Type*} [Fintype W] [DecidableEq W] {p : ThreadPool W ℤ} {w : W}
    (hw : p.point w = .lock) (hfree : p.queueMutex = none) {task : Task ℤ}
    (htasks : p.tasks = [task]) :
    ∃ p₁ p₂, p.step (.worker w) = some p₁ ∧ p₁.step (.worker w) = some p₂ ∧
      p₂.point = Function.update p.point w (.executing task) ∧ p₂.tasks = [] ∧
      p₂.queueMutex = none ∧ p₂.destructor = p.destructor :=
  ⟨_, _, step_of_transition (.take hw hfree htasks),
    step_of_transition (.start (Function.update_self w _ p.point)),
    Function.update_idem _ _ p.point, rfl, hfree, rfl⟩

/-- One more client is accepted, enqueued, taken by an idle worker and started. -/
theorem Serving.next (h : Serving k s) (hk : k < n) :
    ∃ ls s', Runs.run step s ls = some s' ∧ Serving (k + 1) s' := by
  have hlive : s.pool.destructor ≠ .returned := by simp [h.destructor]
  have hawake : ∀ w, s.pool.point w ≠ .blocked := by
    intro w hblocked
    by_cases hw : w.val < k
    · have hexecuting := h.point.moved w hw
      rw [hblocked] at hexecuting
      contradiction
    · rw [h.point.waiting w (by omega)] at hblocked
      contradiction
  obtain ⟨p₁, p₂, task, hpush, hnotify, hpoint, htasks, hfree, hdestructor⟩ :=
    enqueue_notify hlive h.mutex hawake 4
  rw [h.tasks, List.nil_append] at htasks
  have hidle : p₂.point ⟨k, hk⟩ = .lock := by
    rw [hpoint]
    exact h.point.waiting ⟨k, hk⟩ (le_refl k)
  obtain ⟨p₃, p₄, htake, hstart, hpoint', htasks', hfree', hdestructor'⟩ :=
    take_start hidle hfree htasks
  refine ⟨[.accept 4, .enqueue, .notifyOne none, .worker ⟨k, hk⟩, .worker ⟨k, hk⟩],
    ⟨p₄, .accept⟩, ?_, rfl, htasks', hfree', ?_, ?_⟩
  · have haccept : s.step (.accept 4) = some ⟨s.pool, .enqueue 4⟩ := by
      rw [step, if_pos h.acceptor, if_neg (by omega)]
    rw [Runs.run_cons, haccept, Option.bind_some, Runs.run_cons, step]
    simp only [hpush, Option.map_some, Option.bind_some, Runs.run_cons, step, if_true, hnotify,
      htake, hstart, Acceptor.notified, ite_self, Runs.run_nil]
  · rw [hdestructor', hdestructor, h.destructor]
  · rw [hpoint', hpoint]
    exact h.point.next hk rfl

/-- Schedules exist that bring all workers into `handleClient` at once. -/
theorem exists_handled_eq (n : ℕ) :
    ∃ ls s, Runs.run step (create : ThreadPoolServer (Fin n)) ls = some s ∧ s.handled = n := by
  have hcreate : Ready 0 (create : ThreadPoolServer (Fin n)) :=
    ⟨rfl, rfl, rfl, rfl, rfl, Advanced.zero (fun _ => rfl)⟩
  obtain ⟨ls, t, hrun, hready⟩ :=
    Runs.run_stages step Ready n (fun k hk _ h => h.next hk) hcreate
  obtain ⟨u, haccepting, hserving⟩ := hready.accepting
  obtain ⟨ms, s, hrest, hall⟩ :=
    Runs.run_stages step Serving n (fun k hk _ h => h.next hk) hserving
  refine ⟨ls ++ .waitForThreads :: ms, s, ?_, ?_⟩
  · rw [Runs.run_append, hrun, Option.bind_some, Runs.run_cons, haccepting, Option.bind_some, hrest]
  · rw [handled, count_eq_card hall.point.all, Fintype.card_fin]

end ThreadPoolServer

end ProxyServer
