import ProxyServer.TaskHistory
import ProxyServer.ThreadPoolServer
import ProxyServer.Wakeups

/-!
The thread-pool server comes to rest. A client brings a bounded number of steps to the
acceptor and to a worker, and a worker goes to sleep once for each time it is woken, so
that but for clients and spurious wake-ups every run is short. And no notification is
lost: when no step is left but these, all threads are ready, all workers sleep, the
queue is empty and every client has been handled once.
-/
namespace ProxyServer.ThreadPoolServer

open ThreadPool Parties

variable {W : Type*}

/-- The steps until a worker sleeps, unless it is given a client, and the look that
`start` takes when the worker has announced itself. -/
def ahead : WorkerPoint ℤ → ℕ
  | .starting => 4
  | .lock => 2
  | .checked => 1
  | .blocked => 0
  | .took _ => 4
  | .executing _ => 3
  | .returned => 0

/-- The look at the threads, or the steps that the client in the hands of the
acceptor brings. -/
def acceptorAhead : Acceptor → ℕ
  | .waitForThreads => 1
  | .asleep => 0
  | .accept => 0
  | .enqueue _ => 7
  | .notify => 0

def weight [Fintype W] (s : ThreadPoolServer W) : ℕ :=
  total ahead s.pool.point + 3 * s.pool.tasks.length + 3 * s.pool.notifying +
    acceptorAhead s.acceptor

/-- A client brings its steps, a failed `accept` itself, and a spurious wake-up those to
sleep again. -/
def brings (s : ThreadPoolServer W) : Step W → ℕ
  | .wakeUp => 2
  | .accept clientSocket => if clientSocket < 0 then 1 else 8
  | .worker w => if isBlocked (s.pool.point w) then 3 else 0
  | _ => 0

/-- The clients accepted. -/
def clients (ls : List (Step W)) : List ℤ :=
  ls.filterMap (fun l => match l with
    | .accept clientSocket => if clientSocket < 0 then none else some clientSocket
    | _ => none)

def inHand : Acceptor → List ℤ
  | .enqueue clientSocket => [clientSocket]
  | _ => []

/-- No step is left but `accept` and a spurious wake-up. -/
def AtRest [Fintype W] [DecidableEq W] (s : ThreadPoolServer W) : Prop :=
  ∀ l s', s.step l = some s' → (∃ clientSocket, l = .accept clientSocket) ∨ l = .wakeUp ∨
    ∃ w, l = .worker w ∧ s.pool.point w = .blocked

/-- All threads were ready, all workers sleep, and each client has been handled once. -/
structure Drained (ls : List (Step W)) (s : ThreadPoolServer W) : Prop where
  acceptor : s.acceptor = .accept
  asleep : ∀ w, s.pool.point w = .blocked
  tasks : s.pool.tasks = []
  handled : (s.pool.history.executed.map Task.task).Perm (clients ls)

section Weights
variable [Fintype W] [DecidableEq W] {s s' : ThreadPoolServer W}

theorem weight_goto {p p' : ThreadPool W ℤ} {w : W} {q : WorkerPoint ℤ} {k : ℕ}
    (hpoint : p'.point = Function.update p.point w q) (htasks : p'.tasks = p.tasks)
    (hnotifying : p'.notifying = p.notifying) (hless : ahead q + 1 ≤ ahead (p.point w) + k) :
    total ahead p'.point + 3 * p'.tasks.length + 3 * p'.notifying + 1 ≤
      total ahead p.point + 3 * p.tasks.length + 3 * p.notifying + k := by
  have hmove := total_update ahead p.point w q
  rw [hpoint, htasks, hnotifying]
  omega

/-- A worker's step leaves less before it, unless it is a spurious wake-up. -/
theorem weight_worker {p p' : ThreadPool W ℤ} {w : W} (h : Transition p (.worker w) p')
    (hw : p.point w ≠ .starting) :
    total ahead p'.point + 3 * p'.tasks.length + 3 * p'.notifying + 1 ≤
      total ahead p.point + 3 * p.tasks.length + 3 * p.notifying +
        if isBlocked (p.point w) then 3 else 0 := by
  cases h with
  | ready hstarting _ => exact absurd hstarting hw
  | @take _ task rest hw _ htasks =>
    have hmove := total_update ahead p.point w (.took task)
    rw [hw] at hmove
    simp only [ahead] at hmove
    simp only [goto, htasks, List.length_cons]
    omega
  | leave hw _ _ _ => exact weight_goto rfl rfl rfl (by simp [hw, ahead, isBlocked])
  | check hw _ _ _ => exact weight_goto rfl rfl rfl (by simp [hw, ahead])
  | block hw => exact weight_goto rfl rfl rfl (by simp [hw, ahead])
  | wake hw => exact weight_goto rfl rfl rfl (by simp [hw, ahead, isBlocked])
  | start hw => exact weight_goto rfl rfl rfl (by simp [hw, ahead])
  | finish hw => exact weight_goto rfl rfl rfl (by simp [hw, ahead])

theorem acceptorAhead_notified (acceptor : Acceptor) :
    acceptorAhead acceptor.notified ≤ acceptorAhead acceptor + 1 := by
  cases acceptor <;> simp [Acceptor.notified, acceptorAhead]

/-- An announcement makes `start` look again at most once. -/
theorem weight_ready {p p' : ThreadPool W ℤ} {w : W} (h : Transition p (.worker w) p')
    (hw : p.point w = .starting) (acceptor : Acceptor) :
    total ahead p'.point + 3 * p'.tasks.length + 3 * p'.notifying +
        acceptorAhead acceptor.notified + 1 ≤
      total ahead p.point + 3 * p.tasks.length + 3 * p.notifying + acceptorAhead acceptor := by
  have hnotified := acceptorAhead_notified acceptor
  cases h with
  | ready _ _ =>
    have hmove := total_update ahead p.point w .lock
    rw [hw] at hmove
    simp only [ahead] at hmove
    simp only [goto]
    omega
  | _ => simp_all

theorem weight_notify {p p' : ThreadPool W ℤ} {woken : Option W}
    (h : Transition p (.notifyOne woken) p') :
    total ahead p'.point + 3 * p'.tasks.length + 3 * p'.notifying + 1 ≤
      total ahead p.point + 3 * p.tasks.length + 3 * p.notifying := by
  cases h with
  | @notifyOne w _ hnotifying hw =>
    have hmove := total_update ahead p.point w .lock
    rw [hw] at hmove
    simp only [ahead] at hmove
    simp only [goto]
    omega
  | notifyNone _ hnotifying _ =>
    dsimp only
    omega

theorem weight_step (s : ThreadPoolServer W) (l : Step W) (s' : ThreadPoolServer W)
    (hstep : s.step l = some s') : weight s' + 1 ≤ weight s + brings s l := by
  cases l with
  | waitForThreads =>
    simp only [step, Option.ite_none_right_eq_some, Option.some.injEq] at hstep
    obtain ⟨⟨hacceptor, _⟩, rfl⟩ := hstep
    by_cases hready : s.pool.readyThreads = Fintype.card W
    · simp only [weight, brings, hacceptor, acceptorAhead, if_pos hready]
      omega
    · simp only [weight, brings, hacceptor, acceptorAhead, if_neg hready]
      omega
  | wakeUp =>
    simp only [step, Option.ite_none_right_eq_some, Option.some.injEq] at hstep
    obtain ⟨hacceptor, rfl⟩ := hstep
    simp only [weight, brings, hacceptor, acceptorAhead]
    omega
  | accept clientSocket =>
    simp only [step, Option.ite_none_right_eq_some, Option.some.injEq] at hstep
    obtain ⟨hacceptor, rfl⟩ := hstep
    by_cases hfailed : clientSocket < 0
    · simp [brings, hfailed]
    · simp only [weight, brings, hacceptor, hfailed, acceptorAhead, if_false]
      omega
  | enqueue =>
    simp only [step] at hstep
    split at hstep
    case h_1 clientSocket hacceptor =>
      obtain ⟨p, hpush, rfl⟩ := Option.map_eq_some_iff.mp hstep
      cases transition_of_step hpush with
      | enqueue _ _ _ =>
        simp only [weight, brings, hacceptor, acceptorAhead, push, List.length_append,
          List.length_singleton]
        omega
    case h_2 => contradiction
  | notifyOne woken =>
    simp only [step, Option.ite_none_right_eq_some] at hstep
    obtain ⟨hacceptor, hstep⟩ := hstep
    obtain ⟨p, hnotify, rfl⟩ := Option.map_eq_some_iff.mp hstep
    have hless := weight_notify (transition_of_step hnotify)
    simp only [weight, brings, hacceptor, acceptorAhead]
    omega
  | worker w =>
    obtain ⟨p, hworker, rfl⟩ := Option.map_eq_some_iff.mp hstep
    have htransition := transition_of_step hworker
    by_cases hw : s.pool.point w = .starting
    · have hless := weight_ready htransition hw s.acceptor
      simp only [weight, if_pos hw]
      omega
    · have hless := weight_worker htransition hw
      simp only [weight, brings, if_neg hw]
      omega

end Weights

/-- The worker has announced itself. -/
def isReady : WorkerPoint ℤ → Bool
  | .starting => false
  | _ => true

/-- What holds of a pool that is not being destroyed. -/
structure Live [Fintype W] (p : ThreadPool W ℤ) : Prop where
  guarded : p.Guarded
  attended : p.Attended
  accounts : p.Accounts
  running : p.stop = false ∧ p.destructor = .setStop
  present : ∀ w, p.point w ≠ .returned
  ready : p.readyThreads = count (isReady ·) p.point

section Pool
variable [Fintype W] {p p' : ThreadPool W ℤ}

theorem live_create : Live (ThreadPool.create : ThreadPool W ℤ) where
  guarded := create_guarded
  attended := create_attended
  accounts := Accounts.create
  running := ⟨rfl, rfl⟩
  present := by
    intro w hw
    contradiction
  ready := by
    rw [count_eq_total]
    exact (total_eq_zero (fun _ => rfl)).symm

variable [DecidableEq W]

/-- A worker that has announced itself moves and does not leave. -/
theorem Live.moved (h : Live p) {w : W} {q : WorkerPoint ℤ} (hguarded : p'.Guarded)
    (hattended : p'.Attended) (haccounts : p'.Accounts)
    (hrunning : p'.stop = p.stop ∧ p'.destructor = p.destructor)
    (hreadyThreads : p'.readyThreads = p.readyThreads)
    (hpoint : p'.point = Function.update p.point w q) (hw : isReady (p.point w) = true)
    (hq : isReady q = true) (hstay : q ≠ .returned) : Live p' := by
  refine ⟨hguarded, hattended, haccounts, ?_, ?_, ?_⟩
  · rw [hrunning.1, hrunning.2]
    exact h.running
  · intro v
    rw [hpoint]
    by_cases hv : v = w
    · subst hv
      rwa [Function.update_self]
    · rw [Function.update_of_ne hv]
      exact h.present v
  · rw [hreadyThreads, hpoint, count_update_of_iff (by simp [hw, hq])]
    exact h.ready

theorem Live.step (h : Live p) {l : ThreadPool.Step W ℤ} (hl : l ≠ .setStop)
    (hstep : Transition p l p') : Live p' := by
  have hguarded := h.guarded.step hstep
  have hattended := h.attended.step h.guarded hstep
  have haccounts := h.accounts.step hstep
  cases hstep with
  | enqueue => exact ⟨hguarded, hattended, haccounts, h.running, h.present, h.ready⟩
  | notifyOne _ _ hw =>
    exact h.moved hguarded hattended haccounts ⟨rfl, rfl⟩ rfl rfl (by rw [hw]; rfl) rfl (by simp)
  | notifyNone => exact ⟨hguarded, hattended, haccounts, h.running, h.present, h.ready⟩
  | @ready w hw _ =>
    refine ⟨hguarded, hattended, haccounts, h.running, ?_, ?_⟩
    · intro v
      by_cases hv : v = w
      · subst hv
        simp [goto]
      · simp only [goto, Function.update_of_ne hv]
        exact h.present v
    · have hcount : count (isReady ·) (Function.update p.point w .lock) =
          count (isReady ·) p.point + 1 := count_update_enter (by simp [hw, isReady]) rfl
      rw [goto, hcount]
      exact congrArg Nat.succ h.ready
  | take hw _ _ =>
    exact h.moved hguarded hattended haccounts ⟨rfl, rfl⟩ rfl rfl (by rw [hw]; rfl) rfl (by simp)
  | leave _ _ hstop _ =>
    rw [h.running.1] at hstop
    contradiction
  | check hw _ _ _ =>
    exact h.moved hguarded hattended haccounts ⟨rfl, rfl⟩ rfl rfl (by rw [hw]; rfl) rfl (by simp)
  | block hw =>
    exact h.moved hguarded hattended haccounts ⟨rfl, rfl⟩ rfl rfl (by rw [hw]; rfl) rfl (by simp)
  | wake hw =>
    exact h.moved hguarded hattended haccounts ⟨rfl, rfl⟩ rfl rfl (by rw [hw]; rfl) rfl (by simp)
  | start hw =>
    exact h.moved hguarded hattended haccounts ⟨rfl, rfl⟩ rfl rfl (by rw [hw]; rfl) rfl (by simp)
  | finish hw =>
    exact h.moved hguarded hattended haccounts ⟨rfl, rfl⟩ rfl rfl (by rw [hw]; rfl) rfl (by simp)
  | setStop => exact absurd rfl hl
  | notifyAll hd =>
    rw [h.running.2] at hd
    contradiction
  | join hd =>
    rw [h.running.2] at hd
    contradiction

omit [Fintype W] in
theorem readyThreads_step {l : ThreadPool.Step W ℤ} (hstep : Transition p l p')
    (hl : ∀ w, l = .worker w → p.point w ≠ .starting) : p'.readyThreads = p.readyThreads := by
  cases hstep with
  | ready hw _ => exact absurd hw (hl _ rfl)
  | _ => rfl

omit [Fintype W] in
theorem worker_unnoticed {w : W} (hstep : Transition p (.worker w) p') :
    p'.notifying = p.notifying ∧ p'.history.enqueued = p.history.enqueued := by
  cases hstep <;> exact ⟨rfl, rfl⟩

end Pool

/-- The pool lives, `start` does not sleep behind the last announcement, and the
acceptor has enqueued what it accepted, but for the client in its hand. -/
structure Serves [Fintype W] (ls : List (Step W)) (s : ThreadPoolServer W) : Prop where
  live : Live s.pool
  expects : s.acceptor = .asleep → s.pool.readyThreads ≠ Fintype.card W
  notifying : s.pool.notifying = if s.acceptor = .notify then 1 else 0
  enqueued : s.pool.history.enqueued.map Task.task ++ inHand s.acceptor = clients ls

section Server
variable [Fintype W] {s s' : ThreadPoolServer W} {ls : List (Step W)}

theorem serves_create : Serves [] (create : ThreadPoolServer W) where
  live := live_create
  expects := by
    intro hasleep
    contradiction
  notifying := rfl
  enqueued := rfl

omit [Fintype W] in
theorem clients_same {l : Step W} (hl : ∀ clientSocket, l ≠ .accept clientSocket) :
    clients (ls ++ [l]) = clients ls := by
  rw [clients, List.filterMap_append, ← clients]
  cases l with
  | accept clientSocket => exact absurd rfl (hl clientSocket)
  | _ => exact List.append_nil _

omit [Fintype W] in
theorem inHand_notified (acceptor : Acceptor) : inHand acceptor.notified = inHand acceptor := by
  cases acceptor <;> rfl

omit [Fintype W] in
theorem notified_eq_notify {acceptor : Acceptor} :
    acceptor.notified = .notify ↔ acceptor = .notify := by
  cases acceptor <;> simp [Acceptor.notified]

omit [Fintype W] in
theorem clients_concat (ls : List (Step W)) (l : Step W) :
    clients (ls ++ [l]) = clients ls ++ clients [l] := List.filterMap_append

variable [DecidableEq W]

theorem Serves.waitForThreads (h : Serves ls s) (hstep : s.step .waitForThreads = some s') :
    Serves (ls ++ [.waitForThreads]) s' := by
  have hnotifying := h.notifying
  have hclients := h.enqueued
  simp only [ThreadPoolServer.step, Option.ite_none_right_eq_some, Option.some.injEq] at hstep
  obtain ⟨⟨hacceptor, _⟩, rfl⟩ := hstep
  rw [hacceptor] at hnotifying hclients
  by_cases hready : s.pool.readyThreads = Fintype.card W
  · rw [if_pos hready]
    refine ⟨h.live, ?_, hnotifying, hclients.trans (clients_same (by simp)).symm⟩
    intro hasleep
    contradiction
  · rw [if_neg hready]
    exact ⟨h.live, fun _ => hready, hnotifying, hclients.trans (clients_same (by simp)).symm⟩

theorem Serves.wakeUp (h : Serves ls s) (hstep : s.step .wakeUp = some s') :
    Serves (ls ++ [.wakeUp]) s' := by
  have hnotifying := h.notifying
  have hclients := h.enqueued
  simp only [ThreadPoolServer.step, Option.ite_none_right_eq_some, Option.some.injEq] at hstep
  obtain ⟨hacceptor, rfl⟩ := hstep
  rw [hacceptor] at hnotifying hclients
  refine ⟨h.live, ?_, hnotifying, hclients.trans (clients_same (by simp)).symm⟩
  intro hasleep
  contradiction

theorem Serves.accept (h : Serves ls s) {clientSocket : ℤ}
    (hstep : s.step (.accept clientSocket) = some s') :
    Serves (ls ++ [.accept clientSocket]) s' := by
  have hnotifying := h.notifying
  have hclients := h.enqueued
  simp only [ThreadPoolServer.step, Option.ite_none_right_eq_some, Option.some.injEq] at hstep
  obtain ⟨hacceptor, rfl⟩ := hstep
  by_cases hfailed : clientSocket < 0
  · have hnone : clients [Step.accept (W := W) clientSocket] = [] := by
      simp [clients, hfailed]
    rw [if_pos hfailed]
    refine ⟨h.live, h.expects, hnotifying, ?_⟩
    rw [clients_concat, hnone, List.append_nil]
    exact hclients
  · have hone : clients [Step.accept (W := W) clientSocket] = [clientSocket] := by
      simp [clients, hfailed]
    rw [hacceptor] at hnotifying hclients
    rw [if_neg hfailed]
    refine ⟨h.live, ?_, hnotifying, ?_⟩
    · intro hasleep
      contradiction
    · rw [clients_concat, hone, ← hclients]
      show _ = (_ ++ []) ++ _
      rw [List.append_nil]
      rfl

theorem Serves.enqueue (h : Serves ls s) (hstep : s.step .enqueue = some s') :
    Serves (ls ++ [.enqueue]) s' := by
  have hnotifying := h.notifying
  have hclients := h.enqueued
  simp only [ThreadPoolServer.step] at hstep
  split at hstep
  case h_1 clientSocket hacceptor =>
    obtain ⟨p, hpush, rfl⟩ := Option.map_eq_some_iff.mp hstep
    have htransition := transition_of_step hpush
    have hlive := h.live.step (by simp) htransition
    rw [hacceptor] at hnotifying hclients
    cases htransition with
    | enqueue _ _ _ =>
      refine ⟨hlive, ?_, congrArg Nat.succ hnotifying, ?_⟩
      · intro hasleep
        contradiction
      · rw [clients_same (by simp), ← hclients]
        simp [push, inHand]
  case h_2 => contradiction

theorem Serves.notifyOne (h : Serves ls s) {woken : Option W}
    (hstep : s.step (.notifyOne woken) = some s') : Serves (ls ++ [.notifyOne woken]) s' := by
  have hnotifying := h.notifying
  have hclients := h.enqueued
  simp only [ThreadPoolServer.step, Option.ite_none_right_eq_some] at hstep
  obtain ⟨hacceptor, hstep⟩ := hstep
  obtain ⟨p, hnotify, rfl⟩ := Option.map_eq_some_iff.mp hstep
  have htransition := transition_of_step hnotify
  have hlive := h.live.step (by simp) htransition
  rw [hacceptor] at hnotifying hclients
  have hless : s.pool.notifying - 1 = 0 := by rw [hnotifying]; rfl
  have hsame : clients (ls ++ [.notifyOne woken]) = clients ls := clients_same (by simp)
  have hawake : Acceptor.accept = .asleep → p.readyThreads ≠ Fintype.card W := by
    intro hasleep
    contradiction
  cases htransition with
  | notifyOne => exact ⟨hlive, hawake, hless, hclients.trans hsame.symm⟩
  | notifyNone => exact ⟨hlive, hawake, hless, hclients.trans hsame.symm⟩

/-- An announcement wakes `start`, so that it looks again. -/
theorem Serves.worker (h : Serves ls s) {w : W} (hstep : s.step (.worker w) = some s') :
    Serves (ls ++ [.worker w]) s' := by
  obtain ⟨p, hworker, rfl⟩ := Option.map_eq_some_iff.mp hstep
  have htransition := transition_of_step hworker
  obtain ⟨hsame, henqueued⟩ := worker_unnoticed htransition
  have hlive := h.live.step (by simp) htransition
  have hnotifying := hsame.trans h.notifying
  have hclients : p.history.enqueued.map Task.task ++ inHand s.acceptor =
      clients (ls ++ [.worker w]) := by
    rw [henqueued, clients_same (by simp)]
    exact h.enqueued
  by_cases hw : s.pool.point w = .starting
  · rw [if_pos hw]
    refine ⟨hlive, ?_, ?_, ?_⟩
    · intro hasleep
      cases hacceptor : s.acceptor <;> simp [hacceptor, Acceptor.notified] at hasleep
    · rw [hnotifying]
      simp only [notified_eq_notify]
    · rw [inHand_notified]
      exact hclients
  · rw [if_neg hw]
    refine ⟨hlive, ?_, hnotifying, hclients⟩
    intro hasleep
    have hready := readyThreads_step htransition (fun v hv => by cases hv; exact hw)
    rw [hready]
    exact h.expects hasleep

theorem Serves.step (h : Serves ls s) {l : Step W} (hstep : s.step l = some s') :
    Serves (ls ++ [l]) s' := by
  cases l with
  | waitForThreads => exact h.waitForThreads hstep
  | wakeUp => exact h.wakeUp hstep
  | accept clientSocket => exact h.accept hstep
  | enqueue => exact h.enqueue hstep
  | notifyOne woken => exact h.notifyOne hstep
  | worker w => exact h.worker hstep

theorem AtRest.blocked (h : s.AtRest) {w : W} {p : ThreadPool W ℤ}
    (hstep : Transition s.pool (.worker w) p) : s.pool.point w = .blocked := by
  have hserver : ∃ s', s.step (.worker w) = some s' := by
    rw [ThreadPoolServer.step, step_of_transition hstep]
    exact ⟨_, rfl⟩
  rcases h _ _ hserver.choose_spec with ⟨_, heq⟩ | heq | ⟨v, heq, hv⟩
  · contradiction
  · contradiction
  · cases heq
    exact hv

theorem AtRest.mutex (h : s.AtRest) (hlive : Live s.pool) : s.pool.queueMutex = none := by
  by_contra hheld
  obtain ⟨w, hw⟩ := Option.ne_none_iff_exists'.mp hheld
  have hchecked := (hlive.guarded.mutex_iff w).mp hw
  have hblocked := h.blocked (.block hchecked)
  rw [hchecked] at hblocked
  contradiction

theorem AtRest.asleep (h : s.AtRest) (hlive : Live s.pool) (w : W) :
    s.pool.point w = .blocked := by
  have hfree := h.mutex hlive
  cases hw : s.pool.point w with
  | starting => exact hw.symm.trans (h.blocked (.ready hw hfree))
  | lock =>
    cases htasks : s.pool.tasks with
    | nil => exact hw.symm.trans (h.blocked (.check hw hfree hlive.running.1 htasks))
    | cons task rest => exact hw.symm.trans (h.blocked (.take hw hfree htasks))
  | checked => exact hw.symm.trans (h.blocked (.block hw))
  | blocked => rfl
  | took task => exact hw.symm.trans (h.blocked (.start hw))
  | executing task => exact hw.symm.trans (h.blocked (.finish hw))
  | returned => exact absurd hw (hlive.present w)

theorem AtRest.acceptor [Nonempty W] (h : s.AtRest) (hserves : Serves ls s) :
    s.acceptor = .accept := by
  have hlive := hserves.live
  have hfree := h.mutex hlive
  have hasleep := h.asleep hlive
  have hpool : s.pool.destructor ≠ .returned := by rw [hlive.running.2]; simp
  have hready : s.pool.readyThreads = Fintype.card W := by
    rw [hlive.ready]
    exact count_eq_card (fun w => by rw [hasleep w]; rfl)
  cases hacceptor : s.acceptor with
  | waitForThreads =>
    have hguard : s.acceptor = .waitForThreads ∧ s.pool.queueMutex.isNone :=
      ⟨hacceptor, Option.isNone_iff_eq_none.mpr hfree⟩
    have hstep : s.step .waitForThreads = some { s with acceptor := .accept } := by
      rw [ThreadPoolServer.step, if_pos hguard, if_pos hready]
    rcases h _ _ hstep with ⟨_, heq⟩ | heq | ⟨_, heq, _⟩ <;> contradiction
  | asleep => exact absurd hready (hserves.expects hacceptor)
  | accept => rfl
  | enqueue clientSocket =>
    have hstep : s.step .enqueue = some ⟨s.pool.push clientSocket, .notify⟩ := by
      rw [ThreadPoolServer.step, hacceptor]
      dsimp only
      rw [step_of_transition (.enqueue clientSocket hpool hfree)]
      rfl
    rcases h _ _ hstep with ⟨_, heq⟩ | heq | ⟨_, heq, _⟩ <;> contradiction
  | notify =>
    obtain ⟨w⟩ := ‹Nonempty W›
    have hnotifying : 0 < s.pool.notifying := by
      rw [hserves.notifying, if_pos hacceptor]
      exact Nat.one_pos
    have hnotify := step_of_transition (.notifyOne hpool hnotifying (hasleep w))
    have hstep := congrArg (Option.map (fun pool => (⟨pool, .accept⟩ : ThreadPoolServer W))) hnotify
    have hserver : s.step (.notifyOne (some w)) = _ := (if_pos hacceptor).trans hstep
    rcases h _ _ hserver with ⟨_, heq⟩ | heq | ⟨_, heq, _⟩ <;> contradiction

theorem Serves.drained [Nonempty W] (h : Serves ls s) (hrest : s.AtRest) : s.Drained ls := by
  have hasleep := hrest.asleep h.live
  have hacceptor := hrest.acceptor h
  have hnotifying : s.pool.notifying = 0 := by rw [h.notifying, hacceptor]; rfl
  have hidle : count (isIdle ·) s.pool.point = 0 := by
    rw [count_eq_total]
    exact total_eq_zero (fun w => by rw [hasleep w]; rfl)
  have htasks : s.pool.tasks = [] := by
    obtain ⟨w⟩ := ‹Nonempty W›
    have hle := h.live.attended ⟨w, hasleep w⟩
    rw [hnotifying, hidle] at hle
    exact List.length_eq_zero_iff.mp (Nat.le_zero.mp hle)
  have hexecuted : s.pool.history.executed.Perm s.pool.history.enqueued := by
    have hremoved := h.live.accounts.removed
    have hstarted := h.live.accounts.started
    rw [total_eq_zero (fun w => by rw [hasleep w]; rfl), zero_add] at hremoved hstarted
    apply Multiset.coe_eq_coe.mp
    rw [← hstarted, ← hremoved, ← h.live.accounts.queue, htasks, List.append_nil]
  refine ⟨hacceptor, hasleep, htasks, ?_⟩
  have hclients := h.enqueued
  rw [hacceptor] at hclients
  rw [← hclients]
  show List.Perm _ (_ ++ [])
  rw [List.append_nil]
  exact hexecuted.map Task.task

/-- Whatever the order of the steps, the run is no longer than the workers and what the
clients and the spurious wake-ups bring make it, and once only these are left, every
client has been handled once. -/
theorem server_drains [Nonempty W] (hrun : Runs.run step create ls = some s) :
    ls.length ≤ 4 * Fintype.card W + 1 + Runs.cost step brings create ls ∧
      (s.AtRest → s.Drained ls) := by
  constructor
  · have hlength := Runs.length_le_cost step brings weight (fun _ => True)
      (fun s l s' _ hstep => ⟨trivial, weight_step s l s' hstep⟩) ls create s trivial hrun
    have hstart : total ahead (create : ThreadPoolServer W).pool.point = 4 * Fintype.card W := by
      have hfour : ∀ w, ahead ((create : ThreadPoolServer W).pool.point w) = 4 := fun _ => rfl
      simp [total, hfour, mul_comm]
    have hcreate : weight (create : ThreadPoolServer W) = 4 * Fintype.card W + 1 := by
      rw [weight, hstart]
      rfl
    omega
  · have hserves := Runs.run_invariant_of_labels step Serves
      (fun _ _ _ _ h hstep => h.step hstep) ls [] create s serves_create hrun
    exact hserves.drained

/-- `start` looks before the first announcement, is woken by it and looks again, and
after the second; both workers of the pool sleep before the first client comes, and
again after it. -/
theorem server_drains_one : ∃ s : ThreadPoolServer (Fin 2),
    Runs.run step create [.waitForThreads, .worker 0, .waitForThreads, .worker 1,
      .waitForThreads, .worker 0, .worker 0, .worker 1, .worker 1, .accept 4, .enqueue,
      .notifyOne (some 1), .worker 1, .worker 1, .worker 1, .worker 1, .worker 1] = some s ∧
    s.Drained [.waitForThreads, .worker 0, .waitForThreads, .worker 1,
      .waitForThreads, .worker 0, .worker 0, .worker 1, .worker 1, .accept 4, .enqueue,
      .notifyOne (some 1), .worker 1, .worker 1, .worker 1, .worker 1, .worker 1] := by
  obtain ⟨s, hrun, hacceptor, hasleep⟩ : ∃ s : ThreadPoolServer (Fin 2),
      Runs.run step create [.waitForThreads, .worker 0, .waitForThreads, .worker 1,
        .waitForThreads, .worker 0, .worker 0, .worker 1, .worker 1, .accept 4, .enqueue,
        .notifyOne (some 1), .worker 1, .worker 1, .worker 1, .worker 1, .worker 1] = some s ∧
      s.acceptor = .accept ∧ ∀ w, s.pool.point w = .blocked := ⟨_, rfl, rfl, by decide⟩
  refine ⟨s, hrun, (server_drains hrun).2 ?_⟩
  intro l s' hstep
  cases l with
  | accept clientSocket => exact Or.inl ⟨clientSocket, rfl⟩
  | worker w => exact Or.inr (Or.inr ⟨w, rfl, hasleep w⟩)
  | waitForThreads => simp [step, hacceptor] at hstep
  | wakeUp => exact Or.inr (Or.inl rfl)
  | enqueue => simp [step, hacceptor] at hstep
  | notifyOne woken => simp [step, hacceptor] at hstep

end Server

end ProxyServer.ThreadPoolServer
