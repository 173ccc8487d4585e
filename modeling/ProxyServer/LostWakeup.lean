import ProxyServer.ThreadPool

/-!
The wake-up that the destructor's workers may miss. `stop` is set without
`queueMutex`, so `notify_all` can come when a worker has found its predicate
false and is about to block. That worker then sleeps through the join. This is
the only way: where no worker stands there when `notify_all` is issued, none is
ever blocked afterwards.
-/
namespace ProxyServer.ThreadPool

variable {W T : Type*}

/-- `notify_all` has been issued. -/
def Notified (s : ThreadPool W T) : Prop :=
  s.destructor = .join ∨ s.destructor = .returned

/-- A worker sleeps and nothing is left that would wake it. -/
def Stuck (s : ThreadPool W T) : Prop :=
  s.Notified ∧ s.notifying = 0 ∧ s.tasks = [] ∧ ∃ w, s.point w = .blocked

/-- When the destructor issues `notify_all`, no worker is between finding the
wait predicate false and blocking. -/
def NotifiesAsleep (s : ThreadPool W T) (l : Step W T) : Prop :=
  l = .notifyAll → s.destructor = .notifyAll → ∀ w, s.point w ≠ .checked

/-- Once all are notified no worker is blocked, nor will block. -/
structure Woken (s : ThreadPool W T) : Prop where
  stopped : s.destructor ≠ .setStop → s.stop = true
  awake : s.Notified → ∀ w, s.point w ≠ .blocked ∧ s.point w ≠ .checked

theorem create_woken : (create : ThreadPool W T).Woken :=
  ⟨by simp [create], by simp [create, Notified]⟩

section Step
variable [DecidableEq W] {s s' : ThreadPool W T}

namespace Woken

theorem moved (h : s.Woken) {w : W} {p : WorkerPoint T}
    (hp : s.Notified → p ≠ .blocked ∧ p ≠ .checked)
    (hpoint : s'.point = Function.update s.point w p) (hstop : s'.stop = s.stop)
    (hdestructor : s'.destructor = s.destructor) : s'.Woken := by
  refine ⟨?_, ?_⟩
  · rw [hstop, hdestructor]
    exact h.stopped
  · intro hnotified v
    unfold Notified at hnotified
    rw [hdestructor] at hnotified
    rw [hpoint]
    by_cases hv : v = w
    · subst hv
      rw [Function.update_self]
      exact hp hnotified
    · rw [Function.update_of_ne hv]
      exact h.awake hnotified v

theorem step (h : s.Woken) {l : Step W T} (hl : NotifiesAsleep s l)
    (hstep : Transition s l s') : s'.Woken := by
  have hlater : s.Notified → s.destructor ≠ .setStop := by
    rintro (hd | hd) <;> simp [hd]
  cases hstep with
  | enqueue => exact ⟨h.stopped, h.awake⟩
  | notifyOne => exact h.moved (fun _ => by simp) rfl rfl rfl
  | notifyNone => exact ⟨h.stopped, h.awake⟩
  | ready => exact h.moved (fun _ => by simp) rfl rfl rfl
  | take => exact h.moved (fun _ => by simp) rfl rfl rfl
  | leave => exact h.moved (fun _ => by simp) rfl rfl rfl
  | check _ _ hstop =>
    refine h.moved (fun hnotified => ?_) rfl rfl rfl
    rw [h.stopped (hlater hnotified)] at hstop
    contradiction
  | block hw =>
    refine h.moved (fun hnotified => ?_) rfl rfl rfl
    exact absurd hw (h.awake hnotified _).2
  | wake => exact h.moved (fun _ => by simp) rfl rfl rfl
  | start => exact h.moved (fun _ => by simp) rfl rfl rfl
  | finish => exact h.moved (fun _ => by simp) rfl rfl rfl
  | setStop => exact ⟨fun _ => rfl, by simp [Notified]⟩
  | notifyAll hd =>
    have hstop : s.stop = true := h.stopped (by simp [hd])
    refine ⟨fun _ => hstop, fun _ w => ?_⟩
    have hchecked := hl rfl hd w
    simp only [wakeAll]
    split
    · simp
    · rename_i hawake
      exact ⟨mt isBlocked_iff.mpr hawake, hchecked⟩
  | join hd => exact ⟨fun _ => h.stopped (by simp [hd]), fun _ => h.awake (Or.inl hd)⟩

end Woken

/-- With no notification to come, a worker blocked during the join stays so and
the join does not return, but for another `enqueue` or a spurious wake-up. -/
theorem asleep_step {w : W} (hw : s.point w = .blocked) (hjoin : s.destructor = .join)
    (hnone : s.notifying = 0) {l : Step W T} (henqueue : ∀ task, l ≠ .enqueue task)
    (hspurious : l ≠ .worker w) (hstep : Transition s l s') :
    s'.point w = .blocked ∧ s'.destructor = .join ∧ s'.notifying = 0 := by
  have hother : ∀ {v : W} {p : WorkerPoint T}, (.worker v : Step W T) ≠ .worker w →
      Function.update s.point v p w = .blocked := by
    intro v p hv
    rw [Function.update_of_ne (fun hvw => hv (by rw [hvw]))]
    exact hw
  cases hstep with
  | enqueue task => exact absurd rfl (henqueue task)
  | notifyOne _ hnotifying => omega
  | notifyNone _ hnotifying => omega
  | ready => exact ⟨hother hspurious, hjoin, hnone⟩
  | take => exact ⟨hother hspurious, hjoin, hnone⟩
  | leave => exact ⟨hother hspurious, hjoin, hnone⟩
  | check => exact ⟨hother hspurious, hjoin, hnone⟩
  | block => exact ⟨hother hspurious, hjoin, hnone⟩
  | wake => exact ⟨hother hspurious, hjoin, hnone⟩
  | start => exact ⟨hother hspurious, hjoin, hnone⟩
  | finish => exact ⟨hother hspurious, hjoin, hnone⟩
  | setStop hd =>
    rw [hjoin] at hd
    contradiction
  | notifyAll hd =>
    rw [hjoin] at hd
    contradiction
  | join _ hreturned =>
    have hr := hreturned w
    rw [hw] at hr
    contradiction

variable [Fintype W]

theorem run_notifications (n : ℕ) : ∀ {s : ThreadPool W T}, s.notifying = n →
    s.destructor ≠ .returned → (∀ w, s.point w ≠ .blocked) →
    Runs.run ThreadPool.step s (List.replicate n (.notifyOne none)) =
      some { s with notifying := 0 } := by
  induction n with
  | zero =>
    intro s hn _ _
    rw [List.replicate_zero, Runs.run_nil, ← hn]
  | succ n ih =>
    intro s hn hlive hnone
    have hstep : s.step (.notifyOne none) = some { s with notifying := n } := by
      rw [step_of_transition (.notifyNone hlive (by omega) hnone), hn, Nat.add_sub_cancel]
    rw [List.replicate_succ, Runs.run_cons, hstep, Option.bind_some]
    exact ih rfl hlive hnone

/-- A worker that is about to block when `notify_all` is issued sleeps for good. -/
theorem exists_stuck {s : ThreadPool W T} (hguarded : s.Guarded) (hd : s.destructor = .notifyAll)
    {w : W} (hw : s.point w = .checked) :
    ∃ more, Step.notifyAll ∉ more ∧ ∃ s', Runs.run step s (.notifyAll :: more) = some s' ∧
      s'.Stuck := by
  refine ⟨List.replicate s.notifying (.notifyOne none) ++ [.worker w], ?_, ?_⟩
  · simp [List.mem_replicate]
  obtain ⟨t, ht⟩ : ∃ t, t = { s with point := wakeAll s.point, destructor := .join } := ⟨_, rfl⟩
  have hnotified : s.step .notifyAll = some t := by
    rw [ht]
    exact step_of_transition (.notifyAll hd)
  have hnone : ∀ v, t.point v ≠ .blocked := by
    intro v
    rw [ht]
    simp only [wakeAll]
    split
    · simp
    · rename_i hawake
      exact mt isBlocked_iff.mpr hawake
  have hchecked : t.point w = .checked := by
    rw [ht]
    simp only [wakeAll, hw]
    rfl
  have hnotifications := run_notifications s.notifying (by rw [ht]) (by simp [ht]) hnone
  have hblock : ThreadPool.step { t with notifying := 0 } (.worker w) =
      some ({ t with notifying := 0, queueMutex := none }.goto w .blocked) :=
    step_of_transition (.block hchecked)
  refine ⟨{ t with notifying := 0, queueMutex := none }.goto w .blocked, ?_, ?_⟩
  · rw [Runs.run_cons, hnotified, Option.bind_some, Runs.run_append, hnotifications,
      Option.bind_some, Runs.run_cons, hblock, Option.bind_some, Runs.run_nil]
  · refine ⟨Or.inl (by simp [goto, ht]), rfl, ?_, w, by simp [goto]⟩
    simpa [goto, ht] using hguarded.empty w hw

end Step

variable [Fintype W] [DecidableEq W]

theorem run_woken {ls : List (Step W T)} (hls : Runs.EveryStep step NotifiesAsleep create ls)
    {s : ThreadPool W T} (hrun : Runs.run step create ls = some s) : s.Woken :=
  Runs.run_invariant_of_everyStep step Woken NotifiesAsleep
    (fun _ _ _ h hl hstep => h.step hl (transition_of_step hstep)) ls create s create_woken hls hrun

/-- A schedule leads to no stuck pool, now or after more steps of the workers
and the notifications, exactly when `notify_all` finds no worker about to block. -/
theorem never_stuck_iff (ls : List (Step W T)) :
    (∀ ms, ms <+: ls → ∀ more, Step.notifyAll ∉ more → ∀ s : ThreadPool W T,
      Runs.run step create (ms ++ more) = some s → ¬ s.Stuck) ↔
    Runs.EveryStep step NotifiesAsleep create ls := by
  constructor
  · intro hnever
    apply Runs.everyStep_of_reached
    rintro ms l hms t hrun rfl hd w hw
    obtain ⟨more, hmore, s, hs, hstuck⟩ := exists_stuck (run_guarded hrun) hd hw
    apply hnever (ms ++ [.notifyAll]) hms more hmore s ?_ hstuck
    rw [List.append_assoc, Runs.run_append, hrun, Option.bind_some]
    exact hs
  · rintro hevery ms ⟨rest, rfl⟩ more hmore s hrun ⟨hnotified, _, _, w, hw⟩
    have hms := ((Runs.everyStep_append step NotifiesAsleep ms rest create).mp hevery).1
    have hboth : Runs.EveryStep step NotifiesAsleep create (ms ++ more) := by
      refine (Runs.everyStep_append step NotifiesAsleep ms more create).mpr ⟨hms, fun t _ => ?_⟩
      apply Runs.everyStep_of_forall
      rintro l hl _ rfl
      exact absurd hl hmore
    exact ((run_woken hboth hrun).awake hnotified w).1 hw

/-- The one worker finds nothing to do; `stop` and `notify_all` come before it
blocks. -/
theorem stuck_of_late_notification :
    ¬ ∀ (ls : List (Step (Fin 1) ℕ)) (s : ThreadPool (Fin 1) ℕ),
      Runs.run step create ls = some s → ¬ s.Stuck := by
  intro hnever
  apply hnever [.worker 0, .worker 0, .setStop, .notifyAll, .worker 0] _ rfl
  exact ⟨Or.inl rfl, rfl, rfl, 0, rfl⟩

end ProxyServer.ThreadPool
