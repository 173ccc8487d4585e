import ProxyServer.SemaphoreServer

/-!
Whose descriptors the workers of the semaphore server close. `datafromclient`
closes the client's descriptor and `workerThread` closes the same number again,
when the kernel may have given it to another worker; and where no connection to
the origin could be made the number closed is -1. All other closes are of the
calling worker's own open descriptors.
-/
namespace ProxyServer.SemaphoreServer

variable {W : Type*}

/-- The step closes nothing but an open descriptor of its own worker. -/
def ClosesOwn (s : SemaphoreServer W) : Step W → Prop
  | .worker w event => ∀ fd, closing (s.point w) event = some fd →
      s.openFiles fd = some (.worker w)
  | .sigint => True

/-- The step is neither the close after `datafromclient` nor a close of the -1
of a failed connection. -/
def ClosesOnce (s : SemaphoreServer W) : Step W → Prop
  | .worker w event => event = .next → ∀ fd,
      s.point w ≠ .closeClientSocket fd ∧ s.point w ≠ .forward fd (-1)
  | .sigint => True

/-- The points of the two faulty closes. -/
def closesAmiss : Point → Bool
  | .closeClientSocket _ => true
  | .forward _ iServerfd => iServerfd = -1
  | _ => false

theorem closesAmiss_eq_false_iff (p : Point) :
    closesAmiss p = false ↔ ∀ fd, p ≠ .closeClientSocket fd ∧ p ≠ .forward fd (-1) := by
  cases p <;> simp [closesAmiss]

instance (s : SemaphoreServer W) : DecidablePred (ClosesOnce s)
  | .sigint => isTrue trivial
  | .worker w event => decidable_of_iff (event = .next → closesAmiss (s.point w) = false)
      (imp_congr_right fun _ => closesAmiss_eq_false_iff (s.point w))

/-- What a worker at a point owns, and that it no longer owns the descriptor
it is about to close for the second time. -/
def Owns (openFiles : ℤ → Option (Owner W)) (w : W) : Point → Prop
  | .serve fd | .socket fd | .closeNewsockfd fd => openFiles fd = some (.worker w)
  | .connect fd sockfd => openFiles fd = some (.worker w) ∧
      openFiles sockfd = some (.worker w) ∧ fd ≠ sockfd
  | .forward fd iServerfd => openFiles fd = some (.worker w) ∧
      (iServerfd ≠ -1 → openFiles iServerfd = some (.worker w) ∧ fd ≠ iServerfd)
  | .closeClientSocket fd => openFiles fd ≠ some (.worker w)
  | _ => True

structure Owned (s : SemaphoreServer W) : Prop where
  owns : ∀ w, Owns s.openFiles w (s.point w)
  invalid : ∀ fd, fd < 0 → s.openFiles fd = none

theorem Owns.congr {openFiles openFiles' : ℤ → Option (Owner W)} {w : W} {p : Point}
    (h : Owns openFiles w p)
    (hsame : ∀ fd, openFiles' fd = some (.worker w) ↔ openFiles fd = some (.worker w)) :
    Owns openFiles' w p := by
  cases p with
  | serve fd => exact (hsame fd).mpr h
  | socket fd => exact (hsame fd).mpr h
  | connect fd sockfd => exact ⟨(hsame fd).mpr h.1, (hsame sockfd).mpr h.2.1, h.2.2⟩
  | forward fd iServerfd =>
    exact ⟨(hsame fd).mpr h.1, fun hne => ⟨(hsame iServerfd).mpr (h.2 hne).1, (h.2 hne).2⟩⟩
  | closeNewsockfd fd => exact (hsame fd).mpr h
  | closeClientSocket fd => exact mt (hsame fd).mp h
  | loop => trivial
  | semWait => trivial
  | check => trivial
  | accept => trivial
  | semPost leave => trivial
  | returned => trivial

theorem opened_other {openFiles : ℤ → Option (Owner W)} {w w' : W} (hw : w' ≠ w) {fd : ℤ}
    (hfd : openFiles fd = none) (x : ℤ) :
    Function.update openFiles fd (some (.worker w)) x = some (.worker w') ↔
      openFiles x = some (.worker w') := by
  by_cases hx : x = fd
  · subst hx
    simp [hfd, Ne.symm hw]
  · rw [Function.update_of_ne hx]

/-- A descriptor closed that was not this worker's. -/
theorem closed_other {openFiles : ℤ → Option (Owner W)} {w' : W} {fd : ℤ}
    (hfd : openFiles fd ≠ some (.worker w')) (x : ℤ) :
    Function.update openFiles fd none x = some (.worker w') ↔
      openFiles x = some (.worker w') := by
  by_cases hx : x = fd
  · subst hx
    simp [hfd]
  · rw [Function.update_of_ne hx]

namespace Owned

variable {s : SemaphoreServer W}

/-- Under the invariant the closes of another's descriptor are exactly the two
kinds named. -/
theorem closesOwn_iff (h : s.Owned) (l : Step W) : s.ClosesOwn l ↔ s.ClosesOnce l := by
  cases l with
  | sigint => exact Iff.rfl
  | worker w event =>
    have howns := h.owns w
    constructor
    · intro hown hnext fd
      subst hnext
      constructor
      · intro hp
        rw [hp] at howns
        exact howns (hown fd (by rw [hp]; rfl))
      · intro hp
        have hclosed := hown (-1) (by rw [hp]; rfl)
        rw [h.invalid (-1) (by decide)] at hclosed
        contradiction
    · intro honce fd hclosing
      rcases closing_cases hclosing with ⟨c, hp, _⟩ | ⟨hnext, ⟨c, hp⟩ | hp | hp⟩
      · rw [hp] at howns
        exact howns.2.1
      · have hfd : fd ≠ -1 := by
          rintro rfl
          exact (honce hnext c).2 hp
        rw [hp] at howns
        exact (howns.2 hfd).1
      · rw [hp] at howns
        exact howns
      · exact absurd hp (honce hnext fd).1

theorem permits (h : s.Owned) (n : ℕ) : Owned { s with threadSemaphore := n } :=
  ⟨h.owns, h.invalid⟩

section Step
variable [DecidableEq W]

theorem goto (h : s.Owned) {w : W} {p : Point} (hp : Owns s.openFiles w p) :
    (s.goto w p).Owned := by
  refine ⟨?_, h.invalid⟩
  intro w'
  simp only [goto_openFiles, goto_point]
  by_cases hw : w' = w
  · subst hw
    rw [Function.update_self]
    exact hp
  · rw [Function.update_of_ne hw]
    exact h.owns w'

theorem openFile (h : s.Owned) {w : W} {fd : ℤ} (hfd : s.Unused fd) {p : Point}
    (hp : Owns (s.openFile w fd).openFiles w p) : ((s.openFile w fd).goto w p).Owned := by
  constructor
  · intro w'
    simp only [goto_openFiles, goto_point, openFile_point]
    by_cases hw : w' = w
    · subst hw
      rw [Function.update_self]
      exact hp
    · rw [Function.update_of_ne hw]
      exact (h.owns w').congr (opened_other hw (Option.isNone_iff_eq_none.mp hfd.2))
  · intro x hx
    have hne : x ≠ fd := by
      have := hfd.1
      omega
    simp only [goto_openFiles, openFile_openFiles, Function.update_of_ne hne]
    exact h.invalid x hx

/-- A step that closes a descriptor no other worker owns. -/
theorem closeFile (h : s.Owned) {w : W} {fd : ℤ}
    (hfd : ∀ w', w' ≠ w → s.openFiles fd ≠ some (.worker w')) {p : Point}
    (hp : Owns (s.closeFile fd).openFiles w p) : ((s.closeFile fd).goto w p).Owned := by
  constructor
  · intro w'
    simp only [goto_openFiles, goto_point, closeFile_point]
    by_cases hw : w' = w
    · subst hw
      rw [Function.update_self]
      exact hp
    · rw [Function.update_of_ne hw]
      exact (h.owns w').congr (closed_other (hfd w' hw))
  · intro x hx
    simp only [goto_openFiles, closeFile_openFiles]
    by_cases hne : x = fd
    · rw [hne, Function.update_self]
    · rw [Function.update_of_ne hne]
      exact h.invalid x hx

omit [DecidableEq W] in
theorem not_other {w : W} {fd : ℤ} (hfd : s.openFiles fd = some (.worker w)) (w' : W)
    (hw : w' ≠ w) : s.openFiles fd ≠ some (.worker w') := by
  rw [hfd]
  intro heq
  cases heq
  exact hw rfl

theorem step (h : s.Owned) {l : Step W} (honce : s.ClosesOnce l) {s' : SemaphoreServer W}
    (hstep : s.step l = some s') : s'.Owned := by
  cases l with
  | sigint =>
    cases hstep
    exact ⟨h.owns, h.invalid⟩
  | worker w event =>
    have howns := h.owns w
    simp only [SemaphoreServer.step] at hstep
    simp only [ClosesOnce] at honce
    generalize s.point w = p at howns hstep honce
    unfold workerStep at hstep
    split at hstep
    · cases hstep
      exact h.goto (by split <;> trivial)
    · split at hstep
      · cases hstep
        exact (h.permits _).goto trivial
      · contradiction
    · cases hstep
      exact h.goto (by split <;> trivial)
    · cases hstep
      exact h.goto trivial
    · split at hstep
      · rename_i hfd
        cases hstep
        exact h.openFile hfd (Function.update_self ..)
      · contradiction
    · cases hstep
      exact h.goto howns
    · cases hstep
      exact h.goto howns
    · cases hstep
      exact ⟨fun _ => trivial, h.invalid⟩
    · cases hstep
      exact h.goto ⟨howns, fun hne => absurd rfl hne⟩
    · rename_i fd sockfd
      split at hstep
      · rename_i hfd
        cases hstep
        have hne : fd ≠ sockfd := by
          rintro rfl
          rw [Owns, Option.isNone_iff_eq_none.mp hfd.2] at howns
          contradiction
        refine h.openFile hfd ⟨?_, Function.update_self .., hne⟩
        rw [openFile_openFiles, Function.update_of_ne hne]
        exact howns
      · contradiction
    · cases hstep
      exact h.goto ⟨howns.1, fun _ => howns.2⟩
    · cases hstep
      refine h.closeFile (not_other howns.2.1) ⟨?_, fun hne => absurd rfl hne⟩
      rw [closeFile_openFiles, Function.update_of_ne howns.2.2]
      exact howns.1
    · rename_i fd iServerfd
      cases hstep
      have hne : iServerfd ≠ -1 := by
        rintro rfl
        exact (honce rfl fd).2 rfl
      refine h.closeFile (not_other (howns.2 hne).1) ?_
      rw [closeFile_openFiles, Owns, Function.update_of_ne (howns.2 hne).2]
      exact howns.1
    · cases hstep
      refine h.closeFile (not_other howns) ?_
      rw [closeFile_openFiles, Owns, Function.update_self]
      simp
    · rename_i fd
      exact absurd rfl (honce rfl fd).1
    · cases hstep
      refine (h.permits _).goto ?_
      split <;> trivial
    · contradiction

end Step

end Owned

/-- Before the workers run every open descriptor is the process's. -/
theorem start_owned (numThreads : ℕ) {openFiles : ℤ → Option (Owner W)}
    (hfiles : ∀ fd o, openFiles fd = some o → o = .process ∧ 0 ≤ fd) :
    (start numThreads openFiles).Owned := by
  refine ⟨fun _ => trivial, ?_⟩
  intro fd hfd
  cases ho : openFiles fd with
  | none => exact ho
  | some o =>
    have := (hfiles fd o ho).2
    omega

section Runs
variable [DecidableEq W]

/-- Every close of a run is of the worker's own open descriptor exactly when
no step of the run is the close after `datafromclient` or a close of -1. -/
theorem closes_own_iff_closes_once (numThreads : ℕ) {openFiles : ℤ → Option (Owner W)}
    (hfiles : ∀ fd o, openFiles fd = some o → o = .process ∧ 0 ≤ fd) (ls : List (Step W)) :
    Runs.EveryStep step ClosesOwn (start numThreads openFiles) ls ↔
      Runs.EveryStep step ClosesOnce (start numThreads openFiles) ls := by
  have hstart := start_owned numThreads hfiles
  constructor
  · apply Runs.everyStep_of_invariant step Owned
    · intro s l hs hown
      exact (hs.closesOwn_iff l).mp hown
    · intro s l s' hs hown hstep
      exact hs.step ((hs.closesOwn_iff l).mp hown) hstep
    · exact hstart
  · apply Runs.everyStep_of_invariant step Owned
    · intro s l hs honce
      exact (hs.closesOwn_iff l).mpr honce
    · intro s l s' hs honce hstep
      exact hs.step honce hstep
    · exact hstart

end Runs

/-- The descriptors of a process with its standard streams and the listening
socket. -/
def listening (fd : ℤ) : Option (Owner ℕ) := if 0 ≤ fd ∧ fd ≤ 3 then some .process else none

/-- Worker 0 serves a miss on descriptors 4 and 5 and closes both, and worker 1 serves a
hit on 4 after it. -/
def servedOnce : List (Step ℕ) :=
  [.worker 0 .next, .worker 0 .next, .worker 0 .next, .worker 0 (.descriptor (some 4)),
    .worker 0 .miss, .worker 0 (.descriptor (some 5)), .worker 0 (.connected true),
    .worker 0 .next, .worker 0 .next, .worker 1 .next, .worker 1 .next, .worker 1 .next,
    .worker 1 (.descriptor (some 4)), .worker 1 .hit, .worker 1 .next]

theorem closes_own_iff_closes_once_two :
    Runs.EveryStep step ClosesOwn (start 2 listening) servedOnce := by
  have hfiles : ∀ fd o, listening fd = some o → o = .process ∧ 0 ≤ fd := by
    intro fd o hfd
    simp only [listening, Option.ite_none_right_eq_some, Option.some.injEq] at hfd
    exact ⟨hfd.2.symm, hfd.1.1⟩
  apply (closes_own_iff_closes_once 2 hfiles servedOnce).mpr
  decide

/-- Worker 0 serves a hit on descriptor 4 and has closed it when worker 1
accepts a client on 4. -/
def closedTwice : List (Step ℕ) :=
  [.worker 0 .next, .worker 0 .next, .worker 0 .next, .worker 0 (.descriptor (some 4)),
    .worker 0 .hit, .worker 0 .next, .worker 1 .next, .worker 1 .next, .worker 1 .next,
    .worker 1 (.descriptor (some 4))]

/-- The second close of worker 0 is of worker 1's client. -/
theorem closes_other_workers_client :
    ¬ ∀ ls, Runs.EveryStep step ClosesOwn (start 2 listening) ls := by
  intro hall
  obtain ⟨_, hlast⟩ := (Runs.everyStep_append step ClosesOwn closedTwice [.worker 0 .next] _).mp
    (hall (closedTwice ++ [.worker 0 .next]))
  have hrun : (Runs.run step (start 2 listening) closedTwice).map (fun s =>
      (closing (s.point 0) .next, s.openFiles 4)) = some (some 4, some (.worker 1)) := by rfl
  obtain ⟨s, hs, hpair⟩ := Option.map_eq_some_iff.mp hrun
  obtain ⟨hclosing, hfile⟩ := Prod.mk.inj hpair
  have hown := (hlast s hs).1 4 hclosing
  rw [hfile] at hown
  cases hown

end ProxyServer.SemaphoreServer
