import ProxyServer.SemaphoreServer
import ProxyServer.ServerFactory
import ProxyServer.ThreadPoolServer

/-!
How many clients a server handles at once. Both servers reach the number of
threads they were constructed with and never exceed it; but the factory does not
pass on the number it is asked for, so every server has the 25 threads of the
constructors' default.
-/
namespace ProxyServer

open Parties

namespace SemaphoreServer

def isServing : Point → Bool
  | .serve _ | .socket _ | .connect _ _ | .forward _ _ | .closeNewsockfd _ => true
  | _ => false

/-- The number of clients inside `datafromclient`. -/
def handled {W : Type*} [Fintype W] (s : SemaphoreServer W) : ℕ := count (isServing ·) s.point

theorem handled_le {n : ℕ} (s : SemaphoreServer (Fin n)) : s.handled ≤ n := by
  have hle := count_le_card (isServing ·) s.point
  rwa [Fintype.card_fin] at hle

/-- A worker at the head of its loop accepts a client. -/
theorem accept_one {W : Type*} [DecidableEq W] {s : SemaphoreServer W} {w : W}
    (hrunning : s.running = true) (hw : s.point w = .loop) (hpermit : 0 < s.threadSemaphore)
    {fd : ℤ} (hfd : s.Unused fd) :
    ∃ s', Runs.run step s [.worker w .next, .worker w .next, .worker w .next,
        .worker w (.descriptor (some fd))] = some s' ∧
      s'.running = true ∧ s'.threadSemaphore = s.threadSemaphore - 1 ∧
      s'.point = Function.update s.point w (.serve fd) ∧
      s'.openFiles = Function.update s.openFiles fd (some (.worker w)) := by
  obtain ⟨s₁, hs₁⟩ : ∃ t, t = s.goto w .semWait := ⟨_, rfl⟩
  obtain ⟨s₂, hs₂⟩ : ∃ t, t = { s₁ with threadSemaphore := s.threadSemaphore - 1 }.goto w .check :=
    ⟨_, rfl⟩
  obtain ⟨s₃, hs₃⟩ : ∃ t, t = s₂.goto w .accept := ⟨_, rfl⟩
  have hloop : s.step (.worker w .next) = some s₁ := by
    rw [step, hw, workerStep, if_pos hrunning, hs₁]
  have hwait : s₁.step (.worker w .next) = some s₂ := by
    rw [step, show s₁.point w = .semWait by simp [hs₁], workerStep,
      if_pos (by rw [hs₁]; exact hpermit), hs₂, hs₁]
    rfl
  have hcheck : s₂.step (.worker w .next) = some s₃ := by
    rw [step, show s₂.point w = .check by simp [hs₂], workerStep,
      if_pos (by rw [hs₂, hs₁]; exact hrunning), hs₃]
  have haccept : s₃.step (.worker w (.descriptor (some fd))) =
      some ((s₃.openFile w fd).goto w (.serve fd)) := by
    rw [step, show s₃.point w = .accept by simp [hs₃], workerStep,
      if_pos (by rw [hs₃, hs₂, hs₁]; exact hfd)]
  refine ⟨(s₃.openFile w fd).goto w (.serve fd), ?_, ?_, ?_, ?_, ?_⟩
  · rw [Runs.run_cons, hloop, Option.bind_some, Runs.run_cons, hwait, Option.bind_some,
      Runs.run_cons, hcheck, Option.bind_some, Runs.run_cons, haccept]
    rfl
  · rw [hs₃, hs₂, hs₁]
    exact hrunning
  · rw [hs₃, hs₂]
    rfl
  · rw [hs₃, hs₂, hs₁]
    simp [goto, openFile]
  · rw [hs₃, hs₂, hs₁]
    rfl

/-- The first `k` workers are inside `datafromclient`, and the others at the
head of their loops. -/
structure Serving {n : ℕ} (k : ℕ) (s : SemaphoreServer (Fin n)) : Prop where
  running : s.running = true
  permits : s.threadSemaphore + k = n
  unused : ∀ j, k ≤ j → s.Unused (4 + j)
  point : Advanced k (fun p => isServing p = true) .loop s.point

theorem Serving.next {n k : ℕ} {s : SemaphoreServer (Fin n)} (h : Serving k s) (hk : k < n) :
    ∃ ls s', Runs.run step s ls = some s' ∧ Serving (k + 1) s' := by
  have hpermits := h.permits
  obtain ⟨s', hrun, hrunning, hpermit, hpoint, hopen⟩ :=
    accept_one h.running (h.point.waiting ⟨k, hk⟩ (le_refl k)) (by omega) (h.unused k (le_refl k))
  refine ⟨_, s', hrun, hrunning, by omega, ?_, ?_⟩
  · intro j hj
    obtain ⟨hnonneg, hnone⟩ := h.unused j (by omega)
    refine ⟨hnonneg, ?_⟩
    rw [hopen, Function.update_of_ne (by omega)]
    exact hnone
  · rw [hpoint]
    exact h.point.next hk rfl

/-- Schedules exist that bring all workers into `datafromclient` at once. -/
theorem exists_handled_eq (n : ℕ) (openFiles : ℤ → Option (Owner (Fin n)))
    (hunused : ∀ fd, 4 ≤ fd → openFiles fd = none) :
    ∃ ls s, Runs.run step (start n openFiles) ls = some s ∧ s.handled = n := by
  have hstart : Serving 0 (start n openFiles) := by
    refine ⟨rfl, rfl, fun j _ => ⟨by omega, ?_⟩, Advanced.zero (fun _ => rfl)⟩
    simp [start, hunused (4 + j) (by omega)]
  obtain ⟨ls, s, hrun, hserving⟩ :=
    Runs.run_stages step Serving n (fun k hk _ h => h.next hk) hstart
  refine ⟨ls, s, hrun, ?_⟩
  rw [handled, count_eq_card hserving.point.all, Fintype.card_fin]

end SemaphoreServer

namespace HTTPServer

/-- In every state that a schedule of the server reaches, at most `n` clients
are being handled. A number of threads is converted where it is used. -/
def HandlesAtMost (n : ℤ) : HTTPServer → Prop
  | .threadPool _ numThreads =>
      ∀ ls s, Runs.run ThreadPoolServer.step
        (ThreadPoolServer.create : ThreadPoolServer (Fin (CStrings.sizeT numThreads))) ls = some s →
          s.handled ≤ n
  | .semaphore _ numThreads =>
      ∀ openFiles ls s, Runs.run SemaphoreServer.step
        (SemaphoreServer.start numThreads.toNat openFiles :
          SemaphoreServer (Fin numThreads.toNat)) ls = some s → s.handled ≤ n

/-- A server made by the factory handles at most the number of clients asked
for exactly when that number is not below the default of 25. -/
theorem handlesAtMost_iff {serverType cacheType : String} {numThreads cacheSize : ℤ}
    {server : HTTPServer}
    (h : createHTTPServer serverType cacheType numThreads cacheSize = some server) :
    server.HandlesAtMost numThreads ↔ 25 ≤ numThreads := by
  obtain ⟨cache, _, rfl | rfl⟩ := createHTTPServer_cases h
  · have hsize : CStrings.sizeT 25 = 25 := rfl
    constructor
    · intro hall
      obtain ⟨ls, s, hrun, hhandled⟩ := ThreadPoolServer.exists_handled_eq (CStrings.sizeT 25)
      have hle := hall ls s hrun
      omega
    · intro hle ls s _
      have hcard := s.handled_le
      omega
  · have hsize : (25 : ℤ).toNat = 25 := rfl
    constructor
    · intro hall
      obtain ⟨ls, s, hrun, hhandled⟩ :=
        SemaphoreServer.exists_handled_eq (25 : ℤ).toNat (fun _ => none) (fun _ _ => rfl)
      have hle := hall (fun _ => none) ls s hrun
      omega
    · intro hle openFiles ls s _
      have hcard := s.handled_le
      omega

theorem handlesAtMost_iff_thirty :
    (HTTPServer.semaphore (.lru (LRUCache.create 100)) 25).HandlesAtMost 30 ↔ (25 : ℤ) ≤ 30 :=
  @handlesAtMost_iff "Semaphore" "LRUCache" 30 100 _ rfl

/-- Asked for one thread, the thread-pool server still handles 25 clients. -/
theorem handles_more_than_one :
    ¬ ∀ serverType cacheType numThreads cacheSize server,
      createHTTPServer serverType cacheType numThreads cacheSize = some server →
        1 ≤ numThreads → server.HandlesAtMost numThreads := by
  intro hall
  have hone := hall "Threadpool" "LRUCache" 1 100 _ rfl (le_refl 1)
  obtain ⟨ls, s, hrun, hhandled⟩ := ThreadPoolServer.exists_handled_eq (CStrings.sizeT 25)
  have hle : (s.handled : ℤ) ≤ 1 := hone ls s hrun
  have hsize : CStrings.sizeT 25 = 25 := rfl
  omega

end HTTPServer

end ProxyServer
