import ProxyServer.Runs
import Mathlib.Data.Int.Notation
import Mathlib.Logic.Function.Basic

/-!
The workers of the semaphore server. Each one loops over the semaphore, accepts
a client and serves it in `datafromclient`, which opens a connection to the
origin on a miss. What the kernel knows is the table of open descriptors; beside
it stands who opened each of them. `accept` and `socket` may return any
descriptor that is not open, and `close` closes whatever is open under the
number it is given.
-/
namespace ProxyServer

/-- Who accepted or opened a descriptor: the process before its workers ran, or
one of them. -/
inductive Owner (W : Type*)
  | process
  | worker (w : W)

/-- Where a worker is in `workerThread`, or in `datafromclient` and
`createServerSocket` under it. -/
inductive Point
  | loop
  | semWait
  | check
  | accept
  | serve (clientSocket : ℤ)
  | socket (clientSocket : ℤ)
  | connect (clientSocket sockfd : ℤ)
  | forward (clientSocket iServerfd : ℤ)
  | closeNewsockfd (clientSocket : ℤ)
  | closeClientSocket (clientSocket : ℤ)
  | semPost (leave : Bool)
  | returned
  deriving DecidableEq

/-- What the system answers a worker. A descriptor is `none` where the call
fails; `exit` stands for a receive error or a request that is not accepted. -/
inductive Event
  | next
  | descriptor (fd : Option ℤ)
  | hit
  | miss
  | exit
  | connected (ok : Bool)
  deriving DecidableEq

structure SemaphoreServer (W : Type*) where
  running : Bool
  threadSemaphore : ℕ
  openFiles : ℤ → Option (Owner W)
  point : W → Point

namespace SemaphoreServer

variable {W : Type*}

inductive Step (W : Type*)
  | sigint
  | worker (w : W) (event : Event)

def openFile (s : SemaphoreServer W) (w : W) (fd : ℤ) : SemaphoreServer W :=
  { s with openFiles := Function.update s.openFiles fd (some (.worker w)) }

def closeFile (s : SemaphoreServer W) (fd : ℤ) : SemaphoreServer W :=
  { s with openFiles := Function.update s.openFiles fd none }

/-- A descriptor the kernel may hand out. -/
def Unused (s : SemaphoreServer W) (fd : ℤ) : Prop := 0 ≤ fd ∧ (s.openFiles fd).isNone

instance (s : SemaphoreServer W) (fd : ℤ) : Decidable (s.Unused fd) :=
  inferInstanceAs (Decidable (_ ∧ _))

@[simp] theorem openFile_openFiles (s : SemaphoreServer W) (w : W) (fd : ℤ) :
    (s.openFile w fd).openFiles = Function.update s.openFiles fd (some (.worker w)) := rfl

@[simp] theorem openFile_point (s : SemaphoreServer W) (w : W) (fd : ℤ) :
    (s.openFile w fd).point = s.point := rfl

@[simp] theorem closeFile_openFiles (s : SemaphoreServer W) (fd : ℤ) :
    (s.closeFile fd).openFiles = Function.update s.openFiles fd none := rfl

@[simp] theorem closeFile_point (s : SemaphoreServer W) (fd : ℤ) :
    (s.closeFile fd).point = s.point := rfl

/-- The descriptor that the next step of a worker at `p` closes. -/
def closing : Point → Event → Option ℤ
  | .connect _ sockfd, .connected false => some sockfd
  | .forward _ iServerfd, .next => some iServerfd
  | .closeNewsockfd fd, .next => some fd
  | .closeClientSocket fd, .next => some fd
  | _, _ => none

theorem closing_cases {p : Point} {event : Event} {fd : ℤ} (h : closing p event = some fd) :
    (∃ c, p = .connect c fd ∧ event = .connected false) ∨ (event = .next ∧
      ((∃ c, p = .forward c fd) ∨ p = .closeNewsockfd fd ∨ p = .closeClientSocket fd)) := by
  unfold closing at h
  split at h
  · exact Or.inl ⟨_, by rw [Option.some.inj h], rfl⟩
  · exact Or.inr ⟨rfl, Or.inl ⟨_, by rw [Option.some.inj h]⟩⟩
  · exact Or.inr ⟨rfl, Or.inr (Or.inl (by rw [Option.some.inj h]))⟩
  · exact Or.inr ⟨rfl, Or.inr (Or.inr (by rw [Option.some.inj h]))⟩
  · contradiction

section Step
variable [DecidableEq W]

def goto (s : SemaphoreServer W) (w : W) (p : Point) : SemaphoreServer W :=
  { s with point := Function.update s.point w p }

@[simp] theorem goto_openFiles (s : SemaphoreServer W) (w : W) (p : Point) :
    (s.goto w p).openFiles = s.openFiles := rfl

@[simp] theorem goto_point (s : SemaphoreServer W) (w : W) (p : Point) :
    (s.goto w p).point = Function.update s.point w p := rfl

def workerStep (s : SemaphoreServer W) (w : W) : Point → Event → Option (SemaphoreServer W)
  | .loop, .next => some (s.goto w (if s.running then .semWait else .returned))
  | .semWait, .next =>
      if 0 < s.threadSemaphore
      then some ({ s with threadSemaphore := s.threadSemaphore - 1 }.goto w .check) else none
  | .check, .next => some (s.goto w (if s.running then .accept else .semPost true))
  | .accept, .descriptor none => some (s.goto w (.semPost false))
  | .accept, .descriptor (some fd) =>
      if s.Unused fd then some ((s.openFile w fd).goto w (.serve fd)) else none
  | .serve fd, .hit => some (s.goto w (.closeNewsockfd fd))
  | .serve fd, .miss => some (s.goto w (.socket fd))
  | .serve _, .exit => some { s with point := fun _ => .returned }
  | .socket fd, .descriptor none => some (s.goto w (.forward fd (-1)))
  | .socket fd, .descriptor (some sockfd) =>
      if s.Unused sockfd then some ((s.openFile w sockfd).goto w (.connect fd sockfd)) else none
  | .connect fd sockfd, .connected true => some (s.goto w (.forward fd sockfd))
  | .connect fd sockfd, .connected false => some ((s.closeFile sockfd).goto w (.forward fd (-1)))
  | .forward fd iServerfd, .next => some ((s.closeFile iServerfd).goto w (.closeNewsockfd fd))
  | .closeNewsockfd fd, .next => some ((s.closeFile fd).goto w (.closeClientSocket fd))
  | .closeClientSocket fd, .next => some ((s.closeFile fd).goto w (.semPost false))
  | .semPost leave, .next =>
      some ({ s with threadSemaphore := s.threadSemaphore + 1 }.goto w
        (if leave then .returned else .loop))
  | _, _ => none

def step (s : SemaphoreServer W) : Step W → Option (SemaphoreServer W)
  | .sigint => some { s with running := false }
  | .worker w event => s.workerStep w (s.point w) event

end Step

/-- The server when its workers are created. -/
def start (numThreads : ℕ) (openFiles : ℤ → Option (Owner W)) : SemaphoreServer W :=
  { running := true, threadSemaphore := numThreads, openFiles := openFiles,
    point := fun _ => .loop }

end SemaphoreServer

end ProxyServer
