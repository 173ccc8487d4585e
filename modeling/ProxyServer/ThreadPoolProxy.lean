import ProxyServer.Descriptors
import ProxyServer.ServerProgress
import Mathlib.Tactic.Abel

/-!
The thread-pool server with the descriptors of its clients. A client's socket is opened
by `accept`, goes through the queue to a worker, and is closed at the end of
`handleClient`; in between `handleClient` may open a socket to the origin. Where it
could not, it calls `close(-1)`, which closes nothing. In every interleaving each
descriptor has one holder, none is lost, and once all clients have been handled the
open descriptors are again those of the start.
-/
namespace ProxyServer

open Descriptors

/-- Where a `handleClient` is, and its socket to the origin, none for the -1 of a
`createServerSocket` that failed; the client's socket is its argument. -/
inductive ClientPoint
  | receive
  | connect (sockfd : ℤ)
  | relay (iServerfd : Option ℤ)
  | finish
  | closed
  deriving DecidableEq, Repr

/-- `failed` is a `createServerSocket` without an address or a socket, `refused` one that
does not connect. -/
inductive ClientEvent
  | hit
  | failed
  | socket (sockfd : ℤ)
  | refused
  | connected
  | responded
  | close
  deriving DecidableEq, Repr

namespace ClientPoint

def held (clientSocket : ℤ) : ClientPoint → Multiset ℤ
  | .receive => {clientSocket}
  | .connect sockfd => sockfd ::ₘ {clientSocket}
  | .relay none => {clientSocket}
  | .relay (some iServerfd) => iServerfd ::ₘ {clientSocket}
  | .finish => {clientSocket}
  | .closed => 0

/-- `close(iServerfd)`, which fails for -1 and closes nothing. -/
def closeServerfd (t : Table ℤ) : Option ℤ → Option (Table ℤ)
  | none => some t
  | some iServerfd => t.close iServerfd

/-- One event; nothing where it cannot come, or a descriptor is closed that is neither
open nor -1. -/
def step (limit : ℕ) (t : Table ℤ) (clientSocket : ℤ) :
    ClientPoint → ClientEvent → Option (ClientPoint × Table ℤ)
  | .receive, .hit => some (.finish, t)
  | .receive, .failed => some (.relay none, t)
  | .receive, .socket sockfd =>
      if 0 ≤ sockfd then (t.acquire limit sockfd).map (fun t => (.connect sockfd, t)) else none
  | .connect sockfd, .refused => (t.close sockfd).map (fun t => (.relay none, t))
  | .connect sockfd, .connected => some (.relay (some sockfd), t)
  | .relay iServerfd, .responded => (closeServerfd t iServerfd).map (fun t => (.finish, t))
  | .finish, .close => (t.close clientSocket).map (fun t => (.closed, t))
  | _, _ => none

/-- The control of `handleClient` allows the event, and the system a new socket. -/
def Permitted (limit : ℕ) (t : Table ℤ) : ClientPoint → ClientEvent → Prop
  | .receive, .hit => True
  | .receive, .failed => True
  | .receive, .socket sockfd => 0 ≤ sockfd ∧ sockfd ∉ t.opened ∧ t.opened.card < limit
  | .connect _, .refused => True
  | .connect _, .connected => True
  | .relay _, .responded => True
  | .finish, .close => True
  | _, _ => False

variable {limit : ℕ} {t t' : Table ℤ} {clientSocket : ℤ} {p p' : ClientPoint}
  {event : ClientEvent} {others : Multiset ℤ}

theorem held_card_le (clientSocket : ℤ) (p : ClientPoint) : (p.held clientSocket).card ≤ 2 := by
  cases p with
  | relay iServerfd => cases iServerfd <;> simp [held]
  | _ => simp [held]

/-- An event moves descriptors between the table and the handling, and loses none. -/
theorem step_accounts (haccounts : t.Accounts limit (p.held clientSocket + others))
    (hstep : step limit t clientSocket p event = some (p', t')) :
    t'.Accounts limit (p'.held clientSocket + others) ∧ t'.lost = t.lost := by
  cases p with
  | receive =>
    cases event with
    | hit =>
      cases hstep
      exact ⟨haccounts, rfl⟩
    | failed =>
      cases hstep
      exact ⟨haccounts, rfl⟩
    | socket sockfd =>
      simp only [step, Option.ite_none_right_eq_some] at hstep
      obtain ⟨_, hacquire, heq⟩ := Option.map_eq_some_iff.mp hstep.2
      cases heq
      obtain ⟨h, hlost⟩ := haccounts.acquire hacquire
      exact ⟨h.congr (Multiset.cons_add sockfd {clientSocket} others).symm, hlost⟩
    | _ => contradiction
  | connect sockfd =>
    have hremote := haccounts.congr (Multiset.cons_add sockfd {clientSocket} others)
    cases event with
    | refused =>
      obtain ⟨_, hclose, heq⟩ := Option.map_eq_some_iff.mp hstep
      cases heq
      exact hremote.of_close hclose
    | connected =>
      cases hstep
      exact ⟨haccounts, rfl⟩
    | _ => contradiction
  | relay iServerfd =>
    cases event with
    | responded =>
      obtain ⟨_, hclose, heq⟩ := Option.map_eq_some_iff.mp hstep
      cases heq
      cases iServerfd with
      | none =>
        cases hclose
        exact ⟨haccounts, rfl⟩
      | some iServerfd =>
        have hremote := haccounts.congr (Multiset.cons_add iServerfd {clientSocket} others)
        exact hremote.of_close hclose
    | _ => contradiction
  | finish =>
    have hclient := haccounts.congr (Multiset.singleton_add clientSocket others)
    cases event with
    | close =>
      obtain ⟨_, hclose, heq⟩ := Option.map_eq_some_iff.mp hstep
      cases heq
      obtain ⟨h, hlost⟩ := hclient.of_close hclose
      exact ⟨h.congr (zero_add others).symm, hlost⟩
    | _ => contradiction
  | closed => cases event <;> contradiction

/-- Every descriptor that `handleClient` closes is open, but for -1. -/
theorem step_defined (haccounts : t.Accounts limit (p.held clientSocket + others))
    (hpermitted : Permitted limit t p event) :
    ∃ r, step limit t clientSocket p event = some r := by
  cases p with
  | receive =>
    cases event with
    | hit => exact ⟨_, rfl⟩
    | failed => exact ⟨_, rfl⟩
    | socket sockfd =>
      obtain ⟨hvalid, hroom⟩ := hpermitted
      rw [step, if_pos hvalid, Table.acquire, if_pos hroom]
      exact ⟨_, rfl⟩
    | _ => cases hpermitted
  | connect sockfd =>
    have hremote := haccounts.congr (Multiset.cons_add sockfd {clientSocket} others)
    cases event with
    | refused =>
      obtain ⟨t', hclose, _⟩ := hremote.close
      rw [step, hclose]
      exact ⟨_, rfl⟩
    | connected => exact ⟨_, rfl⟩
    | _ => cases hpermitted
  | relay iServerfd =>
    cases event with
    | responded =>
      cases iServerfd with
      | none => exact ⟨_, rfl⟩
      | some iServerfd =>
        have hremote := haccounts.congr (Multiset.cons_add iServerfd {clientSocket} others)
        obtain ⟨t', hclose, _⟩ := hremote.close
        rw [step, closeServerfd, hclose]
        exact ⟨_, rfl⟩
    | _ => cases hpermitted
  | finish =>
    have hclient := haccounts.congr (Multiset.singleton_add clientSocket others)
    cases event with
    | close =>
      obtain ⟨t', hclose, _⟩ := hclient.close
      rw [step, hclose]
      exact ⟨_, rfl⟩
    | _ => cases hpermitted
  | closed => cases event <;> cases hpermitted

/-- Nothing that the system does keeps `handleClient` from its end. -/
theorem proceeds (limit : ℕ) (t : Table ℤ) (h : p ≠ .closed) :
    ∃ event, Permitted limit t p event := by
  cases p with
  | receive => exact ⟨.hit, trivial⟩
  | connect _ => exact ⟨.refused, trivial⟩
  | relay _ => exact ⟨.responded, trivial⟩
  | finish => exact ⟨.close, trivial⟩
  | closed => contradiction

end ClientPoint

/-- The server, where each worker is in `handleClient`, and the open descriptors. -/
structure ThreadPoolProxy (W : Type*) where
  server : ThreadPoolServer W
  handling : W → ClientPoint
  table : Table ℤ

namespace ThreadPoolProxy

open ThreadPool ThreadPoolServer Parties

variable {W : Type*}

inductive Step (W : Type*)
  | server (l : ThreadPoolServer.Step W)
  | handler (w : W) (event : ClientEvent)

/-- What is open when `start` comes to wait for the threads. -/
def start (base : Finset ℤ) : ThreadPoolProxy W :=
  ⟨ThreadPoolServer.create, fun _ => .closed, ⟨base, 0⟩⟩

section Step
variable [DecidableEq W]

/-- What a worker's step does beside the pool: `handleClient` begins with the task that
the worker took, and the task is over when `handleClient` is. -/
def workerStep (s : ThreadPoolProxy W) (w : W) : WorkerPoint ℤ → Option (ThreadPoolProxy W)
  | .took _ => some { s with handling := Function.update s.handling w .receive }
  | .executing _ => if s.handling w = .closed then some s else none
  | _ => some s

def step [Fintype W] (limit : ℕ) (s : ThreadPoolProxy W) : Step W → Option (ThreadPoolProxy W)
  | .server (.accept clientSocket) =>
      (s.server.step (.accept clientSocket)).bind (fun server =>
        if clientSocket < 0 then some { s with server := server }
        else (s.table.acquire limit clientSocket).map (fun table =>
          { s with server := server, table := table }))
  | .server (.worker w) =>
      (s.server.step (.worker w)).bind (fun server =>
        workerStep { s with server := server } w (s.server.pool.point w))
  | .server l => (s.server.step l).map (fun server => { s with server := server })
  | .handler w event =>
      match s.server.pool.point w with
      | .executing task =>
          (ClientPoint.step limit s.table task.task (s.handling w) event).map (fun r =>
            { s with handling := Function.update s.handling w r.1, table := r.2 })
      | _ => none

/-- The control of the threads and the system allow the step. -/
def Permitted [Fintype W] (limit : ℕ) (s : ThreadPoolProxy W) : Step W → Prop
  | .server (.accept clientSocket) => s.server.acceptor = .accept ∧
      (0 ≤ clientSocket → clientSocket ∉ s.table.opened ∧ s.table.opened.card < limit)
  | .server (.worker w) => (∃ server, s.server.step (.worker w) = some server) ∧
      ∀ task, s.server.pool.point w = .executing task → s.handling w = .closed
  | .server l => ∃ server, s.server.step l = some server
  | .handler w event => ∃ task, s.server.pool.point w = .executing task ∧
      (s.handling w).Permitted limit s.table event

end Step

/-- What a worker holds. -/
def heldBy : WorkerPoint ℤ × ClientPoint → Multiset ℤ
  | (.took task, _) => {task.task}
  | (.executing task, p) => p.held task.task
  | _ => 0

/-- Where each worker is, in the pool and in `handleClient`. -/
def place (s : ThreadPoolProxy W) (w : W) : WorkerPoint ℤ × ClientPoint :=
  (s.server.pool.point w, s.handling w)

/-- The clients that no worker has taken. -/
def waiting (s : ThreadPoolProxy W) : List ℤ :=
  s.server.pool.tasks.map Task.task ++ inHand s.server.acceptor

def held [Fintype W] (s : ThreadPoolProxy W) : Multiset ℤ := total heldBy s.place + ↑s.waiting

def serverSteps (ls : List (Step W)) : List (ThreadPoolServer.Step W) :=
  ls.filterMap (fun l => match l with
    | .server l => some l
    | .handler _ _ => none)

/-- No step is left but `accept` and a spurious wake-up. -/
def AtRest [Fintype W] [DecidableEq W] (limit : ℕ) (s : ThreadPoolProxy W) : Prop :=
  ∀ l s', s.step limit l = some s' → (∃ clientSocket, l = .server (.accept clientSocket)) ∨
    l = .server .wakeUp ∨ ∃ w, l = .server (.worker w) ∧ s.server.pool.point w = .blocked

/-- The open descriptors are those of the start and those held, each by one holder; they
are no more than the clients that wait and two for each worker make them; and no step
that may be taken closes a descriptor that is not open, unless it is -1. -/
structure Sound [Fintype W] [DecidableEq W] (limit : ℕ) (base : Finset ℤ)
    (s : ThreadPoolProxy W) : Prop where
  opened : s.table.opened.val = base.val + s.held
  card_le : s.table.opened.card ≤ limit
  room : s.table.opened.card ≤ base.card + s.waiting.length + 2 * Fintype.card W
  defined : ∀ l, s.Permitted limit l → ∃ s', s.step limit l = some s'

section Invariant
variable [Fintype W] {limit : ℕ} {base : Finset ℤ} {ls : List (Step W)}
  {s s' : ThreadPoolProxy W} {l : Step W}

structure Inv (limit : ℕ) (base : Finset ℤ) (ls : List (Step W)) (s : ThreadPoolProxy W) :
    Prop where
  serves : Serves (serverSteps ls) s.server
  accounts : s.table.Accounts limit (base.val + s.held)
  lost : s.table.lost = 0

omit [Fintype W] in
theorem serverSteps_concat (ls : List (Step W)) (l : Step W) :
    serverSteps (ls ++ [l]) = serverSteps ls ++ serverSteps [l] := List.filterMap_append

theorem Inv.start (hbase : base.card ≤ limit) :
    Inv limit base [] (ThreadPoolProxy.start base : ThreadPoolProxy W) where
  serves := serves_create
  accounts := by
    have hnone : (ThreadPoolProxy.start base : ThreadPoolProxy W).held = 0 := by
      have htotal : total heldBy (ThreadPoolProxy.start base : ThreadPoolProxy W).place = 0 :=
        total_eq_zero (fun _ => rfl)
      rw [held, htotal]
      rfl
    rw [hnone, add_zero]
    exact Table.Accounts.start hbase
  lost := rfl

theorem heldBy_card_le (p : WorkerPoint ℤ × ClientPoint) : (heldBy p).card ≤ 2 := by
  obtain ⟨point, p⟩ := p
  cases point with
  | took task => exact (Multiset.card_singleton _).trans_le (by decide)
  | executing task => exact p.held_card_le task.task
  | _ => exact Nat.zero_le 2

/-- Two descriptors for each worker, and one for each client that waits. -/
theorem held_card_le (s : ThreadPoolProxy W) :
    s.held.card ≤ 2 * Fintype.card W + s.waiting.length := by
  have hworkers := total_le heldBy_card_le s.place
  have hcard : (total heldBy s.place).card = total (fun p => (heldBy p).card) s.place :=
    Multiset.card_sum _ _
  rw [held, Multiset.card_add, Multiset.coe_card, hcard]
  omega

/-- A step that moves no descriptor from or to the table. -/
theorem Inv.moved (h : s.Inv limit base ls) (hserves : Serves (serverSteps (ls ++ [l])) s'.server)
    (hheld : s'.held = s.held) (htable : s'.table = s.table) :
    s'.Inv limit base (ls ++ [l]) := by
  refine ⟨hserves, ?_, ?_⟩
  · rw [htable, hheld]
    exact h.accounts
  · rw [htable, h.lost]

section Worker
variable [DecidableEq W]

omit [Fintype W] in
theorem place_update {w : W} {q : WorkerPoint ℤ} {p : ClientPoint}
    (hpoint : s'.server.pool.point = Function.update s.server.pool.point w q)
    (hhandling : s'.handling = Function.update s.handling w p) :
    s'.place = Function.update s.place w (q, p) := by
  funext v
  rw [place, hpoint, hhandling]
  by_cases hv : v = w
  · subst hv
    rw [Function.update_self, Function.update_self, Function.update_self]
  · rw [Function.update_of_ne hv, Function.update_of_ne hv, Function.update_of_ne hv]
    rfl

omit [Fintype W] in
/-- A worker that is not in `handleClient` moves in the pool. -/
theorem place_goto {w : W} {q : WorkerPoint ℤ}
    (hpoint : s'.server.pool.point = Function.update s.server.pool.point w q)
    (hhandling : s'.handling = s.handling) :
    s'.place = Function.update s.place w (q, s.handling w) :=
  place_update hpoint (hhandling.trans (Function.update_eq_self w s.handling).symm)

theorem held_update {w : W} {p : WorkerPoint ℤ × ClientPoint}
    (hplace : s'.place = Function.update s.place w p) (hkeep : heldBy p = heldBy (s.place w))
    (hwaiting : s'.waiting = s.waiting) : s'.held = s.held := by
  rw [held, held, hplace, hwaiting, total_update_of_eq hkeep]

/-- A worker that holds nothing takes the first client that waits. -/
theorem held_take {w : W} {p : WorkerPoint ℤ × ClientPoint} {clientSocket : ℤ}
    (hplace : s'.place = Function.update s.place w p) (hnone : heldBy (s.place w) = 0)
    (hone : heldBy p = {clientSocket}) (hwaiting : s.waiting = clientSocket :: s'.waiting) :
    s'.held = s.held := by
  obtain ⟨others, hbefore, hafter⟩ := total_split heldBy s.place w
  rw [held, held, hplace, hafter, hbefore, hnone, hone, hwaiting, ← Multiset.cons_coe,
    ← Multiset.singleton_add]
  abel

/-- What all hold besides a worker that is in `handleClient`. -/
theorem held_executing (base : Finset ℤ) {w : W} {task : Task ℤ}
    (hw : s.server.pool.point w = .executing task) :
    ∃ others, base.val + s.held = (s.handling w).held task.task + others ∧
      ∀ (s' : ThreadPoolProxy W) (p : ClientPoint),
        s'.place = Function.update s.place w (.executing task, p) → s'.waiting = s.waiting →
        base.val + s'.held = p.held task.task + others := by
  obtain ⟨others, hbefore, hafter⟩ := total_split heldBy s.place w
  have hholds : heldBy (s.place w) = (s.handling w).held task.task := by
    rw [place, hw]
    rfl
  refine ⟨base.val + (others + ↑s.waiting), ?_, ?_⟩
  · rw [held, hbefore, hholds]
    abel
  · intro s' p hplace hwaiting
    have hholds' : heldBy (.executing task, p) = p.held task.task := rfl
    rw [held, hplace, hafter, hwaiting, hholds']
    abel

theorem Inv.serves_step (h : s.Inv limit base ls) {l : ThreadPoolServer.Step W}
    {server : ThreadPoolServer W} (hserver : s.server.step l = some server) :
    Serves (serverSteps (ls ++ [.server l])) server := by
  rw [serverSteps_concat]
  exact h.serves.step hserver

/-- A worker that goes on in the pool with what it held before. -/
theorem Inv.goto (h : s.Inv limit base ls) (hserves : Serves (serverSteps (ls ++ [l])) s'.server)
    {w : W} {q : WorkerPoint ℤ}
    (hpoint : s'.server.pool.point = Function.update s.server.pool.point w q)
    (hhandling : s'.handling = s.handling)
    (hkeep : heldBy (q, s.handling w) = heldBy (s.place w)) (hwaiting : s'.waiting = s.waiting)
    (htable : s'.table = s.table) : s'.Inv limit base (ls ++ [l]) :=
  h.moved hserves (held_update (place_goto hpoint hhandling) hkeep hwaiting) htable

theorem Inv.worker (h : s.Inv limit base ls) {w : W}
    (hstep : s.step limit (.server (.worker w)) = some s') :
    s'.Inv limit base (ls ++ [.server (.worker w)]) := by
  obtain ⟨server, hserver, hworker⟩ := Option.bind_eq_some_iff.mp hstep
  have hserves := h.serves_step hserver
  obtain ⟨pool, hpool, rfl⟩ := Option.map_eq_some_iff.mp hserver
  cases transition_of_step hpool with
  | ready hw _ =>
    simp only [hw, if_true] at hworker hserves
    cases hworker
    refine h.goto hserves rfl rfl (by rw [place, hw]; rfl) ?_ rfl
    rw [waiting, waiting, inHand_notified]
    rfl
  | @take _ task rest hw _ htasks =>
    simp only [hw, reduceCtorEq, if_false] at hworker hserves
    cases hworker
    refine h.moved hserves (held_take (place_goto rfl rfl) (by rw [place, hw]; rfl) rfl ?_) rfl
    rw [waiting, htasks]
    rfl
  | leave hw _ _ _ =>
    simp only [hw, reduceCtorEq, if_false] at hworker hserves
    cases hworker
    exact h.goto hserves rfl rfl (by rw [place, hw]; rfl) rfl rfl
  | check hw _ _ _ =>
    simp only [hw, reduceCtorEq, if_false] at hworker hserves
    cases hworker
    exact h.goto hserves rfl rfl (by rw [place, hw]; rfl) rfl rfl
  | block hw =>
    simp only [hw, reduceCtorEq, if_false] at hworker hserves
    cases hworker
    exact h.goto hserves rfl rfl (by rw [place, hw]; rfl) rfl rfl
  | wake hw =>
    simp only [hw, reduceCtorEq, if_false] at hworker hserves
    cases hworker
    exact h.goto hserves rfl rfl (by rw [place, hw]; rfl) rfl rfl
  | start hw =>
    simp only [hw, reduceCtorEq, if_false] at hworker hserves
    cases hworker
    exact h.moved hserves (held_update (place_update rfl rfl) (by rw [place, hw]; rfl) rfl) rfl
  | finish hw =>
    simp only [hw, reduceCtorEq, if_false] at hworker hserves
    simp only [workerStep, Option.ite_none_right_eq_some, Option.some.injEq] at hworker
    obtain ⟨hclosed, rfl⟩ := hworker
    exact h.goto hserves rfl rfl (by rw [place, hw, hclosed]; rfl) rfl rfl

theorem Inv.accept (h : s.Inv limit base ls) {clientSocket : ℤ}
    (hstep : s.step limit (.server (.accept clientSocket)) = some s') :
    s'.Inv limit base (ls ++ [.server (.accept clientSocket)]) := by
  obtain ⟨server, hserver, haccept⟩ := Option.bind_eq_some_iff.mp hstep
  have hserves := h.serves_step hserver
  simp only [ThreadPoolServer.step, Option.ite_none_right_eq_some, Option.some.injEq] at hserver
  obtain ⟨hacceptor, rfl⟩ := hserver
  by_cases hfailed : clientSocket < 0
  · simp only [if_pos hfailed] at haccept hserves
    cases haccept
    exact h.moved hserves rfl rfl
  · simp only [if_neg hfailed] at haccept hserves
    obtain ⟨table, hacquire, rfl⟩ := Option.map_eq_some_iff.mp haccept
    obtain ⟨haccounts, hlost⟩ := h.accounts.acquire hacquire
    refine ⟨hserves, haccounts.congr ?_, hlost.trans h.lost⟩
    have hwaiting : s.waiting = s.server.pool.tasks.map Task.task := by
      rw [waiting, hacceptor]
      exact List.append_nil _
    rw [held, hwaiting, ← Multiset.singleton_add]
    show _ = base.val + (total heldBy s.place +
      ((s.server.pool.tasks.map Task.task ++ [clientSocket] : List ℤ) : Multiset ℤ))
    rw [← Multiset.coe_add, Multiset.coe_singleton]
    abel

theorem Inv.handler (h : s.Inv limit base ls) {w : W} {event : ClientEvent}
    (hstep : s.step limit (.handler w event) = some s') :
    s'.Inv limit base (ls ++ [.handler w event]) := by
  simp only [step] at hstep
  split at hstep
  case h_1 task hw =>
    obtain ⟨⟨after, table⟩, hhandler, rfl⟩ := Option.map_eq_some_iff.mp hstep
    have hserves : Serves (serverSteps (ls ++ [.handler w event])) s.server := by
      rw [serverSteps_concat]
      exact (List.append_nil (serverSteps ls)).symm ▸ h.serves
    obtain ⟨others, hbefore, hafter⟩ := held_executing base hw
    obtain ⟨haccounts, hlost⟩ := ClientPoint.step_accounts (h.accounts.congr hbefore) hhandler
    have hplace : place { s with
        handling := Function.update s.handling w after
        table := table } = Function.update s.place w (.executing task, after) :=
      place_update (by rw [← hw, Function.update_eq_self]) rfl
    exact ⟨hserves, haccounts.congr (hafter _ after hplace rfl).symm, hlost.trans h.lost⟩
  case h_2 => contradiction

theorem Inv.waitForThreads (h : s.Inv limit base ls)
    (hstep : s.step limit (.server .waitForThreads) = some s') :
    s'.Inv limit base (ls ++ [.server .waitForThreads]) := by
  obtain ⟨server, hserver, rfl⟩ := Option.map_eq_some_iff.mp hstep
  have hserves := h.serves_step hserver
  simp only [ThreadPoolServer.step, Option.ite_none_right_eq_some, Option.some.injEq] at hserver
  obtain ⟨⟨hacceptor, _⟩, rfl⟩ := hserver
  refine h.moved hserves ?_ rfl
  rw [held, held, waiting, waiting, hacceptor]
  by_cases hready : s.server.pool.readyThreads = Fintype.card W
  · simp only [if_pos hready]
    rfl
  · simp only [if_neg hready]
    rfl

theorem Inv.wakeUp (h : s.Inv limit base ls) (hstep : s.step limit (.server .wakeUp) = some s') :
    s'.Inv limit base (ls ++ [.server .wakeUp]) := by
  obtain ⟨server, hserver, rfl⟩ := Option.map_eq_some_iff.mp hstep
  have hserves := h.serves_step hserver
  simp only [ThreadPoolServer.step, Option.ite_none_right_eq_some, Option.some.injEq] at hserver
  obtain ⟨hacceptor, rfl⟩ := hserver
  refine h.moved hserves ?_ rfl
  rw [held, held, waiting, waiting, hacceptor]
  rfl

theorem Inv.enqueue (h : s.Inv limit base ls)
    (hstep : s.step limit (.server .enqueue) = some s') :
    s'.Inv limit base (ls ++ [.server .enqueue]) := by
  obtain ⟨server, hserver, rfl⟩ := Option.map_eq_some_iff.mp hstep
  have hserves := h.serves_step hserver
  simp only [ThreadPoolServer.step] at hserver
  split at hserver
  case h_1 clientSocket hacceptor =>
    obtain ⟨pool, hpush, rfl⟩ := Option.map_eq_some_iff.mp hserver
    cases transition_of_step hpush with
    | enqueue _ _ _ =>
      refine h.moved hserves ?_ rfl
      have hwaiting : waiting { s with server := ⟨s.server.pool.push clientSocket, .notify⟩ } =
          s.waiting := by
        simp [waiting, push, inHand, hacceptor]
      rw [held, held, hwaiting]
      rfl
  case h_2 => contradiction

theorem Inv.notifyOne (h : s.Inv limit base ls) {woken : Option W}
    (hstep : s.step limit (.server (.notifyOne woken)) = some s') :
    s'.Inv limit base (ls ++ [.server (.notifyOne woken)]) := by
  obtain ⟨server, hserver, rfl⟩ := Option.map_eq_some_iff.mp hstep
  have hserves := h.serves_step hserver
  simp only [ThreadPoolServer.step, Option.ite_none_right_eq_some] at hserver
  obtain ⟨hacceptor, hserver⟩ := hserver
  obtain ⟨pool, hnotify, rfl⟩ := Option.map_eq_some_iff.mp hserver
  cases transition_of_step hnotify with
  | @notifyOne w _ _ hw =>
    refine h.moved hserves (held_update (place_goto rfl rfl) (by rw [place, hw]; rfl) ?_) rfl
    rw [waiting, waiting, hacceptor]
    rfl
  | notifyNone _ _ _ =>
    refine h.moved hserves ?_ rfl
    rw [held, held, waiting, waiting, hacceptor]
    rfl

theorem Inv.step (h : s.Inv limit base ls) (hstep : s.step limit l = some s') :
    s'.Inv limit base (ls ++ [l]) := by
  cases l with
  | server l =>
    cases l with
    | waitForThreads => exact h.waitForThreads hstep
    | wakeUp => exact h.wakeUp hstep
    | accept clientSocket => exact h.accept hstep
    | enqueue => exact h.enqueue hstep
    | notifyOne woken => exact h.notifyOne hstep
    | worker w => exact h.worker hstep
  | handler w event => exact h.handler hstep

theorem Inv.defined (h : s.Inv limit base ls) (hl : s.Permitted limit l) :
    ∃ s', s.step limit l = some s' := by
  have hmap {l : ThreadPoolServer.Step W} {server : ThreadPoolServer W}
      (hserver : s.server.step l = some server) :
      (s.server.step l).map (fun server => { s with server := server }) =
        some { s with server := server } := by
    rw [hserver, Option.map_some]
  cases l with
  | server l =>
    cases l with
    | waitForThreads => exact ⟨_, hmap hl.choose_spec⟩
    | wakeUp => exact ⟨_, hmap hl.choose_spec⟩
    | accept clientSocket =>
      obtain ⟨hacceptor, hroom⟩ := hl
      rw [ThreadPoolProxy.step, ThreadPoolServer.step, if_pos hacceptor, Option.bind_some]
      by_cases hfailed : clientSocket < 0
      · rw [if_pos hfailed]
        exact ⟨_, rfl⟩
      · rw [if_neg hfailed, Table.acquire, if_pos (hroom (not_lt.mp hfailed))]
        exact ⟨_, rfl⟩
    | enqueue => exact ⟨_, hmap hl.choose_spec⟩
    | notifyOne woken => exact ⟨_, hmap hl.choose_spec⟩
    | worker w =>
      obtain ⟨⟨server, hserver⟩, hclosed⟩ := hl
      rw [ThreadPoolProxy.step, hserver, Option.bind_some]
      cases hw : s.server.pool.point w with
      | executing task =>
        rw [workerStep, if_pos (hclosed task hw)]
        exact ⟨_, rfl⟩
      | _ => exact ⟨_, rfl⟩
  | handler w event =>
    obtain ⟨task, hw, hpermitted⟩ := hl
    obtain ⟨others, hbefore, _⟩ := held_executing base hw
    obtain ⟨r, hr⟩ := ClientPoint.step_defined (h.accounts.congr hbefore) hpermitted
    simp only [ThreadPoolProxy.step, hw, hr, Option.map_some]
    exact ⟨_, rfl⟩

theorem Inv.sound (h : s.Inv limit base ls) : s.Sound limit base where
  opened := by rw [h.accounts.opened, h.lost, add_zero]
  card_le := h.accounts.card_le
  room := by
    have hcard : s.table.opened.card = base.card + s.held.card := by
      rw [Finset.card_def, h.accounts.opened, h.lost, add_zero, Multiset.card_add,
        Finset.card_val]
    have hheld := s.held_card_le
    omega
  defined := fun _ hl => h.defined hl

/-- At rest no `handleClient` has more to do, and the server is at rest. -/
theorem Inv.server_atRest (h : s.Inv limit base ls) (hrest : s.AtRest limit) :
    s.server.AtRest := by
  have hspent (l : Step W) (hl : s.Permitted limit l) :
      (∃ clientSocket, l = .server (.accept clientSocket)) ∨ l = .server .wakeUp ∨
        ∃ w, l = .server (.worker w) ∧ s.server.pool.point w = .blocked :=
    hrest l _ (h.defined hl).choose_spec
  intro l server hserver
  cases l with
  | waitForThreads =>
    rcases hspent (.server .waitForThreads) ⟨_, hserver⟩ with ⟨_, heq⟩ | heq | ⟨_, heq, _⟩ <;>
      cases heq
  | wakeUp => exact Or.inr (Or.inl rfl)
  | accept clientSocket => exact Or.inl ⟨clientSocket, rfl⟩
  | enqueue =>
    rcases hspent (.server .enqueue) ⟨_, hserver⟩ with ⟨_, heq⟩ | heq | ⟨_, heq, _⟩ <;>
      cases heq
  | notifyOne woken =>
    rcases hspent (.server (.notifyOne woken)) ⟨_, hserver⟩ with ⟨_, heq⟩ | heq | ⟨_, heq, _⟩ <;>
      cases heq
  | worker w =>
    by_cases hclosed : ∀ task, s.server.pool.point w = .executing task → s.handling w = .closed
    · rcases hspent (.server (.worker w)) ⟨⟨_, hserver⟩, hclosed⟩ with
        ⟨_, heq⟩ | heq | ⟨v, heq, hv⟩
      · cases heq
      · cases heq
      · cases heq
        exact Or.inr (Or.inr ⟨w, rfl, hv⟩)
    · push Not at hclosed
      obtain ⟨task, hw, hopen⟩ := hclosed
      obtain ⟨event, hevent⟩ := ClientPoint.proceeds limit s.table hopen
      rcases hspent (.handler w event) ⟨task, hw, hevent⟩ with ⟨_, heq⟩ | heq | ⟨_, heq, _⟩ <;>
        contradiction

omit [DecidableEq W] in
/-- When all clients have been handled, nobody holds a descriptor. -/
theorem Inv.opened_eq_base (h : s.Inv limit base ls)
    (hdrained : s.server.Drained (serverSteps ls)) : s.table.opened = base := by
  have hnone : total heldBy s.place = 0 := by
    apply total_eq_zero
    intro w
    rw [place, hdrained.asleep w]
    rfl
  have hwaiting : s.waiting = [] := by
    rw [waiting, hdrained.tasks, hdrained.acceptor]
    rfl
  apply Finset.val_injective
  rw [h.accounts.opened, h.lost, held, hnone, hwaiting]
  simp

/-- In every run of the server a descriptor that is open has one holder, and once no
step is left but for new clients each client has been handled once, and the open
descriptors are those of the start. -/
theorem descriptors_sound [Nonempty W] (hbase : base.card ≤ limit)
    (hrun : Runs.run (step limit) (start base) ls = some s) :
    s.Sound limit base ∧
      (s.AtRest limit → s.server.Drained (serverSteps ls) ∧ s.table.opened = base) := by
  have hinv := Runs.run_invariant_of_labels (step limit) (Inv limit base)
    (fun _ _ _ _ h hstep => h.step hstep) ls [] (start base) s (Inv.start hbase) hrun
  refine ⟨hinv.sound, ?_⟩
  intro hrest
  have hdrained := hinv.serves.drained (hinv.server_atRest hrest)
  exact ⟨hdrained, hinv.opened_eq_base hdrained⟩

/-- The origin of the first client refuses, and -1 is closed for it; the second client is
accepted under the number of the first, by another worker, before the first task is over. -/
theorem descriptors_sound_reused : ∃ s : ThreadPoolProxy (Fin 2),
    Runs.run (step 8) (start {0, 1, 2, 3}) [.server .waitForThreads, .server (.worker 0),
      .server (.worker 1), .server .waitForThreads, .server (.worker 1), .server (.worker 1),
      .server (.accept 4), .server .enqueue, .server (.notifyOne (some 1)), .server (.worker 0),
      .server (.worker 0), .handler 0 (.socket 5), .handler 0 .refused, .handler 0 .responded,
      .handler 0 .close, .server (.accept 4), .server .enqueue, .server (.notifyOne none),
      .server (.worker 1), .server (.worker 1), .handler 1 (.socket 5), .handler 1 .connected,
      .handler 1 .responded, .handler 1 .close, .server (.worker 1), .server (.worker 0),
      .server (.worker 0), .server (.worker 0), .server (.worker 1), .server (.worker 1)] = some s ∧
    s.Sound 8 {0, 1, 2, 3} ∧ s.table.opened = {0, 1, 2, 3} := by
  obtain ⟨s, hrun, hacceptor, hasleep⟩ : ∃ s : ThreadPoolProxy (Fin 2),
      Runs.run (step 8) (start {0, 1, 2, 3}) [.server .waitForThreads, .server (.worker 0),
      .server (.worker 1), .server .waitForThreads, .server (.worker 1), .server (.worker 1),
      .server (.accept 4), .server .enqueue, .server (.notifyOne (some 1)), .server (.worker 0),
      .server (.worker 0), .handler 0 (.socket 5), .handler 0 .refused, .handler 0 .responded,
      .handler 0 .close, .server (.accept 4), .server .enqueue, .server (.notifyOne none),
      .server (.worker 1), .server (.worker 1), .handler 1 (.socket 5), .handler 1 .connected,
      .handler 1 .responded, .handler 1 .close, .server (.worker 1), .server (.worker 0),
      .server (.worker 0), .server (.worker 0), .server (.worker 1), .server (.worker 1)] = some s ∧
      s.server.acceptor = .accept ∧ ∀ w, s.server.pool.point w = .blocked :=
    ⟨_, rfl, rfl, by decide⟩
  obtain ⟨hsound, hdrained⟩ := descriptors_sound (by decide) hrun
  refine ⟨s, hrun, hsound, (hdrained ?_).2⟩
  intro l s' hstep
  cases l with
  | server l =>
    cases l with
    | accept clientSocket => exact Or.inl ⟨clientSocket, rfl⟩
    | worker w => exact Or.inr (Or.inr ⟨w, rfl, hasleep w⟩)
    | waitForThreads => simp [step, ThreadPoolServer.step, hacceptor] at hstep
    | wakeUp => exact Or.inr (Or.inl rfl)
    | enqueue => simp [step, ThreadPoolServer.step, hacceptor] at hstep
    | notifyOne woken => simp [step, ThreadPoolServer.step, hacceptor] at hstep
  | handler w event => simp [step, hasleep w] at hstep

end Worker

end Invariant

end ThreadPoolProxy

end ProxyServer
