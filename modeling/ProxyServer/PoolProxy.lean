import ProxyServer.ClientHandler
import ProxyServer.ClientQueue
import Mathlib.Tactic.Abel

/-!
The C proxy with a thread pool as a whole: `main` accepts clients and enqueues their
sockets, the workers dequeue and handle them. In every interleaving a descriptor that
is open has one owner, who is a thread, the queue or nobody, and each connection that
fails takes one of the process's descriptors for good.
-/
namespace ProxyServer.V1

open Descriptors Parties

/-- The queue with its threads, the socket `main` is about to enqueue, what the workers
outside `dequeue` do, the open descriptors, and the sockets accepted so far, which no
step reads. -/
structure PoolProxy (W : Type*) where
  threads : QueueThreads Unit W
  clientSocketId : Option ℤ
  serving : W → Option Handling
  table : Table ℤ
  accepted : List ℤ

namespace PoolProxy

variable {W : Type*}

inductive Step (W : Type*)
  | accept (clientSocketId : ℤ)
  | malloc (newNode : ℕ)
  | enqueue (woken : Option W)
  | dequeue (w : W)
  | wake (w : W)
  | handler (w : W) (event : HandlerEvent)
  deriving DecidableEq

/-- What is open when `main` comes to its loop. -/
def start (base : Finset ℤ) : PoolProxy W :=
  ⟨QueueThreads.start, none, fun _ => none, ⟨base, 0⟩, []⟩

def front (q : ClientQueue) : Option ℤ :=
  q.queueHead.bind (fun temp => (q.dequeue temp).map Prod.fst)

variable [DecidableEq W]

def serve (s : PoolProxy W) (w : W) (h : Option Handling) : PoolProxy W :=
  { s with serving := Function.update s.serving w h }

/-- One step; a failed `accept` ends the process, and so does a `send` to a client that
has gone. -/
def step [Fintype W] (limit : ℕ) (s : PoolProxy W) : Step W → Option (PoolProxy W)
  | .accept clientSocketId =>
      if 0 ≤ clientSocketId ∧ s.clientSocketId = none ∧ s.threads.newNode () = none
      then (s.table.acquire limit clientSocketId).map (fun table =>
        { s with
          clientSocketId := some clientSocketId
          table := table
          accepted := s.accepted ++ [clientSocketId] })
      else none
  | .malloc newNode =>
      match s.clientSocketId with
      | none => none
      | some clientSocketId =>
          (s.threads.step (.malloc () clientSocketId newNode)).map (fun threads =>
            { s with threads := threads, clientSocketId := none })
  | .enqueue woken =>
      (s.threads.step (.enqueue () woken)).map (fun threads => { s with threads := threads })
  | .dequeue w =>
      if s.serving w = none
      then (s.threads.step (.dequeue w)).map (fun threads =>
        serve { s with threads := threads } w ((front s.threads.queue).map Handling.receive))
      else none
  | .wake w => (s.threads.step (.wake w)).map (fun threads => { s with threads := threads })
  | .handler w event =>
      match s.serving w with
      | none => none
      | some h => (h.step true limit s.table event).map (fun r =>
          { s.serve w r.1 with table := r.2 })

/-- The control of the threads and the system allow the step. -/
def Permitted (limit : ℕ) (s : PoolProxy W) : Step W → Prop
  | .accept clientSocketId => 0 ≤ clientSocketId ∧ s.clientSocketId = none ∧
      s.threads.newNode () = none ∧ clientSocketId ∉ s.table.opened ∧ s.table.opened.card < limit
  | .malloc newNode => s.clientSocketId ≠ none ∧ s.threads.queue.heap newNode = none
  | .enqueue woken => QueueThreads.Permitted s.threads (.enqueue () woken)
  | .dequeue w => s.serving w = none ∧ s.threads.point w ≠ .waiting
  | .wake w => s.threads.point w = .waiting
  | .handler w event => ∃ h, s.serving w = some h ∧ h.Permitted limit s.table event

/-- The sockets that `main` has accepted and not linked. -/
def pending (s : PoolProxy W) : List ℤ :=
  ((s.threads.newNode ()).map Prod.fst).toList ++ s.clientSocketId.toList

def held [Fintype W] (s : PoolProxy W) (nodes : List (ℕ × ℤ)) : Multiset ℤ :=
  total Handling.heldBy s.serving + ↑(nodes.map Prod.snd ++ s.pending)

/-- The connections that `connectRemoteServer` gave up. -/
def refusals (ls : List (Step W)) : ℕ :=
  ls.countP (fun l => match l with
    | .handler _ .refused => true
    | _ => false)

/-- What holds after the steps `ls`: the open descriptors are those of the start, those
held, each by one holder, and one more for each refused connection; what `main` accepted
was dequeued, or is in the queue or on the way, in its order; and no step that may be
taken closes a descriptor that is not open or follows a pointer to a freed node. -/
structure Sound [Fintype W] (limit : ℕ) (base : Finset ℤ) (ls : List (Step W))
    (s : PoolProxy W) (nodes : List (ℕ × ℤ)) : Prop where
  opened : s.table.opened.val = base.val + s.held nodes + s.table.lost
  card_le : s.table.opened.card ≤ limit
  lost : s.table.lost.card = refusals ls
  order : (Fifo.taken s.threads.log).map Prod.snd ++ (nodes.map Prod.snd ++ s.pending) =
    s.accepted
  defined : ∀ l, s.Permitted limit l → ∃ s', s.step limit l = some s'

section Invariant
omit [DecidableEq W]
variable [Fintype W] {limit : ℕ} {base : Finset ℤ} {ls : List (Step W)} {s s' : PoolProxy W}
  {nodes : List (ℕ × ℤ)} {threads : QueueThreads Unit W}

structure Inv (limit : ℕ) (base : Finset ℤ) (ls : List (Step W)) (s : PoolProxy W)
    (nodes : List (ℕ × ℤ)) : Prop where
  queue : s.threads.Inv nodes
  alone : s.clientSocketId ≠ none → s.threads.newNode () = none
  accounts : s.table.Accounts limit (base.val + s.held nodes)
  lost : s.table.lost.card = refusals ls
  order : Fifo.puts s.threads.log ++ s.pending = s.accepted

omit [Fintype W] in
theorem refusals_concat (ls : List (Step W)) (l : Step W) :
    refusals (ls ++ [l]) = refusals ls + refusals [l] := List.countP_append

namespace Inv

theorem start (hbase : base.card ≤ limit) :
    Inv limit base [] (PoolProxy.start base : PoolProxy W) [] where
  queue := QueueThreads.Inv.start
  alone := fun _ => rfl
  accounts := by
    have hheld : (PoolProxy.start base : PoolProxy W).held [] = 0 := by
      have hserving : total Handling.heldBy (PoolProxy.start base : PoolProxy W).serving = 0 :=
        total_eq_zero (fun _ => rfl)
      rw [held, hserving]
      rfl
    rw [hheld, add_zero]
    exact Table.Accounts.start hbase
  lost := rfl
  order := rfl

/-- A step of the queue that moves sockets between it and `main`. -/
theorem moved (h : s.Inv limit base ls nodes) {l : Step W} (hl : refusals [l] = 0)
    {nodes' : List (ℕ × ℤ)} (hqueue : s'.threads.Inv nodes')
    (halone : s'.clientSocketId ≠ none → s'.threads.newNode () = none)
    (hserving : s'.serving = s.serving) (htable : s'.table = s.table)
    (haccepted : s'.accepted = s.accepted)
    (hsockets : nodes'.map Prod.snd ++ s'.pending = nodes.map Prod.snd ++ s.pending)
    (horder : Fifo.puts s'.threads.log ++ s'.pending = Fifo.puts s.threads.log ++ s.pending) :
    s'.Inv limit base (ls ++ [l]) nodes' := by
  refine ⟨hqueue, halone, ?_, ?_, ?_⟩
  · rw [htable, held, hserving, hsockets]
    exact h.accounts
  · rw [htable, h.lost, refusals_concat, hl, Nat.add_zero]
  · rw [horder, haccepted, h.order]

theorem linked (h : s.Inv limit base ls nodes) {woken : Option W} {fd : ℤ} {newNode : ℕ}
    (hnode : s.threads.newNode () = some (fd, newNode))
    (hqueue : threads.Inv (nodes ++ [(newNode, fd)])) (hnone : threads.newNode () = none)
    (hlog : threads.log = s.threads.log ++ [.put fd]) :
    Inv limit base (ls ++ [.enqueue woken]) { s with threads := threads }
      (nodes ++ [(newNode, fd)]) := by
  have hpending : s.pending = [fd] ++ s.clientSocketId.toList := by
    rw [pending, hnode]
    rfl
  have hpending' : PoolProxy.pending { s with threads := threads } =
      s.clientSocketId.toList := by
    rw [pending, hnone]
    rfl
  refine h.moved rfl hqueue (fun _ => hnone) rfl rfl rfl ?_ ?_
  · rw [hpending, hpending', List.map_append, List.append_assoc]
    rfl
  · rw [hpending, hpending', hlog, Fifo.puts_concat_put, List.append_assoc]

variable [DecidableEq W]

/-- What all hold besides a worker that handles a client. -/
theorem held_serving (base : Finset ℤ) (nodes : List (ℕ × ℤ)) {w : W} {handling : Handling}
    (hw : s.serving w = some handling) :
    ∃ others, base.val + s.held nodes = handling.held + others ∧
      ∀ (s' : PoolProxy W) (after : Option Handling),
        s'.serving = Function.update s.serving w after → s'.pending = s.pending →
        base.val + s'.held nodes = Handling.heldBy after + others := by
  obtain ⟨others, hbefore, hafter⟩ := total_split Handling.heldBy s.serving w
  rw [hw] at hbefore
  refine ⟨base.val + (others + ↑(nodes.map Prod.snd ++ s.pending)), ?_, ?_⟩
  · rw [held, hbefore, Handling.heldBy]
    abel
  · intro s' after hserving hpending
    rw [held, hserving, hpending, hafter]
    abel

theorem accept (h : s.Inv limit base ls nodes) {fd : ℤ}
    (hstep : s.step limit (.accept fd) = some s') :
    s'.Inv limit base (ls ++ [.accept fd]) nodes := by
  simp only [PoolProxy.step] at hstep
  split at hstep
  case isTrue hcontrol =>
    obtain ⟨_, hnone, hnode⟩ := hcontrol
    obtain ⟨table, hacquire, rfl⟩ := Option.map_eq_some_iff.mp hstep
    obtain ⟨haccounts, hlost⟩ := h.accounts.acquire hacquire
    have hpending : s.pending = [] := by
      rw [pending, hnone, hnode]
      rfl
    have horder := h.order
    rw [hpending, List.append_nil] at horder
    refine ⟨h.queue, fun _ => hnode, haccounts.congr ?_, ?_, ?_⟩
    · have hpending' : ((nodes.map Prod.snd ++ [fd] : List ℤ) : Multiset ℤ) =
          ↑(nodes.map Prod.snd) + {fd} := (Multiset.coe_add _ _).symm
      rw [held, held, hpending, pending, hnode, List.append_nil, ← Multiset.singleton_add]
      show {fd} + _ = base.val + (total Handling.heldBy s.serving +
        ((nodes.map Prod.snd ++ [fd] : List ℤ) : Multiset ℤ))
      rw [hpending']
      abel
    · rw [hlost, h.lost, refusals_concat]
      rfl
    · show Fifo.puts s.threads.log ++ _ = s.accepted ++ [fd]
      rw [← horder, pending, hnode]
      rfl
  case isFalse => contradiction

theorem malloc (h : s.Inv limit base ls nodes) {newNode : ℕ}
    (hstep : s.step limit (.malloc newNode) = some s') :
    s'.Inv limit base (ls ++ [.malloc newNode]) nodes := by
  simp only [PoolProxy.step] at hstep
  split at hstep
  case h_1 => contradiction
  case h_2 fd hfd =>
    obtain ⟨threads, hthreads, rfl⟩ := Option.map_eq_some_iff.mp hstep
    cases QueueThreads.transition_of_step hthreads with
    | malloc hnode halloc =>
      have hpending : s.pending = [fd] := by
        rw [pending, hfd, hnode]
        rfl
      refine h.moved rfl (h.queue.enter halloc) (fun hsome => absurd rfl hsome) rfl rfl rfl ?_ ?_
      · rw [hpending, pending, QueueThreads.enter_newNode_self]
        rfl
      · rw [hpending, pending, QueueThreads.enter_newNode_self]
        rfl

theorem enqueue (h : s.Inv limit base ls nodes) {woken : Option W}
    (hstep : s.step limit (.enqueue woken) = some s') :
    ∃ nodes', s'.Inv limit base (ls ++ [.enqueue woken]) nodes' := by
  obtain ⟨threads, hthreads, rfl⟩ := Option.map_eq_some_iff.mp hstep
  cases QueueThreads.transition_of_step hthreads with
  | @enqueue _ w fd newNode q hnode hq _ =>
    have hnone : (s.threads.linked () fd q).newNode () = none := QueueThreads.linked_newNode_self
    exact ⟨_, h.linked hnode ((h.queue.linked hnode hq).goto w .woken) hnone rfl⟩
  | enqueueAlone hnode hq _ =>
    exact ⟨_, h.linked hnode (h.queue.linked hnode hq) QueueThreads.linked_newNode_self rfl⟩

/-- A worker that is in `dequeue` waits, or leaves with the first socket. -/
theorem dequeue (h : s.Inv limit base ls nodes) {w : W}
    (hstep : s.step limit (.dequeue w) = some s') :
    ∃ nodes', s'.Inv limit base (ls ++ [.dequeue w]) nodes' := by
  simp only [PoolProxy.step] at hstep
  split at hstep
  case isTrue hidle =>
    obtain ⟨threads, hthreads, rfl⟩ := Option.map_eq_some_iff.mp hstep
    obtain ⟨others, hbefore, hafter⟩ := total_split Handling.heldBy s.serving w
    rw [hidle] at hbefore
    cases QueueThreads.transition_of_step hthreads with
    | wait _ hhead =>
      have hfront : front s.threads.queue = none := by
        rw [front, hhead]
        rfl
      have hserving : Function.update s.serving w none = s.serving := by
        rw [← hidle, Function.update_eq_self]
      refine ⟨nodes, h.moved rfl (h.queue.goto w .waiting) h.alone ?_ rfl rfl rfl rfl⟩
      rw [hfront]
      exact hserving
    | @dequeue _ temp fd q _ hhead hq =>
      obtain ⟨rest, rfl, hqueue⟩ := h.queue.returned (w := w) hhead hq
      have hfront : front s.threads.queue = some fd := by
        rw [front, hhead, Option.bind_some, hq]
        rfl
      refine ⟨rest, hqueue, h.alone, h.accounts.congr ?_, ?_, ?_⟩
      · rw [hfront, held, held, hbefore]
        show base.val + (0 + others + _) = base.val + (total Handling.heldBy
          (Function.update s.serving w (some (.receive fd))) + ↑(rest.map Prod.snd ++ s.pending))
        rw [hafter, List.map_cons, List.cons_append, ← Multiset.cons_coe, ← Multiset.singleton_add]
        show _ = base.val + ({fd} + others + _)
        abel
      · show s.table.lost.card = _
        rw [h.lost, refusals_concat]
        rfl
      · show Fifo.puts (s.threads.log ++ [.take w fd]) ++ s.pending = s.accepted
        rw [Fifo.puts_concat_take, h.order]
  case isFalse => contradiction

theorem wake (h : s.Inv limit base ls nodes) {w : W}
    (hstep : s.step limit (.wake w) = some s') :
    s'.Inv limit base (ls ++ [.wake w]) nodes := by
  obtain ⟨threads, hthreads, rfl⟩ := Option.map_eq_some_iff.mp hstep
  cases QueueThreads.transition_of_step hthreads with
  | wake _ => exact h.moved rfl (h.queue.goto w .woken) h.alone rfl rfl rfl rfl rfl

theorem handler (h : s.Inv limit base ls nodes) {w : W} {event : HandlerEvent}
    (hstep : s.step limit (.handler w event) = some s') :
    s'.Inv limit base (ls ++ [.handler w event]) nodes := by
  simp only [PoolProxy.step] at hstep
  split at hstep
  case h_1 => contradiction
  case h_2 handling hw =>
    obtain ⟨⟨after, table⟩, hhandler, rfl⟩ := Option.map_eq_some_iff.mp hstep
    obtain ⟨others, hbefore, hafter⟩ := held_serving base nodes hw
    obtain ⟨haccounts, hlost⟩ := Handling.step_accounts (h.accounts.congr hbefore) hhandler
    have hheld := hafter { s.serve w after with table := table } after rfl rfl
    refine ⟨h.queue, h.alone, haccounts.congr hheld.symm, ?_, h.order⟩
    rw [hlost, h.lost, refusals_concat]
    cases event <;> rfl

theorem step (h : s.Inv limit base ls nodes) {l : Step W} (hstep : s.step limit l = some s') :
    ∃ nodes', s'.Inv limit base (ls ++ [l]) nodes' := by
  cases l with
  | accept fd => exact ⟨nodes, h.accept hstep⟩
  | malloc newNode => exact ⟨nodes, h.malloc hstep⟩
  | enqueue woken => exact h.enqueue hstep
  | dequeue w => exact h.dequeue hstep
  | wake w => exact ⟨nodes, h.wake hstep⟩
  | handler w event => exact ⟨nodes, h.handler hstep⟩

theorem defined (h : s.Inv limit base ls nodes) {l : Step W} (hl : s.Permitted limit l) :
    ∃ s', s.step limit l = some s' := by
  cases l with
  | accept fd =>
    obtain ⟨hvalid, hnone, hnode, hroom⟩ := hl
    have hcontrol : 0 ≤ fd ∧ s.clientSocketId = none ∧ s.threads.newNode () = none :=
      ⟨hvalid, hnone, hnode⟩
    rw [PoolProxy.step, if_pos hcontrol, Table.acquire, if_pos hroom]
    exact ⟨_, rfl⟩
  | malloc newNode =>
    obtain ⟨fd, hfd⟩ := Option.ne_none_iff_exists'.mp hl.1
    obtain ⟨threads, hthreads⟩ := h.queue.defined (l := .malloc () fd newNode)
      ⟨h.alone hl.1, hl.2⟩
    refine ⟨{ s with threads := threads, clientSocketId := none }, ?_⟩
    simp only [PoolProxy.step, hfd, hthreads, Option.map_some]
  | enqueue woken =>
    obtain ⟨threads, hthreads⟩ := h.queue.defined (l := .enqueue () woken) hl
    exact ⟨_, by rw [PoolProxy.step, hthreads]; rfl⟩
  | dequeue w =>
    obtain ⟨threads, hthreads⟩ := h.queue.defined (l := .dequeue w) hl.2
    exact ⟨_, by rw [PoolProxy.step, if_pos hl.1, hthreads]; rfl⟩
  | wake w =>
    obtain ⟨threads, hthreads⟩ := h.queue.defined (l := .wake w) hl
    exact ⟨_, by rw [PoolProxy.step, hthreads]; rfl⟩
  | handler w event =>
    obtain ⟨handling, hw, hpermitted⟩ := hl
    obtain ⟨others, hbefore, _⟩ := held_serving base nodes hw
    obtain ⟨r, hr⟩ := Handling.step_defined true (h.accounts.congr hbefore) hpermitted
    refine ⟨{ s.serve w r.1 with table := r.2 }, ?_⟩
    simp only [PoolProxy.step, hw, hr, Option.map_some]

theorem sound (h : s.Inv limit base ls nodes) : s.Sound limit base ls nodes where
  opened := h.accounts.opened
  card_le := h.accounts.card_le
  lost := h.lost
  order := by
    rw [← List.append_assoc, Fifo.taken_append h.queue.fifo, h.order]
  defined := fun _ hl => h.defined hl

end Inv

end Invariant

/-- Every run of the proxy keeps account of its descriptors and its clients. -/
theorem pool_sound [Fintype W] {limit : ℕ} {base : Finset ℤ} (hbase : base.card ≤ limit)
    {ls : List (Step W)} {s : PoolProxy W} (hrun : Runs.run (step limit) (start base) ls = some s) :
    ∃ nodes, s.Sound limit base ls nodes := by
  obtain ⟨nodes, hinv⟩ := Runs.run_invariant_of_labels (step limit)
    (fun ls s => ∃ nodes, Inv limit base ls s nodes)
    (fun _ _ _ _ ⟨_, hinv⟩ hstep => hinv.step hstep) ls [] (start base) s
    ⟨[], Inv.start hbase⟩ hrun
  exact ⟨nodes, hinv.sound⟩

/-- Of two clients the first asks for a host that is not known; its worker has closed
the first socket when the second client is accepted under the same number. -/
theorem pool_sound_reused : ∃ s : PoolProxy (Fin 2),
    Runs.run (step 8) (start {0, 1, 2, 3}) [.dequeue 0, .accept 4, .malloc 100, .enqueue (some 0),
      .dequeue 0, .handler 0 (.socket 5), .handler 0 .refused, .handler 0 .close, .accept 4,
      .malloc 100, .enqueue none, .dequeue 1] = some s ∧
    s.table.lost = {5} ∧ s.accepted = [4, 4] ∧ ∃ nodes, s.Sound 8 {0, 1, 2, 3}
      [.dequeue 0, .accept 4, .malloc 100, .enqueue (some 0), .dequeue 0,
        .handler 0 (.socket 5), .handler 0 .refused, .handler 0 .close, .accept 4,
        .malloc 100, .enqueue none, .dequeue 1] nodes := by
  obtain ⟨s, hrun, hlost, haccepted⟩ : ∃ s : PoolProxy (Fin 2),
      Runs.run (step 8) (start {0, 1, 2, 3}) [.dequeue 0, .accept 4, .malloc 100,
        .enqueue (some 0), .dequeue 0, .handler 0 (.socket 5), .handler 0 .refused,
        .handler 0 .close, .accept 4, .malloc 100, .enqueue none, .dequeue 1] = some s ∧
      s.table.lost = {5} ∧ s.accepted = [4, 4] := ⟨_, rfl, rfl, rfl⟩
  exact ⟨s, hrun, hlost, haccepted, pool_sound (by decide) hrun⟩

end PoolProxy

end ProxyServer.V1
