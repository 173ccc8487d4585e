import ProxyServer.Fifo
import ProxyServer.LinkedLists
import ProxyServer.Parties

/-!
The queue of the C thread pool, a linked list with pointers to both ends. A node is
allocated and filled before its thread locks `queue_lock`; the rest of `enqueue`, and a
look of `dequeue` at `queue_head` with what follows it, are one step each. A worker that
finds NULL waits, and is woken by a signal or for no reason. Beside the threads stands
the history of the queue, which no step reads.
-/
namespace ProxyServer.V1

open LinkedLists Parties

/-- The nodes `client_queue`, and the pointers to the first and the last. -/
structure ClientQueue where
  heap : Heap ℕ ℤ
  queueHead : Option ℕ
  queueTail : Option ℕ

namespace ClientQueue

def create : ClientQueue := ⟨fun _ => none, none, none⟩

/-- `malloc` gives a node that is not in use. -/
def alloc (q : ClientQueue) (newNode : ℕ) (clientSocket : ℤ) : Option ClientQueue :=
  if q.heap newNode = none
  then some { q with heap := Function.update q.heap newNode (some ⟨clientSocket, none⟩) }
  else none

/-- The new node becomes the last one; nothing where `queue_tail` points to a node that
has been freed. -/
def enqueue (q : ClientQueue) (newNode : ℕ) : Option ClientQueue :=
  match q.queueTail with
  | none => some { q with queueHead := some newNode, queueTail := some newNode }
  | some tail => (q.heap tail).map (fun node =>
      { q with
        heap := Function.update q.heap tail (some { node with next := some newNode })
        queueTail := some newNode })

/-- The node at `queue_head` is unlinked and freed. -/
def dequeue (q : ClientQueue) (temp : ℕ) : Option (ℤ × ClientQueue) :=
  (q.heap temp).map (fun node =>
    (node.value,
      { heap := Function.update q.heap temp none
        queueHead := node.next
        queueTail := if node.next = none then none else q.queueTail }))

structure Holds (q : ClientQueue) (nodes : List (ℕ × ℤ)) : Prop where
  chain : Chain q.heap q.queueHead nodes
  tail : q.queueTail = nodes.getLast?.map Prod.fst

namespace Holds

variable {q q' : ClientQueue} {nodes : List (ℕ × ℤ)} {a : ℕ} {v : ℤ}

theorem create : ClientQueue.create.Holds [] := ⟨rfl, rfl⟩

theorem tail_none_iff (h : q.Holds nodes) : q.queueTail = none ↔ q.queueHead = none := by
  rw [h.tail, ← h.chain.eq_nil_iff, Option.map_eq_none_iff, List.getLast?_eq_none_iff]

theorem tail_isLast (h : q.Holds nodes) (htail : q.queueTail = some a) :
    IsLast q.heap q.queueHead a := by
  rw [h.tail] at htail
  obtain ⟨⟨b, v⟩, hlast, rfl⟩ := Option.map_eq_some_iff.mp htail
  obtain ⟨front, rfl⟩ := List.getLast?_eq_some_iff.mp hlast
  exact h.chain.isLast

/-- Elsewhere in the heap a thread may fill its node. -/
theorem alloc (h : q.Holds nodes) (halloc : q.alloc a v = some q') :
    q'.Holds nodes ∧ q'.heap a = some ⟨v, none⟩ ∧ a ∉ nodes.map Prod.fst ∧
      ∀ b, q.heap b ≠ none → q'.heap b = q.heap b := by
  unfold ClientQueue.alloc at halloc
  split at halloc
  case isTrue hfree =>
    cases halloc
    have hnot : a ∉ nodes.map Prod.fst := fun ha => h.chain.allocated ha hfree
    refine ⟨⟨h.chain.update hnot _, h.tail⟩, Function.update_self _ _ _, hnot, ?_⟩
    intro b hb
    have hba : b ≠ a := by
      rintro rfl
      exact hb hfree
    exact Function.update_of_ne hba _ _
  case isFalse => contradiction

theorem enqueue (h : q.Holds nodes) (hnode : q.heap a = some ⟨v, none⟩)
    (ha : a ∉ nodes.map Prod.fst) :
    ∃ q', q.enqueue a = some q' ∧ q'.Holds (nodes ++ [(a, v)]) ∧
      ∀ b, b ∉ nodes.map Prod.fst → q'.heap b = q.heap b := by
  rcases List.eq_nil_or_concat nodes with rfl | ⟨front, ⟨t, u⟩, rfl⟩
  · have htail : q.queueTail = none := h.tail
    refine ⟨{ q with queueHead := some a, queueTail := some a }, ?_, ?_, fun _ _ => rfl⟩
    · rw [ClientQueue.enqueue, htail]
    · exact ⟨⟨rfl, none, hnode, rfl⟩, rfl⟩
  · rw [List.concat_eq_append] at h ha ⊢
    have htail : q.queueTail = some t := by
      rw [h.tail, List.getLast?_append]
      rfl
    refine ⟨⟨Function.update q.heap t (some ⟨u, some a⟩), q.queueHead, some a⟩, ?_, ?_, ?_⟩
    · rw [ClientQueue.enqueue, htail]
      dsimp only
      rw [h.chain.last_node]
      rfl
    · refine ⟨h.chain.concat ha hnode, ?_⟩
      dsimp only
      rw [List.getLast?_append]
      rfl
    · intro b hb
      have hbt : b ≠ t := by
        rintro rfl
        apply hb
        rw [List.map_append]
        exact List.mem_append_right _ List.mem_cons_self
      exact Function.update_of_ne hbt _ _

theorem dequeue (h : q.Holds ((a, v) :: nodes)) :
    q.queueHead = some a ∧ ∃ q', q.dequeue a = some (v, q') ∧ q'.Holds nodes ∧
      ∀ b, b ≠ a → q'.heap b = q.heap b := by
  obtain ⟨next, hnode, hchain⟩ := h.chain.tail
  refine ⟨h.chain.1, _, by rw [ClientQueue.dequeue, hnode]; rfl, ⟨hchain, ?_⟩, ?_⟩
  · dsimp only
    by_cases hnext : next = none
    · rw [if_pos hnext, hchain.eq_nil_iff.mpr hnext]
      rfl
    · rw [if_neg hnext, h.tail]
      have hnil : nodes ≠ [] := fun hnil => hnext (hchain.eq_nil_iff.mp hnil)
      rw [List.getLast?_cons, List.getLast?_eq_some_getLast hnil]
      rfl
  · intro b hb
    exact Function.update_of_ne hb _ _

end Holds

end ClientQueue

/-- Where a worker is: not in `dequeue`, waiting for `queue_cond`, or about to lock
`queue_lock` again. -/
inductive DequeuePoint
  | outside
  | waiting
  | woken
  deriving DecidableEq

/-- The queue, for each enqueuing thread the socket and node of the call it is in, the
workers, and the history. -/
structure QueueThreads (P W : Type*) where
  queue : ClientQueue
  newNode : P → Option (ℤ × ℕ)
  point : W → DequeuePoint
  log : List (Fifo.Op W ℤ)

namespace QueueThreads

variable {P W : Type*}

/-- `enqueue` names the thread that its signal wakes, when one waits. A worker looks at
`queue_head` when it calls `dequeue` and whenever it has been woken. -/
inductive Step (P W : Type*)
  | malloc (p : P) (clientSocket : ℤ) (newNode : ℕ)
  | enqueue (p : P) (woken : Option W)
  | dequeue (w : W)
  | wake (w : W)
  deriving DecidableEq

def start : QueueThreads P W := ⟨ClientQueue.create, fun _ => none, fun _ => .outside, []⟩

section Enqueue
variable [DecidableEq P]

def enter (s : QueueThreads P W) (p : P) (clientSocket : ℤ) (newNode : ℕ) (q : ClientQueue) :
    QueueThreads P W :=
  { s with queue := q, newNode := Function.update s.newNode p (some (clientSocket, newNode)) }

def linked (s : QueueThreads P W) (p : P) (clientSocket : ℤ) (q : ClientQueue) :
    QueueThreads P W :=
  { s with
    queue := q
    newNode := Function.update s.newNode p none
    log := s.log ++ [.put clientSocket] }

variable {s : QueueThreads P W} {p p' : P} {v : ℤ} {a : ℕ} {q : ClientQueue}

theorem enter_newNode_self : (s.enter p v a q).newNode p = some (v, a) :=
  Function.update_self _ _ _

theorem enter_newNode_of_ne (h : p' ≠ p) : (s.enter p v a q).newNode p' = s.newNode p' :=
  Function.update_of_ne h _ _

theorem linked_newNode_self : (s.linked p v q).newNode p = none :=
  Function.update_self _ _ _

theorem linked_newNode_of_ne (h : p' ≠ p) : (s.linked p v q).newNode p' = s.newNode p' :=
  Function.update_of_ne h _ _

end Enqueue

section Dequeue
variable [DecidableEq W]

def goto (s : QueueThreads P W) (w : W) (p : DequeuePoint) : QueueThreads P W :=
  { s with point := Function.update s.point w p }

/-- `pthread_cond_signal` wakes a waiting thread when there is one. -/
def signal [Fintype W] (s : QueueThreads P W) : Option W → Option (QueueThreads P W)
  | some w => if s.point w = .waiting then some (s.goto w .woken) else none
  | none => if ∀ w, s.point w ≠ .waiting then some s else none

def returned (s : QueueThreads P W) (w : W) (clientSocket : ℤ) (q : ClientQueue) :
    QueueThreads P W :=
  goto { s with queue := q, log := s.log ++ [.take w clientSocket] } w .outside

end Dequeue

section Step
variable [DecidableEq P] [DecidableEq W]

/-- One step; nothing where it cannot be taken, or a pointer to no node is followed. -/
def step [Fintype W] (s : QueueThreads P W) : Step P W → Option (QueueThreads P W)
  | .malloc p clientSocket newNode =>
      if s.newNode p = none
      then (s.queue.alloc newNode clientSocket).map (s.enter p clientSocket newNode) else none
  | .enqueue p woken =>
      match s.newNode p with
      | none => none
      | some (clientSocket, newNode) =>
          (s.queue.enqueue newNode).bind (fun q => (s.linked p clientSocket q).signal woken)
  | .dequeue w =>
      if s.point w = .waiting then none
      else match s.queue.queueHead with
        | none => some (s.goto w .waiting)
        | some temp => (s.queue.dequeue temp).map (fun r => s.returned w r.1 r.2)
  | .wake w => if s.point w = .waiting then some (s.goto w .woken) else none

/-- The control of the threads, `malloc` and the signal allow the step. -/
def Permitted (s : QueueThreads P W) : Step P W → Prop
  | .malloc p _ newNode => s.newNode p = none ∧ s.queue.heap newNode = none
  | .enqueue p woken => s.newNode p ≠ none ∧
      (∀ w, woken = some w → s.point w = .waiting) ∧
      (woken = none → ∀ w, s.point w ≠ .waiting)
  | .dequeue w => s.point w ≠ .waiting
  | .wake w => s.point w = .waiting

/-- The steps of the threads, one constructor a branch of the code. -/
inductive Transition (s : QueueThreads P W) : Step P W → QueueThreads P W → Prop
  | malloc {p : P} {clientSocket : ℤ} {newNode : ℕ} {q : ClientQueue} :
      s.newNode p = none → s.queue.alloc newNode clientSocket = some q →
      Transition s (.malloc p clientSocket newNode) (s.enter p clientSocket newNode q)
  | enqueue {p : P} {w : W} {clientSocket : ℤ} {newNode : ℕ} {q : ClientQueue} :
      s.newNode p = some (clientSocket, newNode) → s.queue.enqueue newNode = some q →
      s.point w = .waiting →
      Transition s (.enqueue p (some w)) ((s.linked p clientSocket q).goto w .woken)
  | enqueueAlone {p : P} {clientSocket : ℤ} {newNode : ℕ} {q : ClientQueue} :
      s.newNode p = some (clientSocket, newNode) → s.queue.enqueue newNode = some q →
      (∀ w, s.point w ≠ .waiting) →
      Transition s (.enqueue p none) (s.linked p clientSocket q)
  | wait {w : W} : s.point w ≠ .waiting → s.queue.queueHead = none →
      Transition s (.dequeue w) (s.goto w .waiting)
  | dequeue {w : W} {temp : ℕ} {clientSocket : ℤ} {q : ClientQueue} :
      s.point w ≠ .waiting → s.queue.queueHead = some temp →
      s.queue.dequeue temp = some (clientSocket, q) →
      Transition s (.dequeue w) (s.returned w clientSocket q)
  | wake {w : W} : s.point w = .waiting → Transition s (.wake w) (s.goto w .woken)

theorem transition_of_step [Fintype W] {s s' : QueueThreads P W} {l : Step P W}
    (h : step s l = some s') : Transition s l s' := by
  cases l with
  | malloc p clientSocket newNode =>
    simp only [step] at h
    split at h
    case isTrue hp =>
      obtain ⟨q, halloc, rfl⟩ := Option.map_eq_some_iff.mp h
      exact Transition.malloc hp halloc
    case isFalse => contradiction
  | enqueue p woken =>
    simp only [step] at h
    split at h
    case h_1 => contradiction
    case h_2 clientSocket newNode hp =>
      obtain ⟨q, hq, hsignal⟩ := Option.bind_eq_some_iff.mp h
      cases woken with
      | none =>
        simp only [signal] at hsignal
        split at hsignal
        case isTrue hnone =>
          cases hsignal
          exact Transition.enqueueAlone hp hq hnone
        case isFalse => contradiction
      | some w =>
        simp only [signal] at hsignal
        split at hsignal
        case isTrue hw =>
          cases hsignal
          exact Transition.enqueue hp hq hw
        case isFalse => contradiction
  | dequeue w =>
    simp only [step] at h
    split at h
    case isTrue => contradiction
    case isFalse hw =>
      split at h
      case h_1 hhead =>
        cases h
        exact Transition.wait hw hhead
      case h_2 temp hhead =>
        obtain ⟨⟨clientSocket, q⟩, hq, rfl⟩ := Option.map_eq_some_iff.mp h
        exact Transition.dequeue hw hhead hq
  | wake w =>
    simp only [step] at h
    split at h
    case isTrue hw =>
      cases h
      exact Transition.wake hw
    case isFalse => contradiction

end Step

section Invariant

variable {s s' : QueueThreads P W} {nodes : List (ℕ × ℤ)}

/-- The nodes of the queue, and apart from them the filled nodes of the threads that
have not linked theirs. -/
structure Inv (s : QueueThreads P W) (nodes : List (ℕ × ℤ)) : Prop where
  holds : s.queue.Holds nodes
  filled : ∀ p clientSocket a, s.newNode p = some (clientSocket, a) →
    s.queue.heap a = some ⟨clientSocket, none⟩ ∧ a ∉ nodes.map Prod.fst
  apart : ∀ p p' v v' a, s.newNode p = some (v, a) → s.newNode p' = some (v', a) → p = p'
  fifo : Runs.run Fifo.step [] s.log = some (nodes.map Prod.snd)

/-- While a worker waits, each node has a worker that has been woken. -/
def Attended [Fintype W] (s : QueueThreads P W) (nodes : List (ℕ × ℤ)) : Prop :=
  (∃ w, s.point w = .waiting) → nodes.length ≤ count (· = .woken) s.point

namespace Attended

variable [DecidableEq W] [Fintype W]

/-- A worker moves to where it does not wait, and brings what the move costs. -/
theorem moved (h : s.Attended nodes) {w : W} {p : DequeuePoint} (hp : p ≠ .waiting)
    {nodes' : List (ℕ × ℤ)} (hpoint : s'.point = Function.update s.point w p)
    (hcost : nodes'.length + count (· = .woken) s.point ≤
      nodes.length + count (· = .woken) (Function.update s.point w p)) : s'.Attended nodes' := by
  intro hwaiting
  rw [hpoint] at hwaiting ⊢
  have hbefore : (∃ w, s.point w = .waiting) →
      nodes.length ≤ 0 + count (· = .woken) s.point := by
    rw [Nat.zero_add]
    exact h
  have hpaid : nodes'.length + (0 + count (· = .woken) s.point) ≤
      nodes.length + (0 + count (· = .woken) (Function.update s.point w p)) := by omega
  have hafter := le_awake_of_move (· = DequeuePoint.waiting) (· = DequeuePoint.woken) hbefore hp
    hpaid hwaiting
  rw [Nat.zero_add] at hafter
  exact hafter

/-- A waiting worker is woken, for at most one new node. -/
theorem wake (h : s.Attended nodes) {w : W} (hw : s.point w = .waiting)
    {nodes' : List (ℕ × ℤ)} (hpoint : s'.point = Function.update s.point w .woken)
    (hlength : nodes'.length ≤ nodes.length + 1) : s'.Attended nodes' := by
  apply h.moved (by simp) hpoint
  have hcount : count (· = .woken) (Function.update s.point w .woken) =
      count (· = .woken) s.point + 1 :=
    count_update_enter (by simp [hw]) rfl
  omega

theorem leave {node : ℕ × ℤ} {rest : List (ℕ × ℤ)} (h : s.Attended (node :: rest)) {w : W}
    (hpoint : s'.point = Function.update s.point w .outside) : s'.Attended rest := by
  apply h.moved (by simp) hpoint
  rw [List.length_cons]
  by_cases hwoken : s.point w = .woken
  · have hcount : count (· = .woken) (Function.update s.point w .outside) + 1 =
        count (· = .woken) s.point :=
      count_update_leave hwoken (by simp)
    omega
  · have hcount : count (· = .woken) (Function.update s.point w .outside) =
        count (· = .woken) s.point :=
      count_update_of_iff (by simp [hwoken])
    omega

end Attended

namespace Inv

theorem start : (start : QueueThreads P W).Inv [] where
  holds := ClientQueue.Holds.create
  filled := fun _ _ _ hp => absurd hp.symm (Option.some_ne_none _)
  apart := fun _ _ _ _ _ hp => absurd hp.symm (Option.some_ne_none _)
  fifo := rfl

section Enqueue
variable [DecidableEq P]

theorem enter (h : s.Inv nodes) {p : P} {v : ℤ} {a : ℕ} {q : ClientQueue}
    (halloc : s.queue.alloc a v = some q) : (s.enter p v a q).Inv nodes := by
  obtain ⟨hholds, hnode, hnot, hsame⟩ := h.holds.alloc halloc
  have hother : ∀ p' v' b, s.newNode p' = some (v', b) → b ≠ a := by
    rintro p' v' b hp' rfl
    have hused := (h.filled p' v' b hp').1
    unfold ClientQueue.alloc at halloc
    rw [if_neg (by rw [hused]; exact Option.some_ne_none _)] at halloc
    contradiction
  refine ⟨hholds, ?_, ?_, h.fifo⟩
  · intro p' v' b hp'
    by_cases hpp : p' = p
    · subst hpp
      rw [enter_newNode_self] at hp'
      cases hp'
      exact ⟨hnode, hnot⟩
    · rw [enter_newNode_of_ne hpp] at hp'
      obtain ⟨hused, hmem⟩ := h.filled p' v' b hp'
      refine ⟨?_, hmem⟩
      rw [← hused]
      exact hsame b (by rw [hused]; exact Option.some_ne_none _)
  · intro p₁ p₂ v₁ v₂ b h₁ h₂
    by_cases hp₁ : p₁ = p
    · by_cases hp₂ : p₂ = p
      · rw [hp₁, hp₂]
      · rw [hp₁, enter_newNode_self] at h₁
        rw [enter_newNode_of_ne hp₂] at h₂
        cases h₁
        exact absurd rfl (hother p₂ v₂ a h₂)
    · rw [enter_newNode_of_ne hp₁] at h₁
      by_cases hp₂ : p₂ = p
      · rw [hp₂, enter_newNode_self] at h₂
        cases h₂
        exact absurd rfl (hother p₁ v₁ a h₁)
      · rw [enter_newNode_of_ne hp₂] at h₂
        exact h.apart p₁ p₂ v₁ v₂ b h₁ h₂

theorem linked (h : s.Inv nodes) {p : P} {v : ℤ} {a : ℕ} {q : ClientQueue}
    (hp : s.newNode p = some (v, a)) (hq : s.queue.enqueue a = some q) :
    (s.linked p v q).Inv (nodes ++ [(a, v)]) := by
  obtain ⟨hnode, hnot⟩ := h.filled p v a hp
  obtain ⟨q', hq', hholds, hsame⟩ := h.holds.enqueue hnode hnot
  rw [hq] at hq'
  cases hq'
  have hother : ∀ p' v' b, (s.linked p v q).newNode p' = some (v', b) →
      p' ≠ p ∧ s.newNode p' = some (v', b) := by
    intro p' v' b hp'
    by_cases hpp : p' = p
    · rw [hpp, linked_newNode_self] at hp'
      contradiction
    · rw [linked_newNode_of_ne hpp] at hp'
      exact ⟨hpp, hp'⟩
  refine ⟨hholds, ?_, ?_, ?_⟩
  · intro p' v' b hp'
    obtain ⟨hpp, hp'⟩ := hother p' v' b hp'
    obtain ⟨hused, hmem⟩ := h.filled p' v' b hp'
    refine ⟨(hsame b hmem).trans hused, ?_⟩
    rw [List.map_append, List.mem_append]
    rintro (hmem' | hlast)
    · exact hmem hmem'
    · obtain rfl : b = a := List.mem_singleton.mp hlast
      exact hpp (h.apart p' p v' v b hp' hp)
  · intro p₁ p₂ v₁ v₂ b h₁ h₂
    exact h.apart p₁ p₂ v₁ v₂ b (hother p₁ v₁ b h₁).2 (hother p₂ v₂ b h₂).2
  · rw [List.map_append]
    exact Fifo.run_put h.fifo v

end Enqueue

section Dequeue
variable [DecidableEq W]

theorem goto (h : s.Inv nodes) (w : W) (p : DequeuePoint) : (s.goto w p).Inv nodes :=
  ⟨h.holds, h.filled, h.apart, h.fifo⟩

/-- A worker that finds a node takes the first one. -/
theorem returned {w : W} {temp : ℕ} {v : ℤ} {q : ClientQueue} (h : s.Inv nodes)
    (hhead : s.queue.queueHead = some temp) (hq : s.queue.dequeue temp = some (v, q)) :
    ∃ rest, nodes = (temp, v) :: rest ∧ (s.returned w v q).Inv rest := by
  have hchain := h.holds.chain
  rw [hhead] at hchain
  obtain ⟨u, _, rest, rfl, _, _⟩ := hchain.of_some
  obtain ⟨_, q', hq', hholds, hsame⟩ := h.holds.dequeue
  rw [hq] at hq'
  cases hq'
  refine ⟨rest, rfl, hholds, ?_, h.apart, Fifo.run_take h.fifo w⟩
  intro p v' b hp
  obtain ⟨hused, hmem⟩ := h.filled p v' b hp
  rw [List.map_cons, List.mem_cons, not_or] at hmem
  exact ⟨(hsame b hmem.1).trans hused, hmem.2⟩

end Dequeue

variable [DecidableEq P] [DecidableEq W] [Fintype W]

theorem step {l : Step P W} (h : s.Inv nodes) (hattended : s.Attended nodes)
    (hstep : Transition s l s') : ∃ nodes', s'.Inv nodes' ∧ s'.Attended nodes' := by
  cases hstep with
  | malloc hp halloc => exact ⟨nodes, h.enter halloc, hattended⟩
  | @enqueue p w clientSocket newNode q hp hq hw =>
    refine ⟨_, (h.linked hp hq).goto w .woken, hattended.wake hw rfl ?_⟩
    rw [List.length_append, List.length_singleton]
  | enqueueAlone hp hq hnone =>
    refine ⟨_, h.linked hp hq, ?_⟩
    rintro ⟨w, hw⟩
    exact absurd hw (hnone w)
  | @wait w _ hhead =>
    obtain rfl := h.holds.chain.eq_nil_iff.mpr hhead
    exact ⟨[], h.goto w .waiting, fun _ => Nat.zero_le _⟩
  | @dequeue w temp clientSocket q hw hhead hq =>
    obtain ⟨rest, rfl, hinv⟩ := h.returned (w := w) hhead hq
    exact ⟨rest, hinv, hattended.leave rfl⟩
  | @wake w hw =>
    exact ⟨nodes, h.goto w .woken, hattended.wake hw rfl (Nat.le_succ _)⟩

/-- A worker that does not wait takes the socket of the first node. -/
theorem dequeue {a : ℕ} {v : ℤ} {rest : List (ℕ × ℤ)} (h : s.Inv ((a, v) :: rest)) {w : W}
    (hw : s.point w ≠ .waiting) :
    ∃ s', QueueThreads.step s (.dequeue w) = some s' ∧ s'.Inv rest ∧
      s'.log = s.log ++ [.take w v] ∧ s'.point w = .outside := by
  obtain ⟨hhead, q, hq, _, _⟩ := h.holds.dequeue
  obtain ⟨rest', heq, hinv⟩ := h.returned (w := w) hhead hq
  cases heq
  refine ⟨s.returned w v q, ?_, hinv, rfl, Function.update_self _ _ _⟩
  simp only [QueueThreads.step, if_neg hw, hhead, hq, Option.map_some]

/-- No step follows a pointer to a node that is not there. -/
theorem defined (h : s.Inv nodes) {l : Step P W} (hl : Permitted s l) :
    ∃ s', QueueThreads.step s l = some s' := by
  cases l with
  | malloc p clientSocket newNode =>
    obtain ⟨hp, hfree⟩ := hl
    simp only [QueueThreads.step, if_pos hp, ClientQueue.alloc, if_pos hfree, Option.map_some]
    exact ⟨_, rfl⟩
  | enqueue p woken =>
    obtain ⟨hp, hsome, hnone⟩ := hl
    obtain ⟨⟨clientSocket, newNode⟩, hp⟩ := Option.ne_none_iff_exists'.mp hp
    obtain ⟨hnode, hnot⟩ := h.filled p clientSocket newNode hp
    obtain ⟨q, hq, _⟩ := h.holds.enqueue hnode hnot
    simp only [QueueThreads.step, hp, hq, Option.bind_some]
    cases woken with
    | none => exact ⟨_, if_pos (hnone rfl)⟩
    | some w => exact ⟨_, if_pos (hsome w rfl)⟩
  | dequeue w =>
    cases nodes with
    | nil =>
      have hhead := h.holds.chain.eq_nil_iff.mp rfl
      simp only [QueueThreads.step, if_neg hl, hhead]
      exact ⟨_, rfl⟩
    | cons node rest =>
      obtain ⟨s', hs', _⟩ := h.dequeue hl
      exact ⟨s', hs'⟩
  | wake w => exact ⟨_, if_pos hl⟩

/-- A worker that goes on dequeuing gets all that is in the queue. -/
theorem drains (w : W) : ∀ {nodes : List (ℕ × ℤ)} {s : QueueThreads P W}, s.Inv nodes →
    s.point w ≠ .waiting →
    ∃ t, Runs.run QueueThreads.step s (List.replicate nodes.length (.dequeue w)) = some t ∧
      t.Inv [] ∧ Fifo.puts t.log = Fifo.puts s.log := by
  intro nodes
  induction nodes with
  | nil =>
    intro s h _
    exact ⟨s, rfl, h, rfl⟩
  | cons node rest ih =>
    intro s h hw
    obtain ⟨s', hs', hinv, hlog, hpoint⟩ := h.dequeue hw
    obtain ⟨t, ht, hempty, hputs⟩ := ih hinv (by rw [hpoint]; simp)
    refine ⟨t, ?_, hempty, ?_⟩
    · rw [List.length_cons, List.replicate_succ, Runs.run_cons, hs', Option.bind_some, ht]
    · rw [hputs, hlog, Fifo.puts_concat_take]

end Inv

end Invariant

section Refinement
variable [DecidableEq P] [DecidableEq W] [Fintype W]

/-- The list from `queue_head` to `queue_tail` is the queue that the history describes,
every step is defined in it, and what has been enqueued is or will be returned. -/
structure RefinesFifo (s : QueueThreads P W) (nodes : List (ℕ × ℤ)) : Prop where
  chain : Chain s.queue.heap s.queue.queueHead nodes
  tail_none : s.queue.queueTail = none ↔ s.queue.queueHead = none
  tail_last : ∀ a, s.queue.queueTail = some a → IsLast s.queue.heap s.queue.queueHead a
  fifo : Runs.run Fifo.step [] s.log = some (nodes.map Prod.snd)
  order : (Fifo.taken s.log).map Prod.snd ++ nodes.map Prod.snd = Fifo.puts s.log
  defined : ∀ l, Permitted s l → ∃ s', step s l = some s'
  front : ∀ a v rest, nodes = (a, v) :: rest → ∀ w, s.point w ≠ .waiting →
    ∃ s', step s (.dequeue w) = some s' ∧ s'.log = s.log ++ [.take w v]
  attended : (∃ w, s.point w = .waiting) → nodes.length ≤ count (· = .woken) s.point
  drains : ∀ w, s.point w ≠ .waiting →
    ∃ t, Runs.run step s (List.replicate nodes.length (.dequeue w)) = some t ∧
      (Fifo.taken t.log).map Prod.snd = Fifo.puts s.log

theorem Inv.refinesFifo {s : QueueThreads P W} {nodes : List (ℕ × ℤ)} (h : s.Inv nodes)
    (hattended : s.Attended nodes) : s.RefinesFifo nodes where
  chain := h.holds.chain
  tail_none := h.holds.tail_none_iff
  tail_last := fun _ htail => h.holds.tail_isLast htail
  fifo := h.fifo
  order := Fifo.taken_append h.fifo
  defined := fun _ hl => h.defined hl
  front := by
    rintro a v rest rfl w hw
    obtain ⟨s', hs', _, hlog, _⟩ := h.dequeue hw
    exact ⟨s', hs', hlog⟩
  attended := hattended
  drains := by
    intro w hw
    obtain ⟨t, ht, hempty, hputs⟩ := h.drains w hw
    have htaken := Fifo.taken_append hempty.fifo
    rw [List.map_nil, List.append_nil, hputs] at htaken
    exact ⟨t, ht, htaken⟩

/-- Every run keeps the linked list a queue. -/
theorem clientQueue_refines_fifo {ls : List (Step P W)} {s : QueueThreads P W}
    (hrun : Runs.run step start ls = some s) : ∃ nodes, s.RefinesFifo nodes := by
  obtain ⟨nodes, hinv, hattended⟩ := Runs.run_invariant step
    (fun s : QueueThreads P W => ∃ nodes, s.Inv nodes ∧ s.Attended nodes)
    (fun _ _ _ ⟨_, hinv, hattended⟩ hstep => hinv.step hattended (transition_of_step hstep)) ls
    start s ⟨[], Inv.start, fun _ => Nat.zero_le _⟩ hrun
  exact ⟨nodes, hinv.refinesFifo hattended⟩

/-- Worker 0 waits, one of two threads enqueues, and worker 1 takes the socket before
the worker that the signal has woken. -/
theorem clientQueue_refines_fifo_two : ∃ s : QueueThreads (Fin 2) (Fin 2),
    Runs.run step start [.dequeue 0, .malloc 0 7 100, .malloc 1 8 101, .enqueue 1 (some 0),
      .enqueue 0 none, .dequeue 1, .dequeue 0] = some s ∧
    Fifo.taken s.log = [(1, 8), (0, 7)] ∧ ∃ nodes, s.RefinesFifo nodes := by
  obtain ⟨s, hrun, htaken⟩ : ∃ s : QueueThreads (Fin 2) (Fin 2), Runs.run step start
      [.dequeue 0, .malloc 0 7 100, .malloc 1 8 101, .enqueue 1 (some 0), .enqueue 0 none,
        .dequeue 1, .dequeue 0] = some s ∧ Fifo.taken s.log = [(1, 8), (0, 7)] := ⟨_, rfl, rfl⟩
  exact ⟨s, hrun, htaken, clientQueue_refines_fifo hrun⟩

end Refinement

end QueueThreads

end ProxyServer.V1
