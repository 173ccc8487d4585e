import ProxyServer.PoolProxy
import Mathlib.Data.Set.Finite.Basic

/-!
The C proxy with a thread pool comes to rest. A client brings a bounded number of steps
to `main` and to a worker, and a worker goes to wait once for each time it is woken; so
but for the clients accepted and the wake-ups without a signal every run is short. And
no signal is lost: when no step is left, the workers wait, the queue is empty, every
client has been served and what is open is what was lost.
-/
namespace ProxyServer.V1.PoolProxy

open Parties

variable {W : Type*}

/-- What a worker does, in `dequeue` and out of it. -/
def place (s : PoolProxy W) (w : W) : Option Handling × DequeuePoint :=
  (s.serving w, s.threads.point w)

/-- The steps until a worker waits, unless it is given another client. -/
def ahead : Option Handling × DequeuePoint → ℕ
  | (some (.receive _), _) => 5
  | (some (.connect _ _), _) => 4
  | (some (.relay _ _), _) => 3
  | (some (.shutdown _), _) => 2
  | (none, .waiting) => 0
  | (none, _) => 1

/-- The steps that the client in the hands of `main` brings. -/
def mainAhead (s : PoolProxy W) : ℕ :=
  8 * s.clientSocketId.toList.length + 7 * (s.threads.newNode ()).toList.length

/-- The wake-ups without a signal. -/
def wakeUps (ls : List (Step W)) : ℕ :=
  ls.countP (fun l => match l with
    | .wake _ => true
    | _ => false)

/-- Each step so far has been paid for by a worker, a client or a wake-up. -/
def Paid [Fintype W] (ls : List (Step W)) (s : PoolProxy W) : Prop :=
  total ahead s.place + s.mainAhead + 5 * (Fifo.puts s.threads.log).length + ls.length ≤
    Fintype.card W + 9 * s.accepted.length + 2 * wakeUps ls +
      5 * (Fifo.taken s.threads.log).length

/-- No step is left but to accept a client or to wake up without a signal. -/
def AtRest (limit : ℕ) (s : PoolProxy W) : Prop :=
  ∀ l, s.Permitted limit l → (∃ clientSocketId, l = .accept clientSocketId) ∨ ∃ w, l = .wake w

/-- Every client accepted has been dequeued, in order, and its handling is over. -/
structure Drained (base : Finset ℤ) (ls : List (Step W)) (s : PoolProxy W) : Prop where
  idle : ∀ w, s.place w = (none, .waiting)
  queueHead : s.threads.queue.queueHead = none
  pending : s.pending = []
  served : (Fifo.taken s.threads.log).map Prod.snd = s.accepted
  opened : s.table.opened.val = base.val + s.table.lost
  lost : s.table.lost.card = refusals ls

section Payments
variable [DecidableEq W] {s s' : PoolProxy W} {w : W} {limit : ℕ} {ls : List (Step W)}

theorem place_move {h : Option Handling} {p : DequeuePoint}
    (hserving : s'.serving = Function.update s.serving w h)
    (hpoint : s'.threads.point = Function.update s.threads.point w p) :
    s'.place = Function.update s.place w (h, p) := by
  funext v
  by_cases hv : v = w
  · subst hv
    simp [place, hserving, hpoint]
  · simp [place, hserving, hpoint, hv]

variable [Fintype W]

/-- A worker that moves changes the total by what it has before it. -/
theorem total_ahead {p : Option Handling × DequeuePoint}
    (hplace : s'.place = Function.update s.place w p) :
    total ahead s'.place + ahead (s.place w) = total ahead s.place + ahead p := by
  rw [hplace]
  exact total_update ahead s.place w p

theorem ahead_signalled (h : Option Handling) :
    ahead (h, .woken) ≤ ahead (h, .waiting) + 1 := by
  rcases h with _ | h
  · exact le_refl _
  · cases h <;> exact Nat.le_succ _

/-- Each event of a handler leaves it less to do. -/
theorem ahead_handler {t t' : Descriptors.Table ℤ} {h : Handling} {event : HandlerEvent}
    {after : Option Handling} (p : DequeuePoint)
    (hstep : h.step true limit t event = some (after, t')) :
    ahead (after, p) + 1 ≤ ahead (some h, p) := by
  cases h with
  | receive clientSocket =>
    cases event with
    | answered =>
      cases hstep
      exact Nat.le_of_ble_eq_true rfl
    | socket remoteSocket =>
      simp only [Handling.step] at hstep
      split at hstep
      case isTrue =>
        obtain ⟨_, _, heq⟩ := Option.map_eq_some_iff.mp hstep
        cases heq
        exact le_refl _
      case isFalse => contradiction
    | _ => contradiction
  | connect clientSocket remoteSocket =>
    cases event with
    | refused =>
      cases hstep
      exact Nat.le_of_ble_eq_true rfl
    | connected =>
      cases hstep
      exact le_refl _
    | _ => contradiction
  | relay clientSocket remoteSocketID =>
    cases event with
    | responded =>
      obtain ⟨_, _, heq⟩ := Option.map_eq_some_iff.mp hstep
      cases heq
      exact le_refl _
    | _ => contradiction
  | shutdown clientSocket =>
    cases event with
    | close =>
      obtain ⟨_, _, heq⟩ := Option.map_eq_some_iff.mp hstep
      cases heq
      cases p <;> exact Nat.le_of_ble_eq_true rfl
    | _ => contradiction

omit [DecidableEq W] in
theorem paid_start (base : Finset ℤ) : Paid [] (start base : PoolProxy W) := by
  have hahead : total ahead (start base : PoolProxy W).place = Fintype.card W := by
    have hone : ∀ w, ahead ((start base : PoolProxy W).place w) = 1 := fun _ => rfl
    simp [total, hone]
  rw [Paid, hahead]
  exact le_refl _

namespace Paid

omit [DecidableEq W] in
/-- A step that has no more before it than what it brings. -/
theorem next (h : Paid ls s) {l : Step W}
    (hcost : total ahead s'.place + s'.mainAhead + 5 * (Fifo.puts s'.threads.log).length + 1 +
        9 * s.accepted.length + 5 * (Fifo.taken s.threads.log).length ≤
      total ahead s.place + s.mainAhead + 5 * (Fifo.puts s.threads.log).length +
        9 * s'.accepted.length + 5 * (Fifo.taken s'.threads.log).length + 2 * wakeUps [l]) :
    s'.Paid (ls ++ [l]) := by
  have hwakes : wakeUps (ls ++ [l]) = wakeUps ls + wakeUps [l] := List.countP_append
  have hlength : (ls ++ [l]).length = ls.length + 1 := List.length_append
  unfold Paid at h ⊢
  omega

theorem accept (h : Paid ls s) {clientSocketId : ℤ}
    (hstep : s.step limit (.accept clientSocketId) = some s') :
    s'.Paid (ls ++ [.accept clientSocketId]) := by
  simp only [PoolProxy.step] at hstep
  split at hstep
  case isTrue hcontrol =>
    obtain ⟨_, hnone, hnode⟩ := hcontrol
    obtain ⟨table, _, hs'⟩ := Option.map_eq_some_iff.mp hstep
    have hplace : s'.place = s.place := by rw [← hs']; rfl
    have hmain : s.mainAhead = 0 := by simp [mainAhead, hnone, hnode]
    have hmain' : s'.mainAhead = 8 := by simp [mainAhead, ← hs', hnode]
    have haccepted : s'.accepted.length = s.accepted.length + 1 := by simp [← hs']
    have hlog : s'.threads.log = s.threads.log := by rw [← hs']
    apply h.next
    rw [hplace, hlog]
    omega
  case isFalse => contradiction

theorem malloc (h : Paid ls s) {newNode : ℕ}
    (hstep : s.step limit (.malloc newNode) = some s') : s'.Paid (ls ++ [.malloc newNode]) := by
  simp only [PoolProxy.step] at hstep
  split at hstep
  case h_1 => contradiction
  case h_2 fd hfd =>
    obtain ⟨threads, hthreads, hs'⟩ := Option.map_eq_some_iff.mp hstep
    cases QueueThreads.transition_of_step hthreads with
    | malloc hnode _ =>
      have hplace : s'.place = s.place := by rw [← hs']; rfl
      have hmain : s.mainAhead = 8 := by simp [mainAhead, hfd, hnode]
      have hmain' : s'.mainAhead = 7 := by
        simp [mainAhead, ← hs', QueueThreads.enter_newNode_self]
      have haccepted : s'.accepted = s.accepted := by rw [← hs']
      have hlog : s'.threads.log = s.threads.log := by rw [← hs']; rfl
      apply h.next
      rw [hplace, hlog, haccepted]
      omega

omit [DecidableEq W] in
/-- `main` links its node, and wakes at most one worker. -/
theorem linked (h : Paid ls s) {woken : Option W} {fd : ℤ} {newNode : ℕ}
    (hnode : s.threads.newNode () = some (fd, newNode))
    (hnode' : s'.threads.newNode () = none) (hclient : s'.clientSocketId = s.clientSocketId)
    (haccepted : s'.accepted = s.accepted)
    (hlog : s'.threads.log = s.threads.log ++ [.put fd])
    (hworkers : total ahead s'.place ≤ total ahead s.place + 1) :
    s'.Paid (ls ++ [.enqueue woken]) := by
  have hmain : s.mainAhead = s'.mainAhead + 7 := by simp [mainAhead, hnode, hnode', hclient]
  apply h.next
  rw [haccepted, hlog, Fifo.puts_concat_put, Fifo.taken_concat_put, List.length_append,
    List.length_singleton]
  omega

theorem enqueue (h : Paid ls s) {woken : Option W}
    (hstep : s.step limit (.enqueue woken) = some s') : s'.Paid (ls ++ [.enqueue woken]) := by
  obtain ⟨threads, hthreads, hs'⟩ := Option.map_eq_some_iff.mp hstep
  have hclient : s'.clientSocketId = s.clientSocketId := by rw [← hs']
  have haccepted : s'.accepted = s.accepted := by rw [← hs']
  cases QueueThreads.transition_of_step hthreads with
  | @enqueue _ w fd newNode q hnode hq hw =>
    have hworkers : total ahead s'.place + ahead (s.place w) =
        total ahead s.place + ahead (s.serving w, .woken) :=
      total_ahead (place_move (by rw [← hs', Function.update_eq_self]) (by rw [← hs']; rfl))
    have hmoved := ahead_signalled (s.serving w)
    rw [place, hw] at hworkers
    have hnode' : (s.threads.linked () fd q).newNode () = none :=
      QueueThreads.linked_newNode_self
    exact h.linked hnode (by rw [← hs']; exact hnode') hclient haccepted
      (by rw [← hs']; rfl) (by omega)
  | @enqueueAlone _ fd newNode q hnode hq _ =>
    have hplace : s'.place = s.place := by rw [← hs']; rfl
    have hnode' : (s.threads.linked () fd q).newNode () = none :=
      QueueThreads.linked_newNode_self
    exact h.linked hnode (by rw [← hs']; exact hnode') hclient haccepted
      (by rw [← hs']; rfl) (by rw [hplace]; omega)

theorem dequeue (h : Paid ls s) {w : W}
    (hstep : s.step limit (.dequeue w) = some s') : s'.Paid (ls ++ [.dequeue w]) := by
  simp only [PoolProxy.step] at hstep
  split at hstep
  case isTrue hidle =>
    obtain ⟨threads, hthreads, hs'⟩ := Option.map_eq_some_iff.mp hstep
    have haccepted : s'.accepted = s.accepted := by rw [← hs']; rfl
    have hawake : s.threads.point w ≠ .waiting → ahead (s.place w) = 1 := by
      intro hw
      rw [place, hidle]
      cases hpoint : s.threads.point w with
      | waiting => exact absurd hpoint hw
      | _ => rfl
    cases QueueThreads.transition_of_step hthreads with
    | wait hw hhead =>
      have hfront : front s.threads.queue = none := by
        rw [front, hhead]
        rfl
      have hplace : s'.place = Function.update s.place w (none, .waiting) :=
        place_move (by rw [← hs', hfront]; rfl) (by rw [← hs']; rfl)
      have hworkers : total ahead s'.place + 1 = total ahead s.place + 0 := by
        rw [← hawake hw]
        exact total_ahead hplace
      have hmain : s'.mainAhead = s.mainAhead := by rw [← hs']; rfl
      have hlog : s'.threads.log = s.threads.log := by rw [← hs']; rfl
      apply h.next
      rw [hmain, haccepted, hlog]
      omega
    | @dequeue _ temp fd q hw hhead hq =>
      have hfront : front s.threads.queue = some fd := by
        rw [front, hhead, Option.bind_some, hq]
        rfl
      have hplace : s'.place = Function.update s.place w (some (.receive fd), .outside) :=
        place_move (by rw [← hs', hfront]; rfl) (by rw [← hs']; rfl)
      have hworkers : total ahead s'.place + 1 = total ahead s.place + 5 := by
        rw [← hawake hw]
        exact total_ahead hplace
      have hmain : s'.mainAhead = s.mainAhead := by rw [← hs']; rfl
      have hlog : s'.threads.log = s.threads.log ++ [.take w fd] := by rw [← hs']; rfl
      apply h.next
      rw [hmain, haccepted, hlog, Fifo.puts_concat_take, Fifo.taken_concat_take,
        List.length_append, List.length_singleton]
      omega
  case isFalse => contradiction

theorem wake (h : Paid ls s) {w : W}
    (hstep : s.step limit (.wake w) = some s') : s'.Paid (ls ++ [.wake w]) := by
  obtain ⟨threads, hthreads, hs'⟩ := Option.map_eq_some_iff.mp hstep
  cases QueueThreads.transition_of_step hthreads with
  | wake hw =>
    have hworkers : total ahead s'.place + ahead (s.place w) =
        total ahead s.place + ahead (s.serving w, .woken) :=
      total_ahead (place_move (by rw [← hs', Function.update_eq_self]) (by rw [← hs']; rfl))
    have hmoved := ahead_signalled (s.serving w)
    rw [place, hw] at hworkers
    have hmain : s'.mainAhead = s.mainAhead := by rw [← hs']; rfl
    have haccepted : s'.accepted = s.accepted := by rw [← hs']
    have hlog : s'.threads.log = s.threads.log := by rw [← hs']; rfl
    have hone : wakeUps [Step.wake w] = 1 := rfl
    apply h.next
    rw [hmain, haccepted, hlog, hone]
    omega

theorem handler (h : Paid ls s) {w : W} {event : HandlerEvent}
    (hstep : s.step limit (.handler w event) = some s') :
    s'.Paid (ls ++ [.handler w event]) := by
  simp only [PoolProxy.step] at hstep
  split at hstep
  case h_1 => contradiction
  case h_2 handling hw =>
    obtain ⟨⟨after, table⟩, hhandler, hs'⟩ := Option.map_eq_some_iff.mp hstep
    have hplace : s'.place = Function.update s.place w (after, s.threads.point w) :=
      place_move (by rw [← hs']; rfl) (by rw [Function.update_eq_self, ← hs']; rfl)
    have hworkers := total_ahead hplace
    have hless := ahead_handler (s.threads.point w) hhandler
    rw [place, hw] at hworkers
    have hmain : s'.mainAhead = s.mainAhead := by rw [← hs']; rfl
    have haccepted : s'.accepted = s.accepted := by rw [← hs']; rfl
    have hlog : s'.threads.log = s.threads.log := by rw [← hs']; rfl
    apply h.next
    rw [hmain, haccepted, hlog]
    omega

theorem step (h : Paid ls s) {l : Step W} (hstep : s.step limit l = some s') :
    s'.Paid (ls ++ [l]) := by
  cases l with
  | accept clientSocketId => exact h.accept hstep
  | malloc newNode => exact h.malloc hstep
  | enqueue woken => exact h.enqueue hstep
  | dequeue w => exact h.dequeue hstep
  | wake w => exact h.wake hstep
  | handler w event => exact h.handler hstep

end Paid

end Payments

section Rest
variable [DecidableEq W] [Fintype W] {s s' : PoolProxy W} {limit : ℕ} {l : Step W}
  {base : Finset ℤ} {ls : List (Step W)} {nodes : List (ℕ × ℤ)}

/-- A step leaves the queue's threads alone or is one of theirs. -/
theorem threads_step (hstep : s.step limit l = some s') :
    s'.threads = s.threads ∨ ∃ l', QueueThreads.Transition s.threads l' s'.threads := by
  cases l with
  | accept clientSocketId =>
    simp only [PoolProxy.step] at hstep
    split at hstep
    case isTrue =>
      obtain ⟨_, _, rfl⟩ := Option.map_eq_some_iff.mp hstep
      exact Or.inl rfl
    case isFalse => contradiction
  | malloc newNode =>
    simp only [PoolProxy.step] at hstep
    split at hstep
    case h_1 => contradiction
    case h_2 =>
      obtain ⟨_, hthreads, rfl⟩ := Option.map_eq_some_iff.mp hstep
      exact Or.inr ⟨_, QueueThreads.transition_of_step hthreads⟩
  | enqueue woken =>
    obtain ⟨_, hthreads, rfl⟩ := Option.map_eq_some_iff.mp hstep
    exact Or.inr ⟨_, QueueThreads.transition_of_step hthreads⟩
  | dequeue w =>
    simp only [PoolProxy.step] at hstep
    split at hstep
    case isTrue =>
      obtain ⟨_, hthreads, rfl⟩ := Option.map_eq_some_iff.mp hstep
      exact Or.inr ⟨_, QueueThreads.transition_of_step hthreads⟩
    case isFalse => contradiction
  | wake w =>
    obtain ⟨_, hthreads, rfl⟩ := Option.map_eq_some_iff.mp hstep
    exact Or.inr ⟨_, QueueThreads.transition_of_step hthreads⟩
  | handler w event =>
    simp only [PoolProxy.step] at hstep
    split at hstep
    case h_1 => contradiction
    case h_2 =>
      obtain ⟨_, _, rfl⟩ := Option.map_eq_some_iff.mp hstep
      exact Or.inl rfl

theorem heap_enqueue {q q' : ClientQueue} {newNode : ℕ} (h : q.enqueue newNode = some q') :
    ∃ a, ∀ b, b ≠ a → q'.heap b = q.heap b := by
  unfold ClientQueue.enqueue at h
  split at h
  case h_1 =>
    cases h
    exact ⟨0, fun _ _ => rfl⟩
  case h_2 tail _ =>
    obtain ⟨node, _, rfl⟩ := Option.map_eq_some_iff.mp h
    exact ⟨tail, fun b hb => Function.update_of_ne hb _ _⟩

omit [Fintype W] in
theorem heap_step {t t' : QueueThreads Unit W} {l : QueueThreads.Step Unit W}
    (h : QueueThreads.Transition t l t') :
    ∃ a, ∀ b, b ≠ a → t'.queue.heap b = t.queue.heap b := by
  cases h with
  | @malloc p clientSocket newNode q _ halloc =>
    refine ⟨newNode, ?_⟩
    intro b hb
    unfold ClientQueue.alloc at halloc
    split at halloc
    case isTrue =>
      cases halloc
      exact Function.update_of_ne hb _ _
    case isFalse => contradiction
  | @enqueue p w clientSocket newNode q _ hq _ => exact heap_enqueue hq
  | @enqueueAlone p clientSocket newNode q _ hq _ => exact heap_enqueue hq
  | wait _ _ => exact ⟨0, fun _ _ => rfl⟩
  | @dequeue w temp clientSocket q _ _ hq =>
    refine ⟨temp, ?_⟩
    intro b hb
    obtain ⟨node, _, heq⟩ := Option.map_eq_some_iff.mp hq
    cases heq
    exact Function.update_of_ne hb _ _
  | wake _ => exact ⟨0, fun _ _ => rfl⟩

/-- No task waits for a worker that sleeps, and there are nodes to be had. -/
structure Watched (s : PoolProxy W) (nodes : List (ℕ × ℤ)) : Prop where
  queue : s.threads.Inv nodes
  attended : s.threads.Attended nodes
  finite : {a | s.threads.queue.heap a ≠ none}.Finite

omit [DecidableEq W] in
theorem watched_start (base : Finset ℤ) : Watched (start base : PoolProxy W) [] where
  queue := QueueThreads.Inv.start
  attended := fun _ => Nat.zero_le _
  finite := by
    have hempty : {a | (start base : PoolProxy W).threads.queue.heap a ≠ none} = ∅ := by
      ext a
      simp [start, QueueThreads.start, ClientQueue.create]
    rw [hempty]
    exact Set.finite_empty

theorem Watched.step (h : s.Watched nodes) (hstep : s.step limit l = some s') :
    ∃ nodes', s'.Watched nodes' := by
  rcases threads_step hstep with heq | ⟨l', htransition⟩
  · refine ⟨nodes, ?_, ?_, ?_⟩
    · rw [heq]
      exact h.queue
    · rw [heq]
      exact h.attended
    · rw [heq]
      exact h.finite
  · obtain ⟨nodes', hqueue, hattended⟩ := h.queue.step h.attended htransition
    obtain ⟨a, hsame⟩ := heap_step htransition
    refine ⟨nodes', hqueue, hattended, (h.finite.insert a).subset ?_⟩
    intro b hb
    by_cases hba : b = a
    · exact Set.mem_insert_iff.mpr (Or.inl hba)
    · refine Set.mem_insert_iff.mpr (Or.inr ?_)
      show s.threads.queue.heap b ≠ none
      rw [← hsame b hba]
      exact hb

omit [DecidableEq W] [Fintype W] in
theorem exists_event (limit : ℕ) (t : Descriptors.Table ℤ) (h : Handling) :
    ∃ event, h.Permitted limit t event := by
  cases h with
  | receive clientSocket => exact ⟨.answered, trivial⟩
  | connect clientSocket remoteSocket => exact ⟨.refused, trivial⟩
  | relay clientSocket remoteSocketID => exact ⟨.responded, trivial⟩
  | shutdown clientSocket => exact ⟨.close, trivial⟩

/-- With no step left, nobody is at work and nothing is on its way. -/
theorem Watched.drained [Nonempty W] (h : s.Watched nodes) {nodes' : List (ℕ × ℤ)}
    (hinv : s.Inv limit base ls nodes') (hrest : s.AtRest limit) : s.Drained base ls := by
  have hserving : ∀ w, s.serving w = none := by
    intro w
    by_contra hne
    obtain ⟨handling, hw⟩ := Option.ne_none_iff_exists'.mp hne
    obtain ⟨event, hevent⟩ := exists_event limit s.table handling
    have hkind := hrest (.handler w event) ⟨handling, hw, hevent⟩
    simp at hkind
  have hwaiting : ∀ w, s.threads.point w = .waiting := by
    intro w
    by_contra hne
    have hkind := hrest (.dequeue w) ⟨hserving w, hne⟩
    simp at hkind
  have hclient : s.clientSocketId = none := by
    by_contra hne
    obtain ⟨a, ha⟩ := h.finite.exists_notMem
    have hfree : s.threads.queue.heap a = none := not_not.mp ha
    have hkind := hrest (.malloc a) ⟨hne, hfree⟩
    simp at hkind
  have hnode : s.threads.newNode () = none := by
    by_contra hne
    obtain ⟨w⟩ := ‹Nonempty W›
    have hkind := hrest (.enqueue (some w))
      ⟨hne, fun v _ => hwaiting v, fun hnone => absurd hnone (Option.some_ne_none w)⟩
    simp at hkind
  have hnobody : count (· = DequeuePoint.woken) s.threads.point = 0 := by
    rw [count_eq_total]
    exact total_eq_zero (fun w => if_neg (by rw [hwaiting w]; simp))
  have hempty : nodes = [] := by
    obtain ⟨w⟩ := ‹Nonempty W›
    have hle := h.attended ⟨w, hwaiting w⟩
    rw [hnobody] at hle
    exact List.length_eq_zero_iff.mp (Nat.le_zero.mp hle)
  have hhead := h.queue.holds.chain.eq_nil_iff.mp hempty
  have hnone := hinv.queue.holds.chain.eq_nil_iff.mpr hhead
  have hpending : s.pending = [] := by
    rw [pending, hclient, hnode]
    rfl
  have hsound := hinv.sound
  rw [hnone] at hsound
  have hheld : s.held [] = 0 := by
    have htotal : total Handling.heldBy s.serving = 0 :=
      total_eq_zero (fun w => by rw [hserving w]; rfl)
    rw [held, htotal, hpending]
    rfl
  refine ⟨?_, hhead, hpending, ?_, ?_, hsound.lost⟩
  · intro w
    rw [place, hserving w, hwaiting w]
  · have horder := hsound.order
    rw [hpending] at horder
    simpa using horder
  · have hopened := hsound.opened
    rw [hheld, add_zero] at hopened
    exact hopened

/-- Whatever the order of the steps, the run is no longer than the workers, the clients
accepted and the wake-ups make it, and once it can only go on with another client or
such a wake-up, every client has been served. -/
theorem pool_drains [Nonempty W] (hbase : base.card ≤ limit)
    (hrun : Runs.run (step limit) (start base) ls = some s) :
    ls.length ≤ Fintype.card W + 9 * s.accepted.length + 2 * wakeUps ls ∧
      (s.AtRest limit → s.Drained base ls) := by
  obtain ⟨hpaid, ⟨nodes, hinv⟩, nodes', hwatched⟩ := Runs.run_invariant_of_labels (step limit)
    (fun ls s => Paid ls s ∧ (∃ nodes, Inv limit base ls s nodes) ∧ ∃ nodes, Watched s nodes)
    (fun _ _ _ _ ⟨hpaid, ⟨_, hinv⟩, _, hwatched⟩ hstep =>
      ⟨hpaid.step hstep, hinv.step hstep, hwatched.step hstep⟩) ls [] (start base) s
    ⟨paid_start base, ⟨[], Inv.start hbase⟩, [], watched_start base⟩ hrun
  rw [List.nil_append] at hpaid hinv
  refine ⟨?_, hwatched.drained hinv⟩
  have htaken := congrArg List.length (Fifo.taken_append hinv.queue.fifo)
  rw [List.length_append, List.length_map] at htaken
  unfold Paid at hpaid
  omega

/-- Two workers wait, one client is served, and all wait again. -/
theorem pool_drains_one : ∃ s : PoolProxy (Fin 2),
    Runs.run (step 8) (start {0, 1, 2, 3}) [.dequeue 0, .dequeue 1, .accept 4, .malloc 100,
      .enqueue (some 0), .dequeue 0, .handler 0 (.socket 5), .handler 0 .connected,
      .handler 0 .responded, .handler 0 .close, .dequeue 0] = some s ∧
    s.Drained {0, 1, 2, 3} [.dequeue 0, .dequeue 1, .accept 4, .malloc 100,
      .enqueue (some 0), .dequeue 0, .handler 0 (.socket 5), .handler 0 .connected,
      .handler 0 .responded, .handler 0 .close, .dequeue 0] := by
  obtain ⟨s, hrun, hserving, hpoint, hclient, hnode⟩ : ∃ s : PoolProxy (Fin 2),
      Runs.run (step 8) (start {0, 1, 2, 3}) [.dequeue 0, .dequeue 1, .accept 4, .malloc 100,
        .enqueue (some 0), .dequeue 0, .handler 0 (.socket 5), .handler 0 .connected,
        .handler 0 .responded, .handler 0 .close, .dequeue 0] = some s ∧
      (∀ w, s.serving w = none) ∧ (∀ w, s.threads.point w = .waiting) ∧
      s.clientSocketId = none ∧ s.threads.newNode () = none :=
    ⟨_, rfl, by decide, by decide, rfl, rfl⟩
  refine ⟨s, hrun, (pool_drains (by decide) hrun).2 ?_⟩
  intro l hl
  cases l with
  | accept fd => exact Or.inl ⟨fd, rfl⟩
  | malloc newNode => exact absurd hclient hl.1
  | enqueue woken => exact absurd hnode hl.1
  | dequeue w => exact absurd (hpoint w) hl.2
  | wake w => exact Or.inr ⟨w, rfl⟩
  | handler w event =>
    obtain ⟨handling, hw, _⟩ := hl
    rw [hserving w] at hw
    contradiction

end Rest

end ProxyServer.V1.PoolProxy
