import ProxyServer.Runs

/-!
A first-in first-out queue and its histories. An operation puts a value in, or is a
take with what it has answered and whom; a history is one of the queue when each take
answers the value at the front. The takes of a history then answer the values put in,
in their order and each once, and the rest of these is the queue.
-/
namespace ProxyServer.Fifo

variable {W V : Type*}

inductive Op (W V : Type*)
  | put (v : V)
  | take (w : W) (v : V)
  deriving DecidableEq, Repr

def step [DecidableEq V] (q : List V) : Op W V → Option (List V)
  | .put v => some (q ++ [v])
  | .take _ v => if q.head? = some v then some q.tail else none

def puts (ops : List (Op W V)) : List V :=
  ops.filterMap (fun op => match op with
    | .put v => some v
    | .take _ _ => none)

def taken (ops : List (Op W V)) : List (W × V) :=
  ops.filterMap (fun op => match op with
    | .put _ => none
    | .take w v => some (w, v))

@[simp] theorem puts_concat_put (ops : List (Op W V)) (v : V) :
    puts (ops ++ [.put v]) = puts ops ++ [v] := List.filterMap_append

@[simp] theorem puts_concat_take (ops : List (Op W V)) (w : W) (v : V) :
    puts (ops ++ [.take w v]) = puts ops := by
  rw [puts, List.filterMap_append]
  exact List.append_nil _

@[simp] theorem taken_concat_put (ops : List (Op W V)) (v : V) :
    taken (ops ++ [.put v]) = taken ops := by
  rw [taken, List.filterMap_append]
  exact List.append_nil _

@[simp] theorem taken_concat_take (ops : List (Op W V)) (w : W) (v : V) :
    taken (ops ++ [.take w v]) = taken ops ++ [(w, v)] := List.filterMap_append

variable [DecidableEq V]

theorem run_put {ops : List (Op W V)} {q : List V} (h : Runs.run step [] ops = some q) (v : V) :
    Runs.run step [] (ops ++ [.put v]) = some (q ++ [v]) := by
  rw [Runs.run_concat, h]
  rfl

theorem run_take {ops : List (Op W V)} {q : List V} {v : V}
    (h : Runs.run step [] ops = some (v :: q)) (w : W) :
    Runs.run step [] (ops ++ [.take w v]) = some q := by
  rw [Runs.run_concat, h]
  exact if_pos rfl

/-- What has been taken, and then what is in the queue, is what was put in. -/
theorem taken_append {ops : List (Op W V)} {q : List V} (h : Runs.run step [] ops = some q) :
    (taken ops).map Prod.snd ++ q = puts ops := by
  refine Runs.run_invariant_of_labels step
    (fun ops q => (taken ops).map Prod.snd ++ q = puts ops) ?_ ops [] [] q rfl h
  intro ops q op q' hq hstep
  cases op with
  | put v =>
    cases hstep
    rw [puts_concat_put, taken_concat_put, ← hq, List.append_assoc]
  | take w v =>
    rw [step] at hstep
    split at hstep
    case isTrue hfront =>
      cases hstep
      obtain ⟨rest, rfl⟩ := List.head?_eq_some_iff.mp hfront
      rw [puts_concat_take, taken_concat_take, ← hq, List.map_append, List.append_assoc]
      rfl
    case isFalse => contradiction

end ProxyServer.Fifo
