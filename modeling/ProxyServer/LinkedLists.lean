import Mathlib.Data.List.Nodup
import Mathlib.Logic.Function.Basic
import Mathlib.Data.Option.Basic

/-!
Singly linked lists in a heap. The heap gives the node at an address, or nothing where
nothing is allocated. A chain is a list of the addresses and values met on the way from
a pointer to NULL; as the way is determined by the heap, no address is met twice, and
a heap that agrees on the addresses of a chain has the same chain.
-/
namespace ProxyServer.LinkedLists

structure Node (A V : Type*) where
  value : V
  next : Option A
  deriving DecidableEq

abbrev Heap (A V : Type*) := A → Option (Node A V)

variable {A V : Type*}

/-- The nodes from the pointer on, to the NULL at the end. -/
def Chain (heap : Heap A V) : Option A → List (A × V) → Prop
  | p, [] => p = none
  | p, (a, v) :: rest =>
      p = some a ∧ ∃ next, heap a = some ⟨v, next⟩ ∧ Chain heap next rest

/-- The node is met on the way from the pointer. -/
inductive Reaches (heap : Heap A V) : Option A → A → Prop
  | here {a : A} {node : Node A V} : heap a = some node → Reaches heap (some a) a
  | next {a b : A} {node : Node A V} : heap a = some node → Reaches heap node.next b →
      Reaches heap (some a) b

/-- The node is the last one on the way from the pointer. -/
def IsLast (heap : Heap A V) (p : Option A) (a : A) : Prop :=
  Reaches heap p a ∧ ∃ v, heap a = some ⟨v, none⟩

namespace Chain

variable {heap heap' : Heap A V} {p : Option A} {l : List (A × V)}

theorem of_none (h : Chain heap none l) : l = [] := by
  cases l with
  | nil => rfl
  | cons x rest => exact absurd h.1.symm (Option.some_ne_none _)

/-- A pointer that is not NULL points to the first node. -/
theorem of_some {a : A} (h : Chain heap (some a) l) :
    ∃ v next rest, l = (a, v) :: rest ∧ heap a = some ⟨v, next⟩ ∧ Chain heap next rest := by
  cases l with
  | nil => exact absurd h (Option.some_ne_none a)
  | cons x rest =>
    obtain ⟨b, v⟩ := x
    obtain ⟨hp, next, hnode, hrest⟩ := h
    cases hp
    exact ⟨v, next, rest, rfl, hnode, hrest⟩

theorem eq_nil_iff (h : Chain heap p l) : l = [] ↔ p = none := by
  constructor
  · rintro rfl
    exact h
  · rintro rfl
    exact h.of_none

theorem unique {l' : List (A × V)} (h : Chain heap p l) : Chain heap p l' → l = l' := by
  induction l generalizing p l' with
  | nil =>
    intro h'
    cases h
    exact h'.of_none.symm
  | cons x rest ih =>
    intro h'
    obtain ⟨a, v⟩ := x
    obtain ⟨rfl, next, hnode, hrest⟩ := h
    obtain ⟨v', next', rest', rfl, hnode', hrest'⟩ := h'.of_some
    rw [hnode] at hnode'
    cases hnode'
    rw [ih hrest hrest']

/-- The node of each member, and the chain from it. -/
theorem suffix_of_mem {a : A} (h : Chain heap p l) (ha : a ∈ l.map Prod.fst) :
    ∃ front rest, l = front ++ rest ∧ Chain heap (some a) rest := by
  induction l generalizing p with
  | nil => exact absurd ha List.not_mem_nil
  | cons x rest ih =>
    obtain ⟨b, v⟩ := x
    rcases List.mem_cons.mp ha with rfl | ha
    · exact ⟨[], (a, v) :: rest, rfl, rfl, h.2⟩
    · obtain ⟨_, next, _, hrest⟩ := h
      obtain ⟨front, back, rfl, hback⟩ := ih hrest ha
      exact ⟨(b, v) :: front, back, rfl, hback⟩

/-- No address is met twice, since the chain from it would be as long as a part of
itself. -/
theorem nodup (h : Chain heap p l) : (l.map Prod.fst).Nodup := by
  induction l generalizing p with
  | nil => exact List.nodup_nil
  | cons x rest ih =>
    obtain ⟨a, v⟩ := x
    obtain ⟨_, next, hnode, hrest⟩ := h
    rw [List.map_cons, List.nodup_cons]
    refine ⟨?_, ih hrest⟩
    intro hmem
    obtain ⟨front, back, rfl, hback⟩ := hrest.suffix_of_mem hmem
    have hwhole : Chain heap (some a) ((a, v) :: (front ++ back)) := ⟨rfl, next, hnode, hrest⟩
    have hlength := congrArg List.length (hwhole.unique hback)
    rw [List.length_cons, List.length_append] at hlength
    omega

theorem allocated {a : A} (h : Chain heap p l) (ha : a ∈ l.map Prod.fst) : heap a ≠ none := by
  obtain ⟨front, rest, _, hrest⟩ := h.suffix_of_mem ha
  obtain ⟨v, next, rest', _, hnode, _⟩ := hrest.of_some
  rw [hnode]
  exact Option.some_ne_none _

/-- What happens elsewhere in the heap leaves the chain. -/
theorem frame (h : Chain heap p l) (hsame : ∀ a ∈ l.map Prod.fst, heap' a = heap a) :
    Chain heap' p l := by
  induction l generalizing p with
  | nil => exact h
  | cons x rest ih =>
    obtain ⟨a, v⟩ := x
    obtain ⟨hp, next, hnode, hrest⟩ := h
    rw [List.map_cons] at hsame
    refine ⟨hp, next, ?_, ih hrest (fun b hb => hsame b (List.mem_cons_of_mem _ hb))⟩
    rw [hsame a List.mem_cons_self, hnode]

theorem reaches {a : A} (h : Chain heap p l) : Reaches heap p a ↔ a ∈ l.map Prod.fst := by
  induction l generalizing p with
  | nil =>
    cases h
    exact iff_of_false (fun hreach => nomatch hreach) List.not_mem_nil
  | cons x rest ih =>
    obtain ⟨b, v⟩ := x
    obtain ⟨rfl, next, hnode, hrest⟩ := h
    rw [List.map_cons, List.mem_cons, ← ih hrest]
    constructor
    · rintro (hhere | ⟨hnode', hreach⟩)
      · exact Or.inl rfl
      · rw [hnode] at hnode'
        cases hnode'
        exact Or.inr hreach
    · rintro (rfl | hreach)
      · exact Reaches.here hnode
      · exact Reaches.next hnode hreach

section Last

variable {a b : A} {v w : V}

theorem last_node (h : Chain heap p (l ++ [(a, v)])) : heap a = some ⟨v, none⟩ := by
  induction l generalizing p with
  | nil =>
    obtain ⟨_, next, hnode, hrest⟩ := h
    cases hrest
    exact hnode
  | cons x rest ih =>
    obtain ⟨_, next, _, hrest⟩ := h
    exact ih hrest

theorem isLast (h : Chain heap p (l ++ [(a, v)])) : IsLast heap p a := by
  refine ⟨h.reaches.mpr ?_, v, h.last_node⟩
  rw [List.map_append]
  exact List.mem_append_right _ List.mem_cons_self

variable [DecidableEq A]

theorem update (h : Chain heap p l) (ha : a ∉ l.map Prod.fst) (node : Option (Node A V)) :
    Chain (Function.update heap a node) p l := by
  apply h.frame
  intro b hb
  have hba : b ≠ a := by
    rintro rfl
    exact ha hb
  exact Function.update_of_ne hba _ _

theorem concat (h : Chain heap p (l ++ [(a, v)])) (hb : b ∉ (l ++ [(a, v)]).map Prod.fst)
    (hnode : heap b = some ⟨w, none⟩) :
    Chain (Function.update heap a (some ⟨v, some b⟩)) p (l ++ [(a, v)] ++ [(b, w)]) := by
  have hab : b ≠ a := by
    rintro rfl
    apply hb
    rw [List.map_append]
    exact List.mem_append_right _ List.mem_cons_self
  have hnodup := h.nodup
  induction l generalizing p with
  | nil =>
    refine ⟨h.1, some b, Function.update_self _ _ _, rfl, none, ?_, rfl⟩
    rw [Function.update_of_ne hab, hnode]
  | cons x rest ih =>
    obtain ⟨c, u⟩ := x
    obtain ⟨hp, next, hc, hrest⟩ := h
    rw [List.cons_append, List.map_cons] at hb hnodup
    obtain ⟨hcnot, hnodup⟩ := List.nodup_cons.mp hnodup
    have hca : c ≠ a := by
      rintro rfl
      apply hcnot
      rw [List.map_append]
      exact List.mem_append_right _ List.mem_cons_self
    refine ⟨hp, next, ?_, ih hrest (fun hmem => hb (List.mem_cons_of_mem _ hmem)) hnodup⟩
    rw [Function.update_of_ne hca, hc]

/-- The first node is freed, and the pointer set to the next one. -/
theorem tail (h : Chain heap p ((a, v) :: l)) : ∃ next, heap a = some ⟨v, next⟩ ∧
    Chain (Function.update heap a none) next l := by
  have hnodup := h.nodup
  obtain ⟨_, next, hnode, hrest⟩ := h
  exact ⟨next, hnode, hrest.update (List.nodup_cons.mp hnodup).1 none⟩

end Last

end Chain

end ProxyServer.LinkedLists
