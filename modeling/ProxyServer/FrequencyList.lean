import ProxyServer.CacheElement
import Mathlib.Data.List.Perm.Basic
import Mathlib.Data.List.InsertIdx

/-!
The list of frequency nodes of the LFU cache. A node is named by its address,
an element by the address it was made at. The operations on the list are the
ones the code uses: look a node up, insert an empty one, change the elements of
one node, erase an empty one. What each does to the elements of the whole list,
and to the node each of them sits in, is stated once here.
-/
namespace ProxyServer

/-- The frequency is an `int` in the source. It is at most the number of calls
(`LFUCache.frequency_le_length`), so `frequency + 1` overflows in no shorter run than
one of `2 ^ 31 - 1` calls, which is not followed. -/
structure FrequencyNode where
  addr : ℕ
  frequency : ℕ
  elements : List CacheElement
  deriving DecidableEq, Repr

namespace FrequencyList

open CacheElement

abbrev Nodes := List FrequencyNode

def elements (l : Nodes) : List CacheElement := l.flatMap (·.elements)

/-- Element `e` is in the list of the node at address `n`. -/
def Sits (l : Nodes) (e : CacheElement) (n : ℕ) : Prop :=
  ∃ node ∈ l, node.addr = n ∧ e ∈ node.elements

def nodeAt (l : Nodes) (n : ℕ) : Option FrequencyNode := l.find? (fun node => node.addr == n)

def atNode (l : Nodes) (n : ℕ) (f : List CacheElement → List CacheElement) : Nodes :=
  l.map (fun node => if node.addr = n then { node with elements := f node.elements } else node)

def eraseNode (l : Nodes) (n : ℕ) : Nodes := l.filter (fun node => node.addr != n)

def frontIs (l : Nodes) (n : ℕ) : Bool := l.head?.any (fun node => node.addr == n)

/-- The test for pruning: an empty node that is not the front one is erased. -/
def prune (l : Nodes) (n : ℕ) : Nodes :=
  if (nodeAt l n).any (fun node => node.elements.isEmpty) ∧ ¬ frontIs l n
  then eraseNode l n else l

theorem mem_elements {l : Nodes} {e : CacheElement} :
    e ∈ elements l ↔ ∃ n, Sits l e n := by
  simp only [elements, Sits, List.mem_flatMap]
  constructor
  · intro h
    obtain ⟨node, hnode, he⟩ := h
    exact ⟨node.addr, node, hnode, rfl, he⟩
  · intro h
    obtain ⟨n, node, hnode, _, he⟩ := h
    exact ⟨node, hnode, he⟩

theorem eq_of_addr {l : Nodes} (h : (l.map (·.addr)).Nodup) {m n : FrequencyNode}
    (hm : m ∈ l) (hn : n ∈ l) (haddr : m.addr = n.addr) : m = n :=
  List.inj_on_of_nodup_map h hm hn haddr

theorem mem_of_nodeAt {l : Nodes} {n : ℕ} {node : FrequencyNode}
    (h : nodeAt l n = some node) : node ∈ l ∧ node.addr = n := by
  refine ⟨List.mem_of_find?_eq_some h, ?_⟩
  simpa using List.find?_some h

theorem nodeAt_of_mem {l : Nodes} (h : (l.map (·.addr)).Nodup) {node : FrequencyNode}
    (hnode : node ∈ l) : nodeAt l node.addr = some node := by
  cases hn : nodeAt l node.addr with
  | none =>
    have hnot := List.find?_eq_none.mp hn node hnode
    simp at hnot
  | some m =>
    obtain ⟨hm, haddr⟩ := mem_of_nodeAt hn
    exact congrArg some (eq_of_addr h hm hnode haddr)

@[simp] theorem map_addr_atNode (l : Nodes) (n : ℕ) (f : List CacheElement → List CacheElement) :
    (atNode l n f).map (·.addr) = l.map (·.addr) := by
  simp only [atNode, List.map_map]
  apply List.map_congr_left
  intro node _
  simp only [Function.comp_apply]
  split <;> rfl

/-- Only the elements of the changed node change. -/
theorem sits_atNode {l : Nodes} {n : ℕ} {f : List CacheElement → List CacheElement}
    {e : CacheElement} {m : ℕ} :
    Sits (atNode l n f) e m ↔
      (m = n ∧ ∃ node ∈ l, node.addr = n ∧ e ∈ f node.elements) ∨ (m ≠ n ∧ Sits l e m) := by
  simp only [Sits, atNode, List.mem_map]
  constructor
  · intro h
    obtain ⟨node', ⟨node, hnode, rfl⟩, haddr, he⟩ := h
    by_cases hn : node.addr = n
    · rw [if_pos hn] at haddr he
      exact Or.inl ⟨haddr.symm.trans hn, node, hnode, hn, he⟩
    · rw [if_neg hn] at haddr he
      exact Or.inr ⟨haddr ▸ hn, node, hnode, haddr, he⟩
  · intro h
    rcases h with ⟨rfl, node, hnode, haddr, he⟩ | ⟨hne, node, hnode, haddr, he⟩
    · refine ⟨_, ⟨node, hnode, rfl⟩, ?_⟩
      rw [if_pos haddr]
      exact ⟨haddr, he⟩
    · refine ⟨_, ⟨node, hnode, rfl⟩, ?_⟩
      rw [if_neg (haddr ▸ hne)]
      exact ⟨haddr, he⟩

theorem atNode_of_ne {l : Nodes} {n : ℕ} (f : List CacheElement → List CacheElement)
    (h : ∀ node ∈ l, node.addr ≠ n) : atNode l n f = l := by
  have hid : atNode l n f = l.map id :=
    List.map_congr_left (fun node hnode => if_neg (h node hnode))
  rw [hid, List.map_id]

/-- Up to order, changing a node replaces its elements and keeps the others. -/
theorem atNode_perm {l : Nodes} (h : (l.map (·.addr)).Nodup) {node : FrequencyNode}
    (hnode : node ∈ l) (f : List CacheElement → List CacheElement) :
    ∃ rest : Nodes, (elements l).Perm (node.elements ++ elements rest) ∧
      (elements (atNode l node.addr f)).Perm (f node.elements ++ elements rest) := by
  obtain ⟨s, t, rfl⟩ := List.append_of_mem hnode
  have hperm : (s ++ node :: t).Perm (node :: (s ++ t)) := List.perm_middle
  have hother : ∀ m ∈ s ++ t, m.addr ≠ node.addr := by
    have hnodup := (hperm.map (·.addr)).nodup_iff.mp h
    rw [List.map_cons, List.nodup_cons] at hnodup
    intro m hm haddr
    exact hnodup.1 (haddr ▸ List.mem_map_of_mem hm)
  refine ⟨s ++ t, hperm.flatMap_right _, ?_⟩
  have hmap : (atNode (s ++ node :: t) node.addr f).Perm
      (atNode (node :: (s ++ t)) node.addr f) := hperm.map _
  have hcons : atNode (node :: (s ++ t)) node.addr f =
      { node with elements := f node.elements } :: (s ++ t) := by
    rw [atNode, List.map_cons, if_pos rfl]
    exact congrArg _ (atNode_of_ne f hother)
  rw [hcons] at hmap
  exact hmap.flatMap_right _

theorem seat_unique {l : Nodes} (hptr : ((elements l).map (·.ptr)).Nodup) {e : CacheElement}
    {m n : ℕ} (hm : Sits l e m) (hn : Sits l e n) : m = n := by
  obtain ⟨a, ha, rfl, hea⟩ := hm
  obtain ⟨b, hb, rfl, heb⟩ := hn
  have hnodup : (l.flatMap (·.elements)).Nodup := List.Nodup.of_map _ hptr
  have hdisjoint := (List.nodup_flatMap.mp hnodup).2
  by_cases hab : a = b
  · rw [hab]
  · have hsymm : Std.Symm (Function.onFun List.Disjoint (fun n : FrequencyNode => n.elements)) :=
      ⟨fun x y hxy => List.Disjoint.symm hxy⟩
    exact absurd heb (hdisjoint.forall ha hb hab hea)

/-- Unlinking an element from its node takes it, and nothing else, from its
seat. -/
theorem sits_unlink {l : Nodes} (hptr : ((elements l).map (·.ptr)).Nodup)
    {node : FrequencyNode} (hnode : node ∈ l)
    {e : CacheElement} (he : e ∈ node.elements) {x : CacheElement} {k : ℕ} :
    Sits (atNode l node.addr (fun es => unlink es e.ptr)) x k ↔ Sits l x k ∧ x ≠ e := by
  have hseat : Sits l e node.addr := ⟨node, hnode, rfl, he⟩
  rw [sits_atNode]
  constructor
  · intro h
    rcases h with ⟨rfl, m, hm, hma, hx⟩ | ⟨hne, hx⟩
    · obtain ⟨hxm, hxp⟩ := mem_unlink.mp hx
      exact ⟨⟨m, hm, hma, hxm⟩, fun heq => hxp (by rw [heq])⟩
    · refine ⟨hx, ?_⟩
      rintro rfl
      exact hne (seat_unique hptr hx hseat)
  · intro h
    obtain ⟨hx, hxe⟩ := h
    by_cases hk : k = node.addr
    · obtain ⟨m, hm, hma, hxm⟩ := hx
      refine Or.inl ⟨hk, m, hm, hma.trans hk, mem_unlink.mpr ⟨hxm, ?_⟩⟩
      intro hp
      exact hxe (eq_of_ptr hptr (mem_elements.mpr ⟨_, m, hm, rfl, hxm⟩)
        (mem_elements.mpr ⟨_, hseat⟩) hp)
    · exact Or.inr ⟨hk, hx⟩

/-- Pushing an element on a node of the list seats it there. -/
theorem sits_push {l : Nodes} {node : FrequencyNode} (hnode : node ∈ l)
    {e x : CacheElement} {k : ℕ} :
    Sits (atNode l node.addr (fun es => e :: es)) x k ↔
      (x = e ∧ k = node.addr) ∨ Sits l x k := by
  rw [sits_atNode]
  constructor
  · intro h
    rcases h with ⟨rfl, m, hm, hma, hx⟩ | ⟨_, hx⟩
    · rcases List.mem_cons.mp hx with rfl | hx
      · exact Or.inl ⟨rfl, rfl⟩
      · exact Or.inr ⟨m, hm, hma, hx⟩
    · exact Or.inr hx
  · intro h
    by_cases hk : k = node.addr
    · rcases h with ⟨rfl, _⟩ | ⟨m, hm, hma, hx⟩
      · exact Or.inl ⟨hk, node, hnode, rfl, List.mem_cons_self⟩
      · exact Or.inl ⟨hk, m, hm, hma.trans hk, List.mem_cons_of_mem _ hx⟩
    · rcases h with ⟨_, hn⟩ | hx
      · exact absurd hn hk
      · exact Or.inr ⟨hk, hx⟩

theorem unlink_perm {es : List CacheElement} (h : (es.map (·.ptr)).Nodup) {e : CacheElement}
    (he : e ∈ es) : es.Perm (e :: unlink es e.ptr) := by
  have hnodup : es.Nodup := List.Nodup.of_map _ h
  have heq : unlink es e.ptr = es.filter (fun x => x != e) := by
    apply List.filter_congr
    intro x hx
    rw [Bool.eq_iff_iff, bne_iff_ne, bne_iff_ne, not_iff_not]
    exact ⟨fun hp => eq_of_ptr h hx he hp, fun hxe => by rw [hxe]⟩
  rw [heq, ← hnodup.erase_eq_filter]
  exact List.perm_cons_erase he

/-- Unlinking an element from its node removes it from the whole list. -/
theorem elements_unlink {l : Nodes} (haddr : (l.map (·.addr)).Nodup)
    (hptr : ((elements l).map (·.ptr)).Nodup) {node : FrequencyNode} (hnode : node ∈ l)
    {e : CacheElement} (he : e ∈ node.elements) :
    (elements l).Perm (e :: elements (atNode l node.addr (fun es => unlink es e.ptr))) := by
  obtain ⟨rest, hl, hl'⟩ := atNode_perm haddr hnode (fun es => unlink es e.ptr)
  have hnodup : (node.elements.map (·.ptr)).Nodup := by
    have hp := (hl.map (·.ptr)).nodup_iff.mp hptr
    rw [List.map_append] at hp
    exact (List.nodup_append.mp hp).1
  refine hl.trans ?_
  refine List.Perm.trans ?_ (hl'.symm.cons e)
  exact (unlink_perm hnodup he).append_right _

theorem elements_push {l : Nodes} (haddr : (l.map (·.addr)).Nodup) {node : FrequencyNode}
    (hnode : node ∈ l) (e : CacheElement) :
    (elements (atNode l node.addr (fun es => e :: es))).Perm (e :: elements l) := by
  obtain ⟨rest, hl, hl'⟩ := atNode_perm haddr hnode (fun es => e :: es)
  exact hl'.trans (hl.symm.cons e)

theorem elements_insertIdx {l : Nodes} {i : ℕ} (hi : i ≤ l.length) (n frequency : ℕ) :
    (elements (l.insertIdx i ⟨n, frequency, []⟩)).Perm (elements l) :=
  (List.perm_insertIdx _ l hi).flatMap_right _

theorem sits_insertIdx {l : Nodes} {i : ℕ} (hi : i ≤ l.length) (n frequency : ℕ)
    {e : CacheElement} {m : ℕ} :
    Sits (l.insertIdx i ⟨n, frequency, []⟩) e m ↔ Sits l e m := by
  simp only [Sits, List.mem_insertIdx hi]
  constructor
  · intro h
    obtain ⟨node, hnode, haddr, he⟩ := h
    rcases hnode with rfl | hnode
    · simp at he
    · exact ⟨node, hnode, haddr, he⟩
  · intro h
    obtain ⟨node, hnode, haddr, he⟩ := h
    exact ⟨node, Or.inr hnode, haddr, he⟩

theorem sits_eraseNode {l : Nodes} {n : ℕ} (hempty : ∀ e, ¬ Sits l e n) {e : CacheElement}
    {m : ℕ} : Sits (eraseNode l n) e m ↔ Sits l e m := by
  simp only [Sits, eraseNode, List.mem_filter, bne_iff_ne]
  constructor
  · intro h
    obtain ⟨node, hnode, haddr, he⟩ := h
    exact ⟨node, hnode.1, haddr, he⟩
  · intro h
    obtain ⟨node, hnode, haddr, he⟩ := h
    refine ⟨node, ⟨hnode, ?_⟩, haddr, he⟩
    intro hn
    exact hempty e ⟨node, hnode, hn, he⟩

theorem elements_eraseNode {l : Nodes} {n : ℕ} (hempty : ∀ e, ¬ Sits l e n) :
    elements (eraseNode l n) = elements l := by
  induction l with
  | nil => rfl
  | cons node l ih =>
    have hrest : ∀ e, ¬ Sits l e n := by
      intro e he
      obtain ⟨m, hm, haddr, hmem⟩ := he
      exact hempty e ⟨m, List.mem_cons_of_mem _ hm, haddr, hmem⟩
    have hl := ih hrest
    by_cases hn : node.addr = n
    · have hnil : node.elements = [] := by
        rw [List.eq_nil_iff_forall_not_mem]
        exact fun e he => hempty e ⟨node, List.mem_cons_self, hn, he⟩
      simp only [elements, eraseNode] at hl ⊢
      simp [hn, hnil, hl]
    · simp only [elements, eraseNode] at hl ⊢
      simp [hn, hl]

/-- Pruning removes no element, never the front node, and at most one node. -/
theorem prune_cases {l : Nodes} (haddr : (l.map (·.addr)).Nodup) (n : ℕ) :
    prune l n = l ∨ (prune l n = eraseNode l n ∧ (∀ e, ¬ Sits l e n) ∧
      ∃ front rest, l = front :: rest ∧ front.addr ≠ n) := by
  unfold prune
  split
  · rename_i h
    obtain ⟨hempty, hfront⟩ := h
    right
    cases hn : nodeAt l n with
    | none => simp [hn] at hempty
    | some node =>
      simp only [hn, Option.any_some, List.isEmpty_iff] at hempty
      obtain ⟨hnode, rfl⟩ := mem_of_nodeAt hn
      refine ⟨rfl, ?_, ?_⟩
      · intro e he
        obtain ⟨m, hm, hma, hme⟩ := he
        rw [eq_of_addr haddr hm hnode hma, hempty] at hme
        simp at hme
      · cases l with
        | nil => simp at hnode
        | cons front rest =>
          refine ⟨front, rest, rfl, ?_⟩
          simpa [frontIs] using hfront
  · exact Or.inl rfl

theorem sits_prune {l : Nodes} (haddr : (l.map (·.addr)).Nodup) {n : ℕ} {e : CacheElement}
    {m : ℕ} : Sits (prune l n) e m ↔ Sits l e m := by
  rcases prune_cases haddr n with h | ⟨h, hempty, _⟩
  · rw [h]
  · rw [h, sits_eraseNode hempty]

theorem elements_prune {l : Nodes} (haddr : (l.map (·.addr)).Nodup) (n : ℕ) :
    elements (prune l n) = elements l := by
  rcases prune_cases haddr n with h | ⟨h, hempty, _⟩
  · rw [h]
  · rw [h, elements_eraseNode hempty]

theorem prune_sublist {l : Nodes} (n : ℕ) : (prune l n).Sublist l := by
  unfold prune
  split
  · exact List.filter_sublist
  · exact List.Sublist.refl l

theorem head?_prune {l : Nodes} (haddr : (l.map (·.addr)).Nodup) (n : ℕ) :
    (prune l n).head? = l.head? := by
  rcases prune_cases haddr n with h | ⟨h, _, front, rest, rfl, hfront⟩
  · rw [h]
  · rw [h]
    simp [eraseNode, hfront]

end FrequencyList

end ProxyServer
