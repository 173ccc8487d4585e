import Mathlib.Data.List.Basic
import Mathlib.Data.List.Infix
import Mathlib.Algebra.Group.Nat.Defs

/-!
Parts of a stream one after the other. Where of each part only the beginning is
passed on, everything is passed on when each part is. A memory is passed on in
blocks of one size; where the text in it ends at the end of the last block, or one
element before it, the text is passed on just when of each block the elements of
the text are.
-/
namespace ProxyServer.Blocks

variable {α β : Type*}

theorem length_flatMap_le {f g : α → List β} (l : List α) :
    (∀ a ∈ l, f a <+: g a) → (l.flatMap f).length ≤ (l.flatMap g).length := by
  induction l with
  | nil => exact fun _ => le_refl 0
  | cons a l ih =>
    intro hpart
    have hhead := (hpart a List.mem_cons_self).length_le
    have htail := ih (fun x hx => hpart x (List.mem_cons_of_mem a hx))
    rw [List.flatMap_cons, List.flatMap_cons, List.length_append, List.length_append]
    omega

theorem flatMap_eq_iff_of_prefix {f g : α → List β} (l : List α) :
    (∀ a ∈ l, f a <+: g a) → (l.flatMap f = l.flatMap g ↔ ∀ a ∈ l, f a = g a) := by
  induction l with
  | nil => exact fun _ => iff_of_true rfl (fun _ ha => absurd ha List.not_mem_nil)
  | cons a l ih =>
    intro hpart
    have htail := ih (fun x hx => hpart x (List.mem_cons_of_mem a hx))
    have hhead := hpart a List.mem_cons_self
    rw [List.flatMap_cons, List.flatMap_cons, List.forall_mem_cons, ← htail]
    constructor
    · intro heq
      have hlength := length_flatMap_le l (fun x hx => hpart x (List.mem_cons_of_mem a hx))
      have hsum := congrArg List.length heq
      rw [List.length_append, List.length_append] at hsum
      have hle := hhead.length_le
      have hfirst : f a = g a := hhead.eq_of_length (by omega)
      rw [hfirst] at heq
      exact ⟨hfirst, List.append_cancel_left heq⟩
    · rintro ⟨hfirst, hrest⟩
      rw [hfirst, hrest]

def block (b : ℕ) (mem : List α) (j : ℕ) : List α := (mem.drop (b * j)).take b

theorem length_block {b m j : ℕ} {mem : List α} (hlen : b * m ≤ mem.length) (hj : j < m) :
    (block b mem j).length = b := by
  have hle := Nat.mul_le_mul_left b (Nat.succ_le_of_lt hj)
  rw [Nat.mul_succ] at hle
  rw [block, List.length_take, List.length_drop]
  omega

theorem getElem_mem_block {b j r : ℕ} {mem : List α} (hr : r < mem.length)
    (hend : b * j + b = r + 1) (hb : 1 ≤ b) : mem[r] ∈ block b mem j := by
  have hindex : b * j + (b - 1) = r := by omega
  have hlast : (block b mem j)[b - 1]? = some mem[r] := by
    rw [block, List.getElem?_take_of_lt (by omega), List.getElem?_drop, hindex,
      List.getElem?_eq_getElem hr]
  exact List.mem_of_getElem? hlast

theorem length_flatMap_take_le (b : ℕ) (mem : List α) (k : ℕ → ℕ) (m : ℕ) :
    ((List.range m).flatMap (fun j => (block b mem j).take (k j))).length ≤ b * m := by
  induction m with
  | zero => exact le_refl 0
  | succ m ih =>
    have hblock : (block b mem m).length ≤ b := List.length_take_le b _
    have htake := List.length_take_le' (k m) (block b mem m)
    rw [List.range_succ, List.flatMap_append, List.flatMap_singleton, List.length_append,
      Nat.mul_succ]
    omega

theorem flatMap_take_block (b r : ℕ) (mem : List α) (m : ℕ) :
    (List.range m).flatMap (fun j => (block b mem j).take (r - b * j)) =
      mem.take (min r (b * m)) := by
  induction m with
  | zero => simp
  | succ m ih =>
    rw [List.range_succ, List.flatMap_append, ih, List.flatMap_singleton, block, List.take_take,
      Nat.mul_succ]
    by_cases hr : r ≤ b * m
    · have hzero : min (r - b * m) b = 0 := by omega
      have hmin : min r (b * m) = r ∧ min r (b * m + b) = r := by omega
      rw [hzero, List.take_zero, List.append_nil, hmin.1, hmin.2]
    · have hmin : min r (b * m) = b * m ∧ min r (b * m + b) = b * m + min (r - b * m) b := by
        omega
      rw [hmin.1, hmin.2, List.take_add]

/-- The first `k j` elements of each block make up the text, which ends at most
one element before the last block does, and that one is not of the text. -/
theorem flatMap_take_block_eq_iff {b m r : ℕ} {mem : List α} {k : ℕ → ℕ}
    (hlen : b * m ≤ mem.length) (hr : r ≤ b * m) (hend : b * m ≤ r + 1)
    (hlast : r < b * m → ∀ x, mem[r]? = some x → x ∉ mem.take r) :
    (List.range m).flatMap (fun j => (block b mem j).take (k j)) = mem.take r ↔
      ∀ j, j < m → min (k j) b = min (r - b * j) b := by
  have htext := flatMap_take_block b r mem m
  rw [Nat.min_eq_left hr] at htext
  have htake : ∀ j, j < m → ∀ n, ((block b mem j).take n).length = min n b := by
    intro j hj n
    rw [List.length_take, length_block hlen hj]
  constructor
  · intro heq
    have hpart : ∀ j ∈ List.range m,
        (block b mem j).take (k j) <+: (block b mem j).take (r - b * j) := by
      intro j hj
      have hj' := List.mem_range.mp hj
      have hblock := length_block hlen hj'
      by_cases hle : min (k j) b ≤ r - b * j
      · rw [List.take_eq_take_min, hblock]
        exact List.take_prefix_take_left (by omega)
      · have hle' := Nat.mul_le_mul_left b (Nat.succ_le_of_lt hj')
        rw [Nat.mul_succ] at hle'
        have hrlen : r < mem.length := by omega
        have hx := getElem_mem_block hrlen (by omega : b * j + b = r + 1) (by omega)
        have hwhole : (block b mem j).take (k j) = block b mem j :=
          List.take_of_length_le (by omega)
        have hmem : mem[r] ∈ mem.take r := by
          rw [← heq]
          apply List.mem_flatMap.mpr
          refine ⟨j, hj, ?_⟩
          rw [hwhole]
          exact hx
        exact absurd hmem (hlast (by omega) _ (List.getElem?_eq_getElem hrlen))
    intro j hj
    rw [← htext, flatMap_eq_iff_of_prefix _ hpart] at heq
    have hsame := congrArg List.length (heq j (List.mem_range.mpr hj))
    rw [htake j hj, htake j hj] at hsame
    exact hsame
  · intro hall
    rw [← htext]
    apply List.flatMap_congr
    intro j hj
    have hj' := List.mem_range.mp hj
    rw [List.take_eq_take_min, length_block hlen hj', hall j hj']
    rw [List.take_eq_take_min (i := r - b * j), length_block hlen hj']

end ProxyServer.Blocks
