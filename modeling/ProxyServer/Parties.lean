import Mathlib.Algebra.BigOperators.Group.Finset.Basic
import Mathlib.Algebra.Order.BigOperators.Group.Finset
import Mathlib.Data.Fintype.BigOperators

/-!
Systems of finitely many parties, each at a point of its program. What a party
holds is a function of its point, with values in any commutative monoid: a
number of permits, a multiset of tasks. When one party moves, the total of all
of them changes by what the move changes, and this is all an invariant of the
system needs to know of the others.
-/
namespace ProxyServer.Parties

open Finset

variable {W P M : Type*} [Fintype W]

/-- What all parties hold. -/
def total [AddCommMonoid M] (holds : P → M) (point : W → P) : M := ∑ w, holds (point w)

/-- The number of parties at points of a kind. -/
def count (kind : P → Prop) [DecidablePred kind] (point : W → P) : ℕ :=
  (univ.filter (fun w => kind (point w))).card

theorem count_eq_total (kind : P → Prop) [DecidablePred kind] (point : W → P) :
    count kind point = total (fun p => if kind p then 1 else 0) point :=
  card_filter _ _

theorem total_eq_zero [AddCommMonoid M] {holds : P → M} {point : W → P}
    (h : ∀ w, holds (point w) = 0) : total holds point = 0 :=
  sum_eq_zero (fun w _ => h w)

theorem total_congr [AddCommMonoid M] {holds : P → M} {point point' : W → P}
    (h : ∀ w, holds (point' w) = holds (point w)) : total holds point' = total holds point :=
  sum_congr rfl (fun w _ => h w)

theorem total_le {holds : P → ℕ} {k : ℕ} (h : ∀ p, holds p ≤ k) (point : W → P) :
    total holds point ≤ Fintype.card W * k :=
  calc total holds point ≤ ∑ _w : W, k := sum_le_sum (fun w _ => h (point w))
    _ = Fintype.card W * k := sum_const_nat (fun _ _ => rfl)

theorem count_le_card (kind : P → Prop) [DecidablePred kind] (point : W → P) :
    count kind point ≤ Fintype.card W :=
  card_le_univ _

theorem count_lt_card {kind : P → Prop} [DecidablePred kind] {point : W → P} {w : W}
    (h : ¬ kind (point w)) : count kind point < Fintype.card W := by
  apply card_lt_univ_of_notMem
  show w ∉ univ.filter (fun v => kind (point v))
  simp [h]

theorem count_eq_card {kind : P → Prop} [DecidablePred kind] {point : W → P}
    (h : ∀ w, kind (point w)) : count kind point = Fintype.card W := by
  rw [count, filter_true_of_mem (fun w _ => h w), card_univ]

section Move
variable [DecidableEq W]

theorem total_update [AddCommMonoid M] (holds : P → M) (point : W → P) (w : W) (p : P) :
    total holds (Function.update point w p) + holds (point w) =
      total holds point + holds p := by
  have hrest : ∑ v ∈ univ.erase w, holds (Function.update point w p v) =
      ∑ v ∈ univ.erase w, holds (point v) := by
    apply sum_congr rfl
    intro v hv
    rw [Function.update_of_ne (ne_of_mem_erase hv)]
  have hnew := add_sum_erase univ (fun v => holds (Function.update point w p v)) (mem_univ w)
  have hold := add_sum_erase univ (fun v => holds (point v)) (mem_univ w)
  simp only [Function.update_self] at hnew
  rw [total, total, ← hnew, ← hold, hrest]
  ac_rfl

/-- What the others hold does not depend on where the party is. -/
theorem total_split [AddCommMonoid M] (holds : P → M) (point : W → P) (w : W) :
    ∃ others, total holds point = holds (point w) + others ∧
      ∀ p, total holds (Function.update point w p) = holds p + others := by
  have hsplit := fun point : W → P =>
    (add_sum_erase univ (fun v => holds (point v)) (mem_univ w)).symm
  refine ⟨∑ v ∈ univ.erase w, holds (point v), hsplit point, fun p => ?_⟩
  have hrest : ∑ v ∈ univ.erase w, holds (Function.update point w p v) =
      ∑ v ∈ univ.erase w, holds (point v) := by
    apply sum_congr rfl
    intro v hv
    rw [Function.update_of_ne (ne_of_mem_erase hv)]
  rw [total, hsplit, Function.update_self, hrest]

theorem total_update_of_eq [AddCommMonoid M] {holds : P → M} {point : W → P} {w : W} {p : P}
    (h : holds p = holds (point w)) :
    total holds (Function.update point w p) = total holds point := by
  apply total_congr
  intro v
  by_cases hv : v = w
  · subst hv
    rw [Function.update_self, h]
  · rw [Function.update_of_ne hv]

/-- A move between points that are both of a kind, or both not, keeps the
number. -/
theorem count_update_of_iff {kind : P → Prop} [DecidablePred kind] {point : W → P} {w : W}
    {p : P} (h : kind p ↔ kind (point w)) :
    count kind (Function.update point w p) = count kind point := by
  rw [count_eq_total, count_eq_total]
  exact total_update_of_eq (if_congr h rfl rfl)

theorem count_update_enter {kind : P → Prop} [DecidablePred kind] {point : W → P} {w : W}
    {p : P} (hw : ¬ kind (point w)) (hp : kind p) :
    count kind (Function.update point w p) = count kind point + 1 := by
  have hmove := total_update (fun p => if kind p then 1 else 0) point w p
  rw [← count_eq_total, ← count_eq_total, if_neg hw, if_pos hp] at hmove
  exact hmove

theorem count_update_leave {kind : P → Prop} [DecidablePred kind] {point : W → P} {w : W}
    {p : P} (hw : kind (point w)) (hp : ¬ kind p) :
    count kind (Function.update point w p) + 1 = count kind point := by
  have hmove := total_update (fun p => if kind p then 1 else 0) point w p
  rw [← count_eq_total, ← count_eq_total, if_pos hw, if_neg hp] at hmove
  exact hmove

/-- While a party sleeps there is no more work than `k` and the parties awake. A party
that moves and does not sleep keeps this when it brings what the move costs. -/
theorem le_awake_of_move (asleep awake : P → Prop) [DecidablePred awake] {point : W → P} {w : W}
    {p : P} {n n' k k' : ℕ} (h : (∃ v, asleep (point v)) → n ≤ k + count awake point)
    (hp : ¬ asleep p)
    (hcost : n' + (k + count awake point) ≤ n + (k' + count awake (Function.update point w p))) :
    (∃ v, asleep (Function.update point w p v)) →
      n' ≤ k' + count awake (Function.update point w p) := by
  rintro ⟨v, hv⟩
  have hvw : v ≠ w := by
    rintro rfl
    rw [Function.update_self] at hv
    exact hp hv
  rw [Function.update_of_ne hvw] at hv
  have hle := h ⟨v, hv⟩
  omega

end Move

/-- Of `n` parties the first `k` are at points of a kind, the others still at `q`. -/
structure Advanced {n : ℕ} (k : ℕ) (kind : P → Prop) (q : P) (point : Fin n → P) : Prop where
  moved : ∀ w : Fin n, w.val < k → kind (point w)
  waiting : ∀ w : Fin n, k ≤ w.val → point w = q

namespace Advanced

variable {n k : ℕ} {kind : P → Prop} {q : P} {point : Fin n → P}

theorem zero (h : ∀ w, point w = q) : Advanced 0 kind q point :=
  ⟨fun w hw => absurd hw (Nat.not_lt_zero w.val), fun w _ => h w⟩

theorem next (h : Advanced k kind q point) (hk : k < n) {p : P} (hp : kind p) :
    Advanced (k + 1) kind q (Function.update point ⟨k, hk⟩ p) := by
  constructor
  · intro w hw
    by_cases hwk : w = ⟨k, hk⟩
    · subst hwk
      rw [Function.update_self]
      exact hp
    · have hne : w.val ≠ k := fun heq => hwk (Fin.ext heq)
      rw [Function.update_of_ne hwk]
      exact h.moved w (by omega)
  · intro w hw
    have hwk : w ≠ ⟨k, hk⟩ := by
      rintro rfl
      exact absurd hw (Nat.not_succ_le_self k)
    rw [Function.update_of_ne hwk]
    exact h.waiting w (by omega)

theorem all (h : Advanced n kind q point) (w : Fin n) : kind (point w) :=
  h.moved w w.isLt

end Advanced

end ProxyServer.Parties
