import Mathlib.Order.Lattice
import Mathlib.Data.List.Basic

/-!
The first element of a list among those with the least key, by the place where
it splits the list. A scan that goes on to a later element only for a smaller key
ends at it. Where the keys follow a ranking, the first of the least need not be
the first by rank: those before it in rank share its key.
-/
namespace ProxyServer

variable {α β γ : Type*} [LinearOrder β]

structure FirstLeast (key : α → β) (l front : List α) (x : α) (back : List α) : Prop where
  eq : l = front ++ x :: back
  before : ∀ y ∈ front, key x < key y
  after : ∀ y ∈ back, key x ≤ key y

namespace FirstLeast

variable {key : α → β} {l front back : List α} {x y : α}

theorem singleton (key : α → β) (x : α) : FirstLeast key [x] [] x [] :=
  ⟨rfl, fun _ hy => absurd hy List.not_mem_nil, fun _ hy => absurd hy List.not_mem_nil⟩

theorem mem (h : FirstLeast key l front x back) : x ∈ l := by
  rw [h.eq]
  simp

theorem mem_of_mem_others (h : FirstLeast key l front x back) (hy : y ∈ front ++ back) :
    y ∈ l := by
  rw [h.eq]
  rcases List.mem_append.mp hy with hy | hy
  · exact List.mem_append_left _ hy
  · exact List.mem_append_right _ (List.mem_cons_of_mem x hy)

theorem le (h : FirstLeast key l front x back) (hy : y ∈ l) : key x ≤ key y := by
  rw [h.eq] at hy
  rcases List.mem_append.mp hy with hy | hy
  · exact le_of_lt (h.before y hy)
  · rcases List.mem_cons.mp hy with rfl | hy
    · exact le_refl _
    · exact h.after y hy

/-- The scan moves on to an element with a smaller key. -/
theorem concat_of_lt (h : FirstLeast key l front x back) (hy : key y < key x) :
    FirstLeast key (l ++ [y]) l y [] :=
  ⟨rfl, fun _ hz => lt_of_lt_of_le hy (h.le hz), fun _ hz => absurd hz List.not_mem_nil⟩

theorem concat_of_le (h : FirstLeast key l front x back) (hy : key x ≤ key y) :
    FirstLeast key (l ++ [y]) front x (back ++ [y]) := by
  refine ⟨by rw [h.eq, List.append_assoc, List.cons_append], h.before, ?_⟩
  intro z hz
  rcases List.mem_append.mp hz with hz | hz
  · exact h.after z hz
  · rw [List.mem_singleton.mp hz]
    exact hy

/-- Those of a smaller rank have the key of the first of the least. -/
theorem key_eq_of_rank_le [Preorder γ] (rank : α → γ) (h : FirstLeast key l front x back)
    (hrank : ∀ a ∈ l, ∀ b ∈ l, rank a ≤ rank b → key a ≤ key b) (hy : y ∈ l)
    (hle : rank y ≤ rank x) : key y = key x :=
  le_antisymm (hrank y hy x h.mem hle) (h.le hy)

/-- Without ties the first of the least is the least by rank. -/
theorem rank_lt [LinearOrder γ] (rank : α → γ) (h : FirstLeast key l front x back)
    (hrank : ∀ a ∈ l, ∀ b ∈ l, rank a ≤ rank b → key a ≤ key b) (hy : y ∈ l)
    (hne : key y ≠ key x) : rank x < rank y := by
  rcases lt_or_ge (rank x) (rank y) with hlt | hge
  · exact hlt
  · exact absurd (h.key_eq_of_rank_le rank hrank hy hge) hne

end FirstLeast

end ProxyServer
