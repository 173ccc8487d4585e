import Mathlib.Data.Finset.Card
import Mathlib.Data.Multiset.Bind

/-!
A table of open descriptors and its accounts. What is open is held by somebody, once,
or has been lost by somebody who forgot it; a table whose accounts are right has every
descriptor open that its holder closes, and no descriptor with two holders.
-/
namespace ProxyServer.Descriptors

variable {ι : Type*}

/-- The open descriptors, and those of them that nobody will close. -/
structure Table (ι : Type*) where
  opened : Finset ι
  lost : Multiset ι
  deriving DecidableEq

namespace Table

/-- All that is open is held, or lost, and there is no more than the limit. -/
structure Accounts (limit : ℕ) (t : Table ι) (held : Multiset ι) : Prop where
  opened : t.opened.val = held + t.lost
  card_le : t.opened.card ≤ limit

def forget (t : Table ι) (x : ι) : Table ι := { t with lost := x ::ₘ t.lost }

section Changes
variable [DecidableEq ι]

/-- A descriptor that is not open, while there is room for one. -/
def acquire (limit : ℕ) (t : Table ι) (x : ι) : Option (Table ι) :=
  if x ∉ t.opened ∧ t.opened.card < limit
  then some { t with opened := insert x t.opened } else none

/-- Nothing where the descriptor is not open. -/
def close (t : Table ι) (x : ι) : Option (Table ι) :=
  if x ∈ t.opened then some { t with opened := t.opened.erase x } else none

end Changes

namespace Accounts

variable {limit : ℕ} {t t' : Table ι} {held held' : Multiset ι} {x : ι}

theorem start {base : Finset ι} (h : base.card ≤ limit) : Accounts limit ⟨base, 0⟩ base.val :=
  ⟨(add_zero _).symm, h⟩

theorem congr (h : t.Accounts limit held) (heq : held = held') : t.Accounts limit held' :=
  heq ▸ h

theorem mem (h : t.Accounts limit (x ::ₘ held)) : x ∈ t.opened := by
  rw [← Finset.mem_val, h.opened, Multiset.cons_add]
  exact Multiset.mem_cons_self x _

theorem nodup (h : t.Accounts limit held) : held.Nodup :=
  Multiset.nodup_of_le (h.opened ▸ Multiset.le_add_right held t.lost) t.opened.nodup

theorem forget (h : t.Accounts limit (x ::ₘ held)) : (t.forget x).Accounts limit held := by
  refine ⟨?_, h.card_le⟩
  show t.opened.val = held + (x ::ₘ t.lost)
  rw [h.opened, Multiset.cons_add, Multiset.add_cons]

section Changes
variable [DecidableEq ι]

theorem acquire (h : t.Accounts limit held) (hacquire : t.acquire limit x = some t') :
    t'.Accounts limit (x ::ₘ held) ∧ t'.lost = t.lost := by
  unfold Table.acquire at hacquire
  split at hacquire
  case isTrue hroom =>
    cases hacquire
    refine ⟨⟨?_, ?_⟩, rfl⟩
    · show (insert x t.opened).val = x ::ₘ held + t.lost
      rw [Finset.insert_val_of_notMem hroom.1, h.opened, Multiset.cons_add]
    · show (insert x t.opened).card ≤ limit
      rw [Finset.card_insert_of_notMem hroom.1]
      omega
  case isFalse => contradiction

theorem close (h : t.Accounts limit (x ::ₘ held)) :
    ∃ t', t.close x = some t' ∧ t'.Accounts limit held ∧ t'.lost = t.lost := by
  refine ⟨_, if_pos h.mem, ⟨?_, ?_⟩, rfl⟩
  · show (t.opened.erase x).val = held + t.lost
    rw [Finset.erase_val, h.opened, Multiset.cons_add, Multiset.erase_cons_head]
  · show (t.opened.erase x).card ≤ limit
    exact (Finset.card_erase_le).trans h.card_le

theorem of_close (h : t.Accounts limit (x ::ₘ held)) (hclose : t.close x = some t') :
    t'.Accounts limit held ∧ t'.lost = t.lost := by
  obtain ⟨t₁, hclose₁, h₁⟩ := h.close
  rw [hclose] at hclose₁
  cases hclose₁
  exact h₁

end Changes

end Accounts

end Table

end ProxyServer.Descriptors
