import Mathlib.Data.List.Perm.Basic
import Mathlib.Data.List.Nodup
import Mathlib.Order.Lattice

/-!
Programs that take handles from an allocator and give them back. A handle is
taken at a site, which says what it was taken for. The allocator may give any
handle that is not out, also one that came back before; giving back a handle that
is not out is undefined. A specification names what a program owns when it
starts and when it ends, beside any frame of handles that others have out.
-/
namespace ProxyServer.Allocation

variable {κ ι α β : Type}

/-- What is out, each handle once. -/
structure Memory (κ ι : Type) where
  live : List (κ × ι)
  nodup : (live.map Prod.snd).Nodup

namespace Memory

def empty : Memory κ ι := ⟨[], List.nodup_nil⟩

def handles (m : Memory κ ι) : List ι := m.live.map Prod.snd

/-- The sites at which the handles that are out were taken. -/
def sites (m : Memory κ ι) : List κ := m.live.map Prod.fst

end Memory

/-- Its choices may depend on how much has gone before. -/
structure Allocator (κ ι : Type) where
  pick : ℕ → κ → List ι → ι
  fresh : ∀ calls site out, pick calls site out ∉ out

def Allocator.above (κ : Type) : Allocator κ ℕ where
  pick _ _ out := out.foldr max 0 + 1
  fresh _ _ out hmem := by
    have hle : ∀ (l : List ℕ) x, x ∈ l → x ≤ l.foldr max 0 := by
      intro l
      induction l with
      | nil => simp
      | cons y l ih =>
        intro x hx
        rcases List.mem_cons.mp hx with rfl | hx
        · exact le_max_left _ _
        · exact (ih x hx).trans (le_max_right _ _)
    have h := hle out _ hmem
    omega

structure State (κ ι : Type) where
  calls : ℕ
  memory : Memory κ ι

def State.empty : State κ ι := ⟨0, Memory.empty⟩

/-- `none` is undefined behaviour, or a call that never comes back. -/
def Prog (κ ι α : Type) : Type := Allocator κ ι → State κ ι → Option (α × State κ ι)

namespace Prog

def ret (a : α) : Prog κ ι α := fun _ s => some (a, s)

def andThen (m : Prog κ ι α) (f : α → Prog κ ι β) : Prog κ ι β := fun allocator s =>
  match m allocator s with
  | none => none
  | some (a, s) => f a allocator s

instance : Monad (Prog κ ι) where
  pure := ret
  bind := andThen

/-- Undefined behaviour, or no return. -/
def undefined : Prog κ ι α := fun _ _ => none

def alloc (site : κ) : Prog κ ι ι := fun allocator s =>
  let h := allocator.pick s.calls site s.memory.handles
  some (h, ⟨s.calls + 1, ⟨(site, h) :: s.memory.live,
    List.nodup_cons.mpr ⟨allocator.fresh _ _ _, s.memory.nodup⟩⟩⟩)

section Free
variable [DecidableEq ι]

theorem nodup_eraseP (m : Memory κ ι) (h : ι) :
    ((m.live.eraseP (fun x => x.2 = h)).map Prod.snd).Nodup :=
  m.nodup.sublist ((List.eraseP_sublist).map _)

def free (h : ι) : Prog κ ι Unit := fun _ s =>
  if h ∈ s.memory.handles
  then some ((), ⟨s.calls + 1, ⟨s.memory.live.eraseP (fun x => x.2 = h), nodup_eraseP s.memory h⟩⟩)
  else none

/-- `free` of a pointer that may be null. -/
def freeNullable : Option ι → Prog κ ι Unit
  | none => pure ()
  | some h => free h

/-- The handle may stay the same. -/
def realloc (site : κ) (h : ι) : Prog κ ι ι := do
  free h
  alloc site

end Free

def forEach (f : β → Prog κ ι Unit) : List β → Prog κ ι Unit
  | [] => pure ()
  | b :: bs => do
      f b
      forEach f bs

end Prog

open Prog

theorem perm_cons_cons (x y : α) (l : List α) : (x :: y :: l).Perm (l ++ [x, y]) := by
  show ([x, y] ++ l).Perm (l ++ [x, y])
  exact List.perm_append_comm

theorem perm_concat (x : α) (l : List α) : (x :: l).Perm (l ++ [x]) := by
  show ([x] ++ l).Perm (l ++ [x])
  exact List.perm_append_comm

theorem perm_append_reverse (l t : List α) : (l ++ t).Perm (t.reverse ++ l) :=
  List.perm_append_comm.trans ((List.reverse_perm t).symm.append_right l)

/-- What is out is what the program owns and the frame. -/
def Holds (s : State κ ι) (own frame : List (κ × ι)) : Prop := s.memory.live.Perm (own ++ frame)

/-- From owning `own` the program is defined, and it ends with a value and what
it then owns as `post` says. -/
def Spec (m : Prog κ ι α) (own : List (κ × ι)) (post : α → List (κ × ι) → Prop) : Prop :=
  ∀ allocator s frame, Holds s own frame →
    ∃ a s' own', m allocator s = some (a, s') ∧ post a own' ∧ Holds s' own' frame

/-- The program then owns the blocks of its value, in any order. -/
def Leaves (blocks : α → List (κ × ι)) (P : α → Prop) (a : α) (own : List (κ × ι)) : Prop :=
  own.Perm (blocks a) ∧ P a

variable {m : Prog κ ι α} {own : List (κ × ι)} {post : α → List (κ × ι) → Prop}

theorem spec_pure {a : α} (h : post a own) : Spec (pure a) own post := by
  intro allocator s frame hs
  exact ⟨a, s, own, rfl, h, hs⟩

theorem spec_bind {mid : α → List (κ × ι) → Prop} {f : α → Prog κ ι β}
    {post : β → List (κ × ι) → Prop} (hm : Spec m own mid)
    (hf : ∀ a own', mid a own' → Spec (f a) own' post) : Spec (m >>= f) own post := by
  intro allocator s frame hs
  obtain ⟨a, s₁, own₁, hrun, hmid, hs₁⟩ := hm allocator s frame hs
  obtain ⟨b, s₂, own₂, hrun', hpost, hs₂⟩ := hf a own₁ hmid allocator s₁ frame hs₁
  refine ⟨b, s₂, own₂, ?_, hpost, hs₂⟩
  show (match m allocator s with | none => none | some (a, s) => f a allocator s) = _
  rw [hrun]
  exact hrun'

theorem spec_weaken {post' : α → List (κ × ι) → Prop} (h : Spec m own post)
    (himp : ∀ a own', post a own' → post' a own') : Spec m own post' := by
  intro allocator s frame hs
  obtain ⟨a, s', own', hrun, hpost, hs'⟩ := h allocator s frame hs
  exact ⟨a, s', own', hrun, himp a own' hpost, hs'⟩

theorem spec_perm {own' : List (κ × ι)} (hp : own.Perm own') (h : Spec m own' post) :
    Spec m own post := by
  intro allocator s frame hs
  exact h allocator s frame (hs.trans (hp.append_right frame))

/-- What a program does not own it leaves alone. -/
theorem spec_frame (h : Spec m own post) (rest : List (κ × ι)) :
    Spec m (own ++ rest) (fun a own' => ∃ o, post a o ∧ own' = o ++ rest) := by
  intro allocator s frame hs
  have hs₁ : Holds s own (rest ++ frame) := by
    rw [Holds, ← List.append_assoc]
    exact hs
  obtain ⟨a, s', own', hrun, hpost, hs'⟩ := h allocator s (rest ++ frame) hs₁
  refine ⟨a, s', own' ++ rest, hrun, ⟨own', hpost, rfl⟩, ?_⟩
  rw [Holds, List.append_assoc]
  exact hs'

/-- The specification of a call, beside what the caller owns besides. -/
theorem spec_call {sub rest : List (κ × ι)} {mid : α → List (κ × ι) → Prop} (h : Spec m sub mid)
    (hp : own.Perm (sub ++ rest)) (himp : ∀ a o, mid a o → post a (o ++ rest)) :
    Spec m own post := by
  apply spec_perm hp
  apply spec_weaken (spec_frame h rest)
  intro a own' hpost
  obtain ⟨o, hmid, rfl⟩ := hpost
  exact himp a o hmid

theorem spec_bind_call {sub rest : List (κ × ι)} {mid : α → List (κ × ι) → Prop}
    {f : α → Prog κ ι β} {post : β → List (κ × ι) → Prop} (h : Spec m sub mid)
    (hp : own.Perm (sub ++ rest)) (hf : ∀ a o, mid a o → Spec (f a) (o ++ rest) post) :
    Spec (m >>= f) own post := by
  apply spec_bind (spec_perm hp (spec_frame h rest))
  intro a own' hmid
  obtain ⟨o, ho, rfl⟩ := hmid
  exact hf a o ho

theorem spec_alloc {site : κ} {own : List (κ × ι)} :
    Spec (alloc site) own (fun p own' => own' = (site, p) :: own) := by
  intro allocator s frame hs
  exact ⟨_, _, _, rfl, rfl, hs.cons _⟩

section Free
variable [DecidableEq ι]

theorem eraseP_perm {l rest : List (κ × ι)} {site : κ} {p : ι} (hn : (l.map Prod.snd).Nodup)
    (hp : l.Perm ((site, p) :: rest)) : (l.eraseP (fun x => x.2 = p)).Perm rest := by
  have hmem : (site, p) ∈ l := hp.symm.subset (List.mem_cons_self ..)
  obtain ⟨a, l₁, l₂, hl₁, ha, hl, herase⟩ :=
    List.exists_of_eraseP (p := fun x : κ × ι => decide (x.2 = p)) hmem (by simp)
  have hap : a = (site, p) := by
    have hinj := List.inj_on_of_nodup_map hn
    exact hinj (by rw [hl]; simp) hmem (by simpa using ha)
  rw [herase]
  have hmid : l.Perm ((site, p) :: (l₁ ++ l₂)) := by
    rw [hl, hap]
    exact List.perm_middle
  exact (hmid.symm.trans hp).cons_inv

theorem spec_free {site : κ} {p : ι} {rest : List (κ × ι)}
    (hp : own.Perm ((site, p) :: rest)) :
    Spec (free p) own (fun _ own' => own' = rest) := by
  intro allocator s frame hs
  have hlive : s.memory.live.Perm ((site, p) :: (rest ++ frame)) :=
    hs.trans (hp.append_right frame)
  have hmem : p ∈ s.memory.handles := by
    have hin : (site, p) ∈ s.memory.live := hlive.symm.subset (List.mem_cons_self ..)
    exact List.mem_map_of_mem (f := Prod.snd) hin
  refine ⟨(), _, rest, if_pos hmem, rfl, ?_⟩
  exact eraseP_perm s.memory.nodup hlive

theorem spec_realloc {site : κ} {p : ι} {rest : List (κ × ι)}
    (hp : own.Perm ((site, p) :: rest)) :
    Spec (realloc site p) own (fun q own' => own' = (site, q) :: rest) := by
  apply spec_bind (spec_free hp)
  intro _ own' hown
  subst hown
  exact spec_alloc

theorem spec_freeNullable {site : κ} {p : Option ι} {rest : List (κ × ι)}
    (hp : own.Perm (p.toList.map (fun q => (site, q)) ++ rest)) :
    Spec (freeNullable p) own (fun _ own' => own' = rest) := by
  apply spec_perm hp
  cases p with
  | none => exact spec_pure rfl
  | some q => exact spec_free (List.Perm.refl _)

end Free

/-- A loop that gives back, one after another, what each element holds. -/
theorem spec_forEach {f : β → Prog κ ι Unit} {blocks : β → List (κ × ι)}
    (hf : ∀ b, Spec (f b) (blocks b) (fun _ own' => own' = [])) (bs : List β) :
    Spec (forEach f bs) (bs.flatMap blocks) (fun _ own' => own' = []) := by
  induction bs with
  | nil => exact spec_pure rfl
  | cons b bs ih =>
    apply spec_bind_call (hf b) (List.Perm.refl _)
    intro _ o ho
    subst ho
    exact ih

/-- A program that owns nothing at the start leaves what was out before, and what
it says it owns. -/
theorem spec_run (h : Spec m [] post) (allocator : Allocator κ ι) (s : State κ ι) :
    ∃ a s' own, m allocator s = some (a, s') ∧ post a own ∧
      s'.memory.live.Perm (own ++ s.memory.live) :=
  h allocator s s.memory.live (List.Perm.refl _)

end ProxyServer.Allocation
