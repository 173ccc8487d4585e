import ProxyServer.ClientHandler
import ProxyServer.Parties
import ProxyServer.Runs
import Mathlib.Tactic.Abel

/-!
The C proxies with a thread for each client. `main` stores a socket in the next slot of
`Connected_socketId` and creates the thread that reads it from there, and never goes
back to the first slot. In every interleaving a thread reads the socket its client was
accepted with, and `sem_wait` does not block; but the client after `MAX_CLIENTS` others
is stored outside the array.
-/
namespace ProxyServer.V1

open Descriptors Parties

abbrev maxClients : ℕ := 400

/-- Where a slot and its thread are: `main` has stored a socket or created the thread,
the thread has passed `sem_wait`, and so on. Where there is no thread it is finished. -/
inductive SlotPoint
  | unused
  | stored
  | created
  | admitted
  | handling (h : Handling)
  | posting
  | finished
  deriving DecidableEq, Repr

namespace SlotPoint

/-- What is held at a point, with the socket in the slot. -/
def held : ℤ × SlotPoint → Multiset ℤ
  | (_, .unused) => 0
  | (fd, .stored) => {fd}
  | (fd, .created) => {fd}
  | (fd, .admitted) => {fd}
  | (_, .handling h) => h.held
  | (_, .posting) => 0
  | (_, .finished) => 0

def HasPermit : SlotPoint → Prop
  | .admitted => True
  | .handling _ => True
  | .posting => True
  | _ => False

instance : DecidablePred HasPermit
  | .unused => inferInstanceAs (Decidable False)
  | .stored => inferInstanceAs (Decidable False)
  | .created => inferInstanceAs (Decidable False)
  | .admitted => inferInstanceAs (Decidable True)
  | .handling _ => inferInstanceAs (Decidable True)
  | .posting => inferInstanceAs (Decidable True)
  | .finished => inferInstanceAs (Decidable False)

/-- Where the thread is after an event of its handler. -/
def after : Option Handling → SlotPoint
  | some h => .handling h
  | none => .posting

end SlotPoint

/-- The counter and the array of `main`, the threads by their slots, the semaphore, the
open descriptors, and the sockets accepted so far, which no step reads. -/
structure ThreadProxy where
  i : ℕ
  connectedSocketId : Fin maxClients → ℤ
  point : Fin maxClients → SlotPoint
  seamaphore : ℕ
  table : Table ℤ
  accepted : List ℤ

namespace ThreadProxy

inductive Step
  | accept (clientSocketId : ℤ)
  | create (created : Bool)
  | semWait (w : Fin maxClients)
  | read (w : Fin maxClients)
  | handler (w : Fin maxClients) (event : HandlerEvent)
  | semPost (w : Fin maxClients)
  deriving DecidableEq

/-- The array has no initial values of its own. -/
def start (base : Finset ℤ) (slots : Fin maxClients → ℤ) : ThreadProxy :=
  ⟨0, slots, fun _ => .unused, maxClients, ⟨base, 0⟩, []⟩

def goto (s : ThreadProxy) (w : Fin maxClients) (p : SlotPoint) : ThreadProxy :=
  { s with point := Function.update s.point w p }

/-- `Connected_socketId[i] = client_socketId`. -/
def store (s : ThreadProxy) (w : Fin maxClients) (clientSocketId : ℤ) : ThreadProxy :=
  { s.goto w .stored with
    connectedSocketId := Function.update s.connectedSocketId w clientSocketId
    accepted := s.accepted ++ [clientSocketId] }

/-- One step of the proxy that closes the sockets to the origins, or does not; nothing
where it cannot be taken, or writes outside the array. -/
def step (closesRemote : Bool) (limit : ℕ) (s : ThreadProxy) : Step → Option ThreadProxy
  | .accept clientSocketId =>
      if hi : s.i < maxClients then
        if 0 ≤ clientSocketId ∧ s.point ⟨s.i, hi⟩ = .unused
        then (s.table.acquire limit clientSocketId).map (fun table =>
          { s.store ⟨s.i, hi⟩ clientSocketId with table := table })
        else none
      else none
  | .create created =>
      if hi : s.i < maxClients then
        if s.point ⟨s.i, hi⟩ = .stored then
          if created then some { s.goto ⟨s.i, hi⟩ .created with i := s.i + 1 }
          else some { s.goto ⟨s.i, hi⟩ .finished with
            i := s.i + 1
            table := s.table.forget (s.connectedSocketId ⟨s.i, hi⟩) }
        else none
      else none
  | .semWait w =>
      if s.point w = .created ∧ 0 < s.seamaphore
      then some { s.goto w .admitted with seamaphore := s.seamaphore - 1 } else none
  | .read w =>
      if s.point w = .admitted
      then some (s.goto w (.handling (.receive (s.connectedSocketId w)))) else none
  | .handler w event =>
      match s.point w with
      | .handling h => (h.step closesRemote limit s.table event).map (fun r =>
          { s.goto w (.after r.1) with table := r.2 })
      | _ => none
  | .semPost w =>
      if s.point w = .posting
      then some { s.goto w .finished with seamaphore := s.seamaphore + 1 } else none

/-- The control of the threads and the system allow the step; the semaphore is not
asked, and neither is the array. -/
def Permitted (limit : ℕ) (s : ThreadProxy) : Step → Prop
  | .accept clientSocketId => 0 ≤ clientSocketId ∧ (∀ w, s.point w ≠ .stored) ∧
      clientSocketId ∉ s.table.opened ∧ s.table.opened.card < limit
  | .create _ => ∃ w, s.point w = .stored
  | .semWait w => s.point w = .created
  | .read w => s.point w = .admitted
  | .handler w event => ∃ h, s.point w = .handling h ∧ h.Permitted limit s.table event
  | .semPost w => s.point w = .posting

def losses (closesRemote : Bool) : Step → ℕ
  | .handler _ event => Handling.loses closesRemote event
  | .create false => 1
  | _ => 0

def lossesOf (closesRemote : Bool) (ls : List Step) : ℕ := (ls.map (losses closesRemote)).sum

def held (s : ThreadProxy) : Multiset ℤ :=
  total SlotPoint.held (fun w => (s.connectedSocketId w, s.point w))

/-- What holds after the steps `ls`: the open descriptors are those of the start, those
held, each by one holder, and those lost; a thread handles the client that its slot was
filled for; and of the steps that may be taken only one cannot be, the `accept` after
`MAX_CLIENTS` others. -/
structure Sound (closesRemote : Bool) (limit : ℕ) (base : Finset ℤ) (ls : List Step)
    (s : ThreadProxy) : Prop where
  opened : s.table.opened.val = base.val + s.held + s.table.lost
  card_le : s.table.opened.card ≤ limit
  lost : s.table.lost.card = lossesOf closesRemote ls
  client : ∀ w h, s.point w = .handling h → s.accepted[w.val]? = some h.client
  defined : ∀ l, s.Permitted limit l → ((∃ s', s.step closesRemote limit l = some s') ↔
    ((∃ fd, l = .accept fd) → s.accepted.length < maxClients))

section Shape

/-- The slots before `i` have threads, those after it nothing, and a slot that has been
filled has the socket accepted for it. -/
structure Shape (s : ThreadProxy) : Prop where
  le : s.i ≤ maxClients
  past : ∀ w, w.val < s.i → s.point w ≠ .unused ∧ s.point w ≠ .stored
  next : ∀ w, w.val = s.i → s.point w = .unused ∨ s.point w = .stored
  future : ∀ w, s.i < w.val → s.point w = .unused
  slot : ∀ w, s.point w ≠ .unused → s.accepted[w.val]? = some (s.connectedSocketId w)
  client : ∀ w h, s.point w = .handling h → h.client = s.connectedSocketId w
  length : s.accepted.length = s.i + count (· = .stored) s.point

namespace Shape

variable {s : ThreadProxy} {w : Fin maxClients}

theorem eq_of_stored (h : s.Shape) (hw : s.point w = .stored) : w.val = s.i := by
  rcases Nat.lt_trichotomy w.val s.i with hlt | heq | hgt
  · exact absurd hw (h.past w hlt).2
  · exact heq
  · have hunused := h.future w hgt
    rw [hw] at hunused
    contradiction

/-- `main` is at `accept` when the next slot is unused. -/
theorem unused_iff (h : s.Shape) (hi : s.i < maxClients) :
    s.point ⟨s.i, hi⟩ = .unused ↔ ∀ w, s.point w ≠ .stored := by
  constructor
  · intro hunused w hw
    have heq : w = ⟨s.i, hi⟩ := Fin.ext (h.eq_of_stored hw)
    rw [heq, hunused] at hw
    contradiction
  · intro hnone
    exact (h.next ⟨s.i, hi⟩ rfl).resolve_right (hnone _)

theorem length_of_accepting (h : s.Shape) (hnone : ∀ w, s.point w ≠ .stored) :
    s.accepted.length = s.i := by
  have hcount : count (· = .stored) s.point = 0 := by
    rw [count_eq_total]
    exact total_eq_zero (fun w => if_neg (hnone w))
  rw [h.length, hcount, Nat.add_zero]

/-- A thread goes on, with the client of its slot. -/
theorem goto (h : s.Shape) {p : SlotPoint} (hw : s.point w ≠ .unused ∧ s.point w ≠ .stored)
    (hp : p ≠ .unused ∧ p ≠ .stored)
    (hclient : ∀ x, p = .handling x → x.client = s.connectedSocketId w) (n : ℕ) (t : Table ℤ) :
    Shape { s.goto w p with seamaphore := n, table := t } := by
  have hpoint : ∀ v, Function.update s.point w p v = p ∧ v = w ∨
      Function.update s.point w p v = s.point v := by
    intro v
    by_cases hv : v = w
    · exact Or.inl ⟨by rw [hv, Function.update_self], hv⟩
    · exact Or.inr (Function.update_of_ne hv _ _)
  have hlt : w.val < s.i := by
    by_contra hge
    rcases Nat.eq_or_lt_of_le (Nat.le_of_not_lt hge) with heq | hgt
    · exact (h.next w heq.symm).elim hw.1 hw.2
    · exact hw.1 (h.future w hgt)
  refine ⟨h.le, ?_, ?_, ?_, ?_, ?_, ?_⟩
  · intro v hv
    show Function.update s.point w p v ≠ _ ∧ Function.update s.point w p v ≠ _
    rcases hpoint v with ⟨hnew, _⟩ | hold
    · rw [hnew]
      exact hp
    · rw [hold]
      exact h.past v hv
  · intro v hv
    have hne : v ≠ w := by
      rintro rfl
      exact absurd hv hlt.ne
    show Function.update s.point w p v = _ ∨ Function.update s.point w p v = _
    rw [Function.update_of_ne hne]
    exact h.next v hv
  · intro v hv
    have hne : v ≠ w := by
      rintro rfl
      exact absurd hv hlt.asymm
    exact (Function.update_of_ne hne _ _).trans (h.future v hv)
  · intro v hv
    rcases hpoint v with ⟨_, rfl⟩ | hold
    · exact h.slot v hw.1
    · exact h.slot v (hold ▸ hv)
  · intro v x hv
    rcases hpoint v with ⟨hnew, rfl⟩ | hold
    · exact hclient x (hnew.symm.trans hv)
    · exact h.client v x (hold.symm.trans hv)
  · show s.accepted.length = s.i + count _ (Function.update s.point w p)
    have hcount : count (· = .stored) (Function.update s.point w p) =
        count (· = .stored) s.point := count_update_of_iff (iff_of_false hp.2 hw.2)
    rw [hcount]
    exact h.length

theorem store (h : s.Shape) (hi : s.i < maxClients) (hunused : s.point ⟨s.i, hi⟩ = .unused)
    (fd : ℤ) (t : Table ℤ) : Shape { s.store ⟨s.i, hi⟩ fd with table := t } := by
  have hlength := h.length_of_accepting ((h.unused_iff hi).mp hunused)
  refine ⟨h.le, ?_, ?_, ?_, ?_, ?_, ?_⟩
  · intro v hv
    have hne : v ≠ ⟨s.i, hi⟩ := by
      rintro rfl
      exact absurd hv (lt_irrefl s.i)
    show Function.update s.point _ _ v ≠ _ ∧ Function.update s.point _ _ v ≠ _
    rw [Function.update_of_ne hne]
    exact h.past v hv
  · intro v hv
    obtain rfl : v = ⟨s.i, hi⟩ := Fin.ext hv
    exact Or.inr (Function.update_self _ _ _)
  · intro v hv
    have hne : v ≠ ⟨s.i, hi⟩ := by
      rintro rfl
      exact absurd hv (lt_irrefl s.i)
    exact (Function.update_of_ne hne _ _).trans (h.future v hv)
  · intro v hv
    by_cases hne : v = ⟨s.i, hi⟩
    · subst hne
      show (s.accepted ++ [fd])[s.i]? = some (Function.update s.connectedSocketId _ fd _)
      rw [Function.update_self, ← hlength]
      exact List.getElem?_concat_length
    · show (s.accepted ++ [fd])[v.val]? = some (Function.update s.connectedSocketId _ fd v)
      rw [Function.update_of_ne hne]
      have hslot := h.slot v ((Function.update_of_ne hne _ _).symm.trans_ne hv)
      have hlt := (List.getElem?_eq_some_iff.mp hslot).choose
      rw [List.getElem?_append_left hlt, hslot]
  · intro v x hv
    have hne : v ≠ ⟨s.i, hi⟩ := by
      rintro rfl
      have hstored : SlotPoint.stored = .handling x := (Function.update_self _ _ _).symm.trans hv
      contradiction
    show x.client = Function.update s.connectedSocketId _ fd v
    rw [Function.update_of_ne hne]
    exact h.client v x ((Function.update_of_ne hne _ _).symm.trans hv)
  · show (s.accepted ++ [fd]).length = s.i + count _ (Function.update s.point _ .stored)
    have hcount : count (· = .stored) (Function.update s.point ⟨s.i, hi⟩ .stored) =
        count (· = .stored) s.point + 1 := count_update_enter (by simp [hunused]) rfl
    rw [hcount, List.length_append, h.length]
    rfl

theorem create (h : s.Shape) (hi : s.i < maxClients) (hstored : s.point ⟨s.i, hi⟩ = .stored)
    {p : SlotPoint} (hp : p ≠ .unused ∧ p ≠ .stored) (hidle : ∀ x, p ≠ .handling x)
    (t : Table ℤ) : Shape { s.goto ⟨s.i, hi⟩ p with i := s.i + 1, table := t } := by
  refine ⟨hi, ?_, ?_, ?_, ?_, ?_, ?_⟩
  · intro v hv
    show Function.update s.point _ _ v ≠ _ ∧ Function.update s.point _ _ v ≠ _
    by_cases hne : v = ⟨s.i, hi⟩
    · rw [hne, Function.update_self]
      exact hp
    · have hval : v.val ≠ s.i := fun heq => hne (Fin.ext heq)
      have hlt : v.val < s.i + 1 := hv
      rw [Function.update_of_ne hne]
      exact h.past v (by omega)
  · intro v hv
    have hval : v.val = s.i + 1 := hv
    have hne : v ≠ ⟨s.i, hi⟩ := by
      rintro rfl
      exact absurd hval (Nat.succ_ne_self s.i).symm
    exact Or.inl ((Function.update_of_ne hne _ _).trans (h.future v (by omega)))
  · intro v hv
    have hval : s.i + 1 < v.val := hv
    have hne : v ≠ ⟨s.i, hi⟩ := by
      rintro rfl
      exact absurd hval (Nat.lt_succ_self s.i).asymm
    exact (Function.update_of_ne hne _ _).trans (h.future v (by omega))
  · intro v hv
    by_cases hne : v = ⟨s.i, hi⟩
    · rw [hne]
      exact h.slot _ (by rw [hstored]; simp)
    · exact h.slot v ((Function.update_of_ne hne _ _).symm.trans_ne hv)
  · intro v x hv
    by_cases hne : v = ⟨s.i, hi⟩
    · subst hne
      exact absurd ((Function.update_self _ _ _).symm.trans hv) (hidle x)
    · exact h.client v x ((Function.update_of_ne hne _ _).symm.trans hv)
  · show s.accepted.length = s.i + 1 + count _ (Function.update s.point _ p)
    have hcount : count (· = .stored) (Function.update s.point ⟨s.i, hi⟩ p) + 1 =
        count (· = .stored) s.point := count_update_leave hstored hp.2
    rw [h.length, ← hcount]
    omega

end Shape

end Shape

section Invariant

variable {closesRemote : Bool} {limit : ℕ} {base : Finset ℤ} {ls : List Step}
  {s s' : ThreadProxy} {l : Step} {w : Fin maxClients}

/-- What the others hold does not depend on a slot and its thread. -/
theorem held_split (s : ThreadProxy) (w : Fin maxClients) :
    ∃ others, s.held = SlotPoint.held (s.connectedSocketId w, s.point w) + others ∧
      (∀ p, (s.goto w p).held = SlotPoint.held (s.connectedSocketId w, p) + others) ∧
      ∀ fd, (s.store w fd).held = {fd} + others := by
  obtain ⟨others, hbefore, hafter⟩ :=
    total_split SlotPoint.held (fun v => (s.connectedSocketId v, s.point v)) w
  have hpair : ∀ fd p, (fun v => (Function.update s.connectedSocketId w fd v,
      Function.update s.point w p v)) =
      Function.update (fun v => (s.connectedSocketId v, s.point v)) w (fd, p) := by
    intro fd p
    funext v
    by_cases hv : v = w
    · rw [hv, Function.update_self, Function.update_self, Function.update_self]
    · rw [Function.update_of_ne hv, Function.update_of_ne hv, Function.update_of_ne hv]
  refine ⟨others, hbefore, ?_, ?_⟩
  · intro p
    have h := hafter (s.connectedSocketId w, p)
    rw [← hpair, Function.update_eq_self] at h
    exact h
  · intro fd
    have h := hafter (fd, .stored)
    rw [← hpair] at h
    exact h

structure Inv (closesRemote : Bool) (limit : ℕ) (base : Finset ℤ) (ls : List Step)
    (s : ThreadProxy) : Prop where
  shape : s.Shape
  permits : s.seamaphore + count SlotPoint.HasPermit s.point = maxClients
  accounts : s.table.Accounts limit (base.val + s.held)
  lost : s.table.lost.card = lossesOf closesRemote ls

theorem lossesOf_concat (ls : List Step) (l : Step) :
    lossesOf closesRemote (ls ++ [l]) = lossesOf closesRemote ls + losses closesRemote l := by
  rw [lossesOf, lossesOf, List.map_append, List.sum_append]
  rfl

namespace Inv

theorem start (hbase : base.card ≤ limit) (slots : Fin maxClients → ℤ) :
    Inv closesRemote limit base [] (ThreadProxy.start base slots) := by
  have hcount : ∀ kind : SlotPoint → Prop, ∀ [DecidablePred kind], ¬ kind .unused →
      count kind (ThreadProxy.start base slots).point = 0 := by
    intro kind _ hkind
    rw [count_eq_total]
    exact total_eq_zero (fun _ => if_neg hkind)
  refine ⟨⟨Nat.zero_le _, ?_, fun _ _ => Or.inl rfl, fun _ _ => rfl, ?_, ?_, ?_⟩, ?_, ?_, rfl⟩
  · exact fun v hv => absurd hv (Nat.not_lt_zero v.val)
  · exact fun _ hv => absurd rfl hv
  · intro v x hv
    have hunused : SlotPoint.unused = .handling x := hv
    contradiction
  · rw [hcount _ (by simp)]
    rfl
  · rw [hcount _ (fun h => h)]
    rfl
  · have hheld : (ThreadProxy.start base slots).held = 0 := total_eq_zero (fun _ => rfl)
    rw [hheld, add_zero]
    exact Table.Accounts.start hbase

theorem moved (h : s.Inv closesRemote limit base ls) {p : SlotPoint}
    (hw : s.point w ≠ .unused ∧ s.point w ≠ .stored) (hp : p ≠ .unused ∧ p ≠ .stored)
    (hclient : ∀ x, p = .handling x → x.client = s.connectedSocketId w) {n : ℕ} {t : Table ℤ}
    (hpermits : n + count SlotPoint.HasPermit (Function.update s.point w p) =
      s.seamaphore + count SlotPoint.HasPermit s.point)
    (htable : ∀ others,
      s.table.Accounts limit (SlotPoint.held (s.connectedSocketId w, s.point w) + others) →
      t.Accounts limit (SlotPoint.held (s.connectedSocketId w, p) + others) ∧
        t.lost.card = s.table.lost.card + losses closesRemote l) :
    Inv closesRemote limit base (ls ++ [l]) { s.goto w p with seamaphore := n, table := t } := by
  obtain ⟨others, hbefore, hafter, _⟩ := s.held_split w
  obtain ⟨haccounts, hlost⟩ :=
    htable (base.val + others) (h.accounts.congr (by rw [hbefore]; abel))
  refine ⟨h.shape.goto hw hp hclient n t, hpermits.trans h.permits, ?_, ?_⟩
  · refine haccounts.congr ?_
    show _ = base.val + (s.goto w p).held
    rw [hafter]
    abel
  · rw [hlost, h.lost, lossesOf_concat]

theorem accept (h : s.Inv closesRemote limit base ls) {fd : ℤ}
    (hstep : s.step closesRemote limit (.accept fd) = some s') :
    s'.Inv closesRemote limit base (ls ++ [.accept fd]) := by
  simp only [ThreadProxy.step] at hstep
  split at hstep
  case isTrue hi =>
    split at hstep
    case isTrue hcontrol =>
      obtain ⟨table, hacquire, rfl⟩ := Option.map_eq_some_iff.mp hstep
      obtain ⟨haccounts, hlost⟩ := h.accounts.acquire hacquire
      obtain ⟨others, hbefore, _, hafter⟩ := s.held_split ⟨s.i, hi⟩
      refine ⟨h.shape.store hi hcontrol.2 fd table, ?_, haccounts.congr ?_, ?_⟩
      · have hcount : count SlotPoint.HasPermit (Function.update s.point ⟨s.i, hi⟩ .stored) =
            count SlotPoint.HasPermit s.point :=
          count_update_of_iff (iff_of_false (fun hp => hp) (by rw [hcontrol.2]; exact fun hp => hp))
        show s.seamaphore + count _ (Function.update s.point _ .stored) = maxClients
        rw [hcount, h.permits]
      · rw [hbefore, hcontrol.2, ← Multiset.singleton_add]
        show {fd} + (base.val + (0 + others)) = base.val + (s.store ⟨s.i, hi⟩ fd).held
        rw [hafter]
        abel
      · rw [hlost, h.lost, lossesOf_concat]
        rfl
    case isFalse => contradiction
  case isFalse => contradiction

theorem create (h : s.Inv closesRemote limit base ls) {created : Bool}
    (hstep : s.step closesRemote limit (.create created) = some s') :
    s'.Inv closesRemote limit base (ls ++ [.create created]) := by
  simp only [ThreadProxy.step] at hstep
  split at hstep
  case isTrue hi =>
    split at hstep
    case isTrue hstored =>
      obtain ⟨others, hbefore, hafter, _⟩ := s.held_split ⟨s.i, hi⟩
      rw [hstored] at hbefore
      have hpermits : ∀ p, ¬ SlotPoint.HasPermit p →
          s.seamaphore + count SlotPoint.HasPermit (Function.update s.point ⟨s.i, hi⟩ p) =
            maxClients := by
        intro p hp
        have hcount : count SlotPoint.HasPermit (Function.update s.point ⟨s.i, hi⟩ p) =
            count SlotPoint.HasPermit s.point :=
          count_update_of_iff (iff_of_false hp (by rw [hstored]; exact fun hp => hp))
        rw [hcount, h.permits]
      cases created with
      | true =>
        cases hstep
        refine ⟨h.shape.create hi hstored (by simp) (by simp) s.table, hpermits _ (fun hp => hp),
          h.accounts.congr ?_, ?_⟩
        · rw [hbefore]
          show _ = base.val + (s.goto ⟨s.i, hi⟩ .created).held
          rw [hafter]
          rfl
        · show s.table.lost.card = _
          rw [h.lost, lossesOf_concat]
          rfl
      | false =>
        cases hstep
        refine ⟨h.shape.create hi hstored (by simp) (by simp) _, hpermits _ (fun hp => hp),
          ?_, ?_⟩
        · have hforget := h.accounts
          rw [hbefore] at hforget
          apply ((hforget.congr (?_ : _ = s.connectedSocketId ⟨s.i, hi⟩ ::ₘ
            (base.val + others))).forget).congr
          · show _ = base.val + (s.goto ⟨s.i, hi⟩ .finished).held
            rw [hafter]
            show base.val + others = base.val + (0 + others)
            rw [zero_add]
          · rw [← Multiset.singleton_add]
            show base.val + ({s.connectedSocketId ⟨s.i, hi⟩} + others) = _
            abel
        · show (s.connectedSocketId ⟨s.i, hi⟩ ::ₘ s.table.lost).card = _
          rw [Multiset.card_cons, h.lost, lossesOf_concat]
          rfl
    case isFalse => contradiction
  case isFalse => contradiction

theorem semWait (h : s.Inv closesRemote limit base ls)
    (hstep : s.step closesRemote limit (.semWait w) = some s') :
    s'.Inv closesRemote limit base (ls ++ [.semWait w]) := by
  simp only [ThreadProxy.step] at hstep
  split at hstep
  case isTrue hguard =>
    cases hstep
    obtain ⟨hw, hpos⟩ := hguard
    have hcount : count SlotPoint.HasPermit (Function.update s.point w .admitted) =
        count SlotPoint.HasPermit s.point + 1 :=
      count_update_enter (by rw [hw]; exact fun hp => hp) trivial
    apply h.moved (by simp [hw]) (by simp) (by simp) (by omega)
    intro others haccounts
    rw [hw] at haccounts
    exact ⟨haccounts, rfl⟩
  case isFalse => contradiction

theorem read (h : s.Inv closesRemote limit base ls)
    (hstep : s.step closesRemote limit (.read w) = some s') :
    s'.Inv closesRemote limit base (ls ++ [.read w]) := by
  simp only [ThreadProxy.step] at hstep
  split at hstep
  case isTrue hw =>
    cases hstep
    have hcount : count SlotPoint.HasPermit (Function.update s.point w
        (.handling (.receive (s.connectedSocketId w)))) = count SlotPoint.HasPermit s.point :=
      count_update_of_iff (iff_of_true trivial (by rw [hw]; trivial))
    have hclient : ∀ x, SlotPoint.handling (.receive (s.connectedSocketId w)) = .handling x →
        x.client = s.connectedSocketId w := by
      rintro x ⟨⟩
      rfl
    apply h.moved (by simp [hw]) (by simp) hclient (by rw [hcount])
    intro others haccounts
    rw [hw] at haccounts
    exact ⟨haccounts, rfl⟩
  case isFalse => contradiction

theorem handler (h : s.Inv closesRemote limit base ls) {event : HandlerEvent}
    (hstep : s.step closesRemote limit (.handler w event) = some s') :
    s'.Inv closesRemote limit base (ls ++ [.handler w event]) := by
  simp only [ThreadProxy.step] at hstep
  split at hstep
  case h_1 handling hw =>
    obtain ⟨⟨next, table⟩, hhandler, rfl⟩ := Option.map_eq_some_iff.mp hstep
    have hcount : count SlotPoint.HasPermit (Function.update s.point w (.after next)) =
        count SlotPoint.HasPermit s.point := by
      apply count_update_of_iff (iff_of_true _ (by rw [hw]; trivial))
      cases next <;> trivial
    have hclient : ∀ x, SlotPoint.after next = .handling x →
        x.client = s.connectedSocketId w := by
      cases next with
      | none =>
        intro x hx
        contradiction
      | some y =>
        rintro x ⟨⟩
        rw [Handling.step_client hhandler]
        exact h.shape.client w handling hw
    apply h.moved (by simp [hw]) (by cases next <;> simp [SlotPoint.after]) hclient
      (congrArg (s.seamaphore + ·) hcount)
    intro others haccounts
    rw [hw] at haccounts
    have hafter := Handling.step_accounts haccounts hhandler
    cases next with
    | none => exact hafter
    | some x => exact hafter
  case h_2 => contradiction

theorem semPost (h : s.Inv closesRemote limit base ls)
    (hstep : s.step closesRemote limit (.semPost w) = some s') :
    s'.Inv closesRemote limit base (ls ++ [.semPost w]) := by
  simp only [ThreadProxy.step] at hstep
  split at hstep
  case isTrue hw =>
    cases hstep
    have hcount : count SlotPoint.HasPermit (Function.update s.point w .finished) + 1 =
        count SlotPoint.HasPermit s.point :=
      count_update_leave (by rw [hw]; trivial) (fun hp => hp)
    apply h.moved (by simp [hw]) (by simp) (by simp) (by omega)
    intro others haccounts
    rw [hw] at haccounts
    exact ⟨haccounts, rfl⟩
  case isFalse => contradiction

theorem step (h : s.Inv closesRemote limit base ls)
    (hstep : s.step closesRemote limit l = some s') :
    s'.Inv closesRemote limit base (ls ++ [l]) := by
  cases l with
  | accept fd => exact h.accept hstep
  | create created => exact h.create hstep
  | semWait w => exact h.semWait hstep
  | read w => exact h.read hstep
  | handler w event => exact h.handler hstep
  | semPost w => exact h.semPost hstep

/-- There is a permit for a thread that has none. -/
theorem seamaphore_pos (h : s.Inv closesRemote limit base ls) (hw : s.point w = .created) :
    0 < s.seamaphore := by
  have hlt : count SlotPoint.HasPermit s.point < Fintype.card (Fin maxClients) :=
    count_lt_card (w := w) (by rw [hw]; exact fun hp => hp)
  have hpermits := h.permits
  rw [Fintype.card_fin] at hlt
  omega

theorem accept_iff (h : s.Inv closesRemote limit base ls) {fd : ℤ}
    (hl : s.Permitted limit (.accept fd)) :
    (∃ s', s.step closesRemote limit (.accept fd) = some s') ↔ s.accepted.length < maxClients := by
  obtain ⟨hvalid, hnone, hroom⟩ := hl
  rw [h.shape.length_of_accepting hnone]
  constructor
  · rintro ⟨s', hs'⟩
    by_contra hfull
    rw [ThreadProxy.step, dif_neg hfull] at hs'
    contradiction
  · intro hi
    have hunused := (h.shape.unused_iff hi).mpr hnone
    rw [ThreadProxy.step, dif_pos hi, if_pos ⟨hvalid, hunused⟩, Table.acquire, if_pos hroom]
    exact ⟨_, rfl⟩

theorem defined (h : s.Inv closesRemote limit base ls) (hl : s.Permitted limit l)
    (haccept : ∀ fd, l ≠ .accept fd) : ∃ s', s.step closesRemote limit l = some s' := by
  cases l with
  | accept fd => exact absurd rfl (haccept fd)
  | create created =>
    obtain ⟨w, hw⟩ := hl
    have hi : s.i < maxClients := h.shape.eq_of_stored hw ▸ w.isLt
    have hstored : s.point ⟨s.i, hi⟩ = .stored := by
      rw [← hw]
      exact congrArg s.point (Fin.ext (h.shape.eq_of_stored hw).symm)
    rw [ThreadProxy.step, dif_pos hi, if_pos hstored]
    cases created with
    | true => exact ⟨_, rfl⟩
    | false => exact ⟨_, rfl⟩
  | semWait w => exact ⟨_, if_pos ⟨hl, h.seamaphore_pos hl⟩⟩
  | read w => exact ⟨_, if_pos hl⟩
  | handler w event =>
    obtain ⟨handling, hw, hpermitted⟩ := hl
    obtain ⟨others, hbefore, _⟩ := s.held_split w
    rw [hw] at hbefore
    have haccounts : s.table.Accounts limit (handling.held + (base.val + others)) :=
      h.accounts.congr (by rw [hbefore, SlotPoint.held]; abel)
    obtain ⟨r, hr⟩ := Handling.step_defined closesRemote haccounts hpermitted
    refine ⟨{ s.goto w (.after r.1) with table := r.2 }, ?_⟩
    simp only [ThreadProxy.step, hw, hr, Option.map_some]
  | semPost w => exact ⟨_, if_pos hl⟩

theorem sound (h : s.Inv closesRemote limit base ls) : s.Sound closesRemote limit base ls where
  opened := h.accounts.opened
  card_le := h.accounts.card_le
  lost := h.lost
  client := by
    intro w handling hw
    rw [h.shape.client w handling hw]
    exact h.shape.slot w (by simp [hw])
  defined := by
    intro l hl
    by_cases haccept : ∃ fd, l = .accept fd
    · obtain ⟨fd, rfl⟩ := haccept
      rw [h.accept_iff hl]
      exact ⟨fun hlt _ => hlt, fun hlt => hlt ⟨fd, rfl⟩⟩
    · refine iff_of_true (h.defined hl (fun fd heq => haccept ⟨fd, heq⟩)) ?_
      exact fun hex => absurd hex haccept

end Inv

end Invariant

/-- Every run of either proxy keeps account of its descriptors and its clients, up to
the client that there is no slot for. -/
theorem threads_sound {closesRemote : Bool} {limit : ℕ} {base : Finset ℤ}
    (hbase : base.card ≤ limit) {slots : Fin maxClients → ℤ} {ls : List Step} {s : ThreadProxy}
    (hrun : Runs.run (step closesRemote limit) (start base slots) ls = some s) :
    s.Sound closesRemote limit base ls := by
  have hinv := Runs.run_invariant_of_labels (step closesRemote limit)
    (fun ls s => Inv closesRemote limit base ls s) (fun _ _ _ _ h hstep => h.step hstep) ls []
    (start base slots) s (Inv.start hbase slots) hrun
  exact hinv.sound

/-- The socket to the origin stays open after the response. -/
theorem threads_sound_uncached : ∃ s : ThreadProxy,
    Runs.run (step false 8) (start {0, 1, 2, 3} (fun _ => 0)) [.accept 4, .create true,
      .accept 5, .semWait 0, .read 0, .handler 0 (.socket 6), .handler 0 .connected,
      .handler 0 .responded, .handler 0 .close, .semPost 0, .create false] = some s ∧
    s.table.lost = {5, 6} ∧ s.Sound false 8 {0, 1, 2, 3} [.accept 4, .create true,
      .accept 5, .semWait 0, .read 0, .handler 0 (.socket 6), .handler 0 .connected,
      .handler 0 .responded, .handler 0 .close, .semPost 0, .create false] := by
  obtain ⟨s, hrun, hlost⟩ : ∃ s : ThreadProxy,
      Runs.run (step false 8) (start {0, 1, 2, 3} (fun _ => 0)) [.accept 4, .create true,
        .accept 5, .semWait 0, .read 0, .handler 0 (.socket 6), .handler 0 .connected,
        .handler 0 .responded, .handler 0 .close, .semPost 0, .create false] = some s ∧
      s.table.lost = {5, 6} := ⟨_, rfl, rfl⟩
  exact ⟨s, hrun, hlost, threads_sound (by decide) hrun⟩

end ThreadProxy

end ProxyServer.V1
