import ProxyServer.Descriptors
import Mathlib.Algebra.Order.Group.Int

/-!
A client's handling in the C proxies, as far as descriptors go: from the socket that
`accept` answered to its `close`, with the socket to the origin that `handle_request`
opens. `connectRemoteServer` forgets its socket where the host is not known or does
not answer; the proxy without a cache forgets it also after the response.
-/
namespace ProxyServer.V1

open Descriptors

/-- Where the handling of a client is, and its descriptors. -/
inductive Handling
  | receive (clientSocket : ℤ)
  | connect (clientSocket remoteSocket : ℤ)
  | relay (clientSocket remoteSocketID : ℤ)
  | shutdown (clientSocket : ℤ)
  deriving DecidableEq, Repr

/-- `answered` is every way to the end of the handler without a socket to the origin. -/
inductive HandlerEvent
  | answered
  | socket (remoteSocket : ℤ)
  | refused
  | connected
  | responded
  | close
  deriving DecidableEq, Repr

namespace Handling

def held : Handling → Multiset ℤ
  | .receive clientSocket => {clientSocket}
  | .connect clientSocket remoteSocket => {clientSocket, remoteSocket}
  | .relay clientSocket remoteSocketID => {clientSocket, remoteSocketID}
  | .shutdown clientSocket => {clientSocket}

def client : Handling → ℤ
  | .receive clientSocket => clientSocket
  | .connect clientSocket _ => clientSocket
  | .relay clientSocket _ => clientSocket
  | .shutdown clientSocket => clientSocket

/-- What a thread holds that may be handling a client. -/
def heldBy : Option Handling → Multiset ℤ
  | none => 0
  | some h => h.held

/-- One event; `none` for the handling that is over, and nothing where the event cannot
come or a descriptor is closed that is not open. -/
def step (closesRemote : Bool) (limit : ℕ) (t : Table ℤ) :
    Handling → HandlerEvent → Option (Option Handling × Table ℤ)
  | .receive clientSocket, .answered => some (some (.shutdown clientSocket), t)
  | .receive clientSocket, .socket remoteSocket =>
      if 0 ≤ remoteSocket
      then (t.acquire limit remoteSocket).map
        (fun t => (some (.connect clientSocket remoteSocket), t))
      else none
  | .connect clientSocket remoteSocket, .refused =>
      some (some (.shutdown clientSocket), t.forget remoteSocket)
  | .connect clientSocket remoteSocket, .connected =>
      some (some (.relay clientSocket remoteSocket), t)
  | .relay clientSocket remoteSocketID, .responded =>
      if closesRemote
      then (t.close remoteSocketID).map (fun t => (some (.shutdown clientSocket), t))
      else some (some (.shutdown clientSocket), t.forget remoteSocketID)
  | .shutdown clientSocket, .close => (t.close clientSocket).map (fun t => (none, t))
  | _, _ => none

/-- The control of the handler allows the event, and the system a new socket. -/
def Permitted (limit : ℕ) (t : Table ℤ) : Handling → HandlerEvent → Prop
  | .receive _, .answered => True
  | .receive _, .socket remoteSocket =>
      0 ≤ remoteSocket ∧ remoteSocket ∉ t.opened ∧ t.opened.card < limit
  | .connect _ _, .refused => True
  | .connect _ _, .connected => True
  | .relay _ _, .responded => True
  | .shutdown _, .close => True
  | _, _ => False

def loses (closesRemote : Bool) : HandlerEvent → ℕ
  | .refused => 1
  | .responded => if closesRemote then 0 else 1
  | _ => 0

variable {closesRemote : Bool} {limit : ℕ} {t t' : Table ℤ} {h : Handling}
  {event : HandlerEvent} {after : Option Handling} {others : Multiset ℤ}

theorem step_accounts (haccounts : t.Accounts limit (h.held + others))
    (hstep : step closesRemote limit t h event = some (after, t')) :
    t'.Accounts limit (heldBy after + others) ∧
      t'.lost.card = t.lost.card + loses closesRemote event := by
  have htwo (x y : ℤ) : ({x, y} : Multiset ℤ) + others = y ::ₘ ({x} + others) := by
    rw [Multiset.insert_eq_cons, Multiset.cons_add, Multiset.singleton_add, Multiset.singleton_add,
      Multiset.cons_swap]
  cases h with
  | receive clientSocket =>
    cases event with
    | answered =>
      cases hstep
      exact ⟨haccounts, rfl⟩
    | socket remoteSocket =>
      simp only [step] at hstep
      split at hstep
      case isTrue =>
        obtain ⟨t₁, hacquire, heq⟩ := Option.map_eq_some_iff.mp hstep
        cases heq
        obtain ⟨h₁, hlost⟩ := haccounts.acquire hacquire
        exact ⟨h₁.congr (htwo clientSocket remoteSocket).symm, by rw [hlost]; rfl⟩
      case isFalse => contradiction
    | _ => contradiction
  | connect clientSocket remoteSocket =>
    have hremote := haccounts.congr (htwo clientSocket remoteSocket)
    cases event with
    | refused =>
      cases hstep
      exact ⟨hremote.forget, Multiset.card_cons _ _⟩
    | connected =>
      cases hstep
      exact ⟨haccounts, rfl⟩
    | _ => contradiction
  | relay clientSocket remoteSocketID =>
    have hremote := haccounts.congr (htwo clientSocket remoteSocketID)
    cases event with
    | responded =>
      cases closesRemote with
      | false =>
        cases hstep
        exact ⟨hremote.forget, Multiset.card_cons _ _⟩
      | true =>
        obtain ⟨_, hclose, heq⟩ := Option.map_eq_some_iff.mp hstep
        cases heq
        obtain ⟨h₁, hlost⟩ := hremote.of_close hclose
        exact ⟨h₁, by rw [hlost]; rfl⟩
    | _ => contradiction
  | shutdown clientSocket =>
    have hclient := haccounts.congr (Multiset.singleton_add clientSocket others)
    cases event with
    | close =>
      obtain ⟨_, hclose, heq⟩ := Option.map_eq_some_iff.mp hstep
      cases heq
      obtain ⟨h₁, hlost⟩ := hclient.of_close hclose
      exact ⟨h₁.congr (zero_add others).symm, by rw [hlost]; rfl⟩
    | _ => contradiction

theorem step_client {next : Handling}
    (hstep : step closesRemote limit t h event = some (some next, t')) :
    next.client = h.client := by
  cases h with
  | receive clientSocket =>
    cases event with
    | answered =>
      cases hstep
      rfl
    | socket remoteSocket =>
      simp only [step] at hstep
      split at hstep
      case isTrue =>
        obtain ⟨_, _, heq⟩ := Option.map_eq_some_iff.mp hstep
        cases heq
        rfl
      case isFalse => contradiction
    | _ => contradiction
  | connect clientSocket remoteSocket =>
    cases event with
    | refused =>
      cases hstep
      rfl
    | connected =>
      cases hstep
      rfl
    | _ => contradiction
  | relay clientSocket remoteSocketID =>
    cases event with
    | responded =>
      simp only [step] at hstep
      split at hstep
      case isTrue =>
        obtain ⟨_, _, heq⟩ := Option.map_eq_some_iff.mp hstep
        cases heq
        rfl
      case isFalse =>
        cases hstep
        rfl
    | _ => contradiction
  | shutdown clientSocket =>
    cases event with
    | close =>
      obtain ⟨_, _, heq⟩ := Option.map_eq_some_iff.mp hstep
      cases heq
    | _ => contradiction

/-- Every descriptor that the handler closes is open. -/
theorem step_defined (closesRemote : Bool) (haccounts : t.Accounts limit (h.held + others))
    (hpermitted : Permitted limit t h event) :
    ∃ r, step closesRemote limit t h event = some r := by
  have hheld (x : ℤ) (hx : x ∈ h.held) : ∃ t', t.close x = some t' := by
    refine ⟨_, if_pos ?_⟩
    rw [← Finset.mem_val, haccounts.opened]
    exact Multiset.mem_add.mpr (Or.inl (Multiset.mem_add.mpr (Or.inl hx)))
  cases h with
  | receive clientSocket =>
    cases event with
    | answered => exact ⟨_, rfl⟩
    | socket remoteSocket =>
      obtain ⟨hvalid, hroom⟩ := hpermitted
      simp only [step, if_pos hvalid, Table.acquire, if_pos hroom, Option.map_some]
      exact ⟨_, rfl⟩
    | _ => cases hpermitted
  | connect clientSocket remoteSocket =>
    cases event with
    | refused => exact ⟨_, rfl⟩
    | connected => exact ⟨_, rfl⟩
    | _ => cases hpermitted
  | relay clientSocket remoteSocketID =>
    cases event with
    | responded =>
      cases closesRemote with
      | false => exact ⟨_, rfl⟩
      | true =>
        obtain ⟨t', hclose⟩ := hheld remoteSocketID (by simp [held])
        simp only [step, if_true, hclose, Option.map_some]
        exact ⟨_, rfl⟩
    | _ => cases hpermitted
  | shutdown clientSocket =>
    cases event with
    | close =>
      obtain ⟨t', hclose⟩ := hheld clientSocket (by simp [held])
      simp only [step, hclose, Option.map_some]
      exact ⟨_, rfl⟩
    | _ => cases hpermitted

end Handling

end ProxyServer.V1
