import ProxyServer.Blocks
import ProxyServer.ProxyUtils
import ProxyServer.Runs

/-!
The loop of the C `handle_request` that passes a response on. What `send` has
taken of a piece is copied to `temp_buffer`, which is then made larger by
`MAX_BYTES`, whatever its size; so the copy stays inside the buffer, and the `int`
that counts the size overflows with the piece after 524286 of them.
-/
namespace ProxyServer.V1

open CStrings

abbrev maxBytes : ℕ := 4096

/-- The result of an operation on `int`s, unless it overflows. -/
def intResult (n : ℤ) : Option ℤ := if -2 ^ 31 ≤ n ∧ n < 2 ^ 31 then some n else none

/-- The bytes of `temp_buffer` before `temp_buffer_index`, and what the client has
been sent. -/
structure Relay where
  tempBuffer : List Char
  tempBufferSize : ℤ
  client : List Char
  deriving DecidableEq, Repr

namespace Relay

def start : Relay := ⟨[], maxBytes, []⟩

def index (r : Relay) : ℤ := r.tempBuffer.length

/-- `temp_buffer[temp_buffer_index] = c`, within the allocation. -/
def write (r : Relay) (c : Char) : Option Relay :=
  if r.tempBufferSize ≤ r.index then none
  else (intResult (r.index + 1)).map (fun _ => { r with tempBuffer := r.tempBuffer ++ [c] })

/-- A turn with what `recv` has put in `buf` and the answer of `send`. After an
error the copy runs through both buffers, and a broken pipe ends the process. -/
def turn (r : Relay) : List Char × SendResult → Option Relay
  | (buf, .sent extra) => do
      let r ← Runs.run write { r with client := r.client ++ buf.take (extra + 1) }
        (buf.take (extra + 1))
      let size ← intResult (r.tempBufferSize + maxBytes)
      some { r with tempBufferSize := size }
  | (_, .error) => none
  | (_, .brokenPipe) => none

end Relay

/-- What the origin has sent. -/
def response (turns : List (List Char × SendResult)) : List Char := turns.flatMap Prod.fst

/-- `recv` was asked for `MAX_BYTES - 1` bytes, and `send` took some of them. -/
def IsTurn (turn : List Char × SendResult) : Prop :=
  1 ≤ turn.1.length ∧ turn.1.length ≤ maxBytes - 1 ∧ ∃ extra, turn.2 = .sent extra

/-- The bytes of the piece that the client is sent. -/
def passedOn : List Char × SendResult → List Char
  | (buf, .sent extra) => buf.take (extra + 1)
  | _ => []

theorem intResult_of_lt {n : ℤ} (hle : 0 ≤ n) (hlt : n < 2 ^ 31) : intResult n = some n :=
  if_pos ⟨by omega, hlt⟩

theorem intResult_of_ge {n : ℤ} (hge : 2 ^ 31 ≤ n) : intResult n = none :=
  if_neg (by omega)

theorem IsTurn.passedOn_isPrefix {turn : List Char × SendResult} (h : IsTurn turn) :
    passedOn turn <+: turn.1 := by
  obtain ⟨buf, send⟩ := turn
  obtain ⟨_, _, extra, rfl⟩ := h
  exact List.take_prefix (extra + 1) buf

theorem Relay.run_write {r : Relay} (bytes : List Char) :
    (r.tempBuffer.length : ℤ) + bytes.length ≤ r.tempBufferSize →
      (r.tempBuffer.length : ℤ) + bytes.length < 2 ^ 31 →
      Runs.run write r bytes = some { r with tempBuffer := r.tempBuffer ++ bytes } := by
  induction bytes generalizing r with
  | nil =>
    intro _ _
    rw [Runs.run_nil, List.append_nil]
  | cons c bytes ih =>
    intro hfits hlt
    rw [List.length_cons] at hfits hlt
    have hwrite : r.write c = some { r with tempBuffer := r.tempBuffer ++ [c] } := by
      rw [write, index, if_neg (by omega), intResult_of_lt (by omega) (by omega)]
      rfl
    have hlength : (r.tempBuffer ++ [c]).length = r.tempBuffer.length + 1 := List.length_append
    rw [Runs.run_cons, hwrite, Option.bind_some, ih]
    · simp only [List.append_assoc, List.singleton_append]
    · dsimp only
      omega
    · dsimp only
      omega

/-- After `k` turns the buffer has grown by more than has been copied. -/
structure Relayed (k : ℕ) (r : Relay) : Prop where
  copied : r.tempBuffer = r.client
  length : r.tempBuffer.length ≤ (maxBytes - 1) * k
  size : r.tempBufferSize = maxBytes * (k + 1)
  few : k ≤ 524286

namespace Relayed

variable {k : ℕ} {r : Relay}

theorem start : Relayed 0 Relay.start := ⟨rfl, le_refl 0, rfl, Nat.zero_le _⟩

theorem turn (h : Relayed k r) {t : List Char × SendResult} (ht : IsTurn t) :
    (k + 1 ≤ 524286 ∧ ∃ r', r.turn t = some r' ∧ Relayed (k + 1) r' ∧
      r'.client = r.client ++ passedOn t) ∨
    (524286 < k + 1 ∧ r.turn t = none) := by
  obtain ⟨buf, send⟩ := t
  obtain ⟨_, hsize, extra, rfl⟩ := ht
  have hlength : r.tempBuffer.length ≤ 4095 * k := h.length
  have hcount : r.tempBufferSize = 4096 * (k + 1) := h.size
  have hfew := h.few
  have htake : (buf.take (extra + 1)).length ≤ 4095 := (List.length_take_le' _ buf).trans hsize
  have hwritten : Runs.run Relay.write { r with client := r.client ++ buf.take (extra + 1) }
      (buf.take (extra + 1)) = some ⟨r.tempBuffer ++ buf.take (extra + 1), r.tempBufferSize,
        r.client ++ buf.take (extra + 1)⟩ := by
    apply Relay.run_write
    · dsimp only
      omega
    · dsimp only
      omega
  have hgrown : r.tempBufferSize + maxBytes = 4096 * (k + 2) := by
    rw [hcount]
    show (4096 * (k + 1) + 4096 : ℤ) = 4096 * (k + 2)
    omega
  rw [Relay.turn, hwritten]
  simp only [Option.bind_eq_bind, Option.bind_some, hgrown]
  by_cases hk : k + 1 ≤ 524286
  · left
    rw [intResult_of_lt (by omega) (by omega)]
    refine ⟨hk, _, rfl, ⟨?_, ?_, ?_, hk⟩, rfl⟩
    · dsimp only
      rw [h.copied]
    · show (r.tempBuffer ++ buf.take (extra + 1)).length ≤ 4095 * (k + 1)
      rw [List.length_append]
      omega
    · show (4096 * (k + 2) : ℤ) = 4096 * ((k + 1 : ℕ) + 1)
      omega
  · right
    rw [intResult_of_ge (by omega)]
    exact ⟨by omega, rfl⟩

/-- The loop is defined for no more than 524286 pieces, and copies what the client
is sent. -/
theorem run (turns : List (List Char × SendResult)) :
    ∀ {k : ℕ} {r : Relay}, Relayed k r → (∀ t ∈ turns, IsTurn t) →
      (k + turns.length ≤ 524286 ∧ ∃ r', Runs.run Relay.turn r turns = some r' ∧
        Relayed (k + turns.length) r' ∧ r'.client = r.client ++ turns.flatMap passedOn) ∨
      (524286 < k + turns.length ∧ Runs.run Relay.turn r turns = none) := by
  induction turns with
  | nil =>
    intro k r h _
    exact Or.inl ⟨h.few, r, rfl, h, by simp⟩
  | cons t turns ih =>
    intro k r h hturns
    have hrest : ∀ x ∈ turns, IsTurn x := fun x hx => hturns x (List.mem_cons_of_mem t hx)
    have hlength : k + (t :: turns).length = k + 1 + turns.length := by
      rw [List.length_cons]
      omega
    rw [hlength, Runs.run_cons]
    rcases h.turn (hturns t List.mem_cons_self) with ⟨_, r₁, hr₁, h₁, hclient⟩ | ⟨hmany, hnone⟩
    · rw [hr₁, Option.bind_some]
      rcases ih h₁ hrest with ⟨hfew, r', hrun, h', hclient'⟩ | ⟨hmany, hnone⟩
      · refine Or.inl ⟨hfew, r', hrun, h', ?_⟩
        rw [hclient', hclient, List.flatMap_cons, List.append_assoc]
      · exact Or.inr ⟨hmany, hnone⟩
    · rw [hnone]
      exact Or.inr ⟨by omega, rfl⟩

end Relayed

/-- The client is sent the response when every piece is taken whole. -/
theorem passedOn_eq_response_iff {turns : List (List Char × SendResult)}
    (hturns : ∀ t ∈ turns, IsTurn t) :
    turns.flatMap passedOn = response turns ↔ ∀ t ∈ turns, passedOn t = t.1 :=
  Blocks.flatMap_eq_iff_of_prefix turns (fun t ht => (hturns t ht).passedOn_isPrefix)

end ProxyServer.V1
