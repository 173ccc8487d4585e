import ProxyServer.ResponseLoop

/-!
The two `int`s of the response loop, followed as numbers without a bound. The size
grows by `MAX_BYTES` with every piece and the index by what `send` has taken of it,
so that the index stays behind as long as no send fails. The answer -1 is converted
to a `size_t` before it is looked at, and the copy then leaves both buffers. Whatever
the pieces hold, the size exceeds the largest `int` with the 524287th of them.
-/
namespace ProxyServer.V1

open CStrings

def intMax : ℤ := 2 ^ 31 - 1

theorem intMax_eq : intMax = 2147483647 := rfl

/-- The results of a `recv` of at most `MAX_BYTES - 1` bytes and of the `send`
after it. -/
structure Segment where
  received : ℤ
  sent : ℤ
  received_pos : 1 ≤ received
  received_le : received ≤ maxBytes - 1
  sent_le : sent ≤ received
  le_sent : -2 ^ 31 ≤ sent
  deriving DecidableEq

/-- `temp_buffer_index` and `temp_buffer_size`. -/
structure Counters where
  index : ℤ
  size : ℤ
  deriving DecidableEq, Repr

/-- A byte is written at the index, or one of the counters gets a new value. -/
inductive CounterEvent
  | write (c : Counters)
  | set (c : Counters)
  deriving DecidableEq, Repr

namespace CounterEvent

def Safe : CounterEvent → Prop
  | .write c => c.index < c.size
  | .set c => c.index ≤ intMax ∧ c.size ≤ intMax

instance : DecidablePred Safe
  | .write _ => inferInstanceAs (Decidable (_ < _))
  | .set _ => inferInstanceAs (Decidable (_ ∧ _))

end CounterEvent

namespace Counters

def start : Counters := ⟨0, maxBytes⟩

/-- The turns of the inner loop, and the counters after it. -/
def copyLoop : ℕ → Counters → List CounterEvent × Counters
  | 0, c => ([], c)
  | n + 1, c =>
      let next := { c with index := c.index + 1 }
      let r := copyLoop n next
      (.write c :: .set next :: r.1, r.2)

/-- `temp_buffer_size += MAX_BYTES` -/
def grow (c : Counters) : Counters := { c with size := c.size + maxBytes }

/-- The outer loop and the NUL that follows it. The number of turns of the inner one
is the answer of `send` as a `size_t`. -/
def responseLoop (c : Counters) : List Segment → List CounterEvent
  | [] => [.write c]
  | s :: rest =>
      let r := copyLoop (sizeT s.sent) c
      r.1 ++ .set r.2.grow ::
        (if s.sent < 0 then [.write r.2.grow] else responseLoop r.2.grow rest)

def events (segments : List Segment) : List CounterEvent :=
  .set start :: responseLoop start segments

/-- What the loop does keeps inside the buffer and the range of `int`. -/
def AllSafe (es : List CounterEvent) : Prop := ∀ e ∈ es, e.Safe

instance : DecidablePred AllSafe := fun _ => List.decidableBAll _ _

section Copy

theorem copyLoop_snd (n : ℕ) :
    ∀ c : Counters, (copyLoop n c).2 = { c with index := c.index + n } := by
  induction n with
  | zero =>
    intro c
    simp [copyLoop]
  | succ n ih =>
    intro c
    rw [copyLoop]
    dsimp only
    rw [ih]
    simp only [Counters.mk.injEq, and_true]
    omega

theorem copyLoop_safe (n : ℕ) :
    ∀ c : Counters, c.index + n ≤ c.size → c.size ≤ intMax → AllSafe (copyLoop n c).1 := by
  induction n with
  | zero =>
    intro c _ _ e he
    exact absurd he List.not_mem_nil
  | succ n ih =>
    intro c hfits hsize e he
    rcases List.mem_cons.mp he with rfl | he
    · show c.index < c.size
      omega
    · rcases List.mem_cons.mp he with rfl | he
      · show c.index + 1 ≤ intMax ∧ c.size ≤ intMax
        omega
      · apply ih { c with index := c.index + 1 } _ hsize e he
        dsimp only
        omega

/-- A copy with more bytes than are left writes behind the end of the buffer. -/
theorem copyLoop_write (n : ℕ) :
    ∀ c : Counters, c.index ≤ c.size → c.size < c.index + n →
      .write { c with index := c.size } ∈ (copyLoop n c).1 := by
  induction n with
  | zero =>
    intro c hle hlt
    omega
  | succ n ih =>
    rintro ⟨index, size⟩ hle hlt
    dsimp only at hle hlt
    rcases hle.eq_or_lt with rfl | hroom
    · exact List.mem_cons_self
    · apply List.mem_cons_of_mem
      apply List.mem_cons_of_mem
      apply ih ⟨index + 1, size⟩
      · dsimp only
        omega
      · dsimp only
        omega

end Copy

/-- After `k` pieces the buffer has grown by more than has been copied. -/
structure Gap (k : ℕ) (c : Counters) : Prop where
  index_nonneg : 0 ≤ c.index
  index_le : c.index ≤ (maxBytes - 1 : ℤ) * k
  size : c.size = maxBytes * (k + 1 : ℤ)
  few : k ≤ 524286

namespace Gap

variable {k : ℕ} {c : Counters}

theorem start : Gap 0 start := ⟨le_refl 0, le_refl 0, rfl, Nat.zero_le _⟩

theorem size_le (h : Gap k c) : c.size ≤ intMax := by
  have hsize : c.size = 4096 * (k + 1 : ℤ) := h.size
  have hfew := h.few
  rw [intMax_eq]
  omega

theorem index_lt (h : Gap k c) : c.index < c.size := by
  have hsize : c.size = 4096 * (k + 1 : ℤ) := h.size
  have hindex : c.index ≤ 4095 * (k : ℤ) := h.index_le
  omega

theorem sizeT_sent {s : Segment} (h : 0 ≤ s.sent) : (sizeT s.sent : ℤ) = s.sent := by
  have hle := s.sent_le
  have hreceived : s.received ≤ 4095 := s.received_le
  rw [sizeT, Int.emod_eq_of_lt h (by omega), Int.toNat_of_nonneg h]

/-- What a negative answer becomes as a `size_t` is larger than any buffer here. -/
theorem le_sizeT_sent {s : Segment} (h : s.sent < 0) :
    (2 ^ 63 : ℤ) ≤ (sizeT s.sent : ℤ) := by
  have hle := s.le_sent
  have hmod : s.sent % 2 ^ 64 = s.sent + 2 ^ 64 := by
    rw [← Int.add_emod_right, Int.emod_eq_of_lt (by omega) (by omega)]
  rw [sizeT, hmod, Int.toNat_of_nonneg (by omega)]
  omega

/-- A piece that `send` has taken fits, and the gap is wider after it, unless there
have been too many. -/
theorem copied (h : Gap k c) {s : Segment} (hs : 0 ≤ s.sent) :
    AllSafe (copyLoop (sizeT s.sent) c).1 ∧
      (k + 1 ≤ 524286 → Gap (k + 1) (copyLoop (sizeT s.sent) c).2.grow) ∧
      (524286 < k + 1 → ¬ (CounterEvent.set (copyLoop (sizeT s.sent) c).2.grow).Safe) := by
  have hsize : c.size = 4096 * (k + 1 : ℤ) := h.size
  have hindex : c.index ≤ 4095 * (k : ℤ) := h.index_le
  have hnonneg := h.index_nonneg
  have hcount := sizeT_sent hs
  have hle : s.sent ≤ 4095 := s.sent_le.trans s.received_le
  rw [copyLoop_snd]
  refine ⟨copyLoop_safe _ c (by omega) h.size_le, fun hfew => ⟨?_, ?_, ?_, hfew⟩, fun hmany => ?_⟩
  · show 0 ≤ c.index + sizeT s.sent
    omega
  · show c.index + sizeT s.sent ≤ 4095 * ((k + 1 : ℕ) : ℤ)
    omega
  · show c.size + 4096 = 4096 * (((k + 1 : ℕ) : ℤ) + 1)
    omega
  · rintro ⟨_, hsafe⟩
    have hgrown : c.size + 4096 ≤ 2147483647 := hsafe
    omega

theorem not_safe_of_failed (h : Gap k c) {s : Segment} (hs : s.sent < 0) :
    ¬ AllSafe (copyLoop (sizeT s.sent) c).1 := by
  intro hsafe
  have hcount := le_sizeT_sent hs
  have hsize := h.size_le
  have hnonneg := h.index_nonneg
  rw [intMax_eq] at hsize
  have hwrite := copyLoop_write (sizeT s.sent) c h.index_lt.le (by omega)
  exact lt_irrefl c.size (hsafe _ hwrite)

theorem responseLoop_safe_iff (segments : List Segment) :
    ∀ {k : ℕ} {c : Counters}, Gap k c →
      (AllSafe (responseLoop c segments) ↔
        (∀ s ∈ segments, 0 ≤ s.sent) ∧ k + segments.length ≤ 524286) := by
  induction segments with
  | nil =>
    intro k c h
    refine iff_of_true ?_ ⟨by simp, h.few⟩
    intro e he
    rw [List.mem_singleton.mp he]
    exact h.index_lt
  | cons s rest ih =>
    intro k c h
    rw [responseLoop]
    by_cases hs : s.sent < 0
    · refine iff_of_false ?_ ?_
      · intro hsafe
        exact h.not_safe_of_failed hs (fun e he => hsafe e (List.mem_append_left _ he))
      · rintro ⟨hsent, _⟩
        exact absurd (hsent s List.mem_cons_self) (not_le.mpr hs)
    · rw [if_neg hs]
      obtain ⟨hcopy, hfew, hmany⟩ := h.copied (not_lt.mp hs)
      by_cases hk : k + 1 ≤ 524286
      · have hrest := ih (hfew hk)
        have hset : (CounterEvent.set (copyLoop (sizeT s.sent) c).2.grow).Safe :=
          ⟨(hfew hk).index_lt.le.trans (hfew hk).size_le, (hfew hk).size_le⟩
        have hlength : k + (s :: rest).length = k + 1 + rest.length := by
          rw [List.length_cons]
          omega
        rw [hlength, List.forall_mem_cons, and_assoc]
        unfold AllSafe at hcopy hrest ⊢
        rw [List.forall_mem_append, List.forall_mem_cons, hrest]
        exact ⟨fun hall => ⟨not_lt.mp hs, hall.2.2⟩, fun hall => ⟨hcopy, hset, hall.2⟩⟩
      · refine iff_of_false ?_ ?_
        · intro hsafe
          apply hmany (not_le.mp hk)
          exact hsafe _ (List.mem_append_right _ List.mem_cons_self)
        · rintro ⟨_, hlength⟩
          rw [List.length_cons] at hlength
          omega

end Gap

theorem start_safe : (CounterEvent.set start).Safe := by decide

theorem events_safe (segments : List Segment) :
    AllSafe (events segments) ↔ AllSafe (responseLoop start segments) := by
  unfold AllSafe events
  rw [List.forall_mem_cons]
  exact and_iff_right start_safe

/-- The loop is safe exactly when no send fails and `recv` has at most 524286 results. -/
theorem counters_safe_iff (segments : List Segment) :
    AllSafe (events segments) ↔ (∀ s ∈ segments, 0 ≤ s.sent) ∧ segments.length ≤ 524286 := by
  rw [events_safe, Gap.responseLoop_safe_iff segments Gap.start, Nat.zero_add]

def oneByte : Segment := ⟨1, 1, by decide, by decide, by decide, by decide⟩

/-- One byte that is received, and a send that fails. -/
def failedSend : Segment := ⟨1, -1, by decide, by decide, by decide, by decide⟩

theorem counters_exceed : ¬ AllSafe (events (List.replicate 524287 oneByte)) ∧
    ¬ AllSafe (events [failedSend]) := by
  constructor
  · rw [events_safe, Gap.responseLoop_safe_iff _ Gap.start, List.length_replicate]
    omega
  · rw [events_safe, Gap.responseLoop_safe_iff _ Gap.start]
    rintro ⟨hsent, _⟩
    exact absurd (hsent failedSend List.mem_cons_self) (by decide)

end Counters

section Relay

open Counters

/-- A turn of the relay, as the results of its two calls. -/
def Segment.ofTurn (t : List Char × SendResult) (h : IsTurn t) : Segment where
  received := t.1.length
  sent := (passedOn t).length
  received_pos := by exact_mod_cast h.1
  received_le := by
    have hle : t.1.length ≤ 4095 := h.2.1
    show (t.1.length : ℤ) ≤ 4095
    omega
  sent_le := by exact_mod_cast h.passedOn_isPrefix.length_le
  le_sent := by omega

def Relay.counters (r : Relay) : Counters := ⟨r.index, r.tempBufferSize⟩

/-- The counters are those of the relay that holds the bytes. -/
theorem Relayed.counters_turn {k : ℕ} {r r' : Relay} (h : Relayed k r) {t : List Char × SendResult}
    (ht : IsTurn t) (hturn : r.turn t = some r') :
    r'.counters = (copyLoop (sizeT (Segment.ofTurn t ht).sent) r.counters).2.grow := by
  have hsent : (sizeT (Segment.ofTurn t ht).sent : ℤ) = (passedOn t).length :=
    Gap.sizeT_sent (Int.natCast_nonneg _)
  rcases h.turn ht with ⟨_, r₁, hr₁, h₁, hclient⟩ | ⟨_, hnone⟩
  · rw [hturn] at hr₁
    cases hr₁
    rw [copyLoop_snd, hsent]
    simp only [Relay.counters, Relay.index, grow, Counters.mk.injEq]
    constructor
    · rw [h₁.copied, hclient, ← h.copied, List.length_append]
      exact Int.natCast_add _ _
    · have hbefore : r.tempBufferSize = 4096 * (k + 1 : ℤ) := h.size
      have hafter : r'.tempBufferSize = 4096 * (((k + 1 : ℕ) : ℤ) + 1) := h₁.size
      show r'.tempBufferSize = r.tempBufferSize + 4096
      omega
  · rw [hturn] at hnone
    contradiction

/-- The relay is defined exactly where its counters are safe. -/
theorem relay_defined_iff {turns : List (List Char × SendResult)} (hturns : ∀ t ∈ turns, IsTurn t) :
    (∃ r, Runs.run Relay.turn Relay.start turns = some r) ↔
      AllSafe (events (turns.pmap Segment.ofTurn hturns)) := by
  rw [events_safe, Gap.responseLoop_safe_iff _ Gap.start, List.length_pmap, Nat.zero_add]
  have hsent : ∀ s ∈ turns.pmap Segment.ofTurn hturns, 0 ≤ s.sent := by
    intro s hs
    obtain ⟨t, ht, rfl⟩ := List.mem_pmap.mp hs
    exact Int.natCast_nonneg _
  rw [and_iff_right hsent]
  rcases Relayed.start.run turns hturns with ⟨hfew, r, hrun, _⟩ | ⟨hmany, hnone⟩
  · exact iff_of_true ⟨r, hrun⟩ (by omega)
  · refine iff_of_false ?_ (by omega)
    rintro ⟨r, hrun⟩
    rw [hnone] at hrun
    contradiction

end Relay

end ProxyServer.V1
