import ProxyServer.ResponseLoop

/-!
The receive loop of the C proxies. Each `recv` writes behind the text that is in
the buffer, as far as the buffer goes, and the loop ends with the first blank line,
with an error, or when the client has closed. A request without NULs is read within
the buffer for every way of arriving just when it is shorter than the buffer. Its
text is the key in the cache, and how much of it is there depends on the way of
arriving as soon as anything follows the first blank line.
-/
namespace ProxyServer.V1

open CStrings

/-- The buffer with a piece written at an offset. -/
def overwrite (buffer : List Char) (offset : ℕ) (piece : List Char) : List Char :=
  buffer.take offset ++ piece ++ buffer.drop (offset + piece.length)

/-- A client's side of the loop: what is in the buffer, what is still to come, and
what the last `recv` answered. -/
structure Receiving where
  buffer : List Char
  rest : List Char
  bytesSendClient : ℤ
  deriving DecidableEq, Repr

namespace Receiving

/-- `recv(client_socket, buffer + len, MAX_BYTES - len, 0)`; no answer is an error,
and any other says how many bytes more than one there are, if there are. -/
def recv (s : Receiving) (len : ℕ) : Option ℕ → Receiving
  | none => { s with bytesSendClient := -1 }
  | some extra =>
      let piece := s.rest.take (min (extra + 1) (maxBytes - len))
      ⟨overwrite s.buffer len piece, s.rest.drop piece.length, piece.length⟩

/-- After `calloc` and `bzero`. -/
def start (stream : List Char) : Receiving := ⟨List.replicate maxBytes nul, stream, 0⟩

/-- The loop, which every turn but the last takes bytes from the stream; `none`
where `strlen` reads past the buffer. -/
def loop (answers : ℕ → Option ℕ) : ℕ → ℕ → Receiving → Option Receiving
  | 0, _, _ => none
  | fuel + 1, k, s =>
      if s.bytesSendClient ≤ 0 then some s
      else match cstring s.buffer with
        | none => none
        | some text =>
            if crlf ++ crlf <:+: text then some s
            else loop answers fuel (k + 1) (s.recv text.length (answers k))

/-- The text of the buffer after the loop and the sign of the last answer. -/
def receive (answers : ℕ → Option ℕ) (stream : List Char) : Option (CString × ℤ) := do
  let s ← loop answers (stream.length + 2) 1 ((start stream).recv 0 (answers 0))
  let text ← cstring s.buffer
  return (text, s.bytesSendClient.sign)

/-- The first `m` bytes of the stream are in the buffer, and nothing else is. -/
structure Filled (stream : List Char) (m : ℕ) (s : Receiving) : Prop where
  buffer : s.buffer = stream.take m ++ List.replicate (maxBytes - m) nul
  rest : s.rest = stream.drop m
  room : m ≤ maxBytes
  within : m ≤ stream.length

theorem filled_start (stream : List Char) : Filled stream 0 (start stream) :=
  ⟨rfl, rfl, Nat.zero_le _, Nat.zero_le _⟩

/-- How many bytes an answer takes. -/
def taken (stream : List Char) (m extra : ℕ) : ℕ :=
  min (min (extra + 1) (maxBytes - m)) (stream.length - m)

theorem overwrite_replicate (front piece : List Char) (n : ℕ) :
    overwrite (front ++ List.replicate n nul) front.length piece =
      front ++ piece ++ List.replicate (n - piece.length) nul := by
  rw [overwrite, List.take_left, List.drop_append, List.drop_eq_nil_of_le (by omega),
    List.nil_append, Nat.add_sub_cancel_left, List.drop_replicate]

variable {stream : List Char} {m : ℕ} {s : Receiving}

theorem Filled.recv (h : Filled stream m s) (extra : ℕ) :
    Filled stream (m + taken stream m extra) (s.recv m (some extra)) ∧
      (s.recv m (some extra)).bytesSendClient = taken stream m extra := by
  have hroom := h.room
  have hwithin := h.within
  have hlength : (s.rest.take (min (extra + 1) (maxBytes - m))).length = taken stream m extra := by
    rw [h.rest, List.length_take, List.length_drop, taken]
  have hpiece : s.rest.take (min (extra + 1) (maxBytes - m)) =
      (stream.drop m).take (taken stream m extra) := by
    rw [h.rest, List.take_eq_take_iff, List.length_drop, taken]
    omega
  have htaken : taken stream m extra ≤ maxBytes - m ∧ taken stream m extra ≤ stream.length - m := by
    unfold taken
    omega
  refine ⟨⟨?_, ?_, by omega, by omega⟩, ?_⟩
  · have hfront : (stream.take m).length = m := List.length_take_of_le hwithin
    have hover := overwrite_replicate (stream.take m)
      (s.rest.take (min (extra + 1) (maxBytes - m))) (maxBytes - m)
    rw [hfront, hlength] at hover
    show overwrite s.buffer m _ = _
    rw [h.buffer, hover, hpiece, List.take_add, Nat.sub_sub]
  · show s.rest.drop _ = _
    rw [hlength, h.rest, List.drop_drop]
  · show ((List.length _ : ℕ) : ℤ) = _
    rw [hlength]

theorem Filled.cstring (h : Filled stream m s) (hn : nul ∉ stream) (hm : m < maxBytes) :
    CStrings.cstring s.buffer = some (stream.take m) := by
  obtain ⟨n, hn'⟩ : ∃ n, maxBytes - m = n + 1 := ⟨maxBytes - m - 1, by omega⟩
  rw [h.buffer, hn', List.replicate_succ]
  exact cstring_append (fun hmem => hn (List.mem_of_mem_take hmem)) _

theorem Filled.cstring_full (h : Filled stream m s) (hn : nul ∉ stream) (hm : m = maxBytes) :
    CStrings.cstring s.buffer = none := by
  rw [h.buffer, hm, Nat.sub_self, List.replicate_zero, List.append_nil]
  exact if_neg (fun hmem => hn (List.mem_of_mem_take hmem))

/-- What every turn keeps holds at the end, and the loop has an end. -/
theorem loop_rule (hn : nul ∉ stream) (hlen : stream.length < maxBytes) (answers : ℕ → Option ℕ)
    {I : ℕ → Receiving → Prop} (hfilled : ∀ m s, I m s → Filled stream m s)
    (hturn : ∀ k m s, I m s → 0 < s.bytesSendClient → ¬ crlf ++ crlf <:+: stream.take m →
      ∃ m', I m' (s.recv m (answers k)) ∧
        (0 < (s.recv m (answers k)).bytesSendClient → m < m'))
    (fuel : ℕ) : ∀ k m s, I m s → 1 ≤ fuel →
      (0 < s.bytesSendClient → stream.length - m + 2 ≤ fuel) →
      ∃ m' s', loop answers fuel k s = some s' ∧ I m' s' ∧
        (s'.bytesSendClient ≤ 0 ∨ crlf ++ crlf <:+: stream.take m') := by
  induction fuel with
  | zero =>
    intro k m s _ hfuel _
    omega
  | succ fuel ih =>
    intro k m s hI _ hfuel
    have hf := hfilled m s hI
    have hm := hf.within
    rw [loop]
    by_cases hdone : s.bytesSendClient ≤ 0
    · rw [if_pos hdone]
      exact ⟨m, s, rfl, hI, Or.inl hdone⟩
    · rw [if_neg hdone, hf.cstring hn (by omega)]
      dsimp only
      by_cases hblank : crlf ++ crlf <:+: stream.take m
      · rw [if_pos hblank]
        exact ⟨m, s, rfl, hI, Or.inr hblank⟩
      · rw [if_neg hblank, List.length_take_of_le hm]
        obtain ⟨m', hI', hgrow⟩ := hturn k m s hI (by omega) hblank
        have hm' := (hfilled m' _ hI').within
        apply ih (k + 1) m' _ hI'
        · have := hfuel (by omega)
          omega
        · intro hpos
          have := hfuel (by omega)
          have := hgrow hpos
          omega

/-- The same for the whole of `receive`, which begins with a `recv` of its own. -/
theorem receive_rule (hn : nul ∉ stream) (hlen : stream.length < maxBytes) (answers : ℕ → Option ℕ)
    {I : ℕ → Receiving → Prop} (hfilled : ∀ m s, I m s → Filled stream m s)
    (hturn : ∀ k m s, I m s → 0 < s.bytesSendClient → ¬ crlf ++ crlf <:+: stream.take m →
      ∃ m', I m' (s.recv m (answers k)) ∧
        (0 < (s.recv m (answers k)).bytesSendClient → m < m'))
    (hstart : ∃ m, I m ((start stream).recv 0 (answers 0))) :
    ∃ m s, receive answers stream = some (stream.take m, s.bytesSendClient.sign) ∧ I m s ∧
      (s.bytesSendClient ≤ 0 ∨ crlf ++ crlf <:+: stream.take m) := by
  obtain ⟨m₀, hI⟩ := hstart
  obtain ⟨m, s, hloop, hI', hend⟩ := loop_rule hn hlen answers hfilled hturn (stream.length + 2)
    1 m₀ _ hI (by omega) (fun _ => by omega)
  have hf := hfilled m s hI'
  refine ⟨m, s, ?_, hI', hend⟩
  have hwithin := hf.within
  rw [receive, hloop, Option.bind_eq_bind, Option.bind_some, hf.cstring hn (by omega)]
  rfl

/-- A first `recv` that answers takes what it says from the front. -/
theorem filled_first (stream : List Char) (extra : ℕ) :
    Filled stream (taken stream 0 extra) ((start stream).recv 0 (some extra)) ∧
      ((start stream).recv 0 (some extra)).bytesSendClient = taken stream 0 extra := by
  have h := (filled_start stream).recv extra
  rwa [Nat.zero_add] at h

theorem Filled.recv_any (h : Filled stream m s) (answer : Option ℕ) :
    ∃ m', Filled stream m' (s.recv m answer) ∧
      (0 < (s.recv m answer).bytesSendClient → m < m') := by
  cases answer with
  | none =>
    refine ⟨m, ⟨h.buffer, h.rest, h.room, h.within⟩, fun hpos => ?_⟩
    have hpos' : (0 : ℤ) < -1 := hpos
    omega
  | some extra =>
    obtain ⟨hf, hbytes⟩ := h.recv extra
    exact ⟨_, hf, fun hpos => by omega⟩

theorem receive_isSome (hn : nul ∉ stream) (hlen : stream.length < maxBytes)
    (answers : ℕ → Option ℕ) : (receive answers stream).isSome := by
  obtain ⟨m₀, hfirst, _⟩ := (filled_start stream).recv_any (answers 0)
  obtain ⟨m, s, hreceive, _⟩ := receive_rule hn hlen answers (fun _ _ h => h)
    (fun k m s h _ _ => h.recv_any (answers k)) ⟨m₀, hfirst⟩
  rw [hreceive]
  rfl

/-- A first piece as long as the buffer leaves no NUL in it. -/
theorem receive_full (hn : nul ∉ stream) (hlen : maxBytes ≤ stream.length) :
    receive (fun _ => some (maxBytes - 1)) stream = none := by
  have htaken : taken stream 0 (maxBytes - 1) = maxBytes := by
    unfold taken
    have : (1 : ℕ) ≤ maxBytes := by decide
    omega
  obtain ⟨hf, hbytes⟩ := filled_first stream (maxBytes - 1)
  rw [htaken] at hf hbytes
  have hpos : ¬ ((start stream).recv 0 (some (maxBytes - 1))).bytesSendClient ≤ 0 := by
    rw [hbytes]
    decide
  rw [receive, loop, if_neg hpos, hf.cstring_full hn rfl]
  rfl

/-- The request is read within the buffer however it arrives just when it is shorter
than the buffer. -/
theorem reads_within_iff {stream : List Char} (hn : nul ∉ stream) :
    (∀ answers, (receive answers stream).isSome) ↔ stream.length < maxBytes := by
  constructor
  · intro hall
    by_contra hlen
    have hfull := hall (fun _ => some (maxBytes - 1))
    rw [receive_full hn (by omega)] at hfull
    cases hfull
  · exact fun hlen answers => receive_isSome hn hlen answers

theorem reads_within_iff_short :
    (∀ answers, (receive answers "GET / HTTP/1.0\r\n\r\n".toList).isSome) ↔
      "GET / HTTP/1.0\r\n\r\n".toList.length < maxBytes :=
  reads_within_iff (by decide)

/-- Some part of the stream before its end has a blank line. -/
def Overshoots (stream : List Char) : Prop :=
  ∃ m < stream.length, crlf ++ crlf <:+: stream.take m

section Keys

/-- Without an error, no answer is the end of the stream unless all of it is there
and has no blank line. -/
structure Continues (stream : List Char) (m : ℕ) (s : Receiving) : Prop where
  filled : Filled stream m s
  nonneg : 0 ≤ s.bytesSendClient
  ended : s.bytesSendClient = 0 → m = stream.length ∧ ¬ crlf ++ crlf <:+: stream

theorem Filled.continues (h : Filled stream m s) (extra : ℕ) (hm : m < maxBytes)
    (hblank : ¬ crlf ++ crlf <:+: stream.take m) :
    Continues stream (m + taken stream m extra) (s.recv m (some extra)) ∧
      (0 < (s.recv m (some extra)).bytesSendClient → m < m + taken stream m extra) := by
  obtain ⟨hf, hbytes⟩ := h.recv extra
  have hwithin := h.within
  refine ⟨⟨hf, by omega, ?_⟩, fun hpos => by omega⟩
  intro hzero
  have hm' : m = stream.length := by
    rw [hbytes, taken] at hzero
    omega
  rw [hm', List.take_length] at hblank
  refine ⟨?_, hblank⟩
  rw [hm', taken]
  omega

theorem receive_of_not_overshoots (hn : nul ∉ stream) (hlen : stream.length < maxBytes)
    (hno : ¬ Overshoots stream) (answers : ℕ → ℕ) :
    receive (fun k => some (answers k)) stream =
      some (stream, if crlf ++ crlf <:+: stream then 1 else 0) := by
  have hblank₀ : ¬ crlf ++ crlf <:+: stream.take 0 := by
    rw [List.take_zero, List.infix_nil]
    decide
  have hfirst := ((filled_start stream).continues (answers 0) (by decide) hblank₀).1
  obtain ⟨m, s, hreceive, hI, hend⟩ := receive_rule hn hlen (fun k => some (answers k))
    (I := Continues stream) (fun _ _ h => h.filled)
    (fun k m s h _ hblank => by
      have hm := h.filled.within
      exact ⟨_, h.filled.continues (answers k) (by omega) hblank⟩)
    ⟨_, hfirst⟩
  have hwithin := hI.filled.within
  have hm : m = stream.length := by
    rcases hend with hzero | hblank
    · exact (hI.ended (le_antisymm hzero hI.nonneg)).1
    · by_contra hne
      exact hno ⟨m, by omega, hblank⟩
  rw [hreceive, hm, List.take_length]
  rw [hm, List.take_length] at hend
  have hnonneg := hI.nonneg
  by_cases hblank : crlf ++ crlf <:+: stream
  · have hpos : 0 < s.bytesSendClient := by
      rcases hnonneg.lt_or_eq with hpos | hzero
      · exact hpos
      · exact absurd hblank (hI.ended hzero.symm).2
    rw [if_pos hblank, Int.sign_eq_one_of_pos hpos]
  · have hzero : s.bytesSendClient = 0 := by
      rcases hend with hle | hblank'
      · omega
      · exact absurd hblank' hblank
    rw [if_neg hblank, hzero]
    rfl

/-- A stream that comes at once is all there at the end of the loop. -/
theorem receive_at_once (hn : nul ∉ stream) (hlen : stream.length < maxBytes) :
    ∃ sign, receive (fun _ => some maxBytes) stream = some (stream, sign) := by
  have htaken : taken stream 0 maxBytes = stream.length := by
    unfold taken
    omega
  obtain ⟨hf, _⟩ := filled_first stream maxBytes
  rw [htaken] at hf
  obtain ⟨m, s, hreceive, ⟨_, hm⟩, _⟩ := receive_rule hn hlen (fun _ => some maxBytes)
    (I := fun m s => Filled stream m s ∧ m = stream.length) (fun _ _ h => h.1)
    (fun k m s h _ _ => by
      obtain ⟨hf', hbytes⟩ := h.1.recv maxBytes
      have hzero : taken stream m maxBytes = 0 := by
        unfold taken
        omega
      rw [hzero] at hf' hbytes
      exact ⟨m, ⟨hf', h.2⟩, fun hpos => by omega⟩)
    ⟨stream.length, hf, rfl⟩
  rw [hm, List.take_length] at hreceive
  exact ⟨_, hreceive⟩

/-- A stream that comes byte by byte is there up to its first blank line. -/
theorem receive_bytewise (hn : nul ∉ stream) (hlen : stream.length < maxBytes) {front : ℕ}
    (hblank : crlf ++ crlf <:+: stream.take front) :
    ∃ m ≤ front, ∃ sign, receive (fun _ => some 0) stream = some (stream.take m, sign) := by
  have hle (m : ℕ) : taken stream m 0 ≤ 1 := by
    unfold taken
    omega
  have hpos : 1 ≤ front := by
    by_contra hzero
    have : front = 0 := by omega
    rw [this, List.take_zero, List.infix_nil] at hblank
    exact absurd hblank (by decide)
  obtain ⟨hf, _⟩ := filled_first stream 0
  obtain ⟨m, s, hreceive, ⟨_, hm⟩, _⟩ := receive_rule hn hlen (fun _ => some 0)
    (I := fun m s => Filled stream m s ∧ m ≤ front) (fun _ _ h => h.1)
    (fun k m s h _ hnone => by
      obtain ⟨hf', hbytes⟩ := h.1.recv 0
      have hne : m ≠ front := by
        intro hm
        exact hnone (hm ▸ hblank)
      have := hle m
      exact ⟨_, ⟨hf', by have := h.2; omega⟩, fun hpos => by omega⟩)
    ⟨_, hf, (hle 0).trans hpos⟩
  exact ⟨m, hm, _, hreceive⟩

end Keys

/-- A request that fits is one key for every way of arriving just when no blank line
stands before its end. -/
theorem same_key_iff {stream : List Char} (hn : nul ∉ stream) (hlen : stream.length < maxBytes) :
    (∀ answers answers' : ℕ → ℕ,
      receive (fun k => some (answers k)) stream = receive (fun k => some (answers' k)) stream) ↔
      ¬ Overshoots stream := by
  constructor
  · rintro hsame ⟨front, hfront, hblank⟩
    obtain ⟨sign, hwhole⟩ := receive_at_once hn hlen
    obtain ⟨m, hm, sign', hpart⟩ := receive_bytewise hn hlen hblank
    have heq : stream = stream.take m := by
      have h := hsame (fun _ => maxBytes) (fun _ => 0)
      rw [hwhole, hpart] at h
      exact congrArg Prod.fst (Option.some.inj h)
    have hlength : stream.length = m := by
      calc stream.length = (stream.take m).length := congrArg List.length heq
        _ = m := List.length_take_of_le (by omega)
    omega
  · intro hno answers answers'
    rw [receive_of_not_overshoots hn hlen hno answers,
      receive_of_not_overshoots hn hlen hno answers']

theorem same_key_iff_body :
    (∀ answers answers' : ℕ → ℕ,
      receive (fun k => some (answers k)) "POST / HTTP/1.0\r\n\r\nx".toList =
        receive (fun k => some (answers' k)) "POST / HTTP/1.0\r\n\r\nx".toList) ↔
      ¬ Overshoots "POST / HTTP/1.0\r\n\r\nx".toList :=
  same_key_iff (by decide) (by decide)

end Receiving

end ProxyServer.V1
