import ProxyServer.ClientIsolation
import ProxyServer.Runs

/-!
The buffers of the receive loop. `MAX_BUFFER_SIZE` is both the length that `recv`
is asked for, into a `buf` that keeps its 5000 bytes, and the size of the
allocation, which doubles when the count of bytes exceeds it, not when the text
and its NUL do. A turn of the loop is followed here as if every buffer were large
enough, and the buffers are measured in each state.
-/
namespace ProxyServer.RequestMessage

open CStrings

/-- What a turn of the loop leaves. -/
def deliver (m : RequestMessage) (buf : List Char) : RequestMessage :=
  let total := m.total + buf.length
  let maxBufferSize := if m.maxBufferSize < total then m.maxBufferSize * 2 else m.maxBufferSize
  ⟨maxBufferSize, total, m.text ++ buf.takeWhile (· != nul)⟩

/-- The loop calls `recv` again. -/
def Receives (m : RequestMessage) : Prop := ¬ crlf ++ crlf <:+: m.text

instance (m : RequestMessage) : Decidable m.Receives := inferInstanceAs (Decidable (¬ _))

/-- `recv` answers with at least one byte, and no more than it was asked for. -/
def recvStep (m : RequestMessage) (buf : List Char) : Option RequestMessage :=
  if m.Receives ∧ 1 ≤ buf.length ∧ buf.length ≤ m.maxBufferSize then some (m.deliver buf) else none

/-- The next `recv` asks for no more than `buf` has, and the text and its NUL are
within the allocation. -/
structure Fits (m : RequestMessage) : Prop where
  request : m.Receives → m.maxBufferSize ≤ 5000
  terminator : m.text.length + 1 ≤ m.maxBufferSize

/-- The buffers fit in every state of the loop. -/
def FitsAlong (bufs : List (List Char)) : Prop :=
  ∀ front, front <+: bufs → ∀ m, Runs.run recvStep empty front = some m → m.Fits

/-- No more than 5000 bytes come in before the last answer, or at all where they
hold no blank line, and never just 5000 without a NUL. -/
structure Small (bufs : List (List Char)) : Prop where
  before : bufs.dropLast.flatten.length ≤ 5000
  unfinished : ¬ crlf ++ crlf <:+: received bufs → bufs.flatten.length ≤ 5000
  terminator : ∀ front, front <+: bufs → front.flatten.length = 5000 → nul ∈ front.flatten

theorem recvStep_some {m m' : RequestMessage} {buf : List Char} (h : m.recvStep buf = some m') :
    m.Receives ∧ 1 ≤ buf.length ∧ buf.length ≤ m.maxBufferSize ∧ m' = m.deliver buf := by
  unfold recvStep at h
  split at h
  · rename_i hrecv
    exact ⟨hrecv.1, hrecv.2.1, hrecv.2.2, (Option.some.inj h).symm⟩
  · contradiction

/-- The count, the text and the allocation after a run. -/
structure Delivered (m : RequestMessage) (bufs : List (List Char)) : Prop where
  total : m.total = bufs.flatten.length
  text : m.text = received bufs
  size : 5000 ≤ m.maxBufferSize
  small : m.total ≤ 5000 → m.maxBufferSize = 5000
  large : 5000 < m.total → 10000 ≤ m.maxBufferSize

theorem Delivered.next {m : RequestMessage} {bufs : List (List Char)} (h : m.Delivered bufs)
    (buf : List Char) : (m.deliver buf).Delivered (bufs ++ [buf]) := by
  have hsize := h.size
  have hsmall := h.small
  have hlarge := h.large
  constructor
  · simp [deliver, h.total]
  · rw [received_concat, ← h.text]
    rfl
  · simp only [deliver]
    split <;> omega
  · simp only [deliver]
    intro hle
    have hfive := hsmall (by omega)
    rw [if_neg (by omega), hfive]
  · simp only [deliver]
    intro hlt
    split
    · omega
    · by_cases hbefore : 5000 < m.total
      · exact hlarge hbefore
      · have hfive := hsmall (by omega)
        omega

theorem delivered_empty : empty.Delivered [] :=
  ⟨rfl, rfl, le_refl 5000, fun _ => rfl, fun hlt => absurd hlt (by decide)⟩

theorem delivered_of_run {bufs : List (List Char)} {m : RequestMessage}
    (hrun : Runs.run recvStep empty bufs = some m) : m.Delivered bufs := by
  apply Runs.run_invariant_of_labels recvStep (fun front m => m.Delivered front) _ bufs [] empty m
    delivered_empty hrun
  intro front m buf m' hm hstep
  rw [(recvStep_some hstep).2.2.2]
  exact hm.next buf

theorem Delivered.le_size_iff {m : RequestMessage} {bufs : List (List Char)}
    (h : m.Delivered bufs) : m.maxBufferSize ≤ 5000 ↔ bufs.flatten.length ≤ 5000 := by
  have hsmall := h.small
  have hlarge := h.large
  rw [← h.total]
  omega

/-- Up to 5000 bytes, there is room for the NUL unless they are just 5000 and
none of them is a NUL. -/
theorem Delivered.terminator_iff {m : RequestMessage} {bufs : List (List Char)}
    (h : m.Delivered bufs) (hle : bufs.flatten.length ≤ 5000) :
    m.text.length + 1 ≤ m.maxBufferSize ↔
      (bufs.flatten.length = 5000 → nul ∈ bufs.flatten) := by
  obtain ⟨hshort, hcopied⟩ := length_received bufs
  have hsize : m.maxBufferSize = 5000 := h.small (by rw [h.total]; exact hle)
  rw [h.text, hsize]
  constructor
  · intro hroom heq
    by_contra hn
    have hlen := hcopied.mpr hn
    omega
  · intro hnul
    by_contra hfull
    have hlen : (received bufs).length = bufs.flatten.length := by omega
    exact hcopied.mp hlen (hnul (by omega))

theorem flatten_le_of_prefix {front bufs : List (List Char)} (h : front <+: bufs) :
    front.flatten.length ≤ bufs.flatten.length := by
  obtain ⟨rest, rfl⟩ := h
  simp

section HandleClient

/-- Where the buffers fit, a turn of the worker's loop is the turn followed here. -/
theorem append_of_fits {m m' : RequestMessage} {buf : List Char} {bufs : List (List Char)}
    (hdelivered : m.Delivered bufs) (hstep : m.recvStep buf = some m') (hfits : m.Fits)
    (hfits' : m'.Fits) : m.append buf = some m' := by
  obtain ⟨hopen, _, hbuf, rfl⟩ := recvStep_some hstep
  have hsize := hfits.request hopen
  have htotal : m.total ≤ 5000 := by
    rw [hdelivered.total]
    exact hdelivered.le_size_iff.mp hsize
  have hroom := hfits'.terminator
  have hdouble : (m.deliver buf).maxBufferSize ≤ 10000 := by
    simp only [deliver]
    split <;> omega
  have htotal' : (m.deliver buf).total ≤ 10000 := by
    simp only [deliver]
    omega
  unfold append
  refine (if_neg ?_).trans rfl
  change ¬ (5000 < buf.length ∨ 2 ^ 31 ≤ (m.deliver buf).total ∨
    2 ^ 31 ≤ (m.deliver buf).maxBufferSize ∨
      (m.deliver buf).maxBufferSize ≤ (m.deliver buf).text.length)
  omega

/-- Where the buffers fit, the worker goes on with what they have in the end. -/
theorem receive_of_fits (bufs : List (List Char)) :
    ∀ {m m' : RequestMessage} {past : List (List Char)}, m.Delivered past →
      Runs.run recvStep m bufs = some m' →
      (∀ front, front <+: bufs → ∀ t, Runs.run recvStep m front = some t → t.Fits) →
      m.receive (bufs.map .data) = .ok m'.text := by
  induction bufs with
  | nil =>
    intro m m' past _ hrun _
    cases hrun
    rfl
  | cons buf bufs ih =>
    intro m m' past hdelivered hrun hfits
    rw [Runs.run_cons] at hrun
    obtain ⟨t, ht, hrest⟩ := Option.bind_eq_some_iff.mp hrun
    obtain ⟨hopen, hpos, _, heq⟩ := recvStep_some ht
    have hm := hfits [] List.nil_prefix m rfl
    have hnext : ∀ front, front <+: bufs → ∀ u, Runs.run recvStep t front = some u → u.Fits := by
      intro front hfront u hu
      apply hfits (buf :: front) (List.cons_prefix_cons.mpr ⟨rfl, hfront⟩)
      rw [Runs.run_cons, ht, Option.bind_some, hu]
    have happend := append_of_fits hdelivered ht hm (hnext [] List.nil_prefix t rfl)
    rw [List.map_cons, receive_data hopen (List.ne_nil_of_length_pos hpos) happend]
    exact ih (heq ▸ hdelivered.next buf) hrest hnext

end HandleClient

section FitsAlong

variable {bufs : List (List Char)} {m : RequestMessage}

theorem small_of_fitsAlong (hrun : Runs.run recvStep empty bufs = some m)
    (hfits : FitsAlong bufs) : Small bufs := by
  have hall := delivered_of_run hrun
  have hlast := hfits bufs (List.prefix_refl bufs) m hrun
  refine ⟨?_, ?_, ?_⟩
  · rcases List.eq_nil_or_concat bufs with rfl | ⟨init, buf, rfl⟩
    · simp
    · rw [List.concat_eq_append] at hrun hfits ⊢
      rw [Runs.run_concat] at hrun
      obtain ⟨m₀, hm₀, hstep⟩ := Option.bind_eq_some_iff.mp hrun
      have hsize := (hfits init (List.prefix_append init [buf]) m₀ hm₀).request
        (recvStep_some hstep).1
      rw [List.dropLast_concat]
      exact (delivered_of_run hm₀).le_size_iff.mp hsize
  · intro hopen
    apply hall.le_size_iff.mp
    apply hlast.request
    rw [Receives, hall.text]
    exact hopen
  · intro front hfront heq
    obtain ⟨m', hm'⟩ := Runs.exists_run_of_prefix hfront hrun
    have hroom := (hfits front hfront m' hm').terminator
    exact ((delivered_of_run hm').terminator_iff (by omega)).mp hroom heq

/-- The count is exceeded with the last answer, which completes the blank line. -/
theorem fits_last {init : List (List Char)} {buf : List Char} (hsmall : Small (init ++ [buf]))
    (hlarge : 5000 < (init ++ [buf]).flatten.length)
    (hrun : Runs.run recvStep empty (init ++ [buf]) = some m) : m.Fits := by
  have hdelivered := delivered_of_run hrun
  have hinit : init.flatten.length ≤ 5000 := by
    simpa only [List.dropLast_concat] using hsmall.before
  rw [Runs.run_concat] at hrun
  obtain ⟨m₀, hm₀, hstep⟩ := Option.bind_eq_some_iff.mp hrun
  obtain ⟨_, _, hbuf, _⟩ := recvStep_some hstep
  have hbefore := delivered_of_run hm₀
  have hsize : m₀.maxBufferSize = 5000 := hbefore.small (by rw [hbefore.total]; exact hinit)
  have hroom := (hbefore.terminator_iff hinit).mpr
    (hsmall.terminator init (List.prefix_append init [buf]))
  have hdoubled := hdelivered.large (by rw [hdelivered.total]; exact hlarge)
  refine ⟨?_, ?_⟩
  · intro hopen
    rw [Receives, hdelivered.text] at hopen
    exact absurd (hsmall.unfinished hopen) (not_le.mpr hlarge)
  · have htake := (length_takeWhile_nul buf).1
    rw [hdelivered.text, received_concat, List.length_append, ← hbefore.text]
    omega

theorem fitsAlong_of_small (hsmall : Small bufs) : FitsAlong bufs := by
  intro front hfront m' hm'
  have hdelivered := delivered_of_run hm'
  by_cases hle : front.flatten.length ≤ 5000
  · exact ⟨fun _ => hdelivered.le_size_iff.mpr hle,
      (hdelivered.terminator_iff hle).mpr (hsmall.terminator front hfront)⟩
  · rcases List.eq_nil_or_concat bufs with rfl | ⟨init, buf, rfl⟩
    · rw [List.prefix_nil.mp hfront] at hle
      simp at hle
    · rw [List.concat_eq_append] at *
      have hinit : init.flatten.length ≤ 5000 := by
        simpa only [List.dropLast_concat] using hsmall.before
      rcases List.prefix_concat_iff.mp hfront with rfl | hbefore
      · exact fits_last hsmall (not_le.mp hle) hm'
      · have hlen := flatten_le_of_prefix hbefore
        omega

end FitsAlong

/-- The buffers fit all along the answers exactly when these are small. -/
theorem fitsAlong_iff {bufs : List (List Char)} {m : RequestMessage}
    (hrun : Runs.run recvStep empty bufs = some m) : FitsAlong bufs ↔ Small bufs :=
  ⟨small_of_fitsAlong hrun, fitsAlong_of_small⟩

theorem fitsAlong_iff_blank : FitsAlong ["GET / HT".toList, "TP/1.0\r\nA: b".toList,
    "\r\n\r".toList, "\nbody".toList] := by
  apply (fitsAlong_iff (rfl : Runs.run recvStep empty _ = some _)).mpr
  refine ⟨by decide, fun _ => by decide, ?_⟩
  intro front hfront hlen
  have hle := flatten_le_of_prefix hfront
  rw [hlen] at hle
  exact absurd hle (by decide)

/-- After two answers of 3000 bytes the next `recv` asks for 10000. -/
theorem recv_exceeds_buf :
    ¬ ∀ bufs m, Runs.run recvStep empty bufs = some m → FitsAlong bufs := by
  intro hall
  obtain ⟨buf, hlen, ha⟩ : ∃ buf : List Char, buf.length = 3000 ∧ ∀ c ∈ buf, c = 'a' :=
    ⟨List.replicate 3000 'a', List.length_replicate, fun _ => List.eq_of_mem_replicate⟩
  have hopen : ∀ text : CString, (∀ c ∈ text, c = 'a') → ¬ crlf ++ crlf <:+: text := by
    intro text htext hblank
    have hcr := htext '\r' (hblank.subset (by decide))
    contradiction
  have htake : buf.takeWhile (· != nul) = buf := by
    rw [List.takeWhile_eq_self_iff]
    intro c hc
    rw [ha c hc]
    rfl
  have hstep : ∀ m : RequestMessage, m.Receives → 5000 ≤ m.maxBufferSize →
      m.recvStep buf = some (m.deliver buf) := by
    intro m hm hsize
    rw [recvStep, if_pos ⟨hm, by omega, by omega⟩]
  have hfirst := (delivered_empty.next buf).text
  have htext : received ([] ++ [buf]) = buf := by
    rw [List.nil_append, received, List.flatMap_singleton, htake]
  have hrun : Runs.run recvStep empty [buf, buf] = some ((empty.deliver buf).deliver buf) := by
    rw [Runs.run_cons, hstep empty (by decide) (le_refl 5000), Option.bind_some, Runs.run_cons,
      hstep _ ?_ (delivered_empty.next buf).size, Option.bind_some, Runs.run_nil]
    rw [Receives, hfirst, htext]
    exact hopen buf ha
  have hopen' : ((empty.deliver buf).deliver buf).Receives := by
    rw [Receives, (delivered_of_run hrun).text, received, List.flatMap_cons, List.flatMap_singleton,
      htake]
    apply hopen
    intro c hc
    rcases List.mem_append.mp hc with hc | hc
    · exact ha c hc
    · exact ha c hc
  have hfits := hall _ _ hrun _ (List.prefix_refl _) _ hrun
  have hbytes := (delivered_of_run hrun).le_size_iff.mp (hfits.request hopen')
  rw [List.flatten_cons, List.flatten_singleton, List.length_append] at hbytes
  omega

end ProxyServer.RequestMessage
