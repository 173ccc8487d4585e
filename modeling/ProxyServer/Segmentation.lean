import ProxyServer.Chunks
import ProxyServer.HandleClient
import ProxyServer.HeaderColons
import ProxyServer.RoundTrip

/-!
What the cut of a client's bytes into receives decides. The loop stops with the
chunk that completes the blank line, so up to 4999 bytes of what follows reach
the parser, or none. They count towards the length limit, and a header line from
which on there is no colon takes its key and value from them. Before the blank
line `strncat` drops what follows a NUL in its chunk.
-/
namespace ProxyServer

open CStrings ParseError ParsedRequest OrderedTable Chunks

/-- What comes of a request: host, port, path and version, and the headers. -/
inductive Outcome
  | accepted (line : Option (CString × Option CString × CString × CString))
      (headers : List (CString × CString))
  | rejected
  | undefined
  deriving DecidableEq, Repr

namespace Segmentation

def ofParse : Except ParseError ParsedRequest → Outcome
  | .ok pr => .accepted
      (pr.requestLine.map (fun line => (line.host, line.port, line.path, line.version))) pr.live
  | .error .undefined => .undefined
  | .error (.rejected _) => .rejected

def outcome (text : CString) (errnoEinval : Bool) : Outcome :=
  ofParse (parse create text errnoEinval)

/-- The text of the receive loop when its buffers are never too small. -/
def message (chunks : List (List Char)) : CString :=
  collect (fun text => crlf ++ crlf <:+: text) (· != nul) [] chunks

/-- The outcome is the same for any two cuts of the stream. Where bytes are read that
nothing has written, it can be another one in each run. -/
def SameOutcome (errnoEinval : Bool) (stream : List Char) : Prop :=
  ∀ chunks chunks', IsCut 5000 stream chunks → IsCut 5000 stream chunks' →
    outcome (message chunks) errnoEinval ≠ .undefined ∧
      outcome (message chunks) errnoEinval = outcome (message chunks') errnoEinval

theorem sameOutcome_of_forall {errnoEinval : Bool} {stream : List Char} {o : Outcome}
    (hdefined : o ≠ .undefined) (h : ∀ chunks, IsCut 5000 stream chunks →
      outcome (message chunks) errnoEinval = o) : SameOutcome errnoEinval stream := by
  intro chunks chunks' hcut hcut'
  rw [h chunks hcut, h chunks' hcut']
  exact ⟨hdefined, rfl⟩

theorem append_text {m m' : RequestMessage} {buf : List Char} (h : m.append buf = some m') :
    m'.text = m.text ++ buf.takeWhile (· != nul) := by
  unfold RequestMessage.append at h
  simp only [Option.ite_none_left_eq_some] at h
  obtain ⟨_, h⟩ := h
  cases h
  rfl

/-- Where its buffers suffice, the receive loop has this text in the end. -/
theorem collect_of_receive (chunks : List (List Char)) (hchunks : [] ∉ chunks) :
    ∀ {m : RequestMessage} {text : CString}, m.receive (chunks.map .data) = .ok text →
      text = collect (fun text => crlf ++ crlf <:+: text) (· != nul) m.text chunks := by
  induction chunks with
  | nil => exact fun h => (Except.ok.inj h).symm
  | cons chunk chunks ih =>
    intro m text h
    obtain ⟨c, chunk, rfl⟩ := List.exists_cons_of_ne_nil
      (fun hnil => hchunks (hnil ▸ List.mem_cons_self) : chunk ≠ [])
    rw [List.map_cons] at h
    unfold RequestMessage.receive at h
    rw [collect]
    split at h
    · rename_i hblank
      rw [if_pos hblank]
      exact (Except.ok.inj h).symm
    · rename_i hblank
      rw [if_neg hblank]
      cases happend : m.append (c :: chunk) with
      | none =>
        simp only [happend] at h
        contradiction
      | some m' =>
        simp only [happend] at h
        rw [← append_text happend]
        exact ih (fun hc => hchunks (List.mem_cons_of_mem _ hc)) h

section Outcomes

variable {errnoEinval : Bool}

theorem outcome_of_isRejected {text : CString}
    (h : IsRejected (parse create text errnoEinval)) : outcome text errnoEinval = .rejected := by
  obtain ⟨debug, hparse⟩ := h
  rw [outcome, hparse]
  rfl

theorem isRejected_of_ofParse {x : Except ParseError ParsedRequest}
    (h : ofParse x = .rejected) : IsRejected x := by
  cases x with
  | ok pr => contradiction
  | error e =>
    cases e with
    | undefined => contradiction
    | rejected debug => exact isRejected_rejected debug

theorem outcome_of_long {text : CString} (h : 65535 < text.length) :
    outcome text errnoEinval = .rejected := by
  apply outcome_of_isRejected
  have hfresh : create.requestLine = none := rfl
  rw [parse, require_of hfresh, ok_bind]
  exact (isRejected_require (fun hlen => absurd hlen.2 (not_le.mpr h)) _).bind _

theorem outcome_of_noBlank {text : CString} (hn : nul ∉ text) (h : ¬ crlf ++ crlf <:+: text) :
    outcome text errnoEinval = .rejected := by
  apply outcome_of_isRejected
  have hfresh : create.requestLine = none := rfl
  rw [parse, require_of hfresh, ok_bind]
  by_cases hlen : 4 ≤ text.length ∧ text.length ≤ 65535
  · have hstrstr : strstr (crlf ++ crlf) (text ++ [nul]) = some none :=
      strstr_none (by decide) (by decide) hn h []
    rw [require_of hlen, ok_bind]
    simp only [hstrstr, orUndefined_some, ok_bind, orRejected_none, error_bind]
    exact isRejected_rejected _
  · exact (isRejected_require hlen _).bind _

end Outcomes

/-- The line is neither accepted nor read past its end. -/
structure RejectedLine (line : CString) (errnoEinval : Bool) : Prop where
  version : ¬ WithoutVersion line
  parts : ∀ t : RequestText, t.Accepted errnoEinval → t.text ≠ line

theorem rejectedLine_iff {line : CString} (hn : nul ∉ line) (errnoEinval : Bool) :
    RejectedLine line errnoEinval ↔ IsRejected (parseRequestLine line errnoEinval) := by
  constructor
  · rintro ⟨hversion, hparts⟩
    rcases parseRequestLine_cases hn errnoEinval with ⟨t, haccepted, htext⟩ | hwithout | hrejected
    · exact absurd htext.symm (hparts t haccepted)
    · exact absurd hwithout hversion
    · exact hrejected
  · rintro ⟨debug, hrejected⟩
    constructor
    · intro hwithout
      rw [parseRequestLine_withoutVersion hn hwithout] at hrejected
      cases hrejected
    · rintro t haccepted rfl
      rw [parseRequestLine_text haccepted] at hrejected
      cases hrejected

structure RequestHead where
  line : CString
  headers : List CString
  noCrlf : NoCrlf line
  isLine : ∀ l ∈ headers, IsLine l
  noNul : nul ∉ line ++ (crlf ++ block headers)
  ends : EndsAtBlank (line ++ (crlf ++ block headers))

namespace RequestHead

def text (h : RequestHead) : CString := h.line ++ (crlf ++ block h.headers)

/-- What follows the head has no say in the outcome. -/
inductive Settled (h : RequestHead) (errnoEinval : Bool) (rest : CString) : Prop
  | long (hlong : 65535 < h.text.length)
  | rejected (hline : RejectedLine h.line errnoEinval)
  | fits (hlen : h.text.length + min 4999 rest.length ≤ 65535)
      (hline : ¬ WithoutVersion h.line) (hlast : LastHasColon h.headers)
  | bare (hline : ¬ WithoutVersion h.line) (hlast : ¬ LastHasColon h.headers)
      (hcolon : ':' ∉ rest.take (min 4999 (65535 - h.text.length)))

theorem nul_line (h : RequestHead) : nul ∉ h.line :=
  fun hc => h.noNul (List.mem_append_left _ hc)

theorem nul_headers (h : RequestHead) : nul ∉ block h.headers := fun hc => h.noNul (by simp [hc])

theorem firstDone (h : RequestHead) :
    FirstDone (fun text => crlf ++ crlf <:+: text) (· != nul) h.text where
  kept c hc := by
    rw [bne_iff_ne]
    rintro rfl
    exact h.noNul hc
  stays more := h.ends.1.isInfix.trans (List.prefix_append h.text more).isInfix
  first front hfront hblank := by
    obtain ⟨rest, hrest⟩ := hfront
    obtain ⟨a, b, hab⟩ := hblank
    have htext : h.text = a ++ ((crlf ++ crlf) ++ (b ++ rest)) := by
      rw [← hrest, ← hab]
      simp
    have hnil := h.ends.2 a (b ++ rest) htext
    rw [← hrest, (List.append_eq_nil_iff.mp hnil).2, List.append_nil]

section Bodies

variable {h : RequestHead} {errnoEinval : Bool} {body : CString}

theorem parse_text (hlen : (h.text ++ body).length ≤ 65535) :
    parse create (h.text ++ body) errnoEinval =
      (parseRequestLine h.line errnoEinval >>= fun line =>
        parseHeaders ((h.text ++ body).length + 1) { create with requestLine := some line }
          (block h.headers ++ (body ++ [nul]))) := by
  have htext : h.text ++ body = h.line ++ (crlf ++ (block h.headers ++ body)) := by
    simp [text]
  rw [htext] at hlen ⊢
  exact parse_block h.noCrlf h.noNul body hlen errnoEinval

theorem outcome_rejectedLine (hline : RejectedLine h.line errnoEinval) :
    outcome (h.text ++ body) errnoEinval = .rejected := by
  by_cases hlen : (h.text ++ body).length ≤ 65535
  · apply outcome_of_isRejected
    rw [parse_text hlen]
    exact ((rejectedLine_iff h.nul_line errnoEinval).mp hline).bind _
  · exact outcome_of_long (not_le.mp hlen)

theorem outcome_withoutVersion (hline : WithoutVersion h.line)
    (hlen : (h.text ++ body).length ≤ 65535) :
    outcome (h.text ++ body) errnoEinval = .undefined := by
  rw [outcome, parse_text hlen, parseRequestLine_withoutVersion h.nul_line hline, error_bind]
  rfl

/-- When the last header has a colon, the outcome is that of the head. -/
theorem exists_outcome {t : RequestText} (haccepted : t.Accepted errnoEinval)
    (hline : h.line = t.text) (hlast : LastHasColon h.headers) :
    ∃ headers, ∀ body, (h.text ++ body).length ≤ 65535 → outcome (h.text ++ body) errnoEinval =
      .accepted (some (t.fields.host, t.fields.port, t.fields.path, t.fields.version)) headers := by
  obtain ⟨sets, hsets⟩ := ParsedHeader.exists_headerSets hlast
  refine ⟨ofSets sets, fun body hlen => ?_⟩
  have hparseLine := parseRequestLine_text haccepted
  rw [← hline] at hparseLine
  have htext : h.text ++ body = h.line ++ (crlf ++ (block h.headers ++ body)) := by
    simp [text]
  rw [htext] at hlen ⊢
  obtain ⟨pr, hparse, hrequest, hlive⟩ :=
    parse_block_sets h.noCrlf h.isLine h.noNul body hlen hparseLine hsets
  rw [outcome, hparse, ofParse, hrequest, hlive]
  rfl

/-- When it has none, the outcome is a rejection until a colon follows. -/
theorem outcome_eq_rejected_iff {t : RequestText} (haccepted : t.Accepted errnoEinval)
    (hline : h.line = t.text) (hlast : ¬ LastHasColon h.headers) (hn : nul ∉ body)
    (hlen : (h.text ++ body).length ≤ 65535) :
    outcome (h.text ++ body) errnoEinval = .rejected ↔ ':' ∉ body := by
  have hparseLine := parseRequestLine_text haccepted
  rw [← hline] at hparseLine
  have hparse := @parse_text h errnoEinval body hlen
  rw [hparseLine, ok_bind] at hparse
  constructor
  · intro hrejected hcolon
    rw [outcome, hparse] at hrejected
    exact parseHeaders_of_colon hn hcolon h.headers _ _ h.isLine h.nul_headers
      (isRejected_of_ofParse hrejected)
  · intro hcolon
    apply outcome_of_isRejected
    rw [hparse]
    apply isRejected_parseHeaders hn hcolon h.headers _ _ h.isLine h.nul_headers hlast
    have hblock := length_block h.headers h.isLine
    simp only [text, List.length_append]
    omega

end Bodies

/-- The outcome is defined, and what comes of the rest with the head does not change it. -/
def Indifferent (h : RequestHead) (errnoEinval : Bool) (rest : CString) : Prop :=
  outcome (h.text ++ []) errnoEinval ≠ .undefined ∧
    ∀ more, more <+: rest → more.length < 5000 →
      outcome (h.text ++ more) errnoEinval = outcome (h.text ++ []) errnoEinval

section Rest

variable {h : RequestHead} {errnoEinval : Bool} {rest : CString}

/-- An outcome other than a rejection leaves room for the longest rest. -/
theorem Indifferent.fits (hsame : h.Indifferent errnoEinval rest)
    (houtcome : outcome (h.text ++ []) errnoEinval ≠ .rejected) :
    h.text.length + min 4999 rest.length ≤ 65535 := by
  by_contra hover
  apply houtcome
  have hshort : (rest.take 4999).length < 5000 := by
    rw [List.length_take]
    omega
  rw [← hsame.2 (rest.take 4999) (List.take_prefix 4999 rest) hshort]
  apply outcome_of_long
  rw [List.length_append, List.length_take]
  omega

theorem Indifferent.settled (hn : nul ∉ rest) (hsame : h.Indifferent errnoEinval rest) :
    h.Settled errnoEinval rest := by
  by_cases hlong : 65535 < h.text.length
  · exact .long hlong
  · have hshort : (h.text ++ []).length ≤ 65535 := by
      rw [List.append_nil]
      exact not_lt.mp hlong
    rcases parseRequestLine_cases h.nul_line errnoEinval with
      ⟨t, haccepted, hline⟩ | hwithout | hrejected
    · by_cases hlast : LastHasColon h.headers
      · obtain ⟨headers, houtcome⟩ := exists_outcome haccepted hline hlast
        refine .fits (hsame.fits ?_) (hline ▸ haccepted.not_withoutVersion) hlast
        rw [houtcome [] hshort]
        exact Outcome.noConfusion
      · refine .bare (hline ▸ haccepted.not_withoutVersion) hlast ?_
        obtain ⟨more, hmore⟩ : ∃ more, more = rest.take (min 4999 (65535 - h.text.length)) :=
          ⟨_, rfl⟩
        have hfront : more <+: rest := hmore ▸ List.take_prefix _ rest
        have hlen : more.length ≤ min 4999 (65535 - h.text.length) := by
          rw [hmore]
          exact List.length_take_le _ rest
        have hfits : (h.text ++ more).length ≤ 65535 := by
          rw [List.length_append]
          omega
        have hrejected := (outcome_eq_rejected_iff haccepted hline hlast List.not_mem_nil
          hshort).mpr List.not_mem_nil
        rw [← hsame.2 more hfront (by omega)] at hrejected
        rw [← hmore]
        exact (outcome_eq_rejected_iff haccepted hline hlast (fun hc => hn (hfront.subset hc))
          hfits).mp hrejected
    · exact absurd (outcome_withoutVersion hwithout hshort) hsame.1
    · exact .rejected ((rejectedLine_iff h.nul_line errnoEinval).mpr hrejected)

/-- Whatever comes with the head, the outcome is one. -/
theorem Settled.exists_outcome (hn : nul ∉ rest) (hsettled : h.Settled errnoEinval rest) :
    ∃ o ≠ .undefined, ∀ more, more <+: rest → more.length < 5000 →
      outcome (h.text ++ more) errnoEinval = o := by
  rcases hsettled with hlong | hline | ⟨hlen, hwith, hlast⟩ | ⟨hwith, hlast, hcolon⟩
  · refine ⟨.rejected, Outcome.noConfusion, fun more _ _ => ?_⟩
    apply outcome_of_long
    rw [List.length_append]
    omega
  · exact ⟨.rejected, Outcome.noConfusion, fun more _ _ => outcome_rejectedLine hline⟩
  · rcases parseRequestLine_cases h.nul_line errnoEinval with
      ⟨t, haccepted, hline⟩ | hwithout | hrejected
    · obtain ⟨headers, houtcome⟩ := RequestHead.exists_outcome haccepted hline hlast
      refine ⟨_, Outcome.noConfusion, fun more hmore hmoreLen => houtcome more ?_⟩
      have hle := hmore.length_le
      rw [List.length_append]
      omega
    · exact absurd hwithout hwith
    · have hline := (rejectedLine_iff h.nul_line errnoEinval).mpr hrejected
      exact ⟨.rejected, Outcome.noConfusion, fun more _ _ => outcome_rejectedLine hline⟩
  · refine ⟨.rejected, Outcome.noConfusion, fun more hmore hmoreLen => ?_⟩
    by_cases hfits : (h.text ++ more).length ≤ 65535
    · rcases parseRequestLine_cases h.nul_line errnoEinval with
        ⟨t, haccepted, hline⟩ | hwithout | hrejected
      · apply (outcome_eq_rejected_iff haccepted hline hlast
          (fun hc => hn (hmore.subset hc)) hfits).mpr
        rw [List.length_append] at hfits
        have htake : more <+: rest.take (min 4999 (65535 - h.text.length)) := by
          rw [List.prefix_take_iff]
          exact ⟨hmore, by omega⟩
        exact fun hc => hcolon (htake.subset hc)
      · exact absurd hwithout hwith
      · exact outcome_rejectedLine ((rejectedLine_iff h.nul_line errnoEinval).mpr hrejected)
    · exact outcome_of_long (not_le.mp hfits)

end Rest

end RequestHead

theorem exists_requestHead {head : CString} (hend : EndsAtBlank head) (hn : nul ∉ head) :
    ∃ h : RequestHead, h.text = head := by
  obtain ⟨l, lines, rfl, hl, hlines⟩ := hend.exists_block
  exact ⟨⟨l, lines, hl, hlines, hn, hend⟩, rfl⟩

section Streams

variable {errnoEinval : Bool}

theorem nul_takeWhile (rest : List Char) : nul ∉ rest.takeWhile (· != nul) := by
  intro hc
  have hne := List.mem_takeWhile_imp hc
  simp at hne

/-- For a stream with a NUL-free head: the cut decides nothing exactly when what
follows the head, up to the first NUL, has no say. -/
theorem sameOutcome_head_iff (h : RequestHead) (rest : List Char) :
    SameOutcome errnoEinval (h.text ++ rest) ↔
      h.Settled errnoEinval (rest.takeWhile (· != nul)) := by
  have hnil : h.text ≠ [] := by
    intro hnil
    have hlen := congrArg List.length hnil
    simp [RequestHead.text, crlf] at hlen
  constructor
  · intro hsame
    apply RequestHead.Indifferent.settled (nul_takeWhile rest)
    obtain ⟨chunks', hcut', htext'⟩ := exists_cut h.firstDone
      (List.nil_prefix : [] <+: rest.takeWhile (· != nul)) (by decide : [].length < 5000)
      h.text [] rfl hnil
    constructor
    · have hdefined := (hsame chunks' chunks' hcut' hcut').1
      rwa [message, htext'] at hdefined
    · intro more hmore hlen
      obtain ⟨chunks, hcut, htext⟩ := exists_cut h.firstDone hmore hlen h.text [] rfl hnil
      have hsameOutcome := (hsame chunks chunks' hcut hcut').2
      rwa [message, message, htext, htext'] at hsameOutcome
  · intro hsettled
    obtain ⟨o, hdefined, houtcome⟩ := hsettled.exists_outcome (nul_takeWhile rest)
    apply sameOutcome_of_forall hdefined
    intro chunks hcut
    obtain ⟨more, hmore, hlen, htext⟩ :=
      exists_collect_eq h.firstDone chunks [] h.text rfl hnil hcut
    rw [message, htext]
    exact houtcome more hmore hlen

/-- A stream on which the outcome does not depend on the cut. -/
inductive Determined (errnoEinval : Bool) (stream : List Char) : Prop
  | head (h : RequestHead) (rest : List Char) (hstream : stream = h.text ++ rest)
      (hsettled : h.Settled errnoEinval (rest.takeWhile (· != nul)))
  | unfinished (hblank : ¬ crlf ++ crlf <:+: stream.takeWhile (· != nul))
      (hrest : ∀ c ∈ stream.dropWhile (· != nul), c = nul)
  | rejected (hblank : ¬ crlf ++ crlf <:+: stream.takeWhile (· != nul))
      (hstart : 65535 < (stream.takeWhile (· != nul)).length ∨
        ∃ line rest, stream.takeWhile (· != nul) = line ++ (crlf ++ rest) ∧ NoCrlf line ∧
          RejectedLine line errnoEinval)

/-- Before its blank line the stream has a NUL that other bytes follow, so that
`strncat` drops some of them for some cut. -/
def LosesBytes (stream : List Char) : Prop :=
  ¬ crlf ++ crlf <:+: stream.takeWhile (· != nul) ∧
    ∃ c ∈ stream.dropWhile (· != nul), c ≠ nul

theorem nul_message (chunks : List (List Char)) : nul ∉ message chunks := by
  intro hc
  have hne := kept_collect chunks [] (by simp) nul hc
  simp at hne

/-- A text that starts with a line that is rejected is rejected. -/
theorem outcome_of_rejectedLine {line rest : CString} (hn : nul ∉ line ++ (crlf ++ rest))
    (hcrlf : NoCrlf line) (hline : RejectedLine line errnoEinval) :
    outcome (line ++ (crlf ++ rest)) errnoEinval = .rejected := by
  by_cases hblank : crlf ++ crlf <:+: line ++ (crlf ++ rest)
  · obtain ⟨head, body, htext, hend⟩ := exists_endsAtBlank _ hblank
    have hnHead : nul ∉ head := by
      intro hc
      rw [htext] at hn
      exact hn (List.mem_append_left body hc)
    obtain ⟨h, rfl⟩ := exists_requestHead hend hnHead
    have hlines : line ++ (crlf ++ rest) = h.line ++ (crlf ++ (block h.headers ++ body)) := by
      rw [htext, RequestHead.text]
      simp
    obtain ⟨rfl, _⟩ := first_crlf_unique hcrlf h.noCrlf hlines
    rw [htext]
    exact h.outcome_rejectedLine hline
  · exact outcome_of_noBlank hn hblank

theorem Determined.sameOutcome {stream : List Char} (h : Determined errnoEinval stream) :
    SameOutcome errnoEinval stream := by
  have hsplit : stream.takeWhile (· != nul) ++ stream.dropWhile (· != nul) = stream :=
    List.takeWhile_append_dropWhile
  have hkept : ∀ c ∈ stream.takeWhile (· != nul), (c != nul) = true := by
    intro c hc
    rw [bne_iff_ne]
    exact fun heq => nul_takeWhile stream (heq ▸ hc)
  rcases h with ⟨head, rest, rfl, hsettled⟩ | ⟨hblank, hrest⟩ | ⟨hblank, hstart⟩
  · exact (sameOutcome_head_iff head rest).mpr hsettled
  · refine sameOutcome_of_forall (o := .rejected) Outcome.noConfusion ?_
    intro chunks hcut
    have hmessage : message chunks = stream.takeWhile (· != nul) := by
      apply collect_eq_of_never hkept (fun text htext hdone => hblank (hdone.trans htext.isInfix))
        (fun c hc => by simp [hrest c hc]) chunks [] _ rfl
      rw [hsplit, hcut.flatten]
    rw [hmessage]
    exact outcome_of_noBlank (nul_takeWhile stream) hblank
  · refine sameOutcome_of_forall (o := .rejected) Outcome.noConfusion ?_
    intro chunks hcut
    have hprefixed : stream.takeWhile (· != nul) <+: message chunks := by
      apply prefix_collect_of_never hkept (fun text htext hdone =>
        hblank (hdone.trans htext.isInfix)) chunks [] _ rfl
      rw [hsplit, hcut.flatten]
    rcases hstart with hlong | ⟨line, rest, hlines, hcrlf, hline⟩
    · exact outcome_of_long (lt_of_lt_of_le hlong hprefixed.length_le)
    · obtain ⟨more, hmore⟩ := hprefixed
      have htext : message chunks = line ++ (crlf ++ (rest ++ more)) := by
        rw [← hmore, hlines]
        simp
      have hn := nul_message chunks
      rw [htext] at hn ⊢
      exact outcome_of_rejectedLine hn hcrlf hline

/-- On a determined stream the outcome is the same for all cuts, and every other
stream on which it is loses bytes for some cut. -/
theorem determined_same_outcome (errnoEinval : Bool) (stream : List Char) :
    (Determined errnoEinval stream → SameOutcome errnoEinval stream) ∧
      (SameOutcome errnoEinval stream → Determined errnoEinval stream ∨ LosesBytes stream) := by
  refine ⟨Determined.sameOutcome, fun hsame => ?_⟩
  by_cases hblank : crlf ++ crlf <:+: stream.takeWhile (· != nul)
  · left
    obtain ⟨head, rest, hhead, hend⟩ := exists_endsAtBlank _ hblank
    have hn : nul ∉ head := by
      intro hc
      apply nul_takeWhile stream
      rw [hhead]
      exact List.mem_append_left rest hc
    obtain ⟨h, rfl⟩ := exists_requestHead hend hn
    have hstream : stream = h.text ++ (rest ++ stream.dropWhile (· != nul)) := by
      rw [← List.append_assoc, ← hhead]
      exact List.takeWhile_append_dropWhile.symm
    refine .head h _ hstream ((sameOutcome_head_iff h _).mp ?_)
    rwa [← hstream]
  · by_cases hrest : ∀ c ∈ stream.dropWhile (· != nul), c = nul
    · exact Or.inl (.unfinished hblank hrest)
    · push Not at hrest
      exact Or.inr ⟨hblank, hrest⟩

theorem determined_same_outcome_complete :
    SameOutcome false "GET http://h/ HTTP/1.0\r\nA: b\r\n\r\nc".toList := by
  have hlines : ∀ l ∈ ["A: b".toList], IsLine l := by
    intro l hl
    rw [List.mem_singleton.mp hl]
    exact ⟨by decide, by decide⟩
  have hends : EndsAtBlank ("GET http://h/ HTTP/1.0".toList ++ (crlf ++ block ["A: b".toList])) :=
    endsAtBlank_of_dropLast (by decide) (by decide)
  have hlen : ("GET http://h/ HTTP/1.0".toList ++ (crlf ++ block ["A: b".toList])).length +
      min 4999 (['c'].takeWhile (· != nul)).length ≤ 65535 := by decide
  have hlast : LastHasColon ["A: b".toList] := by decide
  have hversion : ¬ WithoutVersion "GET http://h/ HTTP/1.0".toList := by
    intro hwithout
    have hundefined := parseRequestLine_withoutVersion (by decide) hwithout false
    revert hundefined
    decide
  exact (determined_same_outcome false _).1 (.head
    ⟨"GET http://h/ HTTP/1.0".toList, ["A: b".toList], by decide, hlines, by decide, hends⟩ ['c']
    rfl (.fits hlen hversion hlast))

/-- The header line `A` takes its colon from the body, when that comes along. -/
theorem outcome_depends_on_cut :
    ¬ ∀ errnoEinval stream, SameOutcome errnoEinval stream := by
  intro hall
  have hcut : IsCut 5000 "GET http://h/ HTTP/1.0\r\nA\r\n\r\nb: c\r\n".toList
      ["GET http://h/ HTTP/1.0\r\nA\r\n\r\nb: c\r\n".toList] :=
    ⟨by decide, by decide⟩
  have hcut' : IsCut 5000 "GET http://h/ HTTP/1.0\r\nA\r\n\r\nb: c\r\n".toList
      ["GET http://h/ HTTP/1.0\r\nA\r\n\r\n".toList, "b: c\r\n".toList] :=
    ⟨by decide, by decide⟩
  have hsame := hall false _ _ _ hcut hcut'
  exact absurd hsame.2 (by decide)

end Streams

end Segmentation

end ProxyServer
