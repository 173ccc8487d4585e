import ProxyServer.Segmentation

/-!
When the parser reads past its copies. The checks before a read are for the
blank line and for a null pointer, so two shapes of buffers get past them: a
request line that ends at its full address, and header lines without a colon
before a body whose first colon is not followed, from its second character on,
by a CRLF. In all others each read stays inside the copy.
-/
namespace ProxyServer

open CStrings ParseError

namespace ParsedHeader

/-- The value of the first colon of a text has no end in the text. -/
def StrayColon (text : CString) : Prop :=
  ∃ key after, text = key ++ ':' :: after ∧ ':' ∉ key ∧ ¬ crlf <:+: after.drop 1

theorem parse_strayColon {text : CString} (h : StrayColon text) (hn : nul ∉ text)
    (pr : ParsedRequest) : parse pr (text ++ [nul]) = .error .undefined := by
  obtain ⟨key, after, rfl, hkey, hend⟩ := h
  have hindex := index_of_append hkey (fun hc => hn (List.mem_append_left _ hc)) (after ++ [nul])
  rw [parse, List.append_assoc, List.cons_append, hindex]
  simp only [orUndefined_some, orRejected_some, ok_bind]
  cases after with
  | nil => rfl
  | cons c after =>
    have hnAfter : nul ∉ after := fun hc => hn (by simp [hc])
    have hstrstr : strstr crlf (after ++ [nul]) = some none :=
      strstr_none (by decide) (by decide) hnAfter hend []
    have hdrop : (':' :: (c :: after ++ [nul])).drop 2 = after ++ [nul] := rfl
    rw [hdrop, hstrstr]
    rfl

/-- A colon that is no stray one is that of a header. -/
theorem exists_header_of_colon {text : CString} (h : ':' ∈ text) (hstray : ¬ StrayColon text) :
    ∃ key value, HeaderText text key value := by
  obtain ⟨key, after, rfl, hkey⟩ := List.eq_append_cons_of_mem h
  have hend : crlf <:+: after.drop 1 := by
    by_contra hend
    exact hstray ⟨key, after, rfl, hkey, hend⟩
  cases after with
  | nil => exact absurd (List.infix_nil.mp hend) (by decide)
  | cons c after =>
    obtain ⟨value, rest, hafter, hvalue⟩ := exists_first_crlf hend
    exact ⟨key, value, hkey, hvalue, c, rest, by rw [← hafter]; rfl⟩

/-- Text without a colon before it does not change the first colon. -/
theorem strayColon_append {u : CString} (hu : ':' ∉ u) (text : CString) :
    StrayColon (u ++ text) ↔ StrayColon text := by
  constructor
  · rintro ⟨key, after, heq, hkey, hend⟩
    have hmem : ':' ∈ text := by
      have hcolon : ':' ∈ u ++ text := by
        rw [heq]
        simp
      exact (List.mem_append.mp hcolon).resolve_left hu
    obtain ⟨key', after', rfl, hkey'⟩ := List.eq_append_cons_of_mem hmem
    have hfront : ':' ∉ u ++ key' := by
      rw [List.mem_append, not_or]
      exact ⟨hu, hkey'⟩
    rw [← List.append_assoc] at heq
    obtain ⟨_, rfl⟩ := append_cons_unique hfront hkey heq
    exact ⟨key', after', rfl, hkey', hend⟩
  · rintro ⟨key, after, rfl, hkey, hend⟩
    refine ⟨u ++ key, after, by rw [List.append_assoc], ?_, hend⟩
    rw [List.mem_append, not_or]
    exact ⟨hu, hkey⟩

/-- A block with a colon ends the value of its first one. -/
theorem not_strayColon_block {l : CString} {lines : List CString} (h : ':' ∈ block (l :: lines))
    (body : CString) : ¬ StrayColon (block (l :: lines) ++ body) := by
  rintro ⟨key, after, heq, hkey, hend⟩
  obtain ⟨key', value, hheader⟩ := exists_header_block h
  have htext := hheader.append body
  rw [heq] at htext
  obtain ⟨hkey', _, c, rest, hsplit⟩ := htext
  obtain ⟨_, rfl⟩ := append_cons_unique hkey hkey' hsplit
  exact hend ⟨value, rest, by simp⟩

end ParsedHeader

namespace ParsedRequest

open ParsedHeader

variable {body : CString}

/-- On header lines whose last one has no colon the loop ends at a stray colon
of the body. -/
theorem parseHeaders_strayColon (hbody : nul ∉ body) (hstray : StrayColon body)
    (lines : List CString) :
    ∀ (pr : ParsedRequest) (fuel : ℕ), (∀ l ∈ lines, IsLine l) → nul ∉ block lines →
      ¬ LastHasColon lines →
      parseHeaders fuel pr (block lines ++ (body ++ [nul])) = .error .undefined := by
  induction lines with
  | nil =>
    intro pr fuel _ _ hlast
    exact absurd (fun _ hl => by contradiction) hlast
  | cons l lines ih =>
    intro pr fuel hlines hn hlast
    cases fuel with
    | zero => rfl
    | succ fuel =>
      have hnRest : nul ∉ block lines := fun hc => hn (by rw [block_cons]; simp [hc])
      have hnText : nul ∉ block (l :: lines) ++ body := by
        rw [List.mem_append, not_or]
        exact ⟨hn, hbody⟩
      rw [parseHeaders_line (hlines l List.mem_cons_self) hn body [] hbody pr fuel,
        ← List.append_assoc]
      by_cases hblock : ':' ∈ block (l :: lines)
      · obtain ⟨key, value, hheader⟩ := exists_header_block hblock
        rw [parse_headerText (hheader.append body) hnText, ok_bind]
        exact ih _ _ (fun u hu => hlines u (List.mem_cons_of_mem _ hu)) hnRest
          (not_lastHasColon_tail hlast hblock)
      · rw [parse_strayColon ((strayColon_append hblock body).mpr hstray) hnText, error_bind]

/-- Where the body's first colon is the colon of a header, every line has one. -/
theorem parseHeaders_bodyColon (hbody : nul ∉ body) (hcolon : ':' ∈ body)
    (hstray : ¬ StrayColon body) (lines : List CString) :
    ∀ (pr : ParsedRequest) (fuel : ℕ), (∀ l ∈ lines, IsLine l) → nul ∉ block lines →
      lines.length < fuel →
      ∃ pr', parseHeaders fuel pr (block lines ++ (body ++ [nul])) = .ok pr' := by
  induction lines with
  | nil =>
    intro pr fuel _ _ hfuel
    obtain ⟨fuel, rfl⟩ := Nat.exists_eq_succ_of_ne_zero (by omega : fuel ≠ 0)
    exact ⟨pr, parseHeaders_blank pr (body ++ [nul]) fuel⟩
  | cons l lines ih =>
    intro pr fuel hlines hn hfuel
    rw [List.length_cons] at hfuel
    obtain ⟨fuel, rfl⟩ := Nat.exists_eq_succ_of_ne_zero (by omega : fuel ≠ 0)
    have hnRest : nul ∉ block lines := fun hc => hn (by rw [block_cons]; simp [hc])
    have hnText : nul ∉ block (l :: lines) ++ body := by
      rw [List.mem_append, not_or]
      exact ⟨hn, hbody⟩
    have hnot : ¬ StrayColon (block (l :: lines) ++ body) := by
      by_cases hblock : ':' ∈ block (l :: lines)
      · exact not_strayColon_block hblock body
      · rwa [strayColon_append hblock]
    obtain ⟨key, value, hheader⟩ := exists_header_of_colon (List.mem_append_right _ hcolon) hnot
    rw [parseHeaders_line (hlines l List.mem_cons_self) hn body [] hbody pr fuel,
      ← List.append_assoc, parse_headerText hheader hnText, ok_bind]
    exact ih _ fuel (fun u hu => hlines u (List.mem_cons_of_mem _ hu)) hnRest (by omega)

end ParsedRequest

namespace ParserReads

open ParsedRequest ParsedHeader Segmentation

/-- No read past a copy and no null pointer, and the lengths computed between
two pointers are those of a part. -/
structure ReadsWithin (buf : List Char) (errnoEinval : Bool) : Prop where
  defined : parse create buf errnoEinval ≠ .error .undefined
  key : ∀ line index1, index ':' line = some (some index1) →
    0 ≤ (line.length : ℤ) - index1.length
  value : ∀ index1 index2, strstr crlf index1 = some (some index2) →
    0 ≤ (index1.length : ℤ) - index2.length

/-- The two shapes. -/
inductive ReadsPast (errnoEinval : Bool) (h : RequestHead) (body : CString) : Prop
  | version (hline : WithoutVersion h.line)
  | header (t : RequestText) (haccepted : t.Accepted errnoEinval) (hline : h.line = t.text)
      (hlast : ¬ LastHasColon h.headers) (hstray : StrayColon body)

theorem readsWithin_of_defined {buf : List Char} {errnoEinval : Bool}
    (h : parse create buf errnoEinval ≠ .error .undefined) : ReadsWithin buf errnoEinval where
  defined := h
  key := by
    intro line index1 hindex
    obtain ⟨u, rfl, _⟩ := index_eq_some hindex
    rw [List.length_append]
    omega
  value := by
    intro index1 index2 hstrstr
    obtain ⟨u, rfl, _⟩ := strstr_eq_some hstrstr
    rw [List.length_append]
    omega

theorem undefined_of_outcome {text : CString} {errnoEinval : Bool} :
    outcome text errnoEinval = .undefined ↔ parse create text errnoEinval = .error .undefined := by
  constructor
  · intro h
    rw [outcome] at h
    cases hparse : parse create text errnoEinval with
    | ok pr =>
      rw [hparse] at h
      cases h
    | error e =>
      cases e with
      | undefined => rfl
      | rejected debug =>
        rw [hparse] at h
        cases h
  · intro h
    rw [outcome, h]
    rfl

section Heads

variable {errnoEinval : Bool} {h : RequestHead} {body : CString}

/-- A request of at most 65535 bytes reads past a copy in the two shapes only. -/
theorem parse_undefined_iff (hn : nul ∉ body) (hlen : (h.text ++ body).length ≤ 65535) :
    parse create (h.text ++ body) errnoEinval = .error .undefined ↔
      ReadsPast errnoEinval h body := by
  rcases parseRequestLine_cases h.nul_line errnoEinval with
    ⟨t, haccepted, hline⟩ | hwithout | hrejected
  · have hversion : ¬ WithoutVersion h.line := hline ▸ haccepted.not_withoutVersion
    have hparse := @RequestHead.parse_text h errnoEinval body hlen
    have hparseLine := parseRequestLine_text haccepted
    rw [← hline] at hparseLine
    rw [hparseLine, ok_bind] at hparse
    have hpast : ReadsPast errnoEinval h body ↔ ¬ LastHasColon h.headers ∧ StrayColon body := by
      constructor
      · rintro (hwithout | ⟨_, _, _, hlast, hstray⟩)
        · exact absurd hwithout hversion
        · exact ⟨hlast, hstray⟩
      · exact fun hboth => .header t haccepted hline hboth.1 hboth.2
    rw [hpast]
    by_cases hlast : LastHasColon h.headers
    · obtain ⟨headers, houtcome⟩ := RequestHead.exists_outcome haccepted hline hlast
      refine iff_of_false ?_ (fun hboth => hboth.1 hlast)
      rw [← undefined_of_outcome, houtcome body hlen]
      exact Outcome.noConfusion
    · by_cases hcolon : ':' ∈ body
      · by_cases hstray : StrayColon body
        · refine iff_of_true ?_ ⟨hlast, hstray⟩
          rw [hparse]
          exact parseHeaders_strayColon hn hstray h.headers _ _ h.isLine h.nul_headers hlast
        · have hfuel : h.headers.length < (h.text ++ body).length + 1 := by
            have hblock := length_block h.headers h.isLine
            simp only [RequestHead.text, List.length_append]
            omega
          obtain ⟨pr, hok⟩ := parseHeaders_bodyColon hn hcolon hstray h.headers
            { create with requestLine := some t.fields } _ h.isLine h.nul_headers hfuel
          refine iff_of_false ?_ (fun hboth => hstray hboth.2)
          rw [hparse, hok]
          intro heq
          cases heq
      · refine iff_of_false ?_ ?_
        · rw [← undefined_of_outcome,
            (RequestHead.outcome_eq_rejected_iff haccepted hline hlast hn hlen).mpr hcolon]
          exact Outcome.noConfusion
        · rintro ⟨_, key, after, rfl, _⟩
          exact hcolon (by simp)
  · refine iff_of_true ?_ (.version hwithout)
    exact undefined_of_outcome.mp (RequestHead.outcome_withoutVersion hwithout hlen)
  · refine iff_of_false ?_ ?_
    · have hline := (rejectedLine_iff h.nul_line errnoEinval).mpr hrejected
      rw [← undefined_of_outcome, RequestHead.outcome_rejectedLine hline]
      exact Outcome.noConfusion
    · have hline := (rejectedLine_iff h.nul_line errnoEinval).mpr hrejected
      rintro (hwithout | ⟨t, haccepted, htext, _, _⟩)
      · exact hline.version hwithout
      · exact hline.parts t haccepted htext.symm

end Heads

/-- On the buffers that the servers pass, which hold no NUL, every read stays
within its copy unless the buffer is of one of the two shapes. -/
theorem readsWithin_iff {buf : List Char} (hn : nul ∉ buf) (errnoEinval : Bool) :
    ReadsWithin buf errnoEinval ↔ (buf.length ≤ 65535 →
      ∀ (h : RequestHead) (body : CString), buf = h.text ++ body →
        ¬ ReadsPast errnoEinval h body) := by
  constructor
  · rintro ⟨hdefined, _, _⟩ hlen h body rfl hpast
    apply hdefined
    exact (parse_undefined_iff (fun hc => hn (List.mem_append_right _ hc)) hlen).mpr hpast
  · intro hshapes
    apply readsWithin_of_defined
    by_cases hlen : buf.length ≤ 65535
    · by_cases hblank : crlf ++ crlf <:+: buf
      · obtain ⟨head, body, rfl, hend⟩ := exists_endsAtBlank buf hblank
        obtain ⟨h, rfl⟩ := exists_requestHead hend (fun hc => hn (List.mem_append_left _ hc))
        intro hundefined
        exact hshapes hlen h body rfl
          ((parse_undefined_iff (fun hc => hn (List.mem_append_right _ hc)) hlen).mp hundefined)
      · rw [Ne, ← undefined_of_outcome, outcome_of_noBlank hn hblank]
        exact Outcome.noConfusion
    · rw [Ne, ← undefined_of_outcome, outcome_of_long (not_le.mp hlen)]
      exact Outcome.noConfusion

theorem readsWithin_iff_body :
    ReadsWithin "GET http://h/ HTTP/1.0\r\nA: b\r\n\r\nc: d\r\n".toList false := by
  apply (readsWithin_iff (by decide) false).mpr
  intro hlen h body heq hpast
  have hbody : nul ∉ h.text ++ body := heq ▸ (by decide)
  have hundefined := (parse_undefined_iff (fun hc => hbody (List.mem_append_right _ hc))
    (heq ▸ hlen)).mpr hpast
  rw [← heq] at hundefined
  exact absurd hundefined (by decide)

/-- Without a version the parser looks for one behind the copy of the line. -/
theorem version_past_end : ¬ ∀ buf, nul ∉ buf → ReadsWithin buf false := by
  intro hall
  have hreads := hall "GET x\r\n\r\n".toList (by decide)
  have hundefined : parse create "GET x\r\n\r\n".toList false = .error .undefined := by decide
  exact hreads.defined hundefined

end ParserReads

end ProxyServer
