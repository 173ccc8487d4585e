import ProxyServer.RequestSize
import ProxyServer.HeaderLines

/-!
What is printed from an accepted request parses again. The printed request line
has the parts of the accepted one without what was skipped, and the printed
headers are a block whose lines leave the same table, so the second parse gives
the same fields and live headers.
-/
namespace ProxyServer

open CStrings ParseError

namespace CStrings

theorem exists_strstr {needle : CString} (hne : needle ≠ []) {s : CString} (hn : nul ∉ s)
    (h : needle <:+: s) (post : List Char) :
    ∃ q, strstr needle (s ++ post) = some (some q) := by
  induction s with
  | nil => exact absurd (List.infix_nil.mp h) hne
  | cons c s ih =>
    rw [List.cons_append, strstr]
    by_cases hprefix : needle.isPrefixOf (c :: (s ++ post))
    · exact ⟨_, if_pos hprefix⟩
    · have hc : c ≠ nul := fun h => hn (h ▸ List.mem_cons_self)
      rw [if_neg hprefix, if_neg hc]
      apply ih (fun hc => hn (List.mem_cons_of_mem _ hc))
      refine (List.infix_cons_iff.mp h).resolve_left ?_
      intro hpre
      rw [List.isPrefixOf_iff_prefix] at hprefix
      exact hprefix (hpre.trans (List.prefix_append (c :: s) post))

theorem blank_isInfix (l : CString) (lines : List CString) :
    crlf ++ crlf <:+: l ++ (crlf ++ block lines) := by
  obtain ⟨x, hx⟩ := crlf_suffix lines
  refine ⟨l ++ x, [], ?_⟩
  rw [block, ← List.append_assoc crlf, ← hx]
  simp

theorem length_block (lines : List CString) (hlines : ∀ l ∈ lines, IsLine l) :
    3 * lines.length + 2 ≤ (block lines).length := by
  induction lines with
  | nil => simp [crlf]
  | cons l lines ih =>
    have hrest := ih (fun u hu => hlines u (List.mem_cons_of_mem _ hu))
    have hl := List.length_pos_of_ne_nil (hlines l List.mem_cons_self).nonempty
    have hcrlf : crlf.length = 2 := rfl
    rw [block_cons, List.length_append, List.length_append, List.length_cons]
    omega

end CStrings

namespace ParsedRequest

open ParsedHeader OrderedTable

namespace RequestText

/-- The parts of the line that is printed from the fields. -/
def canonical (t : RequestText) : RequestText where
  leading := []
  gap := []
  marks := []
  protocol := t.protocol
  mark := ':'
  slashes := "//".toList
  colons := []
  host := t.host
  portTail := if t.portTail.drop 1 = [] then [] else ':' :: t.portTail.drop 1
  pathTail := '/' :: t.pathTail.drop 1
  version := t.version

theorem canonical_text (t : RequestText) : t.canonical.text = "GET".toList ++ ' ' ::
    (t.protocol ++ ':' :: '/' :: '/' :: (t.host ++ (t.canonical.portTail ++
      '/' :: (t.pathTail.drop 1 ++ ' ' :: t.version)))) := by
  simp [text, lineText, addr, uri, hostText, canonical]

theorem canonical_portTail_drop (t : RequestText) :
    t.canonical.portTail.drop 1 = t.portTail.drop 1 := by
  unfold canonical
  dsimp only
  split
  · rename_i hnil
    rw [hnil]
    rfl
  · rfl

theorem canonical_fields (t : RequestText) : t.canonical.fields = t.fields := by
  have hport : token t.canonical.portTail = token t.portTail := by
    rw [token, canonical_portTail_drop]
    rfl
  rw [fields, hport]
  rfl

theorem printLine_fields (t : RequestText) : printLine t.fields = t.canonical.text ++ crlf := by
  rw [canonical_text]
  by_cases hnil : t.portTail.drop 1 = []
  · have hport : t.fields.port = none := if_pos hnil
    have htail : t.canonical.portTail = [] := if_pos hnil
    rw [printLine, hport, htail]
    simp [fields]
  · have hport : t.fields.port = some (t.portTail.drop 1) := if_neg hnil
    have htail : t.canonical.portTail = ':' :: t.portTail.drop 1 := if_neg hnil
    rw [printLine, hport, htail]
    simp [fields]

theorem canonical_hostText (t : RequestText) :
    t.canonical.hostText = t.host ++ t.canonical.portTail := rfl

theorem canonical_addr (t : RequestText) : t.canonical.addr =
    t.protocol ++ ':' :: '/' :: '/' :: (t.host ++ (t.canonical.portTail ++
      '/' :: t.pathTail.drop 1)) := by
  simp [addr, uri, hostText, canonical]

section Parts

variable {t : RequestText}

theorem canonical_portTail_subset (t : RequestText) :
    ∀ c ∈ t.canonical.portTail, c = ':' ∨ c ∈ t.portTail.drop 1 := by
  intro c hc
  unfold canonical at hc
  dsimp only at hc
  split at hc
  · contradiction
  · exact List.mem_cons.mp hc

theorem nul_notMem_canonical (h : nul ∉ t.text) : nul ∉ t.canonical.text := by
  have hpart : ∀ {u : CString}, u <:+: t.text → nul ∉ u := fun hu hc => h (hu.subset hc)
  rw [canonical_text]
  simp only [List.mem_append, List.mem_cons, not_or]
  refine ⟨by decide, by decide, hpart t.protocol_isInfix, by decide, by decide, by decide,
    hpart t.host_isInfix, ?_, by decide, hpart (drop_isInfix t.pathTail_isInfix), by decide,
    hpart t.version_isInfix⟩
  intro hc
  rcases canonical_portTail_subset t nul hc with hcolon | hport
  · exact absurd hcolon (by decide)
  · exact hpart (drop_isInfix t.portTail_isInfix) hport

theorem noCrlf_canonical (h : NoCrlf t.text) : NoCrlf t.canonical.text := by
  have hget : NoCrlf "GET".toList := by decide
  have hnil : NoCrlf [] := by decide
  have hpart : ∀ {u : CString}, u <:+: t.text → NoCrlf u := fun hu => h.of_isInfix hu
  have htail : NoCrlf (t.pathTail.drop 1 ++ ' ' :: t.version) := by
    rw [noCrlf_append_cons (by decide) (by decide)]
    exact ⟨hpart (drop_isInfix t.pathTail_isInfix), hpart t.version_isInfix⟩
  have hhost : NoCrlf (t.host ++ (t.canonical.portTail ++
      '/' :: (t.pathTail.drop 1 ++ ' ' :: t.version))) := by
    unfold canonical
    dsimp only
    split
    · rw [List.nil_append, noCrlf_append_cons (by decide) (by decide)]
      exact ⟨hpart t.host_isInfix, htail⟩
    · rw [List.cons_append, noCrlf_append_cons (by decide) (by decide),
        noCrlf_append_cons (by decide) (by decide)]
      exact ⟨hpart t.host_isInfix, hpart (drop_isInfix t.portTail_isInfix), htail⟩
  have hslashes : NoCrlf ('/' :: '/' :: (t.host ++ (t.canonical.portTail ++
      '/' :: (t.pathTail.drop 1 ++ ' ' :: t.version)))) :=
    (@noCrlf_append_cons '/' (by decide) (by decide) [] _).mpr
      ⟨hnil, (@noCrlf_append_cons '/' (by decide) (by decide) [] _).mpr ⟨hnil, hhost⟩⟩
  rw [canonical_text, noCrlf_append_cons (by decide) (by decide),
    noCrlf_append_cons (by decide) (by decide)]
  exact ⟨hget, hpart t.protocol_isInfix, hslashes⟩

theorem Shape.canonical (h : t.Shape) : t.canonical.Shape where
  noNul := nul_notMem_canonical h.noNul
  leading := by simp [RequestText.canonical]
  gap := by simp [RequestText.canonical]
  spaces := by
    have haddr : ∀ {u : CString}, (∀ c ∈ u, c ∈ t.addr) → ' ' ∉ u :=
      fun hu hc => h.spaces ' ' (hu ' ' hc) List.mem_cons_self
    intro c hc hspace
    obtain rfl : c = ' ' := List.mem_singleton.mp hspace
    have hprotocol : ' ' ∉ t.protocol := haddr (by
      intro c hc
      simp [addr, hc])
    have hhost : ' ' ∉ t.host := haddr (by
      intro c hc
      simp [addr, uri, RequestText.hostText, hc])
    have hport : ' ' ∉ t.portTail.drop 1 := haddr (by
      intro c hc
      simp [addr, uri, RequestText.hostText, List.mem_of_mem_drop hc])
    have hpath : ' ' ∉ t.pathTail.drop 1 := haddr (by
      intro c hc
      simp [addr, uri, List.mem_of_mem_drop hc])
    have hcolon : ' ' ∉ t.canonical.portTail := by
      intro hc
      rcases canonical_portTail_subset t ' ' hc with heq | hmem
      · exact absurd heq (by decide)
      · exact hport hmem
    have hcases : ' ' ∈ t.protocol ∨ ' ' ∈ t.host ∨ ' ' ∈ t.canonical.portTail ∨
        ' ' ∈ t.pathTail.drop 1 := by
      rw [canonical_addr] at hc
      simpa using hc
    rcases hcases with hc | hc | hc | hc
    · exact hprotocol hc
    · exact hhost hc
    · exact hcolon hc
    · exact hpath hc
  marks := by simp [RequestText.canonical]
  protocol := h.protocol
  mark := by simp [RequestText.canonical]
  slashes := by simp [RequestText.canonical]
  colons := by simp [RequestText.canonical]
  hostText := by
    intro c hc
    rw [canonical_hostText, List.mem_append] at hc
    rcases hc with hc | hc
    · exact h.hostText c (by simp [RequestText.hostText, hc])
    · rcases canonical_portTail_subset t c hc with rfl | hport
      · decide
      · exact h.hostText c (by simp [RequestText.hostText, List.mem_of_mem_drop hport])
  host := h.host
  portTail := by
    unfold RequestText.canonical
    dsimp only
    split
    · simp [Tail]
    · simp [Tail]
  pathTail := by simp [Tail, RequestText.canonical]

theorem canonical_absUri (h : t.Shape) :
    t.canonical.absUri = some (t.canonical.hostText ++ t.canonical.pathTail) := by
  have hn : nul ∉ t.canonical.hostText ++ t.canonical.pathTail := by
    intro hc
    apply h.canonical.noNul
    simp only [text, lineText, addr, uri, List.mem_append, List.mem_cons] at hc ⊢
    rcases hc with hc | hc
    · simp [hc]
    · simp [hc]
  have hread := stringAt_append hn (t.canonical.protocolCut ++ "//".toList)
    (t.canonical.version ++ [nul])
  have hmem : t.canonical.protocolCut ++
        (t.canonical.uri ++ nul :: (t.canonical.version ++ [nul])) =
      (t.canonical.protocolCut ++ "//".toList) ++ ((t.canonical.hostText ++ t.canonical.pathTail) ++
        nul :: (t.canonical.version ++ [nul])) := by
    simp [uri, canonical]
  have hoffset : (t.canonical.leading ++ ("GET".toList ++ [nul]) ++ t.canonical.gap).length +
      t.canonical.protocol.length + 3 = (t.canonical.protocolCut ++ "//".toList).length := by
    simp [protocolCut, canonical]
    omega
  rw [absUri, hmem, hoffset, hread]

/-- The printed line passes the checks that the accepted one passed. -/
theorem Accepted.canonical {errnoEinval : Bool} (h : t.Accepted errnoEinval) :
    t.canonical.Accepted errnoEinval where
  shape := h.shape.canonical
  version := h.version
  absolutePath := by
    refine ⟨_, canonical_absUri h.shape, ?_⟩
    simp [RequestText.canonical]
  path := h.path
  port := by
    rw [canonical_portTail_drop]
    exact h.port

end Parts

end RequestText

section Buffers

variable {l : CString} {lines : List CString}

/-- The parse of a request line, a block of header lines and what follows. -/
theorem parse_block (hl : NoCrlf l) (hn : nul ∉ l ++ (crlf ++ block lines)) (body : List Char)
    (hlen : (l ++ (crlf ++ (block lines ++ body))).length ≤ 65535) (errnoEinval : Bool) :
    parse create (l ++ (crlf ++ (block lines ++ body))) errnoEinval =
      (parseRequestLine l errnoEinval >>= fun line =>
        parseHeaders ((l ++ (crlf ++ (block lines ++ body))).length + 1)
          { create with requestLine := some line } (block lines ++ (body ++ [nul]))) := by
  have hnLine : nul ∉ l := fun hc => hn (List.mem_append_left _ hc)
  obtain ⟨q, hq⟩ := exists_strstr (by simp [crlf]) hn (blank_isInfix l lines) (body ++ [nul])
  have hmin : 4 ≤ (l ++ (crlf ++ (block lines ++ body))).length := by
    have hcrlf : crlf.length = 2 := rfl
    simp only [block, List.length_append, hcrlf]
    omega
  have hmem : l ++ (crlf ++ (block lines ++ body)) ++ [nul] =
      l ++ (crlf ++ (block lines ++ (body ++ [nul]))) := by
    simp
  have hassoc : l ++ (crlf ++ (block lines ++ (body ++ [nul]))) =
      l ++ (crlf ++ block lines) ++ (body ++ [nul]) := by
    simp
  have hstrstr := strstr_crlf hl hnLine (block lines ++ (body ++ [nul]))
  have htake : (l ++ (crlf ++ (block lines ++ (body ++ [nul])))).take
      ((l ++ (crlf ++ (block lines ++ (body ++ [nul])))).length -
        (crlf ++ (block lines ++ (body ++ [nul]))).length) = l := by
    rw [List.length_append, Nat.add_sub_cancel, List.take_left]
  have hfuel : (l ++ (crlf ++ (block lines ++ (body ++ [nul])))).length =
      (l ++ (crlf ++ (block lines ++ body))).length + 1 := by
    rw [← hmem, List.length_append]
    rfl
  have hfresh : create.requestLine = none := rfl
  rw [parse, require_of hfresh, ok_bind, require_of ⟨hmin, hlen⟩, ok_bind]
  rw [hmem]
  dsimp only
  rw [hassoc, hq, ← hassoc, hstrstr]
  simp only [orUndefined_some, orRejected_some, ok_bind, htake]
  rw [hfuel]
  rfl

/-- A block whose lines all have headers is accepted behind a good line. -/
theorem parse_block_sets (hl : NoCrlf l) (hlines : ∀ u ∈ lines, IsLine u)
    (hn : nul ∉ l ++ (crlf ++ block lines)) (body : List Char)
    (hlen : (l ++ (crlf ++ (block lines ++ body))).length ≤ 65535)
    {errnoEinval : Bool} {line : RequestLine} (hline : parseRequestLine l errnoEinval = .ok line)
    {sets : List (CString × CString)} (hsets : HeaderSets lines sets) :
    ∃ pr, parse create (l ++ (crlf ++ (block lines ++ body))) errnoEinval = .ok pr ∧
      pr.requestLine = some line ∧ pr.live = ofSets sets := by
  have hnBlock : nul ∉ block lines := fun hc => hn (by simp [hc])
  have hfuel : lines.length < (l ++ (crlf ++ (block lines ++ body))).length + 1 := by
    have hblock := length_block lines hlines
    simp only [List.length_append]
    omega
  obtain ⟨hlive, hrequest⟩ := setAll_spec sets
    (by simp [live, create, keys] : (keys (live { create with requestLine := some line })).Nodup)
  obtain ⟨before, after, hbody, hbefore⟩ :=
    List.eq_append_cons_of_mem (by simp : nul ∈ body ++ [nul])
  refine ⟨_, ?_, hrequest, hlive⟩
  rw [parse_block hl hn body hlen, hline, ok_bind, hbody]
  exact parseHeaders_sets hsets _ _ _ _ hlines hnBlock hbefore hfuel

/-- The header table of an accepted block that ends the buffer. -/
theorem parse_block_ok (hl : NoCrlf l) (hlines : ∀ u ∈ lines, IsLine u)
    (hn : nul ∉ l ++ (crlf ++ block lines)) (hlen : (l ++ (crlf ++ block lines)).length ≤ 65535)
    {errnoEinval : Bool} {pr : ParsedRequest}
    (h : parse create (l ++ (crlf ++ block lines)) errnoEinval = .ok pr) :
    ∃ line sets, parseRequestLine l errnoEinval = .ok line ∧ HeaderSets lines sets ∧
      pr.requestLine = some line ∧ pr.live = ofSets sets := by
  have hnBlock : nul ∉ block lines := fun hc => hn (by simp [hc])
  have hparse := parse_block hl hn [] (by rwa [List.append_nil]) errnoEinval
  rw [List.append_nil, List.nil_append] at hparse
  rw [hparse] at h
  obtain ⟨line, hline, h⟩ := bind_ok h
  obtain ⟨sets, hsets, rfl⟩ := headerSets_of_parseHeaders lines _ _ _ hlines hnBlock h
  obtain ⟨hlive, hrequest⟩ := setAll_spec sets
    (by simp [live, create, keys] : (keys (live { create with requestLine := some line })).Nodup)
  exact ⟨line, sets, hline, hsets, hrequest, hlive⟩

end Buffers

/-- An accepted buffer has a first blank line, before any NUL. -/
theorem exists_blank_of_parse {pr pr' : ParsedRequest} {buf : List Char} {errnoEinval : Bool}
    (h : parse pr buf errnoEinval = .ok pr') :
    ∃ u body, buf = u ++ ((crlf ++ crlf) ++ body) ∧ nul ∉ u ∧
      EndsAtBlank (u ++ (crlf ++ crlf)) := by
  obtain ⟨_, _, h⟩ := bind_ok h
  obtain ⟨_, _, h⟩ := bind_ok h
  obtain ⟨found, hfound, h⟩ := bind_ok h
  obtain ⟨q, hq, _⟩ := bind_ok h
  rw [orRejected_ok hq] at hfound
  obtain ⟨u, hu, hn, ⟨rest, rfl⟩, hfirst⟩ := strstr_eq_some (orUndefined_ok hfound)
  have hbody : ∃ body, buf = u ++ ((crlf ++ crlf) ++ body) := by
    rcases List.eq_nil_or_concat rest with rfl | ⟨body, c, rfl⟩
    · have hlast := congrArg List.getLast? hu
      simp [crlf] at hlast
      exact absurd hlast (by decide)
    · rw [List.concat_eq_append] at hu
      have hsplit : buf ++ [nul] = (u ++ ((crlf ++ crlf) ++ body)) ++ [c] := by
        rw [hu]
        simp
      exact ⟨body, (List.append_inj' hsplit rfl).1⟩
  obtain ⟨body, hbuf⟩ := hbody
  refine ⟨u, body, hbuf, hn, List.suffix_append u _, ?_⟩
  intro a b hab
  by_contra hb
  have hlength := congrArg List.length hab
  have hpos := List.length_pos_of_ne_nil hb
  simp only [List.length_append] at hlength
  obtain ⟨v, hv⟩ : a <+: u := List.prefix_of_prefix_length_le ⟨_, hab.symm⟩
    (List.prefix_append u (crlf ++ crlf)) (by omega)
  have hne : v ≠ [] := by
    rintro rfl
    rw [List.append_nil] at hv
    subst hv
    omega
  apply hfirst a v hv.symm hne
  rw [← hv, List.append_assoc, List.append_cancel_left_eq] at hab
  rw [← List.append_assoc, hab]
  exact ⟨b ++ rest, by simp⟩

theorem blank_of_parse {pr pr' : ParsedRequest} {buf : List Char} {errnoEinval : Bool}
    (h : parse pr buf errnoEinval = .ok pr') : crlf ++ crlf <:+: buf := by
  obtain ⟨u, body, rfl, _⟩ := exists_blank_of_parse h
  exact ⟨u, body, by rw [List.append_assoc]⟩

/-- An accepted buffer that ends at its first blank line holds no NUL. -/
theorem noNul_of_parse {buf : List Char} (hend : EndsAtBlank buf) {pr pr' : ParsedRequest}
    {errnoEinval : Bool} (h : parse pr buf errnoEinval = .ok pr') : nul ∉ buf := by
  obtain ⟨u, body, hbuf, hn, _⟩ := exists_blank_of_parse h
  obtain rfl := hend.2 u body hbuf
  rw [hbuf]
  intro hc
  simp only [List.append_nil, List.mem_append] at hc
  rcases hc with hc | hc
  · exact hn hc
  · exact absurd hc (by decide)

/-- The line printed from an accepted line of up to 65535 characters is short. -/
theorem length_printLine_fields {t : RequestText} (hlen : t.text.length ≤ 65535) :
    (printLine t.fields).length ≤ 400000 := by
  have hpart : ∀ {u : CString}, u <:+: t.text → u.length ≤ 65535 :=
    fun hu => hu.length_le.trans hlen
  have hprotocol := hpart t.protocol_isInfix
  have hhost := hpart t.host_isInfix
  have hport := hpart t.portTail_isInfix
  have hpath := hpart t.pathTail_isInfix
  have hversion := hpart t.version_isInfix
  have htail : t.canonical.portTail.length ≤ t.portTail.length + 1 := by
    unfold RequestText.canonical
    dsimp only
    split
    · simp
    · simp only [List.length_cons, List.length_drop]
      omega
  rw [RequestText.printLine_fields, RequestText.canonical_text]
  simp only [List.length_append, List.length_cons, List.length_drop, crlf, List.length_nil]
  have hget : "GET".toList.length = 3 := rfl
  omega

/-- Unparsing an accepted request that ends at its first blank line fills
`ParsedRequest_totalLen` bytes, and what is printed, unless it is too long to be
parsed at all, parses into the same fields and live headers. -/
theorem unparse_parses_back {buf : List Char} {pr : ParsedRequest} (hend : EndsAtBlank buf)
    (hparse : parse create buf false = .ok pr) :
    ∃ out, unparse pr (totalLen pr) = some out ∧ out.length = totalLen pr ∧
      (out.length ≤ 65535 → ∃ pr', parse create out false = .ok pr' ∧
        pr'.requestLine = pr.requestLine ∧ pr'.live = pr.live) := by
  have hn := noNul_of_parse hend hparse
  have hlen := length_of_parse hparse
  obtain ⟨l, lines, rfl, hl, hlines⟩ := hend.exists_block
  have hnLine : nul ∉ l := fun hc => hn (List.mem_append_left _ hc)
  have hnBlock : nul ∉ block lines := fun hc => hn (by simp [hc])
  obtain ⟨line, sets, hline, hsets, hrequest, hlive⟩ := parse_block_ok hl hlines hn hlen hparse
  obtain ⟨t, haccepted, rfl, rfl⟩ := parseRequestLine_ok hnLine hline
  obtain ⟨lines', sets', hlines', hblock, hsets', hofSets⟩ := hsets.reprint hlines hnBlock
  have hprint : printLine t.fields ++ (pr.live.flatMap headerText ++ crlf) =
      t.canonical.text ++ (crlf ++ block lines') := by
    rw [RequestText.printLine_fields, hlive, hblock, List.append_assoc]
  have hshort : (printLine t.fields ++ (pr.live.flatMap headerText ++ crlf)).length < 2 ^ 31 := by
    simp only [List.length_append] at hlen
    have hfields := length_printLine_fields (by omega : t.text.length ≤ 65535)
    have hheaders := (parse_printedSize hparse).2
    have hcrlf : crlf.length = 2 := rfl
    rw [printedSize] at hheaders
    simp only [List.length_append]
    omega
  obtain ⟨hunparse, htotal⟩ := unparse_totalLen hrequest hshort
  rw [hprint] at hunparse htotal
  refine ⟨_, hunparse, htotal.symm, ?_⟩
  intro hfits
  have hn' : nul ∉ t.canonical.text ++ (crlf ++ block lines') := by
    rw [← hblock]
    simp only [List.mem_append, not_or]
    refine ⟨RequestText.nul_notMem_canonical hnLine, by decide, ?_, by decide⟩
    intro hc
    obtain ⟨e, he, hmem⟩ := List.mem_flatMap.mp hc
    have hnEntry := (hsets.parts hlines hnBlock e ((ofSets_sublist sets).subset he)).1.noNul
    simp only [headerText, List.mem_append] at hmem
    rcases hmem with ((hmem | hmem) | hmem) | hmem
    · exact hnEntry.1 hmem
    · exact absurd hmem (by decide)
    · exact hnEntry.2 hmem
    · exact absurd hmem (by decide)
  have hline' := parseRequestLine_text haccepted.canonical
  rw [RequestText.canonical_fields] at hline'
  have hparse' := parse_block_sets (RequestText.noCrlf_canonical hl) hlines' hn' []
    (by rwa [List.append_nil]) hline' hsets'
  rw [List.append_nil] at hparse'
  obtain ⟨pr', hparse', hrequest', hlive'⟩ := hparse'
  exact ⟨pr', hparse', hrequest'.trans hrequest.symm, by rw [hlive', hofSets, hlive]⟩

/-- A request with a key that spans lines, printed and parsed again. -/
theorem unparse_parses_back_spanning :
    let buf := "GET  http://h/ HTTP/1.0\r\nA\r\nB: 1\r\nA: 2\r\n\r\n".toList
    let line : RequestLine := ⟨"GET".toList, "http".toList, "h".toList, none, "/".toList,
      "HTTP/1.0".toList⟩
    let pr : ParsedRequest := ⟨some line, [⟨some "A\r\nB".toList, "1".toList⟩,
      ⟨some "B".toList, "1".toList⟩, ⟨some "A".toList, "2".toList⟩], 8⟩
    EndsAtBlank buf ∧ parse create buf false = .ok pr ∧
      ∃ out, unparse pr (totalLen pr) = some out ∧ out.length = totalLen pr ∧
        (out.length ≤ 65535 → ∃ pr', parse create out false = .ok pr' ∧
          pr'.requestLine = pr.requestLine ∧ pr'.live = pr.live) := by
  intro buf line pr
  have hend : EndsAtBlank buf := endsAtBlank_of_dropLast (by decide) (by decide)
  have hparse : parse create buf false = .ok pr := by decide
  exact ⟨hend, hparse, unparse_parses_back hend hparse⟩

end ParsedRequest

end ProxyServer
