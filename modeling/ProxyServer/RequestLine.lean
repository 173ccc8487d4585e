import ProxyServer.RequestText

/-!
The request lines that parse. A line is accepted when it has the parts of
`RequestText` and they pass the checks, and the fields are parts of it; a line
without a version is read past its end, and every other line is rejected. The
header loop leaves the fields alone.
-/
namespace ProxyServer

open CStrings ParseError

namespace ParsedRequest

/-- The checks that are left of a request line with the parts. -/
structure RequestText.Accepted (t : RequestText) (errnoEinval : Bool) : Prop where
  shape : t.Shape
  version : t.version.take 5 = "HTTP/".toList
  absolutePath : ∃ absUri, t.absUri = some absUri ∧ t.hostText.length ≠ absUri.length
  path : t.pathTail.drop 1 ≠ [] → (t.pathTail.drop 1).take 1 ≠ "/".toList
  port : t.portTail.drop 1 ≠ [] → badPort (t.portTail.drop 1) errnoEinval = false

namespace RequestText

theorem pathCheck_of (t : RequestText)
    (h : t.pathTail.drop 1 ≠ [] → (t.pathTail.drop 1).take 1 ≠ "/".toList) :
    t.pathCheck = .ok () := by
  unfold pathCheck
  split
  · rfl
  · rename_i hne
    exact require_of (h hne) _

theorem isRejected_pathCheck (t : RequestText)
    (h : ¬ (t.pathTail.drop 1 ≠ [] → (t.pathTail.drop 1).take 1 ≠ "/".toList)) :
    IsRejected t.pathCheck := by
  obtain ⟨hne, hslash⟩ := Classical.not_imp.mp h
  rw [pathCheck, if_neg hne]
  exact isRejected_require hslash _

theorem portCheck_of (t : RequestText) {errnoEinval : Bool}
    (h : t.portTail.drop 1 ≠ [] → badPort (t.portTail.drop 1) errnoEinval = false) :
    t.portCheck errnoEinval = .ok () := by
  unfold portCheck
  split
  · rfl
  · rename_i hne
    exact require_of (h hne) _

theorem isRejected_portCheck (t : RequestText) {errnoEinval : Bool}
    (h : ¬ (t.portTail.drop 1 ≠ [] → badPort (t.portTail.drop 1) errnoEinval = false)) :
    IsRejected (t.portCheck errnoEinval) := by
  obtain ⟨hne, hport⟩ := Classical.not_imp.mp h
  rw [portCheck, if_neg hne]
  exact isRejected_require hport _

end RequestText

theorem RequestText.Shape.addr_ne_nil {t : RequestText} (h : t.Shape) : t.addr ≠ [] := by
  simp [RequestText.addr, h.protocol.1]

/-- A line with the parts that pass the checks is parsed into its fields. -/
theorem parseRequestLine_text {t : RequestText} {errnoEinval : Bool} (h : t.Accepted errnoEinval) :
    parseRequestLine t.text errnoEinval = .ok t.fields := by
  obtain ⟨absUri, habsUri, hlength⟩ := h.absolutePath
  have hcut := cutLine_lineText h.shape.noNul h.shape.leading h.shape.gap h.shape.addr_ne_nil
    h.shape.spaces
  rw [require_of h.version, ok_bind] at hcut
  have hpath := t.pathCheck_of h.path
  have hport := t.portCheck_of h.port
  have haddress := cutAddress_cut h.shape errnoEinval
  rw [habsUri, orUndefined_some, ok_bind, require_of hlength, ok_bind, hpath, ok_bind, hport,
    ok_bind] at haddress
  rw [parseRequestLine, RequestText.text, hcut, ok_bind]
  exact haddress

/-- A line that ends at its full address makes the parser read past the end. -/
theorem parseRequestLine_withoutVersion {line : CString} (hn : nul ∉ line)
    (h : WithoutVersion line) (errnoEinval : Bool) :
    parseRequestLine line errnoEinval = .error .undefined := by
  rw [parseRequestLine, cutLine_withoutVersion hn h, error_bind]

theorem parseRequestLine_cases {line : CString} (hn : nul ∉ line) (errnoEinval : Bool) :
    (∃ t : RequestText, t.Accepted errnoEinval ∧ line = t.text) ∨ WithoutVersion line ∨
      IsRejected (parseRequestLine line errnoEinval) := by
  rcases cutLine_cases hn with
    ⟨leading, gap, addr, version, rfl, hleading, hgap, haddr, hspace, hversion⟩ | hwithout | hcut
  · have hcut := cutLine_lineText hn hleading hgap haddr hspace
    rw [require_of hversion, ok_bind] at hcut
    rw [parseRequestLine, hcut, ok_bind]
    rcases cutAddress_cases hn hleading hgap hspace hversion errnoEinval with
      ⟨t, hshape, htext, hcutText, rfl⟩ | hrejected
    · obtain ⟨absUri, habsUri⟩ : ∃ absUri, t.absUri = some absUri :=
        @exists_absUri (t.leading ++ ("GET".toList ++ [nul]) ++ t.gap) t.marks t.protocol
          (t.mark :: t.uri) t.version hversion
      rw [← hcutText, cutAddress_cut hshape, habsUri, orUndefined_some, ok_bind]
      by_cases hlength : t.hostText.length ≠ absUri.length
      · rw [require_of hlength, ok_bind]
        by_cases hpath : t.pathTail.drop 1 ≠ [] → (t.pathTail.drop 1).take 1 ≠ "/".toList
        · by_cases hport : t.portTail.drop 1 ≠ [] →
              badPort (t.portTail.drop 1) errnoEinval = false
          · exact Or.inl ⟨t, ⟨hshape, hversion, ⟨absUri, habsUri, hlength⟩, hpath, hport⟩,
              htext.symm⟩
          · rw [t.pathCheck_of hpath, ok_bind]
            exact Or.inr (Or.inr ((t.isRejected_portCheck hport).bind _))
        · exact Or.inr (Or.inr ((t.isRejected_pathCheck hpath).bind _))
      · exact Or.inr (Or.inr ((isRejected_require hlength _).bind _))
    · exact Or.inr (Or.inr hrejected)
  · exact Or.inr (Or.inl hwithout)
  · exact Or.inr (Or.inr (hcut.bind _))

theorem RequestText.Accepted.not_withoutVersion {t : RequestText} {errnoEinval : Bool}
    (h : t.Accepted errnoEinval) : ¬ WithoutVersion t.text := by
  intro hwithout
  have hundefined := parseRequestLine_withoutVersion h.shape.noNul hwithout errnoEinval
  rw [parseRequestLine_text h] at hundefined
  contradiction

/-- Every line that is parsed has the parts, they pass the checks, and the
fields are theirs. -/
theorem parseRequestLine_ok {line : CString} (hn : nul ∉ line) {errnoEinval : Bool}
    {r : RequestLine} (h : parseRequestLine line errnoEinval = .ok r) :
    ∃ t : RequestText, t.Accepted errnoEinval ∧ line = t.text ∧ r = t.fields := by
  rcases parseRequestLine_cases hn errnoEinval with ⟨t, haccepted, rfl⟩ | hwithout | ⟨debug, herror⟩
  · rw [parseRequestLine_text haccepted] at h
    exact ⟨t, haccepted, rfl, (Except.ok.inj h).symm⟩
  · rw [parseRequestLine_withoutVersion hn hwithout] at h
    contradiction
  · rw [herror] at h
    contradiction

theorem parseHeader_requestLine {pr pr' : ParsedRequest} {line : List Char}
    (h : ParsedHeader.parse pr line = .ok pr') : pr'.requestLine = pr.requestLine := by
  obtain ⟨_, _, h⟩ := bind_ok h
  obtain ⟨_, _, h⟩ := bind_ok h
  obtain ⟨_, _, h⟩ := bind_ok h
  obtain ⟨_, _, h⟩ := bind_ok h
  cases h
  exact ParsedHeader.set_requestLine pr _ _

/-- The header loop leaves the request line alone. -/
theorem parseHeaders_requestLine (fuel : ℕ) :
    ∀ {pr pr' : ParsedRequest} {currentHeader : List Char},
      parseHeaders fuel pr currentHeader = .ok pr' → pr'.requestLine = pr.requestLine := by
  induction fuel with
  | zero =>
    intro pr pr' currentHeader h
    contradiction
  | succ fuel ih =>
    intro pr pr' currentHeader h
    rw [parseHeaders] at h
    split at h
    · contradiction
    · split at h
      · rw [Except.ok.inj h]
      · split at h
        · rw [Except.ok.inj h]
        · obtain ⟨pr₁, hheader, h⟩ := bind_ok h
          rw [← parseHeader_requestLine hheader]
          obtain ⟨next, _, h⟩ := bind_ok h
          cases next with
          | none => rw [Except.ok.inj h]
          | some next =>
            obtain ⟨text, _, h⟩ := bind_ok h
            split at h
            · rw [Except.ok.inj h]
            · exact ih h

theorem parse_ok {pr pr' : ParsedRequest} {buf : List Char} {errnoEinval : Bool}
    (h : parse pr buf errnoEinval = .ok pr') :
    ∃ u rest line, buf ++ [nul] = u ++ (crlf ++ rest) ∧ nul ∉ u ∧ NoCrlf u ∧
      parseRequestLine u errnoEinval = .ok line ∧
      parseHeaders (buf ++ [nul]).length { pr with requestLine := some line } rest = .ok pr' := by
  obtain ⟨_, _, h⟩ := bind_ok h
  obtain ⟨_, _, h⟩ := bind_ok h
  obtain ⟨_, _, h⟩ := bind_ok h
  obtain ⟨_, _, h⟩ := bind_ok h
  obtain ⟨found, hfound, h⟩ := bind_ok h
  obtain ⟨lineEnd, hlineEnd, h⟩ := bind_ok h
  obtain ⟨line, hline, h⟩ := bind_ok h
  rw [orUndefined_ok hlineEnd] at hfound
  obtain ⟨u, hu, hn, ⟨rest, rfl⟩, hfirst⟩ := strstr_eq_some (orUndefined_ok hfound)
  have htake : (buf ++ [nul]).take ((buf ++ [nul]).length - (crlf ++ rest).length) = u := by
    rw [hu, List.length_append, Nat.add_sub_cancel, List.take_left]
  rw [htake] at hline
  refine ⟨u, rest, line, hu, hn, ?_, hline, h⟩
  intro hcrlf
  obtain ⟨a, b, rfl⟩ := hcrlf
  refine hfirst a (crlf ++ b) (by rw [List.append_assoc]) (by simp [crlf]) ?_
  exact ⟨b ++ (crlf ++ rest), by simp⟩

theorem length_of_parse {pr pr' : ParsedRequest} {buf : List Char} {errnoEinval : Bool}
    (h : parse pr buf errnoEinval = .ok pr') : buf.length ≤ 65535 := by
  obtain ⟨_, _, h⟩ := bind_ok h
  obtain ⟨_, hlen, _⟩ := bind_ok h
  exact (require_ok hlen).2

/-- The fields of an accepted request are those of a request line. -/
theorem parse_fields {pr pr' : ParsedRequest} {buf : List Char} {errnoEinval : Bool}
    (h : parse pr buf errnoEinval = .ok pr') :
    ∃ t : RequestText, t.Accepted errnoEinval ∧ pr'.requestLine = some t.fields ∧
      t.text.length ≤ 65535 := by
  obtain ⟨u, rest, line, hbuf, hn, _, hline, hheaders⟩ := parse_ok h
  obtain ⟨t, haccepted, rfl, rfl⟩ := parseRequestLine_ok hn hline
  refine ⟨t, haccepted, parseHeaders_requestLine _ hheaders, ?_⟩
  have hlen := length_of_parse h
  have hsum := congrArg List.length hbuf
  simp only [List.length_append, crlf, List.length_cons, List.length_nil] at hsum
  omega

end ParsedRequest

end ProxyServer
