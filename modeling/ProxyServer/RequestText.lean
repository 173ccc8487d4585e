import ProxyServer.ProxyParse

/-!
The parts of a request line. Whatever `strtok_r` skips and cuts, a line that is
not rejected is made of the parts of `RequestText`: the delimiters skipped, the
tokens, and after each the delimiter overwritten. On such a line the parser
makes the checks that are left and returns parts of it; only a line that ends at
its full address lets it read past the end of the copy.
-/
namespace ProxyServer

open CStrings ParseError

namespace ParsedRequest

/-- The line of a method, full address and version, with the spaces skipped. -/
def lineText (leading gap addr version : CString) : CString :=
  leading ++ ("GET".toList ++ ' ' :: (gap ++ (addr ++ ' ' :: version)))

/-- The copy when the full address is cut. -/
def cutText (leading gap addr version : CString) : Cut where
  mem := (leading ++ ("GET".toList ++ [nul]) ++ gap) ++ (addr ++ nul :: (version ++ [nul]))
  method := leading.length
  fullAddr := (leading ++ ("GET".toList ++ [nul]) ++ gap).length
  version := (leading ++ ("GET".toList ++ [nul]) ++ gap).length + addr.length + 1

/-- The parts of a request line. `portTail` and `pathTail` begin with their
delimiter or are empty. -/
structure RequestText where
  leading : CString
  gap : CString
  marks : CString
  protocol : CString
  mark : Char
  slashes : CString
  colons : CString
  host : CString
  portTail : CString
  pathTail : CString
  version : CString

namespace RequestText

def hostText (t : RequestText) : CString := t.colons ++ (t.host ++ t.portTail)

def uri (t : RequestText) : CString := t.slashes ++ (t.hostText ++ t.pathTail)

def addr (t : RequestText) : CString := t.marks ++ (t.protocol ++ t.mark :: t.uri)

def text (t : RequestText) : CString := lineText t.leading t.gap t.addr t.version

/-- What is left of a tail without its delimiter. -/
def token (tail : CString) : Option CString := if tail.drop 1 = [] then none else some (tail.drop 1)

def fields (t : RequestText) : RequestLine where
  method := "GET".toList
  protocol := t.protocol
  host := t.host
  port := token t.portTail
  path := '/' :: t.pathTail.drop 1
  version := t.version

theorem protocol_isInfix (t : RequestText) : t.protocol <:+: t.text :=
  ⟨t.leading ++ ("GET".toList ++ ' ' :: (t.gap ++ t.marks)), t.mark :: (t.uri ++ ' ' :: t.version),
    by simp [text, lineText, addr]⟩

theorem host_isInfix (t : RequestText) : t.host <:+: t.text :=
  ⟨t.leading ++ ("GET".toList ++ ' ' :: (t.gap ++ (t.marks ++ (t.protocol ++ t.mark ::
    (t.slashes ++ t.colons))))), t.portTail ++ (t.pathTail ++ ' ' :: t.version),
    by simp [text, lineText, addr, uri, hostText]⟩

theorem portTail_isInfix (t : RequestText) : t.portTail <:+: t.text :=
  ⟨t.leading ++ ("GET".toList ++ ' ' :: (t.gap ++ (t.marks ++ (t.protocol ++ t.mark ::
    (t.slashes ++ (t.colons ++ t.host)))))), t.pathTail ++ ' ' :: t.version,
    by simp [text, lineText, addr, uri, hostText]⟩

theorem pathTail_isInfix (t : RequestText) : t.pathTail <:+: t.text :=
  ⟨t.leading ++ ("GET".toList ++ ' ' :: (t.gap ++ (t.marks ++ (t.protocol ++ t.mark ::
    (t.slashes ++ t.hostText))))), ' ' :: t.version,
    by simp [text, lineText, addr, uri]⟩

theorem version_isInfix (t : RequestText) : t.version <:+: t.text :=
  ⟨t.leading ++ ("GET".toList ++ ' ' :: (t.gap ++ (t.addr ++ [' ']))), [],
    by simp [text, lineText]⟩

theorem drop_isInfix {u v : CString} (h : u <:+: v) : u.drop 1 <:+: v :=
  (List.drop_suffix 1 u).isInfix.trans h

/-- The delimiters and tokens are what `strtok_r` takes them for. -/
structure Shape (t : RequestText) : Prop where
  noNul : nul ∉ t.text
  leading : ∀ c ∈ t.leading, c ∈ [' ']
  gap : ∀ c ∈ t.gap, c ∈ [' ']
  spaces : ∀ c ∈ t.addr, c ∉ [' ']
  marks : ∀ c ∈ t.marks, c ∈ [':', '/']
  protocol : t.protocol ≠ [] ∧ ∀ c ∈ t.protocol, c ∉ [':', '/']
  mark : t.mark ∈ [':', '/']
  slashes : ∀ c ∈ t.slashes, c ∈ ['/']
  colons : ∀ c ∈ t.colons, c ∈ [':']
  hostText : ∀ c ∈ t.hostText, c ∉ ['/']
  host : t.host ≠ [] ∧ ∀ c ∈ t.host, c ∉ [':']
  portTail : Tail [':'] t.portTail
  pathTail : Tail ['/'] t.pathTail

def cut (t : RequestText) : Cut := cutText t.leading t.gap t.addr t.version

/-- The copy up to the rest of the address, once the protocol is cut. -/
def protocolCut (t : RequestText) : CString :=
  (t.leading ++ ("GET".toList ++ [nul]) ++ t.gap) ++ (t.marks ++ (t.protocol ++ [nul]))

/-- What `abs_uri_len` is measured on. -/
def absUri (t : RequestText) : Option CString :=
  stringAt (t.protocolCut ++ (t.uri ++ nul :: (t.version ++ [nul])))
    ((t.leading ++ ("GET".toList ++ [nul]) ++ t.gap).length + t.protocol.length + 3)

def pathCheck (t : RequestText) : Except ParseError Unit :=
  if t.pathTail.drop 1 = [] then .ok ()
  else require ((t.pathTail.drop 1).take 1 ≠ "/".toList)
    "invalid request line, path cannot begin with two slash characters\n"

def portCheck (t : RequestText) (errnoEinval : Bool) : Except ParseError Unit :=
  if t.portTail.drop 1 = [] then .ok ()
  else require (badPort (t.portTail.drop 1) errnoEinval = false)
    ("invalid request line, bad port: " ++ String.ofList (t.portTail.drop 1) ++ "\n")

end RequestText

/-- The line ends at its full address, and `version` is set past its end. -/
def WithoutVersion (line : CString) : Prop :=
  ∃ leading gap addr, line = leading ++ ("GET".toList ++ ' ' :: (gap ++ addr)) ∧
    (∀ c ∈ leading, c ∈ [' ']) ∧ (∀ c ∈ gap, c ∈ [' ']) ∧ addr ≠ [] ∧ ∀ c ∈ addr, c ∉ [' ']

/-- How `cutLine` goes on with a line that has a full address. -/
theorem cutLine_addr {leading gap addr tail : CString}
    (hn : nul ∉ leading ++ ("GET".toList ++ ' ' :: (gap ++ (addr ++ tail))))
    (hleading : ∀ c ∈ leading, c ∈ [' ']) (hgap : ∀ c ∈ gap, c ∈ [' ']) (haddr : addr ≠ [])
    (hspace : ∀ c ∈ addr, c ∉ [' ']) (htail : Tail [' '] tail) :
    cutLine (leading ++ ("GET".toList ++ ' ' :: (gap ++ (addr ++ tail)))) = (do
      let mem := (leading ++ ("GET".toList ++ [nul]) ++ gap) ++
        (addr ++ (written tail ++ (tail.drop 1 ++ [nul])))
      let version := (leading ++ ("GET".toList ++ [nul]) ++ gap).length + addr.length + 1
      let text ← orUndefined (stringAt mem version)
      require (text.take 5 = "HTTP/".toList)
        ("invalid request line, unsupported version " ++ String.ofList text ++ "\n")
      return ⟨mem, leading.length, (leading ++ ("GET".toList ++ [nul]) ++ gap).length,
        version⟩) := by
  have hn' : nul ∉ gap ++ (addr ++ tail) := fun hc => hn (by simp [hc])
  have hcall := strtokR_some hn hleading (by simp : "GET".toList ≠ []) (by simp)
    (by simp [Tail] : Tail [' '] (' ' :: (gap ++ (addr ++ tail)))) [] []
  have hread := @stringAt_token "GET".toList (by decide) [] leading
    (' ' :: (gap ++ (addr ++ tail))) []
  have hcall' := strtokR_some hn' hgap haddr hspace htail
    (leading ++ ("GET".toList ++ [nul])) []
  have hread' := @stringAt_token addr (fun hc => hn' (by simp [hc]))
    (leading ++ ("GET".toList ++ [nul])) gap tail []
  simp only [List.nil_append, List.length_nil, written, List.drop_succ_cons,
    List.drop_zero] at hcall hread
  have hmem : (leading ++ ("GET".toList ++ [nul])) ++ (gap ++ (addr ++ written tail)) ++
      (tail.drop 1 ++ [nul]) = (leading ++ ("GET".toList ++ [nul]) ++ gap) ++
        (addr ++ (written tail ++ (tail.drop 1 ++ [nul]))) := by
    simp only [List.append_assoc]
  rw [hmem] at hcall' hread'
  rw [cutLine]
  simp only [hcall, orUndefined_some, ok_bind, orRejected_some, hread, require_of, hcall', hread']

/-- How `cutLine` cuts a line with a full address and a version. -/
theorem cutLine_lineText {leading gap addr version : CString}
    (hn : nul ∉ lineText leading gap addr version)
    (hleading : ∀ c ∈ leading, c ∈ [' ']) (hgap : ∀ c ∈ gap, c ∈ [' ']) (haddr : addr ≠ [])
    (hspace : ∀ c ∈ addr, c ∉ [' ']) :
    cutLine (lineText leading gap addr version) =
      (require (version.take 5 = "HTTP/".toList)
        ("invalid request line, unsupported version " ++ String.ofList version ++ "\n") >>=
          fun _ => .ok (cutText leading gap addr version)) := by
  have hnVersion : nul ∉ version := fun hc => hn (by simp [lineText, hc])
  have hmem : (leading ++ ("GET".toList ++ [nul]) ++ gap) ++
      (addr ++ (written (' ' :: version) ++ ((' ' :: version).drop 1 ++ [nul]))) =
      ((leading ++ ("GET".toList ++ [nul]) ++ gap) ++ (addr ++ [nul])) ++
        (version ++ nul :: []) := by
    simp only [written, List.drop_succ_cons, List.drop_zero, List.append_assoc]
  have hlen : (leading ++ ("GET".toList ++ [nul]) ++ gap).length + addr.length + 1 =
      ((leading ++ ("GET".toList ++ [nul]) ++ gap) ++ (addr ++ [nul])).length := by
    simp only [List.length_append, List.length_cons, List.length_nil]
    omega
  have hread := stringAt_append hnVersion
    ((leading ++ ("GET".toList ++ [nul]) ++ gap) ++ (addr ++ [nul])) []
  rw [← hmem, ← hlen] at hread
  have hcut := cutLine_addr hn hleading hgap haddr hspace
    (by simp [Tail] : Tail [' '] (' ' :: version))
  simp only [hread, orUndefined_some, ok_bind] at hcut
  exact hcut

theorem cutLine_withoutVersion {line : CString} (hn : nul ∉ line) (h : WithoutVersion line) :
    cutLine line = .error .undefined := by
  obtain ⟨leading, gap, addr, hline, hleading, hgap, haddr, hspace⟩ := h
  rw [← List.append_nil addr] at hline
  subst hline
  have hlen : (leading ++ ("GET".toList ++ [nul]) ++ gap).length + addr.length + 1 =
      ((leading ++ ("GET".toList ++ [nul]) ++ gap) ++
        (addr ++ (written [] ++ (List.drop 1 [] ++ [nul])))).length := by
    simp only [written, List.drop_nil, List.nil_append, List.length_append, List.length_cons,
      List.length_nil]
    omega
  rw [cutLine_addr hn hleading hgap haddr hspace (by simp [Tail])]
  simp only [hlen, stringAt_length, orUndefined_none, error_bind]

theorem cutLine_cases {line : CString} (hn : nul ∉ line) :
    (∃ leading gap addr version, line = lineText leading gap addr version ∧
      (∀ c ∈ leading, c ∈ [' ']) ∧ (∀ c ∈ gap, c ∈ [' ']) ∧ addr ≠ [] ∧
      (∀ c ∈ addr, c ∉ [' ']) ∧ version.take 5 = "HTTP/".toList) ∨
    WithoutVersion line ∨ IsRejected (cutLine line) := by
  rcases split_token [' '] line with hall | ⟨leading, method, tail, hds, hne, hnot, htail, hline⟩
  · have hcall := strtokR_none hn hall [] []
    simp only [List.nil_append, List.length_nil] at hcall
    refine Or.inr (Or.inr ?_)
    simp only [cutLine, hcall, orUndefined_some, ok_bind, orRejected_none, error_bind]
    exact isRejected_rejected _
  · subst hline
    have hcall := strtokR_some hn hds hne hnot htail [] []
    have hread := @stringAt_token method (fun hc => hn (by simp [hc])) [] leading tail []
    simp only [List.nil_append, List.length_nil] at hcall hread
    have hn' : nul ∉ tail.drop 1 := fun hc => hn (by simp [List.mem_of_mem_drop hc])
    by_cases hget : method = "GET".toList
    · rcases split_token [' '] (tail.drop 1) with
        hall | ⟨gap, addr, tail', hds', hne', hnot', htail', hdrop⟩
      · have hcall' := strtokR_none hn' hall (leading ++ (method ++ written tail)) []
        refine Or.inr (Or.inr ?_)
        simp only [cutLine, hcall, orUndefined_some, ok_bind, orRejected_some, hread,
          require_of hget, hcall', orRejected_none, error_bind]
        exact isRejected_rejected _
      · cases tail with
        | nil => simp [hne'] at hdrop
        | cons c after =>
          have hc : c = ' ' := by simpa using htail c rfl
          subst hc hget
          simp only [List.drop_succ_cons, List.drop_zero] at hdrop
          subst hdrop
          cases tail' with
          | nil =>
            refine Or.inr (Or.inl ⟨leading, gap, addr, ?_, hds, hds', hne', hnot'⟩)
            rw [List.append_nil]
          | cons c' version =>
            have hc' : c' = ' ' := by simpa using htail' c' rfl
            subst hc'
            by_cases hversion : version.take 5 = "HTTP/".toList
            · exact Or.inl ⟨leading, gap, addr, version, rfl, hds, hds', hne', hnot', hversion⟩
            · have hcut := cutLine_lineText hn hds hds' hne' hnot'
              rw [lineText] at hcut
              rw [hcut]
              exact Or.inr (Or.inr ((isRejected_require hversion _).bind _))
    · refine Or.inr (Or.inr ?_)
      simp only [cutLine, hcall, orUndefined_some, ok_bind, orRejected_some, hread]
      exact (isRejected_require hget _).bind _

theorem length_written (tail : CString) :
    (written tail).length + (tail.drop 1).length = tail.length := by
  cases tail with
  | nil => rfl
  | cons c tail => simp [written]; omega

theorem slashPath_eq {t : RequestText} {mem : List Char} {p : ℕ}
    (hread : stringAt mem p = some (t.pathTail.drop 1)) :
    slashPath mem (if t.pathTail.drop 1 = [] then none else some p) =
      (t.pathCheck >>= fun _ => .ok ('/' :: t.pathTail.drop 1)) := by
  unfold RequestText.pathCheck
  split
  · rename_i hnil
    rw [hnil]
    rfl
  · simp only [slashPath, hread, orUndefined_some, ok_bind]
    rfl

theorem checkPort_eq {t : RequestText} {mem : List Char} {p : ℕ} {errnoEinval : Bool}
    (hread : stringAt mem p = some (t.portTail.drop 1)) :
    checkPort mem errnoEinval (if t.portTail.drop 1 = [] then none else some p) =
      (t.portCheck errnoEinval >>= fun _ => .ok (RequestText.token t.portTail)) := by
  unfold RequestText.portCheck RequestText.token
  split
  · rfl
  · simp only [checkPort, hread, orUndefined_some, ok_bind]
    rfl

namespace RequestText

theorem addr_isInfix (t : RequestText) : t.addr <:+: t.text :=
  ⟨t.leading ++ ("GET".toList ++ ' ' :: t.gap), ' ' :: t.version, by simp [text, lineText]⟩

theorem uri_isInfix (t : RequestText) : t.uri <:+: t.text :=
  ⟨t.leading ++ ("GET".toList ++ ' ' :: (t.gap ++ (t.marks ++ (t.protocol ++ [t.mark])))),
    ' ' :: t.version, by simp [text, lineText, addr]⟩

theorem hostText_isInfix (t : RequestText) : t.hostText <:+: t.text :=
  ⟨t.leading ++ ("GET".toList ++ ' ' :: (t.gap ++ (t.marks ++ (t.protocol ++ t.mark ::
    t.slashes)))), t.pathTail ++ ' ' :: t.version, by simp [text, lineText, addr, uri]⟩

def finalMem (t : RequestText) : List Char :=
  t.protocolCut ++ (t.slashes ++ (t.colons ++ (t.host ++ (written t.portTail ++
    (t.portTail.drop 1 ++ (written t.pathTail ++ (t.pathTail.drop 1 ++
      nul :: (t.version ++ [nul]))))))))

theorem Shape.nul_notMem {t : RequestText} (h : t.Shape) {u : CString} (hu : u <:+: t.text) :
    nul ∉ u := fun hc => h.noNul (hu.subset hc)

theorem stringAt_method (t : RequestText) :
    stringAt t.finalMem t.cut.method = some "GET".toList := by
  have hmem : t.finalMem =
      t.leading ++ ("GET".toList ++ nul :: (t.finalMem.drop (t.leading.length + 4))) := by
    simp [finalMem, protocolCut]
  have hread := @stringAt_append "GET".toList (by decide) t.leading
    (t.finalMem.drop (t.leading.length + 4))
  rw [← hmem] at hread
  exact hread

theorem Shape.stringAt_protocol {t : RequestText} (h : t.Shape) :
    stringAt t.finalMem ((t.leading ++ ("GET".toList ++ [nul]) ++ t.gap) ++ t.marks).length =
      some t.protocol := by
  have hmem : t.finalMem = ((t.leading ++ ("GET".toList ++ [nul]) ++ t.gap) ++ t.marks) ++
      (t.protocol ++ nul :: (t.slashes ++ (t.colons ++ (t.host ++ (written t.portTail ++
        (t.portTail.drop 1 ++ (written t.pathTail ++ (t.pathTail.drop 1 ++
          nul :: (t.version ++ [nul]))))))))) := by
    simp [finalMem, protocolCut]
  rw [hmem]
  exact stringAt_append (h.nul_notMem t.protocol_isInfix) _ _

theorem Shape.stringAt_version {t : RequestText} (h : t.Shape) :
    stringAt t.finalMem t.cut.version = some t.version := by
  have hmem : t.finalMem = (t.protocolCut ++ (t.slashes ++ (t.colons ++ (t.host ++
      (written t.portTail ++ (t.portTail.drop 1 ++ (written t.pathTail ++
        (t.pathTail.drop 1 ++ [nul])))))))) ++ (t.version ++ nul :: []) := by
    simp [finalMem]
  have hlen : t.cut.version = (t.protocolCut ++ (t.slashes ++ (t.colons ++ (t.host ++
      (written t.portTail ++ (t.portTail.drop 1 ++ (written t.pathTail ++
        (t.pathTail.drop 1 ++ [nul])))))))).length := by
    have hw := length_written t.portTail
    have hw' := length_written t.pathTail
    have hversion : t.cut.version =
        (t.leading ++ ("GET".toList ++ [nul]) ++ t.gap).length + t.addr.length + 1 := rfl
    rw [hversion]
    simp only [protocolCut, RequestText.addr, uri, RequestText.hostText, List.length_append,
      List.length_cons, List.length_nil]
    omega
  rw [hmem, hlen]
  exact stringAt_append (h.nul_notMem t.version_isInfix) _ _

end RequestText

/-- The checks of `cutAddress` that are left when the address has the parts. -/
theorem cutAddress_cut {t : RequestText} (h : t.Shape) (errnoEinval : Bool) :
    cutAddress t.cut errnoEinval = (do
      let absUri ← orUndefined t.absUri
      require (t.hostText.length ≠ absUri.length) "invalid request line, missing absolute path\n"
      t.pathCheck
      t.portCheck errnoEinval
      return t.fields) := by
  obtain ⟨A, hA⟩ : ∃ A, A = t.leading ++ ("GET".toList ++ [nul]) ++ t.gap := ⟨_, rfl⟩
  obtain ⟨P, hP⟩ : ∃ P, P = A ++ (t.marks ++ (t.protocol ++ [nul])) := ⟨_, rfl⟩
  have hcut : t.cut.mem = A ++ (t.addr ++ nul :: (t.version ++ [nul])) := by rw [hA]; rfl
  have hfull : t.cut.fullAddr = A.length := by rw [hA]; rfl
  have hnPath := h.nul_notMem (RequestText.drop_isInfix t.pathTail_isInfix)
  have hnPort := h.nul_notMem (RequestText.drop_isInfix t.portTail_isInfix)
  have hhostText : t.hostText ≠ [] := by
    intro hnil
    simp only [RequestText.hostText, List.append_eq_nil_iff] at hnil
    exact h.host.1 hnil.2.1
  have hprotocol := strtokR_some (h.nul_notMem t.addr_isInfix) h.marks h.protocol.1 h.protocol.2
    (by simpa [Tail] using h.mark : Tail [':', '/'] (t.mark :: t.uri)) A (t.version ++ [nul])
  have hprotocolText := @stringAt_token t.protocol (h.nul_notMem t.protocol_isInfix) A t.marks
    (t.mark :: t.uri) (t.version ++ [nul])
  simp only [written, List.drop_succ_cons, List.drop_zero, ← hP] at hprotocol hprotocolText
  have habsUri : stringAt (P ++ (t.uri ++ nul :: (t.version ++ [nul])))
      (A.length + t.protocol.length + 3) = t.absUri := by
    rw [hP, hA]
    rfl
  have hhost := strtokR_some (h.nul_notMem t.uri_isInfix) h.slashes hhostText h.hostText h.pathTail
    P (t.version ++ [nul])
  have hhostTextRead := @stringAt_token t.hostText (h.nul_notMem t.hostText_isInfix) P t.slashes
    t.pathTail (t.version ++ [nul])
  have hpathSpace : ∀ c ∈ t.pathTail.drop 1, c ∉ [' '] := by
    intro c hc
    exact h.spaces c (by simp [RequestText.addr, RequestText.uri, List.mem_of_mem_drop hc])
  have hpath := strtokR_rest hnPath hpathSpace
    (P ++ (t.slashes ++ (t.hostText ++ written t.pathTail))) (t.version ++ [nul])
  have hpathText := stringAt_append hnPath
    (P ++ (t.slashes ++ (t.hostText ++ written t.pathTail))) (t.version ++ [nul])
  obtain ⟨after, hafter⟩ := exists_written t.pathTail (t.version ++ [nul])
  have hmem : (P ++ (t.slashes ++ (t.hostText ++ written t.pathTail))) ++
      (t.pathTail.drop 1 ++ nul :: (t.version ++ [nul])) =
      (P ++ t.slashes) ++ (t.hostText ++ nul :: after) := by
    rw [← hafter]
    simp only [List.append_assoc]
  have hhost' := strtokR_some (h.nul_notMem t.hostText_isInfix) h.colons h.host.1 h.host.2
    h.portTail (P ++ t.slashes) after
  have hhostRead := @stringAt_token t.host (h.nul_notMem t.host_isInfix) (P ++ t.slashes) t.colons
    t.portTail after
  have hportSlash : ∀ c ∈ t.portTail.drop 1, c ∉ ['/'] := by
    intro c hc
    exact h.hostText c (by simp [RequestText.hostText, List.mem_of_mem_drop hc])
  have hport := strtokR_rest hnPort hportSlash
    ((P ++ t.slashes) ++ (t.colons ++ (t.host ++ written t.portTail))) after
  have hportText := stringAt_append hnPort
    ((P ++ t.slashes) ++ (t.colons ++ (t.host ++ written t.portTail))) after
  have hfinal : ((P ++ t.slashes) ++ (t.colons ++ (t.host ++ written t.portTail))) ++
      (t.portTail.drop 1 ++ nul :: after) = t.finalMem := by
    rw [← hafter, hP, hA]
    simp [RequestText.finalMem, RequestText.protocolCut]
  rw [hfinal] at hhost' hhostRead hport hportText
  have hprotocolRead := h.stringAt_protocol
  rw [← hA] at hprotocolRead
  rw [cutAddress, hcut, hfull]
  simp only [RequestText.addr, hprotocol, orUndefined_some, ok_bind, orRejected_some,
    hprotocolText, habsUri]
  cases t.absUri with
  | none => rfl
  | some absUri =>
    simp only [orUndefined_some, ok_bind]
    simp only [RequestText.uri, hhost, orUndefined_some, ok_bind, orRejected_some, hhostTextRead]
    cases require (t.hostText.length ≠ absUri.length)
        "invalid request line, missing absolute path\n" with
    | error e => rfl
    | ok _ =>
      simp only [ok_bind, hpath, orUndefined_some, slashPath_eq hpathText]
      cases t.pathCheck with
      | error e => rfl
      | ok _ =>
        simp only [ok_bind, hmem]
        rw [show t.hostText = t.colons ++ (t.host ++ t.portTail) from rfl]
        simp only [hhost', hport, orUndefined_some, ok_bind, orRejected_some,
          checkPort_eq hportText]
        cases t.portCheck errnoEinval with
        | error e => rfl
        | ok _ =>
          simp only [ok_bind, t.stringAt_method, hprotocolRead, hhostRead, h.stringAt_version,
            orUndefined_some]
          rfl

theorem slashPath_cases {mem : List Char} {path : Option ℕ}
    (hread : ∀ p, path = some p → ∃ text, stringAt mem p = some text) :
    (∃ text, slashPath mem path = .ok text) ∨ IsRejected (slashPath mem path) := by
  cases path with
  | none => exact Or.inl ⟨_, rfl⟩
  | some p =>
    obtain ⟨text, htext⟩ := hread p rfl
    simp only [slashPath, htext, orUndefined_some, ok_bind]
    by_cases hslash : text.take 1 ≠ "/".toList
    · rw [require_of hslash, ok_bind]
      exact Or.inl ⟨_, rfl⟩
    · exact Or.inr ((isRejected_require hslash _).bind _)

/-- Before the last NUL of the memory there is a string. -/
theorem exists_stringAt {mem : List Char} {p : ℕ} (h : p ≤ mem.length) :
    ∃ s, stringAt (mem ++ [nul]) p = some s := by
  rw [stringAt, List.drop_append_of_le_length h]
  obtain ⟨u, v, huv, hu⟩ := List.eq_append_cons_of_mem (by simp : nul ∈ mem.drop p ++ [nul])
  exact ⟨u, by rw [huv, cstring_append hu]⟩

/-- The version leaves room for what is skipped behind the protocol. -/
theorem exists_absUri {A marks protocol tail version : CString}
    (hversion : version.take 5 = "HTTP/".toList) :
    ∃ absUri, stringAt ((A ++ (marks ++ (protocol ++ written tail))) ++
      (tail.drop 1 ++ nul :: (version ++ [nul]))) (A.length + protocol.length + 3) =
        some absUri := by
  have hmem : (A ++ (marks ++ (protocol ++ written tail))) ++
      (tail.drop 1 ++ nul :: (version ++ [nul])) =
      ((A ++ (marks ++ (protocol ++ written tail))) ++ (tail.drop 1 ++ nul :: version)) ++
        [nul] := by
    simp
  have hlen : 5 ≤ version.length := by
    have htake := congrArg List.length hversion
    rw [List.length_take] at htake
    have hfive : "HTTP/".toList.length = 5 := rfl
    omega
  rw [hmem]
  apply exists_stringAt
  simp only [List.length_append, List.length_cons]
  omega

/-- An address has the parts, or `cutAddress` rejects it. -/
theorem cutAddress_cases {leading gap addr version : CString}
    (hn : nul ∉ lineText leading gap addr version)
    (hleading : ∀ c ∈ leading, c ∈ [' ']) (hgap : ∀ c ∈ gap, c ∈ [' '])
    (hspace : ∀ c ∈ addr, c ∉ [' ']) (hversion : version.take 5 = "HTTP/".toList)
    (errnoEinval : Bool) :
    (∃ t : RequestText, t.Shape ∧ t.text = lineText leading gap addr version ∧
      t.cut = cutText leading gap addr version ∧ t.version = version) ∨
    IsRejected (cutAddress (cutText leading gap addr version) errnoEinval) := by
  have hnAddr : nul ∉ addr := fun hc => hn (by simp [lineText, hc])
  obtain ⟨A, hA⟩ : ∃ A, A = leading ++ ("GET".toList ++ [nul]) ++ gap := ⟨_, rfl⟩
  have hcut : (cutText leading gap addr version).mem =
      A ++ (addr ++ nul :: (version ++ [nul])) := by rw [hA]; rfl
  have hfull : (cutText leading gap addr version).fullAddr = A.length := by rw [hA]; rfl
  rw [cutAddress, hcut, hfull]
  rcases split_token [':', '/'] addr with
    hall | ⟨marks, protocol, tail, hmarks, hprotocol, hnot, htail, rfl⟩
  · right
    simp only [strtokR_none hnAddr hall, orUndefined_some, ok_bind, orRejected_none, error_bind]
    exact isRejected_rejected _
  · have hread := @stringAt_token protocol (fun hc => hnAddr (by simp [hc])) A marks tail
      (version ++ [nul])
    have hnTail : nul ∉ tail.drop 1 := fun hc => hnAddr (by simp [List.mem_of_mem_drop hc])
    obtain ⟨absUri, habsUri⟩ := @exists_absUri A marks protocol tail version hversion
    simp only [strtokR_some hnAddr hmarks hprotocol hnot htail, orUndefined_some, ok_bind,
      orRejected_some, hread, habsUri]
    rcases split_token ['/'] (tail.drop 1) with
      hall | ⟨slashes, hostText, pathTail, hslashes, hhostText, hnotSlash, hpathTail, huri⟩
    · right
      simp only [strtokR_none hnTail hall, orUndefined_some, ok_bind, orRejected_none,
        error_bind]
      exact isRejected_rejected _
    · obtain ⟨mark, rfl⟩ : ∃ mark, tail = mark :: (slashes ++ (hostText ++ pathTail)) := by
        cases tail with
        | nil => simp [hhostText] at huri
        | cons mark after => exact ⟨mark, by rw [← huri]; rfl⟩
      have hmark : mark ∈ [':', '/'] := htail mark rfl
      rcases split_token [':'] hostText with
        hall | ⟨colons, host, portTail, hcolons, hhost, hnotColon, hportTail, rfl⟩
      · right
        rw [huri] at hnTail ⊢
        obtain ⟨P, hP⟩ : ∃ P, P = A ++ (marks ++ (protocol ++
          written (mark :: (slashes ++ (hostText ++ pathTail))))) := ⟨_, rfl⟩
        have hread' := @stringAt_token hostText (fun hc => hnTail (by simp [hc])) P slashes
          pathTail (version ++ [nul])
        simp only [← hP, strtokR_some hnTail hslashes hhostText hnotSlash hpathTail,
          orUndefined_some, ok_bind, orRejected_some, hread']
        by_cases hlength : hostText.length ≠ absUri.length
        · have hnHost : nul ∉ hostText := fun hc => hnTail (by simp [hc])
          have hnPath : nul ∉ pathTail.drop 1 :=
            fun hc => hnTail (by simp [List.mem_of_mem_drop hc])
          have hpathSpace : ∀ c ∈ pathTail.drop 1, c ∉ [' '] :=
            fun c hc => hspace c (by simp [List.mem_of_mem_drop hc])
          have hpathText := stringAt_append hnPath
            (P ++ (slashes ++ (hostText ++ written pathTail))) (version ++ [nul])
          obtain ⟨after, hafter⟩ := exists_written pathTail (version ++ [nul])
          have hmem : (P ++ (slashes ++ (hostText ++ written pathTail))) ++
              (pathTail.drop 1 ++ nul :: (version ++ [nul])) =
              (P ++ slashes) ++ (hostText ++ nul :: after) := by
            rw [← hafter]
            simp only [List.append_assoc]
          have hhost := strtokR_none hnHost hall (P ++ slashes) after
          have hport := @strtokR_none ['/'] [] List.not_mem_nil (by simp)
            ((P ++ slashes) ++ hostText) after
          rw [List.nil_append, List.append_assoc (P ++ slashes),
            @List.length_append _ (P ++ slashes) hostText, List.length_nil, Nat.add_zero] at hport
          have hpathRead : ∀ p, (if pathTail.drop 1 = [] then none else
              some (P ++ (slashes ++ (hostText ++ written pathTail))).length) = some p →
              ∃ text, stringAt ((P ++ (slashes ++ (hostText ++ written pathTail))) ++
                (pathTail.drop 1 ++ nul :: (version ++ [nul]))) p = some text := by
            intro p hp
            split at hp
            · contradiction
            · cases hp
              exact ⟨_, hpathText⟩
          rw [require_of hlength, ok_bind]
          simp only [strtokR_rest hnPath hpathSpace, orUndefined_some, ok_bind]
          rcases slashPath_cases hpathRead with ⟨text, htext⟩ | hrejected
          · rw [htext, ok_bind, hmem]
            simp only [hhost, hport, orUndefined_some, ok_bind, orRejected_none, error_bind]
            exact isRejected_rejected _
          · exact hrejected.bind _
        · exact (isRejected_require hlength _).bind _
      · left
        exact ⟨⟨leading, gap, marks, protocol, mark, slashes, colons, host, portTail, pathTail,
          version⟩, ⟨hn, hleading, hgap, hspace, hmarks, ⟨hprotocol, hnot⟩, hmark, hslashes,
          hcolons, hnotSlash, ⟨hhost, hnotColon⟩, hportTail, hpathTail⟩, rfl, rfl, rfl⟩

end ParsedRequest

end ProxyServer
