import ProxyServer.RoundTrip

/-!
The target of an accepted request against its fields. The parser skips runs of
the characters of "://" where an absolute URI has exactly that text, and takes
whatever stands behind the first colon of the host for a port. A target whose
delimiters and port are those of an absolute URI is accepted, with its own parts
for fields; of the other targets, those that pass the checks are accepted too.
-/
namespace ProxyServer

open CStrings ParseError

namespace ParsedRequest

/-- The second word of a line. -/
def requestTarget (line : CString) : CString :=
  (((line.dropWhile (· == ' ')).dropWhile (· != ' ')).dropWhile (· == ' ')).takeWhile (· != ' ')

def decimal (digits : CString) : ℕ := digits.foldl (fun n c => n * 10 + (c.toNat - 48)) 0

/-- A decimal number from 1 to 65535. -/
structure IsPort (port : CString) : Prop where
  nonempty : port ≠ []
  digits : ∀ c ∈ port, c.isDigit = true
  range : 1 ≤ decimal port ∧ decimal port ≤ 65535

/-- A non-empty text without ':' and '/'. -/
def IsName (name : CString) : Prop := name ≠ [] ∧ ∀ c ∈ name, c ∉ [':', '/']

def portText : Option CString → CString
  | some port => ':' :: port
  | none => []

/-- `protocol://host[:port]` of the fields, and what follows. -/
def absoluteUri (req : RequestLine) (pathText : CString) : CString :=
  req.protocol ++ ':' :: '/' :: '/' :: (req.host ++ (portText req.port ++ pathText))

/-- The target is the absolute URI of the fields, behind a slash or not; a path
"/" may be missing from it. -/
structure IsTargetOf (target : CString) (req : RequestLine) : Prop where
  text : ∃ slash pathText, (slash = [] ∨ slash = ['/']) ∧
    (pathText = req.path ∨ pathText = [] ∧ req.path = ['/']) ∧
    target = slash ++ absoluteUri req pathText
  protocol : IsName req.protocol
  host : IsName req.host
  port : ∀ port, req.port = some port → IsPort port

/-- The fields of a line 'GET target HTTP/...' with an absolute URI for target. -/
structure IsRequest (req : RequestLine) : Prop where
  method : req.method = "GET".toList
  protocol : IsName req.protocol
  host : IsName req.host
  port : ∀ port, req.port = some port → IsPort port
  path : ∃ rest, req.path = '/' :: rest ∧ rest.head? ≠ some '/'
  spaces : ' ' ∉ absoluteUri req req.path
  version : req.version.take 5 = "HTTP/".toList

def requestText (req : RequestLine) : CString :=
  req.method ++ ' ' :: (absoluteUri req req.path ++ ' ' :: req.version)

/-- The line, a blank line, and whatever follows. -/
def StartsWith (buf : List Char) (line : CString) : Prop :=
  NoCrlf line ∧ ∃ body, buf = line ++ (crlf ++ (crlf ++ body))

/-- A blank line, if there is one, comes right behind the first line. -/
def NoHeaderLines (buf : List Char) : Prop := crlf ++ crlf <:+: buf → ∃ line, StartsWith buf line

/-- What is accepted has the target of its fields, and a request with an
absolute URI for target is accepted with its fields. -/
def TargetExact (buf : List Char) (errnoEinval : Bool) : Prop :=
  (∀ pr, parse create buf errnoEinval = .ok pr → ∃ line req, StartsWith buf line ∧
    pr.requestLine = some req ∧ IsTargetOf (requestTarget line) req) ∧
  ∀ req, IsRequest req → StartsWith buf (requestText req) →
    parse create buf errnoEinval = .ok { create with requestLine := some req }

namespace RequestText

/-- The delimiters are those of an absolute URI, behind a slash or not, and a
port is a decimal number from 1 to 65535. -/
structure Regular (t : RequestText) : Prop where
  marks : t.marks = [] ∨ t.marks = ['/']
  slashes : t.mark :: t.slashes = [':', '/', '/']
  colons : t.colons = []
  port : t.portTail ≠ [] → IsPort (t.portTail.drop 1)

theorem requestTarget_text {t : RequestText} (h : t.Shape) : requestTarget t.text = t.addr := by
  have hspaces : ∀ {ds rest : CString}, (∀ c ∈ ds, c ∈ [' ']) → rest.head? ≠ some ' ' →
      (ds ++ rest).dropWhile (· == ' ') = rest := by
    intro ds rest hds hrest
    rw [List.dropWhile_append_of_pos (by simpa using hds)]
    cases rest with
    | nil => rfl
    | cons c rest => exact List.dropWhile_cons_of_neg (by simpa using hrest)
  obtain ⟨c, rest, haddr⟩ := List.exists_cons_of_ne_nil h.addr_ne_nil
  have hc : c ≠ ' ' := by
    have hmem := h.spaces c (haddr ▸ List.mem_cons_self)
    simpa using hmem
  have hword : ∀ d ∈ t.addr, (d != ' ') = true := by
    intro d hd
    simpa using h.spaces d hd
  have hget : ("GET".toList ++ ' ' :: (t.gap ++ (t.addr ++ ' ' :: t.version))).dropWhile
      (· != ' ') = ' ' :: t.gap ++ (t.addr ++ ' ' :: t.version) := rfl
  have hmethod : ("GET".toList ++ ' ' :: (t.gap ++ (t.addr ++ ' ' :: t.version))).head? ≠
      some ' ' := by
    intro hhead
    exact absurd (Option.some.inj hhead) (by decide)
  rw [requestTarget, text, lineText, hspaces h.leading hmethod, hget, hspaces,
    List.takeWhile_append_of_pos hword, List.takeWhile_cons_of_neg (by simp), List.append_nil]
  · intro d hd
    rcases List.mem_cons.mp hd with rfl | hd
    · exact List.mem_cons_self
    · exact h.gap d hd
  · simpa [haddr] using hc

/-- Text in front of a name that the delimiters before it end at. -/
theorem delimiters_unique {a b x y : CString} {c d : Char} (ha : ∀ e ∈ a, e ∈ [':', '/'])
    (hb : ∀ e ∈ b, e ∈ [':', '/']) (hc : c ∉ [':', '/']) (hd : d ∉ [':', '/'])
    (h : a ++ c :: x = b ++ d :: y) : a = b ∧ c :: x = d :: y := by
  have htake : ∀ {a x : CString} {c : Char}, (∀ e ∈ a, e ∈ [':', '/']) → c ∉ [':', '/'] →
      (a ++ c :: x).takeWhile (fun e => decide (e ∈ [':', '/'])) = a := by
    intro a x c ha hc
    rw [List.takeWhile_append_of_pos (by simpa using ha), List.takeWhile_cons_of_neg
      (by simpa using hc), List.append_nil]
  have hab : a = b := by rw [← htake ha hc, h, htake hb hd]
  subst hab
  exact ⟨rfl, List.append_cancel_left h⟩

theorem Shape.isName_host {t : RequestText} (h : t.Shape) : IsName t.host := by
  refine ⟨h.host.1, ?_⟩
  intro c hc hdelim
  rcases List.mem_cons.mp hdelim with rfl | hslash
  · exact h.host.2 ':' hc List.mem_cons_self
  · exact h.hostText c (by simp [RequestText.hostText, hc]) hslash

/-- The text behind the protocol of a target that is its fields' absolute URI. -/
theorem IsTargetOf.parts {t : RequestText} (h : t.Shape) (htarget : IsTargetOf t.addr t.fields) :
    (t.marks = [] ∨ t.marks = ['/']) ∧ ∃ pathText,
      (pathText = t.fields.path ∨ pathText = [] ∧ t.fields.path = ['/']) ∧
      t.mark :: (t.slashes ++ t.colons) = [':', '/', '/'] ∧
      t.portTail ++ t.pathTail = portText t.fields.port ++ pathText := by
  obtain ⟨slash, pathText, hslash, hpathText, htext⟩ := htarget.text
  have hdelims : ∀ e ∈ slash, e ∈ [':', '/'] := by
    rcases hslash with rfl | rfl <;> simp
  obtain ⟨p, protocol, hp⟩ := List.exists_cons_of_ne_nil h.protocol.1
  obtain ⟨c, host, hc⟩ := List.exists_cons_of_ne_nil h.host.1
  have hpnot : p ∉ [':', '/'] := h.protocol.2 p (hp ▸ List.mem_cons_self)
  have hcnot : c ∉ [':', '/'] := h.isName_host.2 c (hc ▸ List.mem_cons_self)
  have hmiddle : ∀ e ∈ t.mark :: (t.slashes ++ t.colons), e ∈ [':', '/'] := by
    intro e he
    rcases List.mem_cons.mp he with rfl | he
    · exact h.mark
    · rcases List.mem_append.mp he with he | he
      · exact List.mem_cons_of_mem _ (h.slashes e he)
      · rw [List.mem_singleton.mp (h.colons e he)]
        exact List.mem_cons_self
  have haddr : t.marks ++ p :: (protocol ++ t.mark :: (t.slashes ++ (t.colons ++ (t.host ++
      (t.portTail ++ t.pathTail))))) = slash ++ p :: (protocol ++ ':' :: '/' :: '/' :: (t.host ++
        (portText t.fields.port ++ pathText))) := by
    have hleft : t.addr = t.marks ++ p :: (protocol ++ t.mark :: (t.slashes ++ (t.colons ++
        (t.host ++ (t.portTail ++ t.pathTail))))) := by
      simp [addr, uri, hostText, hp]
    rw [← hleft, htext, absoluteUri, show t.fields.protocol = p :: protocol from hp]
    rfl
  obtain ⟨hmarks, hrest⟩ := delimiters_unique h.marks hdelims hpnot hpnot haddr
  have htail := List.append_cancel_left (List.cons.inj hrest).2
  have hbehind : t.mark :: (t.slashes ++ t.colons) ++ c :: (host ++ (t.portTail ++ t.pathTail)) =
      [':', '/', '/'] ++ c :: (host ++ (portText t.fields.port ++ pathText)) := by
    rw [hc] at htail
    simpa using htail
  obtain ⟨hseparator, hhost⟩ := delimiters_unique hmiddle (by simp) hcnot hcnot hbehind
  refine ⟨hmarks ▸ hslash, pathText, hpathText, hseparator, ?_⟩
  exact List.append_cancel_left (List.cons.inj hhost).2

theorem regular_of_isTargetOf {t : RequestText} (h : t.Shape)
    (htarget : IsTargetOf t.addr t.fields) : t.Regular := by
  obtain ⟨hmarks, pathText, hpathText, hseparator, htail⟩ := IsTargetOf.parts h htarget
  obtain ⟨hmark, hslashes⟩ := List.cons.inj hseparator
  have hcolons : t.colons = [] := by
    rw [List.eq_nil_iff_forall_not_mem]
    intro c hc
    have hslash : c ∈ ['/', '/'] := hslashes ▸ List.mem_append_right _ hc
    rw [List.mem_singleton.mp (h.colons c hc)] at hslash
    exact absurd hslash (by decide)
  rw [hcolons, List.append_nil] at hslashes
  refine ⟨hmarks, by rw [hmark, hslashes], hcolons, ?_⟩
  intro hne
  obtain ⟨c, port, hport⟩ := List.exists_cons_of_ne_nil hne
  have hcolon : c = ':' := by
    have hmem := h.portTail c (by rw [hport]; rfl)
    exact List.mem_singleton.mp hmem
  have hdrop : t.portTail.drop 1 = port := by rw [hport]; rfl
  rw [hdrop]
  apply htarget.port
  show token t.portTail = some port
  rw [token, hdrop, if_neg]
  rintro rfl
  have hnone : t.fields.port = none := if_pos hdrop
  rw [hport, hcolon, hnone, portText, List.nil_append] at htail
  rcases hpathText with rfl | ⟨rfl, _⟩
  · exact absurd (List.cons.inj htail).1 (by decide)
  · contradiction

theorem Regular.portText {t : RequestText} (h : t.Shape) (hregular : t.Regular) :
    portText t.fields.port = t.portTail := by
  by_cases hnil : t.portTail = []
  · have hnone : t.fields.port = none := by
      show token t.portTail = none
      rw [token, hnil]
      rfl
    rw [hnone, hnil]
    rfl
  · obtain ⟨c, port, hport⟩ := List.exists_cons_of_ne_nil hnil
    have hcolon : c = ':' := by
      have hmem := h.portTail c (by rw [hport]; rfl)
      exact List.mem_singleton.mp hmem
    have hsome : t.fields.port = some (t.portTail.drop 1) := if_neg (hregular.port hnil).nonempty
    rw [hsome, hport, hcolon]
    rfl

theorem isTargetOf_of_regular {t : RequestText} (h : t.Shape) (hregular : t.Regular) :
    IsTargetOf t.addr t.fields where
  text := by
    refine ⟨t.marks, t.pathTail, hregular.marks, ?_, ?_⟩
    · cases hpath : t.pathTail with
      | nil => exact Or.inr ⟨rfl, by rw [fields, hpath]; rfl⟩
      | cons c rest =>
        have hslash : c = '/' := by
          have hmem := h.pathTail c (by rw [hpath]; rfl)
          exact List.mem_singleton.mp hmem
        exact Or.inl (by rw [fields, hpath, hslash]; rfl)
    · obtain ⟨hmark, hslashes⟩ := List.cons.inj hregular.slashes
      rw [absoluteUri, hregular.portText h, addr, uri, hostText, hmark, hslashes, hregular.colons]
      simp [fields]
  protocol := h.protocol
  host := h.isName_host
  port := by
    intro port hport
    have hne : t.portTail.drop 1 ≠ [] := by
      intro hnil
      have hnone : t.fields.port = none := if_pos hnil
      rw [hnone] at hport
      contradiction
    have hsome : t.fields.port = some (t.portTail.drop 1) := if_neg hne
    obtain rfl := Option.some.inj (hsome.symm.trans hport)
    exact hregular.port (fun hnil => hne (by rw [hnil]; rfl))

theorem isTargetOf_iff_regular {t : RequestText} (h : t.Shape) :
    IsTargetOf t.addr t.fields ↔ t.Regular :=
  ⟨regular_of_isTargetOf h, isTargetOf_of_regular h⟩

end RequestText

theorem foldl_decimal (digits : CString) :
    ∀ n : ℕ, digits.foldl (fun (n : ℤ) c => n * 10 + (c.toNat - 48 : ℕ)) n =
      (digits.foldl (fun n c => n * 10 + (c.toNat - 48)) n : ℕ) := by
  induction digits with
  | nil => exact fun _ => rfl
  | cons c digits ih =>
    intro n
    have hnext : (n : ℤ) * 10 + (c.toNat - 48 : ℕ) = ((n * 10 + (c.toNat - 48) : ℕ) : ℤ) := by
      push_cast
      rfl
    rw [List.foldl_cons, List.foldl_cons, hnext]
    exact ih _

theorem isDigit_ne {c d : Char} (hc : c.isDigit = true) (hd : d.isDigit = false) : c ≠ d := by
  rintro rfl
  rw [hc] at hd
  contradiction

theorem IsPort.strtol {port : CString} (h : IsPort port) :
    strtol port = ((decimal port : ℤ), false) := by
  obtain ⟨c, rest, hport⟩ := List.exists_cons_of_ne_nil h.nonempty
  have hc : c.isDigit = true := h.digits c (hport ▸ List.mem_cons_self)
  have hspace : isSpace c = false := by
    simp only [isSpace, decide_eq_false_iff_not]
    intro hmem
    simp only [List.mem_cons, List.not_mem_nil, or_false] at hmem
    rcases hmem with rfl | rfl | rfl | rfl | rfl | rfl <;> exact absurd hc (by decide)
  have hdrop : port.dropWhile isSpace = port := by
    rw [hport, List.dropWhile_cons_of_neg (by rw [hspace]; simp)]
  have hminus : (port.head? == some '-') = false := by
    rw [hport, List.head?_cons, beq_eq_false_iff_ne, ne_eq, Option.some.injEq]
    exact isDigit_ne hc (by decide)
  have hplus : (port.head? == some '+') = false := by
    rw [hport, List.head?_cons, beq_eq_false_iff_ne, ne_eq, Option.some.injEq]
    exact isDigit_ne hc (by decide)
  have htake : port.takeWhile Char.isDigit = port := List.takeWhile_eq_self_iff.mpr h.digits
  have hfold : port.foldl (fun (n : ℤ) c => n * 10 + (c.toNat - 48 : ℕ)) 0 = decimal port :=
    foldl_decimal port 0
  obtain ⟨_, hlarge⟩ := h.range
  simp only [ParsedRequest.strtol, hdrop, hminus, hplus, Bool.or_self, Bool.false_eq_true,
    if_false, htake, hfold]
  rw [if_neg (by omega), if_neg (by omega)]

theorem IsPort.badPort {port : CString} (h : IsPort port) (errnoEinval : Bool) :
    badPort port errnoEinval = false := by
  obtain ⟨hpos, hlarge⟩ := h.range
  have hint : toInt (decimal port : ℤ) = decimal port :=
    toInt_of_lt (by omega)
  rw [ParsedRequest.badPort, h.strtol]
  simp only [hint]
  have hne : ((decimal port : ℤ) == 0) = false := by
    rw [beq_eq_false_iff_ne]
    omega
  rw [hne]
  rfl

def RequestText.ofRequest (req : RequestLine) : RequestText where
  leading := []
  gap := []
  marks := []
  protocol := req.protocol
  mark := ':'
  slashes := ['/', '/']
  colons := []
  host := req.host
  portTail := portText req.port
  pathTail := req.path
  version := req.version

namespace IsRequest

open RequestText

variable {req : RequestLine}

theorem text (h : IsRequest req) : (ofRequest req).text = requestText req := by
  rw [requestText, h.method]
  simp [RequestText.text, lineText, addr, uri, hostText, ofRequest, absoluteUri]

theorem portTail (h : IsRequest req) : Tail [':'] (portText req.port) ∧
    token (portText req.port) = req.port := by
  cases hport : req.port with
  | none => exact ⟨by simp [Tail, portText], rfl⟩
  | some port =>
    have hne := (h.port port hport).nonempty
    refine ⟨by simp [Tail, portText], ?_⟩
    show (if port = [] then none else some port) = some port
    rw [if_neg hne]

theorem fields (h : IsRequest req) : (ofRequest req).fields = req := by
  obtain ⟨rest, hpath, _⟩ := h.path
  have hslash : '/' :: req.path.drop 1 = req.path := by
    rw [hpath]
    rfl
  rw [RequestText.fields, show (ofRequest req).portTail = portText req.port from rfl, h.portTail.2,
    show '/' :: (ofRequest req).pathTail.drop 1 = req.path from hslash, ← h.method]
  rfl

theorem shape (h : IsRequest req) (hn : nul ∉ requestText req) : (ofRequest req).Shape where
  noNul := by rwa [h.text]
  leading := by simp [ofRequest]
  gap := by simp [ofRequest]
  spaces := by
    have haddr : (ofRequest req).addr = absoluteUri req req.path := by
      simp [addr, uri, hostText, ofRequest, absoluteUri]
    rw [haddr]
    intro c hc hspace
    exact h.spaces (List.mem_singleton.mp hspace ▸ hc)
  marks := by simp [ofRequest]
  protocol := h.protocol
  mark := List.mem_cons_self
  slashes := by simp [ofRequest]
  colons := by simp [ofRequest]
  hostText := by
    intro c hc hslash
    obtain rfl := List.mem_singleton.mp hslash
    rcases List.mem_append.mp (hc : '/' ∈ [] ++ (req.host ++ portText req.port)) with hc | hc
    · contradiction
    · rcases List.mem_append.mp hc with hc | (hc : '/' ∈ portText req.port)
      · exact h.host.2 '/' hc (by simp)
      · cases hport : req.port with
        | none =>
          rw [hport] at hc
          contradiction
        | some port =>
          rw [hport] at hc
          rcases List.mem_cons.mp hc with heq | hc
          · exact absurd heq (by decide)
          · exact absurd ((h.port port hport).digits '/' hc) (by decide)
  host := ⟨h.host.1, fun c hc hcolon => h.host.2 c hc (List.mem_cons.mpr
    (Or.inl (List.mem_singleton.mp hcolon)))⟩
  portTail := h.portTail.1
  pathTail := by
    obtain ⟨rest, hpath, _⟩ := h.path
    show Tail ['/'] req.path
    simp [hpath, Tail]

theorem accepted (h : IsRequest req) (hn : nul ∉ requestText req) (errnoEinval : Bool) :
    (ofRequest req).Accepted errnoEinval where
  shape := h.shape hn
  version := h.version
  absolutePath := by
    have hcanonical : (ofRequest req).canonical = ofRequest req := by
      obtain ⟨rest, hpath, _⟩ := h.path
      have hport : (if (portText req.port).drop 1 = [] then []
          else ':' :: (portText req.port).drop 1) = portText req.port := by
        cases hport : req.port with
        | none => rfl
        | some port => exact if_neg (h.port port hport).nonempty
      show RequestText.mk [] [] [] req.protocol ':' "//".toList [] req.host
        (if (portText req.port).drop 1 = [] then [] else ':' :: (portText req.port).drop 1)
        ('/' :: req.path.drop 1) req.version = ofRequest req
      rw [hport, ofRequest, hpath]
      rfl
    have habsUri := canonical_absUri (h.shape hn)
    rw [hcanonical] at habsUri
    refine ⟨_, habsUri, ?_⟩
    obtain ⟨rest, hpath, _⟩ := h.path
    have hpathTail : (ofRequest req).pathTail = '/' :: rest := hpath
    simp [hpathTail]
  path := by
    obtain ⟨rest, hpath, hrest⟩ := h.path
    have hpathTail : (ofRequest req).pathTail = '/' :: rest := hpath
    intro hne htake
    rw [hpathTail, List.drop_succ_cons, List.drop_zero] at hne htake
    obtain ⟨c, rest, rfl⟩ := List.exists_cons_of_ne_nil hne
    have hc : c = '/' := (List.cons.inj htake).1
    exact hrest (by rw [hc]; rfl)
  port := by
    intro hne
    cases hport : req.port with
    | none =>
      have hnil : (ofRequest req).portTail = [] := by
        show portText req.port = []
        rw [hport]
        rfl
      rw [hnil] at hne
      contradiction
    | some port =>
      have htail : (ofRequest req).portTail.drop 1 = port := by
        show (portText req.port).drop 1 = port
        rw [hport]
        rfl
      rw [htail]
      exact (h.port port hport).badPort errnoEinval

end IsRequest

section Buffers

variable {buf : List Char}

/-- The parse of a buffer that has a blank line behind the request line. -/
theorem parse_startsWith {line : CString} (h : StartsWith buf line) (hn : nul ∉ buf)
    (hlen : buf.length ≤ 65535) (errnoEinval : Bool) :
    parse create buf errnoEinval =
      (parseRequestLine line errnoEinval >>= fun req =>
        .ok { create with requestLine := some req }) := by
  obtain ⟨hcrlf, body, rfl⟩ := h
  have hn' : nul ∉ line ++ (crlf ++ block []) := by
    intro hc
    apply hn
    simp only [block_nil, List.mem_append] at hc ⊢
    tauto
  refine (parse_block hcrlf hn' body hlen errnoEinval).trans ?_
  simp only [parseHeaders_blank]

theorem StartsWith.unique {line line' : CString} (h : StartsWith buf line)
    (h' : StartsWith buf line') : line = line' := by
  obtain ⟨hcrlf, body, hbuf⟩ := h
  obtain ⟨hcrlf', body', hbuf'⟩ := h'
  exact (first_crlf_unique hcrlf hcrlf' (hbuf.symm.trans hbuf')).1

/-- For a request without header lines: what is accepted has the target of its
fields, and absolute URIs are accepted, exactly when no target that passes the
checks has other delimiters or another port than an absolute URI. -/
theorem target_exact_iff (hn : nul ∉ buf) (hmax : buf.length ≤ 65535)
    (hheaders : NoHeaderLines buf) (errnoEinval : Bool) :
    TargetExact buf errnoEinval ↔ ∀ t : RequestText, t.Accepted errnoEinval →
      StartsWith buf t.text → t.Regular := by
  constructor
  · rintro ⟨hsound, _⟩ t haccepted hstarts
    have hparse := parse_startsWith hstarts hn hmax errnoEinval
    rw [parseRequestLine_text haccepted, ok_bind] at hparse
    obtain ⟨line, req, hline, hreq, htarget⟩ := hsound _ hparse
    cases hreq
    rw [hline.unique hstarts, RequestText.requestTarget_text haccepted.shape] at htarget
    exact RequestText.regular_of_isTargetOf haccepted.shape htarget
  · intro hregular
    constructor
    · intro pr hparse
      obtain ⟨line, hline⟩ := hheaders (blank_of_parse hparse)
      rw [parse_startsWith hline hn hmax] at hparse
      obtain ⟨req, hreq, hpr⟩ := bind_ok hparse
      cases hpr
      have hnLine : nul ∉ line := by
        obtain ⟨_, body, rfl⟩ := hline
        exact fun hc => hn (List.mem_append_left _ hc)
      obtain ⟨t, haccepted, rfl, rfl⟩ := parseRequestLine_ok hnLine hreq
      refine ⟨t.text, t.fields, hline, rfl, ?_⟩
      rw [RequestText.requestTarget_text haccepted.shape]
      exact RequestText.isTargetOf_of_regular haccepted.shape (hregular t haccepted hline)
    · intro req hreq hstarts
      have hnText : nul ∉ requestText req := by
        obtain ⟨_, body, rfl⟩ := hstarts
        exact fun hc => hn (List.mem_append_left _ hc)
      have hline := parseRequestLine_text (hreq.accepted hnText errnoEinval)
      rw [hreq.text, hreq.fields] at hline
      rw [parse_startsWith hstarts hn hmax, hline, ok_bind]

theorem target_exact_iff_slash :
    TargetExact "GET /http://h:81/p HTTP/1.0\r\n\r\n".toList true ↔
      ∀ t : RequestText, t.Accepted true →
        StartsWith "GET /http://h:81/p HTTP/1.0\r\n\r\n".toList t.text → t.Regular :=
  target_exact_iff (by decide) (by decide)
    (fun _ => ⟨"GET /http://h:81/p HTTP/1.0".toList, by decide, [], by decide⟩) true

/-- The port of `http://h:x/` is accepted. -/
theorem accepts_port_without_digits : ¬ ∀ (buf : List Char) (errnoEinval : Bool), nul ∉ buf →
    4 ≤ buf.length → buf.length ≤ 65535 → NoHeaderLines buf → TargetExact buf errnoEinval := by
  intro hall
  obtain ⟨hsound, _⟩ := hall "GET http://h:x/ HTTP/1.0\r\n\r\n".toList false (by decide)
    (by decide) (by decide)
    (fun _ => ⟨"GET http://h:x/ HTTP/1.0".toList, by decide, [], by decide⟩)
  have hparse : parse create "GET http://h:x/ HTTP/1.0\r\n\r\n".toList false =
      .ok ⟨some ⟨"GET".toList, "http".toList, "h".toList, some "x".toList, "/".toList,
        "HTTP/1.0".toList⟩, [], 8⟩ := by decide
  obtain ⟨line, req, _, hreq, htarget⟩ := hsound _ hparse
  cases hreq
  exact absurd ((htarget.port "x".toList rfl).digits 'x' (by decide)) (by decide)

end Buffers

end ParsedRequest

end ProxyServer
