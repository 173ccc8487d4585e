import ProxyServer.ParsedRequest

/-!
`ParsedRequest_parse`. The request line is copied into a memory of its own and
cut there by `strtok_r`, which writes NULs over the delimiters, so `version` and
`rem` are computed by pointer arithmetic and may miss the text they are meant to
point to. Header lines are read from the buffer itself. A parse ends with the
parsed object, a rejection with the text that `debug` prints, or in undefined
behaviour.
-/
namespace ProxyServer

open CStrings

inductive ParseError
  | undefined
  | rejected (debug : String)
  deriving DecidableEq, Repr

namespace ParseError

def orUndefined {α : Type} : Option α → Except ParseError α
  | some a => .ok a
  | none => .error .undefined

def orRejected {α : Type} (debug : String) : Option α → Except ParseError α
  | some a => .ok a
  | none => .error (.rejected debug)

def require (p : Prop) [Decidable p] (debug : String) : Except ParseError Unit :=
  if p then .ok () else .error (.rejected debug)

variable {α β : Type}

@[simp] theorem ok_bind (a : α) (f : α → Except ParseError β) : (Except.ok a >>= f) = f a := rfl

@[simp] theorem error_bind (e : ParseError) (f : α → Except ParseError β) :
    (Except.error e >>= f) = .error e := rfl

@[simp] theorem orUndefined_some (a : α) : orUndefined (some a) = .ok a := rfl

@[simp] theorem orUndefined_none : orUndefined (none : Option α) = .error .undefined := rfl

@[simp] theorem orRejected_some (debug : String) (a : α) : orRejected debug (some a) = .ok a := rfl

@[simp] theorem orRejected_none (debug : String) :
    orRejected debug (none : Option α) = .error (.rejected debug) := rfl

theorem bind_ok {ε : Type} {x : Except ε α} {f : α → Except ε β} {b : β}
    (h : (x >>= f) = .ok b) : ∃ a, x = .ok a ∧ f a = .ok b := by
  cases x with
  | error e => exact absurd h (by simp [bind, Except.bind])
  | ok a => exact ⟨a, rfl, h⟩

theorem orUndefined_ok {o : Option α} {a : α} (h : orUndefined o = .ok a) : o = some a := by
  cases o with
  | none => simp [orUndefined] at h
  | some b =>
    simp only [orUndefined, Except.ok.injEq] at h
    rw [h]

theorem orRejected_ok {o : Option α} {a : α} {debug : String} (h : orRejected debug o = .ok a) :
    o = some a := by
  cases o with
  | none => simp [orRejected] at h
  | some b =>
    simp only [orRejected, Except.ok.injEq] at h
    rw [h]

theorem require_ok {p : Prop} [Decidable p] {debug : String} {u : Unit}
    (h : require p debug = .ok u) : p := by
  unfold require at h
  split at h
  · assumption
  · contradiction

theorem require_of {p : Prop} [Decidable p] (h : p) (debug : String) :
    require p debug = .ok () := if_pos h

/-- Rejected, with whatever message. -/
def IsRejected (x : Except ParseError α) : Prop := ∃ debug, x = .error (.rejected debug)

theorem isRejected_rejected (debug : String) :
    IsRejected (.error (.rejected debug) : Except ParseError α) := ⟨debug, rfl⟩

theorem IsRejected.bind {x : Except ParseError α} (h : IsRejected x)
    (f : α → Except ParseError β) : IsRejected (x >>= f) := by
  obtain ⟨debug, rfl⟩ := h
  exact isRejected_rejected debug

theorem isRejected_require {p : Prop} [Decidable p] (h : ¬ p) (debug : String) :
    IsRejected (require p debug) := ⟨debug, if_neg h⟩

end ParseError

open ParseError

namespace ParsedHeader

/-- `ParsedHeader_parse`, with the memory from the line on. -/
def parse (pr : ParsedRequest) (line : List Char) : Except ParseError ParsedRequest := do
  let index1 ← orUndefined (index ':' line)
  let index1 ← orRejected "No colon found\n" index1
  let key := line.take (line.length - index1.length)
  -- `index1 += 2`, and a null `index2` would be subtracted from
  let index1 := index1.drop 2
  let index2 ← orUndefined (strstr crlf index1)
  let index2 ← orUndefined index2
  return set pr key (index1.take (index1.length - index2.length))

end ParsedHeader

namespace ParsedRequest

/-- White space as `isspace` knows it. -/
def isSpace (c : Char) : Bool := c ∈ [' ', '\t', '\n', '\x0b', '\x0c', '\r']

/-- `strtol` to base 10 on a 64-bit `long`, and whether it sets ERANGE. -/
def strtol (s : CString) : ℤ × Bool :=
  let s := s.dropWhile isSpace
  let negative := s.head? == some '-'
  let s := if s.head? == some '-' || s.head? == some '+' then s.tail else s
  let n : ℤ := (s.takeWhile Char.isDigit).foldl (fun n c => n * 10 + (c.toNat - 48 : ℕ)) 0
  let n := if negative then -n else n
  if n < -2 ^ 63 then (-2 ^ 63, true)
  else if 2 ^ 63 ≤ n then (2 ^ 63 - 1, true) else (n, false)

/-- `port == 0 && errno == EINVAL`; the call itself sets no EINVAL. -/
def badPort (port : CString) (errnoEinval : Bool) : Bool :=
  toInt (strtol port).1 == 0 && errnoEinval && !(strtol port).2

/-- The copy of the request line with the tokens cut so far. -/
structure Cut where
  mem : List Char
  method : ℕ
  fullAddr : ℕ
  version : ℕ

/-- Method, full address and version. -/
def cutLine (line : CString) : Except ParseError Cut := do
  let (mem, method, saveptr) ← orUndefined (strtokR (line ++ [nul]) 0 [' '])
  let method ← orRejected "invalid request line, no whitespace\n" method
  let text ← orUndefined (stringAt mem method)
  require (text = "GET".toList)
    ("invalid request line, method not 'GET': " ++ String.ofList text ++ "\n")
  let (mem, fullAddr, _) ← orUndefined (strtokR mem saveptr [' '])
  let fullAddr ← orRejected "invalid request line, no full address\n" fullAddr
  let addr ← orUndefined (stringAt mem fullAddr)
  let version := fullAddr + addr.length + 1
  let text ← orUndefined (stringAt mem version)
  require (text.take 5 = "HTTP/".toList)
    ("invalid request line, unsupported version " ++ String.ofList text ++ "\n")
  return ⟨mem, method, fullAddr, version⟩

/-- An empty path is replaced, any other is copied behind a slash. -/
def slashPath (mem : List Char) : Option ℕ → Except ParseError CString
  | none => .ok "/".toList
  | some path => do
      let text ← orUndefined (stringAt mem path)
      require (text.take 1 ≠ "/".toList)
        "invalid request line, path cannot begin with two slash characters\n"
      return "/".toList ++ text

def checkPort (mem : List Char) (errnoEinval : Bool) :
    Option ℕ → Except ParseError (Option CString)
  | none => .ok none
  | some port => do
      let text ← orUndefined (stringAt mem port)
      require (badPort text errnoEinval = false)
        ("invalid request line, bad port: " ++ String.ofList text ++ "\n")
      return some text

/-- Protocol, host, port and path out of the full address, and the fields. -/
def cutAddress (cut : Cut) (errnoEinval : Bool) : Except ParseError RequestLine := do
  let (mem, protocol, saveptr) ← orUndefined (strtokR cut.mem cut.fullAddr [':', '/'])
  let protocol ← orRejected "invalid request line, missing host\n" protocol
  let text ← orUndefined (stringAt mem protocol)
  let rem := cut.fullAddr + text.length + 3
  let absUri ← orUndefined (stringAt mem rem)
  let (mem, host, saveptr) ← orUndefined (strtokR mem saveptr ['/'])
  let host ← orRejected "invalid request line, missing host\n" host
  let text ← orUndefined (stringAt mem host)
  require (text.length ≠ absUri.length) "invalid request line, missing absolute path\n"
  let (mem, path, _) ← orUndefined (strtokR mem saveptr [' '])
  let path ← slashPath mem path
  let (mem, host, saveptr) ← orUndefined (strtokR mem host [':'])
  let (mem, port, _) ← orUndefined (strtokR mem saveptr ['/'])
  let host ← orRejected "invalid request line, missing host\n" host
  let port ← checkPort mem errnoEinval port
  return {
    method := ← orUndefined (stringAt mem cut.method)
    protocol := ← orUndefined (stringAt mem protocol)
    host := ← orUndefined (stringAt mem host)
    port := port
    path := path
    version := ← orUndefined (stringAt mem cut.version) }

def parseRequestLine (line : CString) (errnoEinval : Bool) : Except ParseError RequestLine := do
  cutAddress (← cutLine line) errnoEinval

/-- The loop over the header lines. Every turn moves `currentHeader` on, so as
much fuel as there is memory is enough. -/
def parseHeaders : ℕ → ParsedRequest → List Char → Except ParseError ParsedRequest
  | 0, _, _ => .error .undefined
  | fuel + 1, pr, currentHeader =>
      if currentHeader = [] then .error .undefined
      else if currentHeader.head? = some nul then .ok pr
      else if crlf.isPrefixOf currentHeader then .ok pr
      else do
        let pr ← ParsedHeader.parse pr currentHeader
        match ← orUndefined (strstr crlf currentHeader) with
        | none => return pr
        | some currentHeader => do
            let text ← orUndefined (cstring currentHeader)
            if text.length < 2 then return pr
            else parseHeaders fuel pr (currentHeader.drop 2)

def parse (pr : ParsedRequest) (buf : List Char) (errnoEinval : Bool) :
    Except ParseError ParsedRequest := do
  require (pr.requestLine = none) "parse object already assigned to a request\n"
  require (4 ≤ buf.length ∧ buf.length ≤ 65535) ("invalid buflen " ++ toString buf.length)
  let tmpBuf := buf ++ [nul]
  let end? ← orUndefined (strstr (crlf ++ crlf) tmpBuf)
  let _ ← orRejected "invalid request line, no end of header\n" end?
  let lineEnd ← orUndefined (strstr crlf tmpBuf)
  let lineEnd ← orUndefined lineEnd
  let line ← parseRequestLine (tmpBuf.take (tmpBuf.length - lineEnd.length)) errnoEinval
  parseHeaders tmpBuf.length { pr with requestLine := some line } (lineEnd.drop 2)

end ParsedRequest

end ProxyServer
