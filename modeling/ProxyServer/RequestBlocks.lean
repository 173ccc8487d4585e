import ProxyServer.Allocation
import ProxyServer.HeaderTable
import ProxyServer.ProxyParse

/-!
The parser on the heap. Each string of a parsed request, its table and the
object itself are blocks of their own; `ParsedHeader_set` copies key and value,
`ParsedHeader_remove` gives both back and nulls the key, and `ParsedRequest_parse`
has to give back what it has taken so far wherever it stops. Without the pointers
the functions here are those of the parser.
-/
namespace ProxyServer

open CStrings Allocation Prog ParseError

/-- What a block or a descriptor was taken for. -/
inductive Site
  | request
  | buf
  | path
  | headers
  | key
  | value
  | tmpBuf
  | lineKey
  | lineValue
  | element
  | elementUrl
  | elementData
  | requestMessage
  | headersBuf
  | serverReq
  | addrinfo
  | clientSocket
  | serverSocket
  | buffer
  | tempReq
  | upstreamBuf
  | tempBuffer
  | remoteSocket
  deriving DecidableEq, Repr

/-- A slot of the table; of a removed header only the dangling value is left. -/
structure HeapHeader (ι : Type) where
  key : Option (ι × CString)
  value : ι × CString

/-- A `struct ParsedRequest` with its pointers. -/
structure HeapRequest (ι : Type) where
  self : ι
  buf : Option ι
  path : Option ι
  table : ι
  requestLine : Option RequestLine
  headers : List (HeapHeader ι)
  headerslen : ℕ

variable {ι : Type}

namespace HeapHeader

def erase (ph : HeapHeader ι) : ParsedHeader := ⟨ph.key.map Prod.snd, ph.value.2⟩

/-- What the slot owns. -/
def blocks (ph : HeapHeader ι) : List (Site × ι) :=
  match ph.key with
  | none => []
  | some key => [(.key, key.1), (.value, ph.value.1)]

def destroyOne [DecidableEq ι] (ph : HeapHeader ι) : Prog Site ι Unit :=
  match ph.key with
  | none => pure ()
  | some key => do
      free key.1
      free ph.value.1

end HeapHeader

namespace HeapRequest

/-- The parsed request without its pointers. -/
def erase (pr : HeapRequest ι) : ParsedRequest :=
  ⟨pr.requestLine, pr.headers.map HeapHeader.erase, pr.headerslen⟩

/-- What the object owns besides its headers. -/
def shell (pr : HeapRequest ι) : List (Site × ι) :=
  (.headers, pr.table) :: (pr.buf.toList.map (fun p => (.buf, p)) ++
    (pr.path.toList.map (fun p => (.path, p)) ++ [(.request, pr.self)]))

/-- What the object owns. -/
def blocks (pr : HeapRequest ι) : List (Site × ι) :=
  pr.shell ++ pr.headers.flatMap HeapHeader.blocks

section Functions
variable [DecidableEq ι]

def create : Prog Site ι (HeapRequest ι) := do
  let self ← alloc .request
  let table ← alloc .headers
  return ⟨self, none, none, table, none, [], 8⟩

def remove (pr : HeapRequest ι) (key : CString) : Prog Site ι (HeapRequest ι × ℤ) :=
  match ParsedHeader.get pr.erase key with
  | none => pure (pr, -1)
  | some i =>
      match pr.headers[i]? with
      | some ⟨some key, value⟩ => do
          free key.1
          free value.1
          let headers := pr.headers.modify i (fun tmp => { tmp with key := none })
          return ({ pr with headers := headers }, 0)
      | _ => undefined

/-- Room in the table for one slot more, at twice the size. -/
def grow (pr : HeapRequest ι) : Prog Site ι (HeapRequest ι) :=
  if pr.headerslen ≤ pr.headers.length + 1 then do
    let table ← realloc .headers pr.table
    return { pr with headerslen := pr.headerslen * 2, table := table }
  else pure pr

def set (pr : HeapRequest ι) (key value : CString) : Prog Site ι (HeapRequest ι) := do
  let removed ← remove pr key
  let pr ← grow removed.1
  let keyPtr ← alloc .key
  let valuePtr ← alloc .value
  return { pr with headers := pr.headers ++ [⟨some (keyPtr, key), (valuePtr, value)⟩] }

/-- `ParsedHeader_parse`, with the text that `debug` prints. -/
def parseHeader (pr : HeapRequest ι) (line : List Char) :
    Prog Site ι (HeapRequest ι × Option String) :=
  match index ':' line with
  | none => undefined
  | some none => pure (pr, some "No colon found\n")
  | some (some index1) => do
      let key ← alloc .lineKey
      match strstr crlf (index1.drop 2) with
      | some (some index2) => do
          let value ← alloc .lineValue
          let pr ← set pr (line.take (line.length - index1.length))
            ((index1.drop 2).take ((index1.drop 2).length - index2.length))
          free key
          free value
          return (pr, none)
      | _ => undefined

def parseHeaders : ℕ → HeapRequest ι → List Char → Prog Site ι (HeapRequest ι × Option String)
  | 0, _, _ => undefined
  | fuel + 1, pr, currentHeader =>
      if currentHeader = [] then undefined
      else if currentHeader.head? = some nul then pure (pr, none)
      else if crlf.isPrefixOf currentHeader then pure (pr, none)
      else do
        let (pr, ret) ← parseHeader pr currentHeader
        match ret with
        | some debug => pure (pr, some debug)
        | none =>
            match strstr crlf currentHeader with
            | none => undefined
            | some none => pure (pr, none)
            | some (some currentHeader) =>
                match cstring currentHeader with
                | none => undefined
                | some text =>
                    if text.length < 2 then pure (pr, none)
                    else parseHeaders fuel pr (currentHeader.drop 2)

/-- Where the cutting stands when the path is copied. -/
structure Target where
  mem : List Char
  protocol : ℕ
  host : ℕ
  saveptr : ℕ
  path : CString

/-- `cutAddress` up to the path. -/
def cutTarget (cut : ParsedRequest.Cut) : Except ParseError Target := do
  let (mem, protocol, saveptr) ← orUndefined (strtokR cut.mem cut.fullAddr [':', '/'])
  let protocol ← orRejected "invalid request line, missing host\n" protocol
  let text ← orUndefined (stringAt mem protocol)
  let rem := cut.fullAddr + text.length + 3
  let absUri ← orUndefined (stringAt mem rem)
  let (mem, host, saveptr) ← orUndefined (strtokR mem saveptr ['/'])
  let host ← orRejected "invalid request line, missing host\n" host
  let text ← orUndefined (stringAt mem host)
  require (text.length ≠ absUri.length) "invalid request line, missing absolute path\n"
  let (mem, path, _) ← orUndefined (strtokR mem saveptr [' '])
  let path ← ParsedRequest.slashPath mem path
  return ⟨mem, protocol, host, saveptr, path⟩

/-- `cutAddress` from the path on. -/
def cutPort (cut : ParsedRequest.Cut) (errnoEinval : Bool) (target : Target) :
    Except ParseError RequestLine := do
  let (mem, host, saveptr) ← orUndefined (strtokR target.mem target.host [':'])
  let (mem, port, _) ← orUndefined (strtokR mem saveptr ['/'])
  let host ← orRejected "invalid request line, missing host\n" host
  let port ← ParsedRequest.checkPort mem errnoEinval port
  return {
    method := ← orUndefined (stringAt mem cut.method)
    protocol := ← orUndefined (stringAt mem target.protocol)
    host := ← orUndefined (stringAt mem host)
    port := port
    path := target.path
    version := ← orUndefined (stringAt mem cut.version) }

theorem cutTarget_cutPort (cut : ParsedRequest.Cut) (errnoEinval : Bool) :
    (cutTarget cut >>= cutPort cut errnoEinval) = ParsedRequest.cutAddress cut errnoEinval := by
  simp [cutTarget, cutPort, ParsedRequest.cutAddress, bind_assoc]

/-- What is cut before the path is copied. -/
def cutBefore (line : CString) : Except ParseError (ParsedRequest.Cut × Target) := do
  let cut ← ParsedRequest.cutLine line
  return (cut, ← cutTarget cut)

theorem cutBefore_cutPort (line : CString) (errnoEinval : Bool) :
    (cutBefore line >>= fun cut => cutPort cut.1 errnoEinval cut.2) =
      ParsedRequest.parseRequestLine line errnoEinval := by
  simp [cutBefore, ParsedRequest.parseRequestLine, ← cutTarget_cutPort, bind_assoc]

/-- The object with the copy of its request line and its path. -/
def assign (pr : HeapRequest ι) (buf path : ι) (line : RequestLine) : HeapRequest ι :=
  { pr with buf := some buf, path := some path, requestLine := some line }

/-- The rest of `ParsedRequest_parse` once the path is known. -/
def parseFromPath (pr : HeapRequest ι) (tmpBuf buf : ι) (line : Except ParseError RequestLine)
    (fuel : ℕ) (currentHeader : List Char) : Prog Site ι (HeapRequest ι × Option String) := do
  let path ← alloc .path
  match line with
  | .error .undefined => undefined
  | .error (.rejected debug) => do
      free tmpBuf
      free buf
      free path
      return ({ pr with buf := none, path := none }, some debug)
  | .ok line => do
      let r ← parseHeaders fuel (pr.assign buf path line) currentHeader
      free tmpBuf
      return r

/-- `ParsedRequest_parse`, with the text that `debug` prints. A rejection before
the header lines leaves `buf` and `path` null. -/
def parse (pr : HeapRequest ι) (text : List Char) (errnoEinval : Bool) :
    Prog Site ι (HeapRequest ι × Option String) :=
  if pr.buf.isSome then pure (pr, some "parse object already assigned to a request\n")
  else if ¬ (4 ≤ text.length ∧ text.length ≤ 65535) then
    pure (pr, some ("invalid buflen " ++ toString text.length))
  else do
    let tmpBuf ← alloc .tmpBuf
    match strstr (crlf ++ crlf) (text ++ [nul]), strstr crlf (text ++ [nul]) with
    | some none, _ => do
        free tmpBuf
        return (pr, some "invalid request line, no end of header\n")
    | some (some _), some (some lineEnd) => do
        let buf ← alloc .buf
        match cutBefore ((text ++ [nul]).take ((text ++ [nul]).length - lineEnd.length)) with
        | .error .undefined => undefined
        | .error (.rejected debug) => do
            free tmpBuf
            free buf
            return ({ pr with buf := none, path := none }, some debug)
        | .ok (cut, target) =>
            parseFromPath pr tmpBuf buf (cutPort cut errnoEinval target) (text.length + 1)
              (lineEnd.drop 2)
    | _, _ => undefined

def destroyHeaders (pr : HeapRequest ι) : Prog Site ι Unit := do
  forEach HeapHeader.destroyOne pr.headers
  free pr.table

def destroy (pr : HeapRequest ι) : Prog Site ι Unit := do
  freeNullable pr.buf
  freeNullable pr.path
  (if 0 < pr.headerslen then destroyHeaders pr else pure ())
  free pr.self

end Functions

theorem flatMap_blocks_perm {headers : List (HeapHeader ι)} {i : ℕ} {key value : ι × CString}
    (h : headers[i]? = some ⟨some key, value⟩) :
    (headers.flatMap HeapHeader.blocks).Perm ([(Site.key, key.1), (Site.value, value.1)] ++
      (headers.modify i (fun tmp => { tmp with key := none })).flatMap HeapHeader.blocks) := by
  induction headers generalizing i with
  | nil => simp at h
  | cons ph headers ih =>
    cases i with
    | zero =>
      rw [List.getElem?_cons_zero, Option.some.injEq] at h
      rw [h]
      exact List.Perm.refl _
    | succ i =>
      rw [List.getElem?_cons_succ] at h
      rw [List.modify_succ_cons, List.flatMap_cons, List.flatMap_cons]
      exact ((ih h).append_left _).trans (List.perm_append_comm_assoc _ _ _)

theorem erase_modify (headers : List (HeapHeader ι)) (i : ℕ) :
    (headers.modify i (fun tmp => { tmp with key := none })).map HeapHeader.erase =
      ParsedHeader.removeAt (headers.map HeapHeader.erase) i := by
  induction headers generalizing i with
  | nil => simp [ParsedHeader.removeAt]
  | cons ph headers ih =>
    cases i with
    | zero => rfl
    | succ i =>
      simp only [List.modify_succ_cons, List.map_cons, ParsedHeader.removeAt, ih]

/-- The slot found has a key, and it is the key asked for. -/
theorem slot_of_get {pr : HeapRequest ι} {key : CString} {i : ℕ}
    (h : ParsedHeader.get pr.erase key = some i) :
    ∃ k value, pr.headers[i]? = some ⟨some (k, key), value⟩ := by
  obtain ⟨hlt, hkey, _⟩ := List.findIdx?_eq_some_iff_getElem.mp h
  have hlen : i < pr.headers.length := by simpa [erase] using hlt
  have hslot : (pr.headers[i]).key.map Prod.snd = some key := by
    simpa [erase, HeapHeader.erase] using hkey
  rcases hph : pr.headers[i] with ⟨_ | ⟨k, key'⟩, value⟩
  · rw [hph] at hslot
    contradiction
  · rw [hph] at hslot
    obtain rfl : key' = key := Option.some.inj hslot
    exact ⟨k, value, List.getElem?_eq_some_iff.mpr ⟨hlen, hph⟩⟩

theorem set_headerslen_pos {pr : ParsedRequest} (h : 0 < pr.headerslen) (key value : CString) :
    0 < (ParsedHeader.set pr key value).headerslen := by
  have hremove := (ParsedHeader.length_remove pr key).2
  unfold ParsedHeader.set
  dsimp only
  split
  · show 0 < (ParsedHeader.remove pr key).1.headerslen * 2
    omega
  · omega

/-- A created object, not yet assigned to a request. -/
structure Unassigned (pr : HeapRequest ι) : Prop where
  buf : pr.buf = none
  path : pr.path = none
  requestLine : pr.requestLine = none
  room : 0 < pr.headerslen

theorem Unassigned.null {pr : HeapRequest ι} (h : Unassigned pr) :
    { pr with buf := none, path := none } = pr := by
  obtain ⟨self, buf, path, table, requestLine, headers, headerslen⟩ := pr
  obtain rfl : buf = none := h.buf
  obtain rfl : path = none := h.path
  rfl

theorem Unassigned.assign_blocks {pr : HeapRequest ι} (h : Unassigned pr) (buf path : ι)
    (line : RequestLine) :
    ((Site.path, path) :: (Site.buf, buf) :: pr.blocks).Perm (pr.assign buf path line).blocks := by
  simp only [blocks, shell, assign, h.buf, h.path, Option.toList_none, Option.toList_some,
    List.map_nil, List.map_cons, List.nil_append, List.cons_append]
  exact ((List.Perm.swap _ _ _).trans ((List.Perm.swap _ _ _).cons _)).trans
    (List.Perm.swap _ _ _)

theorem create_spec : Spec (ι := ι) create [] (Leaves blocks (fun pr =>
    pr.erase = ParsedRequest.create ∧ Unassigned pr)) := by
  unfold create
  apply spec_bind spec_alloc
  intro self own₁ hown₁
  apply spec_bind spec_alloc
  intro table own₂ hown₂
  subst hown₂ hown₁
  exact spec_pure ⟨List.Perm.refl _, rfl, rfl, rfl, rfl, Nat.succ_pos 7⟩

section Functions
variable [DecidableEq ι]

/-- A removal owns what is left, and answers as the parser's removal does. -/
theorem remove_spec (pr : HeapRequest ι) (key : CString) :
    Spec (remove pr key) pr.blocks (Leaves (fun r => r.1.blocks)
      (fun r => (r.1.erase, r.2) = ParsedHeader.remove pr.erase key)) := by
  unfold remove ParsedHeader.remove
  cases hget : ParsedHeader.get pr.erase key with
  | none => exact spec_pure ⟨List.Perm.refl _, rfl⟩
  | some i =>
    obtain ⟨k, value, hslot⟩ := slot_of_get hget
    have hperm := ((flatMap_blocks_perm hslot).append_left pr.shell).trans
      (List.perm_append_comm_assoc _ _ _)
    simp only [hslot]
    apply spec_bind (spec_free hperm)
    intro _ own hown
    subst hown
    apply spec_bind (spec_free (List.Perm.refl _))
    intro _ own hown
    subst hown
    refine spec_pure ⟨List.Perm.refl _, ?_⟩
    simp only [erase, erase_modify]

theorem grow_spec {pr : HeapRequest ι} {own : List (Site × ι)} (hown : own.Perm pr.blocks) :
    Spec (grow pr) own (Leaves blocks (fun pr' => pr'.erase =
      if pr.erase.headerslen ≤ pr.erase.headers.length + 1
      then { pr.erase with headerslen := pr.erase.headerslen * 2 } else pr.erase)) := by
  have hlen : pr.erase.headers.length = pr.headers.length := List.length_map ..
  unfold grow
  rw [hlen]
  by_cases hfull : pr.headerslen ≤ pr.headers.length + 1
  · have hfull' : pr.erase.headerslen ≤ pr.headers.length + 1 := hfull
    rw [if_pos hfull, if_pos hfull']
    apply spec_bind (spec_realloc hown)
    intro table own' hown'
    subst hown'
    exact spec_pure ⟨List.Perm.refl _, rfl⟩
  · have hfull' : ¬ pr.erase.headerslen ≤ pr.headers.length + 1 := hfull
    rw [if_neg hfull, if_neg hfull']
    exact spec_pure ⟨hown, rfl⟩

/-- A set owns the copies besides, and the table wherever it then is. -/
theorem set_spec (pr : HeapRequest ι) (key value : CString) :
    Spec (set pr key value) pr.blocks (Leaves blocks
      (fun pr' => pr'.erase = ParsedHeader.set pr.erase key value)) := by
  unfold set
  apply spec_bind (remove_spec pr key)
  intro removed own₁ hremoved
  obtain ⟨hown₁, herase₁⟩ := hremoved
  apply spec_bind (grow_spec hown₁)
  intro pr₂ own₂ hgrown
  obtain ⟨hown₂, herase₂⟩ := hgrown
  apply spec_bind spec_alloc
  intro keyPtr own₃ hown₃
  apply spec_bind spec_alloc
  intro valuePtr own₄ hown₄
  subst hown₄ hown₃
  refine spec_pure ⟨?_, ?_⟩
  · have hblocks : blocks { pr₂ with headers := pr₂.headers ++
        [⟨some (keyPtr, key), (valuePtr, value)⟩] } =
          pr₂.blocks ++ [(.key, keyPtr), (.value, valuePtr)] := by
      simp [blocks, shell, HeapHeader.blocks]
    rw [hblocks]
    have hswap := List.Perm.swap (Site.key, keyPtr) (Site.value, valuePtr) own₂
    exact (hswap.trans ((hown₂.cons _).cons _)).trans (perm_cons_cons _ _ _)
  · have hfirst : (ParsedHeader.remove pr.erase key).1 = removed.1.erase := by rw [← herase₁]
    have hlast : erase { pr₂ with headers := pr₂.headers ++
        [⟨some (keyPtr, key), (valuePtr, value)⟩] } =
          { pr₂.erase with headers := pr₂.erase.headers ++ [⟨some key, value⟩] } := by
      simp [erase, HeapHeader.erase]
    refine hlast.trans ?_
    rw [herase₂]
    unfold ParsedHeader.set
    rw [hfirst]

/-- What the parser on the heap answers is what the parser answers. -/
def Agrees (r : HeapRequest ι × Option String) (res : Except ParseError ParsedRequest) : Prop :=
  match r.2 with
  | none => res = .ok r.1.erase
  | some debug => res = .error (.rejected debug)

theorem parseHeader_spec (pr : HeapRequest ι) (line : List Char)
    (hdef : ParsedHeader.parse pr.erase line ≠ .error .undefined) :
    Spec (parseHeader pr line) pr.blocks (Leaves (fun r => r.1.blocks)
      (fun r => Agrees r (ParsedHeader.parse pr.erase line) ∧
        (0 < pr.headerslen → 0 < r.1.headerslen))) := by
  unfold parseHeader
  unfold ParsedHeader.parse at hdef ⊢
  rcases hindex : index ':' line with _ | _ | index1
  · simp [hindex] at hdef
  · exact spec_pure ⟨List.Perm.refl _, rfl, id⟩
  · simp only [hindex, orUndefined_some, orRejected_some, ok_bind] at hdef ⊢
    apply spec_bind spec_alloc
    intro key own₁ hown₁
    rcases hend : strstr crlf (index1.drop 2) with _ | _ | index2
    · simp [hend] at hdef
    · simp [hend] at hdef
    · simp only [orUndefined_some, ok_bind]
      generalize line.take (line.length - index1.length) = keyText
      generalize (index1.drop 2).take ((index1.drop 2).length - index2.length) = valueText
      apply spec_bind spec_alloc
      intro value own₂ hown₂
      subst hown₂ hown₁
      have hswap : ((Site.lineValue, value) :: (Site.lineKey, key) :: pr.blocks).Perm
          (pr.blocks ++ [(Site.lineKey, key), (Site.lineValue, value)]) :=
        (List.Perm.swap _ _ _).trans (perm_cons_cons _ _ _)
      apply spec_bind_call (set_spec pr keyText valueText) hswap
      intro pr' own₃ hown₃
      have hback := (hown₃.1.append_right [(Site.lineKey, key), (Site.lineValue, value)]).trans
        (perm_cons_cons _ _ _).symm
      apply spec_bind (spec_free hback)
      intro _ own₄ hown₄
      subst hown₄
      apply spec_bind (spec_free (List.Perm.refl _))
      intro _ own₅ hown₅
      subst hown₅
      refine spec_pure ⟨List.Perm.refl _, congrArg Except.ok hown₃.2.symm, ?_⟩
      intro hpos
      have hlen : 0 < (ParsedHeader.set pr.erase keyText valueText).headerslen :=
        set_headerslen_pos hpos keyText valueText
      rwa [← hown₃.2] at hlen

theorem parseHeaders_spec (fuel : ℕ) (pr : HeapRequest ι) (currentHeader : List Char)
    (hdef : ParsedRequest.parseHeaders fuel pr.erase currentHeader ≠ .error .undefined) :
    Spec (parseHeaders fuel pr currentHeader) pr.blocks (Leaves (fun r => r.1.blocks)
      (fun r => Agrees r (ParsedRequest.parseHeaders fuel pr.erase currentHeader) ∧
        (0 < pr.headerslen → 0 < r.1.headerslen))) := by
  induction fuel generalizing pr currentHeader with
  | zero => exact absurd rfl hdef
  | succ fuel ih =>
    unfold parseHeaders
    unfold ParsedRequest.parseHeaders at hdef ⊢
    split
    · next hnil => exact absurd (if_pos hnil) hdef
    split
    · exact spec_pure ⟨List.Perm.refl _, rfl, id⟩
    split
    · exact spec_pure ⟨List.Perm.refl _, rfl, id⟩
    rename_i hnil hnul hcrlf
    simp only [hnil, hnul, hcrlf, if_false] at hdef
    have hline : ParsedHeader.parse pr.erase currentHeader ≠ .error .undefined := by
      intro hundef
      rw [hundef] at hdef
      exact hdef rfl
    apply spec_bind (parseHeader_spec pr currentHeader hline)
    rintro ⟨pr₁, ret⟩ own₁ ⟨hown₁, hagrees, hpos⟩
    cases ret with
    | some debug =>
      have hparse : ParsedHeader.parse pr.erase currentHeader = .error (.rejected debug) :=
        hagrees
      rw [hparse]
      exact spec_pure ⟨hown₁, rfl, hpos⟩
    | none =>
      have hparse : ParsedHeader.parse pr.erase currentHeader = .ok pr₁.erase := hagrees
      rw [hparse, ok_bind] at hdef ⊢
      rcases hnext : strstr crlf currentHeader with _ | _ | next
      · simp [hnext] at hdef
      · exact spec_pure ⟨hown₁, rfl, hpos⟩
      · simp only [hnext, orUndefined_some, ok_bind] at hdef ⊢
        rcases htext : cstring next with _ | text
        · simp [htext] at hdef
        · simp only [htext, orUndefined_some, ok_bind] at hdef ⊢
          split
          · exact spec_pure ⟨hown₁, rfl, hpos⟩
          · next hlong =>
            rw [if_neg hlong] at hdef
            apply spec_perm hown₁
            apply spec_weaken (ih pr₁ (next.drop 2) hdef)
            rintro r own' ⟨hown', hagrees', hpos'⟩
            exact ⟨hown', hagrees', fun h => hpos' (hpos h)⟩

theorem parseFromPath_spec {pr : HeapRequest ι} (h : Unassigned pr) (tmpBuf buf : ι)
    (line : Except ParseError RequestLine) (fuel : ℕ) (currentHeader : List Char)
    (hdef : (line >>= fun line => ParsedRequest.parseHeaders fuel
      { pr.erase with requestLine := some line } currentHeader) ≠ .error .undefined) :
    Spec (parseFromPath pr tmpBuf buf line fuel currentHeader)
      ((.buf, buf) :: (.tmpBuf, tmpBuf) :: pr.blocks) (Leaves (fun r => r.1.blocks)
        (fun r => Agrees r (line >>= fun line => ParsedRequest.parseHeaders fuel
          { pr.erase with requestLine := some line } currentHeader) ∧ 0 < r.1.headerslen)) := by
  unfold parseFromPath
  apply spec_bind spec_alloc
  intro path own₁ hown₁
  subst hown₁
  rcases line with (_ | debug) | line
  · exact absurd rfl hdef
  · have hfirst : ((Site.path, path) :: (Site.buf, buf) :: (Site.tmpBuf, tmpBuf) ::
        pr.blocks).Perm ((Site.tmpBuf, tmpBuf) :: (Site.path, path) :: (Site.buf, buf) ::
          pr.blocks) :=
      ((List.Perm.swap _ _ _).cons _).trans (List.Perm.swap _ _ _)
    apply spec_bind (spec_free hfirst)
    intro _ own₂ hown₂
    subst hown₂
    apply spec_bind (spec_free (List.Perm.swap _ _ _))
    intro _ own₃ hown₃
    subst hown₃
    apply spec_bind (spec_free (List.Perm.refl _))
    intro _ own₄ hown₄
    subst hown₄
    rw [h.null]
    exact spec_pure ⟨List.Perm.refl _, rfl, h.room⟩
  · have hassigned : ((Site.path, path) :: (Site.buf, buf) :: (Site.tmpBuf, tmpBuf) ::
        pr.blocks).Perm ((pr.assign buf path line).blocks ++ [(.tmpBuf, tmpBuf)]) := by
      have hswap := ((List.Perm.swap (Site.tmpBuf, tmpBuf) (Site.buf, buf) pr.blocks).cons
        (Site.path, path)).trans (List.Perm.swap _ _ _)
      exact hswap.trans (((h.assign_blocks buf path line).cons _).trans (perm_concat _ _))
    have hdef' : ParsedRequest.parseHeaders fuel (pr.assign buf path line).erase currentHeader ≠
        .error .undefined := hdef
    apply spec_bind_call (parseHeaders_spec fuel _ currentHeader hdef') hassigned
    intro r own₂ hown₂
    apply spec_bind (spec_free ((hown₂.1.append_right _).trans (perm_concat _ _).symm))
    intro _ own₃ hown₃
    subst hown₃
    exact spec_pure ⟨List.Perm.refl _, hown₂.2.1, hown₂.2.2 h.room⟩

/-- Wherever the parser stops, the object owns all that is still out. -/
theorem parse_spec {pr : HeapRequest ι} (h : Unassigned pr) (text : List Char)
    (errnoEinval : Bool)
    (hdef : ParsedRequest.parse pr.erase text errnoEinval ≠ .error .undefined) :
    Spec (parse pr text errnoEinval) pr.blocks (Leaves (fun r => r.1.blocks)
      (fun r => Agrees r (ParsedRequest.parse pr.erase text errnoEinval) ∧
        0 < r.1.headerslen)) := by
  have hunset : pr.erase.requestLine = none := h.requestLine
  unfold parse
  unfold ParsedRequest.parse at hdef ⊢
  rw [require_of hunset, ok_bind] at hdef ⊢
  simp only [h.buf, Option.isSome_none, Bool.false_eq_true, if_false]
  by_cases hlen : 4 ≤ text.length ∧ text.length ≤ 65535
  swap
  · rw [if_pos hlen]
    refine spec_pure ⟨List.Perm.refl _, ?_, h.room⟩
    show (require _ _ >>= _) = _
    rw [require, if_neg hlen]
    rfl
  rw [require_of hlen, ok_bind] at hdef ⊢
  rw [if_neg (not_not.mpr hlen)]
  apply spec_bind spec_alloc
  intro tmpBuf own₁ hown₁
  subst hown₁
  rcases hend : strstr (crlf ++ crlf) (text ++ [nul]) with _ | _ | blank
  · simp [hend] at hdef
  · apply spec_bind (spec_free (List.Perm.refl _))
    intro _ own₂ hown₂
    subst hown₂
    exact spec_pure ⟨List.Perm.refl _, rfl, h.room⟩
  rcases hline : strstr crlf (text ++ [nul]) with _ | _ | lineEnd
  · simp [hend, hline] at hdef
  · simp [hend, hline] at hdef
  simp only [hend, hline, orUndefined_some, orRejected_some, ok_bind,
    ← cutBefore_cutPort, bind_assoc] at hdef ⊢
  apply spec_bind spec_alloc
  intro buf own₂ hown₂
  subst hown₂
  rcases hcut : cutBefore ((text ++ [nul]).take ((text ++ [nul]).length - lineEnd.length)) with
    (_ | debug) | ⟨cut, target⟩
  · rw [hcut] at hdef
    exact absurd rfl hdef
  · apply spec_bind (spec_free (List.Perm.swap _ _ _))
    intro _ own₃ hown₃
    subst hown₃
    apply spec_bind (spec_free (List.Perm.refl _))
    intro _ own₄ hown₄
    subst hown₄
    rw [h.null]
    exact spec_pure ⟨List.Perm.refl _, rfl, h.room⟩
  · rw [hcut, ok_bind] at hdef
    have hfuel : (text ++ [nul]).length = text.length + 1 := List.length_append
    rw [hfuel] at hdef ⊢
    exact parseFromPath_spec h tmpBuf buf (cutPort cut errnoEinval target) (text.length + 1)
      (lineEnd.drop 2) hdef

theorem destroyOne_spec (ph : HeapHeader ι) :
    Spec ph.destroyOne ph.blocks (fun _ own => own = []) := by
  unfold HeapHeader.destroyOne HeapHeader.blocks
  cases ph.key with
  | none => exact spec_pure rfl
  | some key =>
    apply spec_bind (spec_free (List.Perm.refl _))
    intro _ own hown
    subst hown
    exact spec_free (List.Perm.refl _)

theorem destroyHeaders_spec (pr : HeapRequest ι) :
    Spec (destroyHeaders pr) ((.headers, pr.table) :: pr.headers.flatMap HeapHeader.blocks)
      (fun _ own => own = []) := by
  apply spec_bind_call (spec_forEach destroyOne_spec pr.headers) (perm_concat _ _)
  intro _ own hown
  subst hown
  exact spec_free (List.Perm.refl _)

/-- Destroying the object gives back all it owns. -/
theorem destroy_spec {pr : HeapRequest ι} (hpos : 0 < pr.headerslen) {own : List (Site × ι)}
    (hown : own.Perm pr.blocks) : Spec (destroy pr) own (fun _ own' => own' = []) := by
  have horder : pr.blocks.Perm (pr.buf.toList.map (fun p => (Site.buf, p)) ++
      (pr.path.toList.map (fun p => (Site.path, p)) ++
        (((.headers, pr.table) :: pr.headers.flatMap HeapHeader.blocks) ++
          [(.request, pr.self)]))) := by
    simp only [blocks, shell, List.cons_append, List.append_assoc]
    refine List.perm_middle.symm.trans (List.Perm.append_left _ ?_)
    refine List.perm_middle.symm.trans (List.Perm.append_left _ ?_)
    exact (perm_concat _ _).cons _
  apply spec_perm (hown.trans horder)
  apply spec_bind (spec_freeNullable (List.Perm.refl _))
  intro _ own₁ hown₁
  subst hown₁
  apply spec_bind (spec_freeNullable (List.Perm.refl _))
  intro _ own₂ hown₂
  subst hown₂
  rw [if_pos hpos]
  apply spec_bind_call (destroyHeaders_spec pr) (List.Perm.refl _)
  intro _ own₃ hown₃
  subst hown₃
  exact spec_free (List.Perm.refl _)

open OrderedTable in
def call (pr : HeapRequest ι) : Op CString CString → Prog Site ι (HeapRequest ι)
  | .set key value => set pr key value
  | .remove key => do
      let removed ← remove pr key
      return removed.1

open OrderedTable in
def callAll (pr : HeapRequest ι) : List (Op CString CString) → Prog Site ι (HeapRequest ι)
  | [] => pure pr
  | op :: ops => do
      let pr ← call pr op
      callAll pr ops

/-- The life of an object: created, parsed into, changed if the request was
accepted, and destroyed. -/
def life (text : List Char) (errnoEinval : Bool) (ops : List (OrderedTable.Op CString CString)) :
    Prog Site ι (Except String ParsedRequest) := do
  let pr ← create
  let r ← parse pr text errnoEinval
  match r.2 with
  | some debug => do
      destroy r.1
      return .error debug
  | none => do
      let pr ← callAll r.1 ops
      destroy pr
      return .ok pr.erase

theorem call_spec {pr : HeapRequest ι} {own : List (Site × ι)} (hown : own.Perm pr.blocks)
    (op : OrderedTable.Op CString CString) :
    Spec (call pr op) own
      (Leaves blocks (fun pr' => pr'.erase = ParsedHeader.call pr.erase op)) := by
  apply spec_perm hown
  cases op with
  | set key value => exact set_spec pr key value
  | remove key =>
    apply spec_bind (remove_spec pr key)
    intro removed own₁ hremoved
    obtain ⟨hown₁, herase⟩ := hremoved
    exact spec_pure ⟨hown₁, congrArg Prod.fst herase⟩

theorem callAll_spec (ops : List (OrderedTable.Op CString CString)) {pr : HeapRequest ι}
    {own : List (Site × ι)} (hown : own.Perm pr.blocks) :
    Spec (callAll pr ops) own
      (Leaves blocks (fun pr' => pr'.erase = ParsedHeader.callAll pr.erase ops)) := by
  induction ops generalizing pr own with
  | nil => exact spec_pure ⟨hown, rfl⟩
  | cons op ops ih =>
    apply spec_bind (call_spec hown op)
    intro pr₁ own₁ hcall
    obtain ⟨hown₁, herase⟩ := hcall
    apply spec_weaken (ih hown₁)
    intro pr₂ own₂ hrest
    exact ⟨hrest.1, hrest.2.trans (congrArg (fun p => ParsedHeader.callAll p ops) herase)⟩

theorem callAll_headerslen_pos {pr : ParsedRequest} (h : 0 < pr.headerslen)
    (ops : List (OrderedTable.Op CString CString)) :
    0 < (ParsedHeader.callAll pr ops).headerslen := by
  induction ops generalizing pr with
  | nil => exact h
  | cons op ops ih =>
    apply ih
    cases op with
    | set key value => exact set_headerslen_pos h key value
    | remove key =>
      show 0 < (ParsedHeader.remove pr key).1.headerslen
      rw [(ParsedHeader.length_remove pr key).2]
      exact h

theorem life_spec (text : List Char) (errnoEinval : Bool)
    (ops : List (OrderedTable.Op CString CString))
    (hdef : ParsedRequest.parse ParsedRequest.create text errnoEinval ≠ .error .undefined) :
    Spec (ι := ι) (life text errnoEinval ops) [] (fun r own => own = [] ∧
      r.mapError ParseError.rejected =
        (ParsedRequest.parse ParsedRequest.create text errnoEinval).map
          (fun pr => ParsedHeader.callAll pr ops)) := by
  unfold life
  apply spec_bind create_spec
  rintro pr own₁ ⟨hown₁, herase, hunassigned⟩
  rw [← herase] at hdef ⊢
  apply spec_bind (spec_perm hown₁ (parse_spec hunassigned text errnoEinval hdef))
  rintro ⟨pr₂, ret⟩ own₂ ⟨hown₂, hagrees, hpos⟩
  cases ret with
  | some debug =>
    have hrejected : ParsedRequest.parse pr.erase text errnoEinval = .error (.rejected debug) :=
      hagrees
    apply spec_bind (destroy_spec hpos hown₂)
    intro _ own₃ hown₃
    refine spec_pure ⟨hown₃, ?_⟩
    rw [hrejected]
    rfl
  | none =>
    have hok : ParsedRequest.parse pr.erase text errnoEinval = .ok pr₂.erase := hagrees
    apply spec_bind (callAll_spec ops hown₂)
    rintro pr₃ own₃ ⟨hown₃, hcalls⟩
    have hpos₃ : 0 < pr₃.headerslen := by
      have hlen : 0 < (ParsedHeader.callAll pr₂.erase ops).headerslen :=
        callAll_headerslen_pos hpos ops
      rwa [← hcalls] at hlen
    apply spec_bind (destroy_spec hpos₃ hown₃)
    intro _ own₄ hown₄
    refine spec_pure ⟨hown₄, ?_⟩
    rw [hok]
    exact congrArg Except.ok hcalls

end Functions

/-- For every allocator and every text the parser reads within bounds, the life of an
object, with any header calls on an accepted request, gives back each block once and none
twice, on every way out of the parser, and it answers as the parser does. -/
theorem life_balanced [DecidableEq ι] (text : List Char) (errnoEinval : Bool)
    (ops : List (OrderedTable.Op CString CString))
    (hdef : ParsedRequest.parse ParsedRequest.create text errnoEinval ≠ .error .undefined)
    (allocator : Allocator Site ι) (s : State Site ι) :
    ∃ r s', life text errnoEinval ops allocator s = some (r, s') ∧
      s'.memory.live.Perm s.memory.live ∧
      r.mapError ParseError.rejected =
        (ParsedRequest.parse ParsedRequest.create text errnoEinval).map
          (fun pr => ParsedHeader.callAll pr ops) := by
  obtain ⟨r, s', own, hrun, ⟨hown, hanswer⟩, hlive⟩ :=
    spec_run (life_spec text errnoEinval ops hdef) allocator s
  subst hown
  exact ⟨r, s', hrun, hlive, hanswer⟩

theorem life_balanced_missingColon : ∃ r s',
    life "GET http://a/b HTTP/1.0\r\nHost: a\r\nnone\r\n\r\n".toList false
      [.set "Host".toList "b".toList] (Allocator.above Site) .empty = some (r, s') ∧
    s'.memory.live.Perm [] ∧ r.mapError ParseError.rejected =
      (ParsedRequest.parse ParsedRequest.create
        "GET http://a/b HTTP/1.0\r\nHost: a\r\nnone\r\n\r\n".toList false).map
          (fun pr => ParsedHeader.callAll pr [.set "Host".toList "b".toList]) :=
  life_balanced _ false _ (by decide) _ _

end HeapRequest

end ProxyServer
