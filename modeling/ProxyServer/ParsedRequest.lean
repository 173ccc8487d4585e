import ProxyServer.CStrings
import ProxyServer.OrderedTable
import Mathlib.Data.Int.Notation

/-!
The parsed request object and its header table. The table is an array of slots
in which a removed header leaves a slot without a key. Under the invariant that
no key is live twice the live slots are an ordered table: a set drops the key
and puts it last. Printing writes the live headers and a blank line; sizes pass
through `int`.
-/
namespace ProxyServer

open CStrings

/-- A slot of the header table; its key is null once it is removed. -/
structure ParsedHeader where
  key : Option CString
  value : CString
  deriving DecidableEq, Repr

/-- The fields that point into `buf`, and the path. -/
structure RequestLine where
  method : CString
  protocol : CString
  host : CString
  port : Option CString
  path : CString
  version : CString
  deriving DecidableEq, Repr

/-- `requestLine` is there once `buf` is; `headersused` is the number of
slots. -/
structure ParsedRequest where
  requestLine : Option RequestLine
  headers : List ParsedHeader
  headerslen : ℕ
  deriving DecidableEq, Repr

namespace ParsedHeader

def live (ph : ParsedHeader) : Option (CString × CString) :=
  ph.key.map (fun key => (key, ph.value))

def get (pr : ParsedRequest) (key : CString) : Option ℕ :=
  pr.headers.findIdx? (fun tmp => tmp.key == some key)

def removeAt (headers : List ParsedHeader) (i : ℕ) : List ParsedHeader :=
  headers.modify i (fun tmp => { tmp with key := none })

def remove (pr : ParsedRequest) (key : CString) : ParsedRequest × ℤ :=
  match get pr key with
  | none => (pr, -1)
  | some i => ({ pr with headers := removeAt pr.headers i }, 0)

def set (pr : ParsedRequest) (key value : CString) : ParsedRequest :=
  let pr := (remove pr key).1
  let pr := if pr.headerslen ≤ pr.headers.length + 1
    then { pr with headerslen := pr.headerslen * 2 } else pr
  { pr with headers := pr.headers ++ [⟨some key, value⟩] }

def lineLen (ph : ParsedHeader) : ℕ :=
  match ph.key with
  | some key => key.length + ph.value.length + 4
  | none => 0

def headersLen (pr : ParsedRequest) : ℕ :=
  if pr.requestLine.isNone then 0
  else sizeT (toInt (pr.headers.foldl (fun len ph => toInt (len + lineLen ph)) 0 + 2))

/-- What one slot prints. -/
def printHeader (ph : ParsedHeader) : CString :=
  match ph.key with
  | some key => key ++ ": ".toList ++ ph.value ++ crlf
  | none => []

/-- `none` for -1, else what is written at the front of the buffer. -/
def printHeaders (pr : ParsedRequest) (len : ℕ) : Option CString :=
  if len < headersLen pr then none
  else some (pr.headers.flatMap printHeader ++ crlf)

end ParsedHeader

namespace ParsedRequest

def create : ParsedRequest := ⟨none, [], 8⟩

def live (pr : ParsedRequest) : List (CString × CString) := pr.headers.filterMap ParsedHeader.live

def lineLen (line : RequestLine) : ℕ :=
  line.method.length + 1 + line.protocol.length + 3 + line.host.length + 1 +
    line.version.length + 2 + (match line.port with | some port => port.length + 1 | none => 0) +
    line.path.length

def requestLineLen (pr : ParsedRequest) : ℕ :=
  match pr.requestLine with
  | none => 0
  | some line => lineLen line

def printLine (line : RequestLine) : CString :=
  line.method ++ " ".toList ++ line.protocol ++ "://".toList ++ line.host ++
    (match line.port with | some port => ":".toList ++ port | none => []) ++
    line.path ++ " ".toList ++ line.version ++ crlf

/-- `none` for -1, else what is written at the front of the buffer. -/
def printRequestLine (pr : ParsedRequest) (buflen : ℕ) : Option CString :=
  if buflen < requestLineLen pr then none else pr.requestLine.map printLine

def unparse (pr : ParsedRequest) (buflen : ℕ) : Option CString :=
  if pr.requestLine.isNone then none
  else (printRequestLine pr buflen).bind (fun line =>
    (ParsedHeader.printHeaders pr (sizeT (buflen - line.length))).map (fun headers =>
      line ++ headers))

def unparseHeaders (pr : ParsedRequest) (buflen : ℕ) : Option CString :=
  if pr.requestLine.isNone then none else ParsedHeader.printHeaders pr buflen

def totalLen (pr : ParsedRequest) : ℕ :=
  if pr.requestLine.isNone then 0
  else sizeT (requestLineLen pr + ParsedHeader.headersLen pr)

end ParsedRequest

namespace ParsedHeader

open OrderedTable

theorem live_some (key value : CString) : live ⟨some key, value⟩ = some (key, value) := rfl

theorem live_none (value : CString) : live ⟨none, value⟩ = none := rfl

theorem filter_eq_self_of_absent {t : List (CString × CString)} {key : CString}
    (h : key ∉ keys t) : t.filter (fun e => e.1 ≠ key) = t := by
  apply List.filter_eq_self.mpr
  intro e he
  have hne : e.1 ≠ key := fun heq => h (heq ▸ mem_keys_of_mem he)
  simpa using hne

/-- Among slots whose live keys are distinct, removing a key removes its entry. -/
theorem filterMap_removeAt (key : CString) (slots : List ParsedHeader)
    (h : (keys (slots.filterMap live)).Nodup) :
    match slots.findIdx? (fun tmp => tmp.key == some key) with
    | none => key ∉ keys (slots.filterMap live)
    | some i => (removeAt slots i).filterMap live =
        (slots.filterMap live).filter (fun e => e.1 ≠ key) := by
  induction slots with
  | nil => simp [keys]
  | cons ph slots ih =>
    obtain ⟨phKey, value⟩ := ph
    rw [List.findIdx?_cons]
    cases phKey with
    | none =>
      rw [List.filterMap_cons_none (live_none value)] at h ⊢
      have hih := ih h
      simp only [reduceCtorEq, beq_iff_eq, if_false]
      cases hfind : slots.findIdx? (fun tmp => tmp.key == some key) with
      | none =>
        rw [hfind] at hih
        exact hih
      | some i =>
        rw [hfind] at hih
        simp only [Option.map_some, removeAt, List.modify_succ_cons] at hih ⊢
        rw [List.filterMap_cons_none (live_none value)]
        exact hih
    | some k =>
      rw [List.filterMap_cons_some (live_some k value)] at h ⊢
      rw [keys_cons, List.nodup_cons] at h
      by_cases hk : k = key
      · subst hk
        simp only [beq_self_eq_true, if_true, removeAt, List.modify_zero_cons]
        rw [List.filterMap_cons_none (live_none value), List.filter_cons_of_neg (by simp)]
        exact (filter_eq_self_of_absent h.1).symm
      · have hih := ih h.2
        simp only [beq_iff_eq, Option.some.injEq, hk, if_false]
        cases hfind : slots.findIdx? (fun tmp => tmp.key == some key) with
        | none =>
          rw [hfind] at hih
          simp only [Option.map_none, keys_cons, List.mem_cons, not_or]
          exact ⟨Ne.symm hk, hih⟩
        | some i =>
          rw [hfind] at hih
          simp only [Option.map_some, removeAt, List.modify_succ_cons] at hih ⊢
          rw [List.filterMap_cons_some (live_some k value), hih,
            List.filter_cons_of_pos (by simpa using hk)]

/-- `ParsedHeader_remove` on slots drops the entry of an ordered table. -/
theorem live_remove {pr : ParsedRequest} (h : (keys pr.live).Nodup) (key : CString) :
    (remove pr key).1.live = erase pr.live key := by
  have hremove := filterMap_removeAt key pr.headers h
  unfold remove get
  cases hfind : pr.headers.findIdx? (fun tmp => tmp.key == some key) with
  | none =>
    rw [hfind] at hremove
    exact (filter_eq_self_of_absent hremove).symm
  | some i =>
    rw [hfind] at hremove
    exact hremove

/-- `ParsedHeader_set` on slots is the set of an ordered table. -/
theorem live_set {pr : ParsedRequest} (h : (keys pr.live).Nodup) (key value : CString) :
    (set pr key value).live = OrderedTable.set pr.live key value := by
  have hlive : (set pr key value).live = (remove pr key).1.live ++ [(key, value)] := by
    unfold set
    dsimp only
    split <;> simp [ParsedRequest.live, live]
  rw [hlive, live_remove h]
  rfl

@[simp] theorem remove_requestLine (pr : ParsedRequest) (key : CString) :
    (remove pr key).1.requestLine = pr.requestLine := by
  unfold remove
  split <;> rfl

@[simp] theorem set_requestLine (pr : ParsedRequest) (key value : CString) :
    (set pr key value).requestLine = pr.requestLine := by
  rw [← remove_requestLine pr key]
  unfold set
  dsimp only
  split <;> rfl

def setAll (pr : ParsedRequest) (sets : List (CString × CString)) : ParsedRequest :=
  sets.foldl (fun pr e => set pr e.1 e.2) pr

theorem setAll_spec (sets : List (CString × CString)) :
    ∀ {pr : ParsedRequest}, (keys pr.live).Nodup →
      (setAll pr sets).live = OrderedTable.setAll pr.live sets ∧
        (setAll pr sets).requestLine = pr.requestLine := by
  induction sets with
  | nil => exact fun _ => ⟨rfl, rfl⟩
  | cons e sets ih =>
    intro pr h
    have hset := live_set h e.1 e.2
    have hnodup : (keys (set pr e.1 e.2).live).Nodup := by
      rw [hset]
      exact nodup_set h e.1 e.2
    obtain ⟨hlive, hline⟩ := ih hnodup
    refine ⟨?_, hline.trans (set_requestLine pr e.1 e.2)⟩
    rw [show setAll pr (e :: sets) = setAll (set pr e.1 e.2) sets from rfl, hlive, hset]
    rfl

section Printing

def headerText (e : CString × CString) : CString := e.1 ++ ": ".toList ++ e.2 ++ crlf

theorem length_headerText (e : CString × CString) :
    (headerText e).length = e.1.length + e.2.length + 4 := by
  simp [headerText, crlf]
  omega

theorem flatMap_printHeader (slots : List ParsedHeader) :
    slots.flatMap printHeader = (slots.filterMap live).flatMap headerText := by
  induction slots with
  | nil => rfl
  | cons ph slots ih =>
    obtain ⟨phKey, value⟩ := ph
    cases phKey with
    | none =>
      rw [List.filterMap_cons_none (live_none value), List.flatMap_cons, ih]
      rfl
    | some key =>
      rw [List.filterMap_cons_some (live_some key value), List.flatMap_cons, List.flatMap_cons, ih]
      rfl

theorem lineLen_eq (ph : ParsedHeader) : lineLen ph = (printHeader ph).length := by
  obtain ⟨phKey, value⟩ := ph
  cases phKey with
  | none => rfl
  | some key => exact (length_headerText (key, value)).symm

theorem foldl_lineLen (slots : List ParsedHeader) :
    ∀ n : ℤ, slots.foldl (fun len ph => toInt (len + lineLen ph)) (toInt n) =
      toInt (n + (slots.flatMap printHeader).length) := by
  induction slots with
  | nil => simp
  | cons ph slots ih =>
    intro n
    rw [List.foldl_cons, toInt_toInt_add, ih, lineLen_eq, List.flatMap_cons, List.length_append,
      Int.natCast_add, Int.add_assoc]

/-- `ParsedHeader_headersLen` is what is printed, through `int`. -/
theorem headersLen_eq_sizeT {pr : ParsedRequest} (hline : pr.requestLine.isSome) :
    headersLen pr = sizeT (toInt ((pr.headers.flatMap printHeader ++ crlf).length : ℤ)) := by
  have hnone : pr.requestLine.isNone = false := by
    rw [← Option.not_isSome, hline]
    rfl
  have hfold := foldl_lineLen pr.headers 0
  have hzero : toInt 0 = 0 := rfl
  rw [hzero, Int.zero_add] at hfold
  rw [headersLen, hnone, List.length_append, Int.natCast_add]
  simp only [Bool.false_eq_true, if_false]
  rw [hfold, toInt_toInt_add]
  rfl

/-- Below 2 GiB `ParsedHeader_headersLen` is what is printed. -/
theorem headersLen_eq {pr : ParsedRequest} (hline : pr.requestLine.isSome)
    (hlt : (pr.headers.flatMap printHeader).length + 2 < 2 ^ 31) :
    headersLen pr = (pr.headers.flatMap printHeader ++ crlf).length := by
  have hlen : (pr.headers.flatMap printHeader ++ crlf).length < 2 ^ 31 := by
    rw [List.length_append]
    exact hlt
  rw [headersLen_eq_sizeT hline, toInt_of_lt hlen, sizeT_of_lt (by omega)]

end Printing

end ParsedHeader

namespace ParsedRequest

open ParsedHeader

theorem length_printLine (line : RequestLine) : (printLine line).length = lineLen line := by
  unfold printLine lineLen
  cases line.port with
  | none => simp [crlf]; omega
  | some port => simp [crlf]; omega

/-- Below 2 GiB unparsing into `ParsedRequest_totalLen` bytes fills them with
the request line, the live headers and a blank line. -/
theorem unparse_totalLen {pr : ParsedRequest} {line : RequestLine}
    (hline : pr.requestLine = some line)
    (hlt : (printLine line ++ (pr.live.flatMap headerText ++ crlf)).length < 2 ^ 31) :
    unparse pr (totalLen pr) = some (printLine line ++ (pr.live.flatMap headerText ++ crlf)) ∧
      totalLen pr = (printLine line ++ (pr.live.flatMap headerText ++ crlf)).length := by
  have hprint : pr.headers.flatMap printHeader = pr.live.flatMap headerText :=
    flatMap_printHeader pr.headers
  have hcrlf : crlf.length = 2 := rfl
  have hlen : requestLineLen pr = (printLine line).length := by
    rw [length_printLine, requestLineLen, hline]
  have hheaders : headersLen pr = (pr.live.flatMap headerText ++ crlf).length := by
    rw [← hprint]
    apply headersLen_eq (by rw [hline]; rfl)
    rw [hprint]
    simp only [List.length_append, hcrlf] at hlt
    omega
  have htotal : totalLen pr = (printLine line ++ (pr.live.flatMap headerText ++ crlf)).length := by
    have hsum : requestLineLen pr + headersLen pr =
        (printLine line ++ (pr.live.flatMap headerText ++ crlf)).length := by
      rw [hlen, hheaders]
      simp only [List.length_append]
    rw [totalLen, hline, ← Int.natCast_add, hsum]
    simp only [Option.isNone_some, Bool.false_eq_true, if_false]
    exact sizeT_of_lt (by omega)
  refine ⟨?_, htotal⟩
  have hnot : ¬ totalLen pr < requestLineLen pr := by
    rw [htotal, hlen, List.length_append]
    omega
  have hrest : sizeT ((totalLen pr : ℤ) - (printLine line).length) = headersLen pr := by
    have hsub : (totalLen pr : ℤ) - (printLine line).length = (headersLen pr : ℤ) := by
      rw [htotal, hheaders]
      simp only [List.length_append]
      omega
    rw [hsub, sizeT_of_lt]
    rw [hheaders]
    rw [List.length_append] at hlt
    omega
  rw [unparse, printRequestLine, if_neg hnot, hline]
  simp only [Option.isNone_some, Bool.false_eq_true, if_false, Option.map_some, Option.bind_some]
  rw [hrest, printHeaders, if_neg (lt_irrefl _), Option.map_some, hprint]

end ParsedRequest

end ProxyServer
