import Mathlib.Data.List.Basic
import Mathlib.Data.List.Infix
import Mathlib.Data.List.TakeWhile
import Mathlib.Data.Int.Notation
import Mathlib.Algebra.Group.Int.Defs
import Mathlib.Algebra.Group.Nat.Defs

/-!
C strings, the library functions on them and C's integer conversions. A memory
is a list of characters, a pointer into one that is only read is the part of
the memory from there on, and a pointer into one that is written is an offset.
A function answers `none` where it would read past the end of the memory.
-/
namespace ProxyServer

/-- The characters before the terminating NUL. -/
abbrev CString := List Char

namespace CStrings

abbrev nul : Char := '\x00'

def crlf : CString := ['\r', '\n']

/-- The conversion to `int`. -/
def toInt (n : ℤ) : ℤ := Int.bmod n (2 ^ 32)

/-- `n + 1` for an `int`; `none` where it overflows. -/
def intSucc (n : ℤ) : Option ℤ := if n + 1 < 2 ^ 31 then some (n + 1) else none

/-- The conversion to `size_t`. -/
def sizeT (n : ℤ) : ℕ := (n % 2 ^ 64).toNat

def cstring (p : List Char) : Option CString :=
  if nul ∈ p then some (p.takeWhile (· != nul)) else none

def stringAt (mem : List Char) (s : ℕ) : Option CString := cstring (mem.drop s)

/-- The inner `none` is the null pointer. -/
def strstr (needle : CString) : List Char → Option (Option (List Char))
  | [] => none
  | c :: p =>
      if needle.isPrefixOf (c :: p) then some (some (c :: p))
      else if c = nul then some none else strstr needle p

def index (x : Char) : List Char → Option (Option (List Char))
  | [] => none
  | c :: p =>
      if c = x then some (some (c :: p))
      else if c = nul then some none else index x p

/-- The memory after the call, the token and the save pointer. -/
def strtokR (mem : List Char) (s : ℕ) (delim : List Char) : Option (List Char × Option ℕ × ℕ) :=
  (stringAt mem s).map (fun str =>
    let start := s + (str.takeWhile (· ∈ delim)).length
    let rest := str.dropWhile (· ∈ delim)
    let stop := start + (rest.takeWhile (· ∉ delim)).length
    if rest = [] then (mem, none, start)
    else if rest.dropWhile (· ∉ delim) = [] then (mem, some start, stop)
    else (mem.set stop nul, some start, stop + 1))

section Integers

theorem toInt_eq_self {n : ℤ} (hle : -2 ^ 31 ≤ n) (hlt : n < 2 ^ 31) : toInt n = n := by
  unfold toInt
  rw [Int.bmod_eq_of_le] <;> omega

theorem toInt_of_lt {n : ℕ} (h : n < 2 ^ 31) : toInt n = n :=
  toInt_eq_self (by omega) (by omega)

theorem intSucc_of_lt {n : ℤ} (h : n + 1 < 2 ^ 31) : intSucc n = some (n + 1) := if_pos h

theorem toInt_toInt_add (a b : ℤ) : toInt (toInt a + b) = toInt (a + b) := by
  unfold toInt
  exact Int.bmod_add_bmod

theorem sizeT_of_lt {n : ℕ} (h : n < 2 ^ 64) : sizeT n = n := by
  unfold sizeT
  omega

end Integers

section Reads

theorem cstring_append {s : CString} (hs : nul ∉ s) (rest : List Char) :
    cstring (s ++ nul :: rest) = some s := by
  unfold cstring
  rw [if_pos (by simp), List.takeWhile_append_of_pos]
  · simp
  · intro c hc
    rw [bne_iff_ne]
    rintro rfl
    exact hs hc

theorem stringAt_append {s : CString} (hs : nul ∉ s) (pre rest : List Char) :
    stringAt (pre ++ (s ++ nul :: rest)) pre.length = some s := by
  rw [stringAt, List.drop_left, cstring_append hs]

theorem index_of_append {x : Char} {u : CString} (hu : x ∉ u) (hn : nul ∉ u) (rest : List Char) :
    index x (u ++ x :: rest) = some (some (x :: rest)) := by
  induction u with
  | nil => simp [index]
  | cons c u ih =>
    have hc : c ≠ x := fun h => hu (h ▸ List.mem_cons_self)
    have hc' : c ≠ nul := fun h => hn (h ▸ List.mem_cons_self)
    rw [List.cons_append, index, if_neg hc, if_neg hc']
    exact ih (fun h => hu (List.mem_cons_of_mem _ h)) (fun h => hn (List.mem_cons_of_mem _ h))

theorem index_none {x : Char} (hx : x ≠ nul) {u : CString} (hu : x ∉ u) (hn : nul ∉ u)
    (rest : List Char) : index x (u ++ nul :: rest) = some none := by
  induction u with
  | nil => simp [index, hx.symm]
  | cons c u ih =>
    have hc : c ≠ x := fun h => hu (h ▸ List.mem_cons_self)
    have hc' : c ≠ nul := fun h => hn (h ▸ List.mem_cons_self)
    rw [List.cons_append, index, if_neg hc, if_neg hc']
    exact ih (fun h => hu (List.mem_cons_of_mem _ h)) (fun h => hn (List.mem_cons_of_mem _ h))

/-- What stands before the first `x` is determined. -/
theorem append_cons_unique {x : Char} {u v a b : CString} (hu : x ∉ u) (hv : x ∉ v)
    (h : u ++ x :: a = v ++ x :: b) : u = v ∧ a = b := by
  have htake : ∀ {u : CString} (a : CString), x ∉ u → (u ++ x :: a).takeWhile (· != x) = u := by
    intro u a hu
    rw [List.takeWhile_append_of_pos, List.takeWhile_cons_of_neg (by simp), List.append_nil]
    intro c hc
    rw [bne_iff_ne]
    exact fun heq => hu (heq ▸ hc)
  have huv : u = v := by
    rw [← htake a hu, h, htake b hv]
  subst huv
  exact ⟨rfl, (List.cons.inj (List.append_cancel_left h)).2⟩

/-- A needle that a memory begins with nowhere in `u` is first found after it. -/
theorem strstr_of_append {needle : CString} (hne : needle ≠ []) {u : CString} (hn : nul ∉ u)
    (rest : List Char)
    (hfirst : ∀ a b, u = a ++ b → b ≠ [] → ¬ needle <+: b ++ (needle ++ rest)) :
    strstr needle (u ++ (needle ++ rest)) = some (some (needle ++ rest)) := by
  induction u with
  | nil =>
    obtain ⟨c, needle, rfl⟩ := List.exists_cons_of_ne_nil hne
    rw [List.nil_append, List.cons_append, strstr, if_pos]
    rw [List.isPrefixOf_iff_prefix]
    exact List.prefix_append (c :: needle) rest
  | cons c u ih =>
    have hc : c ≠ nul := fun h => hn (h ▸ List.mem_cons_self)
    rw [List.cons_append, strstr, if_neg, if_neg hc]
    · apply ih (fun h => hn (List.mem_cons_of_mem _ h))
      intro a b hab hb
      exact hfirst (c :: a) b (by rw [hab, List.cons_append]) hb
    · rw [List.isPrefixOf_iff_prefix]
      exact hfirst [] (c :: u) rfl (List.cons_ne_nil c u)

/-- A needle that does not stand in the string is not found. -/
theorem strstr_none {needle : CString} (hne : needle ≠ []) (hneedle : nul ∉ needle) {s : CString}
    (hn : nul ∉ s) (h : ¬ needle <:+: s) (post : List Char) :
    strstr needle (s ++ nul :: post) = some none := by
  have hfront : ∀ u : CString, needle <+: u ++ nul :: post → needle <+: u := by
    intro u hu
    rcases List.prefix_or_prefix_of_prefix hu (List.prefix_append u _) with hin | ⟨w, rfl⟩
    · exact hin
    · rw [List.prefix_append_right_inj] at hu
      cases w with
      | nil => rw [List.append_nil]
      | cons c w =>
        rw [(List.cons_prefix_cons.mp hu).1] at hneedle
        simp at hneedle
  induction s with
  | nil =>
    rw [List.nil_append, strstr, if_neg, if_pos rfl]
    intro hstart
    exact hne (List.prefix_nil.mp (hfront [] (List.isPrefixOf_iff_prefix.mp hstart)))
  | cons c s ih =>
    have hc : c ≠ nul := fun heq => hn (heq ▸ List.mem_cons_self)
    rw [List.cons_append, strstr, if_neg, if_neg hc]
    · exact ih (fun hc => hn (List.mem_cons_of_mem c hc))
        (fun hs => h (hs.trans (List.suffix_cons c s).isInfix))
    · intro hstart
      exact h (hfront (c :: s) (List.isPrefixOf_iff_prefix.mp hstart)).isInfix

/-- What `strstr` finds is the first place where the needle stands. -/
theorem strstr_eq_some {needle : CString} {p q : List Char}
    (h : strstr needle p = some (some q)) :
    ∃ u, p = u ++ q ∧ nul ∉ u ∧ needle <+: q ∧
      ∀ a b, u = a ++ b → b ≠ [] → ¬ needle <+: b ++ q := by
  induction p with
  | nil => simp [strstr] at h
  | cons c p ih =>
    rw [strstr] at h
    split at h
    · rename_i hprefix
      cases h
      refine ⟨[], rfl, List.not_mem_nil, List.isPrefixOf_iff_prefix.mp hprefix, ?_⟩
      intro a b hab hb
      exact absurd (List.append_eq_nil_iff.mp hab.symm).2 hb
    · rename_i hprefix
      split at h
      · simp at h
      · rename_i hc
        obtain ⟨u, rfl, hn, hq, hfirst⟩ := ih h
        refine ⟨c :: u, rfl, ?_, hq, ?_⟩
        · intro hmem
          rcases List.mem_cons.mp hmem with hcn | hmem
          · exact hc hcn.symm
          · exact hn hmem
        · intro a b hab hb
          cases a with
          | nil =>
            cases hab
            rw [List.isPrefixOf_iff_prefix] at hprefix
            exact hprefix
          | cons x a =>
            exact hfirst a b (List.cons.inj hab).2 hb

theorem index_eq_some {x : Char} {p q : List Char} (h : index x p = some (some q)) :
    ∃ u, p = u ++ q ∧ nul ∉ u ∧ x ∉ u ∧ ∃ rest, q = x :: rest := by
  induction p with
  | nil => simp [index] at h
  | cons c p ih =>
    rw [index] at h
    split at h
    · rename_i hc
      cases h
      exact ⟨[], rfl, List.not_mem_nil, List.not_mem_nil, p, by rw [hc]⟩
    · rename_i hc
      split at h
      · simp at h
      · rename_i hcn
        obtain ⟨u, rfl, hn, hx, hq⟩ := ih h
        refine ⟨c :: u, rfl, ?_, ?_, hq⟩
        · intro hmem
          rcases List.mem_cons.mp hmem with heq | hmem
          · exact hcn heq.symm
          · exact hn hmem
        · intro hmem
          rcases List.mem_cons.mp hmem with heq | hmem
          · exact hc heq.symm
          · exact hx hmem

end Reads

section Lines

def NoCrlf (s : CString) : Prop := ¬ crlf <:+: s

instance (s : CString) : Decidable (NoCrlf s) := inferInstanceAs (Decidable (¬ _))

theorem NoCrlf.of_isInfix {s t : CString} (h : NoCrlf t) (hs : s <:+: t) : NoCrlf s :=
  fun hc => h (hc.trans hs)

/-- A string without CRLF ends at the CRLF put after it, whatever its last
character is. -/
theorem NoCrlf.first {u : CString} (hu : NoCrlf u) (rest : List Char) (a b : CString)
    (hab : u = a ++ b) (hb : b ≠ []) : ¬ crlf <+: b ++ (crlf ++ rest) := by
  intro hprefix
  obtain ⟨c, b, rfl⟩ := List.exists_cons_of_ne_nil hb
  cases b with
  | nil =>
    simp only [crlf, List.cons_append, List.nil_append, List.cons_prefix_cons] at hprefix
    exact absurd hprefix.2.1 (by decide)
  | cons d b =>
    simp only [crlf, List.cons_append, List.cons_prefix_cons, List.nil_prefix, and_true] at hprefix
    obtain ⟨rfl, rfl⟩ := hprefix
    exact hu ⟨a, b, by rw [hab, crlf, List.append_assoc]; rfl⟩

theorem strstr_crlf {u : CString} (hu : NoCrlf u) (hn : nul ∉ u) (rest : List Char) :
    strstr crlf (u ++ (crlf ++ rest)) = some (some (crlf ++ rest)) :=
  strstr_of_append (by simp [crlf]) hn rest (hu.first rest)

end Lines

section Tokens

variable {delim : List Char}

/-- What stands after the token: nothing, or a delimiter first. -/
def Tail (delim : List Char) (tail : CString) : Prop := ∀ c ∈ tail.head?, c ∈ delim

/-- What is written over the delimiter after the token. -/
def written : CString → CString
  | [] => []
  | _ :: _ => [nul]

theorem exists_written (tail : CString) (post : List Char) :
    ∃ after, written tail ++ (tail.drop 1 ++ nul :: post) = nul :: after := by
  cases tail with
  | nil => exact ⟨post, rfl⟩
  | cons c after => exact ⟨after ++ nul :: post, rfl⟩

/-- A string is delimiters only, or has a first token. -/
theorem split_token (delim : List Char) (str : CString) :
    (∀ c ∈ str, c ∈ delim) ∨
    ∃ ds tok tail, (∀ c ∈ ds, c ∈ delim) ∧ tok ≠ [] ∧ (∀ c ∈ tok, c ∉ delim) ∧
      Tail delim tail ∧ str = ds ++ (tok ++ tail) := by
  have hstr : str = str.takeWhile (· ∈ delim) ++ str.dropWhile (· ∈ delim) :=
    List.takeWhile_append_dropWhile.symm
  have hds : ∀ c ∈ str.takeWhile (· ∈ delim), c ∈ delim := by
    intro c hc
    simpa using List.mem_takeWhile_imp hc
  by_cases hrest : str.dropWhile (· ∈ delim) = []
  · left
    rw [hrest, List.append_nil] at hstr
    rw [hstr]
    exact hds
  · right
    refine ⟨_, (str.dropWhile (· ∈ delim)).takeWhile (· ∉ delim),
      (str.dropWhile (· ∈ delim)).dropWhile (· ∉ delim), hds, ?_, ?_, ?_, ?_⟩
    · have hhead := List.head_dropWhile_not (· ∈ delim) hrest
      obtain ⟨x, rest, hx⟩ := List.exists_cons_of_ne_nil hrest
      simp only [hx, List.head_cons] at hhead
      rw [hx, List.takeWhile_cons_of_pos (by simpa using hhead)]
      exact List.cons_ne_nil _ _
    · intro c hc
      simpa using List.mem_takeWhile_imp hc
    · intro c hc
      have hne : (str.dropWhile (· ∈ delim)).dropWhile (· ∉ delim) ≠ [] := by
        intro hnil
        rw [hnil] at hc
        contradiction
      have hhead := List.head_dropWhile_not (· ∉ delim) hne
      rw [List.head?_eq_some_head hne, Option.mem_some_iff] at hc
      simpa [← hc] using hhead
    · rw [List.takeWhile_append_dropWhile]
      exact hstr

theorem strtokR_none {str : CString} (hn : nul ∉ str) (hds : ∀ c ∈ str, c ∈ delim)
    (pre post : List Char) :
    strtokR (pre ++ (str ++ nul :: post)) pre.length delim =
      some (pre ++ (str ++ nul :: post), none, pre.length + str.length) := by
  have htake : str.takeWhile (· ∈ delim) = str :=
    List.takeWhile_eq_self_iff.mpr (by simpa using hds)
  have hdrop : str.dropWhile (· ∈ delim) = [] :=
    List.dropWhile_eq_nil_iff.mpr (by simpa using hds)
  rw [strtokR, stringAt_append hn, Option.map_some]
  simp only [htake, hdrop, if_true]

/-- The first token, and the memory in the form in which the next call is made:
what is cut is in front, and the rest of the string follows. -/
theorem strtokR_some {ds tok tail : CString} (hn : nul ∉ ds ++ (tok ++ tail))
    (hds : ∀ c ∈ ds, c ∈ delim) (htok : tok ≠ []) (hnot : ∀ c ∈ tok, c ∉ delim)
    (htail : Tail delim tail) (pre post : List Char) :
    strtokR (pre ++ ((ds ++ (tok ++ tail)) ++ nul :: post)) pre.length delim =
      some ((pre ++ (ds ++ (tok ++ written tail))) ++ (tail.drop 1 ++ nul :: post),
        some (pre ++ ds).length, (pre ++ (ds ++ (tok ++ written tail))).length) := by
  have htake : (ds ++ (tok ++ tail)).takeWhile (· ∈ delim) = ds := by
    obtain ⟨c, tok, rfl⟩ := List.exists_cons_of_ne_nil htok
    have hc : c ∉ delim := hnot c List.mem_cons_self
    rw [List.takeWhile_append_of_pos (by simpa using hds), List.cons_append,
      List.takeWhile_cons_of_neg (by simpa using hc), List.append_nil]
  have hdrop : (ds ++ (tok ++ tail)).dropWhile (· ∈ delim) = tok ++ tail := by
    obtain ⟨c, tok, rfl⟩ := List.exists_cons_of_ne_nil htok
    have hc : c ∉ delim := hnot c List.mem_cons_self
    rw [List.dropWhile_append_of_pos (by simpa using hds), List.cons_append,
      List.dropWhile_cons_of_neg (by simpa using hc)]
  have htakeTail : tail.takeWhile (· ∉ delim) = [] := by
    cases tail with
    | nil => rfl
    | cons c tail => exact List.takeWhile_cons_of_neg (by simpa using htail c rfl)
  have hdropTail : tail.dropWhile (· ∉ delim) = tail := by
    cases tail with
    | nil => rfl
    | cons c tail => exact List.dropWhile_cons_of_neg (by simpa using htail c rfl)
  have htake' : (tok ++ tail).takeWhile (· ∉ delim) = tok := by
    rw [List.takeWhile_append_of_pos (by simpa using hnot), htakeTail, List.append_nil]
  have hdrop' : (tok ++ tail).dropWhile (· ∉ delim) = tail := by
    rw [List.dropWhile_append_of_pos (by simpa using hnot), hdropTail]
  rw [strtokR, stringAt_append hn, Option.map_some]
  simp only [htake, hdrop, htake', hdrop', List.append_eq_nil_iff, htok, false_and, if_false,
    List.length_append]
  cases tail with
  | nil => simp [written, Nat.add_assoc]
  | cons c after =>
    have hset : (pre ++ ((ds ++ (tok ++ c :: after)) ++ nul :: post)).set
        (pre.length + ds.length + tok.length) nul =
        (pre ++ (ds ++ (tok ++ written (c :: after)))) ++ (after ++ nul :: post) := by
      simp only [List.append_assoc]
      rw [List.set_append_right _ _ (by omega), List.set_append_right _ _ (by omega),
        List.set_append_right _ _ (by omega)]
      have hzero : pre.length + ds.length + tok.length - pre.length - ds.length - tok.length =
          0 := by
        omega
      rw [hzero, List.cons_append, List.set_cons_zero]
      rfl
    simp only [reduceCtorEq, if_false, hset, List.drop_succ_cons, List.drop_zero, written,
      List.length_cons, List.length_nil]
    simp only [Nat.add_assoc, Nat.zero_add]

theorem stringAt_token {tok : CString} (hn : nul ∉ tok) (pre ds tail : CString)
    (post : List Char) :
    stringAt ((pre ++ (ds ++ (tok ++ written tail))) ++ (tail.drop 1 ++ nul :: post))
      (pre ++ ds).length = some tok := by
  obtain ⟨after, hafter⟩ := exists_written tail post
  have hmem : (pre ++ (ds ++ (tok ++ written tail))) ++ (tail.drop 1 ++ nul :: post) =
      (pre ++ ds) ++ (tok ++ nul :: after) := by
    rw [← hafter]
    simp only [List.append_assoc]
  rw [hmem, stringAt_append hn]

/-- Past the end of the memory nothing can be read. -/
theorem stringAt_length (mem : List Char) : stringAt mem mem.length = none := by
  simp [stringAt, cstring]

/-- Without a delimiter the whole string is the token. -/
theorem strtokR_rest {str : CString} (hn : nul ∉ str) (hnot : ∀ c ∈ str, c ∉ delim)
    (pre post : List Char) :
    strtokR (pre ++ (str ++ nul :: post)) pre.length delim =
      some (pre ++ (str ++ nul :: post), if str = [] then none else some pre.length,
        pre.length + str.length) := by
  by_cases hstr : str = []
  · subst hstr
    exact strtokR_none hn (by simp) pre post
  · have hsome := @strtokR_some delim [] str [] (by simpa using hn) (by simp) hstr hnot
      (by simp [Tail]) pre post
    simp only [List.nil_append, List.append_nil, written, List.drop_nil] at hsome
    rw [hsome, if_neg hstr]
    simp only [List.append_assoc, List.length_append]

end Tokens

end CStrings

end ProxyServer
