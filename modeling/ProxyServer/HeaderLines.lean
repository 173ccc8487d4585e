import ProxyServer.ProxyParse
import ProxyServer.CrlfLines

/-!
The header loop on a block of lines. A line's key runs up to the first colon
from its start on, which may stand in a later line; its value runs from the
second character after that colon up to the next CRLF. So a key that spans
lines is followed by the keys its later lines start with, and printing a header
with such a key gives lines that set these keys again.
-/
namespace ProxyServer

open CStrings ParseError

namespace ParsedHeader

/-- The header that a text starts with. -/
def HeaderText (text key value : CString) : Prop :=
  ':' ∉ key ∧ NoCrlf value ∧ ∃ c rest, text = key ++ ':' :: c :: (value ++ (crlf ++ rest))

/-- The headers that the lines of a block set, one for each line. -/
inductive HeaderSets : List CString → List (CString × CString) → Prop
  | nil : HeaderSets [] []
  | cons {l : CString} {lines : List CString} {key value : CString}
      {sets : List (CString × CString)} (header : HeaderText (block (l :: lines)) key value)
      (rest : HeaderSets lines sets) : HeaderSets (l :: lines) ((key, value) :: sets)

theorem parse_headerText {text key value : CString} (h : HeaderText text key value)
    (hn : nul ∉ text) (pr : ParsedRequest) (post : List Char) :
    parse pr (text ++ nul :: post) = .ok (set pr key value) := by
  obtain ⟨hkey, hvalue, c, rest, rfl⟩ := h
  have hnKey : nul ∉ key := fun hc => hn (by simp [hc])
  have hnValue : nul ∉ value := fun hc => hn (by simp [hc])
  have hmem : (key ++ ':' :: c :: (value ++ (crlf ++ rest))) ++ nul :: post =
      key ++ ':' :: (c :: (value ++ (crlf ++ (rest ++ nul :: post)))) := by simp
  have hindex := index_of_append hkey hnKey (c :: (value ++ (crlf ++ (rest ++ nul :: post))))
  have hstrstr := strstr_crlf hvalue hnValue (rest ++ nul :: post)
  have htakeKey : (key ++ ':' :: (c :: (value ++ (crlf ++ (rest ++ nul :: post))))).take
      ((key ++ ':' :: (c :: (value ++ (crlf ++ (rest ++ nul :: post))))).length -
        (':' :: (c :: (value ++ (crlf ++ (rest ++ nul :: post))))).length) = key := by
    rw [List.length_append, Nat.add_sub_cancel, List.take_left]
  have htakeValue : (value ++ (crlf ++ (rest ++ nul :: post))).take
      ((value ++ (crlf ++ (rest ++ nul :: post))).length -
        (crlf ++ (rest ++ nul :: post)).length) = value := by
    rw [List.length_append, Nat.add_sub_cancel, List.take_left]
  rw [parse, hmem]
  simp only [hindex, orUndefined_some, orRejected_some, ok_bind, List.drop_succ_cons,
    List.drop_zero, hstrstr, htakeKey, htakeValue]
  rfl

theorem HeaderText.append {text key value : CString} (h : HeaderText text key value)
    (body : CString) : HeaderText (text ++ body) key value := by
  obtain ⟨hkey, hvalue, c, rest, rfl⟩ := h
  exact ⟨hkey, hvalue, c, rest ++ body, by simp⟩

theorem parse_no_colon {text : CString} (h : ':' ∉ text) (hn : nul ∉ text) (pr : ParsedRequest)
    (post : List Char) :
    parse pr (text ++ nul :: post) = .error (.rejected "No colon found\n") := by
  rw [parse, index_none (by decide) h hn]
  rfl

/-- A text that goes on with a blank line after its colon has a header. -/
theorem exists_headerText {text rest : CString} (h : ':' ∈ text) :
    ∃ key value, HeaderText (text ++ (crlf ++ (crlf ++ rest))) key value := by
  obtain ⟨key, after, rfl, hkey⟩ := List.eq_append_cons_of_mem h
  have hfirst : ∃ c after', after ++ (crlf ++ (crlf ++ rest)) = c :: after' ∧ crlf <:+: after' := by
    cases after with
    | nil => exact ⟨'\r', '\n' :: (crlf ++ rest), rfl, ['\n'], rest, by simp⟩
    | cons c after => exact ⟨c, _, rfl, after, crlf ++ rest, by simp⟩
  obtain ⟨c, after', heq, hcrlf⟩ := hfirst
  obtain ⟨value, rest', rfl, hvalue⟩ := exists_first_crlf hcrlf
  refine ⟨key, value, hkey, hvalue, c, rest', ?_⟩
  rw [List.append_assoc, List.cons_append, heq]

theorem exists_header_block {l : CString} {lines : List CString}
    (h : ':' ∈ block (l :: lines)) : ∃ key value, HeaderText (block (l :: lines)) key value := by
  obtain ⟨text, htext⟩ := exists_block_eq l lines
  rw [htext] at h ⊢
  apply exists_headerText
  simpa [crlf] using h

end ParsedHeader

namespace ParsedRequest

open ParsedHeader

theorem IsLine.not_prefix {l : CString} (h : IsLine l) (rest : List Char) :
    ¬ crlf <+: l ++ (crlf ++ rest) := h.noCrlf.first rest [] l rfl h.nonempty

theorem parseHeaders_line {l : CString} (hl : IsLine l) {lines : List CString}
    (hn : nul ∉ block (l :: lines)) (body post : CString) (hbody : nul ∉ body)
    (pr : ParsedRequest) (fuel : ℕ) :
    parseHeaders (fuel + 1) pr (block (l :: lines) ++ (body ++ nul :: post)) =
      (ParsedHeader.parse pr (block (l :: lines) ++ (body ++ nul :: post)) >>= fun pr =>
        parseHeaders fuel pr (block lines ++ (body ++ nul :: post))) := by
  obtain ⟨c, l', rfl⟩ := List.exists_cons_of_ne_nil hl.nonempty
  rw [block_cons] at hn ⊢
  have hnLine : nul ∉ c :: l' := fun hc => hn (List.mem_append_left _ hc)
  have hnLines : nul ∉ block lines := fun hc => hn (by simp [hc])
  have hc : c ≠ nul := fun h => hnLine (h ▸ List.mem_cons_self)
  have hassoc : ((c :: l') ++ (crlf ++ block lines)) ++ (body ++ nul :: post) =
      (c :: l') ++ (crlf ++ (block lines ++ (body ++ nul :: post))) := by simp
  have hstrstr := strstr_crlf hl.noCrlf hnLine (block lines ++ (body ++ nul :: post))
  have hcstring : cstring (crlf ++ (block lines ++ (body ++ nul :: post))) =
      some (crlf ++ (block lines ++ body)) := by
    have hmem : crlf ++ (block lines ++ (body ++ nul :: post)) =
        (crlf ++ (block lines ++ body)) ++ nul :: post := by simp
    rw [hmem]
    apply cstring_append
    intro hcn
    simp only [List.mem_append] at hcn
    rcases hcn with hcn | hcn | hcn
    · exact absurd hcn (by decide)
    · exact hnLines hcn
    · exact hbody hcn
  have hlong : ¬ (crlf ++ (block lines ++ body)).length < 2 := by
    simp [crlf]
  rw [hassoc, parseHeaders, if_neg (by simp), if_neg (by simpa using hc), if_neg]
  · simp only [hstrstr, orUndefined_some, ok_bind, hcstring, if_neg hlong]
    rfl
  · rw [List.isPrefixOf_iff_prefix]
    exact IsLine.not_prefix hl _

theorem parseHeaders_blank (pr : ParsedRequest) (rest : List Char) (fuel : ℕ) :
    parseHeaders (fuel + 1) pr (block [] ++ rest) = .ok pr := by
  have hhead : (crlf ++ rest).head? ≠ some nul := by
    simp only [crlf, List.cons_append, List.head?_cons, ne_eq, Option.some.injEq]
    decide
  rw [block_nil, parseHeaders, if_neg (by simp [crlf]), if_neg hhead, if_pos]
  rw [List.isPrefixOf_iff_prefix]
  exact List.prefix_append crlf rest

/-- On a block whose lines have headers, the loop sets one for each line. -/
theorem parseHeaders_sets {lines : List CString} {sets : List (CString × CString)}
    (h : HeaderSets lines sets) :
    ∀ (pr : ParsedRequest) (fuel : ℕ) (body post : CString), (∀ l ∈ lines, IsLine l) →
      nul ∉ block lines → nul ∉ body → lines.length < fuel →
      parseHeaders fuel pr (block lines ++ (body ++ nul :: post)) = .ok (setAll pr sets) := by
  induction h with
  | nil =>
    intro pr fuel body post _ _ _ hfuel
    obtain ⟨fuel, rfl⟩ := Nat.exists_eq_succ_of_ne_zero (by omega : fuel ≠ 0)
    exact parseHeaders_blank pr (body ++ nul :: post) fuel
  | cons header rest ih =>
    rename_i l lines key value sets
    intro pr fuel body post hlines hn hbody hfuel
    rw [List.length_cons] at hfuel
    obtain ⟨fuel, rfl⟩ := Nat.exists_eq_succ_of_ne_zero (by omega : fuel ≠ 0)
    have hturn := parseHeaders_line (hlines l List.mem_cons_self) hn body post hbody pr fuel
    have hnRest : nul ∉ block lines := fun hc => hn (by rw [block_cons]; simp [hc])
    have hnText : nul ∉ block (l :: lines) ++ body := by
      rw [List.mem_append, not_or]
      exact ⟨hn, hbody⟩
    have hheader := parse_headerText (header.append body) hnText pr post
    rw [List.append_assoc] at hheader
    rw [hturn, hheader, ok_bind]
    exact ih (set pr key value) fuel body post (fun u hu => hlines u (List.mem_cons_of_mem _ hu))
      hnRest hbody (by omega)

/-- Where the loop accepts a block that ends the text, each line has a header. -/
theorem headerSets_of_parseHeaders (lines : List CString) :
    ∀ (pr pr' : ParsedRequest) (fuel : ℕ), (∀ l ∈ lines, IsLine l) → nul ∉ block lines →
      parseHeaders fuel pr (block lines ++ [nul]) = .ok pr' →
      ∃ sets, HeaderSets lines sets ∧ pr' = setAll pr sets := by
  induction lines with
  | nil =>
    intro pr pr' fuel _ _ h
    cases fuel with
    | zero => contradiction
    | succ fuel =>
      rw [parseHeaders_blank] at h
      exact ⟨[], .nil, (Except.ok.inj h).symm⟩
  | cons l lines ih =>
    intro pr pr' fuel hlines hn h
    cases fuel with
    | zero => contradiction
    | succ fuel =>
      have hturn := parseHeaders_line (hlines l List.mem_cons_self) hn [] [] (by simp) pr fuel
      have hnRest : nul ∉ block lines := fun hc => hn (by rw [block_cons]; simp [hc])
      simp only [List.nil_append] at hturn
      rw [hturn] at h
      by_cases hcolon : ':' ∈ block (l :: lines)
      · obtain ⟨key, value, hheader⟩ := exists_header_block hcolon
        rw [parse_headerText hheader hn, ok_bind] at h
        obtain ⟨sets, hsets, hpr⟩ := ih (set pr key value) pr' fuel
          (fun u hu => hlines u (List.mem_cons_of_mem _ hu)) hnRest h
        exact ⟨(key, value) :: sets, .cons hheader hsets, hpr⟩
      · rw [parse_no_colon hcolon hn, error_bind] at h
        contradiction

end ParsedRequest

namespace ParsedHeader

open OrderedTable

def nextKey : CString → Option CString
  | [] => none
  | c :: key => if crlf.isPrefixOf (c :: key) then some (key.drop 1) else nextKey key

/-- What follows the CRLFs of a key, one after the other. -/
def laterKeys : CString → List CString
  | [] => []
  | c :: key => if crlf.isPrefixOf (c :: key) then key.drop 1 :: laterKeys key else laterKeys key

theorem nextKey_of_noCrlf {key : CString} (h : NoCrlf key) : nextKey key = none := by
  induction key with
  | nil => rfl
  | cons c key ih =>
    rw [noCrlf_cons] at h
    rw [nextKey, if_neg (by rw [List.isPrefixOf_iff_prefix]; exact h.1), ih h.2]

theorem nextKey_append {u : CString} (h : NoCrlf u) (key : CString) :
    nextKey (u ++ (crlf ++ key)) = some key := by
  induction u with
  | nil => simp [crlf, nextKey]
  | cons c u ih =>
    have hnot := h.first key [] (c :: u) rfl (List.cons_ne_nil c u)
    rw [List.cons_append] at hnot ⊢
    rw [nextKey, if_neg (by rw [List.isPrefixOf_iff_prefix]; exact hnot),
      ih (noCrlf_cons.mp h).2]

theorem laterKeys_of_noCrlf {key : CString} (h : NoCrlf key) : laterKeys key = [] := by
  induction key with
  | nil => rfl
  | cons c key ih =>
    rw [noCrlf_cons] at h
    rw [laterKeys, if_neg (by rw [List.isPrefixOf_iff_prefix]; exact h.1), ih h.2]

theorem laterKeys_append {u : CString} (h : NoCrlf u) (key : CString) :
    laterKeys (u ++ (crlf ++ key)) = key :: laterKeys key := by
  induction u with
  | nil =>
    have hnl : laterKeys ('\n' :: key) = laterKeys key := by
      rw [laterKeys, if_neg (by simp [crlf])]
    simp only [crlf, List.nil_append, List.cons_append] at hnl ⊢
    rw [laterKeys, if_pos (by simp [crlf]), hnl]
    rfl
  | cons c u ih =>
    have hnot := h.first key [] (c :: u) rfl (List.cons_ne_nil c u)
    rw [List.cons_append] at hnot ⊢
    rw [laterKeys, if_neg (by rw [List.isPrefixOf_iff_prefix]; exact hnot),
      ih (noCrlf_cons.mp h).2]

/-- The key of a line is determined by the text from there on. -/
theorem HeaderText.key_unique {text key value : CString} (h : HeaderText text key value)
    {key' after : CString} (hkey' : ':' ∉ key') (htext : text = key' ++ ':' :: after) :
    key = key' := by
  obtain ⟨hkey, _, c, rest, hsplit⟩ := h
  rw [hsplit] at htext
  exact (append_cons_unique hkey hkey' htext).1

/-- A key that spans lines is followed by the key of the next line. -/
theorem HeaderSets.linked {lines : List CString} {sets : List (CString × CString)}
    (h : HeaderSets lines sets) (hlines : ∀ l ∈ lines, IsLine l) : Linked nextKey sets := by
  induction h with
  | nil => trivial
  | cons header rest ih =>
    rename_i l lines key value sets
    refine ⟨?_, ih (fun u hu => hlines u (List.mem_cons_of_mem _ hu))⟩
    intro key' hkey'
    obtain ⟨hcolon, _, c, tail, htext⟩ := header
    rcases infix_or_noCrlf key with hcrlf | hnot
    · obtain ⟨u, v, rfl, hu⟩ := exists_first_crlf hcrlf
      rw [nextKey_append hu, Option.some.injEq] at hkey'
      subst hkey'
      have hl := (hlines l List.mem_cons_self).noCrlf
      rw [block_cons, List.append_assoc, List.append_assoc] at htext
      obtain ⟨rfl, hblock⟩ := first_crlf_unique hl hu htext
      cases rest with
      | nil =>
        have hmem : ':' ∈ block [] := by
          rw [hblock]
          simp
        exact absurd hmem (by decide)
      | cons header' rest' =>
        rw [header'.key_unique (fun hc => hcolon (by simp [hc])) hblock]
        exact List.mem_cons_self
    · rw [nextKey_of_noCrlf hnot] at hkey'
      contradiction

/-- In a linked table all later keys of a key are keys of later entries. -/
theorem laterKeys_mem (n : ℕ) : ∀ {table : List (CString × CString)}, Linked nextKey table →
    ∀ s e r, table = s ++ e :: r → e.1.length ≤ n → ∀ key ∈ laterKeys e.1, key ∈ keys r := by
  have htail : ∀ (s : List (CString × CString)) {t : List (CString × CString)},
      Linked nextKey (s ++ t) → Linked nextKey t := by
    intro s
    induction s with
    | nil => exact fun h => h
    | cons e s ih => exact fun h => ih h.2
  induction n with
  | zero =>
    intro table _ s e r _ hlen key hkey
    rw [List.length_eq_zero_iff.mp (Nat.le_zero.mp hlen)] at hkey
    simp [laterKeys] at hkey
  | succ n ih =>
    intro table h s e r htable hlen key hkey
    subst htable
    have hlinked := htail s h
    rcases infix_or_noCrlf e.1 with hcrlf | hnot
    · obtain ⟨u, v, huv, hu⟩ := exists_first_crlf hcrlf
      have hv : v ∈ keys r := hlinked.1 v (by rw [huv, nextKey_append hu])
      rw [huv, laterKeys_append hu] at hkey
      rcases List.mem_cons.mp hkey with rfl | hkey
      · exact hv
      · obtain ⟨e', he', rfl⟩ := List.mem_map.mp hv
        obtain ⟨s', r', rfl⟩ := List.append_of_mem he'
        have hlen' : e'.1.length ≤ n := by
          rw [huv] at hlen
          simp [crlf] at hlen
          omega
        have hin := ih hlinked.2 s' e' r' rfl hlen' key hkey
        rw [keys_append, keys_cons]
        exact List.mem_append_right _ (List.mem_cons_of_mem _ hin)
    · rw [laterKeys_of_noCrlf hnot] at hkey
      simp at hkey

/-- A header as it can be printed and parsed again. -/
structure Printable (e : CString × CString) : Prop where
  noColon : ':' ∉ e.1
  noCrlf : NoCrlf e.2
  noNul : nul ∉ e.1 ∧ nul ∉ e.2

/-- What a printed header sets when it is parsed. -/
def setsOf (e : CString × CString) : List (CString × CString) :=
  e :: (laterKeys e.1).map (fun key => (key, e.2))

theorem headerText_append (e : CString × CString) (rest : CString) :
    headerText e ++ rest = e.1 ++ ':' :: ' ' :: (e.2 ++ (crlf ++ rest)) := by
  simp [headerText]

theorem exists_lines_headerText (n : ℕ) : ∀ {e : CString × CString}, e.1.length ≤ n →
    Printable e → (¬ crlf <+: e.1 ∧ ∀ key ∈ laterKeys e.1, ¬ crlf <+: key) →
    ∀ {lines : List CString} {sets : List (CString × CString)}, (∀ l ∈ lines, IsLine l) →
      HeaderSets lines sets →
      ∃ lines', (∀ l ∈ lines', IsLine l) ∧ headerText e ++ block lines = block lines' ∧
        HeaderSets lines' (setsOf e ++ sets) := by
  induction n using Nat.strong_induction_on with
  | _ n ih =>
    intro e hlen he hstart lines sets hlines hsets
    have hheader : HeaderText (headerText e ++ block lines) e.1 e.2 :=
      ⟨he.noColon, he.noCrlf, ' ', block lines, headerText_append e (block lines)⟩
    rcases infix_or_noCrlf e.1 with hcrlf | hnot
    · obtain ⟨u, v, huv, hu⟩ := exists_first_crlf hcrlf
      have hlater : laterKeys e.1 = v :: laterKeys v := by rw [huv, laterKeys_append hu]
      have he' : Printable (v, e.2) := by
        refine ⟨fun hc => he.noColon ?_, he.noCrlf, fun hc => he.noNul.1 ?_, he.noNul.2⟩
        · rw [huv]
          simp only [List.mem_append]
          exact Or.inr (Or.inr hc)
        · rw [huv]
          simp only [List.mem_append]
          exact Or.inr (Or.inr hc)
      have hstart' : ¬ crlf <+: v ∧ ∀ key ∈ laterKeys v, ¬ crlf <+: key := by
        rw [hlater] at hstart
        exact ⟨hstart.2 v List.mem_cons_self, fun key hkey =>
          hstart.2 key (List.mem_cons_of_mem _ hkey)⟩
      have hlt : v.length < n := by
        have hlenuv := congrArg List.length huv
        simp [crlf] at hlenuv
        omega
      obtain ⟨lines', hlines', htext', hsets'⟩ :=
        ih v.length hlt (le_refl _) he' hstart' hlines hsets
      have hline : IsLine u := by
        refine ⟨?_, hu⟩
        rintro rfl
        exact hstart.1 ⟨v, by rw [huv]; rfl⟩
      have htext : headerText e ++ block lines = block (u :: lines') := by
        rw [block_cons, ← htext', headerText_append, headerText_append, huv]
        simp only [List.append_assoc]
      rw [htext] at hheader ⊢
      refine ⟨u :: lines', ?_, rfl, ?_⟩
      · intro l hl
        rcases List.mem_cons.mp hl with rfl | hl
        · exact hline
        · exact hlines' l hl
      · have hsetsOf : setsOf e = e :: setsOf (v, e.2) := by
          rw [setsOf, setsOf, hlater, List.map_cons]
        rw [hsetsOf]
        exact .cons hheader hsets'
    · have hline : IsLine (e.1 ++ ':' :: ([] ++ ' ' :: e.2)) := by
        refine ⟨by simp, ?_⟩
        rw [noCrlf_append_cons (by decide) (by decide), noCrlf_append_cons (by decide) (by decide)]
        exact ⟨hnot, by decide, he.noCrlf⟩
      have htext : headerText e ++ block lines =
          block ((e.1 ++ ':' :: ([] ++ ' ' :: e.2)) :: lines) := by
        rw [headerText_append, block_cons]
        simp only [List.nil_append, List.append_assoc, List.cons_append]
      rw [htext] at hheader ⊢
      refine ⟨_, ?_, rfl, ?_⟩
      · intro l hl
        rcases List.mem_cons.mp hl with rfl | hl
        · exact hline
        · exact hlines l hl
      · have hsetsOf : setsOf e = [e] := by
          rw [setsOf, laterKeys_of_noCrlf hnot, List.map_nil]
        rw [hsetsOf]
        exact .cons hheader hsets

/-- A table of printable headers, printed, is a block whose lines set the
entries and keys of later entries. -/
theorem exists_block_headers : ∀ {table : List (CString × CString)},
    (∀ e ∈ table, Printable e) →
    (∀ e ∈ table, ¬ crlf <+: e.1 ∧ ∀ key ∈ laterKeys e.1, ¬ crlf <+: key) →
    ∃ lines, (∀ l ∈ lines, IsLine l) ∧ table.flatMap headerText ++ crlf = block lines ∧
      HeaderSets lines (table.flatMap setsOf) := by
  intro table hprintable hstart
  induction table with
  | nil => exact ⟨[], by simp, rfl, .nil⟩
  | cons e table ih =>
    obtain ⟨lines, hlines, htext, hsets⟩ := ih
      (fun e he => hprintable e (List.mem_cons_of_mem _ he))
      (fun e he => hstart e (List.mem_cons_of_mem _ he))
    obtain ⟨lines', hlines', htext', hsets'⟩ := exists_lines_headerText e.1.length (le_refl _)
      (hprintable e List.mem_cons_self) (hstart e List.mem_cons_self) hlines hsets
    refine ⟨lines', hlines', ?_, hsets'⟩
    rw [List.flatMap_cons, List.append_assoc, htext]
    exact htext'

section Sets

variable {lines : List CString} {sets : List (CString × CString)}

theorem HeaderSets.parts (h : HeaderSets lines sets) (hlines : ∀ l ∈ lines, IsLine l)
    (hn : nul ∉ block lines) : ∀ e ∈ sets, Printable e ∧ ¬ crlf <+: e.1 ∧
      e.1.length + e.2.length + 4 ≤ (block lines).length := by
  induction h with
  | nil => simp
  | cons header rest ih =>
    rename_i l lines key value sets
    have hnRest : nul ∉ block lines := fun hc => hn (by rw [block_cons]; simp [hc])
    have hrest := ih (fun u hu => hlines u (List.mem_cons_of_mem _ hu)) hnRest
    have hlen : (block lines).length ≤ (block (l :: lines)).length := by
      rw [block_cons]
      simp only [List.length_append]
      omega
    intro e he
    rcases List.mem_cons.mp he with rfl | he
    · obtain ⟨hcolon, hvalue, c, tail, htext⟩ := header
      refine ⟨⟨hcolon, hvalue, ?_, ?_⟩, ?_, ?_⟩
      · intro hc
        exact hn (by rw [htext]; exact List.mem_append_left _ hc)
      · intro hc
        rw [htext] at hn
        exact hn (by simp [hc])
      · intro hprefix
        have hl := hlines l List.mem_cons_self
        apply hl.noCrlf.first (block lines) [] l rfl hl.nonempty
        rw [← block_cons, htext]
        exact hprefix.trans (List.prefix_append _ _)
      · rw [htext]
        simp [crlf]
        omega
    · obtain ⟨hprintable, hprefix, hle⟩ := hrest e he
      exact ⟨hprintable, hprefix, hle.trans hlen⟩

/-- The table that the lines leave is printed as a block that leaves it too. -/
theorem HeaderSets.reprint (h : HeaderSets lines sets) (hlines : ∀ l ∈ lines, IsLine l)
    (hn : nul ∉ block lines) :
    ∃ lines' sets', (∀ l ∈ lines', IsLine l) ∧
      (ofSets sets).flatMap headerText ++ crlf = block lines' ∧
      HeaderSets lines' sets' ∧ ofSets sets' = ofSets sets := by
  have hlinked : Linked nextKey (ofSets sets) := Linked.ofSets nextKey (h.linked hlines)
  have hparts := h.parts hlines hn
  have hmem : ∀ e ∈ ofSets sets, e ∈ sets := by
    intro e he
    obtain ⟨s, t, rfl, _⟩ := mem_ofSets.mp he
    simp
  have hlater : ∀ s e r, ofSets sets = s ++ e :: r → ∀ key ∈ laterKeys e.1, key ∈ keys r :=
    fun s e r hsplit => laterKeys_mem e.1.length hlinked s e r hsplit (le_refl _)
  obtain ⟨lines', hlines', htext, hsets⟩ := @exists_block_headers (ofSets sets)
    (fun e he => (hparts e (hmem e he)).1) (by
      intro e he
      refine ⟨(hparts e (hmem e he)).2.1, ?_⟩
      intro key hkey
      obtain ⟨s, r, hsplit⟩ := List.append_of_mem he
      obtain ⟨x, hx, rfl⟩ := List.mem_map.mp (hlater s e r hsplit key hkey)
      exact (hparts x (hmem x (by rw [hsplit]; simp [hx]))).2.1)
  refine ⟨lines', _, hlines', htext, hsets, ?_⟩
  apply ofSets_flatMap (fun e => (laterKeys e.1).map (fun key => (key, e.2))) (nodup_ofSets sets)
  intro s e r hsplit x hx
  obtain ⟨key, hkey, rfl⟩ := List.mem_map.mp hx
  exact hlater s e r hsplit key hkey

end Sets

end ParsedHeader

end ProxyServer
