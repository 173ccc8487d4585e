import ProxyServer.ForwardedHeaders
import ProxyServer.HeaderColons

/-!
Header lines that are each read on their own. By the law a request is accepted
when every header line has a colon, and the table then lists the names and
values of the lines, the last one of each name. The parser looks for the colon
beyond the line and skips two characters behind it, so the law holds on the
blocks that are rejected for want of a last colon, and on those whose every line
has a colon, with a blank behind it where the name does not come again.
-/
namespace ProxyServer.HeaderLaw

open CStrings ParseError ParsedRequest ParsedHeader OrderedTable ForwardedHeaders

structure IsField (l : CString) : Prop where
  nonempty : l ≠ []
  noCr : '\r' ∉ l
  noLf : '\n' ∉ l
  noNul : nul ∉ l

theorem noCrlf_of_noCr {s : CString} (h : '\r' ∉ s) : NoCrlf s :=
  fun hcrlf => h (hcrlf.subset (by decide))

theorem IsField.isLine {l : CString} (h : IsField l) : IsLine l :=
  ⟨h.nonempty, noCrlf_of_noCr h.noCr⟩

/-- A request line, header lines and the blank line. -/
def request (line : CString) (lines : List CString) : CString := line ++ (crlf ++ block lines)

def LawHolds (line : CString) (lines : List CString) (errnoEinval : Bool) : Prop :=
  ((∃ pr, parse create (request line lines) errnoEinval = .ok pr) ↔ ∀ l ∈ lines, ':' ∈ l) ∧
    ∀ pr, parse create (request line lines) errnoEinval = .ok pr →
      pr.live = lastOfEach (lines.map headerOf)

/-- A line whose name comes in no later line is a name, a colon, a blank and a
value. -/
def SpacedLast (lines : List CString) : Prop :=
  ∀ front l back, lines = front ++ l :: back → (headerOf l).1 ∉ keys (back.map headerOf) →
    IsHeaderLine l

theorem spacedLast_cons {l : CString} {lines : List CString} :
    SpacedLast (l :: lines) ↔
      ((headerOf l).1 ∉ keys (lines.map headerOf) → IsHeaderLine l) ∧ SpacedLast lines := by
  constructor
  · intro h
    refine ⟨h [] l lines rfl, ?_⟩
    intro front u back hsplit
    exact h (l :: front) u back (by rw [hsplit, List.cons_append])
  · intro h front u back hsplit
    cases front with
    | nil =>
      cases hsplit
      exact h.1
    | cons v front => exact h.2 front u back (List.cons.inj hsplit).2

section Lines

variable {name after : CString}

theorem dropBlank_of_ne {c : Char} (hc : c ≠ ' ') (v : CString) : dropBlank (c :: v) = c :: v := by
  unfold dropBlank
  split
  · rename_i heq
    exact absurd (List.cons.inj heq).1 hc
  · rfl

/-- A line with a colon is of the full form when a blank follows it. -/
theorem isHeaderLine_append (hname : ':' ∉ name) (after : CString) :
    IsHeaderLine (name ++ ':' :: after) ↔ after.head? = some ' ' := by
  rw [IsHeaderLine, headerOf_append hname, headerLine]
  have hform : name ++ ": ".toList ++ dropBlank after = name ++ ':' :: ' ' :: dropBlank after := by
    simp
  dsimp only
  rw [hform, List.append_cancel_left_eq, List.cons_inj_right]
  cases after with
  | nil => simp
  | cons c v =>
    by_cases hc : c = ' '
    · subst hc
      exact iff_of_true rfl rfl
    · rw [dropBlank_of_ne hc]
      refine iff_of_false ?_ ?_
      · intro heq
        have hlen := congrArg List.length heq
        simp at hlen
      · simpa using hc

/-- The header that the parser takes from a line with a colon has the name of the
line, and its value when the line is of the full form. -/
theorem header_eq {l : CString} (hl : IsField l) (hcolon : ':' ∈ l) {lines : List CString}
    {key value : CString} (h : HeaderText (block (l :: lines)) key value) :
    key = (headerOf l).1 ∧ (value = (headerOf l).2 ↔ IsHeaderLine l) := by
  obtain ⟨name, after, rfl, hname⟩ := List.eq_append_cons_of_mem hcolon
  have hblock : block ((name ++ ':' :: after) :: lines) =
      name ++ ':' :: (after ++ (crlf ++ block lines)) := by
    rw [block_cons]
    simp
  have hkey : key = name := h.key_unique hname hblock
  obtain ⟨_, hvalue, c, rest, htext⟩ := h
  rw [hblock, hkey, List.append_cancel_left_eq, List.cons_inj_right] at htext
  rw [headerOf_append hname, isHeaderLine_append hname]
  refine ⟨hkey, ?_⟩
  cases after with
  | nil =>
    obtain ⟨rfl, hlf⟩ : c = '\r' ∧ value ++ (crlf ++ rest) = '\n' :: block lines := by
      simpa [crlf, eq_comm] using htext
    refine iff_of_false ?_ (by simp)
    rintro rfl
    have hhead := (List.cons.inj hlf).1
    contradiction
  | cons d v =>
    obtain ⟨rfl, htail⟩ := List.cons.inj htext
    have hv : NoCrlf v := noCrlf_of_noCr (fun hc => hl.noCr (by simp [hc]))
    obtain rfl := (first_crlf_unique hv hvalue htail).1
    by_cases hd : d = ' '
    · subst hd
      exact iff_of_true rfl rfl
    · rw [dropBlank_of_ne hd]
      refine iff_of_false ?_ (by simpa using hd)
      intro heq
      have hlen := congrArg List.length heq
      simp at hlen

/-- Where every line has a colon, the table is that of the lines exactly when
the lines that count are of the full form. -/
theorem ofSets_eq_iff {lines : List CString} {sets : List (CString × CString)}
    (h : HeaderSets lines sets) (hlines : ∀ l ∈ lines, IsField l) (hcolon : ∀ l ∈ lines, ':' ∈ l) :
    keys sets = keys (lines.map headerOf) ∧
      (ofSets sets = ofSets (lines.map headerOf) ↔ SpacedLast lines) := by
  induction h with
  | nil =>
    refine ⟨rfl, iff_of_true rfl ?_⟩
    intro front l back hsplit
    simp at hsplit
  | cons header rest ih =>
    rename_i l lines key value sets
    obtain ⟨hkey, hvalue⟩ := header_eq (hlines l List.mem_cons_self) (hcolon l List.mem_cons_self)
      header
    obtain ⟨hkeys, hrest⟩ := ih (fun u hu => hlines u (List.mem_cons_of_mem _ hu))
      (fun u hu => hcolon u (List.mem_cons_of_mem _ hu))
    rw [List.map_cons, keys_cons, keys_cons, hkeys, hkey, ofSets_cons, ofSets_cons, hkeys,
      spacedLast_cons]
    refine ⟨rfl, ?_⟩
    dsimp only
    by_cases hmem : (headerOf l).1 ∈ keys (lines.map headerOf)
    · rw [if_pos hmem, if_pos hmem, hrest]
      simp [hmem]
    · rw [if_neg hmem, if_neg hmem, List.cons.injEq, Prod.ext_iff, hrest, ← hvalue]
      simp [hmem]

end Lines

section Requests

variable {t : RequestText} {errnoEinval : Bool} {lines : List CString}

theorem nul_notMem_block (hlines : ∀ l ∈ lines, IsField l) : nul ∉ block lines := by
  induction lines with
  | nil => decide
  | cons l lines ih =>
    rw [block_cons]
    simp only [List.mem_append, not_or]
    exact ⟨(hlines l List.mem_cons_self).noNul, by decide,
      ih (fun u hu => hlines u (List.mem_cons_of_mem _ hu))⟩

theorem nul_notMem_request (h : t.Shape) (hlines : ∀ l ∈ lines, IsField l) :
    nul ∉ request t.text lines := by
  rw [request]
  simp only [List.mem_append, not_or]
  exact ⟨h.noNul, by decide, nul_notMem_block hlines⟩

/-- With a colon in the last line the request is accepted. -/
theorem parse_request_ok (h : t.Accepted errnoEinval) (hcrlf : NoCrlf t.text)
    (hlines : ∀ l ∈ lines, IsField l) (hlen : (request t.text lines).length ≤ 65535)
    {sets : List (CString × CString)} (hsets : HeaderSets lines sets) :
    ∃ pr, parse create (request t.text lines) errnoEinval = .ok pr ∧ pr.live = ofSets sets := by
  have hn := nul_notMem_request h.shape hlines
  obtain ⟨pr, hparse, _, hlive⟩ := parse_block_sets hcrlf (fun l hl => (hlines l hl).isLine) hn []
    (by rwa [List.append_nil]) (parseRequestLine_text h) hsets
  rw [List.append_nil] at hparse
  exact ⟨pr, hparse, hlive⟩

theorem parse_request_isRejected (h : t.Accepted errnoEinval) (hcrlf : NoCrlf t.text)
    (hlines : ∀ l ∈ lines, IsField l) (hlen : (request t.text lines).length ≤ 65535)
    (hlast : ¬ LastHasColon lines) :
    IsRejected (parse create (request t.text lines) errnoEinval) := by
  have hn := nul_notMem_request h.shape hlines
  have hisLine : ∀ l ∈ lines, IsLine l := fun l hl => (hlines l hl).isLine
  have hparse := parse_block hcrlf hn [] (by rwa [List.append_nil]) errnoEinval
  rw [List.append_nil, parseRequestLine_text h, ok_bind] at hparse
  rw [request, hparse]
  apply isRejected_parseHeaders (by simp) (by simp) lines _ _ hisLine (nul_notMem_block hlines)
    hlast
  have hblock := length_block lines hisLine
  simp only [List.length_append]
  omega

/-- The law holds behind a valid request line exactly when the last line has no
colon, or all have one and the lines that count are of the full form. -/
theorem law_holds_iff (h : t.Accepted errnoEinval) (hcrlf : NoCrlf t.text)
    (hlines : ∀ l ∈ lines, IsField l) (hlen : (request t.text lines).length ≤ 65535) :
    LawHolds t.text lines errnoEinval ↔
      ¬ LastHasColon lines ∨ ((∀ l ∈ lines, ':' ∈ l) ∧ SpacedLast lines) := by
  by_cases hlast : LastHasColon lines
  · obtain ⟨sets, hsets⟩ := exists_headerSets hlast
    obtain ⟨pr, hparse, hlive⟩ := parse_request_ok h hcrlf hlines hlen hsets
    constructor
    · rintro ⟨haccepted, htable⟩
      have hcolon := haccepted.mp ⟨pr, hparse⟩
      refine Or.inr ⟨hcolon, (ofSets_eq_iff hsets hlines hcolon).2.mp ?_⟩
      rw [← hlive, htable pr hparse, ofSets_eq_lastOfEach]
    · intro hcond
      obtain ⟨hcolon, hspaced⟩ := hcond.resolve_left (not_not_intro hlast)
      refine ⟨iff_of_true ⟨pr, hparse⟩ hcolon, ?_⟩
      intro pr' hparse'
      obtain rfl : pr = pr' := Except.ok.inj (hparse.symm.trans hparse')
      rw [hlive, (ofSets_eq_iff hsets hlines hcolon).2.mpr hspaced, ofSets_eq_lastOfEach]
  · obtain ⟨debug, hrejected⟩ := parse_request_isRejected h hcrlf hlines hlen hlast
    have hnot : ∀ pr, parse create (request t.text lines) errnoEinval ≠ .ok pr := by
      intro pr hparse
      rw [hrejected] at hparse
      contradiction
    refine iff_of_true ⟨iff_of_false ?_ ?_, ?_⟩ (Or.inl hlast)
    · rintro ⟨pr, hparse⟩
      exact hnot pr hparse
    · intro hcolon
      exact hlast (fun l hl => hcolon l (List.mem_of_getLast? hl))
    · exact fun pr hparse => absurd hparse (hnot pr)

end Requests

/-- The first line has no blank behind its colon, but its name comes again. -/
theorem law_holds_iff_one :
    LawHolds "GET http://h/ HTTP/1.0".toList ["A:b".toList, "Host: x:y".toList, "A: c d".toList]
      false := by
  obtain ⟨t, haccepted, htext, _⟩ := parseRequestLine_ok (by decide)
    (by decide : parseRequestLine "GET http://h/ HTTP/1.0".toList false =
      .ok ⟨"GET".toList, "http".toList, "h".toList, none, "/".toList, "HTTP/1.0".toList⟩)
  have hfields : ∀ l ∈ ["A:b".toList, "Host: x:y".toList, "A: c d".toList], IsField l := by
    intro l hl
    simp only [List.mem_cons, List.not_mem_nil, or_false] at hl
    rcases hl with rfl | rfl | rfl <;> exact ⟨by decide, by decide, by decide, by decide⟩
  have hspaced : SpacedLast ["A:b".toList, "Host: x:y".toList, "A: c d".toList] := by
    rw [spacedLast_cons, spacedLast_cons, spacedLast_cons]
    exact ⟨by decide, by decide, by decide, fun front l back hsplit => by simp at hsplit⟩
  rw [htext]
  apply (law_holds_iff haccepted (htext ▸ by decide) hfields (htext ▸ by decide)).mpr
  exact Or.inr ⟨by decide, hspaced⟩

/-- The value of a line without a blank behind its colon loses its first
character. -/
theorem value_loses_character :
    ¬ LawHolds "GET http://h/ HTTP/1.0".toList ["A:bc".toList] false := by
  rintro ⟨_, htable⟩
  have hparse : parse create (request "GET http://h/ HTTP/1.0".toList ["A:bc".toList]) false =
      .ok ⟨some ⟨"GET".toList, "http".toList, "h".toList, none, "/".toList, "HTTP/1.0".toList⟩,
        [⟨some "A".toList, "c".toList⟩], 8⟩ := by decide
  have hlive := htable _ hparse
  contradiction

end ProxyServer.HeaderLaw
