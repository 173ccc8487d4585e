import ProxyServer.HeaderLines

/-!
Header lines without a colon. A line takes the first colon that follows, on
whatever line, so the lines of a block all have headers when the last one has a
colon. When it has none, the loop rejects the block unless a colon stands behind
it, and then no line of it is rejected.
-/
namespace ProxyServer

open CStrings ParseError

namespace CStrings

/-- The last line has a colon, if there is a line. -/
def LastHasColon (lines : List CString) : Prop := ∀ l ∈ lines.getLast?, ':' ∈ l

instance (lines : List CString) : Decidable (LastHasColon lines) := by
  unfold LastHasColon
  infer_instance

theorem lastHasColon_cons {l : CString} {lines : List CString} (h : lines ≠ []) :
    LastHasColon (l :: lines) ↔ LastHasColon lines := by
  obtain ⟨l', lines', rfl⟩ := List.exists_cons_of_ne_nil h
  rw [LastHasColon, List.getLast?_cons_cons]
  rfl

theorem colon_mem_block {l : CString} {lines : List CString} (h : LastHasColon (l :: lines)) :
    ':' ∈ block (l :: lines) := by
  rw [block_cons]
  cases lines with
  | nil => exact List.mem_append_left _ (h l rfl)
  | cons l' lines =>
    have hlast := (lastHasColon_cons (List.cons_ne_nil l' lines)).mp h
    exact List.mem_append_right _ (List.mem_append_right _ (colon_mem_block hlast))

/-- When the last line has no colon, a line with one before it is not the last. -/
theorem not_lastHasColon_tail {l : CString} {lines : List CString}
    (h : ¬ LastHasColon (l :: lines)) (hblock : ':' ∈ block (l :: lines)) :
    ¬ LastHasColon lines := by
  by_cases hnil : lines = []
  · subst hnil
    rw [block_cons, block_nil] at hblock
    have hl : ':' ∈ l := by simpa [crlf] using hblock
    exact absurd (fun u hu => by cases hu; exact hl) h
  · exact mt (lastHasColon_cons hnil).mpr h

end CStrings

namespace ParsedHeader

theorem exists_headerSets {lines : List CString} (h : LastHasColon lines) :
    ∃ sets, HeaderSets lines sets := by
  induction lines with
  | nil => exact ⟨[], .nil⟩
  | cons l lines ih =>
    obtain ⟨key, value, hheader⟩ := exists_header_block (colon_mem_block h)
    have hrest : LastHasColon lines := by
      by_cases hnil : lines = []
      · rw [hnil]
        exact fun _ hl => by contradiction
      · exact (lastHasColon_cons hnil).mp h
    obtain ⟨sets, hsets⟩ := ih hrest
    exact ⟨(key, value) :: sets, .cons hheader hsets⟩

/-- A text with a colon has a header, or its value is read past the end. -/
theorem parse_of_colon {text : CString} (h : ':' ∈ text) (hn : nul ∉ text) (pr : ParsedRequest)
    (post : List Char) : ¬ IsRejected (parse pr (text ++ nul :: post)) := by
  obtain ⟨key, after, rfl, hkey⟩ := List.eq_append_cons_of_mem h
  have hindex := index_of_append hkey (fun hc => hn (List.mem_append_left _ hc))
    (after ++ nul :: post)
  rw [parse, List.append_assoc, List.cons_append, hindex]
  simp only [orUndefined_some, orRejected_some, ok_bind]
  rintro ⟨debug, hrejected⟩
  cases hstrstr : strstr crlf ((':' :: (after ++ nul :: post)).drop 2) with
  | none =>
    rw [hstrstr] at hrejected
    cases hrejected
  | some index2 =>
    cases index2 with
    | none =>
      rw [hstrstr] at hrejected
      cases hrejected
    | some index2 =>
      rw [hstrstr] at hrejected
      cases hrejected

end ParsedHeader

namespace ParsedRequest

open ParsedHeader

/-- Without a colon from the last line on, the loop rejects. -/
theorem isRejected_parseHeaders {body post : CString} (hbody : nul ∉ body)
    (hcolon : ':' ∉ body) (lines : List CString) :
    ∀ (pr : ParsedRequest) (fuel : ℕ), (∀ l ∈ lines, IsLine l) → nul ∉ block lines →
      ¬ LastHasColon lines → lines.length < fuel →
      IsRejected (parseHeaders fuel pr (block lines ++ (body ++ nul :: post))) := by
  induction lines with
  | nil =>
    intro pr fuel _ _ hlast _
    exact absurd (fun _ hl => by contradiction) hlast
  | cons l lines ih =>
    intro pr fuel hlines hn hlast hfuel
    rw [List.length_cons] at hfuel
    obtain ⟨fuel, rfl⟩ := Nat.exists_eq_succ_of_ne_zero (by omega : fuel ≠ 0)
    have hnRest : nul ∉ block lines := fun hc => hn (by rw [block_cons]; simp [hc])
    have hnText : nul ∉ block (l :: lines) ++ body := by
      rw [List.mem_append, not_or]
      exact ⟨hn, hbody⟩
    rw [parseHeaders_line (hlines l List.mem_cons_self) hn body post hbody pr fuel,
      ← List.append_assoc]
    by_cases hblock : ':' ∈ block (l :: lines)
    · obtain ⟨key, value, hheader⟩ := exists_header_block hblock
      rw [parse_headerText (hheader.append body) hnText, ok_bind]
      exact ih _ _ (fun u hu => hlines u (List.mem_cons_of_mem _ hu)) hnRest
        (not_lastHasColon_tail hlast hblock) (by omega)
    · have hnone : ':' ∉ block (l :: lines) ++ body := by
        rw [List.mem_append, not_or]
        exact ⟨hblock, hcolon⟩
      rw [parse_no_colon hnone hnText, error_bind]
      exact isRejected_rejected _

/-- With a colon behind the block no line is without one. -/
theorem parseHeaders_of_colon {body post : CString} (hbody : nul ∉ body) (hcolon : ':' ∈ body)
    (lines : List CString) :
    ∀ (pr : ParsedRequest) (fuel : ℕ), (∀ l ∈ lines, IsLine l) → nul ∉ block lines →
      ¬ IsRejected (parseHeaders fuel pr (block lines ++ (body ++ nul :: post))) := by
  induction lines with
  | nil =>
    intro pr fuel _ _
    rintro ⟨debug, hrejected⟩
    cases fuel with
    | zero => cases hrejected
    | succ fuel =>
      rw [parseHeaders_blank] at hrejected
      cases hrejected
  | cons l lines ih =>
    intro pr fuel hlines hn
    cases fuel with
    | zero =>
      rintro ⟨debug, hrejected⟩
      cases hrejected
    | succ fuel =>
      have hnRest : nul ∉ block lines := fun hc => hn (by rw [block_cons]; simp [hc])
      have hnText : nul ∉ block (l :: lines) ++ body := by
        rw [List.mem_append, not_or]
        exact ⟨hn, hbody⟩
      rw [parseHeaders_line (hlines l List.mem_cons_self) hn body post hbody pr fuel]
      have hheader := parse_of_colon (List.mem_append_right _ hcolon) hnText pr post
      rw [List.append_assoc] at hheader
      rintro ⟨debug, hrejected⟩
      cases hparse : ParsedHeader.parse pr (block (l :: lines) ++ (body ++ nul :: post)) with
      | ok pr' =>
        rw [hparse, ok_bind] at hrejected
        exact ih pr' fuel (fun u hu => hlines u (List.mem_cons_of_mem _ hu)) hnRest ⟨_, hrejected⟩
      | error e =>
        rw [hparse, error_bind] at hrejected
        rw [hparse] at hheader
        cases hrejected
        exact hheader (isRejected_rejected _)

end ParsedRequest

end ProxyServer
