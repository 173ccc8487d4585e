import ProxyServer.CStrings

/-!
Text in CRLF lines. A CRLF never overlaps another one, so the first CRLF of a
text is determined, every text splits at its CRLFs in one way, and a text that
ends at its first blank line is a block of lines that are not empty. Lines may
hold single CRs and LFs.
-/
namespace ProxyServer.CStrings

section First

theorem noCrlf_cons {c : Char} {s : CString} :
    NoCrlf (c :: s) ↔ ¬ crlf <+: c :: s ∧ NoCrlf s := by
  unfold NoCrlf
  rw [List.infix_cons_iff, not_or]

/-- A character that is no CR and no LF keeps both sides apart. -/
theorem noCrlf_append_cons {c : Char} (hr : c ≠ '\r') (hn : c ≠ '\n') {u v : CString} :
    NoCrlf (u ++ c :: v) ↔ NoCrlf u ∧ NoCrlf v := by
  induction u with
  | nil =>
    rw [List.nil_append, noCrlf_cons]
    have hstart : ¬ crlf <+: c :: v := by
      intro h
      exact hr (List.cons_prefix_cons.mp h).1.symm
    have hnil : NoCrlf [] := by decide
    simp only [hstart, not_false_eq_true, true_and, hnil]
  | cons a u ih =>
    rw [List.cons_append, noCrlf_cons, noCrlf_cons, ih, and_assoc]
    refine and_congr_left (fun _ => not_congr ?_)
    cases u with
    | nil =>
      simp only [crlf, List.nil_append, List.cons_prefix_cons, hn.symm, false_and, and_false,
        List.prefix_nil, reduceCtorEq]
    | cons b u =>
      simp only [crlf, List.cons_append, List.cons_prefix_cons, List.nil_prefix, and_true]

theorem exists_first_crlf {s : CString} (h : crlf <:+: s) :
    ∃ u v, s = u ++ (crlf ++ v) ∧ NoCrlf u := by
  induction s with
  | nil =>
    have hnil := List.infix_nil.mp h
    contradiction
  | cons c s ih =>
    by_cases hprefix : crlf <+: c :: s
    · obtain ⟨v, hv⟩ := hprefix
      exact ⟨[], v, by rw [← hv]; rfl, by decide⟩
    · obtain ⟨u, v, rfl, hu⟩ := ih ((List.infix_cons_iff.mp h).resolve_left hprefix)
      refine ⟨c :: u, v, rfl, noCrlf_cons.mpr ⟨?_, hu⟩⟩
      intro h'
      exact hprefix (h'.trans (List.prefix_append (c :: u) (crlf ++ v)))

theorem first_crlf_unique {u v x y : CString} (hu : NoCrlf u) (hv : NoCrlf v)
    (h : u ++ (crlf ++ x) = v ++ (crlf ++ y)) : u = v ∧ x = y := by
  have hbefore : ∀ {u v x y : CString}, NoCrlf v → u ++ (crlf ++ x) = v ++ (crlf ++ y) →
      v.length ≤ u.length := by
    intro u v x y hv h
    by_contra hlt
    obtain ⟨b, rfl⟩ : u <+: v :=
      List.prefix_of_prefix_length_le ⟨_, h⟩ (List.prefix_append _ _) (by omega)
    have hb : b ≠ [] := by
      rintro rfl
      simp at hlt
    apply hv.first y u b rfl hb
    rw [List.append_assoc, List.append_cancel_left_eq] at h
    rw [← h]
    exact List.prefix_append crlf x
  have hlen : u.length = v.length := le_antisymm (hbefore hu h.symm) (hbefore hv h)
  obtain ⟨huv, hrest⟩ := List.append_inj h hlen
  exact ⟨huv, List.append_cancel_left hrest⟩

theorem infix_or_noCrlf (s : CString) : crlf <:+: s ∨ NoCrlf s := em _

end First

section Blocks

/-- Lines, each with its CRLF, and a blank line. -/
def block (lines : List CString) : CString := lines.flatMap (· ++ crlf) ++ crlf

@[simp] theorem block_nil : block [] = crlf := rfl

theorem block_cons (l : CString) (lines : List CString) :
    block (l :: lines) = l ++ (crlf ++ block lines) := by
  simp [block]

theorem exists_block_eq (l : CString) (lines : List CString) :
    ∃ text, block (l :: lines) = text ++ (crlf ++ (crlf ++ [])) := by
  rcases List.eq_nil_or_concat lines with rfl | ⟨front, u, rfl⟩
  · exact ⟨l, by rw [block_cons, block_nil]; simp⟩
  · exact ⟨l ++ (crlf ++ (front.flatMap (· ++ crlf) ++ u)), by simp [block]⟩

structure IsLine (l : CString) : Prop where
  nonempty : l ≠ []
  noCrlf : NoCrlf l

/-- The text ends at its first blank line. -/
def EndsAtBlank (s : CString) : Prop :=
  crlf ++ crlf <:+ s ∧ ∀ a b, s = a ++ ((crlf ++ crlf) ++ b) → b = []

theorem endsAtBlank_of_dropLast {s : CString} (hsuffix : crlf ++ crlf <:+ s)
    (hfirst : ¬ crlf ++ crlf <:+: s.dropLast) : EndsAtBlank s := by
  refine ⟨hsuffix, ?_⟩
  intro a b hs
  by_contra hb
  apply hfirst
  rw [hs, List.dropLast_append_of_ne_nil (by simp [hb]), List.dropLast_append_of_ne_nil hb]
  exact ⟨a, b.dropLast, by simp⟩

/-- The part of a text up to its first blank line. -/
theorem exists_endsAtBlank (s : CString) (h : crlf ++ crlf <:+: s) :
    ∃ head rest, s = head ++ rest ∧ EndsAtBlank head := by
  induction s using List.reverseRecOn with
  | nil => simp [crlf] at h
  | append_singleton s c ih =>
    by_cases hbefore : crlf ++ crlf <:+: s
    · obtain ⟨head, rest, rfl, hend⟩ := ih hbefore
      exact ⟨head, rest ++ [c], by rw [List.append_assoc], hend⟩
    · refine ⟨s ++ [c], [], by rw [List.append_nil], endsAtBlank_of_dropLast ?_ ?_⟩
      · obtain ⟨a, b, hab⟩ := h
        rcases List.eq_nil_or_concat b with rfl | ⟨b, d, rfl⟩
        · exact ⟨a, by rw [← hab, List.append_nil]⟩
        · rw [List.concat_eq_append, ← List.append_assoc] at hab
          exact absurd ⟨a, b, (List.append_inj' hab rfl).1⟩ hbefore
      · rwa [List.dropLast_concat]

/-- Every text is a sequence of lines and an unfinished line. -/
theorem exists_lines (s : CString) : ∃ (lines : List CString) (l : CString),
    s = lines.flatMap (· ++ crlf) ++ l ∧ (∀ u ∈ lines, NoCrlf u) ∧ NoCrlf l := by
  induction hlen : s.length using Nat.strong_induction_on generalizing s with
  | _ n ih =>
    rcases infix_or_noCrlf s with hcrlf | hnot
    · obtain ⟨u, v, rfl, hu⟩ := exists_first_crlf hcrlf
      obtain ⟨lines, l, rfl, hlines, hl⟩ := ih v.length (by simp [crlf] at hlen; omega) v rfl
      refine ⟨u :: lines, l, by simp, ?_, hl⟩
      intro w hw
      rcases List.mem_cons.mp hw with rfl | hw
      · exact hu
      · exact hlines w hw
    · exact ⟨[], s, rfl, by simp, hnot⟩

/-- Where the text ends with CRLF the unfinished line is empty. -/
theorem eq_nil_of_crlf_suffix {lines : List CString} {l : CString} (hl : NoCrlf l)
    (h : crlf <:+ lines.flatMap (· ++ crlf) ++ l) : l = [] := by
  by_contra hne
  obtain ⟨x, c, rfl⟩ := (List.eq_nil_or_concat l).resolve_left hne
  rw [List.concat_eq_append] at h hl
  obtain ⟨a, ha⟩ := h
  have hsplit : (a ++ ['\r']) ++ ['\n'] = (lines.flatMap (· ++ crlf) ++ x) ++ [c] := by
    rw [List.append_assoc, List.append_assoc, ← ha]
    rfl
  obtain ⟨hfront, hlast⟩ := List.append_inj' hsplit rfl
  rcases List.eq_nil_or_concat x with rfl | ⟨y, d, rfl⟩
  · rcases List.eq_nil_or_concat lines with rfl | ⟨before, u, rfl⟩
    · simp at hfront
    · have hend : (a ++ ['\r']) = (before.flatMap (· ++ crlf) ++ u ++ ['\r']) ++ ['\n'] := by
        rw [hfront]
        simp [crlf]
      have hcr := (List.append_inj' hend rfl).2
      simp at hcr
  · rw [List.concat_eq_append, ← List.append_assoc] at hfront
    have hd := (List.append_inj' hfront rfl).2
    apply hl
    refine ⟨y, [], ?_⟩
    rw [List.concat_eq_append, ← hd, ← hlast]
    simp [crlf]

/-- What follows a line end in `flatMap` starts with the end of the line
before. -/
theorem crlf_suffix (lines : List CString) : crlf <:+ crlf ++ lines.flatMap (· ++ crlf) := by
  rcases List.eq_nil_or_concat lines with rfl | ⟨before, u, rfl⟩
  · exact ⟨[], rfl⟩
  · exact ⟨crlf ++ (before.flatMap (· ++ crlf) ++ u), by simp⟩

/-- A text that ends at its first blank line is a first line and a block of
lines that are not empty. -/
theorem EndsAtBlank.exists_block {s : CString} (h : EndsAtBlank s) :
    ∃ (l : CString) (lines : List CString), s = l ++ (crlf ++ block lines) ∧ NoCrlf l ∧
      ∀ u ∈ lines, IsLine u := by
  obtain ⟨⟨a, ha⟩, honly⟩ := h
  obtain ⟨lines, l, rfl, hlines, hl⟩ := exists_lines s
  obtain rfl : l = [] := by
    apply eq_nil_of_crlf_suffix hl
    exact ⟨a ++ crlf, by rw [← ha, List.append_assoc]⟩
  rw [List.append_nil] at ha honly
  rcases List.eq_nil_or_concat lines with rfl | ⟨front, z, rfl⟩
  · simp [crlf] at ha
  · rw [List.concat_eq_append] at ha honly hlines
    have hz : z = [] := by
      have hsplit : (a ++ crlf) ++ crlf = (front.flatMap (· ++ crlf) ++ z) ++ crlf := by
        rw [List.append_assoc, ha]
        simp
      have hsuffix : crlf <:+ front.flatMap (· ++ crlf) ++ z :=
        ⟨a, List.append_cancel_right hsplit⟩
      exact eq_nil_of_crlf_suffix (hlines z (by simp)) hsuffix
    subst hz
    cases front with
    | nil =>
      simp only [List.nil_append, List.flatMap_cons, List.flatMap_nil, List.append_nil] at ha
      have hlen := congrArg List.length ha
      simp [crlf] at hlen
    | cons first front =>
      refine ⟨first, front, ?_, hlines first (by simp), ?_⟩
      · simp [block]
      · intro u hu
        refine ⟨?_, hlines u (by simp [hu])⟩
        rintro rfl
        obtain ⟨before, after, rfl⟩ := List.append_of_mem hu
        obtain ⟨x, hx⟩ := crlf_suffix before
        have hblank := honly (first ++ x) (after.flatMap (· ++ crlf) ++ crlf) (by
          simp only [List.flatMap_append, List.flatMap_cons, List.cons_append, List.nil_append,
            List.append_assoc, List.flatMap_nil, List.append_nil]
          rw [← List.append_assoc x, hx]
          simp only [List.append_assoc])
        simp [crlf] at hblank

end Blocks

section Splitting

def splitCrlf : CString → List CString
  | [] => [[]]
  | '\r' :: '\n' :: s => [] :: splitCrlf s
  | c :: s => (splitCrlf s).modifyHead (c :: ·)

theorem splitCrlf_cons {c : Char} {s : CString} (h : ¬ crlf <+: c :: s) :
    splitCrlf (c :: s) = (splitCrlf s).modifyHead (c :: ·) := by
  apply splitCrlf.eq_3
  intro v hc hs
  apply h
  rw [hc, hs]
  exact List.prefix_append crlf v

theorem splitCrlf_append {u : CString} (hu : NoCrlf u) (v : CString) :
    splitCrlf (u ++ (crlf ++ v)) = u :: splitCrlf v := by
  induction u with
  | nil => rfl
  | cons c u ih =>
    have hstart := hu.first v [] (c :: u) rfl (List.cons_ne_nil c u)
    rw [List.cons_append] at hstart ⊢
    rw [splitCrlf_cons hstart, ih (noCrlf_cons.mp hu).2]
    rfl

theorem splitCrlf_block {lines : List CString} (hlines : ∀ l ∈ lines, NoCrlf l) (body : CString) :
    splitCrlf (block lines ++ body) = lines ++ [] :: splitCrlf body := by
  induction lines with
  | nil => rfl
  | cons l lines ih =>
    rw [block_cons, List.append_assoc, List.append_assoc,
      splitCrlf_append (hlines l List.mem_cons_self),
      ih (fun u hu => hlines u (List.mem_cons_of_mem _ hu)), List.cons_append]

end Splitting

end ProxyServer.CStrings
