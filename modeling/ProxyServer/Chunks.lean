import Mathlib.Data.List.Infix
import Mathlib.Data.List.TakeWhile

/-!
A stream received in chunks. Of a chunk the receiver keeps what stands before
the first element that it does not keep, and it stops once its text is done.
Where the stream starts with a text that is done, and no shorter one is, the
receiver gets that text and what it keeps of the rest of the last chunk, and
each text of this kind is received for some cut.
-/
namespace ProxyServer.Chunks

variable {α : Type*}

/-- A stream cut into chunks of one to `n` elements. -/
structure IsCut (n : ℕ) (stream : List α) (chunks : List (List α)) : Prop where
  flatten : chunks.flatten = stream
  size : ∀ chunk ∈ chunks, 1 ≤ chunk.length ∧ chunk.length ≤ n

/-- The text when the receiver stops. -/
def collect (done : List α → Prop) [DecidablePred done] (keep : α → Bool) (text : List α) :
    List (List α) → List α
  | [] => text
  | chunk :: chunks =>
      if done text then text else collect done keep (text ++ chunk.takeWhile keep) chunks

/-- The text is done with its last element, and whatever follows it. -/
structure FirstDone (done : List α → Prop) (keep : α → Bool) (head : List α) : Prop where
  kept : ∀ a ∈ head, keep a = true
  stays : ∀ more, done (head ++ more)
  first : ∀ front, front <+: head → done front → front = head

theorem FirstDone.not_done {done : List α → Prop} {keep : α → Bool} {head front back : List α}
    (h : FirstDone done keep head) (hhead : head = front ++ back) (hback : back ≠ []) :
    ¬ done front := by
  intro hdone
  have heq := h.first front ⟨back, hhead.symm⟩ hdone
  rw [hhead] at heq
  exact hback (List.append_right_eq_self.mp heq.symm)

section Collect

variable {done : List α → Prop} [DecidablePred done] {keep : α → Bool}

theorem collect_of_done {text : List α} (h : done text) (chunks : List (List α)) :
    collect done keep text chunks = text := by
  cases chunks with
  | nil => rfl
  | cons chunk chunks => exact if_pos h

theorem collect_of_not_done {text : List α} (h : ¬ done text) (chunk : List α)
    (chunks : List (List α)) : collect done keep text (chunk :: chunks) =
      collect done keep (text ++ chunk.takeWhile keep) chunks := if_neg h

theorem prefix_collect (chunks : List (List α)) :
    ∀ text, text <+: collect done keep text chunks := by
  induction chunks with
  | nil => exact fun text => List.prefix_refl text
  | cons chunk chunks ih =>
    intro text
    unfold collect
    split
    · exact List.prefix_refl text
    · exact (List.prefix_append text _).trans (ih _)

theorem takeWhile_prefix_append (more rest : List α) :
    more.takeWhile keep <+: (more ++ rest).takeWhile keep := by
  rw [List.takeWhile_append]
  split
  · exact (List.takeWhile_prefix keep).trans (List.prefix_append more _)
  · exact List.prefix_refl _

theorem kept_collect (chunks : List (List α)) :
    ∀ text, (∀ a ∈ text, keep a = true) → ∀ a ∈ collect done keep text chunks, keep a = true := by
  induction chunks with
  | nil => exact fun _ htext => htext
  | cons chunk chunks ih =>
    intro text htext
    unfold collect
    split
    · exact htext
    · apply ih
      intro a ha
      rcases List.mem_append.mp ha with ha | ha
      · exact htext a ha
      · exact List.mem_takeWhile_imp ha

/-- The text received is the head and what is kept of the rest of its chunk. -/
theorem exists_collect_eq {n : ℕ} {head rest : List α} (h : FirstDone done keep head)
    (chunks : List (List α)) :
    ∀ front back, head = front ++ back → back ≠ [] → IsCut n (back ++ rest) chunks →
      ∃ more, more <+: rest.takeWhile keep ∧ more.length < n ∧
        collect done keep front chunks = head ++ more := by
  induction chunks with
  | nil =>
    intro front back _ hback hcut
    exact absurd (List.append_eq_nil_iff.mp hcut.flatten.symm).1 hback
  | cons chunk chunks ih =>
    intro front back hhead hback hcut
    obtain ⟨hpos, hsize⟩ := hcut.size chunk List.mem_cons_self
    have hkept : ∀ a ∈ back, keep a = true := fun a ha => h.kept a (hhead ▸ by simp [ha])
    rw [collect_of_not_done (h.not_done hhead hback)]
    have hflatten := hcut.flatten
    rw [List.flatten_cons] at hflatten
    rcases List.append_eq_append_iff.mp hflatten with ⟨back', hback', hrest⟩ | ⟨more, hmore, hrest⟩
    · have htake : chunk.takeWhile keep = chunk :=
        List.takeWhile_eq_self_iff.mpr (fun a ha => hkept a (hback' ▸ List.mem_append_left _ ha))
      rw [htake]
      by_cases hnil : back' = []
      · rw [hnil, List.append_nil] at hback'
        refine ⟨[], List.nil_prefix, by simpa using by omega, ?_⟩
        have hdone := h.stays []
        rw [List.append_nil] at hdone ⊢
        rw [← hback', ← hhead]
        exact collect_of_done hdone chunks
      · exact ih (front ++ chunk) back' (by rw [hhead, hback', List.append_assoc]) hnil
          ⟨hrest, fun c hc => hcut.size c (List.mem_cons_of_mem chunk hc)⟩
    · refine ⟨more.takeWhile keep, ?_, ?_, ?_⟩
      · rw [hrest]
        exact takeWhile_prefix_append more _
      · have hle := (List.takeWhile_sublist keep : (more.takeWhile keep).Sublist more).length_le
        have hback1 := List.length_pos_of_ne_nil hback
        rw [hmore, List.length_append] at hsize
        omega
      · rw [hmore, List.takeWhile_append_of_pos hkept, ← List.append_assoc, ← hhead]
        exact collect_of_done (h.stays _) chunks

theorem exists_cut {n : ℕ} {head rest more : List α} (h : FirstDone done keep head)
    (hmore : more <+: rest.takeWhile keep) (hlen : more.length < n) (back : List α) :
    ∀ front, head = front ++ back → back ≠ [] → ∃ chunks, IsCut n (back ++ rest) chunks ∧
      collect done keep front chunks = head ++ more := by
  induction back with
  | nil => exact fun _ _ hback => absurd rfl hback
  | cons a back ih =>
    intro front hhead hback
    have ha : keep a = true := h.kept a (hhead ▸ by simp)
    have hnot := h.not_done hhead hback
    by_cases hnil : back = []
    · subst hnil
      obtain ⟨tail, htail⟩ := hmore.trans (List.takeWhile_prefix keep)
      refine ⟨(a :: more) :: tail.map (fun b => [b]), ⟨?_, ?_⟩, ?_⟩
      · have hsingles : (tail.map (fun b => [b])).flatten = tail := by
          rw [← List.flatMap_def, List.flatMap_singleton']
        rw [List.flatten_cons, hsingles, List.cons_append, htail]
        rfl
      · intro chunk hchunk
        rcases List.mem_cons.mp hchunk with rfl | hchunk
        · exact ⟨by simp, hlen⟩
        · obtain ⟨b, _, rfl⟩ := List.mem_map.mp hchunk
          exact ⟨le_refl 1, by rw [List.length_singleton]; omega⟩
      · have hkept : ∀ b ∈ a :: more, keep b = true := by
          intro b hb
          rcases List.mem_cons.mp hb with rfl | hb
          · exact ha
          · exact List.mem_takeWhile_imp (hmore.subset hb)
        rw [collect_of_not_done hnot, List.takeWhile_eq_self_iff.mpr hkept]
        have htext : front ++ a :: more = head ++ more := by
          rw [hhead]
          simp
        rw [htext]
        exact collect_of_done (h.stays more) _
    · obtain ⟨chunks, hcut, hcollect⟩ := ih (front ++ [a]) (by rw [hhead]; simp) hnil
      refine ⟨[a] :: chunks, ⟨by simp [hcut.flatten], ?_⟩, ?_⟩
      · intro chunk hchunk
        rcases List.mem_cons.mp hchunk with rfl | hchunk
        · exact ⟨le_refl 1, by rw [List.length_singleton]; omega⟩
        · exact hcut.size chunk hchunk
      · rw [collect_of_not_done hnot, List.takeWhile_cons_of_pos ha, List.takeWhile_nil]
        exact hcollect

/-- What is kept in front of the first element not kept is received, as long as
no part of it is done. -/
theorem prefix_collect_of_never {front tail : List α} (hkept : ∀ a ∈ front, keep a = true)
    (hnever : ∀ text, text <+: front → ¬ done text) (chunks : List (List α)) :
    ∀ text back, front = text ++ back → chunks.flatten = back ++ tail →
      front <+: collect done keep text chunks := by
  induction chunks with
  | nil =>
    intro text back hfront hflatten
    rw [(List.append_eq_nil_iff.mp hflatten.symm).1, List.append_nil] at hfront
    rw [hfront]
    exact List.prefix_refl text
  | cons chunk chunks ih =>
    intro text back hfront hflatten
    rw [collect_of_not_done (hnever text ⟨back, hfront.symm⟩)]
    rw [List.flatten_cons] at hflatten
    rcases List.append_eq_append_iff.mp hflatten with ⟨back', rfl, hrest⟩ | ⟨more, rfl, _⟩
    · have htake : chunk.takeWhile keep = chunk :=
        List.takeWhile_eq_self_iff.mpr (fun a ha => hkept a (hfront ▸ by simp [ha]))
      rw [htake]
      exact ih (text ++ chunk) back' (by rw [hfront, List.append_assoc]) hrest
    · have htake : (back ++ more).takeWhile keep = back ++ more.takeWhile keep :=
        List.takeWhile_append_of_pos (fun a ha => hkept a (hfront ▸ by simp [ha]))
      rw [htake, ← List.append_assoc, ← hfront]
      exact (List.prefix_append front _).trans (prefix_collect chunks _)

/-- When nothing behind it is kept, nothing more is received. -/
theorem collect_eq_of_never {front tail : List α} (hkept : ∀ a ∈ front, keep a = true)
    (hnever : ∀ text, text <+: front → ¬ done text) (htail : ∀ a ∈ tail, keep a = false)
    (chunks : List (List α)) :
    ∀ text back, front = text ++ back → chunks.flatten = back ++ tail →
      collect done keep text chunks = front := by
  induction chunks generalizing tail with
  | nil =>
    intro text back hfront hflatten
    rw [hfront, (List.append_eq_nil_iff.mp hflatten.symm).1, List.append_nil]
    rfl
  | cons chunk chunks ih =>
    intro text back hfront hflatten
    rw [collect_of_not_done (hnever text ⟨back, hfront.symm⟩)]
    rw [List.flatten_cons] at hflatten
    rcases List.append_eq_append_iff.mp hflatten with ⟨back', rfl, hrest⟩ | ⟨more, rfl, rfl⟩
    · have htake : chunk.takeWhile keep = chunk :=
        List.takeWhile_eq_self_iff.mpr (fun a ha => hkept a (hfront ▸ by simp [ha]))
      rw [htake]
      exact ih htail (text ++ chunk) back' (by rw [hfront, List.append_assoc]) hrest
    · have htake : (back ++ more).takeWhile keep = back := by
        rw [List.takeWhile_append_of_pos (fun a ha => hkept a (hfront ▸ by simp [ha]))]
        cases more with
        | nil => simp
        | cons a more =>
          have ha : keep a = false := htail a (by simp)
          rw [List.takeWhile_cons_of_neg (by simp [ha]), List.append_nil]
      rw [htake, ← hfront]
      exact ih (fun a ha => htail a (List.mem_append_right more ha)) front [] (by simp) rfl

end Collect

end ProxyServer.Chunks
