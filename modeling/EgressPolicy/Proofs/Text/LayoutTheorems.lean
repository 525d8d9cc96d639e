import EgressPolicy.Proofs.Text.PieceTheorems

/-!
The layout of a list of texts.

A list of texts can be laid out with blanks around each of them and blank entries among them
(`IsPadded`), or as one text with a separator between two entries (`IsMixed`). What counts is what
is left when every entry is stripped and the empty ones are dropped (`cleaned`), and of that no
layout changes anything: neither padding (`cleaned_of_isPadded`) nor cutting a text into its pieces
(`cleaned_splitOnP_of_isMixed`), even where the blanks hold separators themselves.
-/

namespace EgressPolicy.Text

/-! ## What is left of a list -/

/-- The texts of a list, stripped, without those of which nothing is left. -/
def cleaned (texts : List (List Char)) : List (List Char) :=
  (texts.map strip).filter (· ≠ [])

theorem cleaned_append (texts more : List (List Char)) :
    cleaned (texts ++ more) = cleaned texts ++ cleaned more := by
  rw [cleaned, List.map_append, List.filter_append]
  rfl

theorem cleaned_cons (cs : List Char) (texts : List (List Char)) :
    cleaned (cs :: texts) = cleaned [cs] ++ cleaned texts :=
  cleaned_append [cs] texts

/-- Nothing is left of blanks. -/
theorem cleaned_singleton_of_forall {cs : List Char} (h : ∀ c ∈ cs, isBlank c = true) :
    cleaned [cs] = [] := by
  rw [cleaned, List.map_singleton, (strip_eq_nil_iff cs).mpr h]
  rfl

theorem cleaned_singleton_congr {cs ds : List Char} (h : strip cs = strip ds) :
    cleaned [cs] = cleaned [ds] := by
  rw [cleaned, cleaned, List.map_singleton, List.map_singleton, h]

/-- What is left is left of itself. -/
theorem cleaned_cleaned (texts : List (List Char)) : cleaned (cleaned texts) = cleaned texts := by
  have hsame : ∀ cs ∈ cleaned texts, strip cs = id cs := by
    intro cs hcs
    obtain ⟨text, -, rfl⟩ := List.mem_map.mp (List.mem_of_mem_filter hcs)
    exact strip_strip text
  have hkept : ∀ cs ∈ cleaned texts, decide (cs ≠ []) = true := fun cs hcs =>
    (List.mem_filter.mp hcs).2
  show ((cleaned texts).map strip).filter _ = _
  rw [List.map_congr_left hsame, List.map_id, List.filter_eq_self.mpr hkept]

/-! ## Padded lists -/

/-- A text, and the same text with blanks around it. -/
def IsPaddedText (cs padded : List Char) : Prop :=
  ∃ before after, padded = before ++ (cs ++ after) ∧ (∀ c ∈ before, isBlank c = true) ∧
    ∀ c ∈ after, isBlank c = true

theorem strip_of_isPaddedText {cs padded : List Char} (h : IsPaddedText cs padded) :
    strip padded = strip cs := by
  obtain ⟨before, after, rfl, hbefore, hafter⟩ := h
  rw [strip_append_left hbefore, strip_append_right hafter]

/-- A list of texts, and the same list with blanks around any of them and blank entries anywhere. -/
inductive IsPadded : List (List Char) → List (List Char) → Prop where
  | nil : IsPadded [] []
  | padded {cs entry : List Char} {texts entries : List (List Char)} (hentry : IsPaddedText cs entry)
    (h : IsPadded texts entries) : IsPadded (cs :: texts) (entry :: entries)
  | blank {entry : List Char} {texts entries : List (List Char)}
    (hentry : ∀ c ∈ entry, isBlank c = true) (h : IsPadded texts entries) :
    IsPadded texts (entry :: entries)

/-- **Padding** changes nothing that is left. -/
theorem cleaned_of_isPadded {texts entries : List (List Char)} (h : IsPadded texts entries) :
    cleaned entries = cleaned texts := by
  induction h with
  | nil => rfl
  | padded hentry _ ih =>
    rw [cleaned_cons, ih, cleaned_singleton_congr (strip_of_isPaddedText hentry), ← cleaned_cons]
  | blank hentry _ ih => rw [cleaned_cons, ih, cleaned_singleton_of_forall hentry, List.nil_append]

/-! ## Lists in one text -/

section Mixed

variable {p : Char → Bool}

/-- Entries, of which some may hold separators, and the text in which there is one separator between
two of them, be it always the same or not. -/
inductive IsMixed (p : Char → Bool) : List (List Char) → List Char → Prop where
  | last {entry : List Char} : IsMixed p [entry] entry
  | more {entry : List Char} {separator : Char} {entries : List (List Char)} {cs : List Char}
    (hseparator : p separator = true) (h : IsMixed p entries cs) :
    IsMixed p (entry :: entries) (entry ++ separator :: cs)

/-- The pieces of such a text are those of its entries. -/
theorem splitOnP_of_isMixed {entries : List (List Char)} {cs : List Char}
    (h : IsMixed p entries cs) : cs.splitOnP p = entries.flatMap (List.splitOnP p) := by
  induction h with
  | last => rw [List.flatMap_singleton]
  | more hseparator _ ih => rw [List.splitOnP_append_cons _ _ hseparator, ih, List.flatMap_cons]

/-- Blanks in front of a text leave nothing, be there separators among them or not. -/
theorem cleaned_splitOnP_append_left {before : List Char} (h : ∀ c ∈ before, isBlank c = true)
    (cs : List Char) : cleaned ((before ++ cs).splitOnP p) = cleaned (cs.splitOnP p) := by
  induction before with
  | nil => rfl
  | cons c rest ih =>
    rw [List.forall_mem_cons] at h
    have hblank : ∀ d ∈ [c], isBlank d = true := List.forall_mem_singleton.mpr h.1
    rw [List.cons_append, List.splitOnP_cons_eq_if_modifyHead]
    cases p c with
    | true => exact ih h.2
    | false =>
      have hhead := map_strip_modifyHead (f := (c :: ·)) (strip_append_left hblank)
        ((rest ++ cs).splitOnP p)
      rw [← ih h.2, cleaned, cleaned]
      exact congrArg _ hhead

/-- Blanks behind a text without separators leave the text alone, be there separators among them or
not. -/
theorem cleaned_splitOnP_append_right {after : List Char} (h : ∀ c ∈ after, isBlank c = true) :
    ∀ {cs : List Char}, (∀ c ∈ cs, p c = false) →
      cleaned ((cs ++ after).splitOnP p) = cleaned [cs] := by
  induction after with
  | nil =>
    intro cs hcs
    rw [List.append_nil, List.splitOnP_eq_singleton hcs]
  | cons c rest ih =>
    intro cs hcs
    rw [List.forall_mem_cons] at h
    cases hc : p c with
    | true =>
      -- The text ends here, and all that follows is blank.
      have hrest : cleaned (rest.splitOnP p) = cleaned [[]] := @ih h.2 [] nofun
      rw [List.splitOnP_append_cons _ _ hc, List.splitOnP_eq_singleton hcs, cleaned_append, hrest]
      exact List.append_nil _
    | false =>
      have hmore : ∀ d ∈ cs ++ [c], p d = false :=
        List.forall_mem_append.mpr ⟨hcs, List.forall_mem_singleton.mpr hc⟩
      have hstrip := strip_append_right (List.forall_mem_singleton.mpr h.1 : ∀ d ∈ [c], _) cs
      rw [← List.singleton_append, ← List.append_assoc, ih h.2 hmore,
        cleaned_singleton_congr hstrip]

/-- The entries of a padded list leave what the list leaves, even when they are cut. -/
theorem cleaned_flatMap_splitOnP {texts entries : List (List Char)} (h : IsPadded texts entries)
    (hplain : ∀ cs ∈ texts, ∀ c ∈ cs, p c = false) :
    cleaned (entries.flatMap (List.splitOnP p)) = cleaned texts := by
  induction h with
  | nil => rfl
  | padded hentry _ ih =>
    rw [List.forall_mem_cons] at hplain
    obtain ⟨before, after, rfl, hbefore, hafter⟩ := hentry
    rw [List.flatMap_cons, cleaned_append, ih hplain.2, cleaned_splitOnP_append_left hbefore,
      cleaned_splitOnP_append_right hafter hplain.1, ← cleaned_cons]
  | @blank entry _ _ hentry _ ih =>
    have hnone := cleaned_splitOnP_append_left (p := p) hentry []
    rw [List.append_nil] at hnone
    rw [List.flatMap_cons, cleaned_append, ih hplain, hnone]
    rfl

/-- **One text.** The pieces of a text of padded entries leave what the list leaves. -/
theorem cleaned_splitOnP_of_isMixed {texts entries : List (List Char)} {cs : List Char}
    (hentries : IsPadded texts entries) (hplain : ∀ cs ∈ texts, ∀ c ∈ cs, p c = false)
    (h : IsMixed p entries cs) : cleaned (cs.splitOnP p) = cleaned texts := by
  rw [splitOnP_of_isMixed h, cleaned_flatMap_splitOnP hentries hplain]

end Mixed

end EgressPolicy.Text
