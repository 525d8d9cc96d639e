import EgressPolicy.Proofs.Text.BlankTheorems

/-!
Blanks around the pieces of a text.

A text is its stripped form with blanks on both sides (`exists_blanks_around`), and blanks on either
side never change what stripping leaves. Where no blank separates, the blanks around a whole text
are blanks around its first and its last piece, so whether the text is stripped before it is cut or
not, the stripped pieces are the same (`map_strip_splitOnP_strip`).
-/

namespace EgressPolicy.Text

/-! ## Blanks on the outside -/

theorem strip_append_left {before : List Char} (h : ∀ c ∈ before, isBlank c = true)
    (cs : List Char) : strip (before ++ cs) = strip cs := by
  rw [strip, List.dropWhile_append_of_pos h, ← strip]

theorem strip_append_right {after : List Char} (h : ∀ c ∈ after, isBlank c = true)
    (cs : List Char) : strip (cs ++ after) = strip cs := by
  cases hcs : cs.dropWhile isBlank with
  | nil =>
    have hall := dropWhile_isBlank_eq_nil_iff.mp hcs
    rw [strip_append_left hall, (strip_eq_nil_iff after).mpr h, (strip_eq_nil_iff cs).mpr hall]
  | cons c rest =>
    have hreverse : ∀ c ∈ after.reverse, isBlank c = true := by
      simpa only [List.mem_reverse] using h
    simp only [strip, List.dropWhile_append, hcs, List.isEmpty_cons, Bool.false_eq_true, if_false,
      List.reverse_append, List.dropWhile_append_of_pos hreverse]

/-- What is stripped is a run of blanks on each side. -/
theorem exists_blanks_around (cs : List Char) :
    ∃ before after, cs = before ++ (strip cs ++ after) ∧
      (∀ c ∈ before, isBlank c = true) ∧ ∀ c ∈ after, isBlank c = true := by
  have hfront := List.takeWhile_append_dropWhile (p := isBlank) (l := cs)
  have hback := List.takeWhile_append_dropWhile (p := isBlank)
    (l := (cs.dropWhile isBlank).reverse)
  refine ⟨cs.takeWhile isBlank, ((cs.dropWhile isBlank).reverse.takeWhile isBlank).reverse,
    ?_, fun c hc => List.mem_takeWhile_imp hc, fun c hc => ?_⟩
  · rw [strip, ← List.reverse_append, hback, List.reverse_reverse, hfront]
  · exact List.mem_takeWhile_imp (List.mem_reverse.mp hc)

/-- Stripping only takes away. -/
theorem mem_of_mem_strip {c : Char} {cs : List Char} (h : c ∈ strip cs) : c ∈ cs := by
  obtain ⟨before, after, hcs, -⟩ := exists_blanks_around cs
  rw [hcs]
  exact List.mem_append_right _ (List.mem_append_left _ h)

/-- There is nothing to strip where no blank is at an end. -/
theorem strip_of_ends {cs : List Char} (hhead : ∀ c ∈ cs.head?, isBlank c = false)
    (hlast : ∀ c ∈ cs.getLast?, isBlank c = false) : strip cs = cs := by
  have hnone : ∀ run : List Char, (∀ c ∈ run.head?, isBlank c = false) →
      run.dropWhile isBlank = run := by
    intro run hrun
    cases run with
    | nil => rfl
    | cons c rest => exact List.dropWhile_cons_of_neg (by simp [hrun c rfl])
  rw [← List.head?_reverse] at hlast
  rw [strip, hnone cs hhead, hnone cs.reverse hlast, List.reverse_reverse]

/-- There is nothing to strip where nothing is blank. -/
theorem strip_of_forall {cs : List Char} (h : ∀ c ∈ cs, isBlank c = false) : strip cs = cs :=
  strip_of_ends (fun c hc => h c (List.mem_of_mem_head? hc))
    fun c hc => h c (List.mem_of_mem_getLast? hc)

/-! ## Texts without blanks at their ends -/

/-- A text in which there is something, with no blank at either end. -/
structure IsTrimmed (s : String) : Prop where
  ne_empty : s ≠ ""
  head : ∀ c ∈ s.toList.head?, isBlank c = false
  last : ∀ c ∈ s.toList.getLast?, isBlank c = false

/-- What is left of a text that is not blank. -/
theorem isTrimmed_trim {s : String} (h : trim s ≠ "") : IsTrimmed (trim s) := by
  refine ⟨h, fun c hc => ?_, fun c hc => ?_⟩
  · have hhead := List.head?_dropWhile_not isBlank (strip s.toList)
    rw [dropWhile_isBlank_strip] at hhead
    rw [toList_trim] at hc
    rw [Option.mem_def.mp hc] at hhead
    simpa using hhead
  · have hlast := List.head?_dropWhile_not isBlank (s.toList.dropWhile isBlank).reverse
    rw [toList_trim, strip, List.getLast?_reverse] at hc
    rw [Option.mem_def.mp hc] at hlast
    simpa using hlast

/-! ## Pieces -/

section Pieces

variable {p : Char → Bool} {run : List Char}

/-- A run without separators before a text stands before its first piece. -/
theorem splitOnP_append_left (h : ∀ c ∈ run, p c = false) (cs : List Char) :
    (run ++ cs).splitOnP p = (cs.splitOnP p).modifyHead (run ++ ·) := by
  induction run with
  | nil =>
    rw [List.nil_append]
    cases cs.splitOnP p <;> rfl
  | cons c rest ih =>
    rw [List.forall_mem_cons] at h
    rw [List.cons_append, List.splitOnP_cons_eq_if_modifyHead, h.1, ih h.2,
      List.modifyHead_modifyHead]
    rfl

/-- A run without separators after a text stands after its last piece. -/
theorem splitOnP_append_right (h : ∀ c ∈ run, p c = false) (cs : List Char) :
    ∃ front last, cs.splitOnP p = front ++ [last] ∧
      (cs ++ run).splitOnP p = front ++ [last ++ run] := by
  induction cs with
  | nil => exact ⟨[], [], List.splitOnP_nil, List.splitOnP_eq_singleton h⟩
  | cons c rest ih =>
    obtain ⟨front, last, hrest, hmore⟩ := ih
    rw [List.cons_append, List.splitOnP_cons_eq_if_modifyHead,
      List.splitOnP_cons_eq_if_modifyHead, hrest, hmore]
    cases p c with
    | true => exact ⟨[] :: front, last, rfl, rfl⟩
    | false =>
      cases front with
      | nil => exact ⟨[], c :: last, rfl, rfl⟩
      | cons piece front => exact ⟨(c :: piece) :: front, last, rfl, rfl⟩

/-- Pieces without separators and the text in which there is one separator between two of them, be
it always the same or not. -/
inductive IsJoined (p : Char → Bool) : List (List Char) → List Char → Prop where
  | last {piece : List Char} (hpiece : ∀ c ∈ piece, p c = false) : IsJoined p [piece] piece
  | more {piece : List Char} {separator : Char} {pieces : List (List Char)} {cs : List Char}
    (hpiece : ∀ c ∈ piece, p c = false) (hseparator : p separator = true)
    (h : IsJoined p pieces cs) : IsJoined p (piece :: pieces) (piece ++ separator :: cs)

/-- A further character before a joined text belongs to its first piece. -/
theorem IsJoined.cons {piece : List Char} {pieces : List (List Char)} {c : Char} {cs : List Char}
    (h : IsJoined p (piece :: pieces) cs) (hc : p c = false) :
    IsJoined p ((c :: piece) :: pieces) (c :: cs) := by
  cases h with
  | last hpiece => exact .last (List.forall_mem_cons.mpr ⟨hc, hpiece⟩)
  | more hpiece hseparator hrest =>
    exact .more (List.forall_mem_cons.mpr ⟨hc, hpiece⟩) hseparator hrest

/-- A text is joined from its pieces. -/
theorem isJoined_splitOnP : ∀ cs : List Char, IsJoined p (cs.splitOnP p) cs
  | [] => .last fun c hc => absurd hc List.not_mem_nil
  | c :: rest => by
    have hrest := isJoined_splitOnP rest
    rw [List.splitOnP_cons_eq_if_modifyHead]
    cases hc : p c with
    | true => exact .more (fun c hc => absurd hc List.not_mem_nil) hc hrest
    | false =>
      cases hpieces : rest.splitOnP p with
      | nil => exact absurd hpieces (List.splitOnP_ne_nil p rest)
      | cons first pieces =>
        rw [hpieces] at hrest
        exact hrest.cons hc

/-- **Cutting and joining.** The pieces of a text are those that it is joined from. -/
theorem splitOnP_eq_iff {cs : List Char} {pieces : List (List Char)} :
    cs.splitOnP p = pieces ↔ IsJoined p pieces cs := by
  constructor
  · rintro rfl
    exact isJoined_splitOnP cs
  · intro h
    induction h with
    | last hpiece => exact List.splitOnP_eq_singleton hpiece
    | more hpiece hseparator _ ih =>
      rw [List.splitOnP_append_cons _ _ hseparator, List.splitOnP_eq_singleton hpiece, ih,
        List.singleton_append]

/-- There is no separator in the pieces of a joined text. -/
theorem IsJoined.eq_false {pieces : List (List Char)} {cs : List Char} (h : IsJoined p pieces cs) :
    ∀ piece ∈ pieces, ∀ c ∈ piece, p c = false := by
  induction h with
  | last hpiece =>
    rw [List.forall_mem_singleton]
    exact hpiece
  | more hpiece _ _ ih =>
    intro piece hmem
    rcases List.mem_cons.mp hmem with rfl | hmem
    · exact hpiece
    · exact ih piece hmem

/-- What holds of all characters of some pieces and of the separators holds of the joined text. -/
theorem forall_mem_intercalate {holds : Char → Prop} {separator : Char} (h : holds separator) :
    ∀ {pieces : List (List Char)},
      (∀ c ∈ [separator].intercalate pieces, holds c) ↔ ∀ piece ∈ pieces, ∀ c ∈ piece, holds c
  | [] => by simp
  | [piece] => by simp
  | piece :: next :: rest => by
    have hseparator : ∀ c ∈ [separator], holds c := List.forall_mem_singleton.mpr h
    rw [List.intercalate_cons_cons, List.forall_mem_append, List.forall_mem_append,
      forall_mem_intercalate h, and_iff_left hseparator]
    exact (List.forall_mem_cons (p := fun piece => ∀ c ∈ piece, holds c)).symm

/-- A change of the first piece that stripping undoes. -/
theorem map_strip_modifyHead {f : List Char → List Char} (h : ∀ cs, strip (f cs) = strip cs)
    (pieces : List (List Char)) : (pieces.modifyHead f).map strip = pieces.map strip := by
  cases pieces with
  | nil => rfl
  | cons piece rest => rw [List.modifyHead_cons, List.map_cons, List.map_cons, h]

/-- **Cutting and stripping.** Where no blank is a separator, the stripped pieces of a text are
those of its stripped form. -/
theorem map_strip_splitOnP_strip (h : ∀ c, isBlank c = true → p c = false) (cs : List Char) :
    ((strip cs).splitOnP p).map strip = (cs.splitOnP p).map strip := by
  obtain ⟨before, after, hcs, hbefore, hafter⟩ := exists_blanks_around cs
  obtain ⟨front, last, hstripped, hmore⟩ :=
    splitOnP_append_right (fun c hc => h c (hafter c hc)) (strip cs)
  have hwhole : cs.splitOnP p = (front ++ [last ++ after]).modifyHead (before ++ ·) := by
    rw [← hmore, ← splitOnP_append_left fun c hc => h c (hbefore c hc), ← hcs]
  rw [hwhole, map_strip_modifyHead (strip_append_left hbefore), hstripped, List.map_append,
    List.map_append, List.map_singleton, List.map_singleton, strip_append_right hafter]

end Pieces

end EgressPolicy.Text
