import EgressPolicy.Text.Vocabulary
import Mathlib.Data.List.DropRight

/-!
What trimming leaves.

A trimmed text has no blank at either end, so trimming it again changes nothing (`trim_trim`). A
value that is kept only where its trimmed form is not empty is therefore never blank.
-/

namespace EgressPolicy.Text

/-- Dropping blanks from the front stops, at the latest, before a character that is not blank. -/
theorem dropWhile_isBlank_append_singleton {c : Char} (h : isBlank c = false) (cs : List Char) :
    (cs ++ [c]).dropWhile isBlank = cs.dropWhile isBlank ++ [c] := by
  induction cs with
  | nil => simp [h]
  | cons d rest ih =>
    cases hd : isBlank d with
    | true => simp only [List.cons_append, List.dropWhile_cons, hd, if_pos, ih]
    | false => simp [hd]

/-- Dropping blanks from the back leaves a first character that is not blank in its place. -/
theorem dropWhile_isBlank_strip (cs : List Char) : (strip cs).dropWhile isBlank = strip cs := by
  rw [strip]
  cases hcs : cs.dropWhile isBlank with
  | nil => simp
  | cons c rest =>
    have hc : isBlank c = false := by
      have hhead := List.head?_dropWhile_not isBlank cs
      simpa [hcs] using hhead
    rw [List.reverse_cons, dropWhile_isBlank_append_singleton hc]
    simp [hc]

/-- Stripping twice is stripping once. -/
theorem strip_strip (cs : List Char) : strip (strip cs) = strip cs := by
  have hback : (strip cs).reverse.dropWhile isBlank = (strip cs).reverse := by
    rw [strip, List.reverse_reverse, List.dropWhile_idempotent]
  rw [strip, dropWhile_isBlank_strip, hback, List.reverse_reverse]

/-- Trimming twice is trimming once. -/
theorem trim_trim (s : String) : trim (trim s) = trim s := by
  rw [← String.toList_inj, toList_trim, toList_trim, strip_strip]

/-- A trimmed text is blank only where nothing is left of it. -/
theorem isBlankText_trim_iff (s : String) : isBlankText (trim s) = true ↔ trim s = "" := by
  rw [isBlankText_iff, trim_trim]

/-- The word that is looked up for a text is empty exactly where the text is blank. -/
theorem canonical_eq_empty_iff (s : String) : canonical s = "" ↔ isBlankText s = true := by
  rw [isBlankText_iff, canonical, ← String.toList_inj, ← String.toList_inj, toList_lowerCase,
    String.toList_empty, List.map_eq_nil_iff]

end EgressPolicy.Text
