/-!
Blank characters and trimming.

A character is blank when it has the Unicode property White_Space, so trimming takes away no-break
spaces, ideographic spaces and the line and paragraph separators as well as the ASCII blanks.
Everything an operator or a panel writes is trimmed by this one rule before it is judged empty.
-/

namespace EgressPolicy.Text

/-- The code points that have the property White_Space, as closed ranges in ascending order. -/
def blankRanges : List (Nat × Nat) :=
  [(0x09, 0x0D), (0x20, 0x20), (0x85, 0x85), (0xA0, 0xA0), (0x1680, 0x1680), (0x2000, 0x200A),
   (0x2028, 0x2029), (0x202F, 0x202F), (0x205F, 0x205F), (0x3000, 0x3000)]

/-- Whether a character has the property White_Space. -/
def isBlank (c : Char) : Bool :=
  blankRanges.any fun range => decide (range.1 ≤ c.toNat) && decide (c.toNat ≤ range.2)

/-- The property has twenty-five members. -/
example : (blankRanges.map fun range => range.2 - range.1 + 1).sum = 25 := by decide

/-- Every ASCII white space of the core library is blank. -/
theorem isBlank_of_isWhitespace {c : Char} (h : c.isWhitespace = true) : isBlank c = true := by
  simp only [Char.isWhitespace, Bool.or_eq_true, decide_eq_true_eq] at h
  rcases h with ((rfl | rfl) | rfl) | rfl <;> decide

/-- The characters left when the blanks at both ends are taken away. -/
def strip (cs : List Char) : List Char :=
  ((cs.dropWhile isBlank).reverse.dropWhile isBlank).reverse

/-- A text without the blanks at its two ends. -/
def trim (s : String) : String :=
  String.ofList (strip s.toList)

@[simp] theorem toList_trim (s : String) : (trim s).toList = strip s.toList :=
  String.toList_ofList

/-- Whether nothing but blanks is in a text. -/
def isBlankText (s : String) : Bool :=
  s.toList.all isBlank

/-- Only a run of blanks is dropped whole. -/
theorem dropWhile_isBlank_eq_nil_iff {cs : List Char} :
    cs.dropWhile isBlank = [] ↔ ∀ c ∈ cs, isBlank c = true := by
  induction cs with
  | nil => simp
  | cons c rest ih => cases h : isBlank c <;> simp [h, ih]

/-- Nothing is left of a run of characters exactly when all of them are blank. -/
theorem strip_eq_nil_iff (cs : List Char) : strip cs = [] ↔ ∀ c ∈ cs, isBlank c = true := by
  rw [strip, List.reverse_eq_nil_iff, dropWhile_isBlank_eq_nil_iff]
  refine ⟨fun h => dropWhile_isBlank_eq_nil_iff.mp ?_, fun h => ?_⟩
  · cases tail : cs.dropWhile isBlank with
    | nil => rfl
    | cons d rest =>
      have notBlank := List.head?_dropWhile_not isBlank cs
      simp [tail, h d (by simp [tail])] at notBlank
  · simp [dropWhile_isBlank_eq_nil_iff.mpr h]

/-- A text is blank exactly when trimming leaves nothing. -/
theorem isBlankText_iff (s : String) : isBlankText s = true ↔ trim s = "" := by
  rw [← String.toList_inj, toList_trim, String.toList_empty, strip_eq_nil_iff]
  simp [isBlankText]

example : trim "\u3000 a b\n" = "a b" := by decide

end EgressPolicy.Text
