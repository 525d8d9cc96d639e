import EgressPolicy.Json.Text
import EgressPolicy.Proofs.Json.DenotationTheorems
import EgressPolicy.Proofs.Number.WritingTheorems

/-!
Written values are JSON texts.

The text of a value keeps to the grammar, and its tree is that of the value (`hasTree_text`): every
string comes back, whichever characters it has, and only a number may be read as another one. Where
all numbers come back, so does the value (`denotes_text`).
-/

namespace EgressPolicy.Json

namespace Grammar

/-! ## Strings -/

theorem codeUnit?_digits {n : Nat} (h : n < 65536) :
    codeUnit? (Text.Hex.digit (n / 4096 % 16)) (Text.Hex.digit (n / 256 % 16))
      (Text.Hex.digit (n / 16 % 16)) (Text.Hex.digit (n % 16)) = some n := by
  have hdigit : ∀ k, Text.Hex.value? (Text.Hex.digit (k % 16)) = some (k % 16) :=
    fun k => Text.Hex.value?_digit _ (Nat.mod_lt k (by decide))
  simp only [codeUnit?, hdigit, Option.bind_eq_bind, Option.bind_some, Option.pure_def,
    Option.some.injEq]
  omega

/-- What is written for a character stands for the character. -/
theorem pieces_escape {c : Char} {cs rest : List Char} {units : List Unit16}
    (h : Pieces cs units rest) : Pieces (escape c ++ cs) (.char c :: units) rest := by
  unfold escape
  -- The seven characters with a letter of their own.
  iterate 7
    split
    · rename_i hc
      subst hc
      exact .escape rfl h
  split
  · rename_i hcontrol
    have hunit := codeUnit?_digits (n := c.toNat) (by omega)
    have hmeaning : Unit16.ofNat c.toNat = .char c := by
      rw [Unit16.ofNat, if_neg (by omega), if_neg (by omega), Char.ofNat_toNat]
    rw [← hmeaning]
    exact .unicode hunit h
  · rename_i hcontrol
    exact .plain ‹_› ‹_› (Nat.le_of_not_lt hcontrol) h

theorem pieces_flatMap_escape (cs rest : List Char) :
    Pieces (cs.flatMap escape ++ '"' :: rest) (cs.map .char) rest := by
  induction cs with
  | nil => exact .close
  | cons c cs ih =>
    rw [List.flatMap_cons, List.append_assoc]
    exact pieces_escape ih

theorem unitChars?_map_char (cs : List Char) : unitChars? (cs.map .char) = some cs := by
  induction cs with
  | nil => rfl
  | cons c cs ih => rw [List.map_cons, unitChars?, ih, Option.map_some]

theorem meaning?_map_char (s : String) : meaning? (s.toList.map .char) = some s := by
  rw [meaning?, unitChars?_map_char, Option.map_some, String.ofList_toList]

/-- A string is read back after its opening quote. -/
theorem exists_pieces_of_quoted (s : String) (rest : List Char) :
    ∃ cs, quoted s ++ rest = '"' :: cs ∧ Pieces cs (s.toList.map .char) rest := by
  refine ⟨s.toList.flatMap escape ++ '"' :: rest, ?_, pieces_flatMap_escape _ _⟩
  simp [quoted]

theorem key_quoted (k : String) (rest : List Char) :
    Key (quoted k ++ ':' :: rest) (some k) rest := by
  obtain ⟨cs, hcs, hpieces⟩ := exists_pieces_of_quoted k (':' :: rest)
  rw [hcs, ← meaning?_map_char]
  exact .mk .nil hpieces .nil

/-! ## Values -/

theorem Value.element {cs rest : List Char} {t : Tree} (h : Value cs t rest) :
    Element cs t rest :=
  .mk .nil h .nil

-- The three statements follow the three functions that write values, items and members.
mutual

theorem value_chars : ∀ (v : Json) (rest : List Char),
    Value (v.chars ++ rest) (Tree.ofValueBy Number.reread? v) rest
  | .null, _ => .null
  | .bool true, _ => .boolTrue
  | .bool false, _ => .boolFalse
  | .number n, _ => .number n.spells_numeral
  | .string s, rest => by
    obtain ⟨cs, hcs, hpieces⟩ := exists_pieces_of_quoted s rest
    rw [chars, hcs, Tree.ofValueBy, ← meaning?_map_char]
    exact .string hpieces
  | .array items, rest => by
    rw [chars, Tree.ofValueBy, List.cons_append, List.append_assoc]
    by_cases hitems : items = []
    · rw [hitems]
      exact .emptyArray .nil
    · exact .array (items_chars items rest hitems)
  | .object ms, rest => by
    rw [chars, Tree.ofValueBy, List.cons_append, List.append_assoc]
    by_cases hms : ms = []
    · rw [hms]
      exact .emptyObject .nil
    · exact .object (members_chars ms rest hms)

theorem items_chars : ∀ (items : List Json) (rest : List Char), items ≠ [] →
    Items (itemChars items ++ ']' :: rest) (Tree.ofValuesBy Number.reread? items) rest
  | [], _, h => absurd rfl h
  | [v], rest, _ => .last (value_chars v (']' :: rest)).element
  | v :: w :: items, rest, _ => by
    rw [itemChars, Tree.ofValuesBy, List.append_assoc, List.cons_append]
    exact .more (value_chars v _).element (items_chars (w :: items) rest (List.cons_ne_nil _ _))

theorem members_chars : ∀ (ms : List (String × Json)) (rest : List Char), ms ≠ [] →
    Members (memberChars ms ++ '\x7d' :: rest) (Tree.ofMembersBy Number.reread? ms) rest
  | [], _, h => absurd rfl h
  | [(k, v)], rest, _ => by
    rw [memberChars, Tree.ofMembersBy, List.append_assoc, List.cons_append]
    exact .last (key_quoted k _) (value_chars v _).element
  | (k, v) :: m :: ms, rest, _ => by
    rw [memberChars, Tree.ofMembersBy, List.append_assoc, List.cons_append, List.append_assoc,
      List.cons_append]
    exact .more (key_quoted k _) (value_chars v _).element
      (members_chars (m :: ms) rest (List.cons_ne_nil _ _))

end

end Grammar

/-- **Written values** are read as what they were, except perhaps for their numbers. -/
theorem hasTree_text (v : Json) : HasTree v.text (Tree.ofValueBy Number.reread? v) := by
  have hvalue := (Grammar.value_chars v []).element
  rw [List.append_nil] at hvalue
  rw [HasTree, text, String.toList_ofList]
  exact hvalue

/-- Where all numbers come back, the tree is that of the value. -/
theorem hasTree_text_ofValue {v : Json} (h : ∀ n ∈ v.numbers, n.reread? = some n) :
    HasTree v.text (Tree.ofValue v) := by
  rw [← Tree.ofValueBy_eq h]
  exact hasTree_text v

/-- **A value comes back** from its text where its numbers do and no object repeats a key. -/
theorem denotes_text {room : Nat} {v : Json} (hdistinct : (Tree.ofValue v).hasDistinctKeys = true)
    (hdepth : v.depth ≤ room) (hnumbers : ∀ n ∈ v.numbers, n.reread? = some n) :
    Denotes room v.text v.normal :=
  ⟨Tree.ofValue v, hasTree_text_ofValue hnumbers, hdistinct, Tree.value?_ofValue v hdepth⟩

end EgressPolicy.Json
