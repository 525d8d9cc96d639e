import EgressPolicy.Json.Reader
import EgressPolicy.Proofs.Number.NumeralTheorems

/-!
The grammar of JSON texts.

Each production is a relation between a text, what stands at its front and what follows that. The
grammar says which tree a text has, and it says so without fuel and without an order in which the
alternatives are tried.
-/

namespace EgressPolicy.Json

namespace Grammar

/-- Blanks, or nothing. -/
inductive Spaces : List Char → List Char → Prop where
  | nil {rest : List Char} : Spaces rest rest
  | cons {c : Char} {cs rest : List Char} (hc : isSpace c = true) (h : Spaces cs rest) :
    Spaces (c :: cs) rest

/-- The pieces of a string up to its closing quote. -/
inductive Pieces : List Char → List Unit16 → List Char → Prop where
  | close {rest : List Char} : Pieces ('"' :: rest) [] rest
  | plain {c : Char} {cs rest : List Char} {units : List Unit16} (hquote : c ≠ '"')
    (hslash : c ≠ '\\') (hcontrol : 0x20 ≤ c.toNat) (h : Pieces cs units rest) :
    Pieces (c :: cs) (.char c :: units) rest
  | escape {c meaning : Char} {cs rest : List Char} {units : List Unit16}
    (hc : unescape? c = some meaning) (h : Pieces cs units rest) :
    Pieces ('\\' :: c :: cs) (.char meaning :: units) rest
  | unicode {a b c d : Char} {unit : Nat} {cs rest : List Char} {units : List Unit16}
    (hunit : codeUnit? a b c d = some unit) (h : Pieces cs units rest) :
    Pieces ('\\' :: 'u' :: a :: b :: c :: d :: cs) (Unit16.ofNat unit :: units) rest

/-- The text of some pieces, if it is Unicode. -/
def meaning? (units : List Unit16) : Option String :=
  (unitChars? units).map String.ofList

/-- The key of a member, with its colon. -/
inductive Key : List Char → Option String → List Char → Prop where
  | mk {cs cs' cs'' rest : List Char} {units : List Unit16} (hbefore : Spaces cs ('"' :: cs'))
    (h : Pieces cs' units cs'') (hafter : Spaces cs'' (':' :: rest)) : Key cs (meaning? units) rest

mutual

/-- A value without blanks around it. -/
inductive Value : List Char → Tree → List Char → Prop where
  | null {rest : List Char} : Value ('n' :: 'u' :: 'l' :: 'l' :: rest) .null rest
  | boolTrue {rest : List Char} : Value ('t' :: 'r' :: 'u' :: 'e' :: rest) (.bool true) rest
  | boolFalse {rest : List Char} :
    Value ('f' :: 'a' :: 'l' :: 's' :: 'e' :: rest) (.bool false) rest
  | number {cs rest : List Char} {n : Numeral} (h : Numeral.Spells cs n) :
    Value (cs ++ rest) (.number n.value?) rest
  | string {cs rest : List Char} {units : List Unit16} (h : Pieces cs units rest) :
    Value ('"' :: cs) (.string (meaning? units)) rest
  | emptyArray {cs rest : List Char} (h : Spaces cs (']' :: rest)) :
    Value ('[' :: cs) (.array []) rest
  | array {cs rest : List Char} {items : List Tree} (h : Items cs items rest) :
    Value ('[' :: cs) (.array items) rest
  | emptyObject {cs rest : List Char} (h : Spaces cs ('}' :: rest)) :
    Value ('{' :: cs) (.object []) rest
  | object {cs rest : List Char} {members : List (Option String × Tree)}
    (h : Members cs members rest) : Value ('{' :: cs) (.object members) rest

/-- A value with blanks around it. -/
inductive Element : List Char → Tree → List Char → Prop where
  | mk {cs cs' cs'' rest : List Char} {t : Tree} (hbefore : Spaces cs cs') (h : Value cs' t cs'')
    (hafter : Spaces cs'' rest) : Element cs t rest

/-- The items of an array, with its closing bracket. -/
inductive Items : List Char → List Tree → List Char → Prop where
  | last {cs rest : List Char} {t : Tree} (h : Element cs t (']' :: rest)) : Items cs [t] rest
  | more {cs cs' rest : List Char} {t : Tree} {items : List Tree} (h : Element cs t (',' :: cs'))
    (hmore : Items cs' items rest) : Items cs (t :: items) rest

/-- The members of an object, with its closing brace. -/
inductive Members : List Char → List (Option String × Tree) → List Char → Prop where
  | last {cs cs' rest : List Char} {key : Option String} {t : Tree} (hkey : Key cs key cs')
    (h : Element cs' t ('}' :: rest)) : Members cs [(key, t)] rest
  | more {cs cs' cs'' rest : List Char} {key : Option String} {t : Tree}
    {members : List (Option String × Tree)} (hkey : Key cs key cs')
    (h : Element cs' t (',' :: cs'')) (hmore : Members cs'' members rest) :
    Members cs ((key, t) :: members) rest

end

/-! ## Blanks in front

Blanks before a production that may begin with blanks are part of it. -/

theorem Spaces.trans {cs cs' rest : List Char} (h : Spaces cs cs') (h' : Spaces cs' rest) :
    Spaces cs rest := by
  induction h with
  | nil => exact h'
  | cons hc _ ih => exact .cons hc (ih h')

theorem Element.of_spaces {cs cs' rest : List Char} {t : Tree} (h : Element cs' t rest)
    (hs : Spaces cs cs') : Element cs t rest := by
  obtain ⟨hbefore, hvalue, hafter⟩ := h
  exact .mk (hs.trans hbefore) hvalue hafter

theorem Key.of_spaces {cs cs' rest : List Char} {key : Option String} (h : Key cs' key rest)
    (hs : Spaces cs cs') : Key cs key rest := by
  obtain ⟨hbefore, hpieces, hafter⟩ := h
  exact .mk (hs.trans hbefore) hpieces hafter

theorem Items.of_spaces {cs cs' rest : List Char} {items : List Tree} (h : Items cs' items rest)
    (hs : Spaces cs cs') : Items cs items rest := by
  cases h with
  | last h => exact .last (h.of_spaces hs)
  | more h hmore => exact .more (h.of_spaces hs) hmore

theorem Members.of_spaces {cs cs' rest : List Char} {members : List (Option String × Tree)}
    (h : Members cs' members rest) (hs : Spaces cs cs') : Members cs members rest := by
  cases h with
  | last hkey h => exact .last (hkey.of_spaces hs) h
  | more hkey h hmore => exact .more (hkey.of_spaces hs) h hmore

/-! ## Lengths -/

theorem Spaces.length_le {cs rest : List Char} (h : Spaces cs rest) : rest.length ≤ cs.length := by
  induction h with
  | nil => exact Nat.le_refl _
  | cons _ _ ih => exact Nat.le_succ_of_le ih

theorem Pieces.length_lt {cs rest : List Char} {units : List Unit16} (h : Pieces cs units rest) :
    rest.length < cs.length := by
  induction h with
  | close => exact Nat.lt_succ_self _
  | plain _ _ _ _ ih | escape _ _ ih | unicode _ _ ih =>
    simp only [List.length_cons]
    omega

theorem Key.length_lt {cs rest : List Char} {key : Option String} (h : Key cs key rest) :
    rest.length < cs.length := by
  obtain ⟨hbefore, hpieces, hafter⟩ := h
  have hb := hbefore.length_le
  have hp := hpieces.length_lt
  have ha := hafter.length_le
  simp only [List.length_cons] at hb ha
  omega

-- Every production takes a character, so what is left is shorter.
mutual

theorem Value.length_lt : ∀ {cs rest : List Char} {t : Tree},
    Value cs t rest → rest.length < cs.length
  | _, _, _, .null | _, _, _, .boolTrue | _, _, _, .boolFalse => by
    simp only [List.length_cons]
    omega
  | _, _, _, .number h => by
    obtain ⟨c, cs, rfl, -⟩ := h.head
    simp only [List.length_append, List.length_cons]
    omega
  | _, _, _, .string h => Nat.lt_succ_of_lt h.length_lt
  | _, _, _, .emptyArray h | _, _, _, .emptyObject h => by
    have hle := h.length_le
    simp only [List.length_cons] at hle ⊢
    omega
  | _, _, _, .array h => Nat.lt_succ_of_lt h.length_lt
  | _, _, _, .object h => Nat.lt_succ_of_lt h.length_lt

theorem Element.length_lt : ∀ {cs rest : List Char} {t : Tree},
    Element cs t rest → rest.length < cs.length
  | _, _, _, .mk hbefore h hafter => by
    have hb := hbefore.length_le
    have hv := h.length_lt
    have ha := hafter.length_le
    omega

theorem Items.length_lt : ∀ {cs rest : List Char} {items : List Tree},
    Items cs items rest → rest.length < cs.length
  | _, _, _, .last h => by
    have hlt := h.length_lt
    simp only [List.length_cons] at hlt
    omega
  | _, _, _, .more h hmore => by
    have hlt := h.length_lt
    have hrest := hmore.length_lt
    simp only [List.length_cons] at hlt
    omega

theorem Members.length_lt : ∀ {cs rest : List Char} {members : List (Option String × Tree)},
    Members cs members rest → rest.length < cs.length
  | _, _, _, .last hkey h => by
    have hk := hkey.length_lt
    have hlt := h.length_lt
    simp only [List.length_cons] at hlt
    omega
  | _, _, _, .more hkey h hmore => by
    have hk := hkey.length_lt
    have hlt := h.length_lt
    have hrest := hmore.length_lt
    simp only [List.length_cons] at hlt
    omega

end

end Grammar

/-- A whole text that has a tree: a value, and only blanks around it. -/
def HasTree (s : String) (t : Tree) : Prop :=
  Grammar.Element s.toList t []

/-- A text that keeps to the grammar. -/
def IsJsonText (s : String) : Prop :=
  ∃ t, HasTree s t

end EgressPolicy.Json
