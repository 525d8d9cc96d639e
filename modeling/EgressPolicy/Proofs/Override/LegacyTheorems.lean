import EgressPolicy.Override.Policy
import EgressPolicy.Proofs.Number.WritingTheorems

/-!
Which nodes the overrides name.

The older schema writes each port behind an underscore and asks whether a tag ends with that. A
numeral has no underscore in it, so the underscore is the last one of the tag
(`Text.afterLast?_eq_some_iff`) and all that follows it is the numeral: a tag names one port at most
(`NamesPort.unique`), and longer numerals with the same end or with zeros in front name others or
none. `Policy.blocks_iff` puts the three ways of naming a node together.
-/

namespace EgressPolicy

/-! ## The last part of a text -/

namespace Text

/-- What stands behind the last occurrence of a character; none where the character is missing. -/
def afterLast? (c : Char) : List Char → Option (List Char)
  | [] => none
  | d :: rest => (afterLast? c rest).or (if d = c then some rest else none)

theorem afterLast?_eq_none_iff {c : Char} {cs : List Char} : afterLast? c cs = none ↔ c ∉ cs := by
  induction cs with
  | nil => simp [afterLast?]
  | cons d rest ih => simp [afterLast?, ih, @eq_comm _ c, and_comm]

/-- The last part ends the text, behind the character, and has no such character in it. -/
theorem afterLast?_eq_some_iff {c : Char} {cs last : List Char} :
    afterLast? c cs = some last ↔ (c :: last) <:+ cs ∧ c ∉ last := by
  induction cs with
  | nil => simp [afterLast?]
  | cons d rest ih =>
    rw [afterLast?, Option.or_eq_some_iff, ih, afterLast?_eq_none_iff, List.suffix_cons_iff]
    constructor
    · rintro (⟨hsuffix, hfree⟩ | ⟨hfree, hhere⟩)
      · exact ⟨Or.inr hsuffix, hfree⟩
      · split at hhere
        · cases hhere
          simp_all
        · cases hhere
    · rintro ⟨heq | hsuffix, hfree⟩
      · cases heq
        exact Or.inr ⟨hfree, if_pos rfl⟩
      · exact Or.inl ⟨hsuffix, hfree⟩

end Text

namespace Override

/-! ## Ports and suffixes -/

/-- A tag names a port: what stands behind its last underscore is the numeral of the port, without
a sign and without a zero in front. -/
def NamesPort (tag : String) (port : Int) : Prop :=
  1 ≤ port ∧ port ≤ 65535 ∧ ∃ last, Text.afterLast? '_' tag.toList = some last ∧
    Numeral.IsWhole last ∧ Text.Decimal.value? last = some port.toNat

/-- A tag names a suffix that it ends with, unless the suffix is empty. -/
def NamesSuffix (tag suffix : String) : Prop :=
  suffix ≠ "" ∧ suffix.toList <:+ tag.toList

/-- **One port** at most is named by a tag. -/
theorem NamesPort.unique {tag : String} {a b : Int} (ha : NamesPort tag a)
    (hb : NamesPort tag b) : a = b := by
  obtain ⟨hlow, -, last, hlast, -, hvalue⟩ := ha
  obtain ⟨hlow', -, last', hlast', -, hvalue'⟩ := hb
  obtain rfl : last = last' := Option.some.inj (hlast.symm.trans hlast')
  have hsame : a.toNat = b.toNat := Option.some.inj (hvalue.symm.trans hvalue')
  omega

namespace Policy

theorem portMatches_iff {tag : String} {port : Int64} :
    portMatches tag port = true ↔ NamesPort tag port.toInt := by
  have hfree : ∀ n, '_' ∉ Text.Decimal.digits n := fun n h =>
    absurd (Text.Decimal.isDigit_of_mem_digits h) (by decide)
  have hlow : (1 : Int64).toInt = 1 := rfl
  have hhigh : (65535 : Int64).toInt = 65535 := rfl
  simp [portMatches, NamesPort, Int64.le_iff_toInt_le, hlow, hhigh, Text.afterLast?_eq_some_iff,
    Text.Decimal.isWhole_and_value?_iff, hfree, and_assoc]

/-- Digits or zeros in front of a port make another port of it, or none. -/
example : ["vless_443", "a_b_443", "vless_1443", "vless_0443", "vless443"].filter
    (portMatches · 443) = ["vless_443", "a_b_443"] := by decide +kernel

theorem suffixMatches_iff {tag suffix : String} :
    suffixMatches tag suffix = true ↔ NamesSuffix tag suffix := by
  simp [suffixMatches, NamesSuffix]

theorem legacyBlocks_iff {p : Policy} {tag : String} :
    p.legacyBlocks tag = true ↔ (∃ port ∈ p.legacyPorts, NamesPort tag port.toInt) ∨
      ∃ suffix ∈ p.legacySuffixes, NamesSuffix tag suffix := by
  simp only [legacyBlocks, Bool.or_eq_true, List.any_eq_true, portMatches_iff, suffixMatches_iff]

/-- **Blocked nodes** are in the block list or, where the older schema counts, named by it. -/
theorem blocks_iff {p : Policy} {n : Node} {legacy : Bool} :
    p.blocks n legacy = true ↔ n.id ∈ p.blocked ∨ legacy = true ∧
      ((∃ port ∈ p.legacyPorts, NamesPort n.tag port.toInt) ∨
        ∃ suffix ∈ p.legacySuffixes, NamesSuffix n.tag suffix) := by
  rw [blocks, Bool.or_eq_true, Bool.and_eq_true, legacyBlocks_iff, Std.TreeSet.contains_iff_mem]

end Policy

end Override

end EgressPolicy
