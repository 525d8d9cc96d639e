import EgressPolicy.Number.Value
import EgressPolicy.Proofs.Number.NumeralTheorems
import EgressPolicy.Proofs.Text.DecimalTheorems
import Mathlib.Data.List.DropRight

/-!
Written numbers are numerals.

`Number.spells_numeral` says that what is written for a number keeps to the grammar, whatever the
number: an integer has no leading zeros, and the shortest decimal of a binary64 number begins with a
zero only where it is zero (`Binary64.isProper_shortest`), so that no layout puts a zero in front of
other whole digits (`Layout.isProper_numeral`). Whole digits are the digits of their number
(`Text.Decimal.isWhole_and_value?_iff`), and an integer comes back as it was written exactly when it
has 64 bits (`Number.reread?_eq_integer_iff`).
-/

namespace EgressPolicy

/-! ## Digits of a natural number -/

namespace Text.Decimal

theorem isDigits_digits (n : Nat) : Numeral.IsDigits (digits n) :=
  ⟨digits_ne_nil n, fun _ h => isDigit_of_mem_digits h⟩

/-- The first digit of a number is not zero: dividing by ten keeps it until one digit is left. -/
theorem head?_digits_ne_zero {n : Nat} (hn : 0 < n) : (digits n).head? ≠ some '0' := by
  have hdigit : ∀ d < 10, 0 < d → some (Nat.digitChar d) ≠ some '0' := by decide
  induction n using Nat.strongRecOn with
  | ind n ih =>
    rw [digits, Nat.toDigits_eq_if (by decide)]
    split
    · rename_i hlt
      exact hdigit n hlt hn
    · rw [List.head?_append_of_ne_nil _ Nat.toDigits_ne_nil]
      exact ih (n / 10) (by omega) (by omega)

theorem isWhole_digits (n : Nat) : Numeral.IsWhole (digits n) := by
  refine ⟨isDigits_digits n, fun hhead => ?_⟩
  rcases Nat.eq_zero_or_pos n with rfl | hn
  · rfl
  · exact absurd hhead (head?_digits_ne_zero hn)

/-- **Whole digits** that are read as a number are the digits of the number: what could differ are
zeros in front, and whole digits have none. -/
theorem isWhole_and_value?_iff {ds : List Char} {n : Nat} :
    Numeral.IsWhole ds ∧ value? ds = some n ↔ ds = digits n := by
  constructor
  · rintro ⟨⟨⟨hne, hdigits⟩, hzero⟩, hvalue⟩
    rw [value?, if_pos ⟨hne, List.all_eq_true.mpr hdigits⟩] at hvalue
    obtain rfl := Option.some.inj hvalue
    obtain ⟨zeros, heq⟩ := eq_zeros_append_digits hdigits
    cases zeros with
    | zero =>
      rw [List.replicate_zero, List.nil_append] at heq
      split at heq
      · exact absurd heq hne
      · exact heq
    | succ zeros =>
      have hhead : ds.head? = some '0' := by rw [heq, List.replicate_succ]; rfl
      rw [hzero hhead]
      rfl
  · rintro rfl
    exact ⟨isWhole_digits n, value?_digits n⟩

end Text.Decimal

/-! ## Proper numerals -/

/-- A numeral whose digit runs are as the grammar asks. -/
structure Numeral.IsProper (n : Numeral) : Prop where
  whole : IsWhole n.whole
  fraction : ∀ ds ∈ n.fraction, IsDigits ds
  exponent : ∀ e ∈ n.exponent, IsDigits e.2

/-- What is written for a proper numeral spells it. -/
theorem Numeral.IsProper.spells {n : Numeral} (h : n.IsProper) : Spells n.chars n := by
  obtain ⟨negative, whole, fraction, exponent⟩ := n
  have hfraction : IsFraction (fractionChars fraction) fraction := by
    cases fraction with
    | none => exact .none
    | some ds => exact .some (h.fraction ds rfl)
  have hexponent : IsExponent (exponentChars exponent) exponent := by
    cases exponent with
    | none => exact .none
    | some e =>
      obtain ⟨down, ds⟩ := e
      have hds := h.exponent _ rfl
      cases down with
      | true => exact .small (.minus hds)
      | false => exact .small (.plus hds)
  have hunsigned : ∀ negative, SpellsUnsigned negative
      (whole ++ (fractionChars fraction ++ exponentChars exponent))
      ⟨negative, whole, fraction, exponent⟩ :=
    fun _ => .mk h.whole hfraction hexponent
  rw [chars]
  simp only [List.append_assoc]
  cases negative with
  | true => exact .negative (hunsigned true)
  | false => exact .positive (hunsigned false)

/-- A decimal with digits, of which the first is zero only where the decimal is zero. -/
structure DecimalFraction.IsProper (d : DecimalFraction) : Prop where
  digits : Numeral.IsDigits d.digits
  zero : d.digits.head? = some '0' → d = ⟨['0'], 1⟩

section Digits

variable {ds : List Char}

theorem isDigits_append_zeros (h : Numeral.IsDigits ds) (count : Nat) :
    Numeral.IsDigits (ds ++ List.replicate count '0') := by
  refine ⟨fun hnil => h.1 (List.append_eq_nil_iff.mp hnil).1, fun c hc => ?_⟩
  rcases List.mem_append.mp hc with hc | hc
  · exact h.2 c hc
  · rw [List.eq_of_mem_replicate hc]
    rfl

theorem isDigits_zeros_append (h : Numeral.IsDigits ds) (count : Nat) :
    Numeral.IsDigits (List.replicate count '0' ++ ds) := by
  refine ⟨fun hnil => h.1 (List.append_eq_nil_iff.mp hnil).2, fun c hc => ?_⟩
  rcases List.mem_append.mp hc with hc | hc
  · rw [List.eq_of_mem_replicate hc]
    rfl
  · exact h.2 c hc

theorem isDigits_drop (h : Numeral.IsDigits ds) {count : Nat} (hcount : count < ds.length) :
    Numeral.IsDigits (ds.drop count) := by
  refine ⟨fun hnil => ?_, fun c hc => h.2 c (List.mem_of_mem_drop hc)⟩
  have hlength := congrArg List.length hnil
  rw [List.length_drop, List.length_nil] at hlength
  omega

theorem isDigits_take (h : Numeral.IsDigits ds) {count : Nat} (hcount : 0 < count) :
    Numeral.IsDigits (ds.take count) := by
  refine ⟨fun hnil => ?_, fun c hc => h.2 c (List.mem_of_mem_take hc)⟩
  rcases List.take_eq_nil_iff.mp hnil with hzero | hnil
  · omega
  · exact h.1 hnil

theorem isDigits_zero : Numeral.IsDigits ['0'] :=
  ⟨List.cons_ne_nil _ _, List.forall_mem_singleton.mpr rfl⟩

end Digits

/-- Wherever the point goes, the numeral is proper. -/
theorem Layout.isProper_numeral (layout : Layout) (negative : Bool) {d : DecimalFraction}
    (h : d.IsProper) : (layout.numeral negative d).IsProper := by
  dsimp only [Layout.numeral]
  split
  · split
    · -- A zero stands before the point.
      refine ⟨⟨isDigits_zero, fun _ => rfl⟩, ?_, by simp⟩
      intro ds hds
      rw [← Option.some.inj hds]
      exact isDigits_zeros_append h.digits _
    · split
      · -- All digits and perhaps some zeros stand before the point.
        refine ⟨⟨isDigits_append_zeros h.digits _, fun hhead => ?_⟩, ?_, by simp⟩
        · rw [List.head?_append_of_ne_nil _ h.digits.1] at hhead
          rw [h.zero hhead]
          rfl
        · intro ds hds
          rw [← Option.some.inj hds]
          exact isDigits_zero
      · -- The digits stand on both sides of it.
        rename_i hpoint hlength
        have hplaces : 0 < d.point.toNat := by omega
        refine ⟨⟨isDigits_take h.digits hplaces, fun hhead => ?_⟩, ?_, by simp⟩
        · rw [List.head?_take, if_neg (by omega)] at hhead
          rw [h.zero hhead] at hlength
          exact absurd (by decide) hlength
        · intro ds hds
          rw [← Option.some.inj hds]
          exact isDigits_drop h.digits (by omega)
  · -- One digit stands before the point, and there is an exponent.
    refine ⟨⟨isDigits_take h.digits (by decide), fun hhead => ?_⟩, ?_, ?_⟩
    · rw [List.head?_take, if_neg (by decide)] at hhead
      rw [h.zero hhead]
      rfl
    · intro ds hds
      split at hds
      · cases hds
      · rename_i hrest
        rw [← Option.some.inj hds]
        have hne : d.digits.drop 1 ≠ [] := by simpa using hrest
        exact ⟨hne, fun c hc => h.digits.2 c (List.mem_of_mem_drop hc)⟩
    · intro e he
      rw [← Option.some.inj he]
      exact Text.Decimal.isDigits_digits _

/-! ## Shortest decimals -/

namespace Binary64

/-- A decimal of some units, of which there is at least one, is proper. -/
theorem isProper_decimalOf {c : Nat} (hc : 0 < c) (unit : Int) : (decimalOf c unit).IsProper := by
  have hhead := Text.Decimal.head?_digits_ne_zero hc
  have hdigits := Text.Decimal.isDigits_digits c
  obtain ⟨dropped, hsplit⟩ := List.rdropWhile_prefix (p := (· == '0')) (Text.Decimal.digits c)
  have hkept : (decimalOf c unit).digits = (Text.Decimal.digits c).rdropWhile (· == '0') := rfl
  -- The first digit is not zero, so it is not dropped with the zeros at the end.
  have hne : (decimalOf c unit).digits ≠ [] := by
    intro hnil
    obtain ⟨d, rest, hfirst, -⟩ := hdigits.head
    rw [hkept, List.rdropWhile_eq_nil_iff, hfirst] at hnil
    have hzero : d = '0' := beq_iff_eq.mp (hnil d List.mem_cons_self)
    rw [hfirst, hzero] at hhead
    exact hhead rfl
  rw [← hkept] at hsplit
  refine ⟨⟨hne, fun d hd => hdigits.2 d (hsplit ▸ List.mem_append_left dropped hd)⟩, ?_⟩
  intro hzero
  rw [← hsplit, List.head?_append_of_ne_nil _ hne] at hhead
  exact absurd hzero hhead

/-- A number that is not zero rounds from no real below it that is zero. -/
theorem low_rounding_pos {x : Binary64} (h : x.isZero = false) : 0 < x.rounding.low := by
  have hsignificand : x.significand ≠ 0 := by
    intro hzero
    rw [isZero, hzero] at h
    cases h
  refine Nat.mul_pos ?_ (Nat.pow_pos (by decide))
  show 0 < 4 * x.significand - if _ then 1 else 2
  split <;> omega

/-- A decimal in an interval of positive reals is positive: the upper neighbour always is, and the
lower one is in the interval where it is taken. -/
theorem Rounding.pos_of_candidate {r : Rounding} (hlow : 0 < r.low) {point : Int} {places c : Nat}
    {unit : Int} (h : r.candidate point places = some (c, unit)) : 0 < c := by
  have hpos : ∀ k : Nat, 0 < r.low * Nat.pow 10 k :=
    fun k => Nat.mul_pos hlow (Nat.pow_pos (by decide))
  dsimp only [candidate] at h
  generalize r.value * _ / _ = lower at h
  have hinside : ∀ {k up high : Nat}, (if r.closed = true then
      decide (r.low * Nat.pow 10 k ≤ lower * up) && decide (lower * up ≤ high)
      else decide (r.low * Nat.pow 10 k < lower * up) && decide (lower * up < high)) = true →
        0 < lower := by
    intro k up high hin
    have hk := hpos k
    rcases Nat.eq_zero_or_pos lower with rfl | hlower
    · simp only [Nat.zero_mul] at hin
      split at hin <;> simp only [Bool.and_eq_true, decide_eq_true_eq] at hin <;> omega
    · exact hlower
  split at h
  · rename_i hin _
    split at h
    · obtain ⟨rfl, -⟩ := Prod.mk.inj (Option.some.inj h)
      exact hinside hin
    · obtain ⟨rfl, -⟩ := Prod.mk.inj (Option.some.inj h)
      exact Nat.succ_pos lower
  · rename_i hin _
    obtain ⟨rfl, -⟩ := Prod.mk.inj (Option.some.inj h)
    exact hinside hin
  · obtain ⟨rfl, -⟩ := Prod.mk.inj (Option.some.inj h)
    exact Nat.succ_pos lower
  · cases h

theorem isProper_shortest (x : Binary64) : x.shortest.IsProper := by
  have hzero : DecimalFraction.IsProper ⟨['0'], 1⟩ := ⟨isDigits_zero, fun _ => rfl⟩
  rw [shortest]
  split
  · exact hzero
  · rename_i hx
    have hlow := low_rounding_pos (Bool.not_eq_true _ ▸ hx)
    simp only
    split
    · rename_i c unit hfound
      obtain ⟨places, -, hcandidate⟩ := List.exists_of_findSome?_eq_some hfound
      exact isProper_decimalOf (Rounding.pos_of_candidate hlow hcandidate) unit
    · exact hzero

end Binary64

/-- **Written numbers** keep to the grammar. -/
theorem Number.spells_numeral (n : Number) : Numeral.Spells n.numeral.chars n.numeral := by
  refine Numeral.IsProper.spells ?_
  cases n with
  | integer n =>
    exact ⟨Text.Decimal.isWhole_digits _, by simp [numeral, Numeral.ofInt],
      by simp [numeral, Numeral.ofInt]⟩
  | float x => exact layout.isProper_numeral x.negative x.isProper_shortest

/-- The number that is read where a number was written. -/
def Number.reread? (n : Number) : Option Number :=
  n.numeral.value?

/-! ## Integers -/

/-- More digits do not make a number smaller. -/
theorem le_ofDigitChars (ds : List Char) (n : Nat) : n ≤ Nat.ofDigitChars 10 ds n := by
  rw [Nat.ofDigitChars_eq_ofDigitChars_zero]
  have hle : n ≤ 10 ^ ds.length * n := Nat.le_mul_of_pos_left n (Nat.pow_pos (by decide))
  exact Nat.le_add_right_of_le hle

/-- All digits are taken where the whole number fits. -/
theorem Numeral.gather_eq (ds : List Char) (n : Nat)
    (h : Nat.ofDigitChars 10 ds n < Nat.pow 2 64) :
    gather n ds = (Nat.ofDigitChars 10 ds n, []) := by
  induction ds generalizing n with
  | nil => rfl
  | cons d ds ih =>
    rw [Nat.ofDigitChars_cons] at h ⊢
    have hnext : 10 * n + digitValue d < Nat.pow 2 64 :=
      Nat.lt_of_le_of_lt (le_ofDigitChars ds _) h
    rw [gather]
    simp only [hnext, if_true]
    exact ih _ h

/-- **Integers come back** as they were written. -/
theorem Number.reread?_integer {n : Int} (hlow : -Nat.pow 2 63 ≤ n) (hhigh : n < Nat.pow 2 64) :
    (integer n).reread? = some (integer n) := by
  have hsize : n.natAbs < Nat.pow 2 64 := by
    have hpow : Nat.pow 2 64 = 2 * Nat.pow 2 63 := rfl
    omega
  have hdigits : Nat.ofDigitChars 10 (Text.Decimal.digits n.natAbs) 0 = n.natAbs :=
    Nat.ofDigitChars_ten_toDigits
  have hgather := Numeral.gather_eq (Text.Decimal.digits n.natAbs) 0 (by rw [hdigits]; exact hsize)
  rw [hdigits] at hgather
  rw [reread?, numeral, Numeral.value?, Numeral.ofInt, hgather]
  show Numeral.integer? (decide (n < 0)) n.natAbs = some (integer n)
  rw [Numeral.integer?]
  by_cases hneg : n < 0
  · rw [if_pos (decide_eq_true hneg), if_neg (by omega)]
    have heq : -(n.natAbs : Int) = n := by omega
    rw [heq]
  · have heq : (n.natAbs : Int) = n := by omega
    simp only [hneg, decide_false, Bool.false_eq_true, if_false, heq]

/-- Digits that are all taken are the digits of a number that fits. -/
theorem Numeral.eq_of_gather {ds : List Char} {n whole : Nat} (hn : n < Nat.pow 2 64)
    (h : gather n ds = (whole, [])) : whole = Nat.ofDigitChars 10 ds n ∧ whole < Nat.pow 2 64 := by
  induction ds generalizing n with
  | nil =>
    obtain rfl := (Prod.mk.inj h).1
    exact ⟨rfl, hn⟩
  | cons d ds ih =>
    rw [gather] at h
    split at h
    · rename_i hnext
      exact ih hnext h
    · cases (Prod.mk.inj h).2

/-- The integer of a significand, and how far down it goes. -/
theorem Numeral.eq_of_integer? {negative : Bool} {whole : Nat} {m : Int}
    (h : integer? negative whole = some (.integer m)) :
    m = (if negative then -(whole : Int) else whole) ∧
      (negative = true → whole ≤ Nat.pow 2 63) := by
  unfold integer? at h
  split at h
  · split at h
    · cases hfloat : float? true whole 0 none <;> simp [hfloat] at h
    · simp_all
  · simp_all

/-- **Integers that come back** have 64 bits, with a sign or without. All others become floats or
have no number at all. -/
theorem Number.reread?_eq_integer_iff {n m : Int} : (integer n).reread? = some (integer m) ↔
    m = n ∧ -Nat.pow 2 63 ≤ n ∧ n < Nat.pow 2 64 := by
  constructor
  · intro h
    obtain ⟨whole, left, hgather⟩ :
        ∃ whole left, Numeral.gather 0 (Text.Decimal.digits n.natAbs) = (whole, left) := ⟨_, _, rfl⟩
    rw [reread?, numeral, Numeral.value?, Numeral.ofInt, hgather] at h
    cases left with
    | cons d ds => simp at h
    | nil =>
      obtain ⟨rfl, hlow⟩ := Numeral.eq_of_integer? h
      have hdigits : Nat.ofDigitChars 10 (Text.Decimal.digits n.natAbs) 0 = n.natAbs :=
        Nat.ofDigitChars_ten_toDigits
      obtain ⟨hwhole, hhigh⟩ := Numeral.eq_of_gather (Nat.pow_pos (by decide)) hgather
      rw [hdigits] at hwhole
      rw [decide_eq_true_iff] at hlow
      simp only [decide_eq_true_eq]
      omega
  · rintro ⟨rfl, hlow, hhigh⟩
    exact reread?_integer hlow hhigh

end EgressPolicy
