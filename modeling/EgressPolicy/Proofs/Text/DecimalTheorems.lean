import EgressPolicy.Text.Decimal
import Mathlib.Data.List.Induction

/-!
Decimal numerals with zeros in front.

A run of digits is a number of zeros and the digits of the number that it denotes
(`eq_zeros_append_digits`), so what is read as a positive number is spelled like that and in no
other way (`value?_eq_some_iff`).
-/

namespace EgressPolicy.Text.Decimal

/-- A digit denotes a number below ten and is the digit of that number. -/
theorem digitChar_of_isDigit {c : Char} (h : c.isDigit = true) :
    c.toNat - '0'.toNat < 10 ∧ (c.toNat - '0'.toNat).digitChar = c := by
  have hdigit : ∀ n < 58, 48 ≤ n → n - 48 < 10 ∧ (n - 48).digitChar = Char.ofNat n := by decide
  simp only [Char.isDigit, Bool.and_eq_true, decide_eq_true_eq] at h
  have hlow : 48 ≤ c.toNat := h.1
  have hhigh : c.toNat ≤ 57 := h.2
  have hc := hdigit c.toNat (by omega) hlow
  rwa [Char.ofNat_toNat] at hc

/-- One more digit at the end of a number. -/
theorem digits_mul_ten_add {n d : Nat} (hd : d < 10) :
    digits (10 * n + d) = (if n = 0 then [] else digits n) ++ [d.digitChar] := by
  rw [digits, Nat.toDigits_eq_if (by decide)]
  by_cases hn : n = 0
  · subst hn
    rw [if_pos (by omega), if_pos rfl, Nat.mul_zero, Nat.zero_add, List.nil_append]
  · rw [if_neg (by omega), if_neg hn, digits]
    congr 3 <;> omega

/-- **Zeros in front.** A run of digits is zeros before the digits of its number, and only zeros
where that is zero. -/
theorem eq_zeros_append_digits {ds : List Char} (h : ∀ c ∈ ds, c.isDigit = true) :
    ∃ zeros, ds = List.replicate zeros '0' ++
      if Nat.ofDigitChars 10 ds 0 = 0 then [] else digits (Nat.ofDigitChars 10 ds 0) := by
  induction ds using List.reverseRecOn with
  | nil => exact ⟨0, rfl⟩
  | append_singleton ds c ih =>
    rw [List.forall_mem_append, List.forall_mem_singleton] at h
    obtain ⟨zeros, hds⟩ := ih h.1
    obtain ⟨hlt, hchar⟩ := digitChar_of_isDigit h.2
    have hvalue : Nat.ofDigitChars 10 (ds ++ [c]) 0 =
        10 * Nat.ofDigitChars 10 ds 0 + (c.toNat - '0'.toNat) := by
      rw [Nat.ofDigitChars_append, Nat.ofDigitChars_cons, Nat.ofDigitChars_nil]
    rw [hvalue]
    by_cases hzero : 10 * Nat.ofDigitChars 10 ds 0 + (c.toNat - '0'.toNat) = 0
    · have hnil : Nat.ofDigitChars 10 ds 0 = 0 := by omega
      have hc : c = '0' := by
        rw [← hchar, show c.toNat - '0'.toNat = 0 by omega]
        rfl
      rw [if_pos hnil, List.append_nil] at hds
      refine ⟨zeros + 1, ?_⟩
      rw [if_pos hzero, List.append_nil, List.replicate_succ', ← hds, hc]
    · refine ⟨zeros, ?_⟩
      rw [if_neg hzero, digits_mul_ten_add hlt, hchar, ← List.append_assoc, ← hds]

/-- **Reading numerals.** A positive number is read from its digits, with any number of zeros in
front, and from nothing else. -/
theorem value?_eq_some_iff {ds : List Char} {n : Nat} (hn : 0 < n) :
    value? ds = some n ↔ ∃ zeros, ds = List.replicate zeros '0' ++ digits n := by
  constructor
  · intro h
    rw [value?] at h
    split at h
    · rename_i hds
      obtain rfl := Option.some.inj h
      obtain ⟨zeros, heq⟩ := eq_zeros_append_digits (List.all_eq_true.mp hds.2)
      rw [if_neg (Nat.ne_of_gt hn)] at heq
      exact ⟨zeros, heq⟩
    · cases h
  · rintro ⟨zeros, rfl⟩
    have hdigits : ∀ c ∈ List.replicate zeros '0' ++ digits n, c.isDigit = true := by
      intro c hc
      rcases List.mem_append.mp hc with hc | hc
      · rw [List.eq_of_mem_replicate hc]
        rfl
      · exact isDigit_of_mem_digits hc
    have hvalue : Nat.ofDigitChars 10 (digits n) 0 = n := Nat.ofDigitChars_ten_toDigits
    rw [value?, if_pos ⟨List.append_ne_nil_of_right_ne_nil _ (digits_ne_nil n),
      List.all_eq_true.mpr hdigits⟩, Nat.ofDigitChars_append, Nat.ofDigitChars_replicate_zero,
      Nat.mul_zero, hvalue]

end EgressPolicy.Text.Decimal
