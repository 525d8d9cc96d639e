import EgressPolicy.Number.Numeral

/-!
The grammar of numerals, and reading by it.

`Spells cs n` says that some characters spell a numeral, production by production. The reader takes
what spells a numeral (`Numeral.spells_of_ofChars?`), and it takes all of it where no character
follows that could belong to the numeral too (`Numeral.ofChars?_of_spells`).
-/

namespace EgressPolicy.Numeral

/-! ## Grammar -/

/-- One digit or more. -/
def IsDigits (cs : List Char) : Prop :=
  cs ≠ [] ∧ ∀ c ∈ cs, c.isDigit = true

/-- Whole digits: a zero stands at their front only if it stands alone. -/
def IsWhole (cs : List Char) : Prop :=
  IsDigits cs ∧ (cs.head? = some '0' → cs = ['0'])

/-- A fraction, or none. -/
inductive IsFraction : List Char → Option (List Char) → Prop where
  | none : IsFraction [] none
  | some {ds : List Char} (h : IsDigits ds) : IsFraction ('.' :: ds) (some ds)

/-- The part of an exponent after its letter. -/
inductive IsExponentBody : List Char → Bool × List Char → Prop where
  | bare {ds : List Char} (h : IsDigits ds) : IsExponentBody ds (false, ds)
  | plus {ds : List Char} (h : IsDigits ds) : IsExponentBody ('+' :: ds) (false, ds)
  | minus {ds : List Char} (h : IsDigits ds) : IsExponentBody ('-' :: ds) (true, ds)

/-- An exponent, or none. -/
inductive IsExponent : List Char → Option (Bool × List Char) → Prop where
  | none : IsExponent [] none
  | small {cs : List Char} {e : Bool × List Char} (h : IsExponentBody cs e) :
    IsExponent ('e' :: cs) (some e)
  | capital {cs : List Char} {e : Bool × List Char} (h : IsExponentBody cs e) :
    IsExponent ('E' :: cs) (some e)

/-- A numeral without its sign. -/
inductive SpellsUnsigned (negative : Bool) : List Char → Numeral → Prop where
  | mk {ws fs es : List Char} {fraction : Option (List Char)} {exponent : Option (Bool × List Char)}
    (hw : IsWhole ws) (hf : IsFraction fs fraction) (he : IsExponent es exponent) :
    SpellsUnsigned negative (ws ++ (fs ++ es)) ⟨negative, ws, fraction, exponent⟩

inductive Spells : List Char → Numeral → Prop where
  | positive {cs : List Char} {n : Numeral} (h : SpellsUnsigned false cs n) : Spells cs n
  | negative {cs : List Char} {n : Numeral} (h : SpellsUnsigned true cs n) : Spells ('-' :: cs) n

/-- No digit is at the front of a text. -/
def EndsDigits (rest : List Char) : Prop :=
  ∀ c ∈ rest.head?, c.isDigit = false

/-- No character is at the front of a text that could belong to a numeral before it. -/
def Ends (rest : List Char) : Prop :=
  ∀ c ∈ rest.head?, c.isDigit = false ∧ c ≠ '.' ∧ c ≠ 'e' ∧ c ≠ 'E'

theorem Ends.digits {rest : List Char} (h : Ends rest) : EndsDigits rest :=
  fun c hc => (h c hc).1

/-! ## Digits -/

theorem digits?_eq_some {cs ds rest : List Char} (h : digits? cs = some (ds, rest)) :
    cs = ds ++ rest ∧ IsDigits ds := by
  simp only [digits?] at h
  split at h
  · cases h
  · rename_i hne
    simp only [Option.some.injEq, Prod.mk.injEq] at h
    obtain ⟨rfl, rfl⟩ := h
    refine ⟨List.takeWhile_append_dropWhile.symm, fun hnil => hne (List.isEmpty_iff.mpr hnil), ?_⟩
    exact List.all_eq_true.mp List.all_takeWhile

theorem digits?_of_isDigits {ds rest : List Char} (h : IsDigits ds) (hrest : EndsDigits rest) :
    digits? (ds ++ rest) = some (ds, rest) := by
  have hstop : rest.takeWhile Char.isDigit = [] ∧ rest.dropWhile Char.isDigit = rest := by
    cases rest with
    | nil => exact ⟨rfl, rfl⟩
    | cons c rest => simp [hrest c rfl]
  have htake : (ds ++ rest).takeWhile Char.isDigit = ds := by
    rw [List.takeWhile_append_of_pos h.2, hstop.1, List.append_nil]
  have hdrop : (ds ++ rest).dropWhile Char.isDigit = rest := by
    rw [List.dropWhile_append_of_pos h.2, hstop.2]
  have hne : ds.isEmpty = false := List.isEmpty_eq_false_iff.mpr h.1
  simp only [digits?, htake, hdrop, hne, Bool.false_eq_true, if_false]

theorem IsDigits.head {ds : List Char} (h : IsDigits ds) :
    ∃ c rest, ds = c :: rest ∧ c.isDigit = true := by
  cases ds with
  | nil => exact absurd rfl h.1
  | cons c rest => exact ⟨c, rest, rfl, h.2 c List.mem_cons_self⟩

theorem whole?_eq_some {cs ws rest : List Char} (h : whole? cs = some (ws, rest)) :
    cs = ws ++ rest ∧ IsWhole ws := by
  unfold whole? at h
  split at h
  · cases h
  · rename_i hzero
    obtain ⟨hcs, hds⟩ := digits?_eq_some h
    refine ⟨hcs, hds, fun hhead => ?_⟩
    obtain ⟨ds, rfl⟩ := List.head?_eq_some_iff.mp hhead
    cases ds with
    | nil => rfl
    | cons c ds => exact absurd h (hzero c ds rest)

theorem whole?_of_isWhole {ws rest : List Char} (h : IsWhole ws) (hrest : EndsDigits rest) :
    whole? (ws ++ rest) = some (ws, rest) := by
  rw [whole?, digits?_of_isDigits h.1 hrest]
  split
  · rename_i heq
    obtain ⟨rfl, rfl⟩ := Prod.mk.inj (Option.some.inj heq)
    cases h.2 rfl
  · rfl

/-! ## Fractions and exponents -/

theorem fraction?_eq_some {cs rest : List Char} {fraction : Option (List Char)}
    (h : fraction? cs = some (fraction, rest)) :
    ∃ fs, cs = fs ++ rest ∧ IsFraction fs fraction := by
  unfold fraction? at h
  split at h
  · simp only [Option.map_eq_some_iff, Prod.exists, Prod.mk.injEq] at h
    obtain ⟨ds, _, hds, rfl, rfl⟩ := h
    obtain ⟨rfl, hdigits⟩ := digits?_eq_some hds
    exact ⟨_, rfl, .some hdigits⟩
  · obtain ⟨rfl, rfl⟩ := Prod.mk.inj (Option.some.inj h)
    exact ⟨[], rfl, .none⟩

theorem fraction?_of_isFraction {fs rest : List Char} {fraction : Option (List Char)}
    (h : IsFraction fs fraction) (hdigits : EndsDigits rest) (hpoint : rest.head? ≠ some '.') :
    fraction? (fs ++ rest) = some (fraction, rest) := by
  cases h with
  | none =>
    rw [List.nil_append]
    unfold fraction?
    split
    · exact absurd rfl hpoint
    · rfl
  | some hds =>
    rw [List.cons_append, fraction?, digits?_of_isDigits hds hdigits]
    rfl

theorem exponentBody?_eq_some {cs rest : List Char} {exponent : Option (Bool × List Char)}
    (h : exponentBody? cs = some (exponent, rest)) :
    ∃ es e, cs = es ++ rest ∧ exponent = some e ∧ IsExponentBody es e := by
  unfold exponentBody? at h
  split at h
  all_goals
    simp only [Option.map_eq_some_iff, Prod.exists, Prod.mk.injEq] at h
    obtain ⟨ds, _, hds, rfl, rfl⟩ := h
    obtain ⟨rfl, hdigits⟩ := digits?_eq_some hds
  · exact ⟨_, _, rfl, rfl, .plus hdigits⟩
  · exact ⟨_, _, rfl, rfl, .minus hdigits⟩
  · exact ⟨_, _, rfl, rfl, .bare hdigits⟩

theorem exponentBody?_of_isExponentBody {es rest : List Char} {e : Bool × List Char}
    (h : IsExponentBody es e) (hrest : EndsDigits rest) :
    exponentBody? (es ++ rest) = some (some e, rest) := by
  cases h with
  | plus hds | minus hds =>
    rw [List.cons_append, exponentBody?, digits?_of_isDigits hds hrest]
    rfl
  | bare hds =>
    have hread := digits?_of_isDigits hds hrest
    obtain ⟨c, ds, rfl, hc⟩ := hds.head
    rw [List.cons_append] at hread ⊢
    unfold exponentBody?
    split
    · rename_i heq
      obtain ⟨rfl, -⟩ := List.cons.inj heq
      exact absurd hc (by decide)
    · rename_i heq
      obtain ⟨rfl, -⟩ := List.cons.inj heq
      exact absurd hc (by decide)
    · rw [hread]
      rfl

theorem exponent?_eq_some {cs rest : List Char} {exponent : Option (Bool × List Char)}
    (h : exponent? cs = some (exponent, rest)) :
    ∃ es, cs = es ++ rest ∧ IsExponent es exponent := by
  unfold exponent? at h
  split at h
  · obtain ⟨es, e, rfl, rfl, he⟩ := exponentBody?_eq_some h
    exact ⟨_, rfl, .small he⟩
  · obtain ⟨es, e, rfl, rfl, he⟩ := exponentBody?_eq_some h
    exact ⟨_, rfl, .capital he⟩
  · obtain ⟨rfl, rfl⟩ := Prod.mk.inj (Option.some.inj h)
    exact ⟨[], rfl, .none⟩

theorem exponent?_of_isExponent {es rest : List Char} {exponent : Option (Bool × List Char)}
    (h : IsExponent es exponent) (hrest : Ends rest) :
    exponent? (es ++ rest) = some (exponent, rest) := by
  cases h with
  | none =>
    rw [List.nil_append]
    unfold exponent?
    split
    · exact absurd rfl (hrest 'e' rfl).2.2.1
    · exact absurd rfl (hrest 'E' rfl).2.2.2
    · rfl
  | small he | capital he =>
    rw [List.cons_append, exponent?]
    exact exponentBody?_of_isExponentBody he hrest.digits

/-! ## Numerals -/

theorem spells_of_unsigned? {negative : Bool} {cs rest : List Char} {n : Numeral}
    (h : unsigned? negative cs = some (n, rest)) :
    ∃ pre, cs = pre ++ rest ∧ SpellsUnsigned negative pre n := by
  simp only [unsigned?, Option.bind_eq_bind, Option.bind_eq_some_iff, Prod.exists,
    Option.pure_def, Option.some.injEq, Prod.mk.injEq] at h
  obtain ⟨ws, _, hws, fraction, _, hfs, exponent, _, hes, rfl, rfl⟩ := h
  obtain ⟨rfl, hwhole⟩ := whole?_eq_some hws
  obtain ⟨fs, rfl, hfraction⟩ := fraction?_eq_some hfs
  obtain ⟨es, rfl, hexponent⟩ := exponent?_eq_some hes
  exact ⟨ws ++ (fs ++ es), by simp only [List.append_assoc], .mk hwhole hfraction hexponent⟩

/-- **What is read as a numeral spells one.** -/
theorem spells_of_ofChars? {cs rest : List Char} {n : Numeral} (h : ofChars? cs = some (n, rest)) :
    ∃ pre, cs = pre ++ rest ∧ Spells pre n := by
  unfold ofChars? at h
  split at h
  · obtain ⟨pre, rfl, hpre⟩ := spells_of_unsigned? h
    exact ⟨'-' :: pre, rfl, .negative hpre⟩
  · obtain ⟨pre, rfl, hpre⟩ := spells_of_unsigned? h
    exact ⟨pre, rfl, .positive hpre⟩

/-- The characters after the whole digits of a numeral are no digits and do not begin with a point
unless the fraction does. -/
theorem IsExponent.ends {es rest : List Char} {exponent : Option (Bool × List Char)}
    (h : IsExponent es exponent) (hrest : Ends rest) :
    EndsDigits (es ++ rest) ∧ (es ++ rest).head? ≠ some '.' := by
  cases h with
  | none => exact ⟨hrest.digits, fun hhead => (hrest '.' hhead).2.1 rfl⟩
  | small _ | capital _ =>
    refine ⟨fun c hc => ?_, by simp⟩
    obtain rfl : _ = c := Option.some.inj hc
    decide

theorem IsFraction.ends {fs rest : List Char} {fraction : Option (List Char)}
    (h : IsFraction fs fraction) (hrest : EndsDigits rest) : EndsDigits (fs ++ rest) := by
  cases h with
  | none => exact hrest
  | some _ =>
    intro c hc
    obtain rfl : '.' = c := Option.some.inj hc
    decide

theorem unsigned?_of_spells {negative : Bool} {pre rest : List Char} {n : Numeral}
    (h : SpellsUnsigned negative pre n) (hrest : Ends rest) :
    unsigned? negative (pre ++ rest) = some (n, rest) := by
  obtain ⟨hw, hf, he⟩ := h
  -- No part can take more than its own characters, since the next one begins differently.
  obtain ⟨hdigits, hpoint⟩ := he.ends hrest
  simp only [List.append_assoc, unsigned?]
  rw [whole?_of_isWhole hw (hf.ends hdigits)]
  simp only [Option.bind_eq_bind, Option.bind_some]
  rw [fraction?_of_isFraction hf hdigits hpoint]
  simp only [Option.bind_some]
  rw [exponent?_of_isExponent he hrest]
  rfl

theorem Spells.head {cs : List Char} {n : Numeral} (h : Spells cs n) :
    ∃ c rest, cs = c :: rest ∧ (c = '-' ∨ c.isDigit = true) := by
  cases h with
  | negative _ => exact ⟨'-', _, rfl, Or.inl rfl⟩
  | positive h =>
    obtain ⟨hw, -, -⟩ := h
    obtain ⟨c, ws, rfl, hc⟩ := hw.1.head
    exact ⟨c, _, rfl, Or.inr hc⟩

/-- **A spelled numeral is read**, and nothing of what follows it. -/
theorem ofChars?_of_spells {pre rest : List Char} {n : Numeral} (h : Spells pre n)
    (hrest : Ends rest) : ofChars? (pre ++ rest) = some (n, rest) := by
  cases h with
  | negative h =>
    rw [List.cons_append, ofChars?]
    exact unsigned?_of_spells h hrest
  | positive h =>
    have hread := unsigned?_of_spells h hrest
    obtain ⟨hw, -, -⟩ := h
    obtain ⟨c, ws, rfl, hc⟩ := hw.1.head
    -- A digit comes first, so nothing is taken for a sign.
    unfold ofChars?
    split
    · rename_i heq
      obtain ⟨rfl, -⟩ := List.cons.inj heq
      exact absurd hc (by decide)
    · exact hread

end EgressPolicy.Numeral
