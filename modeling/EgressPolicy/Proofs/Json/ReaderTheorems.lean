import EgressPolicy.Proofs.Json.Grammar

/-!
The reader and the grammar agree.

A text that is read to its end has by the grammar the tree that the reader gives it, and a text that
has a tree by the grammar is read to its end and gets just that tree (`hasTree_iff`). So a text has
one tree at most, and the bound on the depth of the calls is never met.
-/

namespace EgressPolicy.Json

namespace Grammar

/-! ## Blanks and words -/

theorem spaces_skipSpace (cs : List Char) : Spaces cs (skipSpace cs) := by
  induction cs with
  | nil => exact .nil
  | cons c cs ih =>
    rw [skipSpace, List.dropWhile_cons]
    split
    · rename_i hc
      exact .cons hc ih
    · exact .nil

theorem skipSpace_of_spaces {cs rest : List Char} (h : Spaces cs rest) :
    skipSpace cs = skipSpace rest := by
  induction h with
  | nil => rfl
  | cons hc _ ih =>
    rw [skipSpace, List.dropWhile_cons_of_pos hc]
    exact ih

theorem skipSpace_cons {c : Char} (hc : isSpace c = false) (rest : List Char) :
    skipSpace (c :: rest) = c :: rest := by
  rw [skipSpace, List.dropWhile_cons_of_neg (by simp [hc])]

theorem word?_eq_some_iff {word cs rest : List Char} :
    word? word cs = some rest ↔ cs = word ++ rest := by
  fun_induction word? word cs with
  | case1 cs => simp
  | case2 w ws cs ih => simp [ih]
  | case3 w ws c cs hne => simp [Ne.symm hne]
  | case4 w ws => simp

theorem leaf_eq_iff {tree t : Tree} {rest : Option (List Char)} {rest' : List Char} :
    leaf tree rest = (t, some rest') ↔ tree = t ∧ rest = some rest' := by
  cases rest <;> simp [leaf]

/-! ## Strings -/

theorem pieces_of_stringUnits? {cs rest : List Char} {units : List Unit16}
    (h : stringUnits? cs = some (units, rest)) : Pieces cs units rest := by
  fun_induction stringUnits? cs generalizing units rest with
  | case1 | case4 | case6 | case7 | case9 => cases h
  | case2 =>
    cases h
    exact .close
  | case3 _ _ _ _ _ _ _ _ hread hunit ih =>
    cases h
    exact .unicode hunit (ih hread)
  | case5 _ _ _ _ _ _ hread hc ih =>
    cases h
    exact .escape hc (ih hread)
  | case8 c _ hquote _ _ hc _ _ hread ih =>
    cases h
    rw [not_or, Nat.not_lt] at hc
    exact .plain hquote hc.1 hc.2 (ih hread)

theorem stringUnits?_of_pieces {cs rest : List Char} {units : List Unit16}
    (h : Pieces cs units rest) : stringUnits? cs = some (units, rest) := by
  induction h with
  | close => rfl
  | plain _ hslash hcontrol _ ih =>
    simp [stringUnits?, ih, hslash, hcontrol]
  | @escape c meaning cs rest units hc _ ih =>
    have hu : c ≠ 'u' := by
      rintro rfl
      cases hc
    simp [stringUnits?, ih, hc, hu]
  | unicode hunit _ ih => simp [stringUnits?, ih, hunit]

/-- A string after its opening quote is read just where its pieces stand. -/
theorem string?_eq_some_iff {cs rest : List Char} {s : Option String} :
    string? cs = some (s, rest) ↔ ∃ units, Pieces cs units rest ∧ meaning? units = s := by
  simp only [string?, Option.map_eq_some_iff, Prod.exists, Prod.mk.injEq, meaning?]
  constructor
  · rintro ⟨units, _, hread, hs, rfl⟩
    exact ⟨units, pieces_of_stringUnits? hread, hs⟩
  · rintro ⟨units, hpieces, hs⟩
    exact ⟨units, rest, stringUnits?_of_pieces hpieces, hs, rfl⟩

/-! ## What is read keeps to the grammar -/

theorem element_of_read {cs cs' rest : List Char} {t : Tree} (h : Value (skipSpace cs) t cs')
    (hrest : skipSpace cs' = rest) : Element cs t rest :=
  .mk (spaces_skipSpace cs) h (hrest ▸ spaces_skipSpace cs')

/-- A key is read just where one stands. -/
theorem key_iff {cs rest : List Char} {key : Option String} :
    Key cs key rest ↔ ∃ cs' cs'', Json.skipSpace cs = '"' :: cs' ∧
      string? cs' = some (key, cs'') ∧ Json.skipSpace cs'' = ':' :: rest := by
  constructor
  · rintro ⟨hbefore, hpieces, hafter⟩
    refine ⟨_, _, ?_, string?_eq_some_iff.mpr ⟨_, hpieces, rfl⟩, ?_⟩
    · rw [skipSpace_of_spaces hbefore, skipSpace_cons rfl]
    · rw [skipSpace_of_spaces hafter, skipSpace_cons rfl]
  · rintro ⟨cs', cs'', hbefore, hstring, hafter⟩
    obtain ⟨units, hpieces, rfl⟩ := string?_eq_some_iff.mp hstring
    exact .mk (hbefore ▸ spaces_skipSpace cs) hpieces (hafter ▸ spaces_skipSpace cs'')

-- The three statements follow the calls of the reader; each call has less fuel than the one before.
mutual

theorem value_of_readValue : ∀ {fuel : Nat} {cs rest : List Char} {t : Tree},
    readValue fuel cs = (t, some rest) → Value (skipSpace cs) t rest
  | 0, _, _, _, h => by simp [readValue] at h
  | fuel + 1, cs, rest, t, h => by
    rw [readValue] at h
    split at h
    · cases h
    · rename_i cs' hcs
      obtain ⟨rfl, hword⟩ := leaf_eq_iff.mp h
      rw [hcs, word?_eq_some_iff.mp hword]
      exact .null
    · rename_i cs' hcs
      obtain ⟨rfl, hword⟩ := leaf_eq_iff.mp h
      rw [hcs, word?_eq_some_iff.mp hword]
      exact .boolTrue
    · rename_i cs' hcs
      obtain ⟨rfl, hword⟩ := leaf_eq_iff.mp h
      rw [hcs, word?_eq_some_iff.mp hword]
      exact .boolFalse
    · rename_i cs' hcs
      rw [hcs]
      split at h
      · rename_i hread
        cases h
        obtain ⟨units, hpieces, rfl⟩ := string?_eq_some_iff.mp hread
        exact .string hpieces
      · cases h
    · rename_i cs' hcs
      rw [hcs]
      split at h
      · rename_i hclose
        cases h
        exact .emptyArray (hclose ▸ spaces_skipSpace cs')
      · obtain ⟨rfl, hrest⟩ := Prod.mk.inj h
        have hitems := items_of_readItems (Prod.ext rfl hrest)
        exact .array (hitems.of_spaces (spaces_skipSpace cs'))
    · rename_i cs' hcs
      rw [hcs]
      split at h
      · rename_i hclose
        cases h
        exact .emptyObject (hclose ▸ spaces_skipSpace cs')
      · obtain ⟨rfl, hrest⟩ := Prod.mk.inj h
        have hmembers := members_of_readMembers (Prod.ext rfl hrest)
        exact .object (hmembers.of_spaces (spaces_skipSpace cs'))
    · rename_i c cs' _ _ _ _ _ _ hcs
      rw [hcs]
      split at h
      · rename_i hread
        cases h
        obtain ⟨pre, hpre, hspells⟩ := Numeral.spells_of_ofChars? hread
        rw [hpre]
        exact .number hspells
      · cases h

theorem items_of_readItems : ∀ {fuel : Nat} {cs rest : List Char} {items : List Tree},
    readItems fuel cs = (items, some rest) → Items cs items rest
  | 0, _, _, _, h => by simp [readItems] at h
  | fuel + 1, cs, rest, items, h => by
    rw [readItems] at h
    rcases hread : readValue fuel cs with ⟨t, after⟩
    rw [hread] at h
    cases after with
    | none => cases h
    | some cs' =>
      have hvalue := value_of_readValue hread
      simp only [Option.map_some] at h
      split at h
      · rename_i hcomma
        obtain ⟨rfl, hrest⟩ := Prod.mk.inj h
        have hmore := items_of_readItems (Prod.ext rfl hrest)
        exact .more (element_of_read hvalue (Option.some.inj hcomma)) hmore
      · rename_i hclose
        cases h
        exact .last (element_of_read hvalue (Option.some.inj hclose))
      · cases h
      · cases h

theorem members_of_readMembers : ∀ {fuel : Nat} {cs rest : List Char}
    {members : List (Option String × Tree)},
    readMembers fuel cs = (members, some rest) → Members cs members rest
  | 0, _, _, _, h => by simp [readMembers] at h
  | fuel + 1, cs, rest, members, h => by
    rw [readMembers] at h
    split at h
    · rename_i cs' hquote
      split at h
      · cases h
      · rename_i key cs'' hstring
        split at h
        · rename_i after hcolon
          have hkey := key_iff.mpr ⟨cs', cs'', hquote, hstring, hcolon⟩
          rcases hread : readValue fuel after with ⟨t, end?⟩
          rw [hread] at h
          cases end? with
          | none => cases h
          | some cs' =>
            have hvalue := value_of_readValue hread
            simp only [Option.map_some] at h
            split at h
            · rename_i hcomma
              obtain ⟨rfl, hrest⟩ := Prod.mk.inj h
              have hmore := members_of_readMembers (Prod.ext rfl hrest)
              exact .more hkey (element_of_read hvalue (Option.some.inj hcomma)) hmore
            · rename_i hclose
              cases h
              exact .last hkey (element_of_read hvalue (Option.some.inj hclose))
            · cases h
            · cases h
        · cases h
    · cases h

end

/-! ## What keeps to the grammar is read -/

/-- The first character of a value is no blank and closes no array. -/
theorem Value.head {cs rest : List Char} {t : Tree} (h : Value cs t rest) :
    ∃ c cs', cs = c :: cs' ∧ isSpace c = false ∧ c ≠ ']' := by
  cases h with
  | number h =>
    obtain ⟨c, cs, rfl, rfl | hc⟩ := h.head
    · exact ⟨'-', _, rfl, rfl, by decide⟩
    · refine ⟨c, _, rfl, ?_, fun hbracket => absurd (hbracket ▸ hc) (by decide)⟩
      rw [Bool.eq_false_iff]
      intro hspace
      simp only [isSpace, Bool.or_eq_true, beq_iff_eq] at hspace
      rcases hspace with ((rfl | rfl) | rfl) | rfl <;> exact absurd hc (by decide)
  | null | boolTrue | boolFalse | string _ | emptyArray _ | array _ | emptyObject _ | object _ =>
    exact ⟨_, _, rfl, rfl, by decide⟩

theorem Value.skipSpace {cs rest : List Char} {t : Tree} (h : Value cs t rest) :
    Json.skipSpace cs = cs := by
  obtain ⟨c, cs', rfl, hc, -⟩ := h.head
  exact skipSpace_cons hc cs'

theorem Element.head {cs rest : List Char} {t : Tree} (h : Element cs t rest) :
    ∃ c cs', Json.skipSpace cs = c :: cs' ∧ c ≠ ']' := by
  obtain ⟨hbefore, hvalue, -⟩ := h
  obtain ⟨c, cs', hcs, -, hc⟩ := hvalue.head
  exact ⟨c, cs', by rw [skipSpace_of_spaces hbefore, hvalue.skipSpace, hcs], hc⟩

theorem Items.head {cs rest : List Char} {items : List Tree} (h : Items cs items rest) :
    ∃ c cs', Json.skipSpace cs = c :: cs' ∧ c ≠ ']' := by
  cases h with
  | last h | more h _ => exact h.head

theorem Members.head {cs rest : List Char} {members : List (Option String × Tree)}
    (h : Members cs members rest) : ∃ cs', Json.skipSpace cs = '"' :: cs' := by
  cases h with
  | last hkey _ | more hkey _ _ =>
    obtain ⟨cs', -, hquote, -⟩ := key_iff.mp hkey
    exact ⟨cs', hquote⟩

/-- What may follow a value and the blanks after it: the end, a comma or a closing bracket. -/
def IsAfter (rest : List Char) : Prop :=
  ∀ c ∈ rest.head?, c = ',' ∨ c = ']' ∨ c = '\x7d'

theorem IsAfter.skipSpace {rest : List Char} (h : IsAfter rest) : Json.skipSpace rest = rest := by
  cases rest with
  | nil => rfl
  | cons c rest =>
    rcases h c rfl with rfl | rfl | rfl <;> exact skipSpace_cons rfl rest

/-- Blanks and what may follow them end a numeral. -/
theorem IsAfter.ends {cs rest : List Char} (h : IsAfter rest) (hs : Spaces cs rest) :
    Numeral.Ends cs := by
  intro c hc
  cases hs with
  | nil => rcases h c hc with rfl | rfl | rfl <;> decide
  | cons hspace _ =>
    obtain rfl := Option.some.inj hc
    simp only [isSpace, Bool.or_eq_true, beq_iff_eq] at hspace
    rcases hspace with ((rfl | rfl) | rfl) | rfl <;> decide

theorem readValue_number {cs rest cs' : List Char} {n : Numeral} {fuel : Nat}
    (h : Numeral.Spells cs n) (hends : Numeral.Ends rest) (hcs : Json.skipSpace cs' = cs ++ rest) :
    readValue (fuel + 1) cs' = (.number n.value?, some rest) := by
  have hread := Numeral.ofChars?_of_spells h hends
  obtain ⟨c, cs, rfl, hc⟩ := h.head
  rw [List.cons_append] at hread hcs
  have hne : ∀ d : Char, d ≠ '-' → d.isDigit = false → c ≠ d := by
    rintro d hminus hdigit rfl
    rcases hc with rfl | hc
    · exact hminus rfl
    · rw [hdigit] at hc
      cases hc
  rw [readValue, hcs]
  split
  · cases ‹c :: (cs ++ rest) = []›
  all_goals
    rename_i heq
    obtain ⟨rfl, rfl⟩ := List.cons.inj heq
  -- The alternatives before the last one begin with characters that begin no numeral.
  all_goals try exact absurd rfl (hne _ (by decide) (by decide))
  rw [hread]

theorem readValue_array {fuel : Nat} {cs cs' : List Char} (hcs : Json.skipSpace cs' = '[' :: cs)
    (hopen : (Json.skipSpace cs).head? ≠ some ']') :
    readValue (fuel + 1) cs' =
      (readItems fuel (Json.skipSpace cs)).map Tree.array id := by
  simp only [readValue, hcs]
  split
  · rename_i hclose
    rw [hclose] at hopen
    exact absurd rfl hopen
  · rfl

theorem readValue_object {fuel : Nat} {cs cs' : List Char} (hcs : Json.skipSpace cs' = '\x7b' :: cs)
    (hopen : (Json.skipSpace cs).head? ≠ some '\x7d') :
    readValue (fuel + 1) cs' =
      (readMembers fuel (Json.skipSpace cs)).map Tree.object id := by
  simp only [readValue, hcs]
  split
  · rename_i hclose
    rw [hclose] at hopen
    exact absurd rfl hopen
  · rfl

theorem skipSpace_skipSpace (cs : List Char) :
    Json.skipSpace (Json.skipSpace cs) = Json.skipSpace cs :=
  (skipSpace_of_spaces (spaces_skipSpace cs)).symm

-- Fuel of twice the characters that are left is enough, since every second call takes a character.
mutual

theorem readValue_of_value : ∀ (fuel : Nat) {cs cs' rest : List Char} {t : Tree},
    Value cs t rest → Json.skipSpace cs' = cs → Numeral.Ends rest → 2 * cs.length ≤ fuel →
      readValue fuel cs' = (t, some rest)
  | 0, _, _, _, _, h, _, _, hfuel => by
    have hlt := h.length_lt
    omega
  | fuel + 1, _, _, _, _, .null, hcs, _, _
  | fuel + 1, _, _, _, _, .boolTrue, hcs, _, _
  | fuel + 1, _, _, _, _, .boolFalse, hcs, _, _ => by
    simp only [readValue, hcs, word?, leaf, if_true]
  | fuel + 1, _, _, _, _, .number h, hcs, hends, _ => readValue_number h hends hcs
  | fuel + 1, _, _, _, _, .string h, hcs, _, _ => by
    simp only [readValue, hcs, string?_eq_some_iff.mpr ⟨_, h, rfl⟩]
  | fuel + 1, _, _, _, _, .emptyArray h, hcs, _, _
  | fuel + 1, _, _, _, _, .emptyObject h, hcs, _, _ => by
    have hclose := skipSpace_of_spaces h
    rw [skipSpace_cons rfl] at hclose
    simp only [readValue, hcs, hclose]
  | fuel + 1, _, _, _, _, .array h, hcs, _, hfuel => by
    obtain ⟨c, after, hafter, hc⟩ := h.head
    rw [List.length_cons] at hfuel
    rw [readValue_array hcs (by simp [hafter, hc]),
      readItems_of_items fuel h (skipSpace_skipSpace _) (by omega)]
    rfl
  | fuel + 1, _, _, _, _, .object h, hcs, _, hfuel => by
    obtain ⟨after, hafter⟩ := h.head
    rw [List.length_cons] at hfuel
    rw [readValue_object hcs (by simp [hafter]),
      readMembers_of_members fuel h (skipSpace_skipSpace _) (by omega)]
    rfl

theorem readValue_of_element : ∀ (fuel : Nat) {cs cs' rest : List Char} {t : Tree},
    Element cs t rest → Json.skipSpace cs' = Json.skipSpace cs → IsAfter rest →
      2 * cs.length ≤ fuel → ∃ after, readValue fuel cs' = (t, some after) ∧
        Json.skipSpace after = rest
  | fuel, _, _, _, _, .mk hbefore h hafter, hcs, hend, hfuel => by
    rw [skipSpace_of_spaces hbefore, h.skipSpace] at hcs
    have hle := hbefore.length_le
    refine ⟨_, readValue_of_value fuel h hcs (hend.ends hafter) (by omega), ?_⟩
    rw [skipSpace_of_spaces hafter, hend.skipSpace]

theorem readItems_of_items : ∀ (fuel : Nat) {cs cs' rest : List Char} {items : List Tree},
    Items cs items rest → Json.skipSpace cs' = Json.skipSpace cs → 2 * cs.length + 1 ≤ fuel →
      readItems fuel cs' = (items, some rest)
  | 0, _, _, _, _, _, _, hfuel => by omega
  | fuel + 1, _, _, _, _, .last h, hcs, hfuel => by
    obtain ⟨after, hread, hafter⟩ := readValue_of_element fuel h hcs (by simp [IsAfter]) (by omega)
    simp only [readItems, hread, Option.map_some, hafter]
  | fuel + 1, _, _, _, _, .more h hmore, hcs, hfuel => by
    have hlt := h.length_lt
    rw [List.length_cons] at hlt
    obtain ⟨after, hread, hafter⟩ := readValue_of_element fuel h hcs (by simp [IsAfter]) (by omega)
    simp only [readItems, hread, Option.map_some, hafter,
      readItems_of_items fuel hmore rfl (by omega)]

theorem readMembers_of_members : ∀ (fuel : Nat) {cs cs' rest : List Char}
    {members : List (Option String × Tree)},
    Members cs members rest → Json.skipSpace cs' = Json.skipSpace cs → 2 * cs.length + 1 ≤ fuel →
      readMembers fuel cs' = (members, some rest)
  | 0, _, _, _, _, _, _, hfuel => by omega
  | fuel + 1, _, _, _, _, .last hkey h, hcs, hfuel => by
    have hkeylt := hkey.length_lt
    obtain ⟨after, hread, hafter⟩ := readValue_of_element fuel h rfl (by simp [IsAfter]) (by omega)
    obtain ⟨cs', cs'', hquote, hstring, hcolon⟩ := key_iff.mp hkey
    simp only [readMembers, hcs.trans hquote, hstring, hcolon, hread, Option.map_some, hafter]
  | fuel + 1, _, _, _, _, .more hkey h hmore, hcs, hfuel => by
    have hkeylt := hkey.length_lt
    have hlt := h.length_lt
    rw [List.length_cons] at hlt
    obtain ⟨after, hread, hafter⟩ := readValue_of_element fuel h rfl (by simp [IsAfter]) (by omega)
    obtain ⟨cs', cs'', hquote, hstring, hcolon⟩ := key_iff.mp hkey
    simp only [readMembers, hcs.trans hquote, hstring, hcolon, hread, Option.map_some, hafter,
      readMembers_of_members fuel hmore rfl (by omega)]

end

end Grammar

/-! ## Whole texts -/

/-- **The reader decides the grammar.** A text is read to its end with some tree exactly when it has
that tree. -/
theorem hasTree_iff {s : String} {t : Tree} :
    HasTree s t ↔ (Page.ofText s).isComplete = true ∧ (Page.ofText s).tree = t := by
  have hpage : ∀ {t : Tree} {rest : Option (List Char)},
      readValue (2 * s.toList.length + 2) s.toList = (t, rest) →
        Page.ofText s = ⟨t, rest.any fun rest => (skipSpace rest).isEmpty⟩ := by
    intro t rest h
    rw [Page.ofText, h]
  constructor
  · intro h
    obtain ⟨after, hread, hafter⟩ := Grammar.readValue_of_element (2 * s.toList.length + 2) h rfl
      (by simp [Grammar.IsAfter]) (by omega)
    rw [hpage hread, Option.any_some, hafter]
    exact ⟨rfl, rfl⟩
  · rintro ⟨hcomplete, rfl⟩
    rcases hread : readValue (2 * s.toList.length + 2) s.toList with ⟨t, after⟩
    rw [hpage hread] at hcomplete ⊢
    cases after with
    | none => cases hcomplete
    | some after =>
      rw [Option.any_some, List.isEmpty_iff] at hcomplete
      exact Grammar.element_of_read (Grammar.value_of_readValue hread) hcomplete

/-- A text has one tree at most. -/
theorem HasTree.unique {s : String} {t t' : Tree} (h : HasTree s t) (h' : HasTree s t') : t = t' :=
  (hasTree_iff.mp h).2.symm.trans (hasTree_iff.mp h').2

end EgressPolicy.Json
