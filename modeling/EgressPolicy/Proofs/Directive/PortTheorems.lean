import EgressPolicy.Proofs.Directive.AcceptedTheorems
import EgressPolicy.Proofs.Number.NumeralTheorems
import EgressPolicy.Proofs.Text.DecimalTheorems
import EgressPolicy.Proofs.Text.PieceTheorems
import Mathlib.Data.List.TakeDrop

/-!
The grammar of port lists.

`Ports.IsItem` says what an item is without reading a number: a port is spelled by its decimal
digits, with zeros and one plus sign in front if one likes and blanks around it, and a range by two
ports with a hyphen between them. Only the items of a route's patterns count, not how the patterns
divide them (`requirePorts_eq`), and `ofRoute_blockPort` says what becomes of a route for every list
of items. What is written for a list of items is read as the same items (`items_text`).

The items are written as they were spelled, so a sign, and blanks beside a hyphen, come through:
`isPlain_blockPort_iff` says which lists the engine can read.
-/

namespace EgressPolicy

namespace Ports

/-! ## Ports and ranges -/

/-- The spellings of a port. -/
def IsPort (n : Nat) (cs : List Char) : Prop :=
  1 ≤ n ∧ n ≤ 65535 ∧ ∃ sign zeros, (sign = [] ∨ sign = ['+']) ∧
    Text.strip cs = sign ++ (List.replicate zeros '0' ++ Text.Decimal.digits n)

/-- The items of a port list: a port, or two ports in order with a hyphen between them. -/
inductive IsItem : List Char → Prop where
  | port {cs : List Char} {n : Nat} (hyphen : '-' ∉ cs) (h : IsPort n cs) : IsItem cs
  | range {low high : List Char} {m n : Nat} (hyphen : '-' ∉ low) (hlow : IsPort m low)
    (hhigh : IsPort n high) (hle : m ≤ n) : IsItem (low ++ '-' :: high)

/-- Zeros and the digits of a number hold no sign. -/
theorem isDigit_of_mem_numeral {zeros n : Nat} {c : Char}
    (h : c ∈ List.replicate zeros '0' ++ Text.Decimal.digits n) : c.isDigit = true := by
  rcases List.mem_append.mp h with hzero | hdigit
  · rw [List.eq_of_mem_replicate hzero]
    rfl
  · exact Text.Decimal.isDigit_of_mem_digits hdigit

/-- A port is read from its spellings and from nothing else. -/
theorem port?_eq_some_iff {cs : List Char} {n : Nat} : port? cs = some n ↔ IsPort n cs := by
  unfold port? IsPort
  simp only [Option.filter_eq_some_iff, Bool.and_eq_true, decide_eq_true_eq]
  constructor
  · rintro ⟨hvalue, hlow, hhigh⟩
    obtain ⟨zeros, hds⟩ := (Text.Decimal.value?_eq_some_iff hlow).mp hvalue
    refine ⟨hlow, hhigh, ?_⟩
    split at hds
    · rename_i rest hcs
      exact ⟨['+'], zeros, Or.inr rfl, by rw [hcs, hds]; rfl⟩
    · exact ⟨[], zeros, Or.inl rfl, hds⟩
  · rintro ⟨hlow, hhigh, sign, zeros, hsign, hcs⟩
    refine ⟨(Text.Decimal.value?_eq_some_iff hlow).mpr ⟨zeros, ?_⟩, hlow, hhigh⟩
    rcases hsign with rfl | rfl
    · rw [List.nil_append] at hcs
      split
      · rename_i rest hplus
        have hmem : '+' ∈ Text.strip cs := hplus ▸ List.mem_cons_self
        cases isDigit_of_mem_numeral (hcs ▸ hmem)
      · exact hcs
    · rw [hcs]
      rfl

/-- An item without a hyphen has to be a port. -/
theorem isValid_of_notMem {cs : List Char} (h : '-' ∉ cs) : isValid cs = (port? cs).isSome := by
  have hall : cs.dropWhile (· != '-') = [] := by
    rw [List.dropWhile_eq_nil_iff]
    intro c hc
    exact bne_iff_ne.mpr fun heq => h (heq ▸ hc)
  rw [isValid, splitRange?, List.span_eq_takeWhile_dropWhile, hall]

/-- An item is divided at its first hyphen. -/
theorem isValid_append_hyphen {low : List Char} (h : '-' ∉ low) (high : List Char) :
    isValid (low ++ '-' :: high) = true ↔
      ∃ m n, port? low = some m ∧ port? high = some n ∧ m ≤ n := by
  have hstop : ∀ c ∈ low, (c != '-') = true := by
    intro c hc
    exact bne_iff_ne.mpr fun heq => h (heq ▸ hc)
  have hsplit : splitRange? (low ++ '-' :: high) = some (low, high) := by
    rw [splitRange?, List.span_eq_takeWhile_dropWhile, List.takeWhile_append_of_pos hstop,
      List.dropWhile_append_of_pos hstop]
    simp
  rw [isValid, hsplit]
  dsimp only
  cases port? low <;> cases port? high <;> simp

/-- **Items.** The check of an item takes the items of a port list and nothing else. -/
theorem isValid_iff {item : List Char} : isValid item = true ↔ IsItem item := by
  constructor
  · intro h
    by_cases hyphen : '-' ∈ item
    · obtain ⟨low, high, rfl, hlow⟩ := List.eq_append_cons_of_mem hyphen
      obtain ⟨m, n, hm, hn, hle⟩ := (isValid_append_hyphen hlow high).mp h
      exact .range hlow (port?_eq_some_iff.mp hm) (port?_eq_some_iff.mp hn) hle
    · rw [isValid_of_notMem hyphen, Option.isSome_iff_exists] at h
      obtain ⟨n, hn⟩ := h
      exact .port hyphen (port?_eq_some_iff.mp hn)
  · intro h
    cases h with
    | port hyphen hport =>
      rw [isValid_of_notMem hyphen, port?_eq_some_iff.mpr hport]
      rfl
    | range hyphen hlow hhigh hle =>
      exact (isValid_append_hyphen hyphen _).mpr
        ⟨_, _, port?_eq_some_iff.mpr hlow, port?_eq_some_iff.mpr hhigh, hle⟩

/-! ## The items of patterns -/

/-- The items of the patterns come one pattern after the other. -/
theorem items_cons (p : String) (ps : List String) : items (p :: ps) = items [p] ++ items ps := by
  simp [items]

/-- Blanks around a pattern are blanks around its items. -/
theorem items_trim (p : String) : items [Text.trim p] = items [p] := by
  have hcomma : ∀ c, Text.isBlank c = true → (c == ',') = false := by
    intro c hc
    refine beq_eq_false_iff_ne.mpr fun heq => ?_
    subst heq
    cases hc
  have hpieces := Text.map_strip_splitOnP_strip hcomma p.toList
  simp only [items, List.flatMap_cons, List.flatMap_nil, List.append_nil, Text.toList_trim,
    List.splitOn_eq_splitOnP, hpieces]

/-- A pattern of blanks has no items. -/
theorem items_of_trim_eq_empty {p : String} (h : Text.trim p = "") : items [p] = [] := by
  rw [← items_trim, h]
  decide

/-- Cleaning the patterns changes no item. -/
theorem items_cleanPatterns (r : Route) : items r.cleanPatterns = items r.patterns := by
  unfold Route.cleanPatterns
  induction r.patterns with
  | nil => rfl
  | cons p ps ih =>
    rw [List.map_cons, items_cons p, List.filter_cons]
    by_cases hp : Text.trim p = ""
    · rw [if_neg (by simpa using hp), ih, items_of_trim_eq_empty hp, List.nil_append]
    · rw [if_pos (by simpa using hp), items_cons, ih, items_trim]

/-- An item is not empty, has no blank at either end and holds no comma. -/
theorem item_of_mem_items {patterns : List String} {item : List Char} (h : item ∈ items patterns) :
    item ≠ [] ∧ Text.strip item = item ∧ ',' ∉ item := by
  simp only [items, List.mem_filter, List.mem_map, List.mem_flatMap, decide_eq_true_eq] at h
  obtain ⟨⟨piece, ⟨p, -, hpiece⟩, rfl⟩, hne⟩ := h
  refine ⟨hne, Text.strip_strip piece, fun hcomma => ?_⟩
  rw [List.splitOn_eq_splitOnP] at hpiece
  have hno := (Text.isJoined_splitOnP p.toList).eq_false _ hpiece ',' (Text.mem_of_mem_strip hcomma)
  simp at hno

/-- A text of items is divided into them again. -/
theorem splitOn_text {patterns : List String} (h : items patterns ≠ []) :
    (text (items patterns)).toList.splitOn ',' = items patterns := by
  rw [text, String.toList_ofList]
  exact List.splitOn_intercalate ',' (fun item hitem => (item_of_mem_items hitem).2.2) h

/-- **Writing items.** The text of some items has these items, as a pattern of its own. -/
theorem items_text (patterns : List String) : items [text (items patterns)] = items patterns := by
  by_cases hnil : items patterns = []
  · rw [hnil]
    decide
  · have hsame : ∀ item ∈ items patterns, Text.strip item = item :=
      fun item hitem => (item_of_mem_items hitem).2.1
    have hkept : ∀ item ∈ items patterns, decide (item ≠ []) = true :=
      fun item hitem => decide_eq_true (item_of_mem_items hitem).1
    show ((List.flatMap _ [_]).map Text.strip).filter _ = _
    rw [List.flatMap_singleton, splitOn_text hnil, List.map_congr_left hsame, List.map_id',
      List.filter_eq_self.mpr hkept]

/-! ## What becomes of items -/

/-- The text of items that are all valid, or the first fault. -/
def checked (items : List (List Char)) : Except DirectiveError String :=
  match items.find? fun item => !isValid item with
  | some item => .error (.invalidPort (String.ofList item))
  | none => if items = [] then .error (.emptyMatch .blockPort) else .ok (text items)

/-- The item that is found is the first one that is not valid. -/
theorem find?_not_isValid_eq_some_iff {items : List (List Char)} {item : List Char} :
    (items.find? fun item => !isValid item) = some item ↔
      ∃ before after, items = before ++ item :: after ∧ (∀ i ∈ before, IsItem i) ∧
        ¬ IsItem item := by
  simp only [List.find?_eq_some_iff_append, Bool.not_eq_true', Bool.not_not, isValid_iff,
    ← Bool.not_eq_true]
  constructor
  · rintro ⟨hitem, before, after, hitems, hbefore⟩
    exact ⟨before, after, hitems, hbefore, hitem⟩
  · rintro ⟨before, after, hitems, hbefore, hitem⟩
    exact ⟨hitem, before, after, hitems, hbefore⟩

theorem find?_not_isValid_eq_none_iff {items : List (List Char)} :
    (items.find? fun item => !isValid item) = none ↔ ∀ i ∈ items, IsItem i := by
  simp only [List.find?_eq_none, Bool.not_eq_true', Bool.not_eq_false, isValid_iff]

/-- No items is the fault of no items alone. -/
theorem checked_eq_emptyMatch_iff {items : List (List Char)} :
    checked items = .error (.emptyMatch .blockPort) ↔ items = [] := by
  constructor
  · intro h
    unfold checked at h
    split at h
    · cases h
    · split at h
      · assumption
      · cases h
  · rintro rfl
    rfl

/-- The first item that is not valid is reported. -/
theorem checked_eq_invalidPort_iff {items : List (List Char)} {s : String} :
    checked items = .error (.invalidPort s) ↔
      ∃ before item after, items = before ++ item :: after ∧ (∀ i ∈ before, IsItem i) ∧
        ¬ IsItem item ∧ s = String.ofList item := by
  constructor
  · intro h
    unfold checked at h
    split at h
    · rename_i item hfind
      obtain ⟨before, after, hitems, hbefore, hitem⟩ := find?_not_isValid_eq_some_iff.mp hfind
      simp only [Except.error.injEq, DirectiveError.invalidPort.injEq] at h
      exact ⟨before, item, after, hitems, hbefore, hitem, h.symm⟩
    · split at h <;> cases h
  · rintro ⟨before, item, after, hitems, hbefore, hitem, rfl⟩
    rw [checked, find?_not_isValid_eq_some_iff.mpr ⟨before, after, hitems, hbefore, hitem⟩]

/-- Items have a text exactly when there are some and all are valid. -/
theorem checked_eq_ok_iff {items : List (List Char)} {s : String} :
    checked items = .ok s ↔ items ≠ [] ∧ (∀ i ∈ items, IsItem i) ∧ s = text items := by
  constructor
  · intro h
    unfold checked at h
    split at h
    · cases h
    · rename_i hfind
      split at h
      · cases h
      · rename_i hne
        exact ⟨hne, find?_not_isValid_eq_none_iff.mp hfind, (Except.ok.inj h).symm⟩
  · rintro ⟨hne, hall, rfl⟩
    rw [checked, find?_not_isValid_eq_none_iff.mpr hall]
    exact if_neg hne

end Ports

/-! ## The port list of a route -/

/-- **Only the items count.** The port list of a route is checked and written item by item, however
the patterns divide the items. -/
theorem Route.requirePorts_eq (r : Route) :
    r.requirePorts = Ports.checked (Ports.items r.patterns) := by
  unfold Route.requirePorts Route.requirePatterns
  rw [← Ports.items_cleanPatterns]
  by_cases hclean : r.cleanPatterns = []
  · rw [if_pos hclean, hclean]
    rfl
  · rw [if_neg hclean]
    rfl

namespace Directive

/-- A route that blocks ports is accepted with its port list, or refused for the fault of that. -/
theorem ofRoute_of_action_blockPort {r : Route} (h : r.action = "block_port") :
    ofRoute r =
      (Ports.checked (Ports.items r.patterns)).map fun ports => some (blockPort ports) := by
  have hname : Action.ofName? r.action = some .blockPort := Action.ofName?_eq_some_iff.mpr h
  rw [ofRoute, hname, ← Route.requirePorts_eq]
  show (r.requirePorts >>= fun ports => pure (blockPort ports)).map some = _
  cases r.requirePorts <;> rfl

/-- **Port lists, exactly.** A route that blocks ports is refused for want of items, or for the
first item that is not valid, or accepted with its items joined by commas, and each of that exactly
when it has to be. So routes with the same items have the same answer, and a port list that was
accepted is accepted again as one pattern and stays what it is. -/
theorem ofRoute_blockPort (id : Option Int64) (patterns : List String) (value : Option String) :
    let items := Ports.items patterns
    let answer := ofRoute ⟨id, "block_port", patterns, value⟩
    (answer = .error (.emptyMatch .blockPort) ↔ items = []) ∧
    (∀ s, answer = .error (.invalidPort s) ↔
      ∃ before item after, items = before ++ item :: after ∧ (∀ i ∈ before, Ports.IsItem i) ∧
        ¬ Ports.IsItem item ∧ s = String.ofList item) ∧
    (∀ d, answer = .ok d ↔ items ≠ [] ∧ (∀ i ∈ items, Ports.IsItem i) ∧
      d = some (blockPort (Ports.text items))) ∧
    (∀ id' patterns' value', Ports.items patterns' = items →
      ofRoute ⟨id', "block_port", patterns', value'⟩ = answer) ∧
    ∀ id' value' ports, answer = .ok (some (blockPort ports)) →
      ofRoute ⟨id', "block_port", [ports], value'⟩ = answer := by
  intro items answer
  have hanswer : ∀ id' patterns' value', ofRoute ⟨id', "block_port", patterns', value'⟩ =
      (Ports.checked (Ports.items patterns')).map fun ports => some (blockPort ports) :=
    fun _ _ _ => ofRoute_of_action_blockPort rfl
  have hmap_error : ∀ e, answer = .error e ↔ Ports.checked items = .error e := by
    intro e
    rw [show answer = _ from hanswer id patterns value]
    cases Ports.checked (Ports.items patterns) <;> simp [Except.map]
  refine ⟨?_, fun s => ?_, fun d => ?_, ?_, ?_⟩
  · rw [hmap_error, Ports.checked_eq_emptyMatch_iff]
  · rw [hmap_error, Ports.checked_eq_invalidPort_iff]
  · rw [show answer = _ from hanswer id patterns value, map_eq_ok_iff]
    simp only [Ports.checked_eq_ok_iff]
    constructor
    · rintro ⟨ports, ⟨hne, hall, rfl⟩, rfl⟩
      exact ⟨hne, hall, rfl⟩
    · rintro ⟨hne, hall, rfl⟩
      exact ⟨_, ⟨hne, hall, rfl⟩, rfl⟩
  · intro id' patterns' value' hitems
    rw [hanswer, hitems]
    exact (hanswer id patterns value).symm
  · intro id' value' ports haccepted
    rw [show answer = _ from hanswer id patterns value, map_eq_ok_iff] at haccepted
    obtain ⟨_, hports, heq⟩ := haccepted
    obtain rfl := (blockPort.inj (Option.some.inj heq)).symm
    obtain ⟨-, -, rfl⟩ := Ports.checked_eq_ok_iff.mp hports
    rw [hanswer, Ports.items_text]
    exact (hanswer id patterns value).symm

/-- A list with blanks, empty items, a sign and zeros, and the same items in one pattern. -/
theorem ofRoute_blockPort_spread :
    ofRoute ⟨some 7, "block_port", [" 0080,, 443 -500 ", ",", "\t+25"], none⟩ =
      .ok (some (blockPort "0080,443 -500,+25")) ∧
    ofRoute ⟨none, "block_port", ["0080,443 -500,+25"], some "x"⟩ =
      .ok (some (blockPort "0080,443 -500,+25")) := by
  have hspread : ofRoute ⟨some 7, "block_port", [" 0080,, 443 -500 ", ",", "\t+25"], none⟩ =
      .ok (some (blockPort "0080,443 -500,+25")) := by decide +kernel
  obtain ⟨-, -, -, -, hagain⟩ :=
    ofRoute_blockPort (some 7) [" 0080,, 443 -500 ", ",", "\t+25"] none
  exact ⟨hspread, (hagain none (some "x") _ hspread).trans hspread⟩

end Directive

/-! ## What the engine reads -/

namespace Ports

/-- An item in the words of the engine: digits, or digits on both sides of one hyphen. -/
inductive IsPlain : List Char → Prop where
  | port {ds : List Char} (h : Numeral.IsDigits ds) : IsPlain ds
  | range {low high : List Char} (hlow : Numeral.IsDigits low) (hhigh : Numeral.IsDigits high) :
    IsPlain (low ++ '-' :: high)

/-- A character that the engine does not know in a port list, but that the spelling of a port may
have. -/
def IsForeign (c : Char) : Prop :=
  c = '+' ∨ Text.isBlank c = true

/-- Digits are plain. -/
theorem not_isForeign_of_isDigit {c : Char} (h : c.isDigit = true) : ¬ IsForeign c := by
  rintro (rfl | hblank)
  · cases h
  · obtain ⟨hlt, hchar⟩ := Text.Decimal.digitChar_of_isDigit h
    have hdigits : ∀ d < 10, Text.isBlank (Nat.digitChar d) = false := by decide
    rw [← hchar, hdigits _ hlt] at hblank
    cases hblank

theorem IsPlain.not_isForeign {item : List Char} (h : IsPlain item) :
    ∀ c ∈ item, ¬ IsForeign c := by
  intro c hc
  cases h with
  | port h => exact not_isForeign_of_isDigit (h.2 c hc)
  | range hlow hhigh =>
    rcases List.mem_append.mp hc with hc | hc
    · exact not_isForeign_of_isDigit (hlow.2 c hc)
    · rcases List.mem_cons.mp hc with rfl | hc
      · rintro (h | h) <;> cases h
      · exact not_isForeign_of_isDigit (hhigh.2 c hc)

/-- A port is spelled in digits where it has no sign and no blanks. -/
theorem IsPort.isDigits {n : Nat} {cs : List Char} (h : IsPort n cs)
    (hplain : ∀ c ∈ cs, ¬ IsForeign c) : Numeral.IsDigits cs := by
  obtain ⟨-, -, sign, zeros, hsign, hcs⟩ := h
  rw [Text.strip_of_forall fun c hc => by simpa using fun hb => hplain c hc (Or.inr hb)] at hcs
  rcases hsign with rfl | rfl
  · rw [List.nil_append] at hcs
    refine ⟨?_, fun c hc => isDigit_of_mem_numeral (hcs ▸ hc)⟩
    rw [hcs]
    exact List.append_ne_nil_of_right_ne_nil _ (Text.Decimal.digits_ne_nil n)
  · exact absurd (Or.inl rfl) (hplain '+' (hcs ▸ List.mem_cons_self))

/-- An item is plain unless it holds a sign or a blank. -/
theorem IsItem.isPlain_iff {item : List Char} (h : IsItem item) :
    IsPlain item ↔ ∀ c ∈ item, ¬ IsForeign c := by
  refine ⟨IsPlain.not_isForeign, fun hplain => ?_⟩
  cases h with
  | port _ hport => exact .port (hport.isDigits hplain)
  | range _ hlow hhigh _ =>
    refine .range (hlow.isDigits fun c hc => hplain c ?_) (hhigh.isDigits fun c hc => hplain c ?_)
    · exact List.mem_append_left _ hc
    · exact List.mem_append_right _ (List.mem_cons_of_mem _ hc)

end Ports

/-- **Plain port lists, exactly.** The port list of an accepted route consists of the route's items,
each of which is valid. The engine can read all of them exactly when no plus sign and no blank is in
the list. -/
theorem Directive.isPlain_blockPort_iff {r : Route} {ports : String}
    (h : r.directive? = some (.blockPort ports)) :
    ports.toList.splitOn ',' = Ports.items r.patterns ∧
    (∀ item ∈ ports.toList.splitOn ',', Ports.IsItem item) ∧
    ((∀ item ∈ ports.toList.splitOn ',', Ports.IsPlain item) ↔
      ∀ c ∈ ports.toList, ¬ Ports.IsForeign c) := by
  have hports : r.requirePorts = .ok ports := (directive?_eq_some_iff.mp h).2
  rw [Route.requirePorts_eq, Ports.checked_eq_ok_iff] at hports
  obtain ⟨hne, hall, rfl⟩ := hports
  have hcomma : ¬ Ports.IsForeign ',' := by
    rintro (h | h) <;> cases h
  rw [Ports.splitOn_text hne]
  refine ⟨rfl, hall, ?_⟩
  rw [Ports.text, String.toList_ofList, Text.forall_mem_intercalate hcomma]
  constructor
  · intro hplain item hitem
    exact (hplain item hitem).not_isForeign
  · intro hforeign item hitem
    exact (hall item hitem).isPlain_iff.mpr (hforeign item hitem)

/-- A list in plain spelling. -/
theorem Directive.isPlain_blockPort_iff_plain :
    Route.directive? ⟨none, "block_port", ["0080, 443-500"], none⟩ =
      some (.blockPort "0080,443-500") ∧
    ∀ item ∈ "0080,443-500".toList.splitOn ',', Ports.IsPlain item := by
  have haccepted : Route.directive? ⟨none, "block_port", ["0080, 443-500"], none⟩ =
      some (.blockPort "0080,443-500") := by decide +kernel
  refine ⟨haccepted, (Directive.isPlain_blockPort_iff haccepted).2.2.mpr ?_⟩
  have hchars : "0080,443-500".toList.all (fun c => c != '+' && !Text.isBlank c) = true := by
    decide +kernel
  simp only [List.all_eq_true, Bool.and_eq_true, bne_iff_ne, Bool.not_eq_true'] at hchars
  rintro c hc (rfl | hblank)
  · exact (hchars _ hc).1 rfl
  · rw [(hchars c hc).2] at hblank
    cases hblank

/-- A range with blanks around its hyphen is accepted, and so are its blanks. -/
theorem Directive.not_isPlain_blockPort_blanks :
    Directive.ofRoute ⟨none, "block_port", ["80 - 90"], none⟩ =
      .ok (some (.blockPort "80 - 90")) ∧
    ¬ ∀ item ∈ "80 - 90".toList.splitOn ',', Ports.IsPlain item := by
  refine ⟨by decide +kernel, fun hplain => ?_⟩
  have hitem : "80 - 90".toList ∈ "80 - 90".toList.splitOn ',' := by decide +kernel
  exact (hplain _ hitem).not_isForeign ' ' (by decide +kernel) (Or.inr rfl)

end EgressPolicy
