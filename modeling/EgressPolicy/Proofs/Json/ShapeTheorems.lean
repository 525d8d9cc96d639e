import EgressPolicy.Json.Decode
import EgressPolicy.Proofs.ExceptTheorems
import Mathlib.Data.List.Nodup

/-!
The shapes of trees, and what decoders take.

A shape is a predicate on trees that says what a schema asks for without a word on how it is read:
`IsObjectOf` lists the fields of an object, and of the members with other keys it says one thing for
all. `Takes decode fits` says that a decoder succeeds on the trees of a shape and on no others. Each
helper of the decoders has its shape, and an object that is read member by member into a draft takes
the shape of its fields (`Reads.takes_object`). So a single fault anywhere in a tree of many levels
is enough for the whole of it to be refused.
-/

namespace EgressPolicy.Json.Tree

/-! ## Shapes -/

def IsText (t : Tree) : Prop :=
  ∃ s, t = string (some s)

/-- A string that is one of some words when blanks around it and ASCII capitals do not count. -/
def IsWordOf (words : List String) (t : Tree) : Prop :=
  ∃ s, t = string (some s) ∧ Text.canonical s ∈ words

def IsInt64 (t : Tree) : Prop :=
  ∃ n, t = number (some (.integer n)) ∧ Int64.minValue.toInt ≤ n ∧ n ≤ Int64.maxValue.toInt

def IsNullOr (fits : Tree → Prop) (t : Tree) : Prop :=
  t = null ∨ fits t

def IsListOf (fits : Tree → Prop) (t : Tree) : Prop :=
  ∃ items, t = array items ∧ ∀ item ∈ items, fits item

/-- A tree that has a value and does not nest too deeply. -/
def IsKept (room : Nat) (t : Tree) : Prop :=
  (t.value? room).isSome = true

/-- A tree without a break, whatever it holds. -/
def IsAny (t : Tree) : Prop :=
  t.isGrammatical = true

/-- What a schema says of one field. -/
structure Field where
  name : String
  isRequired : Bool
  /-- The shape of its value. -/
  fits : Tree → Prop

/-- Whether a member may stand in an object with some fields: a field has its shape, and all other
members have one shape. -/
def FitsMember (fields : List Field) (others : Tree → Prop) (key : String) (t : Tree) : Prop :=
  (∀ f ∈ fields, f.name = key → f.fits t) ∧ (key ∉ fields.map Field.name → others t)

def timesGiven (name : String) (members : List (Option String × Tree)) : Nat :=
  members.countP fun m => m.1 == some name

/-- The members of an object with some fields: keys are Unicode, every member may stand there, no
field is given twice and no required field is left out. -/
structure HasFields (fields : List Field) (others : Tree → Prop)
    (members : List (Option String × Tree)) : Prop where
  member : ∀ m ∈ members, ∃ key, m.1 = some key ∧ FitsMember fields others key m.2
  once : ∀ f ∈ fields, timesGiven f.name members ≤ 1
  given : ∀ f ∈ fields, f.isRequired = true → 0 < timesGiven f.name members

def IsObjectOf (fields : List Field) (others : Tree → Prop) (t : Tree) : Prop :=
  ∃ members, t = object members ∧ HasFields fields others members

/-- Items that give some fields in their order. At the end fields may be left off that are not
required, and nothing follows the last field. -/
def FitInOrder : List Field → List Tree → Prop
  | fields, [] => ∀ f ∈ fields, f.isRequired = false
  | [], _ :: _ => False
  | f :: fields, t :: rest => f.fits t ∧ FitInOrder fields rest

/-- An array that gives some fields in their order. -/
def IsTupleOf (fields : List Field) (t : Tree) : Prop :=
  ∃ items, t = array items ∧ FitInOrder fields items

theorem isObjectOf_object_iff {fields : List Field} {others : Tree → Prop}
    {members : List (Option String × Tree)} :
    IsObjectOf fields others (object members) ↔ HasFields fields others members := by
  simp only [IsObjectOf, object.injEq, exists_eq_left']

/-! ## Decoders and their shapes -/

/-- A decoder succeeds exactly on the trees of a shape. -/
def Takes {α : Type} (decode : Tree → Decoded α) (fits : Tree → Prop) : Prop :=
  ∀ t, (∃ a, decode t = .ok a) ↔ fits t

section Takes

variable {α : Type} {decode : Tree → Decoded α} {fits : Tree → Prop}

theorem Takes.not_of_error (h : Takes decode fits) {t : Tree} (ht : (decode t).isOk = false) :
    ¬ fits t := by
  intro hfits
  obtain ⟨a, ha⟩ := (h t).mpr hfits
  rw [ha] at ht
  cases ht

theorem takes_text : Takes text IsText := by
  intro t
  constructor
  · rintro ⟨s, hs⟩
    unfold text at hs
    split at hs
    · exact ⟨_, rfl⟩
    · cases hs
  · rintro ⟨s, rfl⟩
    exact ⟨s, rfl⟩

theorem takes_int64 : Takes int64 IsInt64 := by
  intro t
  constructor
  · rintro ⟨i, hi⟩
    unfold int64 at hi
    split at hi
    · split at hi
      · rename_i hrange
        exact ⟨_, rfl, hrange⟩
      · cases hi
    · cases hi
  · rintro ⟨n, rfl, hrange⟩
    exact ⟨Int64.ofInt n, if_pos hrange⟩

theorem takes_kept (room : Nat) : Takes (kept room) (IsKept room) := by
  intro t
  rw [kept, IsKept]
  cases t.value? room <;> simp [orMalformed]

theorem takes_skipped : Takes skipped IsAny := by
  intro t
  rw [skipped, IsAny]
  cases t.isGrammatical <;> simp

theorem Takes.nullable (h : Takes decode fits) : Takes (nullable decode) (IsNullOr fits) := by
  intro t
  cases t with
  | null => exact ⟨fun _ => Or.inl rfl, fun _ => ⟨none, rfl⟩⟩
  | bool _ | number _ | string _ | array _ | object _ | broken =>
    simp only [Tree.nullable, IsNullOr, reduceCtorEq, false_or, exists_map_eq_ok_iff, h _]

theorem Takes.list (h : Takes decode fits) : Takes (list decode) (IsListOf fits) := by
  intro t
  cases t with
  | array items =>
    simp only [Tree.list, exists_mapM_eq_ok_iff, IsListOf, array.injEq, exists_eq_left', h _]
  | null | bool _ | number _ | string _ | object _ | broken => simp [Tree.list, IsListOf]

end Takes

/-! ## Objects that are read into a draft -/

section Reads

variable {σ : Type} {step : σ → String → Tree → Decoded σ} {has : σ → String → Bool}
  {fields : List Field} {others : Tree → Prop}

/-- A step that takes one member into a draft, seen from its fields: it refuses a field that the
draft has already and a member that may not stand there, and it notes which field it took. -/
structure Reads (step : σ → String → Tree → Decoded σ) (has : σ → String → Bool)
    (fields : List Field) (others : Tree → Prop) : Prop where
  has_other : ∀ draft key, key ∉ fields.map Field.name → has draft key = false
  step_iff : ∀ draft key t, (∃ after, step draft key t = .ok after) ↔
    has draft key = false ∧ FitsMember fields others key t
  has_step : ∀ draft key t after, step draft key t = .ok after →
    ∀ f ∈ fields, has after f.name = (has draft f.name || key == f.name)

/-- The same for the members of one field. -/
structure ReadsField (step : σ → String → Tree → Decoded σ) (has : σ → String → Bool)
    (f : Field) : Prop where
  step_iff : ∀ draft t, (∃ after, step draft f.name t = .ok after) ↔
    has draft f.name = false ∧ f.fits t
  has_step : ∀ draft t after, step draft f.name t = .ok after →
    ∀ key, has after key = (has draft key || f.name == key)

/-- The same for the members with a key that is no field. -/
structure ReadsOther (step : σ → String → Tree → Decoded σ) (has : σ → String → Bool)
    (others : Tree → Prop) (key : String) : Prop where
  has_eq : ∀ draft, has draft key = false
  step_iff : ∀ draft t, (∃ after, step draft key t = .ok after) ↔ others t
  has_step : ∀ draft t after, step draft key t = .ok after → has after = has draft

/-- A step reads an object if it reads each of its fields and whatever else is there. -/
theorem Reads.of_fields (hnodup : (fields.map Field.name).Nodup)
    (hfield : ∀ f ∈ fields, ReadsField step has f)
    (hother : ∀ key, key ∉ fields.map Field.name → ReadsOther step has others key) :
    Reads step has fields others where
  has_other draft key hkey := (hother key hkey).has_eq draft
  step_iff draft key t := by
    by_cases hkey : key ∈ fields.map Field.name
    · obtain ⟨f, hf, rfl⟩ := List.mem_map.mp hkey
      have hfits : FitsMember fields others f.name t ↔ f.fits t := by
        constructor
        · intro h
          exact h.1 f hf rfl
        · intro h
          refine ⟨fun g hg hname => ?_, fun hno => absurd hkey hno⟩
          obtain rfl := List.inj_on_of_nodup_map hnodup hg hf hname
          exact h
      rw [(hfield f hf).step_iff, hfits]
    · have hfits : FitsMember fields others key t ↔ others t := by
        refine ⟨fun h => h.2 hkey, fun h => ⟨fun f hf hname => ?_, fun _ => h⟩⟩
        exact absurd (List.mem_map.mpr ⟨f, hf, hname⟩) hkey
      rw [(hother key hkey).step_iff, (hother key hkey).has_eq, hfits]
      simp only [true_and]
  has_step draft key t after hafter f hf := by
    by_cases hkey : key ∈ fields.map Field.name
    · obtain ⟨g, hg, rfl⟩ := List.mem_map.mp hkey
      exact (hfield g hg).has_step draft t after hafter f.name
    · have hne : (key == f.name) = false :=
        beq_eq_false_iff_ne.mpr fun h => hkey (List.mem_map.mpr ⟨f, hf, h.symm⟩)
      rw [(hother key hkey).has_step draft t after hafter, hne, Bool.or_false]

/-- The value of a field is taken exactly when the field was not given before. -/
theorem exists_given_eq_ok_iff {α : Type} {decode : Tree → Decoded α} {fits : Tree → Prop}
    (h : Takes decode fits) (name : String) (before : Option α) (t : Tree) :
    (∃ a, given name before decode t = .ok a) ↔ before.isSome = false ∧ fits t := by
  cases before with
  | some a => simp [given]
  | none =>
    simp only [given, exists_map_eq_ok_iff, Option.isSome_none, true_and, h t]

/-- A required field is found exactly when it was given. -/
theorem exists_required_eq_ok_iff {α : Type} (name : String) (given : Option α) :
    (∃ a, required name given = .ok a) ↔ given.isSome = true := by
  cases given <;> simp [required]

/-- What is given is there afterwards. -/
theorem isSome_of_given {α : Type} {decode : Tree → Decoded α} {name : String}
    {before after : Option α} {t : Tree} (h : given name before decode t = .ok after) :
    after.isSome = true := by
  unfold given at h
  split at h
  · cases h
  · obtain ⟨a, -, rfl⟩ := map_eq_ok_iff.mp h
    rfl

/-- A field that is kept in a place of its own, where it may be given once. -/
theorem ReadsField.of_given {β : Type} {decode : Tree → Decoded β} {f : Field}
    (h : Takes decode f.fits) (get : σ → Option β) (put : σ → Option β → σ)
    (hstep : ∀ draft t, step draft f.name t =
      given f.name (get draft) decode t >>= fun b => pure (put draft b))
    (hget : ∀ draft, has draft f.name = (get draft).isSome)
    (hput : ∀ draft b key,
      has (put draft b) key = if key = f.name then b.isSome else has draft key) :
    ReadsField step has f where
  step_iff draft t := by
    rw [hstep, hget, exists_bind_pure_eq_ok_iff]
    exact exists_given_eq_ok_iff h f.name (get draft) t
  has_step draft t after hafter key := by
    rw [hstep, bind_eq_ok_iff] at hafter
    obtain ⟨b, hb, hafter⟩ := hafter
    obtain rfl := Except.ok.inj hafter
    rw [hput, isSome_of_given hb]
    by_cases hkey : key = f.name
    · simp [hkey]
    · have hne : (f.name == key) = false := beq_eq_false_iff_ne.mpr (Ne.symm hkey)
      rw [if_neg hkey, hne, Bool.or_false]

/-- Members with a key that is no field, which leave the fields of the draft alone. -/
theorem ReadsOther.of_takes {β : Type} {decode : Tree → Decoded β} (h : Takes decode others)
    {key : String} (put : σ → β → σ)
    (hstep : ∀ draft t, step draft key t = decode t >>= fun b => pure (put draft b))
    (hkey : ∀ draft, has draft key = false)
    (hput : ∀ draft b, has (put draft b) = has draft) : ReadsOther step has others key where
  has_eq := hkey
  step_iff draft t := by
    rw [hstep, exists_bind_pure_eq_ok_iff]
    exact h t
  has_step draft t after hafter := by
    rw [hstep, bind_eq_ok_iff] at hafter
    obtain ⟨b, -, hafter⟩ := hafter
    obtain rfl := Except.ok.inj hafter
    exact hput draft b

theorem foldMembers_some (draft : σ) (key : String) (t : Tree)
    (rest : List (Option String × Tree)) :
    foldMembers step draft ((some key, t) :: rest) =
      step draft key t >>= fun after => foldMembers step after rest := rfl

/-- A key that is not Unicode ends the reading. -/
theorem foldMembers_none (draft : σ) (t : Tree) (rest : List (Option String × Tree)) (after : σ) :
    foldMembers step draft ((none, t) :: rest) ≠ .ok after := nofun

theorem timesGiven_cons (name : String) (m : Option String × Tree)
    (rest : List (Option String × Tree)) :
    timesGiven name (m :: rest) = timesGiven name rest + if m.1 == some name then 1 else 0 := by
  rw [timesGiven, List.countP_cons]
  rfl

/-- A step that takes a field moves its count from the members into the draft. -/
theorem Reads.timesGiven_step (h : Reads step has fields others) {draft after : σ} {key : String}
    {t : Tree} (hafter : step draft key t = .ok after) (rest : List (Option String × Tree))
    {f : Field} (hf : f ∈ fields) :
    timesGiven f.name rest + (has after f.name).toNat =
      timesGiven f.name ((some key, t) :: rest) + (has draft f.name).toNat := by
  have hfresh := ((h.step_iff draft key t).mp ⟨after, hafter⟩).1
  rw [h.has_step draft key t after hafter f hf, timesGiven_cons]
  by_cases hkey : key = f.name
  · subst hkey
    simp [hfresh]
  · have hne : (key == f.name) = false := beq_eq_false_iff_ne.mpr hkey
    simp [hne]

/-- A key that may still be given is not in the draft. -/
theorem Reads.has_eq_false (h : Reads step has fields others) {draft : σ} {key : String} {t : Tree}
    {rest : List (Option String × Tree)}
    (honce : ∀ f ∈ fields,
      timesGiven f.name ((some key, t) :: rest) + (has draft f.name).toNat ≤ 1) :
    has draft key = false := by
  by_cases hfield : key ∈ fields.map Field.name
  · obtain ⟨f, hf, rfl⟩ := List.mem_map.mp hfield
    have hle := honce f hf
    rw [timesGiven_cons] at hle
    cases hhas : has draft f.name with
    | false => rfl
    | true => simp [hhas] at hle
  · exact h.has_other draft key hfield

/-- **Reading members one after the other** succeeds exactly when each may stand there and no field
is given twice, neither among them nor in the draft before. -/
theorem Reads.foldMembers_iff (h : Reads step has fields others) :
    ∀ (members : List (Option String × Tree)) (draft : σ),
      (∃ after, foldMembers step draft members = .ok after) ↔
        (∀ m ∈ members, ∃ key, m.1 = some key ∧ FitsMember fields others key m.2) ∧
        ∀ f ∈ fields, timesGiven f.name members + (has draft f.name).toNat ≤ 1
  | [], draft => by
    constructor
    · intro _
      refine ⟨fun m hm => absurd hm List.not_mem_nil, fun f _ => ?_⟩
      rw [timesGiven, List.countP_nil, Nat.zero_add]
      exact Bool.toNat_le _
    · intro _
      exact ⟨draft, rfl⟩
  | (none, t) :: rest, draft => by
    constructor
    · rintro ⟨after, hafter⟩
      exact absurd hafter (foldMembers_none draft t rest after)
    · rintro ⟨hmember, -⟩
      obtain ⟨key, hkey, -⟩ := hmember (none, t) List.mem_cons_self
      cases hkey
  | (some key, t) :: rest, draft => by
    rw [foldMembers_some]
    simp only [bind_eq_ok_iff, List.forall_mem_cons]
    constructor
    · rintro ⟨final, after, hafter, hrest⟩
      obtain ⟨hmember, honce⟩ := (h.foldMembers_iff rest after).mp ⟨final, hrest⟩
      have hfits := ((h.step_iff draft key t).mp ⟨after, hafter⟩).2
      refine ⟨⟨⟨key, rfl, hfits⟩, hmember⟩, fun f hf => ?_⟩
      rw [← h.timesGiven_step hafter rest hf]
      exact honce f hf
    · rintro ⟨⟨⟨_, hkey, hfits⟩, hmember⟩, honce⟩
      obtain rfl := Option.some.inj hkey
      obtain ⟨after, hafter⟩ := (h.step_iff draft key t).mpr ⟨h.has_eq_false honce, hfits⟩
      have hrest : ∀ f ∈ fields, timesGiven f.name rest + (has after f.name).toNat ≤ 1 := by
        intro f hf
        rw [h.timesGiven_step hafter rest hf]
        exact honce f hf
      obtain ⟨final, hfinal⟩ := (h.foldMembers_iff rest after).mpr ⟨hmember, hrest⟩
      exact ⟨final, after, hafter, hfinal⟩

/-- The fields of the draft in the end are those that it had and those that were given. -/
theorem Reads.has_foldMembers (h : Reads step has fields others) :
    ∀ (members : List (Option String × Tree)) (draft after : σ),
      foldMembers step draft members = .ok after → ∀ f ∈ fields,
        has after f.name = (has draft f.name || decide (0 < timesGiven f.name members))
  | [], draft, after, hafter, f, _ => by
    obtain rfl : draft = after := Except.ok.inj hafter
    simp [timesGiven]
  | (none, t) :: rest, draft, after, hafter, _, _ =>
    absurd hafter (foldMembers_none draft t rest after)
  | (some key, t) :: rest, draft, after, hafter, f, hf => by
    rw [foldMembers_some, bind_eq_ok_iff] at hafter
    obtain ⟨next, hnext, hrest⟩ := hafter
    rw [h.has_foldMembers rest next after hrest f hf, h.has_step draft key t next hnext f hf,
      timesGiven_cons]
    by_cases hkey : key = f.name
    · simp [hkey]
    · have hne : (key == f.name) = false := beq_eq_false_iff_ne.mpr hkey
      simp [hne]

/-- **Objects.** Reading an object into an empty draft, and finishing the draft where it has all
that is required, takes the objects with these fields. -/
theorem Reads.takes_object {α : Type} (h : Reads step has fields others) (empty : σ)
    (hempty : ∀ key, has empty key = false) {finish : σ → Decoded α}
    (hfinish : ∀ draft, (∃ a, finish draft = .ok a) ↔
      ∀ f ∈ fields, f.isRequired = true → has draft f.name = true)
    (members : List (Option String × Tree)) :
    (∃ a, (foldMembers step empty members >>= finish) = .ok a) ↔
      HasFields fields others members := by
  have hread := h.foldMembers_iff members empty
  simp only [hempty, Bool.toNat_false, Nat.add_zero] at hread
  simp only [bind_eq_ok_iff]
  constructor
  · rintro ⟨a, draft, hdraft, ha⟩
    obtain ⟨hmember, honce⟩ := hread.mp ⟨draft, hdraft⟩
    refine ⟨hmember, honce, fun f hf hrequired => ?_⟩
    have hhas := (hfinish draft).mp ⟨a, ha⟩ f hf hrequired
    rw [h.has_foldMembers members empty draft hdraft f hf, hempty] at hhas
    simpa using hhas
  · rintro ⟨hmember, honce, hgiven⟩
    obtain ⟨draft, hdraft⟩ := hread.mpr ⟨hmember, honce⟩
    have hall : ∀ f ∈ fields, f.isRequired = true → has draft f.name = true := by
      intro f hf hrequired
      rw [h.has_foldMembers members empty draft hdraft f hf, hempty]
      simpa using hgiven f hf hrequired
    obtain ⟨a, ha⟩ := (hfinish draft).mpr hall
    exact ⟨a, draft, hdraft, ha⟩

/-- A decoder of objects alone. -/
theorem Reads.takes {α : Type} (h : Reads step has fields others) (empty : σ)
    (hempty : ∀ key, has empty key = false) {finish : σ → Decoded α}
    (hfinish : ∀ draft, (∃ a, finish draft = .ok a) ↔
      ∀ f ∈ fields, f.isRequired = true → has draft f.name = true)
    {decode : Tree → Decoded α}
    (hobject : ∀ members, decode (object members) = foldMembers step empty members >>= finish)
    (hother : ∀ t, (∀ members, t ≠ object members) → ∃ e, decode t = .error e) :
    Takes decode (IsObjectOf fields others) := by
  intro t
  by_cases ht : ∃ members, t = object members
  · obtain ⟨members, rfl⟩ := ht
    rw [hobject, h.takes_object empty hempty hfinish, isObjectOf_object_iff]
  · rw [not_exists] at ht
    obtain ⟨e, he⟩ := hother t ht
    simp [he, IsObjectOf, ht]

end Reads

end EgressPolicy.Json.Tree
