import EgressPolicy.Proofs.ExceptTheorems
import EgressPolicy.Proofs.Json.FieldOrderTheorems
import EgressPolicy.Proofs.Json.TreeTheorems
import EgressPolicy.Proofs.Number.WritingTheorems
import Mathlib.Data.List.Forall2

/-!
The spellings of a datum.

A schema may allow a datum to be written in several ways. `Spells decode spelling` says that a
decoder reads a datum from its spellings and from nothing else. For an object that is read into a
draft, each field has a `Place` in the draft, and then the spellings of a datum are the objects
whose fields spell its parts, where a field may be left out that gives its default
(`ReadsPlaces.object_spells`). Records may be arrays of their fields as well
(`ReadsPlaces.spells_record`). The order of the members of a record does not count, nor do members
with other keys (`Spells.toOption_object_of_perm`).
-/

namespace EgressPolicy.Json.Tree

/-- A decoder reads a datum from its spellings and from nothing else. -/
def Spells {α : Type} (decode : Tree → Decoded α) (spelling : α → Tree → Prop) : Prop :=
  ∀ t a, decode t = .ok a ↔ spelling a t

/-! ## Simple values -/

def TextSpelling (s : String) (t : Tree) : Prop :=
  t = string (some s)

/-- An integer is spelled as a number without a fraction and an exponent. -/
def Int64Spelling (i : Int64) (t : Tree) : Prop :=
  t = number (some (.integer i.toInt))

/-- What is unset is spelled as null. -/
def OptionSpelling {α : Type} (spelling : α → Tree → Prop) : Option α → Tree → Prop
  | none, t => t = null
  | some a, t => spelling a t

def ListSpelling {α : Type} (spelling : α → Tree → Prop) (l : List α) (t : Tree) : Prop :=
  ∃ items, t = array items ∧ List.Forall₂ spelling l items

theorem spells_text : Spells text TextSpelling := by
  intro t s
  constructor
  · intro h
    unfold text at h
    split at h
    · rw [Except.ok.inj h]
      rfl
    · cases h
  · rintro rfl
    rfl

theorem spells_int64 : Spells int64 Int64Spelling := by
  intro t i
  constructor
  · intro h
    unfold int64 at h
    split at h
    · rename_i n
      split at h
      · rename_i hrange
        obtain rfl := Except.ok.inj h
        have hmax : Int64.maxValue.toInt = 2 ^ 63 - 1 := by decide
        rw [Int64Spelling, Int64.toInt_ofInt_of_le hrange.1 (by omega)]
      · cases h
    · cases h
  · rintro rfl
    rw [int64, if_pos ⟨Int64.minValue_le_toInt i, Int64.toInt_le i⟩, Int64.ofInt_toInt]

/-- What is written for a list spells it if what is written for its items does. -/
theorem listSpelling_ofValueBy {α : Type} {spelling : α → Tree → Prop}
    {read : Number → Option Number} {toJson : α → Json}
    (h : ∀ a, spelling a (ofValueBy read (toJson a))) (l : List α) :
    ListSpelling spelling l (ofValueBy read (.array (l.map toJson))) := by
  refine ⟨_, rfl, ?_⟩
  rw [ofValuesBy_eq_map, List.map_map, List.forall₂_map_right_iff, List.forall₂_same]
  exact fun a _ => h a

/-- A written integer spells the number of 64 bits that it is, and none where it is too large. -/
theorem int64Spelling_reread?_iff {i : Int64} {n : Int} :
    Int64Spelling i (number (Number.integer n).reread?) ↔ i.toInt = n := by
  rw [Int64Spelling, number.injEq, Number.reread?_eq_integer_iff]
  refine ⟨And.left, ?_⟩
  rintro rfl
  have hlow : -Nat.pow 2 63 ≤ i.toInt := Int64.le_toInt i
  have hhigh : i.toInt < Nat.pow 2 63 := Int64.toInt_lt i
  have hpow : Nat.pow 2 64 = 2 * Nat.pow 2 63 := rfl
  exact ⟨rfl, hlow, by omega⟩

theorem int64Spelling_ofValueBy (i : Int64) :
    Int64Spelling i (ofValueBy Number.reread? (.number (.integer i.toInt))) :=
  int64Spelling_reread?_iff.mpr rfl

section

variable {α : Type} {decode : Tree → Decoded α} {spelling : α → Tree → Prop}

theorem Spells.nullable (h : Spells decode spelling) (hnull : ∀ a, ¬ spelling a null) :
    Spells (nullable decode) (OptionSpelling spelling) := by
  intro t value
  cases value with
  | none => cases t <;> simp [Tree.nullable, OptionSpelling, Except.map] <;> split <;> simp
  | some a =>
    cases t with
    | null => simp [Tree.nullable, OptionSpelling, hnull]
    | bool _ | number _ | string _ | array _ | object _ | broken =>
      simp only [Tree.nullable, OptionSpelling, map_eq_ok_iff, Option.some.injEq, exists_eq_right,
        h _ _]

theorem Spells.list (h : Spells decode spelling) :
    Spells (list decode) (ListSpelling spelling) := by
  intro t l
  cases t with
  | array items =>
    have hmember : ∀ t a, (decode t = .ok a) = spelling a t := fun t a => propext (h t a)
    simp only [Tree.list, mapM_eq_ok_iff, hmember, ListSpelling, array.injEq, exists_eq_left']
    exact ⟨List.Forall₂.flip, List.Forall₂.flip⟩
  | null | bool _ | number _ | string _ | object _ | broken => simp [Tree.list, ListSpelling]

end

/-! ## Records -/

/-- A record is spelled as an object with its fields, in which neither the order of the members nor
those with other keys count (`hasFields_iff_of_perm`), or as an array of its fields. -/
def RecordSpelling (fields : List Field) (t : Tree) : Prop :=
  t.IsObjectOf fields IsAny ∨ t.IsTupleOf fields

theorem recordSpelling_object_iff {fields : List Field} {members : List (Option String × Tree)} :
    RecordSpelling fields (object members) ↔ HasFields fields IsAny members := by
  rw [RecordSpelling, isObjectOf_object_iff]
  simp [IsTupleOf]

theorem recordSpelling_array_iff {fields : List Field} {items : List Tree} :
    RecordSpelling fields (array items) ↔ FitInOrder fields items := by
  simp [RecordSpelling, IsObjectOf, IsTupleOf]

/-- **Members in any order.** What is read of a record does not change when its members are put into
another order and members with other keys are put among them. -/
theorem Spells.toOption_object_of_perm {α : Type} {decode : Tree → Decoded α}
    {fields : α → List Field} {names : List String}
    (h : Spells decode fun a => RecordSpelling (fields a))
    (hnames : ∀ a, (fields a).map Field.name = names)
    {members members' more : List (Option String × Tree)} (hmore : AreOthers names IsAny more)
    (hperm : members'.Perm (members ++ more)) :
    (decode (object members')).toOption = (decode (object members)).toOption := by
  refine Option.ext fun a => ?_
  have hread : ∀ ms, (decode (object ms)).toOption = some a ↔ HasFields (fields a) IsAny ms :=
    fun ms => toOption_eq_some_iff.trans ((h _ a).trans recordSpelling_object_iff)
  rw [hread, hread]
  exact hasFields_iff_of_perm (hnames a ▸ hmore) hperm

/-- A field of which another asks no more: the other has the same name, may be left out where this
one may, and takes what this one takes. -/
structure Field.Implies (f g : Field) : Prop where
  name_eq : f.name = g.name
  isRequired : g.isRequired = true → f.isRequired = true
  fits : ∀ t, f.fits t → g.fits t

theorem Field.Implies.refl (f : Field) : f.Implies f :=
  ⟨rfl, id, fun _ => id⟩

section Implies

variable {fields others : List Field} (h : List.Forall₂ Field.Implies fields others)

include h

theorem Field.exists_implies {g : Field} (hg : g ∈ others) : ∃ f ∈ fields, f.Implies g := by
  induction h with
  | nil => exact absurd hg List.not_mem_nil
  | @cons f _ _ _ hf _ ih =>
    rcases List.mem_cons.mp hg with rfl | hg
    · exact ⟨f, List.mem_cons_self, hf⟩
    · obtain ⟨f, hf, himplies⟩ := ih hg
      exact ⟨f, List.mem_cons_of_mem _ hf, himplies⟩

theorem Field.map_name_eq : fields.map Field.name = others.map Field.name := by
  induction h with
  | nil => rfl
  | cons hf _ ih => rw [List.map_cons, List.map_cons, hf.name_eq, ih]

theorem HasFields.implies {members : List (Option String × Tree)}
    (hmembers : HasFields fields IsAny members) : HasFields others IsAny members where
  member m hm := by
    obtain ⟨key, hkey, hfits, hother⟩ := hmembers.member m hm
    refine ⟨key, hkey, fun g hg hname => ?_, Field.map_name_eq h ▸ hother⟩
    obtain ⟨f, hf, himplies⟩ := Field.exists_implies h hg
    exact himplies.fits _ (hfits f hf (himplies.name_eq.trans hname))
  once g hg := by
    obtain ⟨f, hf, himplies⟩ := Field.exists_implies h hg
    exact himplies.name_eq ▸ hmembers.once f hf
  given g hg hrequired := by
    obtain ⟨f, hf, himplies⟩ := Field.exists_implies h hg
    exact himplies.name_eq ▸ hmembers.given f hf (himplies.isRequired hrequired)

theorem FitInOrder.implies {items : List Tree} (hitems : FitInOrder fields items) :
    FitInOrder others items := by
  induction h generalizing items with
  | nil => exact hitems
  | @cons f g fields others hf hrest ih =>
    cases items with
    | nil =>
      intro g' hg'
      obtain ⟨f', hf', himplies⟩ := Field.exists_implies (hrest.cons hf) hg'
      have hfree : f'.isRequired = false := hitems f' hf'
      cases hrequired : g'.isRequired with
      | false => rfl
      | true =>
        rw [himplies.isRequired hrequired] at hfree
        exact hfree
    | cons t rest => exact ⟨hf.fits t hitems.1, ih hitems.2⟩

/-- A record that has some fields has others that ask no more. -/
theorem RecordSpelling.implies {t : Tree} (ht : RecordSpelling fields t) :
    RecordSpelling others t := by
  rcases ht with ⟨members, rfl, hmembers⟩ | ⟨items, rfl, hitems⟩
  · exact Or.inl ⟨members, rfl, hmembers.implies h⟩
  · exact Or.inr ⟨items, rfl, hitems.implies h⟩

end Implies

theorem required_eq_ok_iff {α : Type} {name : String} {value : Option α} {a : α} :
    required name value = .ok a ↔ value = some a := by
  cases value <;> simp [required]

/-- The place of a field in a draft of a datum. -/
structure Place (σ δ : Type) where
  {α : Type}
  name : String
  decode : Tree → Decoded α
  spelling : α → Tree → Prop
  spells : Spells decode spelling
  get : σ → Option α
  put : σ → Option α → σ
  /-- The part of a datum that the field gives. -/
  part : δ → α
  /-- The part where the field is left out, if it may be. -/
  default? : Option α
  /-- Whether a datum has another part than that. -/
  isRequired : δ → Bool
  isRequired_eq_false_iff : ∀ d, isRequired d = false ↔ default? = some (part d)

namespace Place

variable {σ δ : Type}

/-- The field of one datum: it spells its part, and may only be left out where the default is as
good. -/
def field (p : Place σ δ) (d : δ) : Field :=
  ⟨p.name, p.isRequired d, p.spelling (p.part d)⟩

/-- The field of whatever datum: it can be decoded, and may be left out as far as reading goes. -/
def shape (p : Place σ δ) : Field :=
  ⟨p.name, false, fun t => ∃ a, p.decode t = .ok a⟩

/-- A draft gives a datum its part. -/
def Gives (p : Place σ δ) (draft : σ) (d : δ) : Prop :=
  (p.get draft).or p.default? = some (p.part d)

/-- Members give a datum its part. -/
def Meets (p : Place σ δ) (members : List (Option String × Tree)) (d : δ) : Prop :=
  (∀ t, (some p.name, t) ∈ members → p.spelling (p.part d) t) ∧
    (p.isRequired d = true → 0 < timesGiven p.name members)

end Place

/-- A step that decodes each field into its place and skips all other members. -/
structure ReadsPlaces {σ δ : Type} (step : σ → String → Tree → Decoded σ)
    (places : List (Place σ δ)) : Prop where
  nodup : (places.map Place.name).Nodup
  step_place : ∀ p ∈ places, ∀ draft t, step draft p.name t =
    given p.name (p.get draft) p.decode t >>= fun a => pure (p.put draft a)
  step_other : ∀ draft key t, key ∉ places.map Place.name →
    step draft key t = t.skipped >>= fun _ => pure draft
  get_put_self : ∀ p ∈ places, ∀ draft a, p.get (p.put draft a) = a
  get_put_other : ∀ p ∈ places, ∀ q ∈ places, p.name ≠ q.name →
    ∀ draft a, q.get (p.put draft a) = q.get draft

section Places

variable {σ δ : Type} {step : σ → String → Tree → Decoded σ} {places : List (Place σ δ)}

/-- Whether the field with a name has been read. -/
def hasRead (places : List (Place σ δ)) (draft : σ) (key : String) : Bool :=
  places.any fun p => p.name == key && (p.get draft).isSome

namespace ReadsPlaces

variable (h : ReadsPlaces step places)

include h

theorem eq_of_name {p q : Place σ δ} (hp : p ∈ places) (hq : q ∈ places) (hname : p.name = q.name) :
    p = q :=
  List.inj_on_of_nodup_map h.nodup hp hq hname

theorem hasRead_name {p : Place σ δ} (hp : p ∈ places) (draft : σ) :
    hasRead places draft p.name = (p.get draft).isSome := by
  rw [Bool.eq_iff_iff, hasRead, List.any_eq_true]
  constructor
  · rintro ⟨q, hq, hread⟩
    rw [Bool.and_eq_true, beq_iff_eq] at hread
    obtain rfl := h.eq_of_name hq hp hread.1
    exact hread.2
  · intro hread
    exact ⟨p, hp, by rw [beq_self_eq_true, hread]; rfl⟩

/-- Putting something into a place changes what has been read for that field alone. -/
theorem hasRead_put {p : Place σ δ} (hp : p ∈ places) (draft : σ) (a : Option p.α) (key : String) :
    hasRead places (p.put draft a) key =
      if key = p.name then a.isSome else hasRead places draft key := by
  split
  · rename_i hkey
    subst hkey
    rw [h.hasRead_name hp, h.get_put_self p hp]
  · rename_i hkey
    rw [Bool.eq_iff_iff, hasRead, hasRead, List.any_eq_true, List.any_eq_true]
    refine exists_congr fun q => and_congr_right fun hq => ?_
    rw [Bool.and_eq_true, Bool.and_eq_true, beq_iff_eq]
    refine and_congr_right fun hname => ?_
    rw [h.get_put_other p hp q hq fun heq => hkey (hname.symm.trans heq.symm)]

/-- Such a step reads objects with these fields. -/
theorem reads : Reads step (hasRead places) (places.map Place.shape) IsAny := by
  have hnames : (places.map Place.shape).map Field.name = places.map Place.name := by
    rw [List.map_map]
    rfl
  refine .of_fields (hnames ▸ h.nodup) ?_ ?_
  · intro f hf
    obtain ⟨p, hp, rfl⟩ := List.mem_map.mp hf
    exact .of_given (fun t => Iff.rfl) p.get p.put (h.step_place p hp) (h.hasRead_name hp)
      (h.hasRead_put hp)
  · intro key hkey
    rw [hnames] at hkey
    refine .of_takes takes_skipped (fun draft _ => draft)
      (fun draft t => h.step_other draft key t hkey) (fun draft => ?_) fun _ _ => rfl
    rw [hasRead, List.any_eq_false]
    intro p hp hread
    rw [Bool.and_eq_true, beq_iff_eq] at hread
    exact hkey (List.mem_map.mpr ⟨p, hp, hread.1⟩)

/-- **One member.** A member with the name of a field is decoded into the place of the field, which
was free, and no other place is touched. -/
theorem get_step {p : Place σ δ} (hp : p ∈ places) {draft after : σ} {key : String} {t : Tree}
    (hstep : step draft key t = .ok after) :
    key = p.name ∧ p.get draft = none ∧ (∃ a, p.decode t = .ok a ∧ p.get after = some a) ∨
      key ≠ p.name ∧ p.get after = p.get draft := by
  by_cases hkey : key ∈ places.map Place.name
  · obtain ⟨q, hq, rfl⟩ := List.mem_map.mp hkey
    rw [h.step_place q hq, bind_eq_ok_iff] at hstep
    obtain ⟨a, hgiven, hafter⟩ := hstep
    obtain rfl := Except.ok.inj hafter
    by_cases hname : q.name = p.name
    · obtain rfl := h.eq_of_name hq hp hname
      unfold given at hgiven
      split at hgiven
      · cases hgiven
      · rename_i hnone
        obtain ⟨a, ha, rfl⟩ := map_eq_ok_iff.mp hgiven
        exact Or.inl ⟨rfl, hnone, a, ha, h.get_put_self q hq draft _⟩
    · exact Or.inr ⟨hname, h.get_put_other q hq p hp hname draft a⟩
  · rw [h.step_other draft key t hkey, bind_eq_ok_iff] at hstep
    obtain ⟨_, -, hafter⟩ := hstep
    obtain rfl := Except.ok.inj hafter
    exact Or.inr ⟨fun hname => hkey (hname ▸ List.mem_map.mpr ⟨p, hp, rfl⟩), rfl⟩

/-- **All members.** The place of a field is as it was where the field is not given, and otherwise
it was free and now has what the field gives. -/
theorem get_foldMembers {p : Place σ δ} (hp : p ∈ places) :
    ∀ (members : List (Option String × Tree)) {draft after : σ},
      foldMembers step draft members = .ok after →
      timesGiven p.name members = 0 ∧ p.get after = p.get draft ∨
      0 < timesGiven p.name members ∧ p.get draft = none ∧
        ∃ a, p.get after = some a ∧ ∀ t, (some p.name, t) ∈ members → p.decode t = .ok a
  | [], draft, after, hafter => by
    obtain rfl : draft = after := Except.ok.inj hafter
    exact Or.inl ⟨rfl, rfl⟩
  | (none, t) :: rest, draft, after, hafter => absurd hafter (foldMembers_none draft t rest after)
  | (some key, t) :: rest, draft, after, hafter => by
    rw [foldMembers_some, bind_eq_ok_iff] at hafter
    obtain ⟨next, hnext, hrest⟩ := hafter
    rcases h.get_step hp hnext with ⟨rfl, hfree, a, ha, hget⟩ | ⟨hkey, hget⟩
    · -- The place is taken now, so the field is not given again.
      rcases get_foldMembers hp rest hrest with ⟨hnot, hsame⟩ | ⟨-, hnone, -⟩
      · refine Or.inr ⟨by simp [timesGiven_cons], hfree, a, hsame.trans hget, fun t' ht' => ?_⟩
        rcases List.mem_cons.mp ht' with heq | ht'
        · obtain rfl := (Prod.mk.inj heq).2
          exact ha
        · exact absurd ht' (timesGiven_eq_zero_iff.mp hnot t')
      · rw [hget] at hnone
        cases hnone
    · have htimes : timesGiven p.name ((some key, t) :: rest) = timesGiven p.name rest := by
        simp [timesGiven_cons, hkey]
      rw [htimes]
      rcases get_foldMembers hp rest hrest with ⟨hnot, hsame⟩ | ⟨hgiven, hfree, a, ha, hall⟩
      · exact Or.inl ⟨hnot, hsame.trans hget⟩
      · refine Or.inr ⟨hgiven, hget ▸ hfree, a, ha, fun t' ht' => ?_⟩
        rcases List.mem_cons.mp ht' with heq | ht'
        · exact absurd (Option.some.inj (Prod.mk.inj heq).1).symm hkey
        · exact hall t' ht'

/-- A draft that was read gives a part exactly when the members do. -/
theorem gives_iff_meets {p : Place σ δ} (hp : p ∈ places) {empty after : σ}
    (hempty : p.get empty = none) {members : List (Option String × Tree)}
    (hafter : foldMembers step empty members = .ok after) (d : δ) :
    p.Gives after d ↔ p.Meets members d := by
  unfold Place.Gives Place.Meets
  rcases h.get_foldMembers hp members hafter with ⟨hnot, hsame⟩ | ⟨hgiven, -, a, ha, hall⟩
  · have hvacuous : ∀ t, (some p.name, t) ∈ members → p.spelling (p.part d) t :=
      fun t ht => absurd ht (timesGiven_eq_zero_iff.mp hnot t)
    rw [hsame, hempty, Option.none_or, ← p.isRequired_eq_false_iff, hnot,
      and_iff_right hvacuous]
    simp
  · rw [ha, Option.some_or, Option.some.injEq]
    obtain ⟨t, ht⟩ := exists_of_timesGiven_pos hgiven
    constructor
    · rintro rfl
      exact ⟨fun t ht => (p.spells t _).mp (hall t ht), fun _ => hgiven⟩
    · rintro ⟨hspelled, -⟩
      have hpart := (p.spells t _).mpr (hspelled t ht)
      rw [hall t ht] at hpart
      exact Except.ok.inj hpart

omit h in
/-- The members of an object, field by field. -/
theorem hasFields_map_iff {g : Place σ δ → Field} (hg : ∀ p, (g p).name = p.name)
    {members : List (Option String × Tree)} :
    HasFields (places.map g) IsAny members ↔
      (∀ m ∈ members, ∃ key, m.1 = some key ∧ (key ∉ places.map Place.name → IsAny m.2)) ∧
      (∀ p ∈ places, timesGiven p.name members ≤ 1) ∧
      ∀ p ∈ places, (∀ t, (some p.name, t) ∈ members → (g p).fits t) ∧
        ((g p).isRequired = true → 0 < timesGiven p.name members) := by
  have hnames : (places.map g).map Field.name = places.map Place.name := by
    rw [List.map_map]
    exact List.map_congr_left fun p _ => hg p
  constructor
  · rintro ⟨hmember, honce, hgiven⟩
    rw [List.forall_mem_map] at honce hgiven
    simp only [hg] at honce hgiven
    refine ⟨fun m hm => ?_, honce, fun p hp => ⟨fun t ht => ?_, hgiven p hp⟩⟩
    · obtain ⟨key, hkey, -, hother⟩ := hmember m hm
      exact ⟨key, hkey, hnames ▸ hother⟩
    · obtain ⟨key, hkey, hfits, -⟩ := hmember _ ht
      exact hfits (g p) (List.mem_map_of_mem hp) ((hg p).trans (Option.some.inj hkey))
  · rintro ⟨hmember, honce, hmeets⟩
    refine ⟨fun m hm => ?_, ?_, ?_⟩
    · obtain ⟨key, hkey, hother⟩ := hmember m hm
      refine ⟨key, hkey, List.forall_mem_map.mpr fun p hp hname => ?_, hnames ▸ hother⟩
      refine (hmeets p hp).1 m.2 ?_
      rw [← hg p, hname, ← hkey]
      exact hm
    · rw [List.forall_mem_map]
      simpa only [hg] using honce
    · rw [List.forall_mem_map]
      simpa only [hg] using fun p hp => (hmeets p hp).2

omit h in
/-- The members of an object spell a datum exactly when they can be read and give each part. -/
theorem hasFields_field_iff {members : List (Option String × Tree)} {d : δ} :
    HasFields (places.map fun p => p.field d) IsAny members ↔
      HasFields (places.map Place.shape) IsAny members ∧ ∀ p ∈ places, p.Meets members d := by
  rw [hasFields_map_iff fun _ => rfl, hasFields_map_iff fun _ => rfl]
  constructor
  · rintro ⟨hmember, honce, hmeets⟩
    refine ⟨⟨hmember, honce, fun p hp => ⟨fun t ht => ?_, nofun⟩⟩, hmeets⟩
    exact ⟨_, (p.spells t _).mpr ((hmeets p hp).1 t ht)⟩
  · rintro ⟨⟨hmember, honce, -⟩, hmeets⟩
    exact ⟨hmember, honce, hmeets⟩

/-- **Objects.** What is read of an object is a datum exactly when the object spells the datum. -/
theorem object_spells {empty : σ} (hempty : ∀ p ∈ places, p.get empty = none)
    {finish : σ → Decoded δ}
    (hfinish : ∀ draft d, finish draft = .ok d ↔ ∀ p ∈ places, p.Gives draft d)
    (members : List (Option String × Tree)) (d : δ) :
    (foldMembers step empty members >>= finish) = .ok d ↔
      HasFields (places.map fun p => p.field d) IsAny members := by
  have hfree : ∀ key, hasRead places empty key = false := by
    intro key
    rw [hasRead, List.any_eq_false]
    intro p hp hread
    simp [hempty p hp] at hread
  have hread : (∃ after, foldMembers step empty members = .ok after) ↔
      (∀ m ∈ members, ∃ key, m.1 = some key ∧
        FitsMember (places.map Place.shape) IsAny key m.2) ∧
      ∀ f ∈ places.map Place.shape, timesGiven f.name members ≤ 1 := by
    have hiff := h.reads.foldMembers_iff members empty
    simpa only [hfree, Bool.toNat_false, Nat.add_zero] using hiff
  rw [hasFields_field_iff, bind_eq_ok_iff]
  constructor
  · rintro ⟨after, hafter, hd⟩
    have hmeets : ∀ p ∈ places, p.Meets members d := fun p hp =>
      (h.gives_iff_meets hp (hempty p hp) hafter d).mp ((hfinish after d).mp hd p hp)
    obtain ⟨hmember, honce⟩ := hread.mp ⟨after, hafter⟩
    exact ⟨⟨hmember, honce, List.forall_mem_map.mpr fun _ _ => nofun⟩, hmeets⟩
  · rintro ⟨⟨hmember, honce, -⟩, hmeets⟩
    obtain ⟨after, hafter⟩ := hread.mpr ⟨hmember, honce⟩
    refine ⟨after, hafter, (hfinish after d).mpr fun p hp => ?_⟩
    exact (h.gives_iff_meets hp (hempty p hp) hafter d).mpr (hmeets p hp)

/-- **Records.** A record that is read from an object by way of a draft, and otherwise from an array
of its fields, is read from its spellings. -/
theorem spells_record {empty : σ} (hempty : ∀ p ∈ places, p.get empty = none)
    {finish : σ → Decoded δ}
    (hfinish : ∀ draft d, finish draft = .ok d ↔ ∀ p ∈ places, p.Gives draft d)
    {ofItems : List Tree → Decoded δ}
    (hitems : ∀ items d, ofItems items = .ok d ↔ FitInOrder (places.map fun p => p.field d) items)
    {decode : Tree → Decoded δ}
    (hobject : ∀ members, decode (object members) = foldMembers step empty members >>= finish)
    (harray : ∀ items, decode (array items) = ofItems items)
    (hother : ∀ t, (∀ members, t ≠ object members) → (∀ items, t ≠ array items) →
      ∃ e, decode t = .error e) :
    Spells decode fun d => RecordSpelling (places.map fun p => p.field d) := by
  intro t d
  show decode t = .ok d ↔ RecordSpelling (places.map fun p => p.field d) t
  by_cases hobj : ∃ members, t = object members
  · obtain ⟨members, rfl⟩ := hobj
    rw [hobject, h.object_spells hempty hfinish, recordSpelling_object_iff]
  · by_cases harr : ∃ items, t = array items
    · obtain ⟨items, rfl⟩ := harr
      rw [harray, hitems, recordSpelling_array_iff]
    · rw [not_exists] at hobj harr
      obtain ⟨e, he⟩ := hother t hobj harr
      simp [he, RecordSpelling, IsObjectOf, IsTupleOf, hobj, harr]

end ReadsPlaces

end Places

end EgressPolicy.Json.Tree
