import EgressPolicy.Json.Value
import Mathlib.Data.List.Nodup
import Mathlib.Data.List.Perm.Basic

/-!
Members of objects, and normal values.

Members in ascending order of their keys are known by what they answer (`IsAscending.ext`), so an
equation between two objects is one between their lookups. `Members.insert` keeps the order, and
`Members.ofList` brings members with different keys into it without losing one (`get?_ofList`).
An object is normal when its keys ascend and its values are normal (`normal_object_eq_self_iff`).
-/

namespace EgressPolicy.Json

namespace Members

/-! ## Lookups -/

theorem get?_cons_self (key : String) (v : Json) (rest : Members) :
    get? ((key, v) :: rest) key = some v := by
  simp [get?]

theorem get?_cons_of_ne {key other : String} (h : other ≠ key) (v : Json) (rest : Members) :
    get? ((key, v) :: rest) other = get? rest other := by
  have apart : (other == key) = false := beq_eq_false_iff_ne.mpr h
  simp [get?, List.lookup_cons, apart]

theorem get?_singleton (k : String) (v : Json) (key : String) :
    get? [(k, v)] key = if key = k then some v else none := by
  by_cases h : key = k
  · rw [h, get?_cons_self, if_pos rfl]
  · rw [get?_cons_of_ne h, if_neg h]
    rfl

theorem get?_eq_none_iff {key : String} {ms : Members} : get? ms key = none ↔ key ∉ keys ms := by
  rw [get?, List.lookup_eq_none_iff, keys, List.mem_map]
  constructor
  · rintro h ⟨m, hm, rfl⟩
    simpa using h m hm
  · intro h m hm
    have hne : key ≠ m.1 := fun he => h ⟨m, hm, he.symm⟩
    simpa using hne

/-- Where no key stands twice, looking a key up is finding its member. -/
theorem get?_eq_some_iff {ms : Members} (h : (keys ms).Nodup) {key : String} {v : Json} :
    get? ms key = some v ↔ (key, v) ∈ ms := by
  induction ms with
  | nil => simp [get?]
  | cons m rest ih =>
    obtain ⟨k, w⟩ := m
    rw [keys, List.map_cons, List.nodup_cons] at h
    by_cases hk : key = k
    · subst hk
      have hnot : (key, v) ∉ rest := fun hm => h.1 (List.mem_map.mpr ⟨_, hm, rfl⟩)
      simp [get?_cons_self, hnot, eq_comm]
    · rw [get?_cons_of_ne hk, ih h.2]
      simp [hk]

theorem mem_of_get? {ms : Members} {key : String} {v : Json} (h : get? ms key = some v) :
    (key, v) ∈ ms := by
  obtain ⟨before, after, rfl, -⟩ := List.lookup_eq_some_iff.mp h
  simp

/-- Looking up in one list of members and then in another. -/
theorem get?_append (ms ns : Members) (key : String) :
    get? (ms ++ ns) key = (get? ms key).or (get? ns key) := by
  induction ms with
  | nil => simp [get?]
  | cons m rest ih =>
    obtain ⟨k, v⟩ := m
    rw [List.cons_append]
    by_cases hk : key = k
    · subst hk
      simp [get?_cons_self]
    · rw [get?_cons_of_ne hk, get?_cons_of_ne hk, ih]

/-- A filter on members is a filter on what is looked up. -/
theorem get?_filter {ms : Members} (h : (keys ms).Nodup) (p : String × Json → Bool)
    (key : String) : get? (ms.filter p) key = (get? ms key).filter fun v => p (key, v) := by
  have hsub : (keys (ms.filter p)).Nodup := h.sublist (List.filter_sublist.map _)
  ext v
  rw [get?_eq_some_iff hsub, List.mem_filter, Option.filter_eq_some_iff, get?_eq_some_iff h]

/-- A change of values that depends on their keys. -/
theorem get?_map (f : String → Json → Json) (ms : Members) (key : String) :
    get? (ms.map fun m => (m.1, f m.1 m.2)) key = (get? ms key).map (f key) := by
  induction ms with
  | nil => rfl
  | cons m rest ih =>
    obtain ⟨k, v⟩ := m
    rw [List.map_cons]
    by_cases hk : key = k
    · subst hk
      rw [get?_cons_self, get?_cons_self, Option.map_some]
    · rw [get?_cons_of_ne hk, get?_cons_of_ne hk, ih]

/-! ## Ascending keys -/

/-- The keys ascend, so no key stands twice. -/
def IsAscending (ms : Members) : Prop :=
  ms.Pairwise fun m n => m.1 < n.1

instance (ms : Members) : Decidable (IsAscending ms) :=
  inferInstanceAs (Decidable (ms.Pairwise fun m n => m.1 < n.1))

theorem IsAscending.nodup {ms : Members} (h : IsAscending ms) : (keys ms).Nodup := by
  refine List.pairwise_map.mpr (h.imp fun hlt heq => ?_)
  rw [heq] at hlt
  exact String.lt_irrefl _ hlt

theorem IsAscending.filter {ms : Members} (h : IsAscending ms) (p : String × Json → Bool) :
    IsAscending (ms.filter p) :=
  List.Pairwise.filter p h

theorem IsAscending.map {ms : Members} (h : IsAscending ms) (f : String → Json → Json) :
    IsAscending (ms.map fun m => (m.1, f m.1 m.2)) :=
  List.pairwise_map.mpr h

/-- **Extensionality.** Members in ascending order are determined by what is looked up. -/
theorem IsAscending.ext {ms ns : Members} (hm : IsAscending ms) (hn : IsAscending ns)
    (h : ∀ key, get? ms key = get? ns key) : ms = ns := by
  have hmem : ∀ m : String × Json, m ∈ ms ↔ m ∈ ns := by
    intro m
    rw [← get?_eq_some_iff hm.nodup, ← get?_eq_some_iff hn.nodup, h]
  have hperm : ms.Perm ns :=
    (List.perm_ext_iff_of_nodup hm.nodup.of_map hn.nodup.of_map).mpr hmem
  refine hperm.eq_of_pairwise (fun a b _ _ hab hba => ?_) hm hn
  exact absurd hba (String.lt_asymm hab)

/-! ## Insertion -/

theorem mem_insert {key : String} {v : Json} {ms : Members} {m : String × Json}
    (h : m ∈ insert key v ms) : m = (key, v) ∨ m ∈ ms := by
  induction ms with
  | nil => exact Or.inl (List.mem_singleton.mp h)
  | cons n rest ih =>
    rw [insert] at h
    split at h
    · exact List.mem_cons.mp h
    · split at h
      · rcases List.mem_cons.mp h with rfl | h
        · exact Or.inl rfl
        · exact Or.inr (List.mem_cons_of_mem _ h)
      · rcases List.mem_cons.mp h with rfl | h
        · exact Or.inr List.mem_cons_self
        · exact (ih h).imp_right (List.mem_cons_of_mem _)

theorem IsAscending.insert {ms : Members} (h : IsAscending ms) (key : String) (v : Json) :
    IsAscending (insert key v ms) := by
  induction ms with
  | nil => exact List.pairwise_singleton _ _
  | cons n rest ih =>
    obtain ⟨k, w⟩ := n
    obtain ⟨hfirst, hrest⟩ := List.pairwise_cons.mp h
    rw [Members.insert]
    split
    · rename_i hlt
      refine List.pairwise_cons.mpr ⟨fun m hm => ?_, h⟩
      rcases List.mem_cons.mp hm with rfl | hm
      · exact hlt
      · exact String.lt_trans hlt (hfirst m hm)
    · split
      · rename_i heq
        subst heq
        exact List.pairwise_cons.mpr ⟨hfirst, hrest⟩
      · rename_i hge hne
        have hlt : k < key :=
          Decidable.byContradiction fun hle => hne (Std.Trichotomous.trichotomous key k hge hle)
        refine List.pairwise_cons.mpr ⟨fun m hm => ?_, ih hrest⟩
        rcases mem_insert hm with rfl | hm
        · exact hlt
        · exact hfirst m hm

theorem get?_insert (key : String) (v : Json) (ms : Members) (other : String) :
    get? (insert key v ms) other = if other = key then some v else get? ms other := by
  split
  · rename_i heq
    subst heq
    exact get?_insert_self other v ms
  · rename_i hne
    exact get?_insert_of_ne hne v ms

/-- Insertions one after the other, seen from a key that none of them repeats. -/
theorem get?_foldl_insert : ∀ (ms : Members) (acc : Members) (key : String), (keys ms).Nodup →
    get? (ms.foldl (fun acc m => insert m.1 m.2 acc) acc) key = (get? ms key).or (get? acc key)
  | [], _, _, _ => rfl
  | (k, v) :: rest, acc, key, h => by
    rw [keys, List.map_cons, List.nodup_cons] at h
    rw [List.foldl_cons, get?_foldl_insert rest _ key h.2, get?_insert]
    by_cases hk : key = k
    · subst hk
      have hnone : get? rest key = none := get?_eq_none_iff.mpr h.1
      simp [hnone, get?_cons_self]
    · simp [hk, get?_cons_of_ne]

theorem isAscending_foldl_insert : ∀ (ms : Members) {acc : Members}, IsAscending acc →
    IsAscending (ms.foldl (fun acc m => insert m.1 m.2 acc) acc)
  | [], _, h => h
  | m :: rest, _, h => isAscending_foldl_insert rest (h.insert m.1 m.2)

theorem isAscending_ofList (ms : Members) : IsAscending (ofList ms) :=
  isAscending_foldl_insert ms List.Pairwise.nil

/-- Bringing members into order loses none where no key stands twice. -/
theorem get?_ofList {ms : Members} (h : (keys ms).Nodup) (key : String) :
    get? (ofList ms) key = get? ms key := by
  rw [ofList, get?_foldl_insert ms [] key h]
  simp [get?]

theorem IsAscending.ofList_eq {ms : Members} (h : IsAscending ms) : ofList ms = ms :=
  (isAscending_ofList ms).ext h (get?_ofList h.nodup)

/-! ## Members without some keys -/

/-- The members with other keys than some. -/
def without (names : List String) (ms : Members) : Members :=
  ms.filter fun m => m.1 ∉ names

theorem get?_without {ms : Members} (h : (keys ms).Nodup) (names : List String) (key : String) :
    get? (without names ms) key = if key ∈ names then none else get? ms key := by
  rw [without, get?_filter h]
  by_cases hk : key ∈ names
  · simp [hk]
  · cases get? ms key <;> simp [hk]

theorem IsAscending.without {ms : Members} (h : IsAscending ms) (names : List String) :
    IsAscending (without names ms) :=
  h.filter _

theorem without_insert_of_mem {ms : Members} (h : IsAscending ms) {names : List String}
    {key : String} (hkey : key ∈ names) (v : Json) :
    without names (insert key v ms) = without names ms := by
  refine ((h.insert key v).without names).ext (h.without names) fun other => ?_
  rw [get?_without (h.insert key v).nodup, get?_without h.nodup, get?_insert]
  split
  · rfl
  · rename_i hother
    rw [if_neg]
    rintro rfl
    exact hother hkey

theorem without_insert_of_notMem {ms : Members} (h : IsAscending ms) {names : List String}
    {key : String} (hkey : key ∉ names) (v : Json) :
    without names (insert key v ms) = insert key v (without names ms) := by
  refine ((h.insert key v).without names).ext ((h.without names).insert key v) fun other => ?_
  rw [get?_without (h.insert key v).nodup, get?_insert, get?_insert, get?_without h.nodup]
  by_cases hother : other = key
  · subst hother
    rw [if_neg hkey, if_pos rfl, if_pos rfl]
  · rw [if_neg hother, if_neg hother]

end Members

/-! ## Normal values -/

theorem normalItems_eq_map (items : List Json) : normalItems items = items.map normal := by
  induction items with
  | nil => rfl
  | cons v rest ih => rw [normalItems, ih, List.map_cons]

theorem normalMembers_eq_map (ms : Members) :
    normalMembers ms = ms.map fun m => (m.1, m.2.normal) := by
  induction ms with
  | nil => rfl
  | cons m rest ih => rw [normalMembers, ih, List.map_cons]

theorem normal_array (items : List Json) : (array items).normal = array (items.map normal) := by
  rw [normal, normalItems_eq_map]

/-- An array is normal when its items are. -/
theorem normal_array_eq_self_iff {items : List Json} :
    (array items).normal = array items ↔ ∀ v ∈ items, v.normal = v := by
  have hmap := List.map_inj_left (l := items) (f := normal) (g := id)
  rw [List.map_id] at hmap
  rw [normal_array, array.injEq]
  exact hmap

theorem normal_object (ms : Members) :
    (object ms).normal = object (Members.ofList (ms.map fun m => (m.1, m.2.normal))) := by
  rw [normal, normalMembers_eq_map]

namespace Members

/-- The members of a normal object: their keys ascend, and their values are normal. -/
structure IsNormal (ms : Members) : Prop where
  ascending : IsAscending ms
  value : ∀ m ∈ ms, m.2.normal = m.2

theorem isNormal_nil : IsNormal [] :=
  ⟨List.Pairwise.nil, fun _ h => absurd h List.not_mem_nil⟩

theorem IsNormal.insert {ms : Members} (h : IsNormal ms) {v : Json} (hv : v.normal = v)
    (key : String) : IsNormal (insert key v ms) := by
  refine ⟨h.ascending.insert key v, fun m hm => ?_⟩
  rcases mem_insert hm with rfl | hm
  · exact hv
  · exact h.value m hm

theorem IsNormal.normal_get? {ms : Members} (h : IsNormal ms) {key : String} {v : Json}
    (hv : get? ms key = some v) : v.normal = v :=
  h.value _ (mem_of_get? hv)

theorem IsNormal.map_normal {ms : Members} (h : IsNormal ms) :
    (ms.map fun m => (m.1, m.2.normal)) = ms := by
  have hsame : ∀ m ∈ ms, (m.1, m.2.normal) = id m := fun m hm => by rw [h.value m hm, id]
  rw [List.map_congr_left hsame, List.map_id]

/-- What is looked up in the normal form of an object is the normal form of what is looked up. -/
theorem get?_normal {ms : Members} (h : (keys ms).Nodup) (key : String) :
    get? (ofList (ms.map fun m => (m.1, m.2.normal))) key = (get? ms key).map normal := by
  have hkeys : keys (ms.map fun m => (m.1, m.2.normal)) = keys ms := by
    simp [keys, List.map_map, Function.comp_def]
  rw [get?_ofList (hkeys ▸ h), get?_map fun _ => normal]

end Members

/-- An object is normal when its members are. -/
theorem normal_object_eq_self_iff {ms : Members} :
    (object ms).normal = object ms ↔ Members.IsNormal ms := by
  rw [normal_object]
  constructor
  · intro h
    have hms := object.inj h
    have hascending : Members.IsAscending ms := by
      rw [← hms]
      exact Members.isAscending_ofList _
    -- In ascending order nothing is moved, so each member stays where it is.
    rw [(hascending.map fun _ => normal).ofList_eq] at hms
    refine ⟨hascending, fun m hm => ?_⟩
    have hfix := List.map_inj_left.mp (hms.trans (List.map_id ms).symm) m hm
    exact congrArg Prod.snd hfix
  · intro h
    rw [h.map_normal, h.ascending.ofList_eq]

theorem normal_ofStrings (texts : List String) : (ofStrings texts).normal = ofStrings texts := by
  rw [ofStrings, normal_array, List.map_map]
  rfl

/-! ## Objects of some fields and other members -/

section Fields

variable {names : List String} {fields extra : Members}

/-- Fields with some of the names, each at most once, before other members with none of them. -/
structure HasFieldsBefore (names : List String) (fields extra : Members) : Prop where
  named : ∀ m ∈ fields, m.1 ∈ names
  once : (Members.keys fields).Nodup
  apart : ∀ m ∈ extra, m.1 ∉ names
  extra : Members.IsNormal extra

theorem HasFieldsBefore.nodup (h : HasFieldsBefore names fields extra) :
    (Members.keys (fields ++ extra)).Nodup := by
  rw [Members.keys, List.map_append, List.nodup_append]
  refine ⟨h.once, h.extra.ascending.nodup, ?_⟩
  rintro _ hfield key hextra rfl
  obtain ⟨m, hm, rfl⟩ := List.mem_map.mp hfield
  obtain ⟨n, hn, heq⟩ := List.mem_map.mp hextra
  exact h.apart n hn (heq ▸ h.named m hm)

theorem HasFieldsBefore.get?_extra (h : HasFieldsBefore names fields extra) {key : String}
    (hkey : key ∈ names) : Members.get? extra key = none := by
  rw [Members.get?_eq_none_iff]
  intro hmem
  obtain ⟨m, hm, rfl⟩ := List.mem_map.mp hmem
  exact h.apart m hm hkey

theorem HasFieldsBefore.get?_fields (h : HasFieldsBefore names fields extra) {key : String}
    (hkey : key ∉ names) : Members.get? fields key = none := by
  rw [Members.get?_eq_none_iff]
  intro hmem
  obtain ⟨m, hm, rfl⟩ := List.mem_map.mp hmem
  exact hkey (h.named m hm)

/-- The members of the normal form of such an object: the fields are found under their names. -/
theorem HasFieldsBefore.get?_normal (h : HasFieldsBefore names fields extra) (key : String) :
    Members.get? (Members.ofList ((fields ++ extra).map fun m => (m.1, m.2.normal))) key =
      if key ∈ names then (Members.get? fields key).map normal else Members.get? extra key := by
  rw [Members.get?_normal h.nodup, Members.get?_append]
  split
  · rename_i hkey
    rw [h.get?_extra hkey, Option.or_none]
  · rename_i hkey
    rw [h.get?_fields hkey, Option.none_or]
    cases hv : Members.get? extra key with
    | none => rfl
    | some v => rw [Option.map_some, h.extra.normal_get? hv]

/-- **Normal forms of such objects.** Where the other members come from an object, the normal form
answers as the fields do under their names, and as that object does elsewhere. -/
theorem HasFieldsBefore.normal_object_eq {ms ns : Members} (h : HasFieldsBefore names fields extra)
    (hms : Members.IsAscending ms) (hns : Members.IsAscending ns)
    (hextra : extra = Members.without names ms)
    (hnamed : ∀ key ∈ names, (Members.get? fields key).map normal = Members.get? ns key)
    (hother : ∀ key, key ∉ names → Members.get? ms key = Members.get? ns key) :
    (object (fields ++ extra)).normal = object ns := by
  rw [normal_object]
  refine congrArg object ((Members.isAscending_ofList _).ext hns fun key => ?_)
  rw [h.get?_normal]
  by_cases hkey : key ∈ names
  · rw [if_pos hkey, hnamed key hkey]
  · rw [if_neg hkey, hextra, Members.get?_without hms.nodup, if_neg hkey, hother key hkey]

/-- Without the fields the other members are left. -/
theorem HasFieldsBefore.without_normal (h : HasFieldsBefore names fields extra) :
    Members.without names (Members.ofList ((fields ++ extra).map fun m => (m.1, m.2.normal))) =
      extra := by
  have hascending := Members.isAscending_ofList ((fields ++ extra).map fun m => (m.1, m.2.normal))
  refine (hascending.without names).ext h.extra.ascending fun key => ?_
  rw [Members.get?_without hascending.nodup, h.get?_normal]
  by_cases hkey : key ∈ names
  · rw [if_pos hkey, h.get?_extra hkey]
  · rw [if_neg hkey, if_neg hkey]

end Fields

end EgressPolicy.Json
