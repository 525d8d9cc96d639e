import EgressPolicy.Json.Tree
import EgressPolicy.Proofs.Json.MembersTheorems

/-!
Trees and their values.

A tree that is kept has a normal value that nests no deeper than there was room (`value?_sound`),
and the tree of a value has the normal form of that value, wherever it has room (`value?_ofValue`).
The tree of a normal value repeats no key (`hasDistinctKeys_of_normal`), so nothing of the value is
lost on the way through a text.
-/

namespace EgressPolicy.Json

/-! ## Depth and numbers of a value -/

mutual

/-- How many arrays and objects of a value are open at once. -/
def depth : Json → Nat
  | array items => depthItems items + 1
  | object ms => depthMembers ms + 1
  | null | bool _ | number _ | string _ => 0

def depthItems : List Json → Nat
  | [] => 0
  | v :: rest => max v.depth (depthItems rest)

def depthMembers : List (String × Json) → Nat
  | [] => 0
  | (_, v) :: rest => max v.depth (depthMembers rest)

end

theorem depthItems_le_iff {room : Nat} {items : List Json} :
    depthItems items ≤ room ↔ ∀ v ∈ items, v.depth ≤ room := by
  induction items with
  | nil => simp [depthItems]
  | cons v rest ih => rw [depthItems, Nat.max_le, ih, List.forall_mem_cons]

theorem depthMembers_le_iff {room : Nat} {ms : Members} :
    depthMembers ms ≤ room ↔ ∀ m ∈ ms, m.2.depth ≤ room := by
  induction ms with
  | nil => simp [depthMembers]
  | cons m rest ih => rw [depthMembers, Nat.max_le, ih, List.forall_mem_cons]

theorem depth_ofStrings_le (texts : List String) : (ofStrings texts).depth ≤ 1 := by
  rw [ofStrings, depth]
  refine Nat.succ_le_succ (depthItems_le_iff.mpr ?_)
  rw [List.forall_mem_map]
  intro s _
  exact Nat.le_refl 0

mutual

def numbers : Json → List Number
  | number n => [n]
  | array items => itemNumbers items
  | object ms => memberNumbers ms
  | null | bool _ | string _ => []

def itemNumbers : List Json → List Number
  | [] => []
  | v :: rest => v.numbers ++ itemNumbers rest

def memberNumbers : List (String × Json) → List Number
  | [] => []
  | (_, v) :: rest => v.numbers ++ memberNumbers rest

end

namespace Tree

/-! ## Trees that repeat no key -/

mutual

/-- Whether no object of a tree repeats a key. -/
def hasDistinctKeys : Tree → Bool
  | array items => itemsHaveDistinctKeys items
  | object members =>
    decide (members.map Prod.fst).Nodup && membersHaveDistinctKeys members
  | null | bool _ | number _ | string _ | broken => true

def itemsHaveDistinctKeys : List Tree → Bool
  | [] => true
  | t :: rest => t.hasDistinctKeys && itemsHaveDistinctKeys rest

def membersHaveDistinctKeys : List (Option String × Tree) → Bool
  | [] => true
  | (_, t) :: rest => t.hasDistinctKeys && membersHaveDistinctKeys rest

end

theorem itemsHaveDistinctKeys_iff {items : List Tree} :
    itemsHaveDistinctKeys items = true ↔ ∀ t ∈ items, t.hasDistinctKeys = true := by
  induction items with
  | nil => simp [itemsHaveDistinctKeys]
  | cons t rest ih => simp [itemsHaveDistinctKeys, ih]

theorem membersHaveDistinctKeys_iff {members : List (Option String × Tree)} :
    membersHaveDistinctKeys members = true ↔ ∀ m ∈ members, m.2.hasDistinctKeys = true := by
  induction members with
  | nil => simp [membersHaveDistinctKeys]
  | cons m rest ih =>
    obtain ⟨k, t⟩ := m
    simp [membersHaveDistinctKeys, ih]

theorem hasDistinctKeys_array_iff {items : List Tree} :
    (array items).hasDistinctKeys = true ↔ ∀ t ∈ items, t.hasDistinctKeys = true := by
  rw [hasDistinctKeys, itemsHaveDistinctKeys_iff]

theorem hasDistinctKeys_object_iff {members : List (Option String × Tree)} :
    (object members).hasDistinctKeys = true ↔
      (members.map Prod.fst).Nodup ∧ ∀ m ∈ members, m.2.hasDistinctKeys = true := by
  rw [hasDistinctKeys, Bool.and_eq_true, decide_eq_true_iff, membersHaveDistinctKeys_iff]

/-! ## The value of a tree -/

/-- The values of members that are added one after the other. -/
theorem members?_cons_eq_some_iff {room : Nat} {key : Option String} {t : Tree}
    {rest : List (Option String × Tree)} {acc ms : Members} :
    members? room ((key, t) :: rest) acc = some ms ↔
      ∃ k v, key = some k ∧ t.value? room = some v ∧
        members? room rest (Members.insert k v acc) = some ms := by
  cases key with
  | none => simp [members?]
  | some k =>
    rw [members?]
    cases t.value? room <;> simp

theorem values?_cons_eq_some_iff {room : Nat} {t : Tree} {rest : List Tree} {vs : List Json} :
    values? room (t :: rest) = some vs ↔
      ∃ v vs', t.value? room = some v ∧ values? room rest = some vs' ∧ vs = v :: vs' := by
  rw [values?]
  cases t.value? room with
  | none => simp
  | some v =>
    rw [Option.map_eq_some_iff]
    simp only [Option.some.injEq, exists_and_left, exists_eq_left', eq_comm]

theorem value?_array_eq_some_iff {room : Nat} {items : List Tree} {v : Json} :
    (array items).value? room = some v ↔
      ∃ room' vs, room = room' + 1 ∧ values? room' items = some vs ∧ v = .array vs := by
  cases room with
  | zero => simp [value?]
  | succ room => simp [value?, eq_comm (a := v)]

theorem value?_object_eq_some_iff {room : Nat} {members : List (Option String × Tree)} {v : Json} :
    (object members).value? room = some v ↔
      ∃ room' ms, room = room' + 1 ∧ members? room' members [] = some ms ∧ v = .object ms := by
  cases room with
  | zero => simp [value?]
  | succ room => simp [value?, eq_comm (a := v)]

/-- A tree that has a value is of the kind of the value. -/
theorem kind_of_value? {room : Nat} {t : Tree} {v : Json} (h : t.value? room = some v) :
    match v with
    | .null => t = null
    | .bool b => t = bool b
    | .number n => t = number (some n)
    | .string s => t = string (some s)
    | .array vs => ∃ less items, room = less + 1 ∧ t = array items ∧ values? less items = some vs
    | .object ms =>
      ∃ less members,
        room = less + 1 ∧ t = object members ∧ members? less members [] = some ms := by
  cases t with
  | null | bool _ =>
    cases h
    rfl
  | number n | string n =>
    simp only [value?, Option.map_eq_some_iff] at h
    obtain ⟨_, rfl, rfl⟩ := h
    rfl
  | array items =>
    obtain ⟨less, vs, hroom, hvs, rfl⟩ := value?_array_eq_some_iff.mp h
    exact ⟨less, items, hroom, rfl, hvs⟩
  | object members =>
    obtain ⟨less, ms, hroom, hms, rfl⟩ := value?_object_eq_some_iff.mp h
    exact ⟨less, members, hroom, rfl, hms⟩
  | broken => cases h

-- The three statements follow the recursion of `value?`; members carry what was added before them.
mutual

/-- **What is kept** is normal and nests no deeper than there is room. -/
theorem value?_sound : ∀ {room : Nat} {t : Tree} {v : Json}, t.value? room = some v →
    v.normal = v ∧ v.depth ≤ room
  | room, .null, v, h | room, .bool _, v, h => by
    simp only [value?, Option.some.injEq] at h
    subst h
    exact ⟨rfl, Nat.zero_le _⟩
  | room, .number n, v, h | room, .string n, v, h => by
    simp only [value?, Option.map_eq_some_iff] at h
    obtain ⟨_, -, rfl⟩ := h
    exact ⟨rfl, Nat.zero_le _⟩
  | room, .array items, v, h => by
    obtain ⟨room, vs, rfl, hvs, rfl⟩ := value?_array_eq_some_iff.mp h
    have hsound := values?_sound hvs
    constructor
    · rw [normal_array, List.map_congr_left fun v hv => (hsound v hv).1, List.map_id']
    · rw [depth]
      exact Nat.succ_le_succ (depthItems_le_iff.mpr fun v hv => (hsound v hv).2)
  | room, .object members, v, h => by
    obtain ⟨room, ms, rfl, hms, rfl⟩ := value?_object_eq_some_iff.mp h
    have hnone : ∀ m ∈ ([] : Members), m.2.depth ≤ room := fun m hm => absurd hm List.not_mem_nil
    obtain ⟨hnormal, hdepth⟩ := members?_sound hms Members.isNormal_nil hnone
    constructor
    · exact normal_object_eq_self_iff.mpr hnormal
    · rw [depth]
      exact Nat.succ_le_succ (depthMembers_le_iff.mpr hdepth)
  | room, .broken, v, h => by
    cases h

theorem values?_sound : ∀ {room : Nat} {items : List Tree} {vs : List Json},
    values? room items = some vs → ∀ v ∈ vs, v.normal = v ∧ v.depth ≤ room
  | room, [], vs, h, v, hv => by
    obtain rfl := Option.some.inj h
    exact absurd hv List.not_mem_nil
  | room, t :: rest, vs, h, v, hv => by
    obtain ⟨w, vs', hw, hrest, rfl⟩ := values?_cons_eq_some_iff.mp h
    rcases List.mem_cons.mp hv with rfl | hv
    · exact value?_sound hw
    · exact values?_sound hrest v hv

theorem members?_sound : ∀ {room : Nat} {members : List (Option String × Tree)}
    {acc ms : Members}, members? room members acc = some ms → Members.IsNormal acc →
      (∀ m ∈ acc, m.2.depth ≤ room) → Members.IsNormal ms ∧ ∀ m ∈ ms, m.2.depth ≤ room
  | room, [], acc, ms, h, hnormal, hdepth => by
    obtain rfl := Option.some.inj h
    exact ⟨hnormal, hdepth⟩
  | room, (key, t) :: rest, acc, ms, h, hnormal, hdepth => by
    obtain ⟨k, v, rfl, hv, hrest⟩ := members?_cons_eq_some_iff.mp h
    obtain ⟨hvnormal, hvdepth⟩ := value?_sound hv
    refine members?_sound hrest (hnormal.insert hvnormal k) fun m hm => ?_
    rcases Members.mem_insert hm with rfl | hm
    · exact hvdepth
    · exact hdepth m hm

end

/-! ## The tree of a value -/

mutual

/-- The tree that a value is read as when its numbers are read in some way. -/
def ofValueBy (read : Number → Option Number) : Json → Tree
  | .null => null
  | .bool b => bool b
  | .number n => number (read n)
  | .string s => string (some s)
  | .array items => array (ofValuesBy read items)
  | .object ms => object (ofMembersBy read ms)

def ofValuesBy (read : Number → Option Number) : List Json → List Tree
  | [] => []
  | v :: rest => ofValueBy read v :: ofValuesBy read rest

def ofMembersBy (read : Number → Option Number) :
    List (String × Json) → List (Option String × Tree)
  | [] => []
  | (k, v) :: rest => (some k, ofValueBy read v) :: ofMembersBy read rest

end

-- Where every number is read as itself, the tree is that of the value.
mutual

theorem ofValueBy_eq {read : Number → Option Number} : ∀ {v : Json},
    (∀ n ∈ v.numbers, read n = some n) → ofValueBy read v = ofValue v
  | .null, _ | .bool _, _ | .string _, _ => rfl
  | .number n, h => by
    rw [ofValueBy, ofValue, h n (by simp [numbers])]
  | .array items, h => by
    rw [ofValueBy, ofValue, ofValuesBy_eq h]
  | .object ms, h => by
    rw [ofValueBy, ofValue, ofMembersBy_eq h]

theorem ofValuesBy_eq {read : Number → Option Number} : ∀ {items : List Json},
    (∀ n ∈ itemNumbers items, read n = some n) → ofValuesBy read items = ofValues items
  | [], _ => rfl
  | v :: rest, h => by
    rw [itemNumbers, List.forall_mem_append] at h
    rw [ofValuesBy, ofValues, ofValueBy_eq h.1, ofValuesBy_eq h.2]

theorem ofMembersBy_eq {read : Number → Option Number} : ∀ {ms : Members},
    (∀ n ∈ memberNumbers ms, read n = some n) → ofMembersBy read ms = ofMembers ms
  | [], _ => rfl
  | (k, v) :: rest, h => by
    rw [memberNumbers, List.forall_mem_append] at h
    rw [ofMembersBy, ofMembers, ofValueBy_eq h.1, ofMembersBy_eq h.2]

end

theorem ofValueBy_some (v : Json) : ofValueBy some v = ofValue v :=
  ofValueBy_eq fun _ _ => rfl

theorem ofValuesBy_eq_map (read : Number → Option Number) (items : List Json) :
    ofValuesBy read items = items.map (ofValueBy read) := by
  induction items with
  | nil => rfl
  | cons v rest ih => rw [ofValuesBy, ih, List.map_cons]

theorem ofMembersBy_eq_map (read : Number → Option Number) (ms : Members) :
    ofMembersBy read ms = ms.map fun m => (some m.1, ofValueBy read m.2) := by
  induction ms with
  | nil => rfl
  | cons m rest ih => rw [ofMembersBy, ih, List.map_cons]

mutual

/-- **The tree of a value** has the normal form of the value, where there is room for it. -/
theorem value?_ofValue : ∀ {room : Nat} (v : Json), v.depth ≤ room →
    (ofValue v).value? room = some v.normal
  | _, .null, _ | _, .bool _, _ | _, .number _, _ | _, .string _, _ => by
    simp [ofValue, value?, normal]
  | 0, .array _, h | 0, .object _, h => by
    simp [depth] at h
  | room + 1, .array items, h => by
    rw [depth] at h
    rw [ofValue, value?, values?_ofValues items (Nat.le_of_succ_le_succ h), normal]
    rfl
  | room + 1, .object ms, h => by
    rw [depth] at h
    rw [ofValue, value?, members?_ofMembers ms [] (Nat.le_of_succ_le_succ h), normal]
    rfl

theorem values?_ofValues : ∀ {room : Nat} (items : List Json), depthItems items ≤ room →
    values? room (ofValues items) = some (normalItems items)
  | _, [], _ => rfl
  | room, v :: rest, h => by
    rw [depthItems, Nat.max_le] at h
    rw [ofValues, values?, value?_ofValue v h.1, values?_ofValues rest h.2, normalItems]
    rfl

theorem members?_ofMembers : ∀ {room : Nat} (ms acc : Members), depthMembers ms ≤ room →
    members? room (ofMembers ms) acc =
      some ((normalMembers ms).foldl (fun acc m => Members.insert m.1 m.2 acc) acc)
  | _, [], _, _ => rfl
  | room, (k, v) :: rest, acc, h => by
    rw [depthMembers, Nat.max_le] at h
    rw [ofMembers, members?, value?_ofValue v h.1]
    exact members?_ofMembers rest (Members.insert k v.normal acc) h.2

end

/-! ## Values that repeat no key -/

theorem hasDistinctKeys_ofValueBy_array {read : Number → Option Number} {items : List Json}
    (h : ∀ v ∈ items, (ofValueBy read v).hasDistinctKeys = true) :
    (ofValueBy read (.array items)).hasDistinctKeys = true := by
  rw [ofValueBy, hasDistinctKeys_array_iff, ofValuesBy_eq_map, List.forall_mem_map]
  exact h

theorem hasDistinctKeys_ofValueBy_object {read : Number → Option Number} {ms : Members}
    (hkeys : (Members.keys ms).Nodup)
    (h : ∀ m ∈ ms, (ofValueBy read m.2).hasDistinctKeys = true) :
    (ofValueBy read (.object ms)).hasDistinctKeys = true := by
  rw [ofValueBy, hasDistinctKeys_object_iff, ofMembersBy_eq_map, List.forall_mem_map,
    List.map_map]
  refine ⟨?_, h⟩
  have hsome : ms.map (Prod.fst ∘ fun m => (some m.1, ofValueBy read m.2)) =
      (Members.keys ms).map some := by
    rw [Members.keys, List.map_map]
    rfl
  rw [hsome]
  exact hkeys.map fun _ _ => Option.some.inj

theorem hasDistinctKeys_ofValueBy_ofStrings (read : Number → Option Number)
    (texts : List String) : (ofValueBy read (ofStrings texts)).hasDistinctKeys = true := by
  refine hasDistinctKeys_ofValueBy_array fun v hv => ?_
  obtain ⟨s, -, rfl⟩ := List.mem_map.mp hv
  rfl

mutual

/-- A normal value repeats no key. -/
theorem hasDistinctKeys_of_normal {read : Number → Option Number} : ∀ {v : Json}, v.normal = v →
    (ofValueBy read v).hasDistinctKeys = true
  | .null, _ | .bool _, _ | .number _, _ | .string _, _ => rfl
  | .array items, h =>
    hasDistinctKeys_ofValueBy_array
      (itemsHaveDistinctKeys_of_normal (normal_array_eq_self_iff.mp h))
  | .object ms, h => by
    have hms := normal_object_eq_self_iff.mp h
    exact hasDistinctKeys_ofValueBy_object hms.ascending.nodup
      (membersHaveDistinctKeys_of_normal hms.value)

theorem itemsHaveDistinctKeys_of_normal {read : Number → Option Number} :
    ∀ {items : List Json}, (∀ v ∈ items, v.normal = v) →
      ∀ v ∈ items, (ofValueBy read v).hasDistinctKeys = true
  | [], _, _, hv => absurd hv List.not_mem_nil
  | w :: rest, h, v, hv => by
    rw [List.forall_mem_cons] at h
    rcases List.mem_cons.mp hv with heq | hv
    · rw [heq]
      exact hasDistinctKeys_of_normal h.1
    · exact itemsHaveDistinctKeys_of_normal h.2 v hv

theorem membersHaveDistinctKeys_of_normal {read : Number → Option Number} :
    ∀ {ms : Members}, (∀ m ∈ ms, m.2.normal = m.2) →
      ∀ m ∈ ms, (ofValueBy read m.2).hasDistinctKeys = true
  | [], _, _, hm => absurd hm List.not_mem_nil
  | (k, w) :: rest, h, m, hm => by
    rw [List.forall_mem_cons] at h
    rcases List.mem_cons.mp hm with heq | hm
    · rw [heq]
      exact hasDistinctKeys_of_normal h.1
    · exact membersHaveDistinctKeys_of_normal h.2 m hm

end

end Tree

end EgressPolicy.Json
