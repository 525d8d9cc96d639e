import EgressPolicy.Node.Reader
import EgressPolicy.Proofs.Json.SpellingTheorems
import EgressPolicy.Proofs.Json.TextTheorems
import EgressPolicy.Proofs.Text.PieceTheorems

/-!
The spellings of a list of nodes.

A node and a route may be objects, with their members in any order and others among them, or arrays
of their fields, and what has a default may be left out (`Node.Spelling`, `Route.Spelling`). The
patterns of a route may be a list, a text with a comma or a line end between two of them, or null
(`Route.PatternsSpelling`). `Node.listOfText_spellings` says that all these are read as the same
nodes, and nothing else is; what is written for nodes is one of them (`Node.spelling_toJson`).
In an object neither the order of the members nor members with other keys count
(`Route.toOption_ofTree_of_perm`, `Node.toOption_ofTree_of_perm`).
-/

namespace EgressPolicy

open Json (HasTree)
open Json.Tree

namespace Route

/-! ## Patterns -/

/-- Whether a character stands between two patterns of a text. -/
def separates (c : Char) : Bool :=
  c == ',' || c == '\n'

/-- The spellings of the patterns of a route: null for none; a text for some in which there is
neither a comma nor a line end; or a list. -/
inductive PatternsSpelling : List String → Json.Tree → Prop where
  | none : PatternsSpelling [] .null
  | joined {patterns : List String} {s : String}
    (h : Text.IsJoined separates (patterns.map String.toList) s.toList) :
    PatternsSpelling patterns (.string (some s))
  | list {patterns : List String} {t : Json.Tree} (h : ListSpelling TextSpelling patterns t) :
    PatternsSpelling patterns t

theorem pieces_eq_iff {s : String} {patterns : List String} :
    pieces s = patterns ↔ Text.IsJoined separates (patterns.map String.toList) s.toList := by
  rw [← Text.splitOnP_eq_iff]
  show (s.toList.splitOnP separates).map String.ofList = patterns ↔ _
  constructor
  · rintro rfl
    simp [List.map_map, Function.comp_def]
  · intro h
    simp [h, List.map_map, Function.comp_def]

theorem spells_patterns : Spells patternsOfTree PatternsSpelling := by
  intro t patterns
  -- Except for null and for a text only a list is left.
  have hlist : patternsOfTree t = t.list text → (∀ s, t ≠ .string (some s)) → t ≠ .null →
      (patternsOfTree t = .ok patterns ↔ PatternsSpelling patterns t) := by
    intro heq hstring hnull
    rw [heq, spells_text.list]
    constructor
    · exact .list
    · intro h
      cases h with
      | none => exact absurd rfl hnull
      | joined _ => exact absurd rfl (hstring _)
      | list h => exact h
  cases t with
  | null =>
    constructor
    · intro h
      obtain rfl := Except.ok.inj h
      exact .none
    · intro h
      cases h with
      | none => rfl
      | list h =>
        obtain ⟨_, h, -⟩ := h
        cases h
  | string s =>
    cases s with
    | none => exact hlist rfl nofun nofun
    | some s =>
      show Except.ok (pieces s) = Except.ok patterns ↔ _
      rw [Except.ok.injEq, pieces_eq_iff]
      constructor
      · exact .joined
      · intro h
        cases h with
        | joined h => exact h
        | list h =>
          obtain ⟨_, h, -⟩ := h
          cases h
  | bool _ | number _ | array _ | object _ | broken => exact hlist rfl nofun nofun

/-! ## Routes -/

/-- The fields of a route in their order. Only the action is always there. -/
def fields (r : Route) : List Field :=
  [⟨"id", r.id.isSome, OptionSpelling Int64Spelling r.id⟩,
   ⟨"action", true, TextSpelling r.action⟩,
   ⟨"match", !r.patterns.isEmpty, PatternsSpelling r.patterns⟩,
   ⟨"action_value", r.value.isSome, OptionSpelling TextSpelling r.value⟩]

def Spelling (r : Route) : Json.Tree → Prop :=
  RecordSpelling r.fields

def places : List (Place Draft Route) :=
  [{ name := "id", decode := nullable int64, spelling := OptionSpelling Int64Spelling
     spells := spells_int64.nullable fun _ => nofun
     get := Draft.id, put := fun draft a => { draft with id := a }
     part := Route.id, default? := some none, isRequired := fun r => r.id.isSome
     isRequired_eq_false_iff := fun r => by cases h : r.id <;> simp },
   { name := "action", decode := text, spelling := TextSpelling, spells := spells_text
     get := Draft.action, put := fun draft a => { draft with action := a }
     part := Route.action, default? := none, isRequired := fun _ => true
     isRequired_eq_false_iff := fun _ => by simp },
   { name := "match", decode := patternsOfTree, spelling := PatternsSpelling
     spells := spells_patterns
     get := Draft.patterns, put := fun draft a => { draft with patterns := a }
     part := Route.patterns, default? := some [], isRequired := fun r => !r.patterns.isEmpty
     isRequired_eq_false_iff := fun r => by cases h : r.patterns <;> simp },
   { name := "action_value", decode := nullable text, spelling := OptionSpelling TextSpelling
     spells := spells_text.nullable fun _ => nofun
     get := Draft.value, put := fun draft a => { draft with value := a }
     part := Route.value, default? := some none, isRequired := fun r => r.value.isSome
     isRequired_eq_false_iff := fun r => by cases h : r.value <;> simp }]

theorem readsPlaces_add : ReadsPlaces Draft.add places where
  nodup := by decide
  step_place := by
    simp only [places, List.forall_mem_cons]
    exact ⟨fun _ _ => rfl, fun _ _ => rfl, fun _ _ => rfl, fun _ _ => rfl, nofun⟩
  step_other draft key t hkey := by
    simp only [places, List.map_cons, List.map_nil, List.mem_cons, List.not_mem_nil, or_false,
      not_or] at hkey
    rw [Draft.add, if_neg hkey.1, if_neg hkey.2.1, if_neg hkey.2.2.1, if_neg hkey.2.2.2]
  get_put_self := by simp [places]
  get_put_other := by simp [places]

theorem finish_eq_ok_iff (draft : Draft) (r : Route) :
    draft.finish = .ok r ↔ ∀ p ∈ places, p.Gives draft r := by
  simp only [Draft.finish, bind_eq_ok_iff, required_eq_ok_iff, places, List.forall_mem_cons,
    Place.Gives, Option.or_some, Option.or_none, Option.some.injEq]
  constructor
  · rintro ⟨action, haction, h⟩
    obtain rfl := Except.ok.inj h
    exact ⟨rfl, haction, rfl, rfl, nofun⟩
  · rintro ⟨hid, haction, hpatterns, hvalue, -⟩
    exact ⟨r.action, haction, by rw [hid, hpatterns, hvalue]; rfl⟩

theorem ofItems_eq_ok_iff (items : List Json.Tree) (r : Route) :
    ofItems items = .ok r ↔ FitInOrder r.fields items := by
  have hid := spells_int64.nullable fun _ => nofun
  have hvalue := spells_text.nullable fun _ => nofun
  obtain ⟨id, action, patterns, value⟩ := r
  match items with
  | [] | [_] => simp [ofItems, FitInOrder, fields]
  | [t₁, t₂] =>
    simp [ofItems, FitInOrder, fields, bind_eq_ok_iff, hid _ _, spells_text _ _, pure, Except.pure,
      @eq_comm _ _ patterns, @eq_comm _ _ value]
  | [t₁, t₂, t₃] =>
    simp [ofItems, FitInOrder, fields, bind_eq_ok_iff, hid _ _, spells_text _ _,
      spells_patterns _ _, pure, Except.pure, @eq_comm _ _ value]
  | [t₁, t₂, t₃, t₄] =>
    simp [ofItems, FitInOrder, fields, bind_eq_ok_iff, hid _ _, spells_text _ _,
      spells_patterns _ _, hvalue _ _, pure, Except.pure]
  | t₁ :: t₂ :: t₃ :: t₄ :: t₅ :: rest =>
    simp [ofItems, FitInOrder, fields, bind_eq_ok_iff]

/-- **Routes** are read from their spellings. -/
theorem spells_ofTree : Spells ofTree Spelling := by
  have hempty : ∀ p ∈ places, p.get {} = none := by simp [places]
  refine readsPlaces_add.spells_record hempty finish_eq_ok_iff ofItems_eq_ok_iff (fun _ => rfl)
    (fun _ => rfl) fun t hobject harray => ?_
  cases t with
  | object members => exact absurd rfl (hobject members)
  | array items => exact absurd rfl (harray items)
  | null | bool _ | number _ | string _ | broken => exact ⟨_, rfl⟩

/-- The order of the members of a route does not count, nor do members with other keys. -/
theorem toOption_ofTree_of_perm {members members' more : List (Option String × Json.Tree)}
    (hmore : AreOthers ["id", "action", "match", "action_value"] IsAny more)
    (hperm : members'.Perm (members ++ more)) :
    (ofTree (.object members')).toOption = (ofTree (.object members)).toOption :=
  spells_ofTree.toOption_object_of_perm (fun _ => rfl) hmore hperm

/-- What is written for a route spells it. -/
theorem spelling_toJson (r : Route) : Spelling r (ofValueBy Number.reread? r.toJson) := by
  obtain ⟨id, action, patterns, value⟩ := r
  have htext : ∀ s, TextSpelling s (ofValueBy Number.reread? (.string s)) := fun _ => rfl
  have hpatterns := PatternsSpelling.list (listSpelling_ofValueBy htext patterns)
  refine Or.inl ⟨_, rfl, GiveInOrder.hasFields ?_ (by simp [fields])⟩
  cases id with
  | none =>
    refine .omitted rfl (.present rfl (.present hpatterns (.present ?_ .nil)))
    cases value <;> rfl
  | some id =>
    have hid := int64Spelling_ofValueBy id
    refine .present hid (.present rfl (.present hpatterns (.present ?_ .nil)))
    cases value <;> rfl

end Route

namespace Node

/-! ## Nodes -/

def fields (n : Node) : List Field :=
  [⟨"id", true, Int64Spelling n.id⟩,
   ⟨"tag", true, TextSpelling n.tag⟩,
   ⟨"routes", !n.routes.isEmpty, ListSpelling Route.Spelling n.routes⟩]

def Spelling (n : Node) : Json.Tree → Prop :=
  RecordSpelling n.fields

def places : List (Place Draft Node) :=
  [{ name := "id", decode := int64, spelling := Int64Spelling, spells := spells_int64
     get := Draft.id, put := fun draft a => { draft with id := a }
     part := Node.id, default? := none, isRequired := fun _ => true
     isRequired_eq_false_iff := fun _ => by simp },
   { name := "tag", decode := text, spelling := TextSpelling, spells := spells_text
     get := Draft.tag, put := fun draft a => { draft with tag := a }
     part := Node.tag, default? := none, isRequired := fun _ => true
     isRequired_eq_false_iff := fun _ => by simp },
   { name := "routes", decode := list Route.ofTree, spelling := ListSpelling Route.Spelling
     spells := Route.spells_ofTree.list
     get := Draft.routes, put := fun draft a => { draft with routes := a }
     part := Node.routes, default? := some [], isRequired := fun n => !n.routes.isEmpty
     isRequired_eq_false_iff := fun n => by cases h : n.routes <;> simp }]

theorem readsPlaces_add : ReadsPlaces Draft.add places where
  nodup := by decide
  step_place := by
    simp only [places, List.forall_mem_cons]
    exact ⟨fun _ _ => rfl, fun _ _ => rfl, fun _ _ => rfl, nofun⟩
  step_other draft key t hkey := by
    simp only [places, List.map_cons, List.map_nil, List.mem_cons, List.not_mem_nil, or_false,
      not_or] at hkey
    rw [Draft.add, if_neg hkey.1, if_neg hkey.2.1, if_neg hkey.2.2]
  get_put_self := by simp [places]
  get_put_other := by simp [places]

theorem finish_eq_ok_iff (draft : Draft) (n : Node) :
    draft.finish = .ok n ↔ ∀ p ∈ places, p.Gives draft n := by
  simp only [Draft.finish, bind_eq_ok_iff, required_eq_ok_iff, places, List.forall_mem_cons,
    Place.Gives, Option.or_some, Option.or_none, Option.some.injEq]
  constructor
  · rintro ⟨id, hid, tag, htag, h⟩
    obtain rfl := Except.ok.inj h
    exact ⟨hid, htag, rfl, nofun⟩
  · rintro ⟨hid, htag, hroutes, -⟩
    exact ⟨n.id, hid, n.tag, htag, by rw [hroutes]; rfl⟩

theorem ofItems_eq_ok_iff (items : List Json.Tree) (n : Node) :
    ofItems items = .ok n ↔ FitInOrder n.fields items := by
  obtain ⟨id, tag, routes⟩ := n
  match items with
  | [] | [_] => simp [ofItems, FitInOrder, fields]
  | [t₁, t₂] =>
    simp [ofItems, FitInOrder, fields, bind_eq_ok_iff, spells_int64 _ _, spells_text _ _, pure,
      Except.pure, @eq_comm _ _ routes]
  | [t₁, t₂, t₃] =>
    simp [ofItems, FitInOrder, fields, bind_eq_ok_iff, spells_int64 _ _, spells_text _ _,
      Route.spells_ofTree.list _ _, pure, Except.pure]
  | t₁ :: t₂ :: t₃ :: t₄ :: rest =>
    simp [ofItems, FitInOrder, fields, bind_eq_ok_iff]

/-- **Nodes** are read from their spellings. -/
theorem spells_ofTree : Spells ofTree Spelling := by
  have hempty : ∀ p ∈ places, p.get {} = none := by simp [places]
  refine readsPlaces_add.spells_record hempty finish_eq_ok_iff ofItems_eq_ok_iff (fun _ => rfl)
    (fun _ => rfl) fun t hobject harray => ?_
  cases t with
  | object members => exact absurd rfl (hobject members)
  | array items => exact absurd rfl (harray items)
  | null | bool _ | number _ | string _ | broken => exact ⟨_, rfl⟩

/-- The order of the members of a node does not count, nor do members with other keys. -/
theorem toOption_ofTree_of_perm {members members' more : List (Option String × Json.Tree)}
    (hmore : AreOthers ["id", "tag", "routes"] IsAny more)
    (hperm : members'.Perm (members ++ more)) :
    (ofTree (.object members')).toOption = (ofTree (.object members)).toOption :=
  spells_ofTree.toOption_object_of_perm (fun _ => rfl) hmore hperm

/-- What is written for a node spells it. -/
theorem spelling_toJson (n : Node) : Spelling n (ofValueBy Number.reread? n.toJson) := by
  have hid := int64Spelling_ofValueBy n.id
  have hroutes := listSpelling_ofValueBy Route.spelling_toJson n.routes
  refine Or.inl ⟨_, rfl, GiveInOrder.hasFields ?_ (by simp [fields])⟩
  exact .present hid (.present rfl (.present hroutes .nil))

/-! ## Lists of nodes -/

/-- **The spellings of a list of nodes.** The text that is written for nodes is read as the nodes.
The other texts that are read as them are those whose tree spells them, item by item, and a node and
a route may be spelled in many ways: with the members of an object in any order and others among
them, as an array of fields, without what is as it is by default, and with null for what is unset or
empty, or with one text for several patterns. -/
theorem listOfText_spellings (nodes : List Node) :
    listOfText (Json.array (nodes.map toJson)).text = .ok nodes ∧
    ∀ s, listOfText s = .ok nodes ↔ ∃ t, HasTree s t ∧ ListSpelling Spelling nodes t := by
  have hiff : ∀ s, listOfText s = .ok nodes ↔ ∃ t, HasTree s t ∧ ListSpelling Spelling nodes t := by
    intro s
    constructor
    · intro h
      have hread : ∀ t, (∃ l, list ofTree t = .ok l) ↔ ∃ l, ListSpelling Spelling l t :=
        fun t => exists_congr fun l => spells_ofTree.list t l
      obtain ⟨t, ht, -⟩ := (Json.exists_decodeText_eq_ok_iff hread s).mp ⟨nodes, h⟩
      rw [listOfText, Json.decodeText_of_hasTree ht, spells_ofTree.list] at h
      exact ⟨t, ht, h⟩
    · rintro ⟨t, ht, hspelling⟩
      rw [listOfText, Json.decodeText_of_hasTree ht, spells_ofTree.list]
      exact hspelling
  refine ⟨(hiff _).mpr ⟨_, Json.hasTree_text _, ?_⟩, hiff⟩
  exact listSpelling_ofValueBy spelling_toJson nodes

/-- A node with routes and one without. -/
def assorted : List Node :=
  [⟨12, "a", [⟨none, "default_out", [], some ""⟩, ⟨none, "block_port", ["80", "", "443"], none⟩]⟩,
   ⟨-3, "b", []⟩]

/-- A text for them with objects and arrays, in which no route has its patterns in a list. -/
def assortedText : String :=
  "[\x7b\"routes\":[[null,\"default_out\",null,\"\"],\x7b\"more\":[],\"match\":\"80,\\n443\"," ++
  "\"action\":\"block_port\",\"id\":null\x7d],\"tag\":\"a\",\"id\":12\x7d, [-3,\"b\"]]"

theorem listOfText_spellings_assorted :
    ∃ t, HasTree assortedText t ∧ ListSpelling Spelling assorted t :=
  ((listOfText_spellings assorted).2 assortedText).mp (by decide +kernel)

end Node

end EgressPolicy
