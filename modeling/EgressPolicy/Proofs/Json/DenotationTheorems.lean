import EgressPolicy.Json.Equality
import EgressPolicy.Proofs.Json.FileTheorems
import EgressPolicy.Proofs.Json.TreeTheorems

/-!
Texts that stand for values, and decoders as functions of values.

A text denotes a value when it is read as that value and no object in it repeats a key; how it is
spelled, with which blanks, escapes and order of members, does not count any more. A decoder follows
a function of values when it makes of every tree without repeated keys what the function makes of
its value (`Follows`), and then it does so with the text of a file (`File.usable?_of_holds`).
Objects that are read member by member follow a function of their members (`toOption_foldMembers`).
-/

namespace EgressPolicy

namespace Json

/-! ## Texts and files that hold a value -/

/-- A text denotes a value: it keeps to the grammar, no object in it repeats a key, and what is read
from it, with room for so many arrays and objects in each other, is the value. -/
def Denotes (room : Nat) (s : String) (v : Json) : Prop :=
  ∃ t, HasTree s t ∧ t.hasDistinctKeys = true ∧ t.value? room = some v

/-- A value that a text denotes is normal. -/
theorem Denotes.normal_eq {room : Nat} {s : String} {v : Json} (h : Denotes room s v) :
    v.normal = v := by
  obtain ⟨t, -, -, hv⟩ := h
  exact (Tree.value?_sound hv).1

/-- Whether a text denotes a value can be computed. -/
theorem denotes_iff {room : Nat} {s : String} {v : Json} :
    Denotes room s v ↔ (Page.ofText s).isComplete = true ∧
      (Page.ofText s).tree.hasDistinctKeys = true ∧ (Page.ofText s).tree.value? room = some v := by
  constructor
  · intro h
    obtain ⟨t, htree, hdistinct, hv⟩ := h
    obtain ⟨hcomplete, rfl⟩ := hasTree_iff.mp htree
    exact ⟨hcomplete, hdistinct, hv⟩
  · intro h
    exact ⟨_, hasTree_iff.mpr ⟨h.1, rfl⟩, h.2⟩

instance (room : Nat) (s : String) (v : Json) : Decidable (Denotes room s v) :=
  decidable_of_iff _ denotes_iff.symm

theorem decodeText_of_hasTree {α : Type} {s : String} {t : Tree} (h : HasTree s t)
    (decode : Tree → Decoded α) : decodeText decode s = decode t := by
  obtain ⟨hcomplete, htree⟩ := hasTree_iff.mp h
  rw [decodeText, htree, hcomplete]
  cases decode t <;> rfl

theorem Tree.kept_eq_ok_iff {room : Nat} {t : Tree} {v : Json} :
    t.kept room = .ok v ↔ t.value? room = some v := by
  rw [kept]
  cases t.value? room <;> simp [orMalformed]

/-! ## Values in the place of trees -/

/-- The items of an array, each of which is read in the same way. -/
def asListOf? {α : Type} (ofJson? : Json → Option α) : Json → Option (List α)
  | array items => items.mapM ofJson?
  | null | bool _ | number _ | string _ | object _ => none

/-- Items that are each read as what they were made of. -/
theorem asListOf?_map {α : Type} {ofJson? : Json → Option α} {toJson : α → Json} {l : List α}
    (h : ∀ a ∈ l, ofJson? (toJson a) = some a) :
    asListOf? ofJson? (array (l.map toJson)) = some l := by
  show (l.map toJson).mapM ofJson? = some l
  rw [mapM_eq_some_iff, List.forall₂_map_left_iff, List.forall₂_same]
  exact h

theorem asListOf?_ofStrings (texts : List String) :
    asListOf? asString? (ofStrings texts) = some texts :=
  asListOf?_map fun _ _ => rfl

/-- The value of a field that may be left out. -/
def Members.field? {α : Type} (name : String) (ofJson? : Json → Option α) (ms : Members) :
    Option (Option α) :=
  match get? ms name with
  | none => some none
  | some v => (ofJson? v).map some

namespace Members

variable {α : Type} {name key : String} {ofJson? : Json → Option α} {ms : Members} {v : Json}

theorem field?_of_notMem (h : name ∉ keys ms) : field? name ofJson? ms = some none := by
  rw [field?, get?_eq_none_iff.mpr h]

theorem field?_of_get? (h : get? ms name = some v) :
    field? name ofJson? ms = (ofJson? v).map some := by
  rw [field?, h]

theorem field?_insert_self : field? name ofJson? (insert name v ms) = (ofJson? v).map some :=
  field?_of_get? (get?_insert_self name v ms)

theorem field?_insert_of_ne (h : name ≠ key) :
    field? name ofJson? (insert key v ms) = field? name ofJson? ms := by
  rw [field?, field?, get?_insert_of_ne h]

end Members

/-- What the members of an object with two fields make: each field, if it is given, and all other
members. -/
def Members.pair? {α β σ : Type} (first second : String) (ofJson₁? : Json → Option α)
    (ofJson₂? : Json → Option β) (draft : Option α → Option β → Members → σ) (ms : Members) :
    Option σ :=
  (field? first ofJson₁? ms).bind fun a =>
    (field? second ofJson₂? ms).map fun b => draft a b (without [first, second] ms)

section

variable {α β σ : Type} {first second : String} {ofJson₁? : Json → Option α}
  {ofJson₂? : Json → Option β} {draft : Option α → Option β → Members → σ} {ms : Members}

theorem Members.field?_eq_none_iff :
    field? first ofJson₁? ms = some none ↔ get? ms first = none := by
  rw [field?]
  cases get? ms first <;> simp

theorem Members.field?_eq_some_iff {a : α} :
    field? first ofJson₁? ms = some (some a) ↔
      ∃ v, get? ms first = some v ∧ ofJson₁? v = some a := by
  rw [field?]
  cases get? ms first <;> simp

theorem Members.pair?_eq_some_iff {d : σ} :
    pair? first second ofJson₁? ofJson₂? draft ms = some d ↔
      ∃ a b, field? first ofJson₁? ms = some a ∧ field? second ofJson₂? ms = some b ∧
        d = draft a b (without [first, second] ms) := by
  simp only [pair?, Option.bind_eq_some_iff, Option.map_eq_some_iff]
  constructor
  · rintro ⟨a, ha, b, hb, rfl⟩
    exact ⟨a, b, ha, hb, rfl⟩
  · rintro ⟨a, b, ha, hb, rfl⟩
    exact ⟨a, ha, b, hb, rfl⟩

end

/-- Members that are kept beside the fields of an object: normal ones, not too deep, and none with
the name of a field. -/
structure Members.AreKept (names : List String) (room : Nat) (ms : Members) : Prop where
  normal : IsNormal ms
  depth_le : ∀ m ∈ ms, m.2.depth ≤ room
  apart : ∀ m ∈ ms, m.1 ∉ names

theorem Members.areKept_nil (names : List String) (room : Nat) : AreKept names room [] :=
  ⟨isNormal_nil, fun _ h => absurd h List.not_mem_nil, fun _ h => absurd h List.not_mem_nil⟩

/-- One more member is kept, or takes the place of one with its key. -/
theorem Members.AreKept.insert {names : List String} {room : Nat} {ms : Members}
    (h : AreKept names room ms) {key : String} (hkey : key ∉ names) {t : Tree} {v : Json}
    (hv : t.kept room = .ok v) : AreKept names room (insert key v ms) := by
  obtain ⟨hnormal, hdepth⟩ := Tree.value?_sound (Tree.kept_eq_ok_iff.mp hv)
  refine ⟨h.normal.insert hnormal key, fun m hm => ?_, fun m hm => ?_⟩
  · rcases mem_insert hm with rfl | hm
    · exact hdepth
    · exact h.depth_le m hm
  · rcases mem_insert hm with rfl | hm
    · exact hkey
    · exact h.apart m hm

namespace Tree

/-- A decoder follows a function of values: what it makes of a tree without repeated keys, the
function makes of the value of the tree. -/
def Follows {α : Type} (decode : Tree → Decoded α) (room : Nat) (ofJson? : Json → Option α) :
    Prop :=
  ∀ t v, t.hasDistinctKeys = true → t.value? room = some v → (decode t).toOption = ofJson? v

section Follows

variable {α : Type} {decode : Tree → Decoded α} {room : Nat} {ofJson? : Json → Option α}

theorem follows_text (room : Nat) : Follows text room asString? := by
  intro t v _ hv
  cases v with
  | null | bool _ | number _ | string _ =>
    obtain rfl : t = _ := kind_of_value? hv
    rfl
  | array _ | object _ =>
    obtain ⟨_, _, -, rfl, -⟩ := kind_of_value? hv
    rfl

theorem Follows.mapM (h : Follows decode room ofJson?) : ∀ {items : List Tree} {vs : List Json},
    (∀ t ∈ items, t.hasDistinctKeys = true) → values? room items = some vs →
      (items.mapM decode).toOption = vs.mapM ofJson?
  | [], vs, _, hvs => by
    obtain rfl := Option.some.inj hvs
    rfl
  | t :: rest, vs, hdistinct, hvs => by
    obtain ⟨v, vs, hv, hrest, rfl⟩ := values?_cons_eq_some_iff.mp hvs
    rw [List.forall_mem_cons] at hdistinct
    have hfirst := h t v hdistinct.1 hv
    have hmore := h.mapM hdistinct.2 hrest
    simp only [List.mapM_cons, toOption_bind, hfirst, hmore]
    rfl

/-- The room of the items is that of the array less one. -/
theorem Follows.list (h : ∀ less, room = less + 1 → Follows decode less ofJson?) :
    Follows (list decode) room (asListOf? ofJson?) := by
  intro t v hdistinct hv
  cases v with
  | null | bool _ | number _ | string _ =>
    obtain rfl : t = _ := kind_of_value? hv
    rfl
  | array vs =>
    obtain ⟨less, items, hless, rfl, hvs⟩ := kind_of_value? hv
    exact (h less hless).mapM (hasDistinctKeys_array_iff.mp hdistinct) hvs
  | object _ =>
    obtain ⟨_, _, -, rfl, -⟩ := kind_of_value? hv
    rfl

end Follows

/-! ## Objects that are read into a draft -/

section Objects

variable {σ : Type} {step : σ → String → Tree → Decoded σ} {room : Nat}
  {see : Members → Option σ}

/-- What every step keeps holds in the end. -/
theorem foldMembers_induction {holds : σ → Prop}
    (hstep : ∀ draft key t after, holds draft → step draft key t = .ok after → holds after) :
    ∀ (members : List (Option String × Tree)) {draft after : σ}, holds draft →
      foldMembers step draft members = .ok after → holds after
  | [], draft, after, h, hafter => by
    obtain rfl : draft = after := Except.ok.inj hafter
    exact h
  | (none, t) :: rest, draft, after, _, hafter =>
    absurd hafter (foldMembers_none draft t rest after)
  | (some key, t) :: rest, draft, after, h, hafter => by
    rw [foldMembers_some, bind_eq_ok_iff] at hafter
    obtain ⟨next, hnext, hrest⟩ := hafter
    exact foldMembers_induction hstep rest (hstep draft key t next h hnext) hrest

/-- **Reading members one after the other** makes of them what a function of members makes of their
values, if that is so for one member more: its key is new, since no key is repeated. -/
theorem toOption_foldMembers
    (hstep : ∀ (acc : Members) (key : String) (t : Tree) (v : Json), Members.IsAscending acc →
      key ∉ Members.keys acc → t.hasDistinctKeys = true → t.value? room = some v →
        see (Members.insert key v acc) = (see acc).bind fun draft => (step draft key t).toOption) :
    ∀ (members : List (Option String × Tree)) {acc ms : Members}, Members.IsAscending acc →
      (∀ key ∈ Members.keys acc, some key ∉ members.map Prod.fst) →
      (members.map Prod.fst).Nodup → (∀ m ∈ members, m.2.hasDistinctKeys = true) →
      members? room members acc = some ms →
        see ms = (see acc).bind fun draft => (foldMembers step draft members).toOption
  | [], acc, ms, _, _, _, _, hms => by
    obtain rfl := Option.some.inj hms
    cases see acc <;> rfl
  | (key, t) :: rest, acc, ms, hacc, hnew, hnodup, hdistinct, hms => by
    obtain ⟨key, v, rfl, hv, hrest⟩ := members?_cons_eq_some_iff.mp hms
    rw [List.forall_mem_cons] at hdistinct
    rw [List.map_cons, List.nodup_cons] at hnodup
    have hkey : key ∉ Members.keys acc := fun hmem => hnew key hmem List.mem_cons_self
    have hnew' : ∀ other ∈ Members.keys (Members.insert key v acc),
        some other ∉ rest.map Prod.fst := by
      intro other hother
      obtain ⟨m, hm, rfl⟩ := List.mem_map.mp hother
      rcases Members.mem_insert hm with rfl | hm
      · exact hnodup.1
      · exact fun hmem => hnew m.1 (List.mem_map.mpr ⟨m, hm, rfl⟩) (List.mem_cons_of_mem _ hmem)
    have hone := hstep acc key t v hacc hkey hdistinct.1 hv
    have hmore := toOption_foldMembers hstep rest (hacc.insert key v) hnew' hnodup.2 hdistinct.2
      hrest
    rw [hmore, hone, Option.bind_assoc]
    simp only [foldMembers_some, toOption_bind]

/-- A field that was not given before. -/
theorem toOption_given {α τ : Type} {name : String} {decode : Tree → Decoded α} {t : Tree}
    (put : Option α → τ) :
    (given name none decode t >>= fun a => pure (put a)).toOption =
      (decode t).toOption.map fun a => put (some a) := by
  rw [given]
  cases decode t <;> rfl

variable {α β : Type} {first second : String} {decode₁ : Tree → Decoded α}
  {decode₂ : Tree → Decoded β} {draft : Option α → Option β → Members → σ}

/-- A step that reads two fields, each in its own way, and keeps every other member. -/
structure ReadsPair (step : σ → String → Tree → Decoded σ) (room : Nat) (first second : String)
    (decode₁ : Tree → Decoded α) (decode₂ : Tree → Decoded β)
    (draft : Option α → Option β → Members → σ) : Prop where
  ne : first ≠ second
  step_first : ∀ a b extra t, step (draft a b extra) first t =
    given first a decode₁ t >>= fun a => pure (draft a b extra)
  step_second : ∀ a b extra t, step (draft a b extra) second t =
    given second b decode₂ t >>= fun b => pure (draft a b extra)
  step_other : ∀ a b extra key t, key ≠ first → key ≠ second → step (draft a b extra) key t =
    kept room t >>= fun v => pure (draft a b (Members.insert key v extra))

section ReadsPair

variable {ofJson₁? : Json → Option α} {ofJson₂? : Json → Option β}
  (h : ReadsPair step room first second decode₁ decode₂ draft)
  (h₁ : Follows decode₁ room ofJson₁?) (h₂ : Follows decode₂ room ofJson₂?)

include h h₁ h₂

/-- One member more is one step more. -/
theorem ReadsPair.pair?_insert {acc : Members} {key : String} {t : Tree} {v : Json}
    (hacc : Members.IsAscending acc) (hkey : key ∉ Members.keys acc)
    (hdistinct : t.hasDistinctKeys = true) (hv : t.value? room = some v) :
    Members.pair? first second ofJson₁? ofJson₂? draft (Members.insert key v acc) =
      (Members.pair? first second ofJson₁? ofJson₂? draft acc).bind fun d =>
        (step d key t).toOption := by
  by_cases hkey₁ : key = first
  · subst hkey₁
    rw [Members.pair?, Members.pair?, Members.field?_insert_self,
      Members.field?_insert_of_ne (Ne.symm h.ne),
      Members.without_insert_of_mem hacc (by simp), Members.field?_of_notMem hkey,
      ← h₁ t v hdistinct hv]
    cases Members.field? second ofJson₂? acc with
    | none => cases (decode₁ t).toOption <;> rfl
    | some b =>
      simp only [Option.bind_some, Option.map_some, h.step_first, toOption_given]
      cases (decode₁ t).toOption <;> rfl
  by_cases hkey₂ : key = second
  · subst hkey₂
    rw [Members.pair?, Members.pair?, Members.field?_insert_self, Members.field?_insert_of_ne h.ne,
      Members.without_insert_of_mem hacc (by simp), Members.field?_of_notMem hkey,
      ← h₂ t v hdistinct hv]
    cases Members.field? first ofJson₁? acc with
    | none => rfl
    | some a =>
      simp only [Option.bind_some, Option.map_some, h.step_second, toOption_given]
      cases (decode₂ t).toOption <;> rfl
  · have hname : key ∉ [first, second] := by simp [hkey₁, hkey₂]
    rw [Members.pair?, Members.pair?, Members.field?_insert_of_ne (Ne.symm hkey₁),
      Members.field?_insert_of_ne (Ne.symm hkey₂), Members.without_insert_of_notMem hacc hname]
    cases Members.field? first ofJson₁? acc with
    | none => rfl
    | some a =>
      cases Members.field? second ofJson₂? acc with
      | none => rfl
      | some b =>
        simp only [Option.bind_some, Option.map_some, h.step_other a b _ key t hkey₁ hkey₂,
          kept_eq_ok_iff.mpr hv]
        rfl

/-- **Objects with two fields.** Where each field is decoded as some function of values says, an
object is read as its members say. -/
theorem ReadsPair.toOption_foldMembers {members : List (Option String × Tree)} {ms : Members}
    (hdistinct : (object members).hasDistinctKeys = true)
    (hms : members? room members [] = some ms) :
    (foldMembers step (draft none none []) members).toOption =
      Members.pair? first second ofJson₁? ofJson₂? draft ms := by
  rw [hasDistinctKeys_object_iff] at hdistinct
  exact (Tree.toOption_foldMembers (fun _ _ _ _ => h.pair?_insert h₁ h₂) members
    List.Pairwise.nil (fun _ h => absurd h List.not_mem_nil) hdistinct.1 hdistinct.2 hms).symm

end ReadsPair

/-- A field that is given was decoded from a value. -/
theorem exists_of_given {α : Type} {name : String} {before : Option α}
    {decode : Tree → Decoded α} {t : Tree} {a : Option α} (h : given name before decode t = .ok a) :
    ∀ x ∈ a, ∃ t, decode t = .ok x := by
  unfold given at h
  split at h
  · cases h
  · obtain ⟨x, hx, rfl⟩ := map_eq_ok_iff.mp h
    intro y hy
    obtain rfl := Option.some.inj hy
    exact ⟨t, hx⟩

/-- A draft of two fields that were decoded, if they were given, and of other members that are
kept. -/
def IsDraft (room : Nat) (first second : String) (decode₁ : Tree → Decoded α)
    (decode₂ : Tree → Decoded β) (draft : Option α → Option β → Members → σ) (d : σ) : Prop :=
  ∃ a b extra, d = draft a b extra ∧ (∀ x ∈ a, ∃ t, decode₁ t = .ok x) ∧
    (∀ y ∈ b, ∃ t, decode₂ t = .ok y) ∧ Members.AreKept [first, second] room extra

/-- Each step makes a draft of a draft. -/
theorem ReadsPair.isDraft_step (h : ReadsPair step room first second decode₁ decode₂ draft)
    (d : σ) (key : String) (t : Tree) (after : σ)
    (hd : IsDraft room first second decode₁ decode₂ draft d) (hstep : step d key t = .ok after) :
    IsDraft room first second decode₁ decode₂ draft after := by
  obtain ⟨a, b, extra, rfl, ha, hb, hextra⟩ := hd
  by_cases hkey₁ : key = first
  · subst hkey₁
    rw [h.step_first, bind_eq_ok_iff] at hstep
    obtain ⟨a, hgiven, hstep⟩ := hstep
    exact ⟨a, b, extra, (Except.ok.inj hstep).symm, exists_of_given hgiven, hb, hextra⟩
  by_cases hkey₂ : key = second
  · subst hkey₂
    rw [h.step_second, bind_eq_ok_iff] at hstep
    obtain ⟨b, hgiven, hstep⟩ := hstep
    exact ⟨a, b, extra, (Except.ok.inj hstep).symm, ha, exists_of_given hgiven, hextra⟩
  · rw [h.step_other a b extra key t hkey₁ hkey₂, bind_eq_ok_iff] at hstep
    obtain ⟨v, hv, hstep⟩ := hstep
    refine ⟨a, b, _, (Except.ok.inj hstep).symm, ha, hb, hextra.insert ?_ hv⟩
    simp [hkey₁, hkey₂]

/-- **What is read of an object with two fields**: values of the fields, and other members, which
have none of their names, even where keys are repeated. -/
theorem ReadsPair.sound (h : ReadsPair step room first second decode₁ decode₂ draft)
    {members : List (Option String × Tree)} {after : σ}
    (hafter : foldMembers step (draft none none []) members = .ok after) :
    IsDraft room first second decode₁ decode₂ draft after :=
  foldMembers_induction h.isDraft_step members
    ⟨none, none, [], rfl, by simp, by simp, Members.areKept_nil _ _⟩ hafter

end Objects

end Tree

end Json

open Json

/-- A file holds a value: its text denotes the value, within the bound on the depth of what is
kept. -/
def File.Holds (file : File) (v : Json) : Prop :=
  ∃ s, file.text? = some s ∧ Denotes Tree.maxOpen s v

theorem File.Holds.normal_eq {file : File} {v : Json} (h : file.Holds v) : v.normal = v := by
  obtain ⟨_, -, hv⟩ := h
  exact hv.normal_eq

theorem File.holds_ofText_iff {s : String} {v : Json} :
    (File.ofText s).Holds v ↔ Denotes Tree.maxOpen s v := by
  rw [Holds, text?_ofText]
  simp

/-- What is used of a file that holds a value depends on the value alone. -/
theorem File.usable?_of_holds {α : Type} {decode : Tree → Decoded α}
    {ofJson? : Json → Option α} (hdecode : Tree.Follows decode Tree.maxOpen ofJson?) {file : File}
    {v : Json} (h : file.Holds v) : file.usable? (decodeText decode) = ofJson? v := by
  obtain ⟨s, htext, t, htree, hdistinct, hv⟩ := h
  rw [usable?_of_text? htext, decodeText_of_hasTree htree]
  exact hdecode t v hdistinct hv

end EgressPolicy
