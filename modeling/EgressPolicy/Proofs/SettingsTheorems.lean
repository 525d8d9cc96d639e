import EgressPolicy.Settings
import Mathlib.Data.List.Perm.Basic
import Mathlib.Data.Option.Basic

/-!
What settings are read from a mapping.

An entry concerns the field with its key and leaves the others as they are (`add?_eq_some_iff`), so
a field is read from the entries with its key alone, as if no other field were there
(`foldlM_add?_eq_some_iff`). That says what every setting is: its default where its key is not
given, and what its only value reads as where it is (`ofNode?_mapping_eq_some_iff`). So entries may
stand in any order, and unknown keys change nothing (`ofNode?_mapping_of_perm`).
-/

namespace EgressPolicy.Settings

/-! ## One entry -/

def keys : List String :=
  ["dns_override_path", "route_override_path", "legacy_block_matching", "geo_source",
   "fallback_dns"]

/-- What an entry does to the field with some key. -/
def take? {α : Type} (key : String) (read : Yaml.Node → Option α) (before : Option α)
    (entry : Yaml.Node × Yaml.Node) : Option (Option α) :=
  if text? entry.1 = some key then given? before read entry.2 else some before

/-- Two drafts whose fields are related, each with its key and the way its value is read. -/
def Draft.Related (r : ∀ α : Type, String → (Yaml.Node → Option α) → Option α → Option α → Prop)
    (d d' : Draft) : Prop :=
  r String "dns_override_path" text? d.dnsPath d'.dnsPath ∧
  r String "route_override_path" text? d.routePath d'.routePath ∧
  r Bool "legacy_block_matching" bool? d.legacy d'.legacy ∧
  r String "geo_source" text? d.source d'.source ∧
  r String "fallback_dns" text? d.fallbackDns d'.fallbackDns

/-- **One entry.** Its key is a text, and it concerns the field with that key alone. -/
theorem add?_eq_some_iff {draft after : Draft} {entry : Yaml.Node × Yaml.Node} :
    draft.add? entry = some after ↔ (text? entry.1).isSome = true ∧
      draft.Related (fun _ key read before a => take? key read before entry = some a) after := by
  obtain ⟨dnsPath, routePath, legacy, source, fallbackDns⟩ := after
  cases htext : text? entry.1 with
  | none => simp [Draft.add?, htext]
  | some key =>
    by_cases hkey : key ∈ keys
    · simp only [keys, List.mem_cons, List.not_mem_nil, or_false] at hkey
      rcases hkey with rfl | rfl | rfl | rfl | rfl <;>
        simp [Draft.add?, Draft.Related, take?, htext, Option.bind_eq_some_iff, and_assoc,
          and_left_comm, and_comm]
    · simp only [keys, List.mem_cons, List.not_mem_nil, or_false, not_or] at hkey
      cases draft
      simp [Draft.add?, Draft.Related, take?, htext, hkey]

/-! ## All entries -/

/-- **All entries.** The keys are texts, and each field is read as if no other were there. -/
theorem foldlM_add?_eq_some_iff : ∀ (entries : List (Yaml.Node × Yaml.Node)) {draft after : Draft},
    entries.foldlM Draft.add? draft = some after ↔
      (∀ entry ∈ entries, (text? entry.1).isSome = true) ∧
        draft.Related (fun _ key read before a => entries.foldlM (take? key read) before = some a)
          after
  | [], draft, after => by
    cases draft
    cases after
    simp [Draft.Related]
  | entry :: rest, draft, after => by
    simp only [List.foldlM_cons, Option.bind_eq_bind, Option.bind_eq_some_iff, add?_eq_some_iff,
      foldlM_add?_eq_some_iff rest, List.forall_mem_cons, Draft.Related]
    constructor
    · rintro ⟨next, ⟨hkey, h₁, h₂, h₃, h₄, h₅⟩, hkeys, hr₁, hr₂, hr₃, hr₄, hr₅⟩
      exact ⟨⟨hkey, hkeys⟩, ⟨_, h₁, hr₁⟩, ⟨_, h₂, hr₂⟩, ⟨_, h₃, hr₃⟩, ⟨_, h₄, hr₄⟩, ⟨_, h₅, hr₅⟩⟩
    · rintro ⟨⟨hkey, hkeys⟩, ⟨a, h₁, hr₁⟩, ⟨b, h₂, hr₂⟩, ⟨c, h₃, hr₃⟩, ⟨d, h₄, hr₄⟩, ⟨e, h₅, hr₅⟩⟩
      exact ⟨⟨a, b, c, d, e⟩, ⟨hkey, h₁, h₂, h₃, h₄, h₅⟩, hkeys, hr₁, hr₂, hr₃, hr₄, hr₅⟩

/-! ## Settings -/

/-- The values that entries give a key. -/
def valuesOf (key : String) (entries : List (Yaml.Node × Yaml.Node)) : List Yaml.Node :=
  (entries.filter fun entry => text? entry.1 == some key).map Prod.snd

/-- What the values of a key make of a setting: a key may be left out, but not be given twice. -/
def setting? {α : Type} (default : α) (read : Yaml.Node → Option α) : List Yaml.Node → Option α
  | [] => some default
  | [value] => read value
  | _ :: _ :: _ => none

theorem foldlM_take?_eq {α : Type} (key : String) (read : Yaml.Node → Option α) :
    ∀ (entries : List (Yaml.Node × Yaml.Node)) (before : Option α),
      entries.foldlM (take? key read) before =
        (valuesOf key entries).foldlM (fun before value => given? before read value) before
  | [], _ => rfl
  | entry :: rest, before => by
    rw [List.foldlM_cons, take?]
    by_cases hkey : text? entry.1 = some key
    · have hvalues : valuesOf key (entry :: rest) = entry.2 :: valuesOf key rest := by
        simp [valuesOf, hkey]
      simp only [if_pos hkey, hvalues, List.foldlM_cons, foldlM_take?_eq key read rest]
    · have hvalues : valuesOf key (entry :: rest) = valuesOf key rest := by
        simp [valuesOf, hkey]
      rw [if_neg hkey, hvalues]
      exact foldlM_take?_eq key read rest before

/-- A field that starts empty is the setting that the values of its key make. -/
theorem map_foldlM_take? {α : Type} (key : String) (read : Yaml.Node → Option α) (default : α)
    (entries : List (Yaml.Node × Yaml.Node)) :
    (entries.foldlM (take? key read) none).map (fun a => a.getD default) =
      setting? default read (valuesOf key entries) := by
  rw [foldlM_take?_eq]
  match valuesOf key entries with
  | [] => rfl
  | [value] => cases h : read value <;> simp [given?, setting?, h]
  | value :: again :: rest =>
    cases h : read value <;> simp [List.foldlM_cons, given?, setting?, h]

/-- **The settings of a mapping.** Each is what the values of its key make of it. -/
theorem ofNode?_mapping_eq_some_iff {entries : List (Yaml.Node × Yaml.Node)} {s : Settings} :
    ofNode? (.mapping entries) = some s ↔
      (∀ entry ∈ entries, (text? entry.1).isSome = true) ∧
      setting? ({} : Settings).dnsPath text? (valuesOf "dns_override_path" entries) =
        some s.dnsPath ∧
      setting? ({} : Settings).routePath text? (valuesOf "route_override_path" entries) =
        some s.routePath ∧
      setting? ({} : Settings).legacy bool? (valuesOf "legacy_block_matching" entries) =
        some s.legacy ∧
      setting? ({} : Settings).source text? (valuesOf "geo_source" entries) = some s.source ∧
      setting? ({} : Settings).fallbackDns text? (valuesOf "fallback_dns" entries) =
        some s.fallbackDns := by
  simp only [ofNode?, Option.map_eq_some_iff, foldlM_add?_eq_some_iff, Draft.Related,
    ← map_foldlM_take?]
  constructor
  · rintro ⟨draft, ⟨hkeys, h₁, h₂, h₃, h₄, h₅⟩, rfl⟩
    exact ⟨hkeys, ⟨_, h₁, rfl⟩, ⟨_, h₂, rfl⟩, ⟨_, h₃, rfl⟩, ⟨_, h₄, rfl⟩, ⟨_, h₅, rfl⟩⟩
  · rintro ⟨hkeys, ⟨a, h₁, ha⟩, ⟨b, h₂, hb⟩, ⟨c, h₃, hc⟩, ⟨d, h₄, hd⟩, ⟨e, h₅, he⟩⟩
    refine ⟨⟨a, b, c, d, e⟩, ⟨hkeys, h₁, h₂, h₃, h₄, h₅⟩, ?_⟩
    rw [Draft.finish, ha, hb, hc, hd, he]

/-! ## Entries in any order -/

theorem setting?_perm {α : Type} {default : α} {read : Yaml.Node → Option α}
    {values values' : List Yaml.Node} (h : values.Perm values') :
    setting? default read values = setting? default read values' := by
  match values, values', h.length_eq with
  | [], [], _ => rfl
  | [value], [value'], _ =>
    obtain rfl := List.singleton_perm_singleton.mp h
    rfl
  | _ :: _ :: _, _ :: _ :: _, _ => rfl

/-- Entries with other keys give a key no values. -/
theorem valuesOf_perm {key : String} {entries known unknown : List (Yaml.Node × Yaml.Node)}
    (hperm : entries.Perm (known ++ unknown)) (hno : ∀ entry ∈ unknown, text? entry.1 ≠ some key) :
    (valuesOf key entries).Perm (valuesOf key known) := by
  have hnone : unknown.filter (fun entry => text? entry.1 == some key) = [] := by
    simpa using hno
  have hfilter := hperm.filter fun entry => text? entry.1 == some key
  rw [List.filter_append, hnone, List.append_nil] at hfilter
  exact hfilter.map Prod.snd

/-- **The order of entries** does not count, and entries with unknown keys change nothing, whatever
their values are. -/
theorem ofNode?_mapping_of_perm {entries known unknown : List (Yaml.Node × Yaml.Node)}
    (hperm : entries.Perm (known ++ unknown))
    (hunknown : ∀ entry ∈ unknown, ∃ key, text? entry.1 = some key ∧ key ∉ keys) :
    ofNode? (.mapping entries) = ofNode? (.mapping known) := by
  have htexts : (∀ entry ∈ entries, (text? entry.1).isSome = true) ↔
      ∀ entry ∈ known, (text? entry.1).isSome = true := by
    simp only [hperm.mem_iff, List.mem_append, or_imp, forall_and, and_iff_left_iff_imp]
    intro _ entry hentry
    obtain ⟨key, hkey, -⟩ := hunknown entry hentry
    rw [hkey]
    rfl
  have hsetting : ∀ key ∈ keys, ∀ (α : Type) (default : α) (read : Yaml.Node → Option α),
      setting? default read (valuesOf key entries) =
        setting? default read (valuesOf key known) := by
    intro key hmem α default read
    refine setting?_perm (valuesOf_perm hperm fun entry hentry htext => ?_)
    obtain ⟨other, hother, hno⟩ := hunknown entry hentry
    rw [htext] at hother
    exact hno (Option.some.inj hother ▸ hmem)
  refine Option.ext fun s => ?_
  rw [ofNode?_mapping_eq_some_iff, ofNode?_mapping_eq_some_iff, htexts]
  rw [hsetting _ (by decide), hsetting _ (by decide), hsetting _ (by decide),
    hsetting _ (by decide), hsetting _ (by decide)]

/-- An unknown key between two that are known. -/
example :
    ofText? "geo_source: 'it''s' # quoted\nmore: [a, b: c]\nlegacy_block_matching: True" =
      some { source := "it's", legacy := true } := by
  decide +kernel

end EgressPolicy.Settings
