import EgressPolicy.Proofs.Directive.AcceptedTheorems
import EgressPolicy.Proofs.Node.SpellingTheorems
import EgressPolicy.Proofs.Text.LayoutTheorems

/-!
The layout of a route.

A directive is read of the action of a route, of its patterns once they are cleaned, and of its
value once it is trimmed, and of nothing else (`Directive.ofRoute_congr`). So the panel may lay a
route out as it likes (`Route.Layout`): with blanks around the patterns and blank patterns among
them, with all patterns in one text, with blanks around the value. `Route.ofRoute_of_layout` says
that every layout has the answer of the route, be it a directive, none, or an error.
-/

namespace EgressPolicy

open Json (HasTree)
open Json.Tree

/-! ## What a directive is read of -/

namespace Route

/-- The clean patterns of a route are what is left of its patterns. -/
theorem map_toList_cleanPatterns (r : Route) :
    r.cleanPatterns.map String.toList = Text.cleaned (r.patterns.map String.toList) := by
  have hempty : ∀ s : String, decide (s ≠ "") = decide (s.toList ≠ []) := by
    intro s
    rw [decide_eq_decide, ← String.toList_empty, Ne, Ne, String.toList_inj]
  unfold cleanPatterns
  induction r.patterns with
  | nil => rfl
  | cons p rest ih =>
    rw [List.map_cons, List.map_cons, Text.cleaned_cons, ← ih, List.filter_cons, hempty,
      Text.toList_trim]
    by_cases hp : Text.strip p.toList = [] <;> simp [Text.cleaned, hp]

theorem cleanPatterns_congr {r r' : Route}
    (h : Text.cleaned (r.patterns.map String.toList) =
      Text.cleaned (r'.patterns.map String.toList)) : r.cleanPatterns = r'.cleanPatterns := by
  refine List.map_injective_iff.mpr (fun _ _ => String.toList_injective) ?_
  rw [map_toList_cleanPatterns, map_toList_cleanPatterns, h]

theorem requireValue_congr {r r' : Route} (h : r.value.map Text.trim = r'.value.map Text.trim)
    (a : Action) : r.requireValue a = r'.requireValue a := by
  unfold requireValue
  cases hr : r.value with
  | none =>
    rw [hr] at h
    rw [Option.map_eq_none_iff.mp h.symm]
  | some value =>
    rw [hr] at h
    obtain ⟨value', hr', htrim⟩ := Option.map_eq_some_iff.mp h.symm
    rw [hr']
    simp only [htrim]

end Route

/-- **What counts.** Routes with one action, the same clean patterns and the same trimmed value are
the same directive, or none of them is any, for the same reason. -/
theorem Directive.ofRoute_congr {r r' : Route} (haction : r.action = r'.action)
    (hpatterns : r.cleanPatterns = r'.cleanPatterns)
    (hvalue : r.value.map Text.trim = r'.value.map Text.trim) : ofRoute r = ofRoute r' := by
  rw [ofRoute, ofRoute, haction]
  cases Action.ofName? r'.action with
  | none => rfl
  | some a =>
    cases a <;>
      simp only [ofAction, Route.requirePatterns, Route.requirePorts, Route.requireOutbound,
        hpatterns, Route.requireValue_congr hvalue]

namespace Route

/-! ## Layouts -/

/-- The layouts of the patterns of a route: a list of strings with blanks around the patterns and
blank strings among them; or, where no pattern holds a comma or a line end, one string of such
entries with commas and line ends between them. -/
inductive PatternsLayout (patterns : List String) : Json.Tree → Prop where
  | list {entries : List String}
    (hentries : Text.IsPadded (patterns.map String.toList) (entries.map String.toList))
    {t : Json.Tree} (ht : ListSpelling TextSpelling entries t) : PatternsLayout patterns t
  | text (hplain : ∀ p ∈ patterns, ∀ c ∈ p.toList, separates c = false)
    {entries : List (List Char)} (hentries : Text.IsPadded (patterns.map String.toList) entries)
    {s : String} (hs : Text.IsMixed separates entries s.toList) :
    PatternsLayout patterns (.string (some s))

/-- The layouts of a route: an object or an array of its fields, in which the patterns are laid out
and the value, if there is one, has blanks around it. The number of the route does not count. -/
def Layout (r : Route) (t : Json.Tree) : Prop :=
  ∃ (number : Option Int64) (patterns : Json.Tree) (value : Option String),
    PatternsLayout r.patterns patterns ∧
    Option.Rel (fun v w => Text.IsPaddedText v.toList w.toList) r.value value ∧
    RecordSpelling
      [⟨"id", number.isSome, OptionSpelling Int64Spelling number⟩,
       ⟨"action", true, TextSpelling r.action⟩,
       ⟨"match", true, (· = patterns)⟩,
       ⟨"action_value", value.isSome, OptionSpelling TextSpelling value⟩] t

/-- Laid out patterns are read as patterns of which the same is left. -/
theorem PatternsLayout.exists_spelling {patterns : List String} {t : Json.Tree}
    (h : PatternsLayout patterns t) : ∃ entries, PatternsSpelling entries t ∧
      Text.cleaned (entries.map String.toList) = Text.cleaned (patterns.map String.toList) := by
  cases h with
  | list hentries ht => exact ⟨_, .list ht, Text.cleaned_of_isPadded hentries⟩
  | @text hplain entries hentries s hs =>
    refine ⟨pieces s, .joined (pieces_eq_iff.mp rfl), ?_⟩
    have hpieces : (pieces s).map String.toList = s.toList.splitOnP separates :=
      (Text.splitOnP_eq_iff.mpr (pieces_eq_iff.mp rfl)).symm
    rw [hpieces, Text.cleaned_splitOnP_of_isMixed hentries (List.forall_mem_map.mpr hplain) hs]

theorem trim_eq_of_isPaddedText {v w : String} (h : Text.IsPaddedText v.toList w.toList) :
    Text.trim w = Text.trim v := by
  rw [Text.trim, Text.trim, Text.strip_of_isPaddedText h]

/-- **The layout of a route** does not count. However a route is laid out, it is read, and what is
read is the directive of the route, or none as the route is, or refused for the same reason. -/
theorem ofRoute_of_layout {r : Route} {t : Json.Tree} (h : r.Layout t) :
    ∃ r', ofTree t = .ok r' ∧ (∀ s, HasTree s t → ofText s = .ok r') ∧
      Directive.ofRoute r' = Directive.ofRoute r := by
  obtain ⟨number, patterns, value, hpatterns, hvalue, hrecord⟩ := h
  obtain ⟨entries, hspelling, hcleaned⟩ := hpatterns.exists_spelling
  let r' : Route := ⟨number, r.action, entries, value⟩
  have hspells : r'.Spelling t := by
    refine hrecord.implies (.cons (.refl _) (.cons (.refl _) (.cons ?_ (.cons (.refl _) .nil))))
    refine ⟨rfl, fun _ => rfl, ?_⟩
    rintro _ rfl
    exact hspelling
  have hread : ofTree t = .ok r' := (spells_ofTree t r').mpr hspells
  have htrim : value.map Text.trim = r.value.map Text.trim := by
    generalize r.value = plain at hvalue
    cases hvalue with
    | none => rfl
    | some hpadded => exact congrArg some (trim_eq_of_isPaddedText hpadded)
  refine ⟨r', hread, fun s hs => ?_, ?_⟩
  · rw [ofText, Json.decodeText_of_hasTree hs, hread]
  · exact Directive.ofRoute_congr rfl (cleanPatterns_congr hcleaned) htrim

/-- A route with two patterns and a value. -/
def compact : Route :=
  ⟨none, "route", ["a.example", "b.example"], some "\x7b\"tag\":\"us\"\x7d"⟩

/-- The same route with its patterns in one string, in which there are line ends, blanks and empty
entries besides, and with blanks around its value. -/
def spacious : Json.Tree :=
  .object
    [(some "action", .string (some "route")),
     (some "match", .string (some ", a.example\r\n ,b.example\u3000")),
     (some "action_value", .string (some "\u2003\x7b\"tag\":\"us\"\x7d\n"))]

theorem ofRoute_of_layout_spacious : compact.Layout spacious ∧
    ∃ r', ofTree spacious = .ok r' ∧ Directive.ofRoute r' =
      .ok (some (.route ["a.example", "b.example"] ⟨"us", "", []⟩)) := by
  have hblank : ∀ {c : Char}, Text.isBlank c = true → ∀ d ∈ [c], Text.isBlank d = true :=
    fun h => List.forall_mem_singleton.mpr h
  have hentries : Text.IsPadded (compact.patterns.map String.toList)
      [[], " a.example\r".toList, [' '], "b.example\u3000".toList] :=
    .blank nofun (.padded ⟨[' '], ['\r'], by decide +kernel, hblank rfl, hblank rfl⟩
      (.blank (hblank rfl)
        (.padded ⟨[], ['\u3000'], by decide +kernel, nofun, hblank rfl⟩ .nil)))
  have hmixed : Text.IsMixed separates
      [[], " a.example\r".toList, [' '], "b.example\u3000".toList]
      ", a.example\r\n ,b.example\u3000".toList := by
    rw [show ", a.example\r\n ,b.example\u3000".toList = [] ++ ',' :: (" a.example\r".toList ++
      '\n' :: ([' '] ++ ',' :: "b.example\u3000".toList)) by decide +kernel]
    exact .more rfl (.more rfl (.more rfl .last))
  have hvalue : Text.IsPaddedText "\x7b\"tag\":\"us\"\x7d".toList
      "\u2003\x7b\"tag\":\"us\"\x7d\n".toList :=
    ⟨['\u2003'], ['\n'], by decide +kernel, hblank rfl, hblank rfl⟩
  have hplain : compact.patterns.all (fun p => p.toList.all fun c => !separates c) = true := by
    decide +kernel
  simp only [List.all_eq_true, Bool.not_eq_true'] at hplain
  have hlayout : compact.Layout spacious := by
    refine ⟨none, _, _, .text hplain hentries hmixed, .some hvalue,
      Or.inl ⟨_, rfl, ?_⟩⟩
    exact GiveInOrder.hasFields
      (.omitted rfl (.present rfl (.present rfl (.present rfl .nil)))) (by decide)
  have hcompact : Directive.ofRoute compact =
      .ok (some (.route ["a.example", "b.example"] ⟨"us", "", []⟩)) := by decide +kernel
  obtain ⟨r', hread, -, hsame⟩ := ofRoute_of_layout hlayout
  exact ⟨hlayout, r', hread, hsame.trans hcompact⟩

end Route

end EgressPolicy
