import EgressPolicy.File
import EgressPolicy.Proofs.Json.ReaderTheorems
import EgressPolicy.Proofs.Json.ShapeTheorems

/-!
Files that hold JSON.

`File.IsRejected` lists what can be wrong with a file that is there: it cannot be read, its bytes
are no Unicode, its text is no JSON, or its tree does not have the shape of the schema.
`File.usable?_decodeText_eq_none_iff` says that a file has nothing to use exactly when it is absent
or has one of these faults, so its faults cannot be told apart from its absence.
-/

namespace EgressPolicy

open Json Json.Tree

/-- A whole text is decoded exactly when it has a tree of the shape. -/
theorem Json.exists_decodeText_eq_ok_iff {α : Type} {decode : Tree → Decoded α} {fits : Tree → Prop}
    (h : Takes decode fits) (s : String) :
    (∃ a, decodeText decode s = .ok a) ↔ ∃ t, HasTree s t ∧ fits t := by
  have hcomplete : ∀ a : α, (∃ b : α, (if (Page.ofText s).isComplete = true then .ok a
      else .error .malformed : Decoded α) = .ok b) ↔ (Page.ofText s).isComplete = true := by
    intro a
    cases (Page.ofText s).isComplete <;> simp
  rw [decodeText, exists_bind_eq_ok_iff hcomplete, h]
  constructor
  · rintro ⟨hfits, hend⟩
    exact ⟨_, hasTree_iff.mpr ⟨hend, rfl⟩, hfits⟩
  · rintro ⟨t, htree, hfits⟩
    obtain ⟨hend, rfl⟩ := hasTree_iff.mp htree
    exact ⟨hfits, hend⟩

/-- What is decoded from a text was decoded from a tree. -/
theorem Json.exists_of_decodeText {α : Type} {decode : Tree → Decoded α} {s : String} {a : α}
    (h : decodeText decode s = .ok a) : ∃ t, decode t = .ok a := by
  rw [decodeText, bind_eq_ok_iff] at h
  obtain ⟨b, hb, h⟩ := h
  split at h
  · obtain rfl := Except.ok.inj h
    exact ⟨_, hb⟩
  · cases h

namespace File

/-- The faults of a file that is there but does not hold the data of a schema. -/
inductive IsRejected (fits : Tree → Prop) : File → Prop where
  | directory : IsRejected fits .directory
  | notUnicode {contents : ByteArray} (h : String.fromUTF8? contents = none) :
    IsRejected fits (.bytes contents)
  | notJson {file : File} {s : String} (htext : file.text? = some s) (h : ¬ IsJsonText s) :
    IsRejected fits file
  | unfit {file : File} {s : String} {t : Tree} (htext : file.text? = some s) (htree : HasTree s t)
    (h : ¬ fits t) : IsRejected fits file

/-- A text that is written to a file can be read from there. -/
theorem text?_ofText (s : String) : (ofText s).text? = some s := by
  rw [ofText, text?, String.fromUTF8?, String.toUTF8_eq_toByteArray, dif_pos s.isValidUTF8]
  rfl

theorem usable?_of_text? {ε α : Type} {file : File} {s : String} (h : file.text? = some s)
    (parse : String → Except ε α) : file.usable? parse = (parse s).toOption := by
  cases file with
  | absent | directory => cases h
  | bytes contents =>
    simp only [usable?, load, h]
    cases parse s <;> rfl

theorem usable?_of_text?_eq_none {ε α : Type} {file : File} (h : file.text? = none)
    (parse : String → Except ε α) : file.usable? parse = none := by
  cases file with
  | absent => rfl
  | directory | bytes _ => simp only [usable?, load, h]

/-- What is used of a file was decoded from a tree. -/
theorem exists_of_usable? {α : Type} {decode : Tree → Decoded α} {file : File} {a : α}
    (h : file.usable? (decodeText decode) = some a) : ∃ t, decode t = .ok a := by
  cases htext : file.text? with
  | none =>
    rw [usable?_of_text?_eq_none htext] at h
    cases h
  | some s =>
    rw [usable?_of_text? htext, toOption_eq_some_iff] at h
    exact exists_of_decodeText h

/-- **Faults are absences.** Nothing of a file can be used exactly when there is no file or it has
one of the faults. -/
theorem usable?_decodeText_eq_none_iff {α : Type} {decode : Tree → Decoded α} {fits : Tree → Prop}
    (h : Takes decode fits) (file : File) :
    file.usable? (decodeText decode) = none ↔ file = .absent ∨ file.IsRejected fits := by
  cases htext : file.text? with
  | none =>
    refine iff_of_true (usable?_of_text?_eq_none htext _) ?_
    cases file with
    | absent => exact Or.inl rfl
    | directory => exact Or.inr .directory
    | bytes contents => exact Or.inr (.notUnicode htext)
  | some s =>
    have hnone : file.usable? (decodeText decode) = none ↔ ¬ ∃ t, HasTree s t ∧ fits t := by
      rw [usable?_of_text? htext, ← exists_decodeText_eq_ok_iff h s]
      cases decodeText decode s <;> simp [Except.toOption]
    rw [hnone]
    constructor
    · intro hbad
      by_cases hjson : IsJsonText s
      · obtain ⟨t, htree⟩ := hjson
        exact Or.inr (.unfit htext htree fun hfits => hbad ⟨t, htree, hfits⟩)
      · exact Or.inr (.notJson htext hjson)
    -- Each fault contradicts that the text has a tree of the shape.
    · rintro (rfl | hrejected) ⟨t, htree, hfits⟩
      · cases htext
      · cases hrejected with
        | directory => cases htext
        | notUnicode hbytes =>
          rw [text?, hbytes] at htext
          cases htext
        | notJson htext' hjson =>
          obtain rfl := Option.some.inj (htext.symm.trans htext')
          exact hjson ⟨t, htree⟩
        | unfit htext' htree' hunfit =>
          obtain rfl := Option.some.inj (htext.symm.trans htext')
          exact hunfit (htree'.unique htree ▸ hfits)

end File

end EgressPolicy
