import EgressPolicy.Outbound.Registry
import EgressPolicy.Proofs.ExceptTheorems

/-!
The registry of outbounds, one operation at a time.

`Registry.register_cases` says all that a registration can do: the tag is there already, or the
target of the descriptor is appended, or nothing happens and the answer is an error. Everything
else here is read off it. The answer is a success exactly when the tag is registered afterwards
(`register_ok_iff`), and the tags afterwards are the tags before and perhaps the tag of the
descriptor (`contains_register`).
-/

namespace EgressPolicy.Outbound

/-! ## Descriptors that can be built -/

namespace Descriptor

/-- Whether the engine has the protocol, in any mixture of ASCII capitals. -/
def isSupported (d : Descriptor) : Bool :=
  decide (Text.lowerCase d.protocol ∈ supportedProtocols)

/-- Whether the tag has a character that is not blank. -/
def isNamed (d : Descriptor) : Bool :=
  !Text.isBlankText d.tag

/-- The target that a descriptor is built into. -/
def target (d : Descriptor) : Target :=
  ⟨d.tag, d.definition⟩

end Descriptor

/-- A descriptor is read when its text is one and its tag is not blank. -/
theorem Descriptor.ofText_eq_ok_iff {s : String} {d : Descriptor} :
    ofText s = .ok d ↔ Json.decodeText ofTree s = .ok d ∧ d.isNamed = true := by
  have hcheck : ∀ read : Descriptor, (∃ u, read.checkTag = .ok u ∧
      (pure read : Except RegistrationError Descriptor) = .ok d) ↔
        read = d ∧ read.isNamed = true := by
    intro read
    rw [checkTag, isNamed]
    cases Text.isBlankText read.tag <;> simp [pure, Except.pure]
  simp only [ofText, bind_eq_ok_iff, mapError_eq_ok_iff, hcheck]
  constructor
  · intro h
    obtain ⟨_, hread, rfl, hnamed⟩ := h
    exact ⟨hread, hnamed⟩
  · intro h
    exact ⟨d, h.1, rfl, h.2⟩

/-- Only the tag and the protocol decide whether a descriptor can be built. -/
theorem Target.build_eq_ok {d : Descriptor} (hn : d.isNamed = true) (hs : d.isSupported = true) :
    Target.build d = .ok d.target := by
  have hb : Text.isBlankText d.tag = false := by simpa [Descriptor.isNamed] using hn
  have hp : Text.lowerCase d.protocol ∈ supportedProtocols := by
    simpa [Descriptor.isSupported] using hs
  simp only [Target.build, Descriptor.checkTag, Descriptor.checkProtocol, hb, if_pos hp]
  rfl

theorem Target.exists_build_eq_error {d : Descriptor}
    (h : (d.isNamed && d.isSupported) = false) : ∃ e, Target.build d = .error e := by
  cases hb : Text.isBlankText d.tag with
  | true => exact ⟨.missingTag, by simp only [Target.build, Descriptor.checkTag, hb]; rfl⟩
  | false =>
    have hp : ¬ Text.lowerCase d.protocol ∈ supportedProtocols := by
      simpa [Descriptor.isNamed, Descriptor.isSupported, hb] using h
    refine ⟨.unsupportedProtocol d.tag d.protocol, ?_⟩
    simp only [Target.build, Descriptor.checkTag, Descriptor.checkProtocol, hb, if_neg hp]
    rfl

namespace Registry

/-! ## Registering -/

theorem insert_of_present {r : Registry} {t : Target} (h : r.contains t.tag = true) :
    r.insert t = r := by
  simp [insert, h]

/-- Appending a target whose tag is not there. -/
theorem insert_of_absent {r : Registry} {t : Target} (h : r.contains t.tag = false) :
    r.insert t = ⟨r.targets ++ [t], r.index.insert t.tag⟩ := by
  simp [insert, h]

/-- Everything that a registration can do. Presence is asked first, so a descriptor that could not
be built still refers to the target that has its tag. -/
theorem register_cases (r : Registry) (d : Descriptor) :
    (r.contains d.tag = true ∧ r.register d = (.ok d.tag, r)) ∨
    (r.contains d.tag = false ∧ (d.isNamed && d.isSupported) = true ∧
      r.register d = (.ok d.tag, r.insert d.target)) ∨
    (r.contains d.tag = false ∧ (d.isNamed && d.isSupported) = false ∧
      ∃ e, r.register d = (.error e, r)) := by
  cases hc : r.contains d.tag with
  | true => exact Or.inl ⟨rfl, by simp [register, hc]⟩
  | false =>
    cases hb : d.isNamed && d.isSupported with
    | true =>
      have hbuild : Target.build d = .ok d.target := by
        rw [Bool.and_eq_true] at hb
        exact Target.build_eq_ok hb.1 hb.2
      exact Or.inr (Or.inl ⟨rfl, rfl, by simp [register, hc, hbuild, Descriptor.target]⟩)
    | false =>
      obtain ⟨e, he⟩ := Target.exists_build_eq_error hb
      exact Or.inr (Or.inr ⟨rfl, rfl, e, by simp [register, hc, he]⟩)

/-- The tags after a registration: those before it, and the tag of a descriptor that can be
built. -/
theorem contains_register (r : Registry) (d : Descriptor) (tag : String) :
    (r.register d).2.contains tag =
      (r.contains tag || (d.tag == tag && (d.isNamed && d.isSupported))) := by
  rcases register_cases r d with ⟨hc, hr⟩ | ⟨_, hb, hr⟩ | ⟨_, hb, e, hr⟩
  · rw [hr]
    by_cases ht : d.tag = tag
    · simp [← ht, hc]
    · simp [ht]
  · rw [hr, contains_insert, hb, Bool.and_true, Bool.or_comm]
    rfl
  · simp [hr, hb]

/-- A registration succeeds exactly when the tag is there afterwards, and then answers with it. -/
theorem register_ok_iff (r : Registry) (d : Descriptor) (tag : String) :
    (r.register d).1 = .ok tag ↔ tag = d.tag ∧ (r.register d).2.contains d.tag = true := by
  rw [contains_register]
  rcases register_cases r d with ⟨hc, hr⟩ | ⟨_, hb, hr⟩ | ⟨hc, hb, e, hr⟩
  · simp [hr, hc, eq_comm]
  · simp [hr, hb, eq_comm]
  · simp [hr, hc, hb]

/-! ## The index and the targets -/

/-- The index holds the tags of the targets and nothing else. -/
def IsIndexed (r : Registry) : Prop :=
  ∀ tag, r.contains tag = true ↔ tag ∈ r.tags

theorem isIndexed_empty : IsIndexed empty := by
  intro tag
  simp [contains, empty, tags]

/-- Inserting keeps index and targets in step, whether or not the tag is new. -/
theorem IsIndexed.insert {r : Registry} (h : r.IsIndexed) (t : Target) :
    (r.insert t).IsIndexed := by
  intro tag
  rw [contains_insert, Bool.or_eq_true, beq_iff_eq, h tag]
  cases hc : r.contains t.tag with
  | true =>
    rw [insert_of_present hc]
    constructor
    · rintro (rfl | hm)
      · exact (h t.tag).mp hc
      · exact hm
    · exact Or.inr
  | false =>
    rw [insert_of_absent hc]
    simp [tags, or_comm, eq_comm]

theorem IsIndexed.foldl_insert : ∀ (ts : List Target) {r : Registry}, r.IsIndexed →
    (ts.foldl Registry.insert r).IsIndexed
  | [], _, h => h
  | t :: rest, _, h => IsIndexed.foldl_insert rest (h.insert t)

/-! ## The seeded registry -/

/-- The tags that every engine has an outbound for. -/
def builtinTags : List String :=
  Target.builtins.map Target.tag

theorem isIndexed_seeded : IsIndexed seeded :=
  IsIndexed.foldl_insert Target.builtins isIndexed_empty

/-- Inserting targets one after the other appends those whose tag was not there, in their order. -/
theorem targets_foldl_insert : ∀ (ts : List Target) (r : Registry), (ts.map Target.tag).Nodup →
    (ts.foldl insert r).targets = r.targets ++ ts.filter fun t => !r.contains t.tag
  | [], r, _ => by simp
  | t :: rest, r, hnd => by
    simp only [List.map_cons, List.nodup_cons] at hnd
    have hsame : (rest.filter fun u => !(r.insert t).contains u.tag)
        = rest.filter fun u => !r.contains u.tag := by
      refine List.filter_congr fun u hu => ?_
      have hne : t.tag ≠ u.tag := fun he => hnd.1 (he ▸ List.mem_map_of_mem hu)
      simp [contains_insert, hne]
    rw [List.foldl_cons, targets_foldl_insert rest (r.insert t) hnd.2, hsame]
    cases hc : r.contains t.tag with
    | true => simp [insert_of_present hc, hc]
    | false => simp [insert_of_absent hc, hc]

/-- Seeding an empty registry appends the three builtin targets in their order. -/
theorem targets_seeded : seeded.targets = Target.builtins := by
  rw [seeded, seed, targets_foldl_insert _ _ (by decide)]
  simp [empty, contains]

end Registry

end EgressPolicy.Outbound
