import EgressPolicy.Proofs.Json.ShapeTheorems
import Mathlib.Data.List.Perm.Basic

/-!
The order of the members of an object.

Members may be put into another order, and members with other keys may be put among them, and the
object has the same fields (`hasFields_iff_of_perm`). A member that is added for one field, wherever
it is put, has to fit and changes nothing else (`hasFields_cons_of_added`). Members that give the
fields in their own order have them, whichever are left out that may be (`GiveInOrder.hasFields`).
-/

namespace EgressPolicy.Json.Tree

/-- Members that give some fields in their order, but for some that are not required. -/
inductive GiveInOrder : List Field → List (Option String × Tree) → Prop where
  | nil : GiveInOrder [] []
  | omitted {f : Field} {fields : List Field} {members : List (Option String × Tree)}
    (h : f.isRequired = false) (hrest : GiveInOrder fields members) :
    GiveInOrder (f :: fields) members
  | present {f : Field} {fields : List Field} {members : List (Option String × Tree)} {t : Tree}
    (h : f.fits t) (hrest : GiveInOrder fields members) :
    GiveInOrder (f :: fields) ((some f.name, t) :: members)

/-- Members of one shape whose keys are none of some names. -/
def AreOthers (names : List String) (others : Tree → Prop)
    (members : List (Option String × Tree)) : Prop :=
  ∀ m ∈ members, ∃ key, m.1 = some key ∧ key ∉ names ∧ others m.2

section

variable {name : String} {f : Field} {fields : List Field} {others : Tree → Prop}
  {members more : List (Option String × Tree)}

/-! ## How often a field is given -/

theorem timesGiven_eq_zero_iff :
    timesGiven name members = 0 ↔ ∀ t, (some name, t) ∉ members := by
  rw [timesGiven, List.countP_eq_zero]
  constructor
  · intro h t hmem
    exact h _ hmem (beq_self_eq_true _)
  · rintro h ⟨key, t⟩ hmem heq
    obtain rfl : key = some name := beq_iff_eq.mp heq
    exact h t hmem

/-- Members among which a field is not given have other keys. -/
theorem ne_of_timesGiven_eq_zero (hnone : timesGiven name members = 0)
    {m : Option String × Tree} (hm : m ∈ members) {key : String} (hkey : m.1 = some key) :
    key ≠ name := by
  rintro rfl
  exact timesGiven_eq_zero_iff.mp hnone m.2 (hkey ▸ hm)

theorem exists_of_timesGiven_pos (h : 0 < timesGiven name members) :
    ∃ t, (some name, t) ∈ members := by
  by_contra hnone
  exact Nat.ne_of_gt h (timesGiven_eq_zero_iff.mpr (not_exists.mp hnone))

theorem timesGiven_append :
    timesGiven name (members ++ more) = timesGiven name members + timesGiven name more :=
  List.countP_append

theorem timesGiven_perm (h : members.Perm more) : timesGiven name members = timesGiven name more :=
  h.countP_eq _

theorem AreOthers.timesGiven_eq_zero {names : List String} (h : AreOthers names others members)
    (hname : name ∈ names) : timesGiven name members = 0 := by
  rw [timesGiven_eq_zero_iff]
  intro t ht
  obtain ⟨key, hkey, hother, -⟩ := h _ ht
  obtain rfl := Option.some.inj hkey
  exact hother hname

/-! ## Fields in their order -/

theorem GiveInOrder.exists_field (h : GiveInOrder fields members) :
    ∀ m ∈ members, ∃ f ∈ fields, m.1 = some f.name ∧ f.fits m.2 := by
  induction h with
  | nil => exact nofun
  | omitted _ _ ih =>
    intro m hm
    obtain ⟨f, hf, h⟩ := ih m hm
    exact ⟨f, List.mem_cons_of_mem _ hf, h⟩
  | present h _ ih =>
    intro m hm
    rcases List.mem_cons.mp hm with rfl | hm
    · exact ⟨_, List.mem_cons_self, rfl, h⟩
    · obtain ⟨f, hf, h⟩ := ih m hm
      exact ⟨f, List.mem_cons_of_mem _ hf, h⟩

theorem GiveInOrder.timesGiven_eq_zero (h : GiveInOrder fields members)
    (hname : name ∉ fields.map Field.name) : timesGiven name members = 0 := by
  rw [timesGiven_eq_zero_iff]
  intro t ht
  obtain ⟨f, hf, hkey, -⟩ := h.exists_field _ ht
  obtain rfl := Option.some.inj hkey
  exact hname (List.mem_map_of_mem hf)

/-- Each of these fields is given once, or not at all where it may be left out. -/
theorem GiveInOrder.timesGiven (h : GiveInOrder fields members)
    (hnodup : (fields.map Field.name).Nodup) : ∀ f ∈ fields,
      timesGiven f.name members ≤ 1 ∧ (f.isRequired = true → 0 < timesGiven f.name members) := by
  induction h with
  | nil => exact nofun
  | omitted hf hrest ih =>
    obtain ⟨hnew, hnodup⟩ := List.nodup_cons.mp hnodup
    have hnone := hrest.timesGiven_eq_zero hnew
    intro g hg
    rcases List.mem_cons.mp hg with rfl | hg
    · exact ⟨by omega, fun hrequired => absurd hrequired (by simp [hf])⟩
    · exact ih hnodup g hg
  | @present f fields members t hf hrest ih =>
    obtain ⟨hnew, hnodup⟩ := List.nodup_cons.mp hnodup
    have hnone := hrest.timesGiven_eq_zero hnew
    intro g hg
    rw [timesGiven_cons]
    rcases List.mem_cons.mp hg with rfl | hg
    · simp [hnone]
    · have hname : f.name ≠ g.name := fun hname => hnew (hname ▸ List.mem_map_of_mem hg)
      simpa [hname] using ih hnodup g hg

theorem GiveInOrder.hasFields (h : GiveInOrder fields members)
    (hnodup : (fields.map Field.name).Nodup) : HasFields fields others members where
  member m hm := by
    obtain ⟨f, hf, hkey, hfits⟩ := h.exists_field m hm
    refine ⟨f.name, hkey, fun g hg hname => ?_, fun hno => absurd (List.mem_map_of_mem hf) hno⟩
    obtain rfl := List.inj_on_of_nodup_map hnodup hg hf hname
    exact hfits
  once f hf := (h.timesGiven hnodup f hf).1
  given f hf := (h.timesGiven hnodup f hf).2

/-! ## One field more -/

/-- What is there beside the first field has the other fields. -/
theorem HasFields.beside (h : HasFields (f :: fields) others members) (hsub : more ⊆ members)
    (hnone : timesGiven f.name more = 0)
    (hsame : ∀ g ∈ fields, timesGiven g.name more = timesGiven g.name members) :
    HasFields fields others more where
  member m hm := by
    obtain ⟨key, hkey, hfits⟩ := h.member m (hsub hm)
    have hne := ne_of_timesGiven_eq_zero hnone hm hkey
    refine ⟨key, hkey, fun g hg => hfits.1 g (List.mem_cons_of_mem f hg), fun hno => ?_⟩
    exact hfits.2 (List.not_mem_cons_of_ne_of_not_mem hne hno)
  once g hg := hsame g hg ▸ h.once g (List.mem_cons_of_mem f hg)
  given g hg := hsame g hg ▸ h.given g (List.mem_cons_of_mem f hg)

/-- A member with another key fits beside one field more. -/
theorem FitsMember.cons {key : String} {t : Tree} (h : FitsMember fields others key t)
    (hne : key ≠ f.name) : FitsMember (f :: fields) others key t :=
  ⟨List.forall_mem_cons.mpr ⟨fun hname => absurd hname.symm hne, h.1⟩,
    fun hno => h.2 fun hmem => hno (List.mem_cons_of_mem _ hmem)⟩

/-- A field that is not given has to be one that may be left out. -/
theorem hasFields_cons_of_omitted (hnone : timesGiven f.name members = 0) :
    HasFields (f :: fields) others members ↔
      f.isRequired = false ∧ HasFields fields others members := by
  constructor
  · intro h
    refine ⟨?_, h.beside (List.Subset.refl _) hnone fun _ _ => rfl⟩
    cases hrequired : f.isRequired with
    | false => rfl
    | true => exact absurd hnone (Nat.ne_of_gt (h.given f List.mem_cons_self hrequired))
  · rintro ⟨hfree, h⟩
    refine ⟨fun m hm => ?_, ?_, ?_⟩
    · obtain ⟨key, hkey, hfits⟩ := h.member m hm
      exact ⟨key, hkey, hfits.cons (ne_of_timesGiven_eq_zero hnone hm hkey)⟩
    · exact List.forall_mem_cons.mpr ⟨by omega, h.once⟩
    · exact List.forall_mem_cons.mpr ⟨fun hrequired => by simp [hfree] at hrequired, h.given⟩

/-- **A member that is added** for a field that was not given has to fit, and that is all: the other
fields are where they were. -/
theorem hasFields_cons_of_added {t : Tree} {members' : List (Option String × Tree)}
    (hnew : f.name ∉ fields.map Field.name) (hnone : timesGiven f.name members = 0)
    (hperm : members'.Perm ((some f.name, t) :: members)) :
    HasFields (f :: fields) others members' ↔ f.fits t ∧ HasFields fields others members := by
  have htimes : ∀ key, timesGiven key members' =
      timesGiven key members + if f.name = key then 1 else 0 := by
    intro key
    rw [timesGiven_perm hperm, timesGiven_cons]
    simp
  have hsame : ∀ g ∈ fields, timesGiven g.name members = timesGiven g.name members' := by
    intro g hg
    have hname : f.name ≠ g.name := fun hname => hnew (hname ▸ List.mem_map_of_mem hg)
    rw [htimes, if_neg hname, Nat.add_zero]
  have hmem : ∀ m, m ∈ members' ↔ m = (some f.name, t) ∨ m ∈ members := fun m =>
    hperm.mem_iff.trans List.mem_cons
  constructor
  · intro h
    refine ⟨?_, h.beside (fun m hm => (hmem m).mpr (Or.inr hm)) hnone hsame⟩
    obtain ⟨key, hkey, hfits, -⟩ := h.member _ ((hmem _).mpr (Or.inl rfl))
    exact hfits f List.mem_cons_self (Option.some.inj hkey)
  · rintro ⟨hfits, h⟩
    refine ⟨fun m hm => ?_, ?_, ?_⟩
    · rcases (hmem m).mp hm with rfl | hm
      · refine ⟨f.name, rfl, List.forall_mem_cons.mpr ⟨fun _ => hfits, fun g hg hname => ?_⟩, ?_⟩
        · exact absurd (hname ▸ List.mem_map_of_mem hg) hnew
        · exact fun hno => absurd List.mem_cons_self hno
      · obtain ⟨key, hkey, hfits⟩ := h.member m hm
        exact ⟨key, hkey, hfits.cons (ne_of_timesGiven_eq_zero hnone hm hkey)⟩
    · refine List.forall_mem_cons.mpr ⟨?_, fun g hg => hsame g hg ▸ h.once g hg⟩
      simp [htimes, hnone]
    · refine List.forall_mem_cons.mpr ⟨fun _ => ?_, fun g hg => hsame g hg ▸ h.given g hg⟩
      rw [htimes, if_pos rfl]
      exact Nat.succ_pos _

/-! ## Members in any order -/

/-- **The order of the members** does not count, nor do members with other keys, as long as they may
be there. -/
theorem hasFields_iff_of_perm {members' : List (Option String × Tree)}
    (hmore : AreOthers (fields.map Field.name) others more)
    (hperm : members'.Perm (members ++ more)) :
    HasFields fields others members' ↔ HasFields fields others members := by
  have htimes : ∀ f ∈ fields, timesGiven f.name members' = timesGiven f.name members := by
    intro f hf
    have hnone := hmore.timesGiven_eq_zero (List.mem_map_of_mem hf)
    rw [timesGiven_perm hperm, timesGiven_append, hnone, Nat.add_zero]
  have hmem : ∀ m, m ∈ members' ↔ m ∈ members ∨ m ∈ more := fun m =>
    hperm.mem_iff.trans List.mem_append
  constructor
  · intro h
    exact ⟨fun m hm => h.member m ((hmem m).mpr (Or.inl hm)),
      fun f hf => htimes f hf ▸ h.once f hf, fun f hf => htimes f hf ▸ h.given f hf⟩
  · intro h
    refine ⟨fun m hm => ?_, fun f hf => htimes f hf ▸ h.once f hf,
      fun f hf => htimes f hf ▸ h.given f hf⟩
    rcases (hmem m).mp hm with hm | hm
    · exact h.member m hm
    · obtain ⟨key, hkey, hother, hfits⟩ := hmore m hm
      refine ⟨key, hkey, fun f hf hname => ?_, fun _ => hfits⟩
      exact absurd (hname ▸ List.mem_map_of_mem hf) hother

theorem HasFields.perm_fields {fields' : List Field} (h : HasFields fields others members)
    (hperm : fields.Perm fields') : HasFields fields' others members where
  member m hm := by
    obtain ⟨key, hkey, hfits, hother⟩ := h.member m hm
    refine ⟨key, hkey, fun f hf => hfits f (hperm.mem_iff.mpr hf), fun hno => hother fun hmem => ?_⟩
    exact hno ((hperm.map Field.name).mem_iff.mp hmem)
  once f hf := h.once f (hperm.mem_iff.mpr hf)
  given f hf := h.given f (hperm.mem_iff.mpr hf)

/-- Nor does the order of the fields count. -/
theorem hasFields_perm_fields {fields' : List Field} (hperm : fields.Perm fields') :
    HasFields fields others members ↔ HasFields fields' others members :=
  ⟨fun h => h.perm_fields hperm, fun h => h.perm_fields hperm.symm⟩

end

end EgressPolicy.Json.Tree
