import LetPoly.Subst

/-!
# The algebra of substitutions

Under composition substitutions are a monoid that acts on types, and its laws hold of
the substitutions themselves, down to entries that change nothing.

Two properties of a substitution carry the theory of unification and inference.

*Localized.*  Keys and values stay inside a set of variables.  A localized
substitution fixes every variable outside the set and brings in none from there,
so it can be moved past anything that only mentions other variables.

*Resolved.*  No key survives the action of the substitution.  Substitutions are
applied in one pass, so this is what makes applying one twice the same as
applying it once.

`Subst.override` puts in chosen types for a list of variables and acts as before on
all others.  Every mediating substitution of the later modules is built with it or
with `Subst.insert`.
-/

namespace LetPoly

namespace Subst

/-! ## Keys -/

/-- A substitution has an entry for a variable. -/
def Binds (subst : Subst) (name : TyVar) : Prop :=
  ∃ ty, subst.find? name = some ty

theorem not_binds_empty {name : TyVar} : ¬ (∅ : Subst).Binds name := by
  rintro ⟨ty, found⟩
  rw [find?_empty] at found
  cases found

theorem binds_comp {outer inner : Subst} {name : TyVar} :
    (outer.comp inner).Binds name ↔ outer.Binds name ∨ inner.Binds name := by
  simp only [Binds, find?_comp]
  cases inner.find? name <;> simp

theorem binds_singleton {name other : TyVar} {ty : Ty} :
    (singleton name ty).Binds other ↔ other = name := by
  simp [Binds]

theorem apply_var_of_find? {subst : Subst} {name : TyVar} {ty : Ty}
    (found : subst.find? name = some ty) : subst.apply (.var name) = ty := by
  rw [apply, found]
  rfl

theorem apply_var_of_not_binds {subst : Subst} {name : TyVar}
    (unbound : ¬ subst.Binds name) : subst.apply (.var name) = .var name := by
  cases found : subst.find? name with
  | none =>
      rw [apply, found]
      rfl
  | some ty => exact absurd ⟨ty, found⟩ unbound

theorem apply_eq_self_of_fixed {subst : Subst} {ty : Ty}
    (fixed : ∀ name ∈ ty.vars, subst.apply (.var name) = .var name) : subst.apply ty = ty := by
  have agree : subst.apply ty = (∅ : Subst).apply ty := by
    refine apply_congr fun name member => ?_
    rw [fixed name member, apply_empty]
  rw [agree, apply_empty]

/-- A substitution with no key in a type leaves the type alone. -/
theorem apply_eq_self {subst : Subst} {ty : Ty}
    (unbound : ∀ name ∈ ty.vars, ¬ subst.Binds name) : subst.apply ty = ty :=
  apply_eq_self_of_fixed fun name member => apply_var_of_not_binds (unbound name member)

/-- Substitutions agree on a type exactly if they agree on its variables. -/
theorem apply_eq_iff {first second : Subst} {ty : Ty} :
    first.apply ty = second.apply ty ↔
      ∀ name ∈ ty.vars, first.apply (.var name) = second.apply (.var name) := by
  constructor
  · intro equal
    induction ty with
    | var name =>
        intro other member
        rw [Ty.mem_vars_var.mp member]
        exact equal
    | arrow domain codomain domainInduction codomainInduction =>
        intro name member
        obtain ⟨onDomain, onCodomain⟩ := Ty.arrow.inj equal
        rcases Ty.mem_vars_arrow.mp member with inDomain | inCodomain
        · exact domainInduction onDomain name inDomain
        · exact codomainInduction onCodomain name inCodomain
    | int => simp
    | bool => simp
  · exact apply_congr

theorem vars_apply_var_subset {subst : Subst} {ty : Ty} {source name : TyVar}
    (sourceMember : source ∈ ty.vars)
    (membership : name ∈ (subst.apply (.var source)).vars) :
    name ∈ (subst.apply ty).vars :=
  mem_vars_apply.mpr ⟨source, sourceMember, membership⟩

theorem apply_arrow (subst : Subst) (domain codomain : Ty) :
    subst.apply (.arrow domain codomain) =
      .arrow (subst.apply domain) (subst.apply codomain) := rfl

theorem apply_insert_of_not_mem {subst : Subst} {name : TyVar} {ty target : Ty}
    (absent : name ∉ target.vars) :
    (subst.insert name ty).apply target = subst.apply target := by
  refine apply_congr fun other member => ?_
  have different : other ≠ name := by
    rintro rfl
    exact absent member
  simp [apply, different]

theorem apply_insert_self (subst : Subst) (name : TyVar) (ty : Ty) :
    (subst.insert name ty).apply (.var name) = ty := by
  simp [apply]

theorem apply_singleton_self (name : TyVar) (ty : Ty) :
    (singleton name ty).apply (.var name) = ty :=
  apply_insert_self ∅ name ty

/-! ## Substitutions given by a list -/

theorem mem_of_find?_ofList {entries : List (TyVar × Ty)} {name : TyVar} {ty : Ty}
    (found : (ofList entries).find? name = some ty) : (name, ty) ∈ entries := by
  rw [find?_ofList] at found
  obtain ⟨before, after, equal, _⟩ := List.lookup_eq_some_iff.mp found
  rw [← List.mem_reverse, equal]
  simp

theorem binds_ofList {entries : List (TyVar × Ty)} {name : TyVar} :
    (ofList entries).Binds name ↔ name ∈ entries.map Prod.fst := by
  constructor
  · rintro ⟨ty, found⟩
    exact List.mem_map.mpr ⟨(name, ty), mem_of_find?_ofList found, rfl⟩
  · intro listed
    obtain ⟨⟨_, ty⟩, member, rfl⟩ := List.mem_map.mp listed
    rw [Binds, find?_ofList, ← Option.isSome_iff_exists, List.lookup_isSome_iff]
    exact ⟨_, List.mem_reverse.mpr member, by simp⟩

/-- A substitution is made of its own entries. -/
theorem ofList_toList (subst : Subst) : ofList subst.toList = subst := by
  have entry : ∀ {name ty}, (ofList subst.toList).find? name = some ty →
      subst.find? name = some ty :=
    fun found => mem_toList.mp (mem_of_find?_ofList found)
  ext name ty
  constructor
  · exact entry
  · intro found
    have listed : name ∈ subst.toList.map Prod.fst :=
      List.mem_map.mpr ⟨(name, ty), mem_toList.mpr found, rfl⟩
    obtain ⟨other, otherFound⟩ := binds_ofList.mpr listed
    rw [← found, entry otherFound, otherFound]

/-! ## The monoid of substitutions -/

/-- Composition adds the inner entries to the outer substitution one by one, each with the
outer substitution applied to its type and in place of an outer entry. -/
theorem comp_eq_foldl (outer inner : Subst) :
    outer.comp inner =
      inner.toList.foldl (fun composed entry => composed.insert entry.1 (outer.apply entry.2))
        outer := by
  ext name
  rw [find?_comp, find?_foldl_insert, ← find?_ofList, ofList_toList]

/-- Composition is associative, entry by entry. -/
theorem comp_assoc (outer middle inner : Subst) :
    (outer.comp middle).comp inner = outer.comp (middle.comp inner) := by
  ext name
  simp only [find?_comp]
  cases inner.find? name with
  | none => simp
  | some ty => simp

/-- Substitutions are a monoid that acts on types.  The laws of composition hold entry by
entry, not only of the action, for cyclic substitutions and for entries such as `a ↦ a` too.
And composition is what adding the inner entries to the outer ones in turn gives. -/
theorem comp_monoid_action (outer middle inner : Subst) (ty : Ty) :
    (outer.comp inner).apply ty = outer.apply (inner.apply ty) ∧
    (∅ : Subst).apply ty = ty ∧
    (outer.comp middle).comp inner = outer.comp (middle.comp inner) ∧
    (∅ : Subst).comp inner = inner ∧
    inner.comp ∅ = inner ∧
    outer.comp inner =
      inner.toList.foldl (fun composed entry => composed.insert entry.1 (outer.apply entry.2))
        outer :=
  ⟨apply_comp outer inner ty, apply_empty ty, comp_assoc outer middle inner, empty_comp inner,
    comp_empty inner, comp_eq_foldl outer inner⟩

/-! ## Localized substitutions -/

/-- The keys of a substitution and the variables of its values are in a set. -/
structure Localized (subst : Subst) (names : TyVar → Prop) : Prop where
  keys : ∀ {key : TyVar}, subst.Binds key → names key
  values : ∀ {key : TyVar} {ty : Ty}, subst.find? key = some ty →
    ∀ name ∈ ty.vars, names name

namespace Localized

variable {subst : Subst} {names : TyVar → Prop}

theorem empty (names : TyVar → Prop) : Localized ∅ names where
  keys := fun bound => absurd bound not_binds_empty
  values := by
    intro key ty found
    rw [find?_empty] at found
    cases found

theorem singleton {name : TyVar} {ty : Ty} (nameMember : names name)
    (tyMembers : ∀ other ∈ ty.vars, names other) :
    (Subst.singleton name ty).Localized names where
  keys := by
    intro key bound
    rw [binds_singleton] at bound
    exact bound ▸ nameMember
  values := by
    intro key value found
    rw [find?_singleton] at found
    split at found
    · cases found
      exact tyMembers
    · cases found

theorem mono {larger : TyVar → Prop} (localized : subst.Localized names)
    (subset : ∀ name, names name → larger name) : subst.Localized larger where
  keys := fun bound => subset _ (localized.keys bound)
  values := fun found name member => subset name (localized.values found name member)

/-- A variable outside the set is not a key. -/
theorem apply_var (localized : subst.Localized names) {name : TyVar}
    (outside : ¬ names name) : subst.apply (.var name) = .var name :=
  apply_var_of_not_binds fun bound => outside (localized.keys bound)

/-- A variable of an image was there before or is in the set. -/
theorem mem_or (localized : subst.Localized names) {ty : Ty} {name : TyVar}
    (membership : name ∈ (subst.apply ty).vars) : name ∈ ty.vars ∨ names name := by
  obtain ⟨source, sourceMember, found⟩ := mem_vars_apply.mp membership
  cases entry : subst.find? source with
  | none =>
      have unbound : ¬ subst.Binds source := by
        rintro ⟨value, bound⟩
        rw [entry] at bound
        cases bound
      rw [apply_var_of_not_binds unbound, Ty.mem_vars_var] at found
      exact .inl (found ▸ sourceMember)
  | some value =>
      rw [apply_var_of_find? entry] at found
      exact .inr (localized.values entry name found)

/-- What is put in for a variable is the variable itself or in the set. -/
theorem eq_or (localized : subst.Localized names) {source name : TyVar}
    (membership : name ∈ (subst.apply (.var source)).vars) : name = source ∨ names name :=
  (localized.mem_or membership).imp_left Ty.mem_vars_var.mp

/-- The image of a type over the set is over the set. -/
theorem mem_of_forall (localized : subst.Localized names) {ty : Ty}
    (members : ∀ name ∈ ty.vars, names name) :
    ∀ name ∈ (subst.apply ty).vars, names name := by
  intro name membership
  rcases localized.mem_or membership with old | inside
  · exact members name old
  · exact inside

theorem comp {outer inner : Subst} (outerLocalized : outer.Localized names)
    (innerLocalized : inner.Localized names) : (outer.comp inner).Localized names where
  keys := by
    intro key bound
    rcases binds_comp.mp bound with outerBound | innerBound
    · exact outerLocalized.keys outerBound
    · exact innerLocalized.keys innerBound
  values := by
    intro key ty found
    rw [find?_comp] at found
    cases entry : inner.find? key with
    | none =>
        rw [entry] at found
        exact outerLocalized.values found
    | some value =>
        rw [entry] at found
        cases found
        exact outerLocalized.mem_of_forall (innerLocalized.values entry)

end Localized

/-! ## Resolved substitutions -/

/-- No key occurs in an image. -/
def Resolved (subst : Subst) : Prop :=
  ∀ key, subst.Binds key → ∀ ty, key ∉ (subst.apply ty).vars

namespace Resolved

theorem empty : Resolved ∅ := fun _ bound => absurd bound not_binds_empty

theorem singleton {name : TyVar} {ty : Ty} (absent : name ∉ ty.vars) :
    (Subst.singleton name ty).Resolved := by
  intro key bound target membership
  rw [binds_singleton] at bound
  subst key
  obtain ⟨source, _, found⟩ := mem_vars_apply.mp membership
  by_cases same : source = name
  · subst source
    rw [apply_singleton_self] at found
    exact absent found
  · rw [apply_var_of_not_binds (by rwa [binds_singleton]), Ty.mem_vars_var] at found
    exact same found.symm

/-- Composition stays resolved if the outer substitution is localized away from
the keys of the inner one. -/
theorem comp {outer inner : Subst} {names : TyVar → Prop} (outerResolved : outer.Resolved)
    (innerResolved : inner.Resolved) (outerLocalized : outer.Localized names)
    (separate : ∀ key, inner.Binds key → ¬ names key) : (outer.comp inner).Resolved := by
  intro key bound ty
  rw [apply_comp]
  rcases binds_comp.mp bound with outerBound | innerBound
  · exact outerResolved key outerBound (inner.apply ty)
  · intro membership
    rcases outerLocalized.mem_or membership with old | inside
    · exact innerResolved key innerBound ty old
    · exact separate key innerBound inside

/-- A variable of an image is not a key. -/
theorem not_binds {subst : Subst} (resolved : subst.Resolved) {ty : Ty} {name : TyVar}
    (membership : name ∈ (subst.apply ty).vars) : ¬ subst.Binds name :=
  fun bound => resolved name bound ty membership

end Resolved

/-! ## Overriding -/

/-- Put in the given images for the given variables, and act as before on all
others. -/
def override (subst : Subst) (names : List TyVar) (image : TyVar → Ty) : Subst :=
  names.foldr (fun name overridden => overridden.insert name (image name)) subst

theorem find?_override (subst : Subst) (names : List TyVar) (image : TyVar → Ty)
    (name : TyVar) :
    (subst.override names image).find? name =
      if name ∈ names then some (image name) else subst.find? name := by
  induction names with
  | nil => rfl
  | cons first others induction =>
      rw [override, List.foldr_cons, find?_insert, ← override, induction]
      by_cases same : name = first
      · simp [same]
      · simp [same]

theorem apply_override_of_mem {subst : Subst} {names : List TyVar} {image : TyVar → Ty}
    {name : TyVar} (member : name ∈ names) :
    (subst.override names image).apply (.var name) = image name := by
  rw [apply, find?_override, if_pos member]
  rfl

/-- Away from the overridden variables nothing changes. -/
theorem apply_override_of_forall {subst : Subst} {names : List TyVar} {image : TyVar → Ty}
    {ty : Ty} (separate : ∀ name ∈ ty.vars, name ∉ names) :
    (subst.override names image).apply ty = subst.apply ty := by
  refine apply_congr fun name member => ?_
  rw [apply, apply, find?_override, if_neg (separate name member)]

theorem apply_override_of_not_mem {subst : Subst} {names : List TyVar} {image : TyVar → Ty}
    {name : TyVar} (absent : name ∉ names) :
    (subst.override names image).apply (.var name) = subst.apply (.var name) := by
  rw [apply, apply, find?_override, if_neg absent]

end Subst

end LetPoly
