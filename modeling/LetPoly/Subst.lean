import LetPoly.Ty

/-!
# Substitutions

A substitution is a finite map from type variables to types.  It acts on a type
in one simultaneous pass: what it puts in for a variable is not visited again,
so cyclic substitutions and entries such as `a ↦ a` are ordinary values.

`Subst.find?` is the view through which every operation is described, and two
substitutions with the same view are equal.  `outer.comp inner` is the
substitution that acts as `inner` first and `outer` second (`apply_comp`).
-/

namespace LetPoly

/-- Finite maps from type variables to types. -/
structure Subst where
  map : NameMap Ty
deriving DecidableEq

namespace Subst

instance : EmptyCollection Subst where
  emptyCollection := ⟨∅⟩

/-! ## The view -/

/-- The type that a substitution puts in for a variable, if it has an entry. -/
def find? (subst : Subst) (name : TyVar) : Option Ty :=
  subst.map[name]?

@[ext]
theorem ext {first second : Subst}
    (agree : ∀ name, first.find? name = second.find? name) : first = second := by
  cases first
  cases second
  exact congrArg Subst.mk (Std.ExtTreeMap.ext_getElem? agree)

@[simp]
theorem find?_empty (name : TyVar) : (∅ : Subst).find? name = none :=
  Std.ExtTreeMap.getElem?_empty

/-! ## Construction -/

/-- Add an entry, in place of an older one for the same variable. -/
def insert (subst : Subst) (name : TyVar) (ty : Ty) : Subst :=
  ⟨subst.map.insert name ty⟩

@[simp]
theorem find?_insert (subst : Subst) (name other : TyVar) (ty : Ty) :
    (subst.insert name ty).find? other =
      if other = name then some ty else subst.find? other :=
  NameMap.getElem?_insert_eq subst.map name other ty

/-- The substitution with one entry. -/
def singleton (name : TyVar) (ty : Ty) : Subst :=
  insert ∅ name ty

@[simp]
theorem find?_singleton (name other : TyVar) (ty : Ty) :
    (singleton name ty).find? other = if other = name then some ty else none := by
  simp [singleton]

/-- Look-up after entries were added in turn, each with its type changed. -/
theorem find?_foldl_insert (start : Subst) (change : Ty → Ty) (entries : List (TyVar × Ty))
    (name : TyVar) :
    (entries.foldl (fun subst entry => subst.insert entry.1 (change entry.2)) start).find? name =
      ((entries.reverse.lookup name).map change).or (start.find? name) := by
  rw [← List.foldr_reverse]
  induction entries.reverse with
  | nil => simp
  | cons entry remaining induction =>
      obtain ⟨key, ty⟩ := entry
      by_cases equal : name = key
      · simp [equal]
      · simp [List.lookup_cons, equal, beq_false_of_ne equal, induction]

/-- The substitution with the given entries; the last entry for a variable
counts. -/
def ofList (entries : List (TyVar × Ty)) : Subst :=
  entries.foldl (fun subst entry => subst.insert entry.1 entry.2) ∅

theorem find?_ofList (entries : List (TyVar × Ty)) (name : TyVar) :
    (ofList entries).find? name = entries.reverse.lookup name := by
  have look := find?_foldl_insert ∅ id entries name
  simpa [ofList] using look

/-- A substitution without its entries for the given variables. -/
def without (subst : Subst) (names : List TyVar) : Subst :=
  ⟨subst.map.filter fun name _ => !names.contains name⟩

@[simp]
theorem find?_without (subst : Subst) (names : List TyVar) (name : TyVar) :
    (subst.without names).find? name =
      if name ∈ names then none else subst.find? name := by
  simp only [without, find?, Std.ExtTreeMap.getElem?_filter']
  by_cases member : name ∈ names
  · cases subst.map[name]? <;> simp [member]
  · cases subst.map[name]? <;> simp [member]

/-! ## Action on types -/

/-- Replace every variable that has an entry, all at once. -/
def apply (subst : Subst) : Ty → Ty
  | .var name => (subst.find? name).getD (.var name)
  | .arrow domain codomain => .arrow (subst.apply domain) (subst.apply codomain)
  | .int => .int
  | .bool => .bool

@[simp]
theorem apply_empty (ty : Ty) : (∅ : Subst).apply ty = ty := by
  induction ty with
  | var name => simp [apply]
  | arrow domain codomain domainInduction codomainInduction =>
      simp [apply, domainInduction, codomainInduction]
  | int => rfl
  | bool => rfl

/-- The variables of the image of a type are those of the images of its
variables. -/
theorem mem_vars_apply {subst : Subst} {ty : Ty} {name : TyVar} :
    name ∈ (subst.apply ty).vars ↔
      ∃ source ∈ ty.vars, name ∈ (subst.apply (.var source)).vars := by
  induction ty with
  | var source => simp
  | arrow domain codomain domainInduction codomainInduction =>
      simp only [apply, Ty.mem_vars_arrow] at *
      rw [domainInduction, codomainInduction]
      constructor
      · rintro (⟨source, member, found⟩ | ⟨source, member, found⟩)
        · exact ⟨source, .inl member, found⟩
        · exact ⟨source, .inr member, found⟩
      · rintro ⟨source, member | member, found⟩
        · exact .inl ⟨source, member, found⟩
        · exact .inr ⟨source, member, found⟩
  | int => simp [apply]
  | bool => simp [apply]

/-- The action of a substitution depends on its entries for the variables of
the type only. -/
theorem apply_congr {first second : Subst} {ty : Ty}
    (agree : ∀ name ∈ ty.vars, first.apply (.var name) = second.apply (.var name)) :
    first.apply ty = second.apply ty := by
  induction ty with
  | var name => exact agree name (by simp)
  | arrow domain codomain domainInduction codomainInduction =>
      have domainEqual := domainInduction fun name member =>
        agree name (Ty.mem_vars_arrow.mpr (.inl member))
      have codomainEqual := codomainInduction fun name member =>
        agree name (Ty.mem_vars_arrow.mpr (.inr member))
      simp [apply, domainEqual, codomainEqual]
  | int => rfl
  | bool => rfl

/-! ## Composition -/

/-- Composition: the entries of the inner substitution under the outer one, and
the outer entries for all other variables. -/
def comp (outer inner : Subst) : Subst :=
  ⟨outer.map ∪ inner.map.map fun _ ty => outer.apply ty⟩

@[simp]
theorem find?_comp (outer inner : Subst) (name : TyVar) :
    (outer.comp inner).find? name =
      ((inner.find? name).map outer.apply).or (outer.find? name) := by
  simp [comp, find?, Std.ExtTreeMap.getElem?_union, Std.ExtTreeMap.getElem?_map]

/-- Composition acts as the inner substitution and then as the outer one. -/
@[simp]
theorem apply_comp (outer inner : Subst) (ty : Ty) :
    (outer.comp inner).apply ty = outer.apply (inner.apply ty) := by
  induction ty with
  | var name =>
      simp only [apply, find?_comp]
      cases inner.find? name <;> simp [apply]
  | arrow domain codomain domainInduction codomainInduction =>
      simp [apply, domainInduction, codomainInduction]
  | int => rfl
  | bool => rfl

@[simp]
theorem empty_comp (subst : Subst) : (∅ : Subst).comp subst = subst := by
  ext name
  simp only [find?_comp, find?_empty, Option.or_none]
  cases subst.find? name <;> simp

@[simp]
theorem comp_empty (subst : Subst) : subst.comp ∅ = subst := by
  ext name
  simp

/-! ## Listing and text -/

/-- The entries in code point order of their variables. -/
def toList (subst : Subst) : List (TyVar × Ty) :=
  subst.map.toList

theorem mem_toList {subst : Subst} {name : TyVar} {ty : Ty} :
    (name, ty) ∈ subst.toList ↔ subst.find? name = some ty :=
  Std.ExtTreeMap.mem_toList_iff_getElem?_eq_some

theorem eq_of_toList_eq {first second : Subst} (equal : first.toList = second.toList) :
    first = second :=
  congrArg mk (Std.ExtTreeMap.toList_inj.mp equal)

/-- The number of entries. -/
def size (subst : Subst) : Nat :=
  subst.map.size

/-- Whether there are no entries. -/
def isEmpty (subst : Subst) : Bool :=
  subst.map.isEmpty

theorem isEmpty_iff {subst : Subst} : subst.isEmpty = true ↔ subst = ∅ := by
  cases subst with
  | mk map =>
      constructor
      · intro empty
        exact congrArg Subst.mk (Std.ExtTreeMap.isEmpty_iff.mp empty)
      · rintro ⟨⟩
        exact Std.ExtTreeMap.isEmpty_empty

/-- The text of a substitution: its entries, each as the type over the variable
that it replaces. -/
def render (subst : Subst) : String :=
  Text.braced (subst.toList.map fun entry => entry.2.render ++ "/" ++ entry.1)

instance : ToString Subst where
  toString := render

end Subst

end LetPoly
