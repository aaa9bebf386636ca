import LetPoly.HasType
import LetPoly.Proofs.Substitution

/-!
# Substitution in schemes and environments

`Scheme.subst` renames no quantified variable.  Two laws hold of it all the same.
It depends on the free variables of the scheme only, and an image has no free
variable that does not come from one of them.  The other laws need
`Scheme.CaptureFree`: then the free variables of an image are exactly those of
the images of the free variables, and substituting twice is substituting with the
composition.  Neither law holds in any other case.

`Env.generalize_subst` is the law that lets a `let` be refined after its value has
been generalized.  It asks that the substitution neither moves nor mentions what
was quantified.
-/

namespace LetPoly

namespace Scheme

/-! ## Schemes -/

theorem apply_without_of_mem {scheme : Scheme} {subst : Subst} {name : TyVar}
    (quantified : name ∈ scheme.vars) :
    (subst.without scheme.vars).apply (.var name) = .var name := by
  rw [Subst.apply, Subst.find?_without, if_pos quantified]
  rfl

theorem apply_without_of_not_mem {scheme : Scheme} {subst : Subst} {name : TyVar}
    (free : name ∉ scheme.vars) :
    (subst.without scheme.vars).apply (.var name) = subst.apply (.var name) := by
  rw [Subst.apply, Subst.apply, Subst.find?_without, if_neg free]

@[simp]
theorem mono_subst (ty : Ty) (subst : Subst) :
    (mono ty).subst subst = mono (subst.apply ty) := by
  have agree : (subst.without []).apply ty = subst.apply ty := by
    apply Subst.apply_congr
    intro name member
    simp [Subst.apply]
  rw [mono, Scheme.subst, agree, mono]

@[simp]
theorem mem_freeVars_mono {ty : Ty} {name : TyVar} :
    name ∈ (mono ty).freeVars ↔ name ∈ ty.vars := by
  simp [mono]

/-- Substitutions that agree on the quantified and on the free variables of a scheme
agree on its type. -/
theorem apply_congr {scheme : Scheme} {first second : Subst}
    (onQuantified : ∀ name ∈ scheme.vars,
      first.apply (.var name) = second.apply (.var name))
    (onFree : ∀ name ∈ scheme.freeVars,
      first.apply (.var name) = second.apply (.var name)) :
    first.apply scheme.ty = second.apply scheme.ty := by
  apply Subst.apply_congr
  intro name member
  by_cases quantified : name ∈ scheme.vars
  · exact onQuantified name quantified
  · exact onFree name (mem_freeVars.mpr ⟨member, quantified⟩)

/-- Substitution depends on the free variables of a scheme only. -/
theorem subst_congr {scheme : Scheme} {first second : Subst}
    (agree : ∀ name ∈ scheme.freeVars,
      first.apply (.var name) = second.apply (.var name)) :
    scheme.subst first = scheme.subst second := by
  have types : (first.without scheme.vars).apply scheme.ty =
      (second.without scheme.vars).apply scheme.ty := by
    apply apply_congr
    · intro name quantified
      rw [apply_without_of_mem quantified, apply_without_of_mem quantified]
    · intro name free
      have notQuantified := (mem_freeVars.mp free).2
      rw [apply_without_of_not_mem notQuantified, apply_without_of_not_mem notQuantified]
      exact agree name free
  rw [Scheme.subst, Scheme.subst, types]

theorem subst_eq_self {scheme : Scheme} {subst : Subst}
    (unbound : ∀ name ∈ scheme.freeVars, ¬ subst.Binds name) :
    scheme.subst subst = scheme := by
  have agree : scheme.subst subst = scheme.subst ∅ := by
    apply subst_congr
    intro name member
    rw [Subst.apply_var_of_not_binds (unbound name member), Subst.apply_empty]
  rw [agree, subst_empty]

/-- A free variable of an image comes from a free variable. -/
theorem source_of_mem_freeVars_subst {scheme : Scheme} {subst : Subst} {name : TyVar}
    (membership : name ∈ (scheme.subst subst).freeVars) :
    ∃ source ∈ scheme.freeVars, name ∈ (subst.apply (.var source)).vars := by
  obtain ⟨inTy, notQuantified⟩ := mem_freeVars.mp membership
  obtain ⟨source, sourceMember, found⟩ := Subst.mem_vars_apply.mp inTy
  by_cases quantified : source ∈ scheme.vars
  · rw [apply_without_of_mem quantified, Ty.mem_vars_var] at found
    exact absurd (found ▸ quantified) notQuantified
  · rw [apply_without_of_not_mem quantified] at found
    exact ⟨source, mem_freeVars.mpr ⟨sourceMember, quantified⟩, found⟩

/-- A variable put in for a free one is free, unless the scheme quantifies it. -/
theorem mem_freeVars_subst {scheme : Scheme} {subst : Subst} {source name : TyVar}
    (sourceMember : source ∈ scheme.freeVars)
    (membership : name ∈ (subst.apply (.var source)).vars) (free : name ∉ scheme.vars) :
    name ∈ (scheme.subst subst).freeVars := by
  obtain ⟨inTy, notQuantified⟩ := mem_freeVars.mp sourceMember
  refine mem_freeVars.mpr ⟨Subst.mem_vars_apply.mpr ⟨source, inTy, ?_⟩, free⟩
  rwa [apply_without_of_not_mem notQuantified]

/-- Without capture, every variable put in for a free variable is free. -/
theorem CaptureFree.mem_freeVars_subst {scheme : Scheme} {subst : Subst}
    (captureFree : scheme.CaptureFree subst) {source name : TyVar}
    (sourceMember : source ∈ scheme.freeVars)
    (membership : name ∈ (subst.apply (.var source)).vars) :
    name ∈ (scheme.subst subst).freeVars :=
  Scheme.mem_freeVars_subst sourceMember membership fun quantified =>
    captureFree source sourceMember name quantified membership

/-- The free variables of an image are the variables put in for free ones, without those
that the scheme quantifies. -/
theorem mem_freeVars_subst_iff {scheme : Scheme} {subst : Subst} {name : TyVar} :
    name ∈ (scheme.subst subst).freeVars ↔
      (∃ source ∈ scheme.freeVars, name ∈ (subst.apply (.var source)).vars) ∧
        name ∉ scheme.vars := by
  constructor
  · intro membership
    exact ⟨source_of_mem_freeVars_subst membership, (mem_freeVars.mp membership).2⟩
  · rintro ⟨⟨source, sourceMember, inImage⟩, free⟩
    exact mem_freeVars_subst sourceMember inImage free

/-- A variable that is put in is lost from the free ones exactly if the scheme quantifies
it.  So all of them stay free if and only if the substitution is capture-free. -/
theorem freeVars_subst_exact (scheme : Scheme) (subst : Subst) :
    (∀ name, name ∈ (scheme.subst subst).freeVars ↔
      (∃ source ∈ scheme.freeVars, name ∈ (subst.apply (.var source)).vars) ∧
        name ∉ scheme.vars) ∧
    ((∀ name, name ∈ (scheme.subst subst).freeVars ↔
      ∃ source ∈ scheme.freeVars, name ∈ (subst.apply (.var source)).vars) ↔
        scheme.CaptureFree subst) := by
  refine ⟨fun name => mem_freeVars_subst_iff, ?_, ?_⟩
  · intro allFree source sourceMember name quantified inImage
    have free := (allFree name).mpr ⟨source, sourceMember, inImage⟩
    exact (mem_freeVars.mp free).2 quantified
  · intro captureFree name
    constructor
    · exact source_of_mem_freeVars_subst
    · rintro ⟨source, sourceMember, inImage⟩
      exact captureFree.mem_freeVars_subst sourceMember inImage

/-- The variable `b` is free under a quantifier for `a`. -/
def halfOpen : Scheme :=
  ⟨["a"], .arrow (.var "a") (.var "b")⟩

/-- Put in for `b`, the variable `a` falls under the quantifier. -/
theorem subst_captures :
    ¬ ∀ name, name ∈ (halfOpen.subst (.singleton "b" (.var "a"))).freeVars ↔
      ∃ source ∈ halfOpen.freeVars,
        name ∈ ((Subst.singleton "b" (.var "a")).apply (.var source)).vars := by
  intro avoidsCapture
  have free := (avoidsCapture "a").mpr ⟨"b", by decide, by decide⟩
  exact (mem_freeVars.mp free).2 (List.mem_singleton.mpr rfl)

/-- Without capture, what is put in for a free variable passes a second
substitution as if nothing were quantified. -/
theorem CaptureFree.apply_without {scheme : Scheme} {inner : Subst} (outer : Subst)
    (captureFree : scheme.CaptureFree inner) {source : TyVar}
    (sourceMember : source ∈ scheme.freeVars) :
    (outer.without scheme.vars).apply (inner.apply (.var source)) =
      outer.apply (inner.apply (.var source)) := by
  apply Subst.apply_congr
  intro name member
  apply apply_without_of_not_mem
  intro quantified
  exact captureFree source sourceMember name quantified member

theorem CaptureFree.subst_subst {scheme : Scheme} {inner : Subst} (outer : Subst)
    (captureFree : scheme.CaptureFree inner) :
    (scheme.subst inner).subst outer = scheme.subst (outer.comp inner) := by
  have types : (outer.without scheme.vars).apply
      ((inner.without scheme.vars).apply scheme.ty) =
      ((outer.comp inner).without scheme.vars).apply scheme.ty := by
    rw [← Subst.apply_comp]
    apply apply_congr
    · intro name quantified
      rw [Subst.apply_comp, apply_without_of_mem quantified, apply_without_of_mem quantified,
        apply_without_of_mem quantified]
    · intro name free
      have notQuantified := (mem_freeVars.mp free).2
      rw [Subst.apply_comp, apply_without_of_not_mem notQuantified,
        apply_without_of_not_mem notQuantified, Subst.apply_comp]
      exact captureFree.apply_without outer free
  simp only [Scheme.subst, types]

/-- If substituting twice is always substituting with the composition, nothing is captured. -/
theorem captureFree_of_subst_subst {scheme : Scheme} {inner : Subst}
    (stepwise : ∀ outer : Subst,
      (scheme.subst inner).subst outer = scheme.subst (outer.comp inner)) :
    scheme.CaptureFree inner := by
  intro free freeMember name quantified inImage
  obtain ⟨member, notQuantified⟩ := mem_freeVars.mp freeMember
  -- A second substitution that removes the captured name is kept away from it.
  have types := congrArg Scheme.ty (stepwise (.singleton name .int))
  simp only [Scheme.subst] at types
  rw [← Subst.apply_comp] at types
  have images := Subst.apply_eq_iff.mp types free member
  rw [Subst.apply_comp, apply_without_of_not_mem notQuantified,
    apply_without_of_not_mem notQuantified, Subst.apply_comp] at images
  have kept : name ∈ (((Subst.singleton name .int).without scheme.vars).apply
      (inner.apply (.var free))).vars := by
    apply Subst.vars_apply_var_subset inImage
    rw [apply_without_of_mem quantified]
    simp
  rw [images] at kept
  exact Subst.Resolved.singleton Ty.not_mem_vars_int name (by simp [Subst.Binds]) _ kept

end Scheme

namespace Env

/-! ## Environments -/

theorem insert_subst (env : Env) (name : Var) (scheme : Scheme) (subst : Subst) :
    (env.insert name scheme).subst subst =
      (env.subst subst).insert name (scheme.subst subst) := by
  ext other
  simp only [find?_subst, find?_insert]
  split <;> rfl

theorem subst_empty (env : Env) : env.subst ∅ = env := by
  ext name
  rw [find?_subst]
  cases env.find? name with
  | none => rfl
  | some scheme => rw [Option.map_some, Scheme.subst_empty]

theorem subst_eq_self {env : Env} {subst : Subst}
    (unbound : ∀ name ∈ env.freeVars, ¬ subst.Binds name) : env.subst subst = env := by
  ext name
  rw [find?_subst]
  cases found : env.find? name with
  | none => rfl
  | some scheme =>
      rw [Option.map_some, Scheme.subst_eq_self]
      exact fun free member => unbound free (mem_freeVars.mpr ⟨name, scheme, found, member⟩)

/-- The scheme of a substituted environment and the one that it came from. -/
theorem find?_subst_eq_some {env : Env} {subst : Subst} {var : Var} {scheme : Scheme}
    (found : (env.subst subst).find? var = some scheme) :
    ∃ original, env.find? var = some original ∧ original.subst subst = scheme := by
  rw [find?_subst] at found
  exact Option.map_eq_some_iff.mp found

theorem source_of_mem_freeVars_subst {env : Env} {subst : Subst} {name : TyVar}
    (membership : name ∈ (env.subst subst).freeVars) :
    ∃ source ∈ env.freeVars, name ∈ (subst.apply (.var source)).vars := by
  obtain ⟨var, scheme, found, free⟩ := mem_freeVars.mp membership
  obtain ⟨original, originalFound, rfl⟩ := find?_subst_eq_some found
  obtain ⟨source, sourceFree, inImage⟩ := Scheme.source_of_mem_freeVars_subst free
  exact ⟨source, mem_freeVars.mpr ⟨var, original, originalFound, sourceFree⟩, inImage⟩

theorem mem_freeVars_subst {env : Env} {subst : Subst} {var : Var} {scheme : Scheme}
    {name : TyVar} (found : env.find? var = some scheme)
    (free : name ∈ (scheme.subst subst).freeVars) : name ∈ (env.subst subst).freeVars := by
  refine mem_freeVars.mpr ⟨var, scheme.subst subst, ?_, free⟩
  rw [find?_subst, found]
  rfl

theorem CaptureFree.mem_freeVars_subst {env : Env} {subst : Subst}
    (captureFree : env.CaptureFree subst) {source name : TyVar}
    (sourceMember : source ∈ env.freeVars)
    (membership : name ∈ (subst.apply (.var source)).vars) :
    name ∈ (env.subst subst).freeVars := by
  obtain ⟨var, scheme, found, free⟩ := mem_freeVars.mp sourceMember
  exact Env.mem_freeVars_subst found
    ((captureFree var scheme found).mem_freeVars_subst free membership)

theorem CaptureFree.subst_subst {env : Env} {inner : Subst} (outer : Subst)
    (captureFree : env.CaptureFree inner) :
    (env.subst inner).subst outer = env.subst (outer.comp inner) := by
  ext name
  rw [find?_subst, find?_subst, find?_subst]
  cases found : env.find? name with
  | none => rfl
  | some scheme =>
      rw [Option.map_some, Option.map_some, Option.map_some,
        (captureFree name scheme found).subst_subst outer]

/-- Substituting twice in an environment is substituting with the composition, whatever the
second substitution is, if and only if the first one captures nothing. -/
theorem subst_comp_exact (env : Env) (inner : Subst) :
    env.CaptureFree inner ↔
      ∀ outer : Subst, (env.subst inner).subst outer = env.subst (outer.comp inner) := by
  constructor
  · exact fun captureFree outer => captureFree.subst_subst outer
  · intro stepwise var scheme found
    refine Scheme.captureFree_of_subst_subst fun outer => ?_
    have lookups := congrArg (Env.find? · var) (stepwise outer)
    simpa [found] using lookups

theorem CaptureFree.comp {env : Env} {outer inner : Subst}
    (innerCaptureFree : env.CaptureFree inner)
    (outerCaptureFree : (env.subst inner).CaptureFree outer) :
    env.CaptureFree (outer.comp inner) := by
  intro var scheme found free freeMember name quantified inImage
  rw [Subst.apply_comp] at inImage
  obtain ⟨source, sourceMember, inOuter⟩ := Subst.mem_vars_apply.mp inImage
  have sourceFree : source ∈ (scheme.subst inner).freeVars :=
    (innerCaptureFree var scheme found).mem_freeVars_subst freeMember sourceMember
  have substituted : (env.subst inner).find? var = some (scheme.subst inner) := by
    rw [find?_subst, found]
    rfl
  exact outerCaptureFree var _ substituted source sourceFree name quantified inOuter

/-- What a substituted environment mentions was mentioned before or was put in for
a free variable. -/
theorem mem_mentioned_subst {env : Env} {subst : Subst} {name : TyVar}
    (membership : name ∈ (env.subst subst).mentioned) :
    name ∈ env.mentioned ∨
      ∃ source ∈ env.freeVars, name ∈ (subst.apply (.var source)).vars := by
  obtain ⟨var, scheme, found, written⟩ := mem_mentioned.mp membership
  obtain ⟨original, originalFound, rfl⟩ := find?_subst_eq_some found
  by_cases quantified : name ∈ original.vars
  · exact .inl (mem_mentioned.mpr
      ⟨var, original, originalFound, Scheme.mem_mentioned.mpr (.inr quantified)⟩)
  · have inTy : name ∈ (original.subst subst).ty.vars := by
      rcases Scheme.mem_mentioned.mp written with inTy | inVars
      · exact inTy
      · exact absurd inVars quantified
    obtain ⟨source, sourceFree, inImage⟩ := Scheme.source_of_mem_freeVars_subst
      (Scheme.mem_freeVars.mpr ⟨inTy, quantified⟩)
    exact .inr ⟨source, mem_freeVars.mpr ⟨var, original, originalFound, sourceFree⟩, inImage⟩

theorem mem_mentioned_of_mem_freeVars {env : Env} {name : TyVar}
    (membership : name ∈ env.freeVars) : name ∈ env.mentioned := by
  obtain ⟨var, scheme, found, free⟩ := mem_freeVars.mp membership
  exact mem_mentioned.mpr
    ⟨var, scheme, found, Scheme.mem_mentioned.mpr (.inl (Scheme.mem_freeVars.mp free).1)⟩

theorem mem_freeVars_insert {env : Env} {var : Var} {scheme : Scheme} {name : TyVar}
    (membership : name ∈ (env.insert var scheme).freeVars) :
    name ∈ scheme.freeVars ∨ name ∈ env.freeVars := by
  obtain ⟨other, found, lookup, free⟩ := mem_freeVars.mp membership
  rw [find?_insert] at lookup
  split at lookup
  · cases lookup
    exact .inl free
  · exact .inr (mem_freeVars.mpr ⟨other, found, lookup, free⟩)

theorem mem_mentioned_insert {env : Env} {var : Var} {scheme : Scheme} {name : TyVar}
    (membership : name ∈ (env.insert var scheme).mentioned) :
    name ∈ scheme.mentioned ∨ name ∈ env.mentioned := by
  obtain ⟨other, found, lookup, written⟩ := mem_mentioned.mp membership
  rw [find?_insert] at lookup
  split at lookup
  · cases lookup
    exact .inl written
  · exact .inr (mem_mentioned.mpr ⟨other, found, lookup, written⟩)

/-! ## Environments compared scheme by scheme -/

/-- Two environments bind the same program variables, to schemes that are related. -/
def Pointwise (related : Scheme → Scheme → Prop) (left right : Env) : Prop :=
  ∀ var, Option.Rel related (left.find? var) (right.find? var)

namespace Pointwise

variable {related : Scheme → Scheme → Prop} {left right : Env}

theorem exists_left (pointwise : Pointwise related left right) {var : Var} {scheme : Scheme}
    (found : right.find? var = some scheme) :
    ∃ source, left.find? var = some source ∧ related source scheme := by
  have here := pointwise var
  rw [found] at here
  generalize left.find? var = binding at *
  cases here with
  | some schemes => exact ⟨_, rfl, schemes⟩

theorem exists_right (pointwise : Pointwise related left right) {var : Var} {scheme : Scheme}
    (found : left.find? var = some scheme) :
    ∃ image, right.find? var = some image ∧ related scheme image := by
  have here := pointwise var
  rw [found] at here
  generalize right.find? var = binding at *
  cases here with
  | some schemes => exact ⟨_, rfl, schemes⟩

theorem find?_eq_none (pointwise : Pointwise related left right) {var : Var}
    (unbound : left.find? var = none) : right.find? var = none := by
  cases found : right.find? var with
  | none => rfl
  | some scheme =>
      obtain ⟨source, bound, _⟩ := pointwise.exists_left found
      rw [unbound] at bound
      cases bound

/-- Schemes may be changed one by one, as long as each stays related to its partner. -/
theorem map {other : Scheme → Scheme → Prop} {leftAfter rightAfter : Env}
    {leftChange rightChange : Scheme → Scheme} (pointwise : Pointwise related left right)
    (leftChanged : ∀ var, leftAfter.find? var = (left.find? var).map leftChange)
    (rightChanged : ∀ var, rightAfter.find? var = (right.find? var).map rightChange)
    (schemes : ∀ var source image, left.find? var = some source → related source image →
      other (leftChange source) (rightChange image)) :
    Pointwise other leftAfter rightAfter := by
  intro var
  have here := pointwise var
  have schemesHere := schemes var
  rw [leftChanged, rightChanged]
  generalize left.find? var = source, right.find? var = image at *
  cases here with
  | none => exact .none
  | some relatedHere => exact .some (schemesHere _ _ rfl relatedHere)

theorem insert {source image : Scheme} (pointwise : Pointwise related left right)
    (schemes : related source image) (name : Var) :
    Pointwise related (left.insert name source) (right.insert name image) := by
  intro var
  rw [find?_insert, find?_insert]
  split
  · exact .some schemes
  · exact pointwise var

end Pointwise

/-! ## Quantified variables -/

/-- A variable that some scheme of an environment quantifies. -/
def Quantifies (env : Env) (name : TyVar) : Prop :=
  ∃ var scheme, env.find? var = some scheme ∧ name ∈ scheme.vars

theorem quantifies_subst {env : Env} {subst : Subst} {name : TyVar} :
    (env.subst subst).Quantifies name ↔ env.Quantifies name := by
  constructor
  · rintro ⟨var, scheme, found, quantified⟩
    obtain ⟨original, originalFound, rfl⟩ := find?_subst_eq_some found
    exact ⟨var, original, originalFound, quantified⟩
  · rintro ⟨var, scheme, found, quantified⟩
    refine ⟨var, scheme.subst subst, ?_, quantified⟩
    rw [find?_subst, found]
    rfl

theorem mem_mentioned_of_quantifies {env : Env} {name : TyVar} (quantifies : env.Quantifies name) :
    name ∈ env.mentioned := by
  obtain ⟨var, scheme, found, quantified⟩ := quantifies
  exact mem_mentioned.mpr ⟨var, scheme, found, Scheme.mem_mentioned.mpr (.inr quantified)⟩

theorem wellScoped_iff {env : Env} :
    env.WellScoped ↔ ∀ name, env.Quantifies name → name ∉ env.freeVars := by
  constructor
  · rintro wellScoped name ⟨var, scheme, found, quantified⟩
    exact wellScoped var scheme found name quantified
  · intro separate var scheme found name quantified
    exact separate name ⟨var, scheme, found, quantified⟩

instance (env : Env) : Decidable env.WellScoped :=
  decidable_of_iff
    (∀ binding ∈ env.toList, ∀ name ∈ binding.2.vars, name ∉ env.freeVars)
    ⟨fun listed var scheme found => listed (var, scheme) (mem_toList.mpr found),
      fun wellScoped binding member => wellScoped binding.1 binding.2 (mem_toList.mp member)⟩

theorem wellScoped_empty : (∅ : Env).WellScoped := by
  intro var scheme found
  rw [find?_empty] at found
  cases found

theorem captureFree_empty (subst : Subst) : (∅ : Env).CaptureFree subst := by
  intro var scheme found
  rw [find?_empty] at found
  cases found

/-- A substitution that puts no quantified variable in for a free one captures none. -/
theorem captureFree_of_avoids {env : Env} {subst : Subst}
    (avoids : ∀ free ∈ env.freeVars, ∀ name, env.Quantifies name →
      name ∉ (subst.apply (.var free)).vars) : env.CaptureFree subst := by
  intro var scheme found free freeMember name quantified
  exact avoids free (mem_freeVars.mpr ⟨var, scheme, found, freeMember⟩) name
    ⟨var, scheme, found, quantified⟩

/-- A substitution that is localized away from the quantified variables captures
none. -/
theorem captureFree_of_localized {env : Env} {subst : Subst} {names : TyVar → Prop}
    (localized : subst.Localized names)
    (separate : ∀ name, env.Quantifies name → ¬ names name) : env.CaptureFree subst := by
  intro var scheme found free freeMember name quantified inImage
  rcases localized.eq_or inImage with rfl | inside
  · exact (Scheme.mem_freeVars.mp freeMember).2 quantified
  · exact separate name ⟨var, scheme, found, quantified⟩ inside

theorem captureFree_of_empty (env : Env) : env.CaptureFree ∅ :=
  captureFree_of_localized (.empty fun _ => False) fun _ _ => id

instance (env : Env) (subst : Subst) : Decidable (env.CaptureFree subst) :=
  decidable_of_iff
    (∀ binding ∈ env.toList, ∀ free ∈ binding.2.freeVars.toList, ∀ name ∈ binding.2.vars,
      name ∉ (subst.apply (.var free)).vars)
    ⟨fun listed var scheme found free member =>
        listed (var, scheme) (mem_toList.mpr found) free (Std.ExtTreeSet.mem_toList.mpr member),
      fun captureFree binding member free listed =>
        captureFree binding.1 binding.2 (mem_toList.mp member) free
          (Std.ExtTreeSet.mem_toList.mp listed)⟩

/-! ## Generalization -/

@[simp]
theorem mem_vars_generalize {env : Env} {ty : Ty} {name : TyVar} :
    name ∈ (env.generalize ty).vars ↔ name ∈ ty.vars ∧ name ∉ env.freeVars := by
  simp [generalize]

theorem mem_freeVars_generalize {env : Env} {ty : Ty} {name : TyVar} :
    name ∈ (env.generalize ty).freeVars ↔ name ∈ ty.vars ∧ name ∈ env.freeVars := by
  rw [Scheme.mem_freeVars, mem_vars_generalize]
  constructor
  · rintro ⟨member, notQuantified⟩
    exact ⟨member, Classical.byContradiction fun notFree => notQuantified ⟨member, notFree⟩⟩
  · rintro ⟨member, free⟩
    exact ⟨member, fun quantified => quantified.2 free⟩

/-- A substitution that is localized away from the quantified variables commutes
with generalization.  Even the order of the quantified variables is the same. -/
theorem generalize_subst {env : Env} {ty : Ty} {subst : Subst} {names : TyVar → Prop}
    (captureFree : env.CaptureFree subst) (localized : subst.Localized names)
    (separate : ∀ name ∈ (env.generalize ty).vars, ¬ names name) :
    (env.generalize ty).subst subst = (env.subst subst).generalize (subst.apply ty) := by
  have fixed : ∀ name ∈ (env.generalize ty).vars, subst.apply (.var name) = .var name :=
    fun name quantified => localized.apply_var (separate name quantified)
  have quantifiers : ty.vars \ env.freeVars =
      (subst.apply ty).vars \ (env.subst subst).freeVars := by
    ext name
    rw [Std.ExtTreeSet.mem_diff_iff, Std.ExtTreeSet.mem_diff_iff]
    constructor
    · rintro ⟨member, notFree⟩
      have quantified := mem_vars_generalize.mpr ⟨member, notFree⟩
      constructor
      · apply Subst.vars_apply_var_subset member
        rw [fixed name quantified, Ty.mem_vars_var]
      · intro free
        obtain ⟨source, sourceFree, inImage⟩ := source_of_mem_freeVars_subst free
        rcases localized.eq_or inImage with rfl | inside
        · exact notFree sourceFree
        · exact separate name quantified inside
    · rintro ⟨member, notFree⟩
      obtain ⟨source, sourceMember, inImage⟩ := Subst.mem_vars_apply.mp member
      have sourceNotFree : source ∉ env.freeVars := fun sourceFree =>
        notFree (captureFree.mem_freeVars_subst sourceFree inImage)
      rw [fixed source (mem_vars_generalize.mpr ⟨sourceMember, sourceNotFree⟩),
        Ty.mem_vars_var] at inImage
      subst source
      exact ⟨sourceMember, sourceNotFree⟩
  have types : (subst.without (env.generalize ty).vars).apply (env.generalize ty).ty =
      subst.apply (env.generalize ty).ty := by
    apply Scheme.apply_congr
    · intro name quantified
      rw [Scheme.apply_without_of_mem quantified, fixed name quantified]
    · intro name free
      rw [Scheme.apply_without_of_not_mem (Scheme.mem_freeVars.mp free).2]
  rw [Scheme.subst, types, generalize, generalize, quantifiers]

/-- Generalization commutes with every substitution that neither moves nor mentions what is
quantified and that captures nothing in the environment.  The quantified variables stay the
same, and so does their order. -/
theorem generalize_commutes (env : Env) (ty : Ty) (subst : Subst)
    (unmoved : ∀ name ∈ (env.generalize ty).vars, subst.find? name = none)
    (unmentioned : ∀ name ∈ (env.generalize ty).vars, ∀ key value,
      subst.find? key = some value → name ∉ value.vars)
    (captureFree : env.CaptureFree subst) :
    (env.generalize ty).subst subst = (env.subst subst).generalize (subst.apply ty) ∧
      ((env.subst subst).generalize (subst.apply ty)).vars = (env.generalize ty).vars := by
  have localized : subst.Localized fun name => name ∉ (env.generalize ty).vars := by
    constructor
    · rintro key ⟨value, found⟩ quantified
      rw [unmoved key quantified] at found
      cases found
    · intro key value found name member quantified
      exact unmentioned name quantified key value found member
  have commutes := generalize_subst captureFree localized fun _ quantified outside =>
    outside quantified
  exact ⟨commutes, by rw [← commutes, Scheme.subst]⟩

/-- The variables `b` and `c` are free, the former beside a quantified `a`. -/
def sharingEnv : Env :=
  .ofList [("x", ⟨["a"], .arrow (.var "a") (.var "b")⟩), ("y", .mono (.var "c"))]

/-- The type has `b` from `sharingEnv` and two variables of its own. -/
def sharingTy : Ty :=
  .arrow (.var "u") (.arrow (.var "b") (.var "s"))

/-- It moves `a`, which `sharingEnv` quantifies, and makes `b` depend on `c` and on a new
variable. -/
def entangling : Subst :=
  .ofList [("a", .int), ("b", .arrow (.var "d") (.var "c")), ("c", .bool)]

theorem generalize_commutes_sharing :
    sharingEnv.CaptureFree entangling ∧
    (sharingEnv.generalize sharingTy).vars = ["s", "u"] ∧
    (sharingEnv.generalize sharingTy).subst entangling =
      (sharingEnv.subst entangling).generalize (entangling.apply sharingTy) := by
  have quantified : (sharingEnv.generalize sharingTy).vars = ["s", "u"] := by decide +kernel
  have captureFree : sharingEnv.CaptureFree entangling := by decide +kernel
  have unmoved : ∀ name ∈ (sharingEnv.generalize sharingTy).vars,
      entangling.find? name = none := by
    rw [quantified]
    decide +kernel
  have entries : ∀ name ∈ (sharingEnv.generalize sharingTy).vars,
      ∀ entry ∈ entangling.toList, name ∉ entry.2.vars := by
    rw [quantified]
    decide +kernel
  have commutes := generalize_commutes sharingEnv sharingTy entangling unmoved
    (fun name member key value found => entries name member _ (Subst.mem_toList.mpr found))
    captureFree
  exact ⟨captureFree, quantified, commutes.1⟩

end Env

end LetPoly
