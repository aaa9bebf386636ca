import LetPoly.Proofs.Freshness
import LetPoly.Proofs.Schemes

/-!
# Typing under substitution and in more general environments

The typing relation is preserved when its environment is substituted in, and when
a scheme is replaced by a more general one.  Neither can be proved alone, because
the schemes of an environment carry names: at a `let`, a substitution may move or
mention what the value's scheme quantifies, so the value has to be typed with
other names, and then its scheme is not the substituted one but only as general.

`Scheme.Subsumes` says both at once.  It compares a scheme with another one under
a substitution by their instances, so it does not see the names of quantified
variables and depends on the substitution at the free variables only.
`HasType.transport` is the one induction; `HasType.subst` is its case for
capture-free substitutions.
-/

namespace LetPoly

namespace Scheme

/-! ## Instances -/

/-- An instance is the image of the scheme's type under any substitution that fixes
the free variables. -/
theorem instance_iff {scheme : Scheme} {ty : Ty} :
    scheme.Instance ty ↔
      ∃ subst : Subst,
        (∀ name ∈ scheme.freeVars, subst.apply (.var name) = .var name) ∧
          subst.apply scheme.ty = ty := by
  constructor
  · rintro ⟨subst, onlyQuantified, equal⟩
    refine ⟨subst, fun name free => ?_, equal⟩
    rw [Subst.apply, onlyQuantified name (mem_freeVars.mp free).2]
    rfl
  · rintro ⟨subst, fixed, equal⟩
    refine ⟨(∅ : Subst).override scheme.vars fun name => subst.apply (.var name), ?_, ?_⟩
    · intro name notQuantified
      rw [Subst.find?_override, if_neg notQuantified, Subst.find?_empty]
    · rw [← equal]
      apply apply_congr
      · exact fun name quantified => Subst.apply_override_of_mem quantified
      · intro name free
        rw [Subst.apply_override_of_not_mem (mem_freeVars.mp free).2, Subst.apply_empty,
          fixed name free]

theorem instance_mono (ty : Ty) : (mono ty).Instance ty :=
  instance_iff.mpr ⟨∅, fun _ _ => Subst.apply_empty _, Subst.apply_empty _⟩

theorem eq_of_instance_mono {ty other : Ty} (isInstance : (mono ty).Instance other) :
    other = ty := by
  obtain ⟨subst, fixed, rfl⟩ := instance_iff.mp isInstance
  exact Subst.apply_eq_self_of_fixed fun name member =>
    fixed name (mem_freeVars_mono.mpr member)

/-! ## Subsumption -/

/-- A scheme has every instance that another one has under a substitution: the
quantified variables may be replaced by anything, the free ones are replaced as the
substitution says. -/
def Subsumes (general scheme : Scheme) (subst : Subst) : Prop :=
  ∀ replacement : Subst,
    (∀ name ∈ scheme.freeVars,
      replacement.apply (.var name) = subst.apply (.var name)) →
    general.Instance (replacement.apply scheme.ty)

namespace Subsumes

theorem congr {general scheme : Scheme} {first second : Subst}
    (subsumes : general.Subsumes scheme first)
    (agree : ∀ name ∈ scheme.freeVars,
      second.apply (.var name) = first.apply (.var name)) :
    general.Subsumes scheme second := by
  intro replacement onFree
  refine subsumes replacement fun name free => ?_
  rw [onFree name free, agree name free]

theorem mono (ty : Ty) (subst : Subst) :
    (Scheme.mono (subst.apply ty)).Subsumes (.mono ty) subst := by
  intro replacement onFree
  have equal : replacement.apply ty = subst.apply ty :=
    Subst.apply_congr fun name member => onFree name (mem_freeVars_mono.mpr member)
  exact equal ▸ instance_mono _

theorem of_captureFree {scheme : Scheme} {subst : Subst}
    (captureFree : scheme.CaptureFree subst) :
    (scheme.subst subst).Subsumes scheme subst := by
  intro replacement onFree
  refine instance_iff.mpr
    ⟨(∅ : Subst).override scheme.vars fun name => replacement.apply (.var name), ?_, ?_⟩
  · intro name free
    have notQuantified : name ∉ scheme.vars := (mem_freeVars.mp free).2
    rw [Subst.apply_override_of_not_mem notQuantified, Subst.apply_empty]
  · rw [Scheme.subst, ← Subst.apply_comp]
    apply apply_congr
    · intro name quantified
      rw [Subst.apply_comp, apply_without_of_mem quantified,
        Subst.apply_override_of_mem quantified]
    · intro name free
      rw [Subst.apply_comp, apply_without_of_not_mem (mem_freeVars.mp free).2,
        onFree name free, Subst.apply_override_of_forall, Subst.apply_empty]
      exact fun inImage inImageMember isQuantified =>
        captureFree name free inImage isQuantified inImageMember

theorem instance_apply {general scheme : Scheme} {subst : Subst} {ty : Ty}
    (subsumes : general.Subsumes scheme subst) (isInstance : scheme.Instance ty) :
    general.Instance (subst.apply ty) := by
  obtain ⟨replacement, fixed, rfl⟩ := instance_iff.mp isInstance
  rw [← Subst.apply_comp]
  refine subsumes _ fun name free => ?_
  rw [Subst.apply_comp, fixed name free]

end Subsumes

end Scheme

namespace Env

/-- Every binding of an environment is subsumed under a substitution. -/
def Subsumes (general env : Env) (subst : Subst) : Prop :=
  ∀ var scheme, env.find? var = some scheme →
    ∃ wider, general.find? var = some wider ∧ wider.Subsumes scheme subst

namespace Subsumes

theorem congr {general env : Env} {first second : Subst}
    (subsumes : general.Subsumes env first)
    (agree : ∀ name ∈ env.freeVars,
      second.apply (.var name) = first.apply (.var name)) :
    general.Subsumes env second := by
  intro var scheme found
  obtain ⟨wider, widerFound, widerSubsumes⟩ := subsumes var scheme found
  refine ⟨wider, widerFound, widerSubsumes.congr fun name free => ?_⟩
  exact agree name (mem_freeVars.mpr ⟨var, scheme, found, free⟩)

theorem insert {general env : Env} {subst : Subst} {wider scheme : Scheme} (name : Var)
    (subsumes : general.Subsumes env subst) (schemes : wider.Subsumes scheme subst) :
    (general.insert name wider).Subsumes (env.insert name scheme) subst := by
  intro var found lookup
  rw [find?_insert] at lookup ⊢
  split at lookup
  next same =>
    cases lookup
    exact ⟨wider, if_pos same, schemes⟩
  next different =>
    rw [if_neg different]
    exact subsumes var found lookup

theorem of_captureFree {env : Env} {subst : Subst} (captureFree : env.CaptureFree subst) :
    (env.subst subst).Subsumes env subst := by
  intro var scheme found
  refine ⟨scheme.subst subst, ?_, .of_captureFree (captureFree var scheme found)⟩
  rw [find?_subst, found]
  rfl

theorem refl (env : Env) : env.Subsumes env ∅ := by
  have subsumes := of_captureFree env.captureFree_of_empty
  rwa [subst_empty] at subsumes

end Subsumes

/-- A value can be retyped so that its generalization is as general as the one of
the value before.  The quantified variables are renamed away from the environment
and from what the substitution puts in; on the environment's own variables the new
substitution is the old one. -/
theorem exists_generalize_subsumes (env general : Env) (ty : Ty) (subst : Subst) :
    ∃ renamed : Subst,
      (∀ name ∈ env.freeVars, renamed.apply (.var name) = subst.apply (.var name)) ∧
      (general.generalize (renamed.apply ty)).Subsumes (env.generalize ty) subst := by
  let names := (env.generalize ty).vars
  obtain ⟨rename, restore, renames⟩ :=
    NameSet.exists_renaming (general.freeVars ∪ (subst.apply ty).vars) names
  let renamed := subst.override names fun name => .var (rename name)
  refine ⟨renamed, ?_, ?_⟩
  · intro name free
    exact Subst.apply_override_of_not_mem fun quantified =>
      (mem_vars_generalize.mp quantified).2 free
  intro replacement onFree
  let back := (∅ : Subst).override (names.map rename) fun name =>
    replacement.apply (.var (restore name))
  have avoided : ∀ name, name ∈ general.freeVars ∪ (subst.apply ty).vars →
      name ∉ names.map rename := by
    intro name inAvoided inRenamed
    obtain ⟨quantified, member, rfl⟩ := List.mem_map.mp inRenamed
    exact (renames quantified member).1 inAvoided
  refine Scheme.instance_iff.mpr ⟨back, ?_, ?_⟩
  · intro name free
    have inGeneral : name ∈ general.freeVars := (mem_freeVars_generalize.mp free).2
    rw [Subst.apply_override_of_not_mem
      (avoided name (Std.ExtTreeSet.mem_union_iff.mpr (.inl inGeneral))), Subst.apply_empty]
  · show back.apply (renamed.apply (env.generalize ty).ty) =
      replacement.apply (env.generalize ty).ty
    rw [← Subst.apply_comp]
    apply Scheme.apply_congr
    · intro name quantified
      rw [Subst.apply_comp, Subst.apply_override_of_mem quantified,
        Subst.apply_override_of_mem (List.mem_map_of_mem quantified),
        (renames name quantified).2]
    · intro name free
      obtain ⟨member, notQuantified⟩ := Scheme.mem_freeVars.mp free
      rw [Subst.apply_comp, Subst.apply_override_of_not_mem notQuantified, onFree name free,
        Subst.apply_override_of_forall, Subst.apply_empty]
      intro inImage inImageMember
      exact avoided inImage (Std.ExtTreeSet.mem_union_iff.mpr
        (.inr (Subst.vars_apply_var_subset member inImageMember)))

end Env

/-! ## Typing -/

/-- Typing is preserved in every environment that subsumes the old one under a
substitution. -/
theorem HasType.transport {env general : Env} {expr : Expr} {ty : Ty} {subst : Subst}
    (typed : HasType env expr ty) (subsumes : general.Subsumes env subst) :
    HasType general expr (subst.apply ty) := by
  induction typed generalizing general subst with
  | @lit env value =>
      have base : subst.apply value.ty = value.ty := by
        cases value <;> rfl
      rw [base]
      exact .lit
  | var found isInstance =>
      obtain ⟨wider, widerFound, widerSubsumes⟩ := subsumes _ _ found
      exact .var widerFound (widerSubsumes.instance_apply isInstance)
  | abs _ bodyInduction =>
      exact .abs (bodyInduction (subsumes.insert _ (.mono _ _)))
  | app _ _ funcInduction argInduction =>
      exact .app (funcInduction subsumes) (argInduction subsumes)
  | @letIn env name value body valueTy ty _ _ valueInduction bodyInduction =>
      -- The value is typed with renamed variables, the body as it stands.
      obtain ⟨renamed, agree, schemes⟩ :=
        env.exists_generalize_subsumes general valueTy subst
      exact .letIn (valueInduction (subsumes.congr agree))
        (bodyInduction (subsumes.insert name schemes))

/-- Typing is preserved under substitution. -/
theorem HasType.subst {env : Env} {expr : Expr} {ty : Ty} {subst : Subst}
    (typed : HasType env expr ty) (captureFree : env.CaptureFree subst) :
    HasType (env.subst subst) expr (subst.apply ty) :=
  typed.transport (.of_captureFree captureFree)

end LetPoly
