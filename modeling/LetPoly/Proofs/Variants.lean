import LetPoly.Ty.Renaming
import LetPoly.Proofs.Renaming
import LetPoly.Proofs.Runs

/-!
# Variants

A fresh instance is the type of its scheme with other names.  The quantified variables get
names that were just issued, the free ones keep theirs, and no two variables are confused,
because a name that is issued is not spent and the free variables are.  So one renaming
does it all (`Scheme.exists_rename_freshInstance`), whatever the list of quantified variables
repeats or leaves unused, and even if it holds names that the supply might make.

That a type and its renaming pass the check of `Ty.alphaEq` is an invariant of the walk: the
pairs met so far all belong to the renaming (`Pairing.Along`).
-/

namespace LetPoly

/-! ## Types up to renaming -/

/-- All pairs send a name to its image under a renaming. -/
def Pairing.Along (pairing : Pairing) (perm : Renaming) : Prop :=
  ∀ left right, (left, right) ∈ pairing → perm left = right

/-- A name can be paired with its image. -/
theorem Pairing.Along.exists_pair {pairing : Pairing} {perm : Renaming}
    (along : pairing.Along perm) (name : TyVar) :
    ∃ extended, pairing.pair name (perm name) = some extended ∧ extended.Along perm := by
  unfold Pairing.pair
  split
  next => exact ⟨pairing, rfl, along⟩
  next notPaired =>
    have notLeft : name ∉ pairing.map Prod.fst := by
      intro listed
      obtain ⟨⟨_, right⟩, member, rfl⟩ := List.mem_map.mp listed
      exact notPaired (along _ _ member ▸ member)
    have notRight : perm name ∉ pairing.map Prod.snd := by
      intro listed
      obtain ⟨⟨left, right⟩, member, rfl⟩ := List.mem_map.mp listed
      have source : left = name := perm.injective (along left _ member)
      exact notPaired (source ▸ member)
    refine ⟨(name, perm name) :: pairing, by simp [notLeft, notRight], ?_⟩
    intro left right member
    cases member with
    | head => rfl
    | tail _ member => exact along left right member

namespace Ty

/-- The walk along a type and its renaming succeeds. -/
theorem exists_matchUpTo_rename (perm : Renaming) (ty : Ty) {pairing : Pairing}
    (along : pairing.Along perm) :
    ∃ extended, matchUpTo pairing ty (ty.rename perm) = some extended ∧
      extended.Along perm := by
  induction ty generalizing pairing with
  | var name => exact along.exists_pair name
  | arrow domain codomain domainInduction codomainInduction =>
      obtain ⟨middle, domainMatch, middleAlong⟩ := domainInduction along
      obtain ⟨extended, codomainMatch, extendedAlong⟩ := codomainInduction middleAlong
      refine ⟨extended, ?_, extendedAlong⟩
      rw [rename, matchUpTo, domainMatch, Option.bind_some, codomainMatch]
  | int => exact ⟨pairing, rfl, along⟩
  | bool => exact ⟨pairing, rfl, along⟩

theorem alphaEq_rename (perm : Renaming) (ty : Ty) : ty.alphaEq (ty.rename perm) = true := by
  have nothingPaired : Pairing.Along [] perm := fun _ _ member => nomatch member
  obtain ⟨extended, matched, _⟩ := exists_matchUpTo_rename perm ty nothingPaired
  rw [alphaEq, matched]
  rfl

theorem rename_alphaEq (perm : Renaming) (ty : Ty) : (ty.rename perm).alphaEq ty = true := by
  have restored : (ty.rename perm).rename perm.symm = ty := by
    rw [rename_rename, Equiv.self_trans_symm, rename_refl]
  simpa only [restored] using alphaEq_rename perm.symm (ty.rename perm)

end Ty

/-! ## Fresh instances -/

namespace Scheme

variable {scheme : Scheme} {supply : Supply}

/-- The fresh instance renames the quantified variables and keeps the free ones. -/
theorem exists_rename_freshInstance
    (spent : ∀ name ∈ scheme.freeVars, supply.Spent name) :
    ∃ perm : Renaming, scheme.freshInstance supply = scheme.ty.rename perm ∧
      (∀ name ∈ scheme.freeVars, perm name = name) ∧
      ∀ name ∈ scheme.vars, supply.Issued (scheme.freshSubst supply).2 (perm name) := by
  obtain ⟨new, images, injective⟩ := scheme.exists_freshNames supply
  obtain ⟨perm, onQuantified, away⟩ := Renaming.exists_prolong (Equiv.refl TyVar) scheme.vars
    id new (fun _ _ _ _ same => same) injective
  have fixed : ∀ name ∈ scheme.freeVars, perm name = name := by
    intro name free
    -- It is neither quantified nor one of the new names, so the prolongation passes it by.
    refine away name ?_ ?_
    · exact fun index quantified same => (mem_freeVars.mp free).2 (same ▸ quantified)
    · exact fun index quantified same =>
        (images index quantified).1.1 (same ▸ spent name free)
  refine ⟨perm, ?_, fixed, fun name quantified => ?_⟩
  · refine Subst.apply_eq_rename perm fun name member => ?_
    by_cases quantified : name ∈ scheme.vars
    · rw [(images name quantified).2]
      exact congrArg Ty.var (onQuantified name quantified).symm
    · rw [apply_freshSubst_of_not_mem quantified,
        fixed name (mem_freeVars.mpr ⟨member, quantified⟩)]
  · rw [show perm name = new name from onQuantified name quantified]
    exact (images name quantified).1

/-- The instances of a scheme are those of its fresh instance. -/
theorem instance_iff_freshInstance (spent : ∀ name ∈ scheme.freeVars, supply.Spent name)
    {ty : Ty} :
    scheme.Instance ty ↔
      ∃ subst : Subst,
        (∀ name ∈ scheme.freeVars, subst.apply (.var name) = .var name) ∧
          subst.apply (scheme.freshInstance supply) = ty := by
  constructor
  · intro isInstance
    obtain ⟨replacement, fixed, rfl⟩ := instance_iff.mp isInstance
    obtain ⟨mediator, equal, elsewhere⟩ := exists_of_freshInstance spent ∅ replacement
      (by simpa only [Subst.apply_empty] using fixed)
    refine ⟨mediator, fun name free => ?_, equal⟩
    rw [elsewhere name fun issued => issued.1 (spent name free), Subst.apply_empty]
  · rintro ⟨subst, fixed, rfl⟩
    refine instance_iff.mpr ⟨subst.comp (scheme.freshSubst supply).1, fun name free => ?_, ?_⟩
    · rw [Subst.apply_comp, apply_freshSubst_of_not_mem (mem_freeVars.mp free).2,
        fixed name free]
    · rw [Subst.apply_comp, freshInstance]

theorem mem_vars_freshInstance_of_mem_freeVars {name : TyVar} (free : name ∈ scheme.freeVars) :
    name ∈ (scheme.freshInstance supply).vars := by
  obtain ⟨member, notQuantified⟩ := mem_freeVars.mp free
  refine Subst.mem_vars_apply.mpr ⟨name, member, ?_⟩
  rw [apply_freshSubst_of_not_mem notQuantified]
  exact Ty.mem_vars_var.mpr rfl

/-- Two fresh instances, one after the other, have only the free variables in common. -/
theorem mem_vars_freshInstance_twice {name : TyVar} :
    name ∈ (scheme.freshInstance supply).vars ∧
        name ∈ (scheme.freshInstance (scheme.freshSubst supply).2).vars ↔
      name ∈ scheme.freeVars := by
  constructor
  · rintro ⟨inFirst, inSecond⟩
    rcases mem_vars_freshInstance inFirst with free | issued
    · exact free
    · rcases mem_vars_freshInstance inSecond with free | again
      · exact free
      · exact absurd issued.2 again.1
  · intro free
    exact ⟨mem_vars_freshInstance_of_mem_freeVars free,
      mem_vars_freshInstance_of_mem_freeVars free⟩

end Scheme

/-! ## Instantiation -/

/-- Instantiation gives the type of a scheme up to a renaming, if the supply can no longer
hand out the variables of that type, as when they are reserved.  The renaming keeps the free
variables and sends the quantified ones to names drawn here.  So the two types are the same up
to renaming, the result has all the instances that the scheme has, and what it shares with the
next result is free in the scheme.  In a scheme that comes from generalization the variables
that are kept are those that the environment has free. -/
theorem Scheme.instantiate_variant (scheme : Scheme) (supply : Supply)
    (spent : ∀ name ∈ scheme.ty.vars, supply.Spent name) :
    ∃ ty events rest drawn, ∃ perm : Renaming,
      scheme.instantiate.run supply = (⟨.ok ty, events⟩, rest) ∧
      supply.Draws drawn rest ∧ drawn.length = scheme.vars.length ∧
      ty = scheme.ty.rename perm ∧
      (∀ name ∈ scheme.freeVars, perm name = name) ∧
      (∀ name ∈ scheme.vars, perm name ∈ drawn) ∧
      ty.alphaEq scheme.ty = true ∧
      (∀ other, scheme.Instance other ↔
        ∃ subst : Subst, (∀ name ∈ scheme.freeVars, subst.apply (.var name) = .var name) ∧
          subst.apply ty = other) ∧
      (∃ second moreEvents last,
        scheme.instantiate.run rest = (⟨.ok second, moreEvents⟩, last) ∧
        ∀ name, name ∈ ty.vars ∧ name ∈ second.vars ↔ name ∈ scheme.freeVars) ∧
      ∀ env general, scheme = Env.generalize env general →
        ∀ name ∈ general.vars, perm name = name ↔ name ∈ env.freeVars := by
  have freeSpent : ∀ name ∈ scheme.freeVars, supply.Spent name :=
    fun name free => spent name (mem_freeVars.mp free).1
  obtain ⟨perm, renamed, fixed, issued⟩ := exists_rename_freshInstance freeSpent
  refine ⟨_, _, _, _, perm, scheme.run_instantiate supply,
    supply.freshMany_draws scheme.vars.length, supply.length_freshMany _, renamed, fixed, ?_, ?_,
    fun _ => instance_iff_freshInstance freeSpent,
    ⟨_, _, _, scheme.run_instantiate _, fun _ => mem_vars_freshInstance_twice⟩, ?_⟩
  · intro name quantified
    exact (supply.freshMany_draws _).mem_iff_issued.mpr (issued name quantified)
  · rw [renamed]
    exact Ty.rename_alphaEq perm scheme.ty
  · rintro env general rfl name member
    constructor
    · intro kept
      -- Otherwise it is quantified, and what it is renamed to was not spent before.
      by_contra notFree
      have quantified := Env.mem_vars_generalize.mpr ⟨member, notFree⟩
      exact (issued name quantified).1 (kept.symm ▸ spent name member)
    · intro free
      exact fixed name (Env.mem_freeVars_generalize.mpr ⟨member, free⟩)

/-- A scheme that quantifies `t1` twice, and `u`, which does not occur. -/
def repeatingScheme : Scheme :=
  ⟨["t1", "t0", "t1", "u"], .arrow (.var "t0") (.arrow (.var "t1") (.var "z"))⟩

/-- A supply that has passed `t0` and may not make `t1`. -/
def startedSupply : Supply :=
  { next := 1, reserved := .ofList ["t1", "z"] }

theorem Scheme.instantiate_variant_repeating :
    (∀ name ∈ repeatingScheme.ty.vars, startedSupply.Spent name) ∧
    ∃ first second events moreEvents rest last,
      repeatingScheme.instantiate.run startedSupply = (⟨.ok first, events⟩, rest) ∧
      repeatingScheme.instantiate.run rest = (⟨.ok second, moreEvents⟩, last) ∧
      first.alphaEq repeatingScheme.ty = true ∧
      ∀ name, name ∈ first.vars ∧ name ∈ second.vars ↔ name = "z" := by
  have spent : ∀ name ∈ repeatingScheme.ty.vars, startedSupply.Spent name := by
    intro name member
    have listed : name = "t0" ∨ name = "t1" ∨ name = "z" := by
      simpa [repeatingScheme] using member
    rcases listed with rfl | rfl | rfl
    · exact .inr ⟨0, by decide, rfl⟩
    · exact .inl (by decide +kernel)
    · exact .inl (by decide +kernel)
  obtain ⟨first, events, rest, _, _, run, _, _, _, _, _, same, _, again, _⟩ :=
    repeatingScheme.instantiate_variant startedSupply spent
  obtain ⟨second, moreEvents, last, runAgain, shared⟩ := again
  refine ⟨spent, first, second, events, moreEvents, rest, last, run, runAgain, same, ?_⟩
  intro name
  have free : repeatingScheme.freeVars.toList = ["z"] := by decide +kernel
  rw [shared, ← Std.ExtTreeSet.mem_toList, free, List.mem_singleton]

end LetPoly
