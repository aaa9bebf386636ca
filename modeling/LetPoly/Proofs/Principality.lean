import LetPoly.Proofs.Soundness

/-!
# Principal types

Whatever type an expression has, in whatever refinement of a well-scoped
environment, inference succeeds and its answer can be instantiated to it.

The induction compares two environments: the one of the run, and the one of the
given typing, which is a refinement of it by some substitution.  It cannot ask the
second to be the first with the substitution carried out, for two reasons.  The
substitution is arbitrary and may mention names that the run will draw and
quantify.  And a `let` of the given typing may generalize less than the run does.
`Scheme.Realizes` asks only that each instance on the side of the typing is one on
the side of the run, and that what is put in for a free variable stays free.

The mediating substitution is fixed on every name that the run does not issue, not
only on the free variables of the environment (`Supply.Agree`).  Without that, what
one part of an expression leaves behind would not survive the next part, and a
shadowed binding would lose its variables.

The last section carries soundness and completeness of runs over to `Env.infer`,
which makes every well-scoped environment ready by reserving its variables.
-/

namespace LetPoly

/-! ## Realization of schemes -/

/-- Every instance of a target is the image of a scheme's type, with the free
variables replaced as a substitution says, and these replacements are free in the
target. -/
structure Scheme.Realizes (scheme target : Scheme) (subst : Subst) : Prop where
  instances : ∀ ty, target.Instance ty → ∃ replacement : Subst,
    (∀ name ∈ scheme.freeVars, replacement.apply (.var name) = subst.apply (.var name)) ∧
      replacement.apply scheme.ty = ty
  free : ∀ source ∈ scheme.freeVars, ∀ name ∈ (subst.apply (.var source)).vars,
    name ∈ target.freeVars

namespace Scheme.Realizes

theorem congr {scheme target : Scheme} {first second : Subst}
    (realizes : scheme.Realizes target first)
    (agree : ∀ name ∈ scheme.freeVars,
      second.apply (.var name) = first.apply (.var name)) :
    scheme.Realizes target second where
  instances := by
    intro ty isInstance
    obtain ⟨replacement, onFree, equal⟩ := realizes.instances ty isInstance
    refine ⟨replacement, fun name free => ?_, equal⟩
    rw [onFree name free, agree name free]
  free := by
    intro source sourceFree name member
    rw [agree source sourceFree] at member
    exact realizes.free source sourceFree name member

theorem mono (ty : Ty) (subst : Subst) :
    (Scheme.mono ty).Realizes (.mono (subst.apply ty)) subst where
  instances := fun _ isInstance =>
    ⟨subst, fun _ _ => rfl, (eq_of_instance_mono isInstance).symm⟩
  free := by
    intro source sourceFree name member
    rw [mem_freeVars_mono] at *
    exact Subst.vars_apply_var_subset sourceFree member

theorem of_captureFree {scheme : Scheme} {subst : Subst}
    (captureFree : scheme.CaptureFree subst) :
    scheme.Realizes (scheme.subst subst) subst where
  instances := by
    intro ty isInstance
    obtain ⟨replacement, fixed, equal⟩ := instance_iff.mp isInstance
    refine ⟨replacement.comp (subst.without scheme.vars), fun name free => ?_, ?_⟩
    · rw [Subst.apply_comp, apply_without_of_not_mem (mem_freeVars.mp free).2]
      exact Subst.apply_eq_self_of_fixed fun other member =>
        fixed other (captureFree.mem_freeVars_subst free member)
    · rw [Subst.apply_comp]
      exact equal
  free := fun _ sourceFree _ member => captureFree.mem_freeVars_subst sourceFree member

/-- A substitution may be carried out in the scheme, and the rest of it left. -/
theorem refine {scheme target : Scheme} {whole first rest : Subst}
    (realizes : scheme.Realizes target whole) (captureFree : scheme.CaptureFree first)
    (agree : ∀ name ∈ scheme.freeVars,
      rest.apply (first.apply (.var name)) = whole.apply (.var name)) :
    (scheme.subst first).Realizes target rest where
  instances := by
    intro ty isInstance
    obtain ⟨replacement, onFree, equal⟩ := realizes.instances ty isInstance
    refine ⟨rest.override scheme.vars fun name => replacement.apply (.var name), ?_, ?_⟩
    · intro name free
      have notQuantified : name ∉ scheme.vars := (mem_freeVars.mp free).2
      rw [Subst.apply_override_of_not_mem notQuantified]
    · rw [← equal, Scheme.subst, ← Subst.apply_comp]
      apply apply_congr
      · intro name quantified
        rw [Subst.apply_comp, apply_without_of_mem quantified,
          Subst.apply_override_of_mem quantified]
      · intro name free
        rw [Subst.apply_comp, apply_without_of_not_mem (mem_freeVars.mp free).2,
          Subst.apply_override_of_forall, agree name free, onFree name free]
        exact fun inImage inImageMember isQuantified =>
          captureFree name free inImage isQuantified inImageMember
  free := by
    intro source sourceFree name member
    obtain ⟨origin, originFree, inImage⟩ := source_of_mem_freeVars_subst sourceFree
    refine realizes.free origin originFree name ?_
    rw [← agree origin originFree]
    exact Subst.vars_apply_var_subset inImage member

end Scheme.Realizes

/-! ## Realization of environments -/

/-- Two environments bind the same variables, and each scheme of the first realizes
the one of the second. -/
def Env.Realizes (env target : Env) (subst : Subst) : Prop :=
  ∀ var, Option.Rel (fun scheme wanted => scheme.Realizes wanted subst)
    (env.find? var) (target.find? var)

namespace Env.Realizes

variable {env target : Env}

theorem exists_source {subst : Subst} (realizes : env.Realizes target subst) {var : Var}
    {wanted : Scheme} (found : target.find? var = some wanted) :
    ∃ scheme, env.find? var = some scheme ∧ scheme.Realizes wanted subst :=
  Pointwise.exists_left realizes found

theorem exists_target {subst : Subst} (realizes : env.Realizes target subst) {var : Var}
    {scheme : Scheme} (found : env.find? var = some scheme) :
    ∃ wanted, target.find? var = some wanted ∧ scheme.Realizes wanted subst :=
  Pointwise.exists_right realizes found

/-- What is put in for a free variable is free in the target. -/
theorem mem_freeVars {subst : Subst} (realizes : env.Realizes target subst)
    {source name : TyVar} (sourceFree : source ∈ env.freeVars)
    (member : name ∈ (subst.apply (.var source)).vars) : name ∈ target.freeVars := by
  obtain ⟨var, scheme, found, free⟩ := Env.mem_freeVars.mp sourceFree
  obtain ⟨wanted, wantedFound, schemes⟩ := realizes.exists_target found
  exact Env.mem_freeVars.mpr ⟨var, wanted, wantedFound, schemes.free source free name member⟩

theorem of_captureFree {subst : Subst} (captureFree : env.CaptureFree subst) :
    env.Realizes (env.subst subst) subst := by
  intro var
  rw [find?_subst]
  cases found : env.find? var with
  | none => exact .none
  | some scheme => exact .some (.of_captureFree (captureFree var scheme found))

/-- Schemes may be changed one by one, as long as each still realizes its target. -/
theorem transfer {other : Env} {before after : Subst} {change : Scheme → Scheme}
    (realizes : env.Realizes target before)
    (changed : ∀ var, other.find? var = (env.find? var).map change)
    (schemes : ∀ var scheme wanted, env.find? var = some scheme →
      scheme.Realizes wanted before → (change scheme).Realizes wanted after) :
    other.Realizes target after :=
  Pointwise.map realizes changed (fun _ => Option.map_id'.symm) schemes

theorem congr {first second : Subst} (realizes : env.Realizes target first)
    (agree : ∀ name ∈ env.freeVars,
      second.apply (.var name) = first.apply (.var name)) :
    env.Realizes target second := by
  refine realizes.transfer (fun _ => Option.map_id'.symm) fun var scheme wanted found schemes => ?_
  exact schemes.congr fun name free =>
    agree name (Env.mem_freeVars.mpr ⟨var, scheme, found, free⟩)

theorem refine {whole first rest : Subst} (realizes : env.Realizes target whole)
    (captureFree : env.CaptureFree first)
    (agree : ∀ name ∈ env.freeVars,
      rest.apply (first.apply (.var name)) = whole.apply (.var name)) :
    (env.subst first).Realizes target rest := by
  refine realizes.transfer (env.find?_subst first) fun var scheme wanted found schemes => ?_
  exact schemes.refine (captureFree var scheme found) fun name free =>
    agree name (Env.mem_freeVars.mpr ⟨var, scheme, found, free⟩)

theorem insert {subst : Subst} {scheme wanted : Scheme} (name : Var)
    (realizes : env.Realizes target subst) (schemes : scheme.Realizes wanted subst) :
    (env.insert name scheme).Realizes (target.insert name wanted) subst :=
  Pointwise.insert realizes schemes name

/-- Generalizing the more general type gives the more general scheme. -/
theorem generalize {subst : Subst} (realizes : env.Realizes target subst) (ty : Ty) :
    (env.generalize ty).Realizes (target.generalize (subst.apply ty)) subst where
  instances := by
    intro wanted isInstance
    obtain ⟨replacement, fixed, equal⟩ := Scheme.instance_iff.mp isInstance
    refine ⟨replacement.comp subst, fun name free => ?_, ?_⟩
    · obtain ⟨inTy, inEnv⟩ := mem_freeVars_generalize.mp free
      rw [Subst.apply_comp]
      refine Subst.apply_eq_self_of_fixed fun other member => fixed other ?_
      exact mem_freeVars_generalize.mpr
        ⟨Subst.vars_apply_var_subset inTy member, realizes.mem_freeVars inEnv member⟩
    · rw [Subst.apply_comp]
      exact equal
  free := by
    intro source sourceFree name member
    obtain ⟨inTy, inEnv⟩ := mem_freeVars_generalize.mp sourceFree
    exact mem_freeVars_generalize.mpr
      ⟨Subst.vars_apply_var_subset inTy member, realizes.mem_freeVars inEnv member⟩

end Env.Realizes

/-! ## Agreement away from a run -/

/-- Two substitutions act alike on every name that is not issued between two states
of a supply. -/
def Supply.Agree (before after : Supply) (first second : Subst) : Prop :=
  ∀ name, ¬ before.Issued after name → first.apply (.var name) = second.apply (.var name)

theorem Supply.Agree.apply_eq {before after : Supply} {first second : Subst}
    (agree : before.Agree after first second) {ty : Ty}
    (notIssued : ∀ name ∈ ty.vars, ¬ before.Issued after name) :
    first.apply ty = second.apply ty :=
  Subst.apply_congr fun name member => agree name (notIssued name member)

/-- A mediator takes over where the substitution of a run leaves off. -/
theorem Supply.Agree.refines {before after : Supply} {mediator first whole : Subst} {env : Env}
    (agree : before.Agree after (mediator.comp first) whole) (covers : before.Covers env)
    {name : TyVar} (free : name ∈ env.freeVars) :
    mediator.apply (first.apply (.var name)) = whole.apply (.var name) := by
  rw [← Subst.apply_comp]
  exact agree name fun issued => issued.1 (covers.free free)

/-- An inferred typing can be instantiated to a given type and substitution. -/
def Typing.AsGeneralAs (typing : Typing) (before after : Supply) (subst : Subst) (ty : Ty) :
    Prop :=
  ∃ mediator : Subst, mediator.apply typing.ty = ty ∧
    before.Agree after (mediator.comp typing.subst) subst

/-- What the first of two runs does to a name that neither of them issues is older
than the second run. -/
theorem Env.Ready.not_issued_of_mem_apply {env : Env} {expr : Expr} {typing : Typing}
    {before middle after : Supply} {events : List Event} (ready : env.Ready before)
    (run : Infers env expr before typing events middle) {name other : TyVar}
    (notIssued : ¬ before.Issued after name)
    (member : other ∈ (typing.subst.apply (.var name)).vars) : ¬ middle.Issued after other := by
  intro issued
  rcases (ready.confined run).subst.eq_or member with rfl | inScope
  · exact notIssued (issued.earlier run.extends)
  · exact issued.1 (ready.covers.inScope run.extends inScope)

/-- Mediators of two runs in sequence compose. -/
theorem Env.Ready.agree_comp {env : Env} {expr : Expr} {ofFirst ofSecond : Typing}
    {before middle after : Supply} {events : List Event} {subst mediator₁ mediator₂ : Subst}
    (ready : env.Ready before) (run : Infers env expr before ofFirst events middle)
    (second : middle.Extends after)
    (agree₁ : before.Agree middle (mediator₁.comp ofFirst.subst) subst)
    (agree₂ : middle.Agree after (mediator₂.comp ofSecond.subst) mediator₁) :
    before.Agree after (mediator₂.comp (ofSecond.subst.comp ofFirst.subst)) subst := by
  intro name notIssued
  have notIssuedFirst : ¬ before.Issued middle name := fun issued =>
    notIssued (issued.later second)
  calc (mediator₂.comp (ofSecond.subst.comp ofFirst.subst)).apply (.var name)
      = (mediator₂.comp ofSecond.subst).apply (ofFirst.subst.apply (.var name)) := by
        rw [Subst.apply_comp, Subst.apply_comp, Subst.apply_comp]
    _ = mediator₁.apply (ofFirst.subst.apply (.var name)) :=
        agree₂.apply_eq fun other member =>
          ready.not_issued_of_mem_apply run notIssued member
    _ = subst.apply (.var name) := by
        rw [← Subst.apply_comp]
        exact agree₁ name notIssuedFirst

/-! ## Completeness -/

/-- If both sides of an application are as general as they should be, the equation
between them has a solution, and the application is as general as it should be. -/
theorem Typing.AsGeneralAs.ofApp {env : Env} {func arg : Expr}
    {supply afterFunc afterArg : Supply} {ofFunc ofArg : Typing}
    {funcEvents argEvents : List Event} {subst mediator₁ mediator₂ : Subst}
    {domain codomain : Ty} (ready : env.Ready supply)
    (funcRun : Infers env func supply ofFunc funcEvents afterFunc)
    (argRun : Infers (env.subst ofFunc.subst) arg afterFunc ofArg argEvents afterArg)
    (funcTy : mediator₁.apply ofFunc.ty = .arrow domain codomain)
    (funcAgree : supply.Agree afterFunc (mediator₁.comp ofFunc.subst) subst)
    (argTy : mediator₂.apply ofArg.ty = domain)
    (argAgree : afterFunc.Agree afterArg (mediator₂.comp ofArg.subst) mediator₁) :
    ∃ unifier events,
      unify (ofArg.subst.apply ofFunc.ty) (.arrow ofArg.ty (.var afterArg.fresh.1)) =
        ⟨.ok unifier, events⟩ ∧
      (Typing.ofApp env func arg (.var afterArg.fresh.1) ofFunc ofArg unifier).AsGeneralAs supply
        afterArg.fresh.2 subst codomain := by
  let mediator := mediator₂.insert afterArg.fresh.1 codomain
  have onSpent : ∀ {ty : Ty}, (∀ name ∈ ty.vars, afterArg.Spent name) →
      mediator.apply ty = mediator₂.apply ty := fun spent =>
    Subst.apply_insert_of_not_mem fun member => afterArg.fresh_not_spent (spent _ member)
  have readyArg := ready.subst funcRun
  have funcConfined := ready.confined funcRun
  have argConfined := readyArg.confined argRun
  have funcSpent : ∀ name ∈ ofFunc.ty.vars, afterFunc.Spent name := fun name member =>
    ready.covers.inScope funcRun.extends (funcConfined.ty name member)
  have argSpent : ∀ name ∈ ofArg.ty.vars, afterArg.Spent name := fun name member =>
    readyArg.covers.inScope argRun.extends (argConfined.ty name member)
  have unifies : mediator.Unifies (ofArg.subst.apply ofFunc.ty)
      (.arrow ofArg.ty (.var afterArg.fresh.1)) := by
    have onFunc : mediator.apply (ofArg.subst.apply ofFunc.ty) = .arrow domain codomain := by
      rw [onSpent, ← Subst.apply_comp, argAgree.apply_eq, funcTy]
      · exact fun name member issued => issued.1 (funcSpent name member)
      · intro name member
        rcases argConfined.subst.mem_or member with inFunc | inScope
        · exact argRun.extends.spent (funcSpent name inFunc)
        · exact readyArg.covers.inScope argRun.extends inScope
    rw [Subst.Unifies, onFunc, Subst.apply_arrow, onSpent argSpent, argTy,
      Subst.apply_insert_self]
  obtain ⟨unifier, events, run⟩ := exists_unify_of_unifies unifies
  have absorbed := (mostGeneral_of_unify (congrArg Traced.outcome run)).absorbed mediator unifies
  refine ⟨unifier, events, run, mediator, ?_, ?_⟩
  · rw [Typing.ofApp, absorbed]
    exact Subst.apply_insert_self _ _ _
  · intro name notIssued
    rw [Typing.ofApp, Subst.apply_comp, Subst.apply_comp, absorbed,
      Subst.apply_insert_of_not_mem, ← Subst.apply_comp]
    · refine ready.agree_comp funcRun argRun.extends funcAgree argAgree name ?_
      exact fun issued => notIssued (issued.later afterArg.fresh_extends)
    · -- The result variable is issued here, so neither side has produced it.
      intro member
      have extension := funcRun.extends.trans argRun.extends
      have localized := Typing.Confined.comp_localized funcRun.extends argRun.extends
        funcConfined argConfined
      rcases localized.eq_or member with rfl | inScope
      · exact notIssued (afterArg.fresh_issued.earlier extension)
      · exact afterArg.fresh_not_spent (ready.covers.inScope extension inScope)

/-- Every typing in a realized environment is found by a run. -/
theorem HasType.exists_infers {target : Env} {expr : Expr} {ty : Ty}
    (typed : HasType target expr ty) {env : Env} {supply : Supply} {subst : Subst}
    (ready : env.Ready supply) (realizes : env.Realizes target subst) :
    ∃ typing events rest, Infers env expr supply typing events rest ∧
      typing.AsGeneralAs supply rest subst ty := by
  induction typed generalizing env supply subst with
  | @lit target value =>
      refine ⟨_, _, _, .lit, subst, ?_, fun name _ => ?_⟩
      · cases value <;> rfl
      · rw [Typing.ofLit, Subst.comp_empty]
  | @var target name wanted ty found isInstance =>
      obtain ⟨scheme, schemeFound, schemes⟩ := realizes.exists_source found
      obtain ⟨replacement, onFree, rfl⟩ := schemes.instances ty isInstance
      have spent : ∀ free ∈ scheme.freeVars, supply.Spent free := fun free member =>
        ready.covers.free (Env.mem_freeVars.mpr ⟨name, scheme, schemeFound, member⟩)
      obtain ⟨mediator, instantiates, agree⟩ :=
        scheme.exists_of_freshInstance spent subst replacement onFree
      refine ⟨_, _, _, .var schemeFound, mediator, instantiates, fun name notIssued => ?_⟩
      rw [Typing.ofVar, Subst.comp_empty]
      exact agree name notIssued
  | @abs target param body domain codomain _ bodyInduction =>
      have paramFree : ∀ name ∈ env.freeVars,
          (subst.insert supply.fresh.1 domain).apply (.var name) = subst.apply (.var name) := by
        intro name free
        refine Subst.apply_insert_of_not_mem fun member => ?_
        rw [Ty.mem_vars_var] at member
        exact supply.fresh_not_spent (member ▸ ready.covers.free free)
      have paramRealizes := Scheme.Realizes.mono (.var supply.fresh.1)
        (subst.insert supply.fresh.1 domain)
      rw [Subst.apply_insert_self] at paramRealizes
      obtain ⟨inBody, events, rest, bodyRun, mediator, bodyTy, agree⟩ :=
        bodyInduction (ready.insert_fresh param)
          ((realizes.congr paramFree).insert param paramRealizes)
      refine ⟨_, _, _, .abs bodyRun, mediator, ?_, fun name notIssued => ?_⟩
      · have paramAgree := agree supply.fresh.1 fun issued => issued.1 supply.fresh_issued.2
        rw [Subst.apply_comp, Subst.apply_insert_self] at paramAgree
        rw [Typing.ofAbs, Subst.apply_arrow, paramAgree, bodyTy]
      · rw [Typing.ofAbs, agree name fun issued =>
          notIssued (issued.earlier supply.fresh_extends)]
        refine Subst.apply_insert_of_not_mem fun member => ?_
        rw [Ty.mem_vars_var] at member
        exact notIssued (member ▸ supply.fresh_issued.later bodyRun.extends)
  | @app target func arg domain codomain _ _ funcInduction argInduction =>
      obtain ⟨ofFunc, funcEvents, afterFunc, funcRun, mediator₁, funcTy, funcAgree⟩ :=
        funcInduction ready realizes
      have refined := realizes.refine (ready.captureFree funcRun)
        fun name free => funcAgree.refines ready.covers free
      obtain ⟨ofArg, argEvents, afterArg, argRun, mediator₂, argTy, argAgree⟩ :=
        argInduction (ready.subst funcRun) refined
      obtain ⟨unifier, unifyEvents, unified, general⟩ :=
        Typing.AsGeneralAs.ofApp ready funcRun argRun funcTy funcAgree argTy argAgree
      exact ⟨_, _, _, .app funcRun argRun unified, general⟩
  | @letIn target name value body valueTy ty _ _ valueInduction bodyInduction =>
      obtain ⟨ofValue, valueEvents, afterValue, valueRun, mediator₁, valueTyEqual, valueAgree⟩ :=
        valueInduction ready realizes
      have refined := realizes.refine (ready.captureFree valueRun)
        fun name free => valueAgree.refines ready.covers free
      have generalized := refined.generalize ofValue.ty
      rw [valueTyEqual] at generalized
      obtain ⟨inBody, bodyEvents, rest, bodyRun, mediator₂, bodyTy, bodyAgree⟩ :=
        bodyInduction (ready.insert_generalize valueRun name) (refined.insert name generalized)
      have agree := ready.agree_comp valueRun bodyRun.extends valueAgree bodyAgree
      rw [← (ready.confined valueRun).insert_generalize] at bodyRun
      exact ⟨_, _, _, .letIn valueRun bodyRun, mediator₂, bodyTy, agree⟩

/-! ## The entry point -/

/-- Every typing in a refinement of a well-scoped environment is an instance of the
inferred one. -/
theorem HasType.exists_infer_ok {env : Env} {expr : Expr} {subst : Subst} {ty : Ty}
    (typed : HasType (env.subst subst) expr ty) (wellScoped : env.WellScoped)
    (captureFree : env.CaptureFree subst) (supply : Supply) :
    ∃ typing, ((env.infer expr).run supply).1.outcome = .ok typing ∧
      ∃ mediator : Subst, mediator.apply typing.ty = ty ∧
        ∀ free ∈ env.freeVars,
          mediator.apply (typing.subst.apply (.var free)) = subst.apply (.var free) := by
  have ready := Env.Ready.reserve wellScoped supply
  obtain ⟨typing, events, rest, infers, mediator, tyEqual, agree⟩ :=
    typed.exists_infers ready (.of_captureFree captureFree)
  refine ⟨typing, ?_, mediator, tyEqual, fun free member => agree.refines ready.covers member⟩
  rw [Env.run_infer, infers.run_eq]

theorem outcome_infer (expr : Expr) :
    (infer expr).outcome = (((∅ : Env).infer expr).run {}).1.outcome := by
  rw [infer]
  split
  · rfl
  · next error failure => rw [failure]

/-- Inference fails on an expression that stands alone only if it has no type. -/
theorem not_hasType_of_infer_error {expr : Expr} {error : TypeError}
    (failure : (infer expr).outcome = .error error) (ty : Ty) : ¬ HasType ∅ expr ty := by
  intro typed
  rw [← Env.subst_empty ∅] at typed
  obtain ⟨typing, success, _⟩ :=
    typed.exists_infer_ok Env.wellScoped_empty (Env.captureFree_empty ∅) {}
  rw [outcome_infer, success] at failure
  cases failure

theorem Scheme.instance_singleton (name : TyVar) (ty image : Ty) :
    (⟨[name], ty⟩ : Scheme).Instance ((Subst.singleton name image).apply ty) := by
  refine ⟨.singleton name image, fun other notQuantified => ?_, rfl⟩
  rw [Subst.find?_singleton, if_neg]
  exact fun same => notQuantified (List.mem_singleton.mpr same)

/-- A typing whose types use names that inference draws for itself. -/
theorem hasType_curriedLet :
    HasType (numberedEnv.subst (.singleton "t0" (.arrow .int (.var "t2")))) curriedLet
      (.var "t2") := by
  let env := numberedEnv.subst (.singleton "t0" (.arrow .int (.var "t2")))
  let valueTy : Ty := .arrow (.var "t3") (.arrow .int (.var "t2"))
  have foundF : env.find? "f" =
      some ⟨["t1"], .arrow (.var "t1") (.arrow .int (.var "t2"))⟩ := by decide +kernel
  have foundG : (env.insert "g" (env.generalize valueTy)).find? "g" =
      some ⟨["t3"], .arrow (.var "t3") (.arrow .int (.var "t2"))⟩ := by decide +kernel
  have ofF : HasType env (.var "f") valueTy :=
    .var foundF (Scheme.instance_singleton "t1" _ (.var "t3"))
  have ofG : HasType (env.insert "g" (env.generalize valueTy)) (.var "g")
      (.arrow .bool (.arrow .int (.var "t2"))) :=
    .var foundG (Scheme.instance_singleton "t3" _ .bool)
  exact .letIn ofF (.app (.app ofG .lit) .lit)

theorem numberedEnv_avoids : ∀ free ∈ numberedEnv.freeVars, ∀ name, numberedEnv.Quantifies name →
    name ∉ ((Subst.singleton "t0" (.arrow .int (.var "t2"))).apply (.var free)).vars := by
  intro free freeMember name quantifies
  rw [eq_of_mem_freeVars_numberedEnv freeMember, eq_of_numberedEnv_quantifies quantifies]
  decide

/-- Inference is sound: an inferred type is a type of the expression, in the
environment under the inferred substitution. -/
theorem infer_sound (env : Env) (wellScoped : env.WellScoped) (expr : Expr) (supply : Supply)
    (typing : Typing) (success : ((env.infer expr).run supply).1.outcome = .ok typing) :
    HasType (env.subst typing.subst) expr typing.ty := by
  obtain ⟨events, rest, infers⟩ := Env.infers_of_infer_ok success
  exact infers.hasType (.reserve wellScoped supply)

theorem infer_sound_numberedEnv :
    ∃ typing, ((numberedEnv.infer curriedLet).run {}).1.outcome = .ok typing ∧
      typing.ty = .var "t5" ∧ HasType (numberedEnv.subst typing.subst) curriedLet typing.ty := by
  obtain ⟨typing, success, tyEqual, _⟩ := exists_infer_curriedLet
  exact ⟨typing, success, tyEqual,
    infer_sound numberedEnv numberedEnv_wellScoped curriedLet {} typing success⟩

/-- Inference finds principal types.  Whatever type an expression has in a
refinement of a well-scoped environment that captures nothing, inference succeeds,
and both its type and its substitution can be instantiated to the given ones.  An
expression that stands alone is refused only if it has no type. -/
theorem infer_principal (expr : Expr) :
    (∀ (env : Env) (supply : Supply) (subst : Subst) (ty : Ty),
      env.WellScoped →
      (∀ free ∈ env.freeVars, ∀ name, env.Quantifies name →
        name ∉ (subst.apply (.var free)).vars) →
      HasType (env.subst subst) expr ty →
      ∃ typing, ((env.infer expr).run supply).1.outcome = .ok typing ∧
        ∃ mediator : Subst, mediator.apply typing.ty = ty ∧
          ∀ free ∈ env.freeVars,
            mediator.apply (typing.subst.apply (.var free)) = subst.apply (.var free)) ∧
      ∀ error, (infer expr).outcome = .error error → ∀ ty, ¬ HasType ∅ expr ty := by
  constructor
  · intro env supply subst ty wellScoped avoids typed
    exact typed.exists_infer_ok wellScoped (Env.captureFree_of_avoids avoids) supply
  · intro error failure ty
    exact not_hasType_of_infer_error failure ty

theorem infer_principal_numberedEnv :
    HasType (numberedEnv.subst (.singleton "t0" (.arrow .int (.var "t2")))) curriedLet
      (.var "t2") ∧
    ∃ typing, ((numberedEnv.infer curriedLet).run {}).1.outcome = .ok typing ∧
      typing.ty = .var "t5" ∧ typing.subst.apply (.var "t0") = .arrow .int (.var "t5") ∧
      ∃ mediator : Subst, mediator.apply typing.ty = .var "t2" ∧
        mediator.apply (typing.subst.apply (.var "t0")) = .arrow .int (.var "t2") := by
  obtain ⟨typing, success, mediator, tyEqual, agree⟩ :=
    (infer_principal curriedLet).1 numberedEnv {} _ _ numberedEnv_wellScoped numberedEnv_avoids
      hasType_curriedLet
  obtain ⟨found, foundSuccess, foundTy, foundSubst⟩ := exists_infer_curriedLet
  obtain rfl : found = typing := Except.ok.inj (foundSuccess.symm.trans success)
  have onFree : found.subst.apply (.var "t0") = .arrow .int (.var "t5") := by
    rw [foundSubst]
    decide +kernel
  exact ⟨hasType_curriedLet, found, success, foundTy, onFree, mediator, tyEqual,
    agree "t0" (by decide)⟩

end LetPoly
