import LetPoly.Proofs.Principality

/-!
# What an answer is made of

Two facts about every successful inference, in any environment, well-scoped or not.

*Scope.*  An answer is written with the free variables of the environment and with
names that the supply handed out during the call.  Such a name is new: neither
mentioned in the environment nor ever handed out before.

*Resolution.*  No key of the substitution is left in the answer.  Substitutions act in
one pass, so this is what makes it harmless that `inferType` applies the substitution
to the type once more.

Both are read off from `Infers.confined`, whose scope is given by the two supplies at
the ends of a run; `Infers.exists_draws` fills in the draws between them.
-/

namespace LetPoly

/-! ## An environment that is not well-scoped -/

/-- The scheme of the function quantifies the variable that is the type of `y`. -/
def crossedScheme : Scheme :=
  ⟨["t1"], .arrow (.var "t1") (.var "t0")⟩

def crossedEnv : Env :=
  .ofList [("f", crossedScheme), ("y", .mono (.var "t1"))]

def crossedApp : Expr :=
  .app (.var "f") (.var "y")

theorem crossedEnv_not_wellScoped : ¬ crossedEnv.WellScoped := by
  decide +kernel

/-- Inference succeeds in `crossedEnv` all the same, and not without a substitution. -/
theorem exists_infer_crossedApp :
    ∃ typing, ((crossedEnv.infer crossedApp).run {}).1.outcome = .ok typing ∧
      typing.subst ≠ ∅ := by
  let supply : Supply := Supply.reserve {} crossedEnv.mentioned
  let afterFunc : Supply := (crossedScheme.freshSubst supply).2
  let afterArg : Supply := ((Scheme.mono (.var "t1")).freshSubst afterFunc).2
  let actual : Ty := (∅ : Subst).apply (crossedScheme.freshInstance supply)
  let expected : Ty :=
    .arrow ((Scheme.mono (.var "t1")).freshInstance afterFunc) (.var afterArg.fresh.1)
  have foundFunc : crossedEnv.find? "f" = some crossedScheme := by decide +kernel
  have foundArg : (crossedEnv.subst ∅).find? "y" = some (.mono (.var "t1")) := by
    decide +kernel
  have unifies :
      (Subst.ofList [("t2", .var "t1"), ("t0", .var "t3")]).Unifies actual expected := by
    unfold Subst.Unifies
    decide +kernel
  have notEqual : ¬ (∅ : Subst).Unifies actual expected := by
    unfold Subst.Unifies
    decide +kernel
  obtain ⟨unifier, events, run⟩ := exists_unify_of_unifies unifies
  have infers := Infers.app (.var foundFunc) (.var foundArg) run
  rw [Env.run_infer, crossedApp, infers.run_eq]
  refine ⟨_, rfl, fun empty => notEqual ?_⟩
  have solved := (mostGeneral_of_unify (congrArg Traced.outcome run)).unifies
  simp only [Typing.ofApp, Typing.ofVar, Subst.comp_empty] at empty
  rwa [empty] at solved

/-! ## Scope -/

/-- Apart from its answer, all that a run does to the supply is to draw names. -/
theorem Infers.exists_draws {env : Env} {expr : Expr} {supply rest : Supply} {typing : Typing}
    {events : List Event} (infers : Infers env expr supply typing events rest) :
    ∃ drawn, supply.Draws drawn rest := by
  induction infers with
  | lit => exact ⟨[], .nil⟩
  | @var env name scheme supply found =>
      exact ⟨_, supply.freshMany_draws scheme.vars.length⟩
  | abs _ bodyInduction =>
      obtain ⟨drawn, draws⟩ := bodyInduction
      exact ⟨_, .cons draws⟩
  | app _ _ _ funcInduction argInduction =>
      obtain ⟨drawnFirst, drawsFirst⟩ := funcInduction
      obtain ⟨drawnSecond, drawsSecond⟩ := argInduction
      exact ⟨_, (drawsFirst.append drawsSecond).append (.single _)⟩
  | letIn _ _ valueInduction bodyInduction =>
      obtain ⟨drawnFirst, drawsFirst⟩ := valueInduction
      obtain ⟨drawnSecond, drawsSecond⟩ := bodyInduction
      exact ⟨_, drawsFirst.append drawsSecond⟩

/-- Every variable of an answer is free in the environment or was handed out during the
call. -/
theorem infer_inScope (env : Env) (expr : Expr) (supply : Supply) (typing : Typing)
    (success : ((env.infer expr).run supply).1.outcome = .ok typing) :
    ∃ drawn, (supply.reserve env.mentioned).Draws drawn ((env.infer expr).run supply).2 ∧
      (∀ name ∈ drawn, name ∉ env.mentioned ∧ ¬ supply.Spent name) ∧
      (∀ name ∈ typing.ty.vars, name ∈ env.freeVars ∨ name ∈ drawn) ∧
      ∀ key value, typing.subst.find? key = some value →
        (key ∈ env.freeVars ∨ key ∈ drawn) ∧
          ∀ name ∈ value.vars, name ∈ env.freeVars ∨ name ∈ drawn := by
  obtain ⟨events, rest, infers⟩ := Env.infers_of_infer_ok success
  have confined := infers.confined (.reserve supply env)
  obtain ⟨drawn, draws⟩ := infers.exists_draws
  have listed : ∀ name, env.InScope (supply.reserve env.mentioned) rest name →
      name ∈ env.freeVars ∨ name ∈ drawn :=
    fun _ inScope => inScope.imp_right draws.mem_iff_issued.mpr
  rw [Env.run_infer, infers.run_eq]
  refine ⟨drawn, draws, ?_, ?_, ?_⟩
  · intro name member
    exact Supply.not_spent_of_not_spent_reserve (draws.mem_iff_issued.mp member).1
  · exact fun name member => listed name (confined.ty name member)
  · intro key value found
    refine ⟨listed key (confined.subst.keys ⟨value, found⟩), ?_⟩
    exact fun name member => listed name (confined.subst.values found name member)

theorem infer_inScope_crossedEnv :
    ¬ crossedEnv.WellScoped ∧ ∃ typing,
      ((crossedEnv.infer crossedApp).run {}).1.outcome = .ok typing ∧ typing.subst ≠ ∅ ∧
      ∃ drawn, (Supply.reserve {} crossedEnv.mentioned).Draws drawn
          ((crossedEnv.infer crossedApp).run {}).2 ∧
        (∀ name ∈ drawn, name ∉ crossedEnv.mentioned ∧ ¬ Supply.Spent {} name) ∧
        (∀ name ∈ typing.ty.vars, name ∈ crossedEnv.freeVars ∨ name ∈ drawn) ∧
        ∀ key value, typing.subst.find? key = some value →
          (key ∈ crossedEnv.freeVars ∨ key ∈ drawn) ∧
            ∀ name ∈ value.vars, name ∈ crossedEnv.freeVars ∨ name ∈ drawn := by
  obtain ⟨typing, success, notEmpty⟩ := exists_infer_crossedApp
  exact ⟨crossedEnv_not_wellScoped, typing, success, notEmpty,
    infer_inScope crossedEnv crossedApp {} typing success⟩

/-! ## Resolution -/

theorem Subst.Resolved.not_mem_value {subst : Subst} (resolved : subst.Resolved)
    {key other : TyVar} {value : Ty} (bound : subst.Binds key)
    (found : subst.find? other = some value) : key ∉ value.vars := by
  have notMember := resolved key bound (.var other)
  rwa [apply_var_of_find? found] at notMember

theorem Subst.Resolved.comp_self {subst : Subst} (resolved : subst.Resolved) :
    subst.comp subst = subst := by
  ext name
  rw [find?_comp]
  cases found : subst.find? name with
  | none => rfl
  | some value =>
      have fixed : subst.apply value = value := apply_eq_self fun other member bound =>
        resolved.not_mem_value bound found member
      rw [Option.map_some, fixed, Option.some_or]

theorem Traced.map_congr {α β : Type} {traced : Traced α} {first second : α → β}
    (agree : ∀ value, traced.outcome = .ok value → first value = second value) :
    first <$> traced = second <$> traced := by
  obtain ⟨outcome, events⟩ := traced
  cases outcome with
  | error error => rfl
  | ok value => simp only [Functor.map, Function.comp_def, agree value rfl]

/-- Answers are resolved: no key of the substitution occurs in the type or in a value of
the substitution, and applying it again changes nothing. -/
theorem infer_resolved (expr : Expr) :
    (∀ (env : Env) (supply : Supply) (typing : Typing),
      ((env.infer expr).run supply).1.outcome = .ok typing →
      (∀ key, typing.subst.Binds key → key ∉ typing.ty.vars ∧
        ∀ other value, typing.subst.find? other = some value → key ∉ value.vars) ∧
      typing.subst.apply typing.ty = typing.ty ∧
      typing.subst.comp typing.subst = typing.subst) ∧
    inferType expr = Typing.ty <$> infer expr := by
  have settled : ∀ {env : Env} {supply : Supply} {typing : Typing},
      ((env.infer expr).run supply).1.outcome = .ok typing →
      typing.subst.Resolved ∧ ∀ name ∈ typing.ty.vars, ¬ typing.subst.Binds name := by
    intro env supply typing success
    obtain ⟨events, rest, infers⟩ := Env.infers_of_infer_ok success
    have confined := infers.confined (.reserve supply env)
    exact ⟨confined.resolved, confined.settled⟩
  constructor
  · intro env supply typing success
    obtain ⟨resolved, unbound⟩ := settled success
    refine ⟨fun key bound => ⟨fun member => unbound key member bound, ?_⟩,
      Subst.apply_eq_self unbound, resolved.comp_self⟩
    exact fun other value found => resolved.not_mem_value bound found
  · refine Traced.map_congr fun typing success => ?_
    rw [outcome_infer] at success
    exact Subst.apply_eq_self (settled success).2

theorem infer_resolved_crossedEnv :
    ∃ typing, ((crossedEnv.infer crossedApp).run {}).1.outcome = .ok typing ∧
      typing.subst ≠ ∅ ∧ typing.subst.apply typing.ty = typing.ty ∧
      typing.subst.comp typing.subst = typing.subst := by
  obtain ⟨typing, success, notEmpty⟩ := exists_infer_crossedApp
  obtain ⟨_, fixed, idempotent⟩ := (infer_resolved crossedApp).1 crossedEnv {} typing success
  exact ⟨typing, success, notEmpty, fixed, idempotent⟩

end LetPoly
