import LetPoly.Expr.Binding
import LetPoly.Proofs.Rejection
import LetPoly.Proofs.Runs

/-!
# Unbound variables

Inference meets the free occurrences of variables in the order in which they are written,
and it stops at the first one without a binding.  Only an equation that cannot be solved
stops it earlier.  So what a run reports can be told from the expression and from the
variables that the environment binds (`Env.firstUnbound`).  It does not matter that each
part is inferred in an environment of its own: a substitution binds no variable and unbinds
none, and what a binder adds is not free outside its scope.

`Inference.StopsAt` says where a run stops, and has a rule for sequences: the second part
counts only where the first one has met no unbound variable.
-/

namespace LetPoly

/-! ## The first variable without a binding -/

namespace Env

/-- The first of some variables that has no binding. -/
def firstUnbound (env : Env) (vars : List Var) : Option Var :=
  vars.find? fun name => (env.find? name).isNone

theorem firstUnbound_append (env : Env) (vars more : List Var) :
    env.firstUnbound (vars ++ more) = (env.firstUnbound vars).or (env.firstUnbound more) :=
  List.find?_append

theorem ne_none_of_firstUnbound {env : Env} {vars : List Var}
    (noneUnbound : env.firstUnbound vars = none) {name : Var} (member : name ∈ vars) :
    env.find? name ≠ none := by
  simpa using List.find?_eq_none.mp noneUnbound name member

/-- The first variable without a binding, and those before it, which have one. -/
theorem exists_of_firstUnbound {env : Env} {vars : List Var} {name : Var}
    (first : env.firstUnbound vars = some name) :
    ∃ before after, vars = before ++ name :: after ∧ env.find? name = none ∧
      ∀ other ∈ before, env.find? other ≠ none := by
  obtain ⟨unbound, before, after, split, bound⟩ := List.find?_eq_some_iff_append.mp first
  refine ⟨before, after, split, Option.isNone_iff_eq_none.mp unbound, fun other member => ?_⟩
  simpa [← Option.isSome_iff_ne_none] using bound other member

theorem firstUnbound_subst (env : Env) (subst : Subst) (vars : List Var) :
    (env.subst subst).firstUnbound vars = env.firstUnbound vars := by
  simp [firstUnbound]

/-- A binder hides the occurrences of its own name. -/
theorem firstUnbound_insert (env : Env) (name : Var) (scheme : Scheme) (vars : List Var) :
    (env.insert name scheme).firstUnbound vars = env.firstUnbound (vars.filter (· ≠ name)) := by
  rw [firstUnbound, firstUnbound, List.find?_filter]
  congr 1
  funext other
  by_cases same : other = name
  · simp [same]
  · cases found : env.find? other <;> simp [same, found]

end Env

/-! ## Where a run stops -/

namespace Inference

variable {α β : Type}

/-- How a run may end that looks up variables one after the other, where `unbound` is the
first of them without a binding: at this variable, at the end if there is none, or before
that at an equation that cannot be solved. -/
inductive StopsAt : Option Var → Traced α × Supply → Prop where
  | success {value : α} {events : List Event} {rest : Supply} :
      StopsAt none (⟨.ok value, events⟩, rest)
  | unbound {name : Var} {events : List Event} {rest : Supply} :
      StopsAt (some name) (⟨.error (.unboundVariable name), events⟩, rest)
  | rejected {unbound : Option Var} {error : TypeError} {expected actual : Ty}
      {events : List Event} {rest : Supply} :
      error.Rejects expected actual →
      StopsAt unbound (⟨.error error, events⟩, rest)

namespace StopsAt

variable {supply : Supply} {action : Inference α} {next : α → Inference β}

/-- A first part that succeeds. -/
theorem step {unbound : Option Var} {value : α} {events : List Event} {rest : Supply}
    (run : action.run supply = (⟨.ok value, events⟩, rest))
    (nextStops : StopsAt unbound ((next value).run rest)) :
    StopsAt unbound ((action >>= next).run supply) := by
  rw [run_bind_of_ok run]
  generalize (next value).run rest = last at nextStops ⊢
  cases nextStops with
  | success => exact .success
  | unbound => exact .unbound
  | rejected rejects => exact .rejected rejects

/-- A sequence stops in its first part, or else where the second part does. -/
theorem bind {first second : Option Var} (stops : StopsAt first (action.run supply))
    (nextStops : ∀ value rest, StopsAt second ((next value).run rest)) :
    StopsAt (first.or second) ((action >>= next).run supply) := by
  generalize run : action.run supply = ended at stops
  cases stops with
  | success => exact step run (nextStops _ _)
  | unbound =>
      rw [run_bind_of_error run]
      exact .unbound
  | rejected rejects =>
      rw [run_bind_of_error run]
      exact .rejected rejects

/-- A second part that looks nothing up. -/
theorem finish {unbound : Option Var} (stops : StopsAt unbound (action.run supply))
    (nextStops : ∀ value rest, StopsAt none ((next value).run rest)) :
    StopsAt unbound ((action >>= next).run supply) := by
  simpa using stops.bind nextStops

/-- Unification looks nothing up. -/
theorem unify (left right : Ty) (supply : Supply) :
    StopsAt none ((monadLift (LetPoly.unify left right) : Inference Unifier).run supply) := by
  rw [run_monadLift]
  rcases run : LetPoly.unify left right with ⟨outcome, events⟩
  cases outcome with
  | ok unifier => exact .success
  | error error =>
      obtain ⟨expected, actual, rejects, _⟩ := unify_rejects (congrArg Traced.outcome run)
      exact .rejected rejects

end StopsAt

end Inference

/-! ## Inference -/

/-- Inference stops at the first free occurrence of a variable without a binding. -/
theorem inferExpr_stopsAt (env : Env) (expr : Expr) (supply : Supply) :
    Inference.StopsAt (env.firstUnbound expr.freeVars) ((inferExpr env expr).run supply) := by
  induction expr generalizing env supply with
  | lit value => exact .success
  | var name =>
      rw [inferExpr]
      cases found : env.find? name with
      | none =>
          have first : env.firstUnbound (Expr.var name).freeVars = some name := by
            simp [Env.firstUnbound, Expr.freeVars, found]
          rw [first]
          exact .unbound
      | some scheme =>
          have noneUnbound : env.firstUnbound (Expr.var name).freeVars = none := by
            simp [Env.firstUnbound, Expr.freeVars, found]
          rw [noneUnbound]
          refine .step (scheme.run_instantiate supply) ?_
          exact .step (Inference.run_report _ _) .success
  | abs param body bodyInduction =>
      rw [inferExpr, Expr.freeVars,
        ← env.firstUnbound_insert param (.mono (.var supply.fresh.1))]
      refine .step (Inference.run_fresh supply) ?_
      refine (bodyInduction _ _).finish fun inBody rest => ?_
      exact .step (Inference.run_report _ _) .success
  | app func arg funcInduction argInduction =>
      rw [inferExpr, Expr.freeVars, Env.firstUnbound_append]
      refine (funcInduction env supply).bind fun ofFunc afterFunc => ?_
      -- The argument is inferred under what the function has bound, which binds no variable.
      rw [← env.firstUnbound_subst ofFunc.subst]
      refine (argInduction _ afterFunc).finish fun ofArg afterArg => ?_
      refine .step (Inference.run_fresh afterArg) ?_
      refine (Inference.StopsAt.unify _ _ _).finish fun unifier rest => ?_
      exact .step (Inference.run_report _ _) .success
  | letIn name value body valueInduction bodyInduction =>
      rw [inferExpr, Expr.freeVars, Env.firstUnbound_append]
      refine (valueInduction env supply).bind fun ofValue afterValue => ?_
      refine .step (Inference.run_report _ _) ?_
      -- The name is in scope in the body only, and the value above was inferred without it.
      rw [← env.firstUnbound_insert name ((env.subst ofValue.subst).generalize ofValue.ty),
        ← Env.firstUnbound_subst _ ofValue.subst]
      exact (bodyInduction _ afterValue).finish fun inBody rest => .success

/-- Unbound variables are reported exactly.  No expression is unsupported.  A variable that is
reported stands at the first free occurrence of a variable without a binding, in the order in
which the expression is written.  And if there is such an occurrence, then inference fails. -/
theorem infer_reports_unbound (env : Env) (expr : Expr) (supply : Supply) :
    (∀ other, ((env.infer expr).run supply).1.outcome ≠ .error (.unsupported other)) ∧
    (∀ name, ((env.infer expr).run supply).1.outcome = .error (.unboundVariable name) →
      ∃ before after, expr.freeVars = before ++ name :: after ∧ env.find? name = none ∧
        ∀ other ∈ before, env.find? other ≠ none) ∧
    ((∃ name ∈ expr.freeVars, env.find? name = none) →
      ∃ error, ((env.infer expr).run supply).1.outcome = .error error) := by
  have stops := inferExpr_stopsAt env expr (supply.reserve env.mentioned)
  rw [Env.run_infer]
  generalize (inferExpr env expr).run _ = ended at stops ⊢
  generalize first : env.firstUnbound expr.freeVars = unbound at stops
  cases stops with
  | success =>
      refine ⟨by simp, by simp, ?_⟩
      rintro ⟨name, member, unbound⟩
      exact absurd unbound (Env.ne_none_of_firstUnbound first member)
  | unbound =>
      refine ⟨by simp, ?_, fun _ => ⟨_, rfl⟩⟩
      rintro name ⟨⟩
      exact Env.exists_of_firstUnbound first
  | rejected rejects =>
      refine ⟨?_, ?_, fun _ => ⟨_, rfl⟩⟩
      · rintro other ⟨⟩
        cases rejects
      · rintro name ⟨⟩
        cases rejects

def intEnv : Env :=
  .ofList [("f", .mono .int)]

/-- The second `y` stands outside the scope of the first. -/
def leavesScope : Expr :=
  .app (.letIn "y" (.var "f") (.var "y")) (.app (.var "y") (.var "z"))

/-- Inference passes the `y` that is bound, stops at the one that is not, and does not reach
`z`. -/
theorem infer_reports_unbound_leavesScope :
    ((intEnv.infer leavesScope).run {}).1.outcome = .error (.unboundVariable "y") ∧
      leavesScope.freeVars = ["f", "y", "z"] ∧
      ∃ before after, leavesScope.freeVars = before ++ "y" :: after ∧
        intEnv.find? "y" = none ∧ ∀ other ∈ before, intEnv.find? other ≠ none := by
  have failure : ((intEnv.infer leavesScope).run {}).1.outcome =
      .error (.unboundVariable "y") := rfl
  obtain ⟨_, reported, _⟩ := infer_reports_unbound intEnv leavesScope {}
  exact ⟨failure, by decide, reported "y" failure⟩

end LetPoly
