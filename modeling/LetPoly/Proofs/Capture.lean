import LetPoly.Proofs.Transcripts
import Mathlib.Data.List.Chain

/-!
# Runs without capture

`Scheme.subst` renames no quantified variable, so a run is right only if it never
substitutes under a quantifier what the quantifier binds.  To speak about what
happens inside a run, failing runs included, `observeExpr` goes through inference
and keeps a list of visits: each environment that inference is called with, and each
substitution that is carried out in an environment.

* `action_observeExpr`: forgetting the visits leaves exactly `inferExpr`.
* `observeExpr_safe`: from a well-scoped environment, all visits are safe.  Each
  environment met is well-scoped, and each substitution is capture-free.

What the visits of an expression are follows from the runs of its parts
(`Infers.visits_app` and its siblings), and all else is an induction over these
equations.  The parts before a visit have succeeded, so what is known of them comes
from `Infers.confined`.

`Env.observe_follows_run` ties the visits to what else is known of a run.  On every
run, the environment changes from one call to the next by a new parameter, by a
substitution that is visited, or not at all.  Where the run succeeds, its calls are the
typings of its derivation, in order.
-/

namespace LetPoly

/-! ## Visits -/

/-- A point of a run at which a capture could happen or would show. -/
inductive Visit where
  | call (env : Env)
  | substitution (env : Env) (subst : Subst)

/-- Nothing is captured at a visit. -/
def Visit.Safe : Visit → Prop
  | call env => env.WellScoped
  | substitution env subst => env.CaptureFree subst

/-- A computation together with the visits it makes, in order. -/
structure Observed (α : Type) where
  action : Inference α
  visits : Supply → List Visit

namespace Observed

variable {α β : Type}

/-- A failure keeps the visits made before it. -/
instance : Monad Observed where
  pure value := ⟨pure value, fun _ => []⟩
  bind first next :=
    ⟨first.action >>= fun value => (next value).action, fun supply =>
      first.visits supply ++
        match first.action.run supply with
        | (⟨.ok value, _⟩, rest) => (next value).visits rest
        | (⟨.error _, _⟩, _) => []⟩

/-- A computation that makes no visit. -/
def silent (action : Inference α) : Observed α :=
  ⟨action, fun _ => []⟩

/-- A call with an environment. -/
def calling (env : Env) (body : Observed α) : Observed α :=
  ⟨body.action, fun supply => .call env :: body.visits supply⟩

/-- Carry out a substitution in an environment. -/
def substitute (env : Env) (subst : Subst) : Observed Env :=
  ⟨pure (env.subst subst), fun _ => [.substitution env subst]⟩

/-! ### Visits in sequence -/

/-- What follows a success is visited. -/
theorem visits_bind_of_ok {first : Observed α} {next : α → Observed β} {supply rest : Supply}
    {value : α} {events : List Event}
    (success : first.action.run supply = (⟨.ok value, events⟩, rest)) :
    (first >>= next).visits supply = first.visits supply ++ (next value).visits rest := by
  simp only [bind, success]

theorem visits_bind_of_error {first : Observed α} {next : α → Observed β}
    {supply rest : Supply} {error : TypeError} {events : List Event}
    (failure : first.action.run supply = (⟨.error error, events⟩, rest)) :
    (first >>= next).visits supply = first.visits supply := by
  simp only [bind, failure, List.append_nil]

/-- No run makes a visit. -/
def Quiet (observed : Observed α) : Prop :=
  ∀ supply, observed.visits supply = []

theorem Quiet.pure (value : α) : (pure value : Observed α).Quiet :=
  fun _ => rfl

/-- What is quiet adds no visit to what comes before. -/
theorem visits_bind_of_quiet {first : Observed α} {next : α → Observed β}
    (quiet : ∀ value, (next value).Quiet) (supply : Supply) :
    (first >>= next).visits supply = first.visits supply := by
  rcases run : first.action.run supply with ⟨⟨outcome, events⟩, rest⟩
  cases outcome with
  | error error => exact visits_bind_of_error run
  | ok value => rw [visits_bind_of_ok run, quiet value rest, List.append_nil]

theorem Quiet.silent_bind {action : Inference α} {next : α → Observed β}
    (quiet : ∀ value, (next value).Quiet) : (silent action >>= next).Quiet :=
  visits_bind_of_quiet quiet

end Observed

/-! ## Observed inference -/

/-- Infer the type of an expression and keep the visits.  Every call is entered through
`Observed.calling`, and an environment is substituted in by `Observed.substitute`
only.  `Env.observe_follows_run` ties the visits to the run and its derivation. -/
def observeExpr (env : Env) : Expr → Observed Typing
  | .lit value => .calling env do
      return .ofLit env value
  | .var name => .calling env do
      let some scheme := env.find? name | .silent (.fail (.unboundVariable name))
      let ty ← .silent scheme.instantiate
      .silent (.report (.typed .var (.var name) ty))
      return .ofVar env name ty
  | .abs param body => .calling env do
      let paramTy := Ty.var (← .silent .fresh)
      let inBody ← observeExpr (env.insert param (.mono paramTy)) body
      let typing := Typing.ofAbs env param body paramTy inBody
      .silent (.report (.typed .abs (.abs param body) typing.ty))
      return typing
  | .app func arg => .calling env do
      let ofFunc ← observeExpr env func
      let refined ← .substitute env ofFunc.subst
      let ofArg ← observeExpr refined arg
      let resultTy := Ty.var (← .silent .fresh)
      let unifier ← .silent
        (.lift (unify (ofArg.subst.apply ofFunc.ty) (.arrow ofArg.ty resultTy)))
      let typing := Typing.ofApp env func arg resultTy ofFunc ofArg unifier
      .silent (.report (.typed .app (.app func arg) typing.ty))
      return typing
  | .letIn name value body => .calling env do
      let ofValue ← observeExpr env value
      let refined ← .substitute env ofValue.subst
      let scheme := refined.generalize ofValue.ty
      .silent (.report (.generalized name scheme))
      let extended ← .substitute (env.insert name scheme) ofValue.subst
      let inBody ← observeExpr extended body
      return .ofLet env name value body ofValue inBody

/-- Observed inference from the entry point. -/
def Env.observe (env : Env) (expr : Expr) : Observed Typing := do
  .silent (.reserve env.mentioned)
  observeExpr env expr

/-- Forgetting the visits leaves inference. -/
theorem action_observeExpr (env : Env) (expr : Expr) :
    (observeExpr env expr).action = inferExpr env expr := by
  induction expr generalizing env with
  | lit value => rfl
  | var name =>
      rw [observeExpr, inferExpr]
      cases env.find? name with
      | none => rfl
      | some scheme => rfl
  | abs param body bodyInduction =>
      simp only [inferExpr, ← bodyInduction]
      rfl
  | app func arg funcInduction argInduction =>
      simp only [inferExpr, ← funcInduction, ← argInduction]
      rfl
  | letIn name value body valueInduction bodyInduction =>
      simp only [inferExpr, ← valueInduction, ← bodyInduction]
      rfl

/-! ## The visits of a run

Each form of expression has its equations, with what the runs of the parts arrive at. -/

section

variable {env : Env} {func arg value body : Expr} {supply rest : Supply} {name : Var}

theorem visits_lit (literal : Lit) :
    (observeExpr env (.lit literal)).visits supply = [.call env] := rfl

theorem visits_var : (observeExpr env (.var name)).visits supply = [.call env] := by
  rw [observeExpr]
  refine congrArg (Visit.call env :: ·) ?_
  cases env.find? name with
  | none => rfl
  | some scheme =>
      exact Observed.Quiet.silent_bind (fun _ => .silent_bind fun _ => .pure _) supply

theorem visits_abs : (observeExpr env (.abs name body)).visits supply =
    .call env ::
      (observeExpr (env.insert name (.mono (.var supply.fresh.1))) body).visits
        supply.fresh.2 := by
  rw [observeExpr]
  refine congrArg (Visit.call env :: ·) ?_
  rw [Observed.visits_bind_of_ok (Inference.run_fresh supply)]
  exact Observed.visits_bind_of_quiet (fun _ => .silent_bind fun _ => .pure _) supply.fresh.2

theorem Infers.visits_app {ofFunc : Typing} {events : List Event}
    (funcRun : Infers env func supply ofFunc events rest) :
    (observeExpr env (.app func arg)).visits supply =
      .call env :: ((observeExpr env func).visits supply ++
        .substitution env ofFunc.subst ::
          (observeExpr (env.subst ofFunc.subst) arg).visits rest) := by
  have success := funcRun.run_eq
  rw [← action_observeExpr] at success
  rw [observeExpr]
  refine congrArg (Visit.call env :: ·) ?_
  rw [Observed.visits_bind_of_ok success]
  refine congrArg (_ ++ Visit.substitution env ofFunc.subst :: ·) ?_
  exact Observed.visits_bind_of_quiet
    (fun _ => .silent_bind fun _ => .silent_bind fun _ => .silent_bind fun _ => .pure _) rest

theorem visits_app_of_error {error : TypeError} {events : List Event}
    (failure : (inferExpr env func).run supply = (⟨.error error, events⟩, rest)) :
    (observeExpr env (.app func arg)).visits supply =
      .call env :: (observeExpr env func).visits supply := by
  rw [← action_observeExpr] at failure
  rw [observeExpr]
  exact congrArg (Visit.call env :: ·) (Observed.visits_bind_of_error failure)

theorem Infers.visits_letIn {ofValue : Typing} {events : List Event}
    (valueRun : Infers env value supply ofValue events rest) :
    (observeExpr env (.letIn name value body)).visits supply =
      .call env :: ((observeExpr env value).visits supply ++
        .substitution env ofValue.subst ::
        .substitution (env.insert name ((env.subst ofValue.subst).generalize ofValue.ty))
          ofValue.subst ::
          (observeExpr
            ((env.insert name ((env.subst ofValue.subst).generalize ofValue.ty)).subst
              ofValue.subst) body).visits rest) := by
  have success := valueRun.run_eq
  rw [← action_observeExpr] at success
  rw [observeExpr]
  refine congrArg (Visit.call env :: ·) ?_
  rw [Observed.visits_bind_of_ok success]
  refine congrArg (fun visits => _ ++ Visit.substitution env ofValue.subst ::
    .substitution (env.insert name ((env.subst ofValue.subst).generalize ofValue.ty))
      ofValue.subst :: visits) ?_
  exact Observed.visits_bind_of_quiet (fun _ => .pure _) rest

theorem visits_letIn_of_error {error : TypeError} {events : List Event}
    (failure : (inferExpr env value).run supply = (⟨.error error, events⟩, rest)) :
    (observeExpr env (.letIn name value body)).visits supply =
      .call env :: (observeExpr env value).visits supply := by
  rw [← action_observeExpr] at failure
  rw [observeExpr]
  exact congrArg (Visit.call env :: ·) (Observed.visits_bind_of_error failure)

end

/-- The visits of every run, one case for each way in which an expression is inferred. -/
theorem visits_induction {motive : Env → Supply → Expr → List Visit → Prop}
    (lit : ∀ env supply literal, motive env supply (.lit literal) [.call env])
    (var : ∀ env supply name, motive env supply (.var name) [.call env])
    (abs : ∀ env supply param body visits,
      motive (env.insert param (.mono (.var supply.fresh.1))) supply.fresh.2 body visits →
      motive env supply (.abs param body) (.call env :: visits))
    (funcError : ∀ env supply func arg visits,
      motive env supply func visits →
      motive env supply (.app func arg) (.call env :: visits))
    (app : ∀ env supply func arg ofFunc events rest visits more,
      Infers env func supply ofFunc events rest →
      motive env supply func visits →
      motive (env.subst ofFunc.subst) rest arg more →
      motive env supply (.app func arg)
        (.call env :: (visits ++ .substitution env ofFunc.subst :: more)))
    (valueError : ∀ env supply name value body visits,
      motive env supply value visits →
      motive env supply (.letIn name value body) (.call env :: visits))
    (letIn : ∀ env supply name value body ofValue events rest visits more,
      Infers env value supply ofValue events rest →
      motive env supply value visits →
      motive
        ((env.insert name ((env.subst ofValue.subst).generalize ofValue.ty)).subst
          ofValue.subst) rest body more →
      motive env supply (.letIn name value body)
        (.call env :: (visits ++ .substitution env ofValue.subst ::
          .substitution (env.insert name ((env.subst ofValue.subst).generalize ofValue.ty))
            ofValue.subst :: more)))
    (env : Env) (supply : Supply) (expr : Expr) :
    motive env supply expr ((observeExpr env expr).visits supply) := by
  induction expr generalizing env supply with
  | lit literal => exact lit env supply literal
  | var name =>
      rw [visits_var]
      exact var env supply name
  | abs param body bodyInduction =>
      rw [visits_abs]
      exact abs _ _ _ _ _ (bodyInduction _ _)
  | app func arg funcInduction argInduction =>
      rcases run : (inferExpr env func).run supply with ⟨⟨outcome, events⟩, rest⟩
      cases outcome with
      | error error =>
          rw [visits_app_of_error run]
          exact funcError _ _ _ _ _ (funcInduction env supply)
      | ok ofFunc =>
          have funcRun := infers_of_run run
          rw [funcRun.visits_app]
          exact app _ _ _ _ _ _ _ _ _ funcRun (funcInduction env supply) (argInduction _ rest)
  | letIn name value body valueInduction bodyInduction =>
      rcases run : (inferExpr env value).run supply with ⟨⟨outcome, events⟩, rest⟩
      cases outcome with
      | error error =>
          rw [visits_letIn_of_error run]
          exact valueError _ _ _ _ _ _ (valueInduction env supply)
      | ok ofValue =>
          have valueRun := infers_of_run run
          rw [valueRun.visits_letIn]
          exact letIn _ _ _ _ _ _ _ _ _ _ valueRun (valueInduction env supply)
            (bodyInduction _ rest)

theorem Env.visits_observe (env : Env) (expr : Expr) (supply : Supply) :
    (env.observe expr).visits supply =
      (observeExpr env expr).visits (supply.reserve env.mentioned) :=
  Observed.visits_bind_of_ok (Inference.run_reserve env.mentioned supply)

/-- The visits of `curriedLet`.  The last substitution puts a variable in for the one that is
free in `numberedEnv`. -/
theorem visits_curriedLet :
    (numberedEnv.observe curriedLet).visits {} =
      [.call numberedEnv, .call numberedEnv, .substitution numberedEnv ∅,
        .substitution curriedEnv ∅, .call curriedEnv, .call curriedEnv, .call curriedEnv,
        .substitution curriedEnv ∅, .call curriedEnv,
        .substitution curriedEnv (.ofList [("t0", .var "t4"), ("t3", .bool)]),
        .call (.ofList [("f", ⟨["t1"], .arrow (.var "t1") (.var "t4")⟩),
          ("g", ⟨["t2"], .arrow (.var "t2") (.var "t4")⟩)])] := by
  obtain ⟨_, _, ofValue⟩ := arrives_curriedLet_value
  obtain ⟨_, _, ofFunc⟩ := arrives_curriedLet_func
  obtain ⟨_, _, first⟩ := arrives_curriedLet_first
  have generalized : numberedEnv.insert "g"
      ((numberedEnv.subst ∅).generalize (.arrow (.var "t2") (.var "t0"))) = curriedEnv := by
    decide +kernel
  have refined : curriedEnv.subst (.ofList [("t0", .var "t4"), ("t3", .bool)]) =
      .ofList [("f", ⟨["t1"], .arrow (.var "t1") (.var "t4")⟩),
        ("g", ⟨["t2"], .arrow (.var "t2") (.var "t4")⟩)] := by
    decide +kernel
  rw [Env.visits_observe]
  show (observeExpr numberedEnv curriedLet).visits (numberedSupply 0) = _
  rw [curriedLet, ofValue.visits_letIn, visits_var, generalized, Env.subst_empty,
    first.visits_app, ofFunc.visits_app, visits_var, visits_lit, visits_lit, Env.subst_empty,
    refined]
  rfl

/-! ## Safety -/

/-- A `let` may substitute in an environment that already has the generalized
scheme: the substitution leaves the type of the value alone. -/
theorem Typing.Confined.captureFree_insert_generalize {typing : Typing} {env : Env}
    {before after : Supply} (confined : typing.Confined env before after)
    (captureFree : env.CaptureFree typing.subst) (name : Var) :
    (env.insert name ((env.subst typing.subst).generalize typing.ty)).CaptureFree
      typing.subst := by
  intro var scheme found
  rw [Env.find?_insert] at found
  split at found
  · cases found
    intro free freeMember quantifiedName quantified inImage
    have inTy := (Env.mem_freeVars_generalize.mp freeMember).1
    rw [Subst.apply_var_of_not_binds (confined.settled free inTy), Ty.mem_vars_var] at inImage
    exact (Scheme.mem_freeVars.mp freeMember).2 (inImage ▸ quantified)
  · exact captureFree var scheme found

theorem observeExpr_safe {env : Env} {supply : Supply} (ready : env.Ready supply) (expr : Expr) :
    ∀ visit ∈ (observeExpr env expr).visits supply, visit.Safe := by
  revert ready
  induction env, supply, expr using visits_induction with
  | lit env supply literal =>
      exact fun ready => List.forall_mem_singleton.mpr ready.wellScoped
  | var env supply name =>
      exact fun ready => List.forall_mem_singleton.mpr ready.wellScoped
  | abs env supply param body visits bodyInduction =>
      exact fun ready => List.forall_mem_cons.mpr
        ⟨ready.wellScoped, bodyInduction (ready.insert_fresh param)⟩
  | funcError env supply func arg visits funcInduction =>
      exact fun ready => List.forall_mem_cons.mpr ⟨ready.wellScoped, funcInduction ready⟩
  | app env supply func arg ofFunc events rest visits more funcRun funcInduction argInduction =>
      intro ready
      have captureFree := ready.captureFree funcRun
      have later := argInduction (ready.subst funcRun)
      exact List.forall_mem_cons.mpr ⟨ready.wellScoped, List.forall_mem_append.mpr
        ⟨funcInduction ready, List.forall_mem_cons.mpr ⟨captureFree, later⟩⟩⟩
  | valueError env supply name value body visits valueInduction =>
      exact fun ready => List.forall_mem_cons.mpr ⟨ready.wellScoped, valueInduction ready⟩
  | letIn env supply name value body ofValue events rest visits more valueRun valueInduction
      bodyInduction =>
      intro ready
      have confined := ready.confined valueRun
      have captureFree := ready.captureFree valueRun
      have captureFreeInsert := confined.captureFree_insert_generalize captureFree name
      have readyBody := ready.insert_generalize valueRun name
      rw [← confined.insert_generalize] at readyBody
      exact List.forall_mem_cons.mpr ⟨ready.wellScoped, List.forall_mem_append.mpr
        ⟨valueInduction ready, List.forall_mem_cons.mpr
          ⟨captureFree, List.forall_mem_cons.mpr
            ⟨captureFreeInsert, bodyInduction readyBody⟩⟩⟩⟩

/-- No run captures a variable.  From a well-scoped environment, every environment
that a run meets is well-scoped, and every substitution that it carries out in one is
capture-free. -/
theorem infer_visits_safe (env : Env) (wellScoped : env.WellScoped) (expr : Expr)
    (supply : Supply) :
    (env.observe expr).action = env.infer expr ∧
      (∀ met, .call met ∈ (env.observe expr).visits supply → met.WellScoped) ∧
      ∀ met subst, .substitution met subst ∈ (env.observe expr).visits supply →
        met.CaptureFree subst := by
  have safe := observeExpr_safe (.reserve wellScoped supply) expr
  rw [Env.visits_observe]
  refine ⟨?_, fun met visited => safe _ visited, fun met subst visited => safe _ visited⟩
  rw [Env.infer, ← action_observeExpr]
  rfl

theorem infer_visits_safe_numberedEnv :
    .substitution numberedEnv ∅ ∈ (numberedEnv.observe curriedLet).visits {} ∧
      .substitution curriedEnv (.ofList [("t0", .var "t4"), ("t3", .bool)]) ∈
        (numberedEnv.observe curriedLet).visits {} ∧
      numberedEnv.WellScoped ∧
      (∀ met, .call met ∈ (numberedEnv.observe curriedLet).visits {} → met.WellScoped) ∧
      ∀ met subst, .substitution met subst ∈ (numberedEnv.observe curriedLet).visits {} →
        met.CaptureFree subst := by
  refine ⟨?_, ?_, numberedEnv_wellScoped,
    (infer_visits_safe numberedEnv numberedEnv_wellScoped curriedLet {}).2⟩
  · simp [visits_curriedLet]
  · simp [visits_curriedLet]

/-! ## Visits and derivations -/

/-- The environment of a call. -/
def Visit.called? : Visit → Option Env
  | call env => some env
  | substitution _ _ => none

/-- The environments of the calls among visits. -/
def calls (visits : List Visit) : List Env :=
  visits.filterMap Visit.called?

theorem calls_call (env : Env) (visits : List Visit) :
    calls (.call env :: visits) = env :: calls visits := rfl

theorem calls_substitution (env : Env) (subst : Subst) (visits : List Visit) :
    calls (.substitution env subst :: visits) = calls visits := rfl

theorem calls_append (visits more : List Visit) :
    calls (visits ++ more) = calls visits ++ calls more :=
  List.filterMap_append

/-- An expression, and then its parts and theirs, in the order in which they are written. -/
def Expr.inOrder : Expr → List Expr
  | var name => [.var name]
  | abs param body => .abs param body :: body.inOrder
  | app func arg => .app func arg :: (func.inOrder ++ arg.inOrder)
  | letIn name value body => .letIn name value body :: (value.inOrder ++ body.inOrder)
  | lit value => [.lit value]

namespace Derivation

mutual

/-- The inputs of the nodes of a derivation, each before those of its premises. -/
def inputs : Derivation → List String
  | node _ input _ premises => input :: inputsOfAll premises

/-- The inputs of several derivations, one after the other. -/
def inputsOfAll : List Derivation → List String
  | [] => []
  | derivation :: remaining => inputs derivation ++ inputsOfAll remaining

end

theorem inputs_typing (rule : Rule) (env : Env) (expr : Expr) (ty : Ty)
    (premises : List Derivation) :
    (typing rule env expr ty premises).inputs =
      typingInput env expr :: inputsOfAll premises := by
  rw [typing, inputs]

end Derivation

/-- The calls of a successful run are the typings of its derivation, in order. -/
theorem Infers.inputs_eq_calls {env : Env} {expr : Expr} {supply rest : Supply} {typing : Typing}
    {events : List Event} (infers : Infers env expr supply typing events rest) :
    (calls ((observeExpr env expr).visits supply)).length = expr.inOrder.length ∧
      typing.derivation.typingsOnly.inputs =
        List.zipWith Derivation.typingInput (calls ((observeExpr env expr).visits supply))
          expr.inOrder := by
  induction infers with
  | @lit env value supply =>
      have different : value.rule ≠ .app := by
        cases value <;> simp [Lit.rule]
      rw [Typing.ofLit, Derivation.typingsOnly_of_ne different, Derivation.inputs_typing,
        visits_lit]
      exact ⟨rfl, rfl⟩
  | var found =>
      rw [Typing.ofVar, Derivation.typingsOnly_of_ne (by decide), Derivation.inputs_typing,
        visits_var]
      exact ⟨rfl, rfl⟩
  | abs body bodyInduction =>
      obtain ⟨sameLength, inputs⟩ := bodyInduction
      rw [Typing.ofAbs, Derivation.typingsOnly_of_ne (by decide), Derivation.inputs_typing,
        visits_abs, calls_call]
      simp [Expr.inOrder, Derivation.typingsOnlyOfAll, Derivation.inputsOfAll, sameLength, inputs]
  | app func arg unified funcInduction argInduction =>
      obtain ⟨funcLength, funcInputs⟩ := funcInduction
      obtain ⟨argLength, argInputs⟩ := argInduction
      rw [Typing.ofApp, Derivation.typingsOnly_app, Derivation.inputs_typing, func.visits_app,
        calls_call, calls_append, calls_substitution]
      simp [Expr.inOrder, Derivation.inputsOfAll, funcLength, argLength, funcInputs, argInputs,
        List.zipWith_append]
  | letIn value body valueInduction bodyInduction =>
      obtain ⟨valueLength, valueInputs⟩ := valueInduction
      obtain ⟨bodyLength, bodyInputs⟩ := bodyInduction
      rw [Typing.ofLet, Derivation.typingsOnly_of_ne (by decide), Derivation.inputs_typing,
        value.visits_letIn, calls_call, calls_append, calls_substitution, calls_substitution]
      simp [Expr.inOrder, Derivation.typingsOnlyOfAll, Derivation.inputsOfAll, valueLength,
        bodyLength, valueInputs, bodyInputs, List.zipWith_append]

/-! ## From one visit to the next -/

/-- What may follow a visit.  The environment of a call is that of the call before, with a
parameter, or what the substitution just visited makes. -/
inductive Visit.Leads : Visit → Visit → Prop where
  | part {env : Env} : Leads (.call env) (.call env)
  | param {env : Env} {param : Var} {name : TyVar} :
      Leads (.call env) (.call (env.insert param (.mono (.var name))))
  | refine {env met : Env} {subst : Subst} : Leads (.call env) (.substitution met subst)
  | refined {env : Env} {subst : Subst} :
      Leads (.substitution env subst) (.call (env.subst subst))
  | generalized {env : Env} {subst : Subst} {name : Var} {ty : Ty} :
      Leads (.substitution env subst)
        (.substitution (env.insert name ((env.subst subst).generalize ty)) subst)

/-- Visits from a given one to a call, each of which leads to the next. -/
structure Course (start : Visit) (visits : List Visit) : Prop where
  starts : visits.head? = some start
  ends : ∃ env, visits.getLast? = some (.call env)
  linked : visits.IsChain Visit.Leads

namespace Course

variable {start : Visit} {visits more : List Visit}

theorem call (env : Env) : Course (.call env) [.call env] :=
  ⟨rfl, ⟨env, rfl⟩, List.isChain_singleton _⟩

theorem cons {first : Visit} (course : Course start visits) (leads : first.Leads start) :
    Course first (first :: visits) := by
  obtain ⟨env, last⟩ := course.ends
  refine ⟨rfl, ⟨env, ?_⟩, course.linked.cons ?_⟩
  · rw [List.getLast?_cons, last, Option.getD_some]
  · intro next isHead
    rw [course.starts] at isHead
    cases isHead
    exact leads

/-- A course ends in a call, so a substitution may follow. -/
theorem append {env : Env} {subst : Subst} (course : Course start visits)
    (later : Course (.substitution env subst) more) : Course start (visits ++ more) := by
  obtain ⟨met, last⟩ := course.ends
  obtain ⟨final, laterLast⟩ := later.ends
  refine ⟨?_, ⟨final, ?_⟩, course.linked.append later.linked ?_⟩
  · rw [List.head?_append, course.starts, Option.some_or]
  · rw [List.getLast?_append, laterLast, Option.some_or]
  · intro before isLast after isHead
    rw [last] at isLast
    rw [later.starts] at isHead
    cases isLast
    cases isHead
    exact .refine

end Course

/-- The visits of every run, failing ones included, lead from one to the next. -/
theorem observeExpr_course (env : Env) (supply : Supply) (expr : Expr) :
    Course (.call env) ((observeExpr env expr).visits supply) := by
  induction env, supply, expr using visits_induction with
  | lit env supply literal => exact .call env
  | var env supply name => exact .call env
  | abs env supply param body visits bodyInduction => exact bodyInduction.cons .param
  | funcError env supply func arg visits funcInduction => exact funcInduction.cons .part
  | app env supply func arg ofFunc events rest visits more funcRun funcInduction argInduction =>
      exact (funcInduction.append (argInduction.cons .refined)).cons .part
  | valueError env supply name value body visits valueInduction =>
      exact valueInduction.cons .part
  | letIn env supply name value body ofValue events rest visits more valueRun valueInduction
      bodyInduction =>
      have later := (bodyInduction.cons .refined).cons .generalized
      exact (valueInduction.append later).cons .part

/-- The visits are those of the run.  It starts with a call in the given environment, and from
one call to the next the environment changes only by a parameter or by the substitutions
visited in between.  Where it succeeds, its calls are the typings of its derivation, in
order. -/
theorem Env.observe_follows_run (env : Env) (expr : Expr) (supply : Supply) :
    ((env.observe expr).visits supply).head? = some (.call env) ∧
    ((env.observe expr).visits supply).IsChain Visit.Leads ∧
    ∀ typing, ((env.infer expr).run supply).1.outcome = .ok typing →
      (calls ((env.observe expr).visits supply)).length = expr.inOrder.length ∧
        typing.derivation.typingsOnly.inputs =
          List.zipWith Derivation.typingInput (calls ((env.observe expr).visits supply))
            expr.inOrder := by
  rw [Env.visits_observe]
  have course := observeExpr_course env (supply.reserve env.mentioned) expr
  refine ⟨course.starts, course.linked, fun typing success => ?_⟩
  obtain ⟨events, rest, infers⟩ := Env.infers_of_infer_ok success
  exact infers.inputs_eq_calls

end LetPoly
