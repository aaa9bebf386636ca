import LetPoly.Infer
import LetPoly.Proofs.Instantiation
import LetPoly.Proofs.Unification

/-!
# Successful runs

`Infers env expr supply typing events rest` says that inference of an expression
succeeds: from a supply it arrives at a typing, having reported events, and leaves
the rest of the supply.  The rules are those of the algorithm, one for each form
of expression, with the runs of the parts as premises.  `inferExpr_run_iff` proves
the relation equal to the successful outcomes of `inferExpr`, so an induction over
`Infers` is an induction over the runs of the program.

`Typing.ofApp` and its siblings name the answer that each rule makes out of the
answers for the parts.

`Arrives` is the same relation without the records of a run.  Its rules take what a
rule computes as equations, so that a run on given values is worked out part by part.
-/

namespace LetPoly

/-! ## Running computations -/

namespace Inference

variable {α β : Type}

theorem run_fresh (supply : Supply) :
    fresh.run supply = (⟨.ok supply.fresh.1, []⟩, supply.fresh.2) := rfl

theorem run_report (event : Event) (supply : Supply) :
    (report event).run supply = (⟨.ok (), [event]⟩, supply) := rfl

theorem run_reserve (names : NameSet) (supply : Supply) :
    (reserve names).run supply = (⟨.ok (), []⟩, supply.reserve names) := rfl

theorem run_monadLift (traced : Traced α) (supply : Supply) :
    (monadLift traced : Inference α).run supply = (traced, supply) := rfl

/-- A computation in sequence with another runs on when the first one succeeds. -/
theorem run_bind_of_ok {action : Inference α} {next : α → Inference β} {supply middle : Supply}
    {value : α} {events : List Event}
    (first : action.run supply = (⟨.ok value, events⟩, middle)) :
    (action >>= next).run supply =
      (⟨((next value).run middle).1.outcome, events ++ ((next value).run middle).1.events⟩,
        ((next value).run middle).2) := by
  unfold run at *
  simp only [bind, first]

theorem run_bind_of_error {action : Inference α} {next : α → Inference β}
    {supply middle : Supply} {error : TypeError} {events : List Event}
    (first : action.run supply = (⟨.error error, events⟩, middle)) :
    (action >>= next).run supply = (⟨.error error, events⟩, middle) := by
  unfold run at *
  simp only [bind, first]

/-- A sequence succeeds when both parts do. -/
theorem run_bind_eq_ok {action : Inference α} {next : α → Inference β} {supply rest : Supply}
    {value : β} {events : List Event} :
    (action >>= next).run supply = (⟨.ok value, events⟩, rest) ↔
      ∃ middleValue firstEvents middle moreEvents,
        action.run supply = (⟨.ok middleValue, firstEvents⟩, middle) ∧
        (next middleValue).run middle = (⟨.ok value, moreEvents⟩, rest) ∧
        firstEvents ++ moreEvents = events := by
  constructor
  · intro success
    rcases first : action.run supply with ⟨⟨outcome, firstEvents⟩, middle⟩
    cases outcome with
    | error error =>
        rw [run_bind_of_error first] at success
        cases success
    | ok middleValue =>
        rw [run_bind_of_ok first] at success
        rcases second : (next middleValue).run middle with ⟨⟨outcome, moreEvents⟩, last⟩
        rw [second] at success
        cases success
        exact ⟨middleValue, firstEvents, middle, moreEvents, rfl, second, rfl⟩
  · rintro ⟨middleValue, firstEvents, middle, moreEvents, first, second, rfl⟩
    rw [run_bind_of_ok first, second]

end Inference

/-! ## The answers of the rules -/

namespace Typing

/-- The typing of a literal. -/
def ofLit (env : Env) (value : Lit) : Typing :=
  ⟨value.ty, ∅, .typing value.rule env (.lit value) value.ty []⟩

/-- The typing of a variable at an instance of its scheme. -/
def ofVar (env : Env) (name : Var) (ty : Ty) : Typing :=
  ⟨ty, ∅, .typing .var env (.var name) ty []⟩

/-- The typing of an abstraction from the one of its body. -/
def ofAbs (env : Env) (param : Var) (body : Expr) (paramTy : Ty) (inBody : Typing) : Typing :=
  let ty := Ty.arrow (inBody.subst.apply paramTy) inBody.ty
  ⟨ty, inBody.subst, .typing .abs env (.abs param body) ty [inBody.derivation]⟩

/-- The typing of an application from those of its sides and a solution of the
equation between them. -/
def ofApp (env : Env) (func arg : Expr) (resultTy : Ty) (ofFunc ofArg : Typing)
    (unifier : Unifier) : Typing :=
  let ty := unifier.subst.apply resultTy
  ⟨ty, unifier.subst.comp (ofArg.subst.comp ofFunc.subst),
    .typing .app env (.app func arg) ty
      [ofFunc.derivation, ofArg.derivation, unifier.derivation]⟩

/-- The typing of a `let` from those of its value and its body. -/
def ofLet (env : Env) (name : Var) (value body : Expr) (ofValue inBody : Typing) : Typing :=
  ⟨inBody.ty, inBody.subst.comp ofValue.subst,
    .typing .letIn env (.letIn name value body) inBody.ty
      [ofValue.derivation, inBody.derivation]⟩

end Typing

/-- What taking the fresh instance of a scheme reports. -/
def Scheme.instantiationEvents (scheme : Scheme) (supply : Supply) : List Event :=
  if scheme.vars.isEmpty then [] else [.instantiated scheme (scheme.freshSubst supply).1]

theorem Scheme.run_instantiate (scheme : Scheme) (supply : Supply) :
    scheme.instantiate.run supply =
      (⟨.ok (scheme.freshInstance supply), scheme.instantiationEvents supply⟩,
        (scheme.freshSubst supply).2) := rfl

/-! ## The relation -/

/-- Inference of an expression in an environment succeeds. -/
inductive Infers : Env → Expr → Supply → Typing → List Event → Supply → Prop where
  | lit {env : Env} {value : Lit} {supply : Supply} :
      Infers env (.lit value) supply (.ofLit env value) [] supply
  | var {env : Env} {name : Var} {scheme : Scheme} {supply : Supply} :
      env.find? name = some scheme →
      Infers env (.var name) supply (.ofVar env name (scheme.freshInstance supply))
        (scheme.instantiationEvents supply ++
          [.typed .var (.var name) (scheme.freshInstance supply)])
        (scheme.freshSubst supply).2
  | abs {env : Env} {param : Var} {body : Expr} {supply rest : Supply} {inBody : Typing}
      {events : List Event} :
      Infers (env.insert param (.mono (.var supply.fresh.1))) body supply.fresh.2 inBody
        events rest →
      Infers env (.abs param body) supply
        (.ofAbs env param body (.var supply.fresh.1) inBody)
        (events ++ [.typed .abs (.abs param body)
          (.arrow (inBody.subst.apply (.var supply.fresh.1)) inBody.ty)])
        rest
  | app {env : Env} {func arg : Expr} {supply afterFunc afterArg : Supply}
      {ofFunc ofArg : Typing} {unifier : Unifier}
      {funcEvents argEvents unifyEvents : List Event} :
      Infers env func supply ofFunc funcEvents afterFunc →
      Infers (env.subst ofFunc.subst) arg afterFunc ofArg argEvents afterArg →
      unify (ofArg.subst.apply ofFunc.ty) (.arrow ofArg.ty (.var afterArg.fresh.1)) =
        ⟨.ok unifier, unifyEvents⟩ →
      Infers env (.app func arg) supply
        (.ofApp env func arg (.var afterArg.fresh.1) ofFunc ofArg unifier)
        (funcEvents ++ (argEvents ++ (unifyEvents ++ [.typed .app (.app func arg)
          (unifier.subst.apply (.var afterArg.fresh.1))])))
        afterArg.fresh.2
  | letIn {env : Env} {name : Var} {value body : Expr} {supply afterValue rest : Supply}
      {ofValue inBody : Typing} {valueEvents bodyEvents : List Event} :
      Infers env value supply ofValue valueEvents afterValue →
      Infers
        ((env.insert name ((env.subst ofValue.subst).generalize ofValue.ty)).subst
          ofValue.subst)
        body afterValue inBody bodyEvents rest →
      Infers env (.letIn name value body) supply
        (.ofLet env name value body ofValue inBody)
        (valueEvents ++ (.generalized name
          ((env.subst ofValue.subst).generalize ofValue.ty) :: bodyEvents))
        rest

theorem Infers.run_eq {env : Env} {expr : Expr} {supply rest : Supply} {typing : Typing}
    {events : List Event} (infers : Infers env expr supply typing events rest) :
    (inferExpr env expr).run supply = (⟨.ok typing, events⟩, rest) := by
  induction infers with
  | lit => rfl
  | @var env name scheme supply found =>
      rw [inferExpr, found]
      exact Inference.run_bind_eq_ok.mpr
        ⟨_, _, _, _, scheme.run_instantiate supply, rfl, rfl⟩
  | abs _ bodyInduction =>
      rw [inferExpr]
      refine Inference.run_bind_eq_ok.mpr ⟨_, _, _, _, Inference.run_fresh _, ?_, rfl⟩
      exact Inference.run_bind_eq_ok.mpr ⟨_, _, _, _, bodyInduction, rfl, rfl⟩
  | app _ _ unified funcInduction argInduction =>
      rw [inferExpr]
      refine Inference.run_bind_eq_ok.mpr ⟨_, _, _, _, funcInduction, ?_, rfl⟩
      refine Inference.run_bind_eq_ok.mpr ⟨_, _, _, _, argInduction, ?_, rfl⟩
      refine Inference.run_bind_eq_ok.mpr ⟨_, _, _, _, Inference.run_fresh _, ?_, rfl⟩
      refine Inference.run_bind_eq_ok.mpr
        ⟨_, _, _, _, (Inference.run_monadLift _ _).trans ?_, rfl, rfl⟩
      rw [unified]
      rfl
  | letIn _ _ valueInduction bodyInduction =>
      rw [inferExpr]
      refine Inference.run_bind_eq_ok.mpr ⟨_, _, _, _, valueInduction, ?_, rfl⟩
      refine Inference.run_bind_eq_ok.mpr ⟨_, _, _, _, Inference.run_report _ _, ?_, rfl⟩
      exact Inference.run_bind_eq_ok.mpr ⟨_, _, _, _, bodyInduction, rfl, List.append_nil _⟩

theorem infers_of_run {env : Env} {expr : Expr} {supply rest : Supply} {typing : Typing}
    {events : List Event}
    (success : (inferExpr env expr).run supply = (⟨.ok typing, events⟩, rest)) :
    Infers env expr supply typing events rest := by
  induction expr generalizing env supply typing events rest with
  | var name =>
      rw [inferExpr] at success
      cases found : env.find? name with
      | none =>
          rw [found] at success
          cases success
      | some scheme =>
          rw [found] at success
          obtain ⟨ty, instanceEvents, middle, moreEvents, instantiated, second, rfl⟩ :=
            Inference.run_bind_eq_ok.mp success
          cases instantiated
          cases second
          exact .var found
  | abs param body bodyInduction =>
      rw [inferExpr] at success
      obtain ⟨name, freshEvents, middle, moreEvents, drawn, second, rfl⟩ :=
        Inference.run_bind_eq_ok.mp success
      cases drawn
      obtain ⟨inBody, bodyEvents, afterBody, lastEvents, bodyRun, third, rfl⟩ :=
        Inference.run_bind_eq_ok.mp second
      cases third
      exact .abs (bodyInduction bodyRun)
  | app func arg funcInduction argInduction =>
      rw [inferExpr] at success
      obtain ⟨ofFunc, funcEvents, afterFunc, moreEvents, funcRun, second, rfl⟩ :=
        Inference.run_bind_eq_ok.mp success
      obtain ⟨ofArg, argEvents, afterArg, moreEvents, argRun, third, rfl⟩ :=
        Inference.run_bind_eq_ok.mp second
      obtain ⟨name, freshEvents, afterFresh, moreEvents, drawn, fourth, rfl⟩ :=
        Inference.run_bind_eq_ok.mp third
      cases drawn
      obtain ⟨unifier, unifyEvents, afterUnify, moreEvents, unifyRun, last, rfl⟩ :=
        Inference.run_bind_eq_ok.mp fourth
      rw [Inference.run_monadLift, Prod.mk.injEq] at unifyRun
      obtain ⟨unified, rfl⟩ := unifyRun
      cases last
      exact .app (funcInduction funcRun) (argInduction argRun) unified
  | letIn name value body valueInduction bodyInduction =>
      rw [inferExpr] at success
      obtain ⟨ofValue, valueEvents, afterValue, moreEvents, valueRun, second, rfl⟩ :=
        Inference.run_bind_eq_ok.mp success
      obtain ⟨_, reportEvents, afterReport, moreEvents, reported, third, rfl⟩ :=
        Inference.run_bind_eq_ok.mp second
      cases reported
      obtain ⟨inBody, bodyEvents, afterBody, lastEvents, bodyRun, last, rfl⟩ :=
        Inference.run_bind_eq_ok.mp third
      cases last
      rw [List.append_nil]
      exact .letIn (valueInduction valueRun) (bodyInduction bodyRun)
  | lit value =>
      cases success
      exact .lit

/-- The relation holds exactly of the successful runs. -/
theorem inferExpr_run_iff {env : Env} {expr : Expr} {supply rest : Supply} {typing : Typing}
    {events : List Event} :
    (inferExpr env expr).run supply = (⟨.ok typing, events⟩, rest) ↔
      Infers env expr supply typing events rest :=
  ⟨infers_of_run, Infers.run_eq⟩

/-- A run of the entry point is a run in which the variables of the environment are
reserved first. -/
theorem Env.run_infer (env : Env) (expr : Expr) (supply : Supply) :
    (env.infer expr).run supply = (inferExpr env expr).run (supply.reserve env.mentioned) := by
  rw [Env.infer, Inference.run_bind_of_ok (Inference.run_reserve _ _)]
  rfl

/-- A successful outcome of the entry point comes from a successful run. -/
theorem Env.infers_of_infer_ok {env : Env} {expr : Expr} {supply : Supply} {typing : Typing}
    (success : ((env.infer expr).run supply).1.outcome = .ok typing) :
    ∃ events rest,
      Infers env expr (supply.reserve env.mentioned) typing events rest := by
  rw [Env.run_infer] at success
  rcases run : (inferExpr env expr).run (supply.reserve env.mentioned) with
    ⟨⟨outcome, events⟩, rest⟩
  rw [run] at success
  cases success
  exact ⟨events, rest, infers_of_run run⟩

/-! ## Answers without records -/

/-- Inference of an expression arrives at a type and a substitution, whatever it records. -/
def Arrives (env : Env) (expr : Expr) (supply : Supply) (ty : Ty) (subst : Subst)
    (rest : Supply) : Prop :=
  ∃ derivation events, Infers env expr supply ⟨ty, subst, derivation⟩ events rest

namespace Arrives

variable {env : Env} {supply rest : Supply} {ty : Ty} {subst : Subst}

theorem lit (value : Lit) : Arrives env (.lit value) supply value.ty ∅ supply :=
  ⟨_, _, .lit⟩

theorem var {name : Var} {scheme : Scheme} (found : env.find? name = some scheme)
    (drawn : (scheme.freshInstance supply, (scheme.freshSubst supply).2) = (ty, rest)) :
    Arrives env (.var name) supply ty ∅ rest := by
  obtain ⟨rfl, rfl⟩ := Prod.mk.inj drawn
  exact ⟨_, _, .var found⟩

theorem abs {param : Var} {body : Expr} {name : TyVar} {afterParam : Supply} {bodyTy : Ty}
    (drawn : supply.fresh = (name, afterParam))
    (inBody : Arrives (env.insert param (.mono (.var name))) body afterParam bodyTy subst rest)
    (answer : .arrow (subst.apply (.var name)) bodyTy = ty) :
    Arrives env (.abs param body) supply ty subst rest := by
  obtain ⟨_, _, infers⟩ := inBody
  obtain ⟨rfl, rfl⟩ := Prod.mk.inj drawn
  subst answer
  exact ⟨_, _, .abs infers⟩

theorem app {func arg : Expr} {funcTy argTy left right : Ty} {funcSubst argSubst : Subst}
    {afterFunc afterArg : Supply} {unifier : Unifier} {events : List Event}
    (ofFunc : Arrives env func supply funcTy funcSubst afterFunc)
    (ofArg : Arrives (env.subst funcSubst) arg afterFunc argTy argSubst afterArg)
    (solved : Solves left right unifier events)
    (equation : (argSubst.apply funcTy, Ty.arrow argTy (.var afterArg.fresh.1)) = (left, right))
    (answer : (unifier.subst.apply (.var afterArg.fresh.1), afterArg.fresh.2) = (ty, rest)) :
    Arrives env (.app func arg) supply ty (unifier.subst.comp (argSubst.comp funcSubst))
      rest := by
  obtain ⟨_, _, funcInfers⟩ := ofFunc
  obtain ⟨_, _, argInfers⟩ := ofArg
  rw [Prod.mk.injEq] at equation answer
  obtain ⟨rfl, rfl⟩ := equation
  obtain ⟨rfl, rfl⟩ := answer
  have infers := Infers.app funcInfers argInfers solved.run_eq
  exact ⟨_, _, infers⟩

theorem letIn {name : Var} {value body : Expr} {valueTy : Ty} {valueSubst bodySubst : Subst}
    {afterValue : Supply} {extended : Env}
    (ofValue : Arrives env value supply valueTy valueSubst afterValue)
    (generalized : (env.insert name ((env.subst valueSubst).generalize valueTy)).subst
      valueSubst = extended)
    (inBody : Arrives extended body afterValue ty bodySubst rest) :
    Arrives env (.letIn name value body) supply ty (bodySubst.comp valueSubst) rest := by
  obtain ⟨_, _, valueInfers⟩ := ofValue
  obtain ⟨_, _, bodyInfers⟩ := inBody
  subst generalized
  exact ⟨_, _, .letIn valueInfers bodyInfers⟩

section

variable {func arg : Expr} {funcTy argTy : Ty} {funcSubst argSubst : Subst}
  {afterFunc afterArg : Supply} {name : TyVar}

/-- A function whose type is a variable is applied. -/
theorem app_of_var {head : TyVar} (ofFunc : Arrives env func supply funcTy funcSubst afterFunc)
    (ofArg : Arrives (env.subst funcSubst) arg afterFunc argTy argSubst afterArg)
    (drawn : afterArg.fresh = (name, rest)) (refined : argSubst.apply funcTy = .var head)
    (absent : head ∉ (Ty.arrow argTy (.var name)).vars) :
    Arrives env (.app func arg) supply (.var name)
      ((Subst.singleton head (.arrow argTy (.var name))).comp (argSubst.comp funcSubst))
      rest := by
  have different : name ≠ head := by
    rintro rfl
    exact absent (by simp)
  refine .app ofFunc ofArg (.bindLeft absent) ?_ ?_
  · rw [refined, drawn]
  · rw [drawn]
    simp [Unifier.binding, Subst.apply, different]

/-- A function from one variable to another is applied. -/
theorem app_of_arrow {param result : TyVar}
    (ofFunc : Arrives env func supply funcTy funcSubst afterFunc)
    (ofArg : Arrives (env.subst funcSubst) arg afterFunc argTy argSubst afterArg)
    (drawn : afterArg.fresh = (name, rest))
    (refined : argSubst.apply funcTy = .arrow (.var param) (.var result))
    (absent : param ∉ argTy.vars) (distinct : [name, result, param].Nodup) :
    Arrives env (.app func arg) supply (.var name)
      (((Subst.singleton result (.var name)).comp (.singleton param argTy)).comp
        (argSubst.comp funcSubst)) rest := by
  simp only [List.nodup_cons, List.mem_cons, List.not_mem_nil, not_or, or_false] at distinct
  obtain ⟨⟨notResult, notParam⟩, resultNotParam, _⟩ := distinct
  have domains : Solves (.var param) argTy _ _ := .bindLeft absent
  have codomains : Solves (.var result) (.var name) _ _ :=
    .bindLeft (by simpa using Ne.symm notResult)
  refine .app ofFunc ofArg (domains.arrow_of_eq codomains ?_ ?_)
    (by rw [refined, drawn]) ?_
  · simp [Unifier.binding, Subst.apply, resultNotParam]
  · simp [Unifier.binding, Subst.apply, notParam]
  · rw [drawn]
    simp [Unifier.arrow, Unifier.binding, Subst.apply, notParam, notResult]

/-- An identity is applied. -/
theorem app_of_identity {param : TyVar}
    (ofFunc : Arrives env func supply funcTy funcSubst afterFunc)
    (ofArg : Arrives (env.subst funcSubst) arg afterFunc argTy argSubst afterArg)
    (drawn : afterArg.fresh = (name, rest))
    (refined : argSubst.apply funcTy = .arrow (.var param) (.var param))
    (notVar : ∀ other, argTy ≠ .var other)
    (absent : param ∉ argTy.vars ∧ name ∉ argTy.vars) (different : name ≠ param) :
    Arrives env (.app func arg) supply argTy
      (((Subst.singleton name argTy).comp (.singleton param argTy)).comp
        (argSubst.comp funcSubst)) rest := by
  have domains : Solves (.var param) argTy _ _ := .bindLeft absent.1
  have codomains : Solves argTy (.var name) _ _ := .bindRight notVar absent.2
  refine .app ofFunc ofArg (domains.arrow_of_eq codomains ?_ ?_)
    (by rw [refined, drawn]) ?_
  · exact Subst.apply_singleton_self param argTy
  · simp [Unifier.binding, Subst.apply, different]
  · rw [drawn]
    simp [Unifier.arrow, Unifier.binding, Subst.apply, different]

end

/-- A substitution may be given by its entries. -/
theorem of_toList_eq {expr : Expr} {other : Subst}
    (arrives : Arrives env expr supply ty subst rest) (equal : subst.toList = other.toList) :
    Arrives env expr supply ty other rest :=
  Subst.eq_of_toList_eq equal ▸ arrives

theorem exists_infer_ok {expr : Expr}
    (arrives : Arrives env expr (supply.reserve env.mentioned) ty subst rest) :
    ∃ typing, ((env.infer expr).run supply).1.outcome = .ok typing ∧
      typing.ty = ty ∧ typing.subst = subst := by
  obtain ⟨derivation, events, infers⟩ := arrives
  rw [Env.run_infer, infers.run_eq]
  exact ⟨_, rfl, rfl, rfl⟩

end Arrives

end LetPoly
