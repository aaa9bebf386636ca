import LetPoly.Scheme.Instantiation
import LetPoly.Unify

/-!
# Type inference

`inferExpr env expr` computes a most general typing of an expression: a type for
it, and the substitution that the environment has to undergo for that.  Each
part of an expression is inferred in the environment as refined by the parts
before it, and the substitutions are composed.

`Env.infer` is the entry point.  It first reserves every type variable that the
environment mentions, so that no fresh variable is mistaken for one of them.
`infer`, `inferType` and `derive` start from nothing, and report a failure as
their last event.
-/

namespace LetPoly

/-- The result of inference: the type of an expression, the substitution under
which the environment gives it that type, and the derivation. -/
structure Typing where
  ty : Ty
  subst : Subst
  derivation : Derivation

/-- Infer the type of an expression in an environment. -/
def inferExpr (env : Env) : Expr → Inference Typing
  | .lit value =>
      return ⟨value.ty, ∅, .typing value.rule env (.lit value) value.ty []⟩
  | .var name => do
      let some scheme := env.find? name | .fail (.unboundVariable name)
      let ty ← scheme.instantiate
      .report (.typed .var (.var name) ty)
      return ⟨ty, ∅, .typing .var env (.var name) ty []⟩
  | .abs param body => do
      let paramTy := Ty.var (← .fresh)
      let inBody ← inferExpr (env.insert param (.mono paramTy)) body
      let ty := Ty.arrow (inBody.subst.apply paramTy) inBody.ty
      .report (.typed .abs (.abs param body) ty)
      return ⟨ty, inBody.subst,
        .typing .abs env (.abs param body) ty [inBody.derivation]⟩
  | .app func arg => do
      let ofFunc ← inferExpr env func
      let ofArg ← inferExpr (env.subst ofFunc.subst) arg
      let resultTy := Ty.var (← .fresh)
      let unifier ← unify (ofArg.subst.apply ofFunc.ty) (.arrow ofArg.ty resultTy)
      let ty := unifier.subst.apply resultTy
      .report (.typed .app (.app func arg) ty)
      return ⟨ty, unifier.subst.comp (ofArg.subst.comp ofFunc.subst),
        .typing .app env (.app func arg) ty
          [ofFunc.derivation, ofArg.derivation, unifier.derivation]⟩
  | .letIn name value body => do
      let ofValue ← inferExpr env value
      let scheme := (env.subst ofValue.subst).generalize ofValue.ty
      .report (.generalized name scheme)
      let inBody ← inferExpr ((env.insert name scheme).subst ofValue.subst) body
      return ⟨inBody.ty, inBody.subst.comp ofValue.subst,
        .typing .letIn env (.letIn name value body) inBody.ty
          [ofValue.derivation, inBody.derivation]⟩

/-- Infer the type of an expression in an environment whose type variables no
fresh name may clash with. -/
def Env.infer (env : Env) (expr : Expr) : Inference Typing := do
  .reserve env.mentioned
  inferExpr env expr

/-! ## Closed expressions -/

/-- Infer the type of an expression that stands alone, with names of its own. -/
def infer (expr : Expr) : Traced Typing :=
  let traced := ((∅ : Env).infer expr).run {} |>.1
  match traced.outcome with
  | .ok _ => traced
  | .error error => ⟨.error error, traced.events ++ [.failed expr error]⟩

/-- The type of an expression that stands alone. -/
def inferType (expr : Expr) : Traced Ty :=
  (fun typing => typing.subst.apply typing.ty) <$> infer expr

/-- The derivation of the type of an expression that stands alone. -/
def derive (expr : Expr) : Traced Derivation :=
  Typing.derivation <$> infer expr

end LetPoly
