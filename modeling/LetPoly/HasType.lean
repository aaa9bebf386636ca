import LetPoly.Env
import LetPoly.Expr

/-!
# The typing relation

`HasType env expr ty` is the declarative type system that inference decides: a
variable has every instance of its scheme, and a `let` generalizes the type of
its value in the environment at hand.

The system behaves well for environments in which no quantified variable is also
free (`Env.WellScoped`) and for substitutions that put no quantified variable
under its own quantifier (`Env.CaptureFree`).
-/

namespace LetPoly

/-! ## Instances and scopes -/

/-- A type is an instance of a scheme when types put in for the quantified
variables, all at once, turn the scheme's type into it. -/
def Scheme.Instance (scheme : Scheme) (ty : Ty) : Prop :=
  ∃ subst : Subst,
    (∀ name, name ∉ scheme.vars → subst.find? name = none) ∧ subst.apply scheme.ty = ty

/-- A substitution is capture-free for a scheme when what it puts in for a free
variable mentions no quantified one. -/
def Scheme.CaptureFree (scheme : Scheme) (subst : Subst) : Prop :=
  ∀ free ∈ scheme.freeVars, ∀ name ∈ scheme.vars, name ∉ (subst.apply (.var free)).vars

/-- A substitution is capture-free for an environment when it is so for each of
its schemes. -/
def Env.CaptureFree (env : Env) (subst : Subst) : Prop :=
  ∀ var scheme, env.find? var = some scheme → scheme.CaptureFree subst

/-- An environment is well-scoped when no variable that one of its schemes
quantifies is free in it. -/
def Env.WellScoped (env : Env) : Prop :=
  ∀ var scheme, env.find? var = some scheme → ∀ name ∈ scheme.vars, name ∉ env.freeVars

/-! ## Typing rules -/

/-- An expression has a type in an environment. -/
inductive HasType : Env → Expr → Ty → Prop where
  | lit {env : Env} {value : Lit} : HasType env (.lit value) value.ty
  | var {env : Env} {name : Var} {scheme : Scheme} {ty : Ty} :
      env.find? name = some scheme →
      scheme.Instance ty →
      HasType env (.var name) ty
  | abs {env : Env} {param : Var} {body : Expr} {domain codomain : Ty} :
      HasType (env.insert param (.mono domain)) body codomain →
      HasType env (.abs param body) (.arrow domain codomain)
  | app {env : Env} {func arg : Expr} {domain codomain : Ty} :
      HasType env func (.arrow domain codomain) →
      HasType env arg domain →
      HasType env (.app func arg) codomain
  | letIn {env : Env} {name : Var} {value body : Expr} {valueTy ty : Ty} :
      HasType env value valueTy →
      HasType (env.insert name (env.generalize valueTy)) body ty →
      HasType env (.letIn name value body) ty

end LetPoly
