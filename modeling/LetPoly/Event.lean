import LetPoly.Derivation
import LetPoly.TypeError

/-!
# Events

What a run reports on its way, in the order in which it happens.  An event is
kept as the step that it reports; its level, headline and fields are read off
from it when it is shown.
-/

namespace LetPoly

/-- A reported step. -/
inductive Event where
  /-- A rule gave an expression its type. -/
  | typed (rule : Rule) (expr : Expr) (ty : Ty)
  /-- The value of a `let` was generalized. -/
  | generalized (name : Var) (scheme : Scheme)
  /-- The quantified variables of a scheme were replaced by fresh ones. -/
  | instantiated (scheme : Scheme) (subst : Subst)
  /-- Unification bound a variable. -/
  | bound (name : TyVar) (ty : Ty)
  /-- Inference gave up. -/
  | failed (expr : Expr) (error : TypeError)
deriving DecidableEq

namespace Event

/-- How much an event matters. -/
inductive Level where
  | trace
  | debug
deriving DecidableEq

/-- The label of a level. -/
def Level.label : Level → String
  | trace => "TRACE"
  | debug => "DEBUG"

/-- Failures matter more than steps. -/
def level : Event → Level
  | failed _ _ => .debug
  | _ => .trace

/-- The headline of an event.  Applications of typing rules have none. -/
def headline : Event → Option String
  | typed _ _ _ => none
  | generalized _ _ => none
  | instantiated _ _ => some "instantiate"
  | bound _ _ => some "bind"
  | failed _ _ => some "type inference failed"

/-- The named fields of an event. -/
def fields : Event → List (String × String)
  | typed rule expr ty => [("rule", rule.label), ("expr", expr.render), ("ty", ty.render)]
  | generalized name scheme =>
      [("rule", Rule.letIn.label), ("var", name), ("scheme", scheme.render)]
  | instantiated scheme subst => [("scheme", scheme.render), ("subst", subst.render)]
  | bound name ty => [("var", name), ("ty", ty.render)]
  | failed expr error => [("expr", expr.render), ("err", error.message)]

end Event

end LetPoly
