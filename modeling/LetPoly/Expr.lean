import LetPoly.Ty

/-!
# Expressions

The lambda calculus with integer and boolean literals and a polymorphic `let`.
Binders carry names, and a name may be bound again inside its own scope.
-/

namespace LetPoly

/-- Literal constants. -/
inductive Lit where
  | int (value : Int)
  | bool (value : Bool)
deriving DecidableEq

namespace Lit

/-- The type of a literal. -/
def ty : Lit → Ty
  | int _ => .int
  | bool _ => .bool

/-- The text of a literal. -/
def render : Lit → String
  | int value => toString value
  | bool value => if value then "true" else "false"

end Lit

/-- Expressions. -/
inductive Expr where
  | var (name : Var)
  | abs (param : Var) (body : Expr)
  | app (func arg : Expr)
  | letIn (name : Var) (value body : Expr)
  | lit (value : Lit)
deriving DecidableEq

namespace Expr

/-- Whether the text of an expression ends in the scope of a binder, so that it
cannot be followed by an argument as it stands. -/
def isBinder : Expr → Bool
  | abs _ _ => true
  | letIn _ _ _ => true
  | _ => false

/-- Whether an expression is neither a variable nor a literal. -/
def isCompound : Expr → Bool
  | var _ => false
  | lit _ => false
  | _ => true

/-- The text of an expression.  Parentheses stand around a function that is a
binder; only where there are none do they stand around a compound argument. -/
def render : Expr → String
  | var name => name
  | abs param body => "λ" ++ param ++ "." ++ body.render
  | app func arg =>
      if func.isBinder then
        "(" ++ func.render ++ ") " ++ arg.render
      else
        func.render ++ " " ++ Text.parensIf arg.isCompound arg.render
  | letIn name value body =>
      "let " ++ name ++ " = " ++ value.render ++ " in " ++ body.render
  | lit value => value.render

instance : ToString Expr where
  toString := render

end Expr

end LetPoly
