import LetPoly.Expr

/-!
# Type errors

The reasons for which an expression has no type, and their wording.
-/

namespace LetPoly

/-- Why an expression or an equation between types is rejected. -/
inductive TypeError where
  /-- A variable that the environment does not bind. -/
  | unboundVariable (name : Var)
  /-- A variable equated with a larger type that contains it. -/
  | occursCheck (var : TyVar) (ty : Ty)
  /-- Two types with different outermost constructors. -/
  | mismatch (expected actual : Ty)
  /-- An expression outside the language that inference covers. -/
  | unsupported (expr : Expr)
deriving DecidableEq

namespace TypeError

/-- The wording of an error. -/
def message : TypeError → String
  | unboundVariable name => "unbound variable: " ++ name
  | occursCheck var ty =>
      "occurs check failed: cannot construct infinite type " ++ var ++ " = " ++ ty.render
  | mismatch expected actual => "cannot unify " ++ expected.render ++ " with " ++ actual.render
  | unsupported expr => "unsupported expression: " ++ expr.render

instance : ToString TypeError where
  toString := message

end TypeError

end LetPoly
