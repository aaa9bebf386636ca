import LetPoly.Expr

/-!
# Binding in expressions

Free variables, replacement of a variable, and equality up to the names of bound
variables.  An abstraction binds its parameter in its body; a `let` binds its
name in its body only, not in the value.
-/

namespace LetPoly

/-- The pairs of binders that enclose two expressions read in step, innermost
first. -/
abbrev BinderPairs : Type := List (Var × Var)

/-- Whether two variables refer to the same binder.  The innermost pair that
has either name decides; names that no pair has are free and must be equal. -/
def BinderPairs.Relates : BinderPairs → Var → Var → Prop
  | [], left, right => left = right
  | (leftBinder, rightBinder) :: outer, left, right =>
      (left = leftBinder ∧ right = rightBinder) ∨
        (left ≠ leftBinder ∧ right ≠ rightBinder ∧ Relates outer left right)

namespace Expr

/-- The free occurrences of variables, in the order in which they are written. -/
def freeVars : Expr → List Var
  | var name => [name]
  | abs param body => body.freeVars.filter (· ≠ param)
  | app func arg => func.freeVars ++ arg.freeVars
  | letIn name value body => value.freeVars ++ body.freeVars.filter (· ≠ name)
  | lit _ => []

/-- Put an expression in for the free occurrences of a variable.  Binders keep
their names, so the replacement should be closed. -/
def replace (expr : Expr) (name : Var) (replacement : Expr) : Expr :=
  match expr with
  | var other => if other = name then replacement else var other
  | abs param body =>
      abs param (if param = name then body else body.replace name replacement)
  | app func arg => app (func.replace name replacement) (arg.replace name replacement)
  | letIn other value body =>
      letIn other (value.replace name replacement)
        (if other = name then body else body.replace name replacement)
  | lit value => lit value

/-- Equality up to the names of bound variables, under pairs of binders. -/
inductive AlphaEqUnder : BinderPairs → Expr → Expr → Prop where
  | var {pairs : BinderPairs} {left right : Var} :
      pairs.Relates left right → AlphaEqUnder pairs (var left) (var right)
  | abs {pairs : BinderPairs} {leftParam rightParam : Var} {leftBody rightBody : Expr} :
      AlphaEqUnder ((leftParam, rightParam) :: pairs) leftBody rightBody →
      AlphaEqUnder pairs (abs leftParam leftBody) (abs rightParam rightBody)
  | app {pairs : BinderPairs} {leftFunc rightFunc leftArg rightArg : Expr} :
      AlphaEqUnder pairs leftFunc rightFunc →
      AlphaEqUnder pairs leftArg rightArg →
      AlphaEqUnder pairs (app leftFunc leftArg) (app rightFunc rightArg)
  | letIn {pairs : BinderPairs} {leftName rightName : Var}
      {leftValue rightValue leftBody rightBody : Expr} :
      AlphaEqUnder pairs leftValue rightValue →
      AlphaEqUnder ((leftName, rightName) :: pairs) leftBody rightBody →
      AlphaEqUnder pairs (letIn leftName leftValue leftBody)
        (letIn rightName rightValue rightBody)
  | lit {pairs : BinderPairs} {value : Lit} : AlphaEqUnder pairs (lit value) (lit value)

/-- Equality up to the names of bound variables. -/
def AlphaEq (left right : Expr) : Prop :=
  AlphaEqUnder [] left right

end Expr

end LetPoly
