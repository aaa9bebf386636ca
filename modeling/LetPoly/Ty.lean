import LetPoly.Name
import LetPoly.Text

/-!
# Monotypes

A type is a variable, a function type or one of the two base types.  Types bind
no variables, so every variable of a type is free in it.

`Ty.vars` is the set of variables of a type and `Ty.size` its number of nodes;
the two together measure a unification problem.  `Ty.render` writes arrows
associated to the right, with parentheses exactly around a function type that
stands to the left of an arrow.
-/

namespace LetPoly

/-- Monotypes: variables, function types, integers and truth values. -/
inductive Ty where
  | var (name : TyVar)
  | arrow (domain codomain : Ty)
  | int
  | bool
deriving DecidableEq

namespace Ty

/-! ## Variables and size -/

/-- The variables that occur in a type. -/
def vars : Ty → NameSet
  | var name => NameSet.ofList [name]
  | arrow domain codomain => domain.vars ∪ codomain.vars
  | int => ∅
  | bool => ∅

@[simp]
theorem mem_vars_var {name other : TyVar} : other ∈ (var name).vars ↔ other = name := by
  simp [vars]

@[simp]
theorem mem_vars_arrow {name : TyVar} {domain codomain : Ty} :
    name ∈ (arrow domain codomain).vars ↔ name ∈ domain.vars ∨ name ∈ codomain.vars := by
  simp [vars]

@[simp]
theorem not_mem_vars_int {name : TyVar} : name ∉ int.vars := by
  simp [vars]

@[simp]
theorem not_mem_vars_bool {name : TyVar} : name ∉ bool.vars := by
  simp [vars]

/-- The number of nodes of a type. -/
def size : Ty → Nat
  | var _ => 1
  | arrow domain codomain => domain.size + codomain.size + 1
  | int => 1
  | bool => 1

/-! ## Text -/

/-- Whether a type is a function type. -/
def isArrow : Ty → Bool
  | arrow _ _ => true
  | _ => false

/-- The text of a type. -/
def render : Ty → String
  | var name => name
  | arrow domain codomain =>
      Text.parensIf domain.isArrow domain.render ++ " -> " ++ codomain.render
  | int => "Int"
  | bool => "Bool"

instance : ToString Ty where
  toString := render

end Ty

end LetPoly
