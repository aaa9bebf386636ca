import LetPoly.Env
import LetPoly.Expr

/-!
# Derivations

A derivation records the rules that a run applied, one node for each, with the
judgement before and after in words.  `Derivation.render` writes one line for
each node, premises below their conclusion and two blanks further in.
-/

namespace LetPoly

/-- The rules of unification and of type inference. -/
inductive Rule where
  | unifyBase
  | unifyVarSame
  | unifyVar
  | unifyArrow
  | var
  | abs
  | app
  | letIn
  | int
  | bool
deriving DecidableEq

/-- The label of a rule. -/
def Rule.label : Rule → String
  | unifyBase => "Unify-Base"
  | unifyVarSame => "Unify-Var-Same"
  | unifyVar => "Unify-Var"
  | unifyArrow => "Unify-Arrow"
  | var => "T-Var"
  | abs => "T-Abs"
  | app => "T-App"
  | letIn => "T-Let"
  | int => "T-Int"
  | bool => "T-Bool"

/-- The rule for a literal. -/
def Lit.rule : Lit → Rule
  | int _ => .int
  | bool _ => .bool

/-- A rule applied to an input, with its output and the derivations of its
premises. -/
inductive Derivation where
  | node (rule input output : String) (premises : List Derivation)

namespace Derivation

/-! ## Judgements -/

/-- The input of a typing judgement. -/
def typingInput (env : Env) (expr : Expr) : String :=
  env.render ++ " ⊢ " ++ expr.render ++ " ⇒"

/-- The input of a unification judgement. -/
def unifyInput (left right : Ty) : String :=
  left.render ++ " ~ " ++ right.render ++ " ⇒"

/-- An expression typed by a rule. -/
def typing (rule : Rule) (env : Env) (expr : Expr) (ty : Ty)
    (premises : List Derivation) : Derivation :=
  node rule.label (typingInput env expr) ty.render premises

/-- An equation solved by a rule. -/
def unification (rule : Rule) (input : String) (subst : Subst)
    (premises : List Derivation) : Derivation :=
  node rule.label input subst.render premises

/-! ## Text -/

mutual

/-- The lines of a derivation whose root is at the given depth. -/
def lines (depth : Nat) : Derivation → List String
  | node rule input output premises =>
      (String.ofList (List.replicate (2 * depth) ' ') ++
        rule ++ ": " ++ input ++ " " ++ output) ::
        linesOfAll (depth + 1) premises

/-- The lines of several derivations at the same depth, one after the other. -/
def linesOfAll (depth : Nat) : List Derivation → List String
  | [] => []
  | derivation :: remaining => lines depth derivation ++ linesOfAll depth remaining

end

/-- The text of a derivation. -/
def render (derivation : Derivation) : String :=
  "\n".intercalate (derivation.lines 0)

instance : ToString Derivation where
  toString := render

end Derivation

end LetPoly
