import LetPoly.Expr

/-!
# The readings of expressions

Where the function of an application is a binder, its argument is written without parentheses,
whatever it is.  So the text of such an application has no end of its own: an argument that
comes after it may belong to it or to the last part of it.  `(λx.x) f y` is written for the
application of `λx.x` to `f y`, and also for that of `(λx.x) f` to `y`.

`Expr.reading` settles this in favour of the last part, and it changes neither the text
(`Expr.render_reading`) nor the names.  Expressions in which no applied binder is applied once
more are called direct.  They are the ones that are their own readings.
-/

namespace LetPoly

/-! ## Identifiers -/

namespace Text

/-- Whether a character counts as a letter.  Outside of ASCII every character may. -/
def isLetter (char : Char) : Bool :=
  char.isAlpha || decide (128 ≤ char.toNat)

/-- Whether a character may stand in a name: letters, digits and underscores may. -/
def isIdentifierChar (char : Char) : Bool :=
  isLetter char || char.isDigit || char == '_'

/-- The words with a meaning of their own. -/
def keywords : List String :=
  ["let", "in", "true", "false"]

/-- Whether a name is a letter followed by letters, digits or underscores, and not a keyword. -/
def isIdentifier (name : String) : Bool :=
  name.toList.head?.any isLetter && name.toList.tail.all isIdentifierChar &&
    !keywords.contains name

end Text

open Text

namespace Expr

/-- The names written in an expression, of variables and of binders. -/
def names : Expr → List Var
  | var name => [name]
  | abs param body => param :: body.names
  | app func arg => func.names ++ arg.names
  | letIn name value body => name :: (value.names ++ body.names)
  | lit _ => []

/-- All names are identifiers. -/
def Named (expr : Expr) : Prop :=
  ∀ name ∈ expr.names, isIdentifier name = true

instance (expr : Expr) : Decidable expr.Named :=
  inferInstanceAs (Decidable (∀ name ∈ expr.names, isIdentifier name = true))

theorem named_abs {param : Var} {body : Expr} :
    (abs param body).Named ↔ isIdentifier param = true ∧ body.Named := by
  simp [Named, names]

theorem named_app {func arg : Expr} : (app func arg).Named ↔ func.Named ∧ arg.Named := by
  simp [Named, names, or_imp, forall_and]

theorem named_letIn {name : Var} {value body : Expr} :
    (letIn name value body).Named ↔ isIdentifier name = true ∧ value.Named ∧ body.Named := by
  simp [Named, names, or_imp, forall_and]

/-! ## Readings -/

/-- Whether an expression is a binder applied to an argument. -/
def appliesBinder : Expr → Bool
  | app func _ => func.isBinder
  | _ => false

/-- Write an argument after an expression.  It goes to the last part of the expression that is
not closed by a parenthesis. -/
def extend : Expr → Expr → Expr
  | abs param body, arg => abs param (body.extend arg)
  | letIn name value body, arg => letIn name value (body.extend arg)
  | app func last, arg =>
      if func.isBinder then app func (last.extend arg) else app (app func last) arg
  | expr, arg => app expr arg

/-- The expression with each argument moved as far inward as its text allows. -/
def reading : Expr → Expr
  | abs param body => abs param body.reading
  | letIn name value body => letIn name value.reading body.reading
  | app func arg =>
      if func.isBinder then app func.reading arg.reading else func.reading.extend arg.reading
  | expr => expr

/-- Whether no applied binder is applied once more. -/
def isDirect : Expr → Bool
  | abs _ body => body.isDirect
  | letIn _ value body => value.isDirect && body.isDirect
  | app func arg => !func.appliesBinder && func.isDirect && arg.isDirect
  | _ => true

/-- An expression that ends in no open part is applied as a whole. -/
theorem extend_eq_app {expr : Expr} (notBinder : expr.isBinder = false)
    (notApplied : expr.appliesBinder = false) (arg : Expr) : expr.extend arg = app expr arg := by
  cases expr with
  | abs => cases notBinder
  | letIn => cases notBinder
  | app func last =>
      have funcNotBinder : func.isBinder = false := notApplied
      simp [extend, funcNotBinder]
  | var => rfl
  | lit => rfl

theorem isBinder_extend (expr arg : Expr) : (expr.extend arg).isBinder = expr.isBinder := by
  cases expr with
  | app func last =>
      rw [extend]
      split <;> rfl
  | _ => rfl

theorem isCompound_extend (expr arg : Expr) : (expr.extend arg).isCompound = true := by
  cases expr with
  | app func last =>
      rw [extend]
      split <;> rfl
  | _ => rfl

theorem render_app_of_binder {func : Expr} (isBinder : func.isBinder = true) (arg : Expr) :
    (app func arg).render = "(" ++ func.render ++ ") " ++ arg.render := by
  rw [render, if_pos isBinder]

theorem render_app_of_not_binder {func : Expr} (notBinder : func.isBinder = false) (arg : Expr) :
    (app func arg).render = func.render ++ " " ++ parensIf arg.isCompound arg.render := by
  rw [render, if_neg (by simp [notBinder])]

theorem render_extend (expr arg : Expr) :
    (expr.extend arg).render = expr.render ++ " " ++ parensIf arg.isCompound arg.render := by
  induction expr with
  | abs param body induction => simp [extend, render, induction, String.append_assoc]
  | letIn name value body _ induction => simp [extend, render, induction, String.append_assoc]
  | app func last _ induction =>
      cases isBinder : func.isBinder with
      | true =>
          rw [extend, if_pos isBinder, render_app_of_binder isBinder,
            render_app_of_binder isBinder, induction]
          simp only [String.append_assoc]
      | false => rw [extend, if_neg (by simp [isBinder]), render_app_of_not_binder rfl]
  | var => rfl
  | lit => rfl

theorem isBinder_reading (expr : Expr) : expr.reading.isBinder = expr.isBinder := by
  induction expr with
  | app func arg funcInduction _ =>
      rw [reading]
      split
      next => rfl
      next notBinder =>
        rw [isBinder_extend, funcInduction]
        exact Bool.eq_false_iff.mpr notBinder
  | _ => rfl

theorem isCompound_reading (expr : Expr) : expr.reading.isCompound = expr.isCompound := by
  cases expr with
  | app func arg =>
      rw [reading]
      split
      · rfl
      · exact isCompound_extend _ _
  | _ => rfl

theorem reading_of_atomic {expr : Expr} (atomic : expr.isCompound = false) :
    expr.reading = expr := by
  cases expr with
  | var => rfl
  | lit => rfl
  | abs | app | letIn => cases atomic

/-- The reading of an expression has the same text. -/
theorem render_reading (expr : Expr) : expr.reading.render = expr.render := by
  induction expr with
  | abs param body induction => rw [reading, render, render, induction]
  | letIn name value body valueInduction bodyInduction =>
      rw [reading, render, render, valueInduction, bodyInduction]
  | app func arg funcInduction argInduction =>
      cases isBinder : func.isBinder with
      | true =>
          have readingBinder : func.reading.isBinder = true := by rw [isBinder_reading, isBinder]
          rw [reading, if_pos isBinder, render_app_of_binder readingBinder,
            render_app_of_binder isBinder, funcInduction, argInduction]
      | false =>
          rw [reading, if_neg (by simp [isBinder]), render_extend,
            render_app_of_not_binder isBinder, funcInduction, argInduction, isCompound_reading]
  | var => rfl
  | lit => rfl

theorem appliesBinder_of_isBinder {expr : Expr} (isBinder : expr.isBinder = true) :
    expr.appliesBinder = false := by
  cases expr with
  | app => cases isBinder
  | _ => rfl

theorem isDirect_extend {expr arg : Expr} (direct : expr.isDirect = true)
    (argDirect : arg.isDirect = true) : (expr.extend arg).isDirect = true := by
  induction expr with
  | abs param body induction => exact induction direct
  | letIn name value body _ induction =>
      simp only [extend, isDirect, Bool.and_eq_true] at direct ⊢
      exact ⟨direct.1, induction direct.2⟩
  | app func last _ induction =>
      cases isBinder : func.isBinder with
      | true =>
          simp only [extend, isBinder, if_true, isDirect, Bool.and_eq_true] at direct ⊢
          exact ⟨direct.1, induction direct.2⟩
      | false =>
          rw [extend, if_neg (by simp [isBinder])]
          change (!func.isBinder && (app func last).isDirect && arg.isDirect) = true
          rw [isBinder, direct, argDirect]
          rfl
  | var => exact argDirect
  | lit => exact argDirect

/-- Readings are direct. -/
theorem isDirect_reading (expr : Expr) : expr.reading.isDirect = true := by
  induction expr with
  | abs param body induction => exact induction
  | letIn name value body valueInduction bodyInduction =>
      simp [reading, isDirect, valueInduction, bodyInduction]
  | app func arg funcInduction argInduction =>
      cases isBinder : func.isBinder with
      | true =>
          have notApplied : func.reading.appliesBinder = false :=
            appliesBinder_of_isBinder (by rw [isBinder_reading, isBinder])
          simp [reading, isBinder, isDirect, notApplied, funcInduction, argInduction]
      | false =>
          rw [reading, if_neg (by simp [isBinder])]
          exact isDirect_extend funcInduction argInduction
  | var => rfl
  | lit => rfl

theorem names_extend (expr arg : Expr) : (expr.extend arg).names = expr.names ++ arg.names := by
  induction expr with
  | abs param body induction => simp [extend, names, induction]
  | letIn name value body _ induction => simp [extend, names, induction]
  | app func last _ induction =>
      rw [extend]
      split
      · simp [names, induction]
      · rfl
  | var => rfl
  | lit => rfl

/-- The reading of an expression has the same names in the same order. -/
theorem names_reading (expr : Expr) : expr.reading.names = expr.names := by
  induction expr with
  | abs param body induction => rw [reading, names, names, induction]
  | letIn name value body valueInduction bodyInduction =>
      rw [reading, names, names, valueInduction, bodyInduction]
  | app func arg funcInduction argInduction =>
      rw [reading]
      split
      · rw [names, names, funcInduction, argInduction]
      · rw [names_extend, names, funcInduction, argInduction]
  | var => rfl
  | lit => rfl

/-- A direct expression is its own reading. -/
theorem reading_of_isDirect {expr : Expr} (direct : expr.isDirect = true) :
    expr.reading = expr := by
  induction expr with
  | abs param body induction => rw [reading, induction direct]
  | letIn name value body valueInduction bodyInduction =>
      simp only [isDirect, Bool.and_eq_true] at direct
      rw [reading, valueInduction direct.1, bodyInduction direct.2]
  | app func arg funcInduction argInduction =>
      simp only [isDirect, Bool.and_eq_true, Bool.not_eq_true'] at direct
      rw [reading, funcInduction direct.1.2, argInduction direct.2]
      split
      next => rfl
      next notBinder => exact extend_eq_app (Bool.eq_false_iff.mpr notBinder) direct.1.1 arg
  | var => rfl
  | lit => rfl

end Expr

end LetPoly
