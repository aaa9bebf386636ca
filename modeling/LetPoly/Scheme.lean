import LetPoly.Subst

/-!
# Type schemes

A scheme quantifies a list of variables over a type.  The list is kept as it was
given: its order shows in the text, and it may repeat a variable or hold one
that does not occur.

Substitution leaves the quantified variables alone and renames none of them.  It
is the usual substitution on quantified types as long as no type that is put in
mentions a quantified variable.
-/

namespace LetPoly

/-- A type under a list of quantified variables. -/
structure Scheme where
  vars : List TyVar
  ty : Ty
deriving DecidableEq

namespace Scheme

/-- The scheme that quantifies nothing. -/
def mono (ty : Ty) : Scheme :=
  ⟨[], ty⟩

/-- The variables of the type that are not quantified. -/
def freeVars (scheme : Scheme) : NameSet :=
  scheme.ty.vars \ NameSet.ofList scheme.vars

@[simp]
theorem mem_freeVars {scheme : Scheme} {name : TyVar} :
    name ∈ scheme.freeVars ↔ name ∈ scheme.ty.vars ∧ name ∉ scheme.vars := by
  simp [freeVars]

/-- All variables written in a scheme, quantified or not. -/
def mentioned (scheme : Scheme) : NameSet :=
  scheme.ty.vars ∪ NameSet.ofList scheme.vars

@[simp]
theorem mem_mentioned {scheme : Scheme} {name : TyVar} :
    name ∈ scheme.mentioned ↔ name ∈ scheme.ty.vars ∨ name ∈ scheme.vars := by
  simp [mentioned]

/-- Substitute for the variables that are not quantified. -/
def subst (scheme : Scheme) (subst : Subst) : Scheme :=
  ⟨scheme.vars, (subst.without scheme.vars).apply scheme.ty⟩

theorem subst_empty (scheme : Scheme) : scheme.subst ∅ = scheme := by
  have nothing : (∅ : Subst).without scheme.vars = ∅ := by
    ext name
    simp
  rw [Scheme.subst, nothing, Subst.apply_empty]

/-- The text of a scheme: the type, after its quantified variables if there are
any. -/
def render (scheme : Scheme) : String :=
  if scheme.vars.isEmpty then
    scheme.ty.render
  else
    "forall " ++ " ".intercalate scheme.vars ++ ". " ++ scheme.ty.render

instance : ToString Scheme where
  toString := render

end Scheme

end LetPoly
