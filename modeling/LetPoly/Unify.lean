import LetPoly.Traced

/-!
# Unification

`unify left right` looks for a substitution that makes two types equal.  Two
function types are unified domains first; the codomains are then unified under
the substitution found so far, and the two substitutions are composed.

The recursion ends because of what a unifier does to variables.  It brings in
only variables of the two types, and unless it is empty it makes one of them
disappear from every type it is applied to (`Subst.Narrows`).  So the codomains
have fewer distinct variables than the function types had, or they are
untouched and smaller.  The recursion returns this fact along with the
unifier, and `unify` forgets it again.
-/

namespace LetPoly

/-- A substitution that solves an equation between types, with the derivation
that found it. -/
structure Unifier where
  subst : Subst
  derivation : Derivation

/-! ## Substitutions that narrow a set of variables -/

/-- A substitution narrows a set of variables when it brings in no variable from
outside the set and, unless it is empty, makes a variable of the set disappear
from every type. -/
structure Subst.Narrows (subst : Subst) (names : NameSet) : Prop where
  confined : ∀ ty, ∀ name ∈ (subst.apply ty).vars, name ∈ ty.vars ∨ name ∈ names
  eliminates : subst = ∅ ∨ ∃ name ∈ names, ∀ ty, name ∉ (subst.apply ty).vars

namespace Subst.Narrows

theorem empty (names : NameSet) : Narrows ∅ names where
  confined := by simp +contextual
  eliminates := .inl rfl

/-- Binding a variable to a type in which it does not occur narrows every set
that holds the variable and those of the type. -/
theorem singleton {name : TyVar} {ty : Ty} {names : NameSet} (absent : name ∉ ty.vars)
    (nameMember : name ∈ names) (tyMembers : ∀ other ∈ ty.vars, other ∈ names) :
    (Subst.singleton name ty).Narrows names where
  confined := by
    intro target other membership
    obtain ⟨source, sourceMember, found⟩ := Subst.mem_vars_apply.mp membership
    by_cases equal : source = name
    · have found : other ∈ ty.vars := by simpa [Subst.apply, equal] using found
      exact .inr (tyMembers other found)
    · have found : other = source := by simpa [Subst.apply, equal] using found
      exact .inl (found ▸ sourceMember)
  eliminates := by
    refine .inr ⟨name, nameMember, ?_⟩
    intro target membership
    obtain ⟨source, _, found⟩ := Subst.mem_vars_apply.mp membership
    by_cases equal : source = name
    · exact absent (by simpa [Subst.apply, equal] using found)
    · have found : name = source := by simpa [Subst.apply, equal] using found
      exact equal found.symm

theorem mono {subst : Subst} {smaller larger : NameSet} (narrows : subst.Narrows smaller)
    (subset : ∀ name ∈ smaller, name ∈ larger) : subst.Narrows larger where
  confined := fun ty name membership =>
    (narrows.confined ty name membership).imp_right (subset name)
  eliminates := narrows.eliminates.imp_right fun ⟨name, member, absent⟩ =>
    ⟨name, subset name member, absent⟩

theorem comp {outer inner : Subst} {names : NameSet} (outerNarrows : outer.Narrows names)
    (innerNarrows : inner.Narrows names) : (outer.comp inner).Narrows names where
  confined := by
    intro ty name membership
    rw [Subst.apply_comp] at membership
    rcases outerNarrows.confined (inner.apply ty) name membership with inImage | member
    · exact innerNarrows.confined ty name inImage
    · exact .inr member
  eliminates := by
    rcases outerNarrows.eliminates with rfl | ⟨name, member, absent⟩
    · simpa using innerNarrows.eliminates
    · refine .inr ⟨name, member, fun ty => ?_⟩
      rw [Subst.apply_comp]
      exact absent (inner.apply ty)

end Subst.Narrows

/-! ## The measure of a problem -/

/-- The variables of an equation between types. -/
def problemVars (left right : Ty) : NameSet :=
  left.vars ∪ right.vars

@[simp]
theorem mem_problemVars {left right : Ty} {name : TyVar} :
    name ∈ problemVars left right ↔ name ∈ left.vars ∨ name ∈ right.vars := by
  simp [problemVars]

/-- An equation is smaller than another if it has fewer distinct variables, or
as many and fewer nodes. -/
def problemMeasure (left right : Ty) : Nat × Nat :=
  ((problemVars left right).size, left.size + right.size)

/-- The function types have all variables of their domains. -/
theorem mem_problemVars_of_domains {leftDomain leftCodomain rightDomain rightCodomain : Ty}
    {name : TyVar} (membership : name ∈ problemVars leftDomain rightDomain) :
    name ∈ problemVars (.arrow leftDomain leftCodomain) (.arrow rightDomain rightCodomain) := by
  simp only [mem_problemVars, Ty.mem_vars_arrow] at *
  exact membership.imp .inl .inl

/-- The equation between the domains is smaller than the one between the
function types. -/
theorem problemMeasure_domains_lt (leftDomain leftCodomain rightDomain rightCodomain : Ty) :
    Prod.Lex (· < ·) (· < ·) (problemMeasure leftDomain rightDomain)
      (problemMeasure (.arrow leftDomain leftCodomain) (.arrow rightDomain rightCodomain)) := by
  apply Prod.Lex.right'
  · exact NameSet.size_le_of_subset fun _ => mem_problemVars_of_domains
  · simp only [Ty.size]
    omega

/-- A substitution that narrows the variables of the domains brings none into the
codomains that the function types do not have. -/
theorem mem_problemVars_of_codomains {subst : Subst} {name : TyVar}
    {leftDomain leftCodomain rightDomain rightCodomain : Ty}
    (narrows : subst.Narrows (problemVars leftDomain rightDomain))
    (membership :
      name ∈ problemVars (subst.apply leftCodomain) (subst.apply rightCodomain)) :
    name ∈ problemVars (.arrow leftDomain leftCodomain) (.arrow rightDomain rightCodomain) := by
  rcases mem_problemVars.mp membership with inLeft | inRight
  · rcases narrows.confined leftCodomain name inLeft with old | member
    · simp [old]
    · exact mem_problemVars_of_domains member
  · rcases narrows.confined rightCodomain name inRight with old | member
    · simp [old]
    · exact mem_problemVars_of_domains member

/-- The equation between the codomains, under a substitution that narrows the
variables of the domains, is smaller than the one between the function types. -/
theorem problemMeasure_codomains_lt {subst : Subst}
    {leftDomain leftCodomain rightDomain rightCodomain : Ty}
    (narrows : subst.Narrows (problemVars leftDomain rightDomain)) :
    Prod.Lex (· < ·) (· < ·)
      (problemMeasure (subst.apply leftCodomain) (subst.apply rightCodomain))
      (problemMeasure (.arrow leftDomain leftCodomain) (.arrow rightDomain rightCodomain)) := by
  rcases narrows.eliminates with rfl | ⟨name, member, absent⟩
  · apply Prod.Lex.right'
    · exact NameSet.size_le_of_subset fun _ => mem_problemVars_of_codomains narrows
    · simp only [Subst.apply_empty, Ty.size]
      omega
  · apply Prod.Lex.left
    exact NameSet.size_lt_of_subset (fun _ => mem_problemVars_of_codomains narrows)
      (mem_problemVars_of_domains member) (by simp [absent])

/-- Narrowing the domains and then the codomains narrows the function types. -/
theorem Subst.Narrows.arrow {first second : Subst}
    {leftDomain leftCodomain rightDomain rightCodomain : Ty}
    (domains : first.Narrows (problemVars leftDomain rightDomain))
    (codomains : second.Narrows
      (problemVars (first.apply leftCodomain) (first.apply rightCodomain))) :
    (second.comp first).Narrows
      (problemVars (.arrow leftDomain leftCodomain) (.arrow rightDomain rightCodomain)) :=
  .comp (codomains.mono fun _ => mem_problemVars_of_codomains domains)
    (domains.mono fun _ => mem_problemVars_of_domains)

/-! ## The algorithm -/

/-- Solve an equation by binding a variable to a type.  Nothing is bound if the
type is the variable itself, and a larger type may not contain it.  The input is
the equation as the derivation shows it. -/
def bindVarFor (input : String) (name : TyVar) (ty : Ty) : Traced Unifier :=
  if ty = .var name then
    pure ⟨∅, .unification .unifyVarSame input ∅ []⟩
  else if name ∈ ty.vars then
    .fail (.occursCheck name ty)
  else do
    .report (.bound name ty)
    let subst := Subst.singleton name ty
    return ⟨subst, .unification .unifyVar input subst []⟩

theorem bindVarFor_self (input : String) (name : TyVar) :
    bindVarFor input name (.var name) = pure ⟨∅, .unification .unifyVarSame input ∅ []⟩ := by
  simp [bindVarFor]

theorem bindVarFor_of_mem (input : String) {name : TyVar} {ty : Ty}
    (different : ty ≠ .var name) (occurs : name ∈ ty.vars) :
    bindVarFor input name ty = .fail (.occursCheck name ty) := by
  simp [bindVarFor, different, occurs]

theorem bindVarFor_of_not_mem (input : String) {name : TyVar} {ty : Ty}
    (absent : name ∉ ty.vars) :
    bindVarFor input name ty =
      ⟨.ok ⟨.singleton name ty,
        .unification .unifyVar input (.singleton name ty) []⟩, [.bound name ty]⟩ := by
  have different : ty ≠ .var name := by
    rintro rfl
    exact absent (by simp)
  simp only [bindVarFor, if_neg different, if_neg absent]
  rfl

/-- Bind a variable to a type. -/
def bindVar (name : TyVar) (ty : Ty) : Traced Unifier :=
  bindVarFor (Derivation.unifyInput (.var name) ty) name ty

/-- A bound variable disappears. -/
theorem bindVarFor_narrows {input : String} {name : TyVar} {ty : Ty} {unifier : Unifier}
    {names : NameSet} (success : (bindVarFor input name ty).outcome = .ok unifier)
    (nameMember : name ∈ names) (tyMembers : ∀ other ∈ ty.vars, other ∈ names) :
    unifier.subst.Narrows names := by
  unfold bindVarFor at success
  split at success
  next same =>
    cases success
    exact .empty names
  next different =>
    split at success
    next occurs => cases success
    next absent =>
      cases success
      exact .singleton absent nameMember tyMembers

/-- The solution of an equation between equal base types. -/
def Unifier.base (ty : Ty) : Unifier :=
  ⟨∅, .unification .unifyBase (Derivation.unifyInput ty ty) ∅ []⟩

/-- The solution of an equation between function types, from the solutions for
the domains and for the codomains. -/
def Unifier.arrow (left right : Ty) (domains codomains : Unifier) : Unifier :=
  let subst := codomains.subst.comp domains.subst
  ⟨subst, .unification .unifyArrow (Derivation.unifyInput left right) subst
    [domains.derivation, codomains.derivation]⟩

/-- Unification, with the fact that its result narrows the variables of the
equation. -/
def unifyNarrowing (left right : Ty) :
    Traced { unifier : Unifier // unifier.subst.Narrows (problemVars left right) } :=
  match left, right with
  | .int, .int => pure ⟨.base .int, .empty _⟩
  | .bool, .bool => pure ⟨.base .bool, .empty _⟩
  | .var name, right =>
      (bindVar name right).attach fun _ success =>
        bindVarFor_narrows success (by simp) (by simp +contextual)
  | left, .var name =>
      (bindVarFor (Derivation.unifyInput left (.var name)) name left).attach fun _ success =>
        bindVarFor_narrows success (by simp) (by simp +contextual)
  | .arrow leftDomain leftCodomain, .arrow rightDomain rightCodomain => do
      let domains ← unifyNarrowing leftDomain rightDomain
      let codomains ← unifyNarrowing (domains.val.subst.apply leftCodomain)
        (domains.val.subst.apply rightCodomain)
      return ⟨.arrow (.arrow leftDomain leftCodomain) (.arrow rightDomain rightCodomain)
        domains.val codomains.val, domains.property.arrow codomains.property⟩
  | left, right => .fail (.mismatch left right)
termination_by problemMeasure left right
decreasing_by
  · exact problemMeasure_domains_lt _ _ _ _
  · exact problemMeasure_codomains_lt domains.property

/-- Unification: a substitution that makes two types equal, or the reason why
there is none. -/
def unify (left right : Ty) : Traced Unifier :=
  Subtype.val <$> unifyNarrowing left right

/-! ## Equations -/

theorem unify_int : unify .int .int = pure (.base .int) := by
  simp [unify, unifyNarrowing]

theorem unify_bool : unify .bool .bool = pure (.base .bool) := by
  simp [unify, unifyNarrowing]

/-- A variable on the left is bound to the type on the right, whatever it is. -/
theorem unify_var_left (name : TyVar) (right : Ty) :
    unify (.var name) right = bindVar name right := by
  simp [unify, unifyNarrowing, bindVar]

/-- A variable on the right is bound to the type on the left, unless that is a
variable too. -/
theorem unify_var_right {left : Ty} (name : TyVar) (notVar : ∀ other, left ≠ .var other) :
    unify left (.var name) =
      bindVarFor (Derivation.unifyInput left (.var name)) name left := by
  cases left with
  | var other => exact absurd rfl (notVar other)
  | arrow domain codomain => simp [unify, unifyNarrowing]
  | int => simp [unify, unifyNarrowing]
  | bool => simp [unify, unifyNarrowing]

/-- Function types are unified domains first, then codomains under what the
domains gave. -/
theorem unify_arrow (leftDomain leftCodomain rightDomain rightCodomain : Ty) :
    unify (.arrow leftDomain leftCodomain) (.arrow rightDomain rightCodomain) = do
      let domains ← unify leftDomain rightDomain
      let codomains ← unify (domains.subst.apply leftCodomain)
        (domains.subst.apply rightCodomain)
      return .arrow (.arrow leftDomain leftCodomain) (.arrow rightDomain rightCodomain)
        domains codomains := by
  rw [unify, unifyNarrowing]
  simp [unify]

/-! ## Solving one more equation -/

/-- Extend a solution by one more equation: unify both sides under it and compose. -/
def Subst.refine (subst : Subst) (left right : Ty) : Traced Subst := do
  let unifier ← unify (subst.apply left) (subst.apply right)
  return unifier.subst.comp subst

end LetPoly
