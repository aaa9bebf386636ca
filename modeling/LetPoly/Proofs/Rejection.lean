import LetPoly.Proofs.Unification

/-!
# Why two types are rejected

An error of unification shows two types that cannot be equal.  They need not be parts of
the given types, because everything that was bound before the failure has been put into
them.  All the same they are to the point: whoever takes the given types for equal has to
take these two for equal as well.

Said of substitutions this would be empty, since after a failure no substitution makes the
given types equal.  So it is said of readings.  A `Reading` interprets types in a set of any
kind.  It may take all types for equal that it likes, base types and function types and a
variable and a type around it, as long as it takes function types for equal only if their
sides are.  A substitution is a reading of types by types (`Subst.reading`).

`Solves.absorbed` is what carries the argument past the part of a run that has succeeded:
in a reading that takes both sides of a solved equation for equal, the unifier changes
nothing.
-/

namespace LetPoly

/-! ## Readings -/

/-- An interpretation of types.  Different types may mean the same, but function types do so
only if their domains do and their codomains do. -/
structure Reading (α : Type) where
  var : TyVar → α
  arrow : α → α → α
  int : α
  bool : α
  arrow_inj : ∀ {domain codomain otherDomain otherCodomain : α},
    arrow domain codomain = arrow otherDomain otherCodomain →
      domain = otherDomain ∧ codomain = otherCodomain

namespace Reading

variable {α : Type} (reading : Reading α)

/-- What a type means. -/
def read : Ty → α
  | .var name => reading.var name
  | .arrow domain codomain => reading.arrow (read domain) (read codomain)
  | .int => reading.int
  | .bool => reading.bool

theorem read_arrow_eq {leftDomain leftCodomain rightDomain rightCodomain : Ty} :
    reading.read (.arrow leftDomain leftCodomain) =
        reading.read (.arrow rightDomain rightCodomain) ↔
      reading.read leftDomain = reading.read rightDomain ∧
        reading.read leftCodomain = reading.read rightCodomain := by
  constructor
  · exact reading.arrow_inj
  · rintro ⟨domains, codomains⟩
    rw [read, read, domains, codomains]

/-- A substitution that does not change the meaning of any variable does not change the
meaning of any type. -/
theorem read_apply {subst : Subst}
    (unchanged : ∀ name, reading.read (subst.apply (.var name)) = reading.read (.var name))
    (ty : Ty) : reading.read (subst.apply ty) = reading.read ty := by
  induction ty with
  | var name => exact unchanged name
  | arrow domain codomain domainInduction codomainInduction =>
      rw [Subst.apply_arrow, read, read, domainInduction, codomainInduction]
  | int => rfl
  | bool => rfl

/-- Putting a type in for a variable that means the same changes no meaning. -/
theorem read_apply_singleton {name : TyVar} {replacement : Ty}
    (same : reading.read (.var name) = reading.read replacement) (ty : Ty) :
    reading.read ((Subst.singleton name replacement).apply ty) = reading.read ty := by
  refine reading.read_apply (fun other => ?_) ty
  by_cases equal : other = name
  · rw [equal, Subst.apply_singleton_self, same]
  · rw [Subst.apply_var_of_not_binds (by rwa [Subst.binds_singleton])]

end Reading

/-- A substitution reads types as types. -/
def Subst.reading (subst : Subst) : Reading Ty where
  var name := subst.apply (.var name)
  arrow := .arrow
  int := .int
  bool := .bool
  arrow_inj := Ty.arrow.inj

theorem Subst.read_reading (subst : Subst) (ty : Ty) :
    subst.reading.read ty = subst.apply ty := by
  induction ty with
  | var name => rfl
  | arrow domain codomain domainInduction codomainInduction =>
      rw [apply_arrow, ← domainInduction, ← codomainInduction]
      rfl
  | int => rfl
  | bool => rfl

/-- A unifier changes no meaning in a reading in which its equation holds. -/
theorem Solves.absorbed {left right : Ty} {unifier : Unifier} {events : List Event}
    (solves : Solves left right unifier events) {α : Type} (reading : Reading α)
    (equal : reading.read left = reading.read right) (ty : Ty) :
    reading.read (unifier.subst.apply ty) = reading.read ty := by
  induction solves generalizing ty with
  | int => exact congrArg reading.read (Subst.apply_empty ty)
  | bool => exact congrArg reading.read (Subst.apply_empty ty)
  | same => exact congrArg reading.read (Subst.apply_empty ty)
  | bindLeft absent => exact reading.read_apply_singleton equal ty
  | bindRight notVar absent => exact reading.read_apply_singleton equal.symm ty
  | @arrow leftDomain leftCodomain rightDomain rightCodomain domains codomains events moreEvents
      _ _ domainsInduction codomainsInduction =>
      obtain ⟨onDomains, onCodomains⟩ := reading.read_arrow_eq.mp equal
      have unchanged := domainsInduction onDomains
      have onRewritten : reading.read (domains.subst.apply leftCodomain) =
          reading.read (domains.subst.apply rightCodomain) := by
        rw [unchanged, unchanged, onCodomains]
      calc reading.read ((codomains.subst.comp domains.subst).apply ty)
          = reading.read (codomains.subst.apply (domains.subst.apply ty)) := by
            rw [Subst.apply_comp]
        _ = reading.read (domains.subst.apply ty) := codomainsInduction onRewritten _
        _ = reading.read ty := unchanged ty

/-! ## Equations that follow from another -/

/-- An equation between types follows from another one: it holds in every reading in which
the other one does, and it has no variable that the other one does not have. -/
structure Entails (left right expected actual : Ty) : Prop where
  equal : ∀ {α : Type} (reading : Reading α),
    reading.read left = reading.read right → reading.read expected = reading.read actual
  vars : ∀ name ∈ problemVars expected actual, name ∈ problemVars left right

namespace Entails

theorem refl (left right : Ty) : Entails left right left right where
  equal := fun _ => id
  vars := fun _ => id

theorem swap (left right : Ty) : Entails left right right left where
  equal := fun _ => Eq.symm
  vars := by
    intro name member
    rw [mem_problemVars] at *
    exact member.symm

theorem trans {left right middleLeft middleRight expected actual : Ty}
    (first : Entails left right middleLeft middleRight)
    (second : Entails middleLeft middleRight expected actual) :
    Entails left right expected actual where
  equal := fun reading holds => second.equal reading (first.equal reading holds)
  vars := fun name member => first.vars name (second.vars name member)

theorem domains (leftDomain leftCodomain rightDomain rightCodomain : Ty) :
    Entails (.arrow leftDomain leftCodomain) (.arrow rightDomain rightCodomain)
      leftDomain rightDomain where
  equal := fun reading holds => (reading.read_arrow_eq.mp holds).1
  vars := fun _ => mem_problemVars_of_domains

/-- The equation between the codomains follows even after the domains are solved. -/
theorem codomains {leftDomain leftCodomain rightDomain rightCodomain : Ty} {domains : Unifier}
    {events : List Event} (solves : Solves leftDomain rightDomain domains events) :
    Entails (.arrow leftDomain leftCodomain) (.arrow rightDomain rightCodomain)
      (domains.subst.apply leftCodomain) (domains.subst.apply rightCodomain) where
  equal := by
    intro α reading holds
    obtain ⟨onDomains, onCodomains⟩ := reading.read_arrow_eq.mp holds
    have unchanged := solves.absorbed reading onDomains
    rw [unchanged, unchanged, onCodomains]
  vars := fun _ =>
    mem_problemVars_of_codomains (unify_narrows (congrArg Traced.outcome solves.run_eq))

theorem unifies {left right expected actual : Ty} (entails : Entails left right expected actual)
    {subst : Subst} (unifies : subst.Unifies left right) : subst.Unifies expected actual := by
  have equal := entails.equal subst.reading
  simp only [Subst.read_reading] at equal
  exact equal unifies

end Entails

/-! ## What an error says -/

/-- An error names an equation that no types satisfy: outermost constructors that are
different, or a variable and a function type around it. -/
inductive TypeError.Rejects : TypeError → Ty → Ty → Prop where
  | mismatch {expected actual : Ty} :
      expected.Clash actual →
      Rejects (.mismatch expected actual) expected actual
  | occursCheck {var : TyVar} {domain codomain : Ty} :
      var ∈ (Ty.arrow domain codomain).vars →
      Rejects (.occursCheck var (.arrow domain codomain)) (.var var) (.arrow domain codomain)

/-- A variable is refused only if it occurs in a function type. -/
theorem bindVarFor_rejects {input : String} {name : TyVar} {ty : Ty} {error : TypeError}
    (failure : (bindVarFor input name ty).outcome = .error error) :
    error.Rejects (.var name) ty := by
  by_cases occurs : name ∈ ty.vars
  · cases ty with
    | var other =>
        cases Ty.mem_vars_var.mp occurs
        rw [bindVarFor_self] at failure
        cases failure
    | arrow domain codomain =>
        rw [bindVarFor_of_mem input (by simp) occurs] at failure
        cases failure
        exact .occursCheck occurs
    | int => exact absurd occurs Ty.not_mem_vars_int
    | bool => exact absurd occurs Ty.not_mem_vars_bool
  · rw [bindVarFor_of_not_mem input occurs] at failure
    cases failure

/-- Whatever unification fails with names an equation that follows from the given one. -/
theorem unify_rejects {left right : Ty} {error : TypeError}
    (failure : (unify left right).outcome = .error error) :
    ∃ expected actual, error.Rejects expected actual ∧ Entails left right expected actual := by
  induction left, right using unify_induction with
  | int => cases failure
  | bool => cases failure
  | varLeft name right => exact ⟨_, _, bindVarFor_rejects failure, .refl _ _⟩
  | varRight left name notVar => exact ⟨_, _, bindVarFor_rejects failure, .swap _ _⟩
  | clash left right clash =>
      cases failure
      exact ⟨left, right, .mismatch clash, .refl _ _⟩
  | domainsError leftDomain leftCodomain rightDomain rightCodomain _ _ _ domainsInduction =>
      obtain ⟨expected, actual, rejects, entails⟩ := domainsInduction failure
      exact ⟨expected, actual, rejects, (Entails.domains _ _ _ _).trans entails⟩
  | codomainsError leftDomain leftCodomain rightDomain rightCodomain domains _ events moreEvents
      domainsRun _ _ codomainsInduction =>
      obtain ⟨expected, actual, rejects, entails⟩ := codomainsInduction failure
      exact ⟨expected, actual, rejects,
        (Entails.codomains (solves_of_run domainsRun)).trans entails⟩
  | arrow => cases failure

/-- An error of unification reports a true consequence of its input.  A mismatch shows types
with different outermost constructors, and a failed occurs check a variable of a function
type.  The two sides are equal wherever the given types are, and all their variables come
from there. -/
theorem unify_error_entailed (left right : Ty) (error : TypeError)
    (failure : (unify left right).outcome = .error error) :
    match error with
    | .mismatch expected actual =>
        expected.Clash actual ∧
        (∀ subst : Subst, subst.apply left = subst.apply right →
          subst.apply expected = subst.apply actual) ∧
        Entails left right expected actual
    | .occursCheck var ty =>
        (∃ domain codomain, ty = .arrow domain codomain) ∧ var ∈ ty.vars ∧
        (∀ subst : Subst, subst.apply left = subst.apply right →
          subst.apply (.var var) = subst.apply ty) ∧
        Entails left right (.var var) ty
    | .unboundVariable _ => False
    | .unsupported _ => False := by
  obtain ⟨expected, actual, rejects, entails⟩ := unify_rejects failure
  cases rejects with
  | mismatch clash => exact ⟨clash, fun _ => entails.unifies, entails⟩
  | occursCheck occurs => exact ⟨⟨_, _, rfl⟩, occurs, fun _ => entails.unifies, entails⟩

/-- A reading in which every variable stands for the integers, and these are the functions
from integers to integers. -/
def Reading.circular : Reading Ty where
  var _ := .int
  arrow domain codomain :=
    if domain = .int ∧ codomain = .int then .int else .arrow domain codomain
  int := .int
  bool := .bool
  arrow_inj := by
    intro domain codomain otherDomain otherCodomain equal
    split at equal
    next ints =>
      split at equal
      next otherInts => exact ⟨ints.1.trans otherInts.1.symm, ints.2.trans otherInts.2.symm⟩
      next => cases equal
    next =>
      split at equal
      next => cases equal
      next => exact Ty.arrow.inj equal

/-- The first half of the equation binds `a` to `b`, so the function type that the second half
fails with is not the one that was given. -/
theorem unify_error_entailed_circular :
    (unify (.arrow (.var "a") (.var "b")) (.arrow (.var "b") (.arrow (.var "a") .int))).outcome =
        .error (.occursCheck "b" (.arrow (.var "b") .int)) ∧
      Reading.circular.read (.arrow (.var "a") (.var "b")) =
        Reading.circular.read (.arrow (.var "b") (.arrow (.var "a") .int)) ∧
      Reading.circular.read (.var "b") = Reading.circular.read (.arrow (.var "b") .int) ∧
      Reading.circular.read .int ≠ Reading.circular.read .bool := by
  have domains : Solves (.var "a") (.var "b") _ _ := .bindLeft (by simp)
  have codomains : unify ((Subst.singleton "a" (.var "b")).apply (.var "b"))
      ((Subst.singleton "a" (.var "b")).apply (.arrow (.var "a") .int)) =
      ⟨.error (.occursCheck "b" (.arrow (.var "b") .int)), []⟩ := by
    have rewritten : (Subst.singleton "a" (.var "b")).apply (.var "b") = .var "b" ∧
        (Subst.singleton "a" (.var "b")).apply (.arrow (.var "a") .int) =
          .arrow (.var "b") .int := by decide
    have occurs : "b" ∈ (Ty.arrow (.var "b") .int).vars := by simp
    rw [rewritten.1, rewritten.2, unify_var_left]
    exact bindVarFor_of_mem _ (by simp) occurs
  have failure := congrArg Traced.outcome
    (unify_arrow_of_codomains_error domains.run_eq codomains)
  have holds : Reading.circular.read (.arrow (.var "a") (.var "b")) =
      Reading.circular.read (.arrow (.var "b") (.arrow (.var "a") .int)) := by decide
  obtain ⟨_, _, _, entails⟩ := unify_error_entailed _ _ _ failure
  exact ⟨failure, holds, entails.equal _ holds, by decide⟩

end LetPoly
