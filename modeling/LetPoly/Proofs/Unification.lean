import LetPoly.Unify
import LetPoly.Proofs.Substitution

/-!
# Most general unifiers

`unify` recurs on types that its own first half has rewritten, so no induction on
the shape of a type follows it.  `unify_induction` packages the recursion once:
what holds of the equations that are solved at once, and passes from the two
halves of a function type to the whole, holds of every run.  A run is given by
its outcome and its events, so the principle serves failures as well as
successes.  `Solves` is the relation that holds of the successes alone.

The main result is that the substitution found is most general in the strong
form that every other unifier absorbs it (`Subst.MostGeneral`), and that a
failure means that no substitution makes the types equal.
-/

namespace LetPoly

/-! ## Runs of unification -/

/-- The outermost constructors of types that are not variables. -/
inductive Ty.Head where
  | arrow
  | int
  | bool
deriving DecidableEq

/-- The outermost constructor of a type, unless it is a variable. -/
def Ty.head? : Ty → Option Ty.Head
  | .var _ => none
  | .arrow _ _ => some .arrow
  | .int => some .int
  | .bool => some .bool

/-- Two types that are not variables have different outermost constructors. -/
def Ty.Clash (left right : Ty) : Prop :=
  ∃ leftHead rightHead,
    left.head? = some leftHead ∧ right.head? = some rightHead ∧ leftHead ≠ rightHead

theorem unify_of_clash {left right : Ty} (clash : left.Clash right) :
    unify left right = .fail (.mismatch left right) := by
  obtain ⟨leftHead, rightHead, leftEqual, rightEqual, different⟩ := clash
  cases left <;> cases leftEqual <;> cases right <;> cases rightEqual <;>
    first
    | exact absurd rfl different
    | simp [unify, unifyNarrowing, Traced.fail, Functor.map]

theorem unify_narrows {left right : Ty} {unifier : Unifier}
    (success : (unify left right).outcome = .ok unifier) :
    unifier.subst.Narrows (problemVars left right) := by
  rw [unify] at success
  cases run : unifyNarrowing left right with
  | mk outcome events =>
      rw [run] at success
      cases outcome with
      | error error => cases success
      | ok result =>
          cases success
          exact result.property

/-- Unification of function types whose domains do not unify. -/
theorem unify_arrow_of_domains_error {leftDomain leftCodomain rightDomain rightCodomain : Ty}
    {error : TypeError} {events : List Event}
    (domains : unify leftDomain rightDomain = ⟨.error error, events⟩) :
    unify (.arrow leftDomain leftCodomain) (.arrow rightDomain rightCodomain) =
      ⟨.error error, events⟩ := by
  rw [unify_arrow, domains]
  rfl

theorem unify_arrow_of_codomains_error {leftDomain leftCodomain rightDomain rightCodomain : Ty}
    {domains : Unifier} {error : TypeError} {events moreEvents : List Event}
    (domainsRun : unify leftDomain rightDomain = ⟨.ok domains, events⟩)
    (codomainsRun : unify (domains.subst.apply leftCodomain)
      (domains.subst.apply rightCodomain) = ⟨.error error, moreEvents⟩) :
    unify (.arrow leftDomain leftCodomain) (.arrow rightDomain rightCodomain) =
      ⟨.error error, events ++ moreEvents⟩ := by
  rw [unify_arrow, domainsRun, Traced.bind_ok, codomainsRun]
  rfl

theorem unify_arrow_of_ok {leftDomain leftCodomain rightDomain rightCodomain : Ty}
    {domains codomains : Unifier} {events moreEvents : List Event}
    (domainsRun : unify leftDomain rightDomain = ⟨.ok domains, events⟩)
    (codomainsRun : unify (domains.subst.apply leftCodomain)
      (domains.subst.apply rightCodomain) = ⟨.ok codomains, moreEvents⟩) :
    unify (.arrow leftDomain leftCodomain) (.arrow rightDomain rightCodomain) =
      ⟨.ok (.arrow (.arrow leftDomain leftCodomain) (.arrow rightDomain rightCodomain)
        domains codomains), events ++ moreEvents⟩ := by
  rw [unify_arrow, domainsRun, Traced.bind_ok, codomainsRun, Traced.bind_ok]
  simp [Traced.pure_eq]

/-- The recursion of `unify`, on the outcome and the events of a run. -/
theorem unify_induction {motive : Ty → Ty → Traced Unifier → Prop}
    (int : motive .int .int (pure (.base .int)))
    (bool : motive .bool .bool (pure (.base .bool)))
    (varLeft : ∀ name right, motive (.var name) right (bindVar name right))
    (varRight : ∀ left name, (∀ other, left ≠ .var other) →
      motive left (.var name)
        (bindVarFor (Derivation.unifyInput left (.var name)) name left))
    (clash : ∀ left right, left.Clash right →
      motive left right (.fail (.mismatch left right)))
    (domainsError : ∀ leftDomain leftCodomain rightDomain rightCodomain error events,
      unify leftDomain rightDomain = ⟨.error error, events⟩ →
      motive leftDomain rightDomain ⟨.error error, events⟩ →
      motive (.arrow leftDomain leftCodomain) (.arrow rightDomain rightCodomain)
        ⟨.error error, events⟩)
    (codomainsError : ∀ leftDomain leftCodomain rightDomain rightCodomain domains error
        events moreEvents,
      unify leftDomain rightDomain = ⟨.ok domains, events⟩ →
      motive leftDomain rightDomain ⟨.ok domains, events⟩ →
      unify (domains.subst.apply leftCodomain) (domains.subst.apply rightCodomain) =
        ⟨.error error, moreEvents⟩ →
      motive (domains.subst.apply leftCodomain) (domains.subst.apply rightCodomain)
        ⟨.error error, moreEvents⟩ →
      motive (.arrow leftDomain leftCodomain) (.arrow rightDomain rightCodomain)
        ⟨.error error, events ++ moreEvents⟩)
    (arrow : ∀ leftDomain leftCodomain rightDomain rightCodomain domains codomains
        events moreEvents,
      unify leftDomain rightDomain = ⟨.ok domains, events⟩ →
      motive leftDomain rightDomain ⟨.ok domains, events⟩ →
      unify (domains.subst.apply leftCodomain) (domains.subst.apply rightCodomain) =
        ⟨.ok codomains, moreEvents⟩ →
      motive (domains.subst.apply leftCodomain) (domains.subst.apply rightCodomain)
        ⟨.ok codomains, moreEvents⟩ →
      motive (.arrow leftDomain leftCodomain) (.arrow rightDomain rightCodomain)
        ⟨.ok (.arrow (.arrow leftDomain leftCodomain) (.arrow rightDomain rightCodomain)
          domains codomains), events ++ moreEvents⟩)
    (left right : Ty) : motive left right (unify left right) := by
  have ofClash : ∀ {left right : Ty}, left.Clash right → motive left right (unify left right) := by
    intro left right clashing
    rw [unify_of_clash clashing]
    exact clash left right clashing
  have ofVarRight : ∀ {left : Ty} (name : TyVar), (∀ other, left ≠ .var other) →
      motive left (.var name) (unify left (.var name)) := by
    intro left name notVar
    rw [unify_var_right name notVar]
    exact varRight left name notVar
  cases left with
  | var name =>
      rw [unify_var_left]
      exact varLeft name right
  | int =>
      cases right with
      | var name => exact ofVarRight name (by simp)
      | int =>
          rw [unify_int]
          exact int
      | arrow domain codomain => exact ofClash ⟨.int, .arrow, rfl, rfl, by decide⟩
      | bool => exact ofClash ⟨.int, .bool, rfl, rfl, by decide⟩
  | bool =>
      cases right with
      | var name => exact ofVarRight name (by simp)
      | bool =>
          rw [unify_bool]
          exact bool
      | arrow domain codomain => exact ofClash ⟨.bool, .arrow, rfl, rfl, by decide⟩
      | int => exact ofClash ⟨.bool, .int, rfl, rfl, by decide⟩
  | arrow leftDomain leftCodomain =>
      cases right with
      | var name => exact ofVarRight name (by simp)
      | arrow rightDomain rightCodomain =>
          have domainsInduction := unify_induction int bool varLeft varRight clash domainsError
            codomainsError arrow leftDomain rightDomain
          cases domainsRun : unify leftDomain rightDomain with
          | mk outcome events =>
              rw [domainsRun] at domainsInduction
              cases outcome with
              | error error =>
                  rw [unify_arrow_of_domains_error domainsRun]
                  exact domainsError _ _ _ _ _ _ domainsRun domainsInduction
              | ok domains =>
                  have narrows := unify_narrows (congrArg Traced.outcome domainsRun)
                  have codomainsInduction := unify_induction int bool varLeft varRight clash
                    domainsError codomainsError arrow (domains.subst.apply leftCodomain)
                    (domains.subst.apply rightCodomain)
                  cases codomainsRun : unify (domains.subst.apply leftCodomain)
                      (domains.subst.apply rightCodomain) with
                  | mk outcome moreEvents =>
                      rw [codomainsRun] at codomainsInduction
                      cases outcome with
                      | error error =>
                          rw [unify_arrow_of_codomains_error domainsRun codomainsRun]
                          exact codomainsError _ _ _ _ _ _ _ _ domainsRun domainsInduction
                            codomainsRun codomainsInduction
                      | ok codomains =>
                          rw [unify_arrow_of_ok domainsRun codomainsRun]
                          exact arrow _ _ _ _ _ _ _ _ domainsRun domainsInduction
                            codomainsRun codomainsInduction
      | int => exact ofClash ⟨.arrow, .int, rfl, rfl, by decide⟩
      | bool => exact ofClash ⟨.arrow, .bool, rfl, rfl, by decide⟩
termination_by problemMeasure left right
decreasing_by
  · exact problemMeasure_domains_lt _ _ _ _
  · exact problemMeasure_codomains_lt narrows

/-! ## Runs that succeed -/

/-- The solution of an equation between a variable and itself. -/
def Unifier.trivial (input : String) : Unifier :=
  ⟨∅, .unification .unifyVarSame input ∅ []⟩

/-- The solution that binds a variable to a type. -/
def Unifier.binding (input : String) (name : TyVar) (ty : Ty) : Unifier :=
  ⟨.singleton name ty, .unification .unifyVar input (.singleton name ty) []⟩

/-- A variable solves nothing, or it is bound to a type in which it does not occur. -/
theorem bindVarFor_eq_ok {input : String} {name : TyVar} {ty : Ty} {unifier : Unifier}
    {events : List Event} (run : bindVarFor input name ty = ⟨.ok unifier, events⟩) :
    (ty = .var name ∧ unifier = .trivial input ∧ events = []) ∨
      (name ∉ ty.vars ∧ unifier = .binding input name ty ∧ events = [.bound name ty]) := by
  by_cases same : ty = .var name
  · rw [same, bindVarFor_self] at run
    cases run
    exact .inl ⟨same, rfl, rfl⟩
  · by_cases occurs : name ∈ ty.vars
    · rw [bindVarFor_of_mem input same occurs] at run
      cases run
    · rw [bindVarFor_of_not_mem input occurs] at run
      cases run
      exact .inr ⟨occurs, rfl, rfl⟩

/-- Unification of two types succeeds with a unifier and reports events. -/
inductive Solves : Ty → Ty → Unifier → List Event → Prop where
  | int : Solves .int .int (.base .int) []
  | bool : Solves .bool .bool (.base .bool) []
  | same {name : TyVar} :
      Solves (.var name) (.var name)
        (.trivial (Derivation.unifyInput (.var name) (.var name))) []
  | bindLeft {name : TyVar} {right : Ty} :
      name ∉ right.vars →
      Solves (.var name) right
        (.binding (Derivation.unifyInput (.var name) right) name right) [.bound name right]
  | bindRight {left : Ty} {name : TyVar} :
      (∀ other, left ≠ .var other) →
      name ∉ left.vars →
      Solves left (.var name)
        (.binding (Derivation.unifyInput left (.var name)) name left) [.bound name left]
  | arrow {leftDomain leftCodomain rightDomain rightCodomain : Ty}
      {domains codomains : Unifier} {events moreEvents : List Event} :
      Solves leftDomain rightDomain domains events →
      Solves (domains.subst.apply leftCodomain) (domains.subst.apply rightCodomain)
        codomains moreEvents →
      Solves (.arrow leftDomain leftCodomain) (.arrow rightDomain rightCodomain)
        (.arrow (.arrow leftDomain leftCodomain) (.arrow rightDomain rightCodomain)
          domains codomains)
        (events ++ moreEvents)

theorem Solves.run_eq {left right : Ty} {unifier : Unifier} {events : List Event}
    (solves : Solves left right unifier events) :
    unify left right = ⟨.ok unifier, events⟩ := by
  induction solves with
  | int => exact unify_int
  | bool => exact unify_bool
  | same => exact (unify_var_left _ _).trans (bindVarFor_self _ _)
  | bindLeft absent => exact (unify_var_left _ _).trans (bindVarFor_of_not_mem _ absent)
  | bindRight notVar absent =>
      exact (unify_var_right _ notVar).trans (bindVarFor_of_not_mem _ absent)
  | arrow _ _ domainsInduction codomainsInduction =>
      exact unify_arrow_of_ok domainsInduction codomainsInduction

/-- Function types are unified by solving for their domains and then for the codomains that
this leaves. -/
theorem Solves.arrow_of_eq {leftDomain leftCodomain rightDomain rightCodomain left right : Ty}
    {domains codomains : Unifier} {events moreEvents : List Event}
    (domainsSolved : Solves leftDomain rightDomain domains events)
    (codomainsSolved : Solves left right codomains moreEvents)
    (leftEqual : domains.subst.apply leftCodomain = left)
    (rightEqual : domains.subst.apply rightCodomain = right) :
    Solves (.arrow leftDomain leftCodomain) (.arrow rightDomain rightCodomain)
      (.arrow (.arrow leftDomain leftCodomain) (.arrow rightDomain rightCodomain)
        domains codomains)
      (events ++ moreEvents) := by
  subst leftEqual rightEqual
  exact .arrow domainsSolved codomainsSolved

theorem solves_of_run {left right : Ty} {unifier : Unifier} {events : List Event}
    (run : unify left right = ⟨.ok unifier, events⟩) : Solves left right unifier events := by
  revert unifier events
  induction left, right using unify_induction with
  | int =>
      rintro _ _ ⟨⟩
      exact .int
  | bool =>
      rintro _ _ ⟨⟩
      exact .bool
  | varLeft name right =>
      intro unifier events run
      obtain ⟨rfl, rfl, rfl⟩ | ⟨absent, rfl, rfl⟩ := bindVarFor_eq_ok run
      · exact .same
      · exact .bindLeft absent
  | varRight left name notVar =>
      intro unifier events run
      obtain ⟨same, _⟩ | ⟨absent, rfl, rfl⟩ := bindVarFor_eq_ok run
      · exact absurd same (notVar name)
      · exact .bindRight notVar absent
  | clash left right clash => exact fun run => nomatch run
  | domainsError => exact fun run => nomatch run
  | codomainsError => exact fun run => nomatch run
  | arrow leftDomain leftCodomain rightDomain rightCodomain domains codomains events
      moreEvents domainsRun domainsInduction codomainsRun codomainsInduction =>
      rintro _ _ ⟨⟩
      exact .arrow (domainsInduction rfl) (codomainsInduction rfl)

/-- A successful outcome comes from a run that succeeds. -/
theorem solves_of_ok {left right : Ty} {unifier : Unifier}
    (success : (unify left right).outcome = .ok unifier) :
    Solves left right unifier (unify left right).events := by
  apply solves_of_run
  rw [← success]

/-! ## Unifiers -/

/-- A substitution makes two types equal. -/
def Subst.Unifies (subst : Subst) (left right : Ty) : Prop :=
  subst.apply left = subst.apply right

/-- A substitution makes two types equal, and every substitution that does so is
unchanged by acting after it. -/
structure Subst.MostGeneral (subst : Subst) (left right : Ty) : Prop where
  unifies : subst.Unifies left right
  absorbed : ∀ other : Subst, other.Unifies left right →
    ∀ ty, other.apply (subst.apply ty) = other.apply ty

theorem Subst.unifies_arrow {subst : Subst}
    {leftDomain leftCodomain rightDomain rightCodomain : Ty} :
    subst.Unifies (.arrow leftDomain leftCodomain) (.arrow rightDomain rightCodomain) ↔
      subst.Unifies leftDomain rightDomain ∧ subst.Unifies leftCodomain rightCodomain := by
  rw [Unifies, apply_arrow, apply_arrow, Ty.arrow.injEq]
  rfl

namespace Subst.MostGeneral

theorem empty (ty : Ty) : MostGeneral ∅ ty ty where
  unifies := rfl
  absorbed := by
    intro other _ target
    rw [apply_empty]

theorem symm {subst : Subst} {left right : Ty} (mostGeneral : subst.MostGeneral left right) :
    subst.MostGeneral right left where
  unifies := mostGeneral.unifies.symm
  absorbed := fun other unifies => mostGeneral.absorbed other unifies.symm

theorem singleton {name : TyVar} {ty : Ty} (absent : name ∉ ty.vars) :
    (Subst.singleton name ty).MostGeneral (.var name) ty where
  unifies := by
    have fixed : (Subst.singleton name ty).apply ty = ty := by
      refine apply_eq_self fun other member bound => ?_
      rw [binds_singleton] at bound
      exact absent (bound ▸ member)
    rw [Unifies, apply_singleton_self, fixed]
  absorbed := by
    intro other unifies target
    rw [← apply_comp]
    refine apply_congr fun source _ => ?_
    rw [apply_comp]
    by_cases same : source = name
    · rw [same, apply_singleton_self]
      exact unifies.symm
    · rw [apply_var_of_not_binds (by rwa [binds_singleton])]

/-- A most general unifier of the domains, and then one of the codomains as the
first leaves them, is a most general unifier of the function types. -/
theorem arrow {first second : Subst} {leftDomain leftCodomain rightDomain rightCodomain : Ty}
    (domains : first.MostGeneral leftDomain rightDomain)
    (codomains : second.MostGeneral (first.apply leftCodomain) (first.apply rightCodomain)) :
    (second.comp first).MostGeneral (.arrow leftDomain leftCodomain)
      (.arrow rightDomain rightCodomain) where
  unifies := by
    refine unifies_arrow.mpr ⟨?_, ?_⟩
    · rw [Unifies, apply_comp, apply_comp, domains.unifies]
    · rw [Unifies, apply_comp, apply_comp]
      exact codomains.unifies
  absorbed := by
    intro other unifies ty
    obtain ⟨onDomains, onCodomains⟩ := unifies_arrow.mp unifies
    have onRewritten : other.Unifies (first.apply leftCodomain) (first.apply rightCodomain) := by
      rw [Unifies, domains.absorbed other onDomains, domains.absorbed other onDomains]
      exact onCodomains
    calc other.apply ((second.comp first).apply ty)
        = other.apply (second.apply (first.apply ty)) := by rw [apply_comp]
      _ = other.apply (first.apply ty) := codomains.absorbed other onRewritten _
      _ = other.apply ty := domains.absorbed other onDomains ty

end Subst.MostGeneral

/-! ## Equations without a solution -/

theorem Subst.size_apply_var_le (subst : Subst) {name : TyVar} {ty : Ty}
    (occurs : name ∈ ty.vars) : (subst.apply (.var name)).size ≤ (subst.apply ty).size := by
  induction ty with
  | var other =>
      cases Ty.mem_vars_var.mp occurs
      exact Nat.le_refl _
  | arrow domain codomain domainInduction codomainInduction =>
      rw [apply_arrow, Ty.size]
      rcases Ty.mem_vars_arrow.mp occurs with inDomain | inCodomain
      · have smaller := domainInduction inDomain
        omega
      · have smaller := codomainInduction inCodomain
        omega
  | int => exact absurd occurs Ty.not_mem_vars_int
  | bool => exact absurd occurs Ty.not_mem_vars_bool

/-- A variable equals no larger type that contains it, under any substitution. -/
theorem Subst.not_unifies_of_mem (subst : Subst) {name : TyVar} {ty : Ty}
    (different : ty ≠ .var name) (occurs : name ∈ ty.vars) :
    ¬ subst.Unifies (.var name) ty := by
  intro unifies
  cases ty with
  | var other =>
      rw [Ty.mem_vars_var] at occurs
      exact different (occurs ▸ rfl)
  | arrow domain codomain =>
      have sizes := congrArg Ty.size unifies
      rw [apply_arrow, Ty.size] at sizes
      rcases Ty.mem_vars_arrow.mp occurs with inDomain | inCodomain
      · have smaller := subst.size_apply_var_le inDomain
        omega
      · have smaller := subst.size_apply_var_le inCodomain
        omega
  | int => exact Ty.not_mem_vars_int occurs
  | bool => exact Ty.not_mem_vars_bool occurs

theorem Subst.head?_apply (subst : Subst) {ty : Ty} {head : Ty.Head}
    (known : ty.head? = some head) : (subst.apply ty).head? = some head := by
  cases ty with
  | var name => cases known
  | arrow domain codomain => exact known
  | int => exact known
  | bool => exact known

theorem Ty.Clash.not_unifies {left right : Ty} (clash : left.Clash right) (subst : Subst) :
    ¬ subst.Unifies left right := by
  obtain ⟨leftHead, rightHead, leftKnown, rightKnown, different⟩ := clash
  intro unifies
  have heads := congrArg Ty.head? unifies
  rw [subst.head?_apply leftKnown, subst.head?_apply rightKnown] at heads
  exact different (Option.some.inj heads)

/-! ## What a run decides -/

/-- A run answers an equation between types: a result is a most general unifier,
and an error means that there is none. -/
def Traced.Decides (run : Traced Unifier) (left right : Ty) : Prop :=
  match run.outcome with
  | .ok unifier => unifier.subst.MostGeneral left right
  | .error _ => ∀ subst : Subst, ¬ subst.Unifies left right

theorem Traced.Decides.symm {run : Traced Unifier} {left right : Ty}
    (decides : run.Decides left right) : run.Decides right left := by
  unfold Traced.Decides at *
  split at decides
  next unifier success => exact decides.symm
  next error failure => exact fun subst unifies => decides subst unifies.symm

theorem bindVarFor_decides (input : String) (name : TyVar) (ty : Ty) :
    (bindVarFor input name ty).Decides (.var name) ty := by
  by_cases same : ty = .var name
  · rw [same, bindVarFor_self]
    exact Subst.MostGeneral.empty _
  · by_cases occurs : name ∈ ty.vars
    · rw [bindVarFor_of_mem input same occurs]
      exact fun subst => subst.not_unifies_of_mem same occurs
    · rw [bindVarFor_of_not_mem input occurs]
      exact Subst.MostGeneral.singleton occurs

theorem unify_decides (left right : Ty) : (unify left right).Decides left right := by
  induction left, right using unify_induction with
  | int => exact Subst.MostGeneral.empty _
  | bool => exact Subst.MostGeneral.empty _
  | varLeft name right => exact bindVarFor_decides _ name right
  | varRight left name notVar => exact (bindVarFor_decides _ name left).symm
  | clash left right clash => exact clash.not_unifies
  | domainsError leftDomain leftCodomain rightDomain rightCodomain error events run induction =>
      exact fun subst unifies => induction subst (Subst.unifies_arrow.mp unifies).1
  | codomainsError leftDomain leftCodomain rightDomain rightCodomain domains error events
      moreEvents domainsRun domainsInduction codomainsRun codomainsInduction =>
      intro subst unifies
      obtain ⟨onDomains, onCodomains⟩ := Subst.unifies_arrow.mp unifies
      have absorbed := domainsInduction.absorbed subst onDomains
      -- A solution of the whole solves the rewritten codomains, which have none.
      refine codomainsInduction subst ?_
      rw [Subst.Unifies, absorbed, absorbed]
      exact onCodomains
  | arrow leftDomain leftCodomain rightDomain rightCodomain domains codomains events
      moreEvents domainsRun domainsInduction codomainsRun codomainsInduction =>
      exact Subst.MostGeneral.arrow domainsInduction codomainsInduction

theorem mostGeneral_of_unify {left right : Ty} {unifier : Unifier}
    (success : (unify left right).outcome = .ok unifier) :
    unifier.subst.MostGeneral left right := by
  have decides := unify_decides left right
  rw [Traced.Decides, success] at decides
  exact decides

theorem exists_unify_of_unifies {left right : Ty} {subst : Subst}
    (unifies : subst.Unifies left right) :
    ∃ unifier events, unify left right = ⟨.ok unifier, events⟩ := by
  have decides := unify_decides left right
  rcases run : unify left right with ⟨outcome, events⟩
  rw [run] at decides
  cases outcome with
  | ok unifier => exact ⟨unifier, events, rfl⟩
  | error error => exact absurd unifies (decides subst)

/-- Unification succeeds exactly on the types that some substitution makes equal,
and what it finds is a most general unifier. -/
theorem unify_mostGeneral (left right : Ty) :
    ((∃ unifier, (unify left right).outcome = .ok unifier) ↔
      ∃ subst : Subst, subst.apply left = subst.apply right) ∧
    ∀ unifier, (unify left right).outcome = .ok unifier →
      unifier.subst.apply left = unifier.subst.apply right ∧
      ∀ other : Subst, other.apply left = other.apply right →
        ∀ ty, other.apply (unifier.subst.apply ty) = other.apply ty := by
  refine ⟨⟨?_, ?_⟩, ?_⟩
  · rintro ⟨unifier, success⟩
    exact ⟨unifier.subst, (mostGeneral_of_unify success).unifies⟩
  · rintro ⟨subst, unifies⟩
    obtain ⟨unifier, events, run⟩ := exists_unify_of_unifies unifies
    exact ⟨unifier, congrArg Traced.outcome run⟩
  · intro unifier success
    have mostGeneral := mostGeneral_of_unify success
    exact ⟨mostGeneral.unifies, mostGeneral.absorbed⟩

/-- What the codomains say about a shared variable reaches the domains. -/
theorem unify_mostGeneral_shared :
    ∃ unifier, (unify (.arrow (.var "a") (.var "b")) (.arrow (.var "b") .int)).outcome =
        .ok unifier ∧
      unifier.subst.apply (.var "a") = .int ∧ unifier.subst.apply (.var "b") = .int := by
  have mostGeneral := unify_mostGeneral (.arrow (.var "a") (.var "b")) (.arrow (.var "b") .int)
  obtain ⟨unifier, success⟩ := mostGeneral.1.mpr ⟨.ofList [("a", .int), ("b", .int)], by decide⟩
  obtain ⟨domains, codomains⟩ := Ty.arrow.inj (mostGeneral.2 unifier success).1
  exact ⟨unifier, success, domains.trans codomains, codomains⟩

/-! ## Locality -/

/-- What a run has found only concerns the variables of its equation, and is
resolved. -/
def Traced.Relevant (run : Traced Unifier) (left right : Ty) : Prop :=
  ∀ unifier, run.outcome = .ok unifier →
    unifier.subst.Localized (· ∈ problemVars left right) ∧ unifier.subst.Resolved

theorem Solves.relevant {left right : Ty} {unifier : Unifier} {events : List Event}
    (solves : Solves left right unifier events) :
    unifier.subst.Localized (· ∈ problemVars left right) ∧ unifier.subst.Resolved := by
  induction solves with
  | int => exact ⟨.empty _, .empty⟩
  | bool => exact ⟨.empty _, .empty⟩
  | same => exact ⟨.empty _, .empty⟩
  | bindLeft absent => exact ⟨.singleton (by simp) (by simp +contextual), .singleton absent⟩
  | bindRight _ absent => exact ⟨.singleton (by simp) (by simp +contextual), .singleton absent⟩
  | @arrow leftDomain leftCodomain rightDomain rightCodomain domains codomains events moreEvents
      domainsSolves _ domainsInduction codomainsInduction =>
      obtain ⟨domainsLocalized, domainsResolved⟩ := domainsInduction
      obtain ⟨codomainsLocalized, codomainsResolved⟩ := codomainsInduction
      have narrows := unify_narrows (congrArg Traced.outcome domainsSolves.run_eq)
      refine ⟨.comp ?_ ?_, .comp codomainsResolved domainsResolved codomainsLocalized ?_⟩
      · exact codomainsLocalized.mono fun name => mem_problemVars_of_codomains narrows
      · exact domainsLocalized.mono fun name => mem_problemVars_of_domains
      · -- The domains' keys are gone from the codomains before these are unified.
        intro key bound membership
        rcases mem_problemVars.mp membership with inLeft | inRight
        · exact domainsResolved key bound leftCodomain inLeft
        · exact domainsResolved key bound rightCodomain inRight

theorem unify_relevant (left right : Ty) : (unify left right).Relevant left right :=
  fun _ success => (solves_of_ok success).relevant

end LetPoly
