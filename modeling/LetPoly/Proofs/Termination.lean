import LetPoly.Proofs.Unification

/-!
# Why unification ends

A call of `unify` on two function types makes at most two more calls: one on the domains
and, where that one succeeds, one on the codomains as it leaves them.  `UnifyCalls` relates
a call to the calls that it makes.

The second of the two may be on types that are larger than the given ones, by any amount
(`exists_unifyCalls_growing`), so the size of the types alone says nothing.  But what the
first call has bound is gone.  Either it has bound something, and then fewer distinct
variables are left, or it has bound nothing, and then the codomains are parts of the given
types.  That is why each call is smaller in the lexicographic order of the two numbers.

`UnifyRuns` is the recursion as it stands, without a measure and without a bound on its
depth.  A run is made of the runs of the calls it makes, so there is one only where the
recursion ends.
-/

namespace LetPoly

/-! ## Calls -/

/-- A call of unification on the first pair of types makes a call on the second. -/
inductive UnifyCalls : Ty × Ty → Ty × Ty → Prop where
  | domains {leftDomain leftCodomain rightDomain rightCodomain : Ty} :
      UnifyCalls (.arrow leftDomain leftCodomain, .arrow rightDomain rightCodomain)
        (leftDomain, rightDomain)
  | codomains {leftDomain leftCodomain rightDomain rightCodomain : Ty} {domains : Unifier} :
      (unify leftDomain rightDomain).outcome = .ok domains →
      UnifyCalls (.arrow leftDomain leftCodomain, .arrow rightDomain rightCodomain)
        (domains.subst.apply leftCodomain, domains.subst.apply rightCodomain)

/-- A call is made on an equation with fewer distinct variables, or with as many and with
smaller types. -/
theorem UnifyCalls.decreases {outer inner : Ty × Ty} (calls : UnifyCalls outer inner) :
    Prod.Lex (· < ·) (· < ·) (problemMeasure inner.1 inner.2)
      (problemMeasure outer.1 outer.2) := by
  cases calls with
  | domains => exact problemMeasure_domains_lt _ _ _ _
  | codomains success => exact problemMeasure_codomains_lt (unify_narrows success)

/-- No call leads to an endless chain of calls. -/
theorem wellFounded_unifyCalls : WellFounded fun inner outer => UnifyCalls outer inner :=
  Subrelation.wf UnifyCalls.decreases
    (InvImage.wf (fun pair : Ty × Ty => problemMeasure pair.1 pair.2)
      (Prod.lex Nat.lt_wfRel Nat.lt_wfRel).wf)

/-! ## Calls on larger types -/

/-- A function type with a number of arguments and no variables. -/
def Ty.curried : Nat → Ty
  | 0 => .int
  | count + 1 => .arrow .int (curried count)

theorem Ty.size_curried (count : Nat) : (curried count).size = 2 * count + 1 := by
  induction count with
  | zero => rfl
  | succ count induction =>
      simp only [curried, size, induction]
      omega

theorem Ty.not_mem_vars_curried (count : Nat) (name : TyVar) : name ∉ (curried count).vars := by
  induction count with
  | zero => exact not_mem_vars_int
  | succ count induction => simp [curried, induction]

/-- A variable that the domains bind stands in the codomains twice. -/
def doubling (count : Nat) : Ty × Ty :=
  (.arrow (.var "a") (.arrow (.var "a") (.var "a")), .arrow (.curried count) .int)

/-- The codomains of `doubling`, with the type put in that the variable is bound to. -/
def doubled (count : Nat) : Ty × Ty :=
  (.arrow (.curried count) (.curried count), .int)

theorem unifyCalls_doubling (count : Nat) : UnifyCalls (doubling count) (doubled count) := by
  have bound : (unify (.var "a") (.curried count)).outcome =
      .ok (.binding (Derivation.unifyInput (.var "a") (.curried count)) "a" (.curried count)) :=
    congrArg Traced.outcome (Solves.bindLeft (Ty.not_mem_vars_curried count "a")).run_eq
  have calls : UnifyCalls (doubling count) _ := .codomains bound
  rw [Unifier.binding, Subst.apply_arrow, Subst.apply_singleton_self] at calls
  exact calls

theorem exists_unifyCalls_growing (growth : Nat) :
    ∃ outer inner, UnifyCalls outer inner ∧
      outer.1.size + outer.2.size + growth < inner.1.size + inner.2.size := by
  refine ⟨_, _, unifyCalls_doubling (growth + 3), ?_⟩
  simp only [doubling, doubled, Ty.size, Ty.size_curried]
  omega

/-! ## The recursion without a measure -/

/-- Unification of two types, as the recursion is written, ends in a run. -/
inductive UnifyRuns : Ty → Ty → Traced Unifier → Prop where
  | int : UnifyRuns .int .int (pure (.base .int))
  | bool : UnifyRuns .bool .bool (pure (.base .bool))
  | varLeft {name : TyVar} {right : Ty} :
      UnifyRuns (.var name) right (bindVar name right)
  | varRight {left : Ty} {name : TyVar} :
      (∀ other, left ≠ .var other) →
      UnifyRuns left (.var name)
        (bindVarFor (Derivation.unifyInput left (.var name)) name left)
  | clash {left right : Ty} :
      left.Clash right →
      UnifyRuns left right (.fail (.mismatch left right))
  | domainsError {leftDomain leftCodomain rightDomain rightCodomain : Ty} {error : TypeError}
      {events : List Event} :
      UnifyRuns leftDomain rightDomain ⟨.error error, events⟩ →
      UnifyRuns (.arrow leftDomain leftCodomain) (.arrow rightDomain rightCodomain)
        ⟨.error error, events⟩
  | codomainsError {leftDomain leftCodomain rightDomain rightCodomain : Ty}
      {domains : Unifier} {error : TypeError} {events moreEvents : List Event} :
      UnifyRuns leftDomain rightDomain ⟨.ok domains, events⟩ →
      UnifyRuns (domains.subst.apply leftCodomain) (domains.subst.apply rightCodomain)
        ⟨.error error, moreEvents⟩ →
      UnifyRuns (.arrow leftDomain leftCodomain) (.arrow rightDomain rightCodomain)
        ⟨.error error, events ++ moreEvents⟩
  | arrow {leftDomain leftCodomain rightDomain rightCodomain : Ty}
      {domains codomains : Unifier} {events moreEvents : List Event} :
      UnifyRuns leftDomain rightDomain ⟨.ok domains, events⟩ →
      UnifyRuns (domains.subst.apply leftCodomain) (domains.subst.apply rightCodomain)
        ⟨.ok codomains, moreEvents⟩ →
      UnifyRuns (.arrow leftDomain leftCodomain) (.arrow rightDomain rightCodomain)
        ⟨.ok (.arrow (.arrow leftDomain leftCodomain) (.arrow rightDomain rightCodomain)
          domains codomains), events ++ moreEvents⟩

/-- Every run ends with what `unify` computes. -/
theorem UnifyRuns.eq_unify {left right : Ty} {run : Traced Unifier}
    (runs : UnifyRuns left right run) : run = unify left right := by
  induction runs with
  | int => exact unify_int.symm
  | bool => exact unify_bool.symm
  | varLeft => exact (unify_var_left _ _).symm
  | varRight notVar => exact (unify_var_right _ notVar).symm
  | clash clash => exact (unify_of_clash clash).symm
  | domainsError _ domainsInduction =>
      exact (unify_arrow_of_domains_error domainsInduction.symm).symm
  | codomainsError _ _ domainsInduction codomainsInduction =>
      exact (unify_arrow_of_codomains_error domainsInduction.symm codomainsInduction.symm).symm
  | arrow _ _ domainsInduction codomainsInduction =>
      exact (unify_arrow_of_ok domainsInduction.symm codomainsInduction.symm).symm

/-- The recursion ends on every pair of types. -/
theorem unifyRuns_unify (left right : Ty) : UnifyRuns left right (unify left right) := by
  induction left, right using unify_induction with
  | int => exact .int
  | bool => exact .bool
  | varLeft name right => exact .varLeft
  | varRight left name notVar => exact .varRight notVar
  | clash left right clash => exact .clash clash
  | domainsError _ _ _ _ _ _ _ domainsRuns => exact .domainsError domainsRuns
  | codomainsError _ _ _ _ _ _ _ _ _ domainsRuns _ codomainsRuns =>
      exact .codomainsError domainsRuns codomainsRuns
  | arrow _ _ _ _ _ _ _ _ _ domainsRuns _ codomainsRuns =>
      exact .arrow domainsRuns codomainsRuns

/-- Unification ends on every pair of types.  Each call that it makes is smaller in the
lexicographic order of the number of distinct variables and the size of both types, although
the types themselves may have grown by any amount.  So the recursion without any bound has
exactly one run on each pair, which is the one that `unify` computes. -/
theorem unify_terminates :
    (∀ outer inner, UnifyCalls outer inner →
      Prod.Lex (· < ·) (· < ·)
        ((problemVars inner.1 inner.2).size, inner.1.size + inner.2.size)
        ((problemVars outer.1 outer.2).size, outer.1.size + outer.2.size)) ∧
    (WellFounded fun inner outer => UnifyCalls outer inner) ∧
    (∀ growth, ∃ outer inner, UnifyCalls outer inner ∧
      outer.1.size + outer.2.size + growth < inner.1.size + inner.2.size) ∧
    ∀ left right, UnifyRuns left right (unify left right) ∧
      ∀ run, UnifyRuns left right run → run = unify left right := by
  refine ⟨fun _ _ calls => calls.decreases, wellFounded_unifyCalls, exists_unifyCalls_growing, ?_⟩
  intro left right
  exact ⟨unifyRuns_unify left right, fun _ runs => runs.eq_unify⟩

/-- To unify `a -> a -> a` and `(Int -> Int -> Int -> Int) -> Int` is to unify larger types,
which have one variable less. -/
theorem unify_terminates_growing :
    UnifyCalls (doubling 3) (doubled 3) ∧
      (doubling 3).1.size + (doubling 3).2.size = 14 ∧
      (doubled 3).1.size + (doubled 3).2.size = 16 ∧
      (problemVars (doubling 3).1 (doubling 3).2).size = 1 ∧
      (problemVars (doubled 3).1 (doubled 3).2).size = 0 ∧
      Prod.Lex (· < ·) (· < ·)
        ((problemVars (doubled 3).1 (doubled 3).2).size,
          (doubled 3).1.size + (doubled 3).2.size)
        ((problemVars (doubling 3).1 (doubling 3).2).size,
          (doubling 3).1.size + (doubling 3).2.size) :=
  ⟨unifyCalls_doubling 3, by decide, by decide, by decide, by decide,
    unify_terminates.1 _ _ (unifyCalls_doubling 3)⟩

end LetPoly
