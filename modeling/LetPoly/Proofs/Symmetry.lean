import LetPoly.Proofs.Renaming

/-!
# The two sides of an equation

`unify` treats its arguments differently.  Between two variables it binds the left one, and a
mismatch calls the left type the expected one.  Otherwise the sides can be exchanged: the two
runs take the same branches and end in the same way, up to a renaming of variables
(`unify_swapped`).

The two runs do not stay equal on the way.  After a binding between variables they go on with
differently named types, so the codomains of one run are those of the other under a renaming.
There `unify_renamed` comes in, and each such binding adds a swap of two names to the renaming.
In this way the renaming is built along the run.  Nothing has to be counted, and it moves no
name from outside the equation (`Renaming.MovesOnly`).
-/

namespace LetPoly

/-! ## Renamings of a few names -/

/-- A renaming leaves all names alone but the given ones. -/
def Renaming.MovesOnly (perm : Renaming) (names : NameSet) : Prop :=
  ∀ name, name ∉ names → perm name = name

namespace Renaming.MovesOnly

theorem refl (names : NameSet) : MovesOnly (Equiv.refl TyVar) names :=
  fun _ _ => rfl

theorem swap {first second : TyVar} {names : NameSet} (firstMember : first ∈ names)
    (secondMember : second ∈ names) : MovesOnly (Equiv.swap first second) names := by
  intro name absent
  have notFirst : name ≠ first := fun same => absent (same ▸ firstMember)
  have notSecond : name ≠ second := fun same => absent (same ▸ secondMember)
  exact Equiv.swap_apply_of_ne_of_ne notFirst notSecond

theorem mono {perm : Renaming} {smaller larger : NameSet} (moves : perm.MovesOnly smaller)
    (subset : ∀ name ∈ smaller, name ∈ larger) : perm.MovesOnly larger :=
  fun name absent => moves name fun member => absent (subset name member)

theorem trans {first second : Renaming} {names : NameSet} (firstMoves : first.MovesOnly names)
    (secondMoves : second.MovesOnly names) : MovesOnly (first.trans second) names := by
  intro name absent
  rw [Equiv.trans_apply, firstMoves name absent, secondMoves name absent]

end Renaming.MovesOnly

/-! ## Runs with exchanged sides -/

/-- An error is another one with its sides exchanged, up to a renaming. -/
inductive TypeError.Swapped (perm : Renaming) : TypeError → TypeError → Prop where
  | mismatch {expected actual : Ty} :
      Swapped perm (.mismatch expected actual)
        (.mismatch (actual.rename perm) (expected.rename perm))
  | occursCheck {var : TyVar} {ty : Ty} :
      Swapped perm (.occursCheck var ty) (.occursCheck (perm var) (ty.rename perm))

theorem TypeError.Swapped.rename {perm : Renaming} {left right : TypeError}
    (swapped : left.Swapped perm right) (further : Renaming) :
    left.Swapped (perm.trans further) (right.rename further) := by
  cases swapped with
  | mismatch =>
      simp only [TypeError.rename, Ty.rename_rename]
      exact .mismatch
  | occursCheck =>
      simp only [TypeError.rename, Ty.rename_rename]
      exact .occursCheck

/-- A run ends as another one does that was given the sides of the equation in the other
order and renamed.  The results of the two runs differ by a second renaming. -/
inductive Traced.Swapped (before after : Renaming) : Traced Unifier → Traced Unifier → Prop where
  | ok {left right : Unifier} {leftEvents rightEvents : List Event} :
      (∀ ty, right.subst.apply (ty.rename before) = (left.subst.apply ty).rename after) →
      Swapped before after ⟨.ok left, leftEvents⟩ ⟨.ok right, rightEvents⟩
  | error {left right : TypeError} {leftEvents rightEvents : List Event} :
      left.Swapped after right →
      Swapped before after ⟨.error left, leftEvents⟩ ⟨.error right, rightEvents⟩

namespace Traced.Swapped

/-- Two runs that find the same substitution. -/
theorem same {left right : Unifier} {leftEvents rightEvents : List Event}
    (equal : right.subst = left.subst) :
    Swapped (Equiv.refl TyVar) (Equiv.refl TyVar) ⟨.ok left, leftEvents⟩
      ⟨.ok right, rightEvents⟩ := by
  refine .ok fun ty => ?_
  rw [Ty.rename_refl, Ty.rename_refl, equal]

/-- The second run may be replaced by the same run on renamed types. -/
theorem renamed {perm before : Renaming} {left middle right : Traced Unifier}
    (swapped : left.Swapped (Equiv.refl TyVar) perm middle)
    (renamed : middle.Renamed before right) :
    left.Swapped before (perm.trans before) right := by
  cases swapped with
  | @ok leftUnifier middleUnifier _ _ images =>
      cases renamed with
      | @ok _ rightUnifier _ _ equal =>
          refine .ok fun ty => ?_
          have image := images ty
          rw [Ty.rename_refl] at image
          calc rightUnifier.subst.apply (ty.rename before)
              = (middleUnifier.subst.apply ty).rename before := by
                rw [equal, Subst.apply_rename]
            _ = (leftUnifier.subst.apply ty).rename (perm.trans before) := by
                rw [image, Ty.rename_rename]
  | error errors =>
      cases renamed with
      | error => exact .error (errors.rename before)

end Traced.Swapped

/-! ## Solving the exchanged equation -/

/-- The same variable is bound to the same type, whatever the equation looked like. -/
theorem bindVarFor_swapped (input otherInput : String) (name : TyVar) (ty : Ty) :
    (bindVarFor input name ty).Swapped (Equiv.refl TyVar) (Equiv.refl TyVar)
      (bindVarFor otherInput name ty) := by
  by_cases same : ty = .var name
  · rw [same, bindVarFor_self, bindVarFor_self]
    exact .same rfl
  · by_cases occurs : name ∈ ty.vars
    · have error := @TypeError.Swapped.occursCheck (Equiv.refl TyVar) name ty
      rw [Ty.rename_refl] at error
      rw [bindVarFor_of_mem input same occurs, bindVarFor_of_mem otherInput same occurs]
      exact .error error
    · rw [bindVarFor_of_not_mem input occurs, bindVarFor_of_not_mem otherInput occurs]
      exact .same rfl

/-- Two variables are bound to each other, and a swap tells the results apart. -/
theorem bindVar_swapped {first second : TyVar} (different : first ≠ second) :
    (bindVar first (.var second)).Swapped (Equiv.refl TyVar) (Equiv.swap first second)
      (bindVar second (.var first)) := by
  have firstAbsent : first ∉ (Ty.var second).vars := by simp [different]
  have secondAbsent : second ∉ (Ty.var first).vars := by simp [different.symm]
  rw [bindVar, bindVar, bindVarFor_of_not_mem _ firstAbsent, bindVarFor_of_not_mem _ secondAbsent]
  refine .ok fun ty => ?_
  refine Subst.apply_rename_of_forall fun name _ => ?_
  rw [Equiv.refl_apply]
  by_cases isFirst : name = first
  · simp [isFirst, Subst.apply, Ty.rename, different]
  · by_cases isSecond : name = second
    · simp [isSecond, Subst.apply, Ty.rename, different.symm]
    · simp [Subst.apply, Ty.rename, isFirst, isSecond, Equiv.swap_apply_of_ne_of_ne]

/-- A variable on the left of an equation, and on the right of the exchanged one. -/
theorem unify_var_swapped (name : TyVar) (right : Ty) :
    ∃ perm : Renaming, perm.MovesOnly (problemVars (.var name) right) ∧
      (bindVar name right).Swapped (Equiv.refl TyVar) perm (unify right (.var name)) := by
  by_cases isVar : ∃ other, right = .var other
  · obtain ⟨other, rfl⟩ := isVar
    rw [unify_var_left]
    by_cases same : name = other
    · rw [same]
      exact ⟨_, .refl _, bindVarFor_swapped _ _ other (.var other)⟩
    · exact ⟨_, .swap (by simp) (by simp), bindVar_swapped same⟩
  · have notVar : ∀ other, right ≠ .var other := fun other equal => isVar ⟨other, equal⟩
    rw [unify_var_right name notVar]
    exact ⟨_, .refl _, bindVarFor_swapped _ _ name right⟩

theorem Ty.Clash.symm {left right : Ty} (clash : left.Clash right) : right.Clash left := by
  obtain ⟨leftHead, rightHead, leftKnown, rightKnown, different⟩ := clash
  exact ⟨rightHead, leftHead, rightKnown, leftKnown, different.symm⟩

/-- Once the domains are solved in both runs, the codomains of the second run are those of the
first under the renaming so far. -/
theorem unify_codomains_swapped {domains exchanged : Unifier} {perm further : Renaming}
    {leftCodomain rightCodomain : Ty} {run : Traced Unifier}
    (images : ∀ ty, exchanged.subst.apply (ty.rename (Equiv.refl TyVar)) =
      (domains.subst.apply ty).rename perm)
    (swapped : run.Swapped (Equiv.refl TyVar) further
      (unify (domains.subst.apply rightCodomain) (domains.subst.apply leftCodomain))) :
    run.Swapped perm (further.trans perm)
      (unify (exchanged.subst.apply rightCodomain) (exchanged.subst.apply leftCodomain)) := by
  simp only [Ty.rename_refl] at images
  rw [images, images]
  exact swapped.renamed (unify_renamed perm _ _)

/-- What moves only names of the domains, or of the codomains after these are solved, moves
only names of the function types. -/
theorem Renaming.MovesOnly.arrow {perm further : Renaming} {domains : Unifier}
    {leftDomain leftCodomain rightDomain rightCodomain : Ty} {events : List Event}
    (run : unify leftDomain rightDomain = ⟨.ok domains, events⟩)
    (onDomains : perm.MovesOnly (problemVars leftDomain rightDomain))
    (onCodomains : further.MovesOnly
      (problemVars (domains.subst.apply leftCodomain) (domains.subst.apply rightCodomain))) :
    MovesOnly (further.trans perm)
      (problemVars (.arrow leftDomain leftCodomain) (.arrow rightDomain rightCodomain)) := by
  have narrows := unify_narrows (congrArg Traced.outcome run)
  exact .trans (onCodomains.mono fun _ => mem_problemVars_of_codomains narrows)
    (onDomains.mono fun _ => mem_problemVars_of_domains)

/-- Exchanging the sides of an equation exchanges the sides of an error and renames
variables of the equation, and has no other effect. -/
theorem unify_swapped (left right : Ty) :
    ∃ perm : Renaming, perm.MovesOnly (problemVars left right) ∧
      (unify left right).Swapped (Equiv.refl TyVar) perm (unify right left) := by
  induction left, right using unify_induction with
  | int =>
      rw [unify_int]
      exact ⟨_, .refl _, .same rfl⟩
  | bool =>
      rw [unify_bool]
      exact ⟨_, .refl _, .same rfl⟩
  | varLeft name right => exact unify_var_swapped name right
  | varRight left name notVar =>
      rw [unify_var_left]
      exact ⟨_, .refl _, bindVarFor_swapped _ _ name left⟩
  | clash left right clash =>
      have error := @TypeError.Swapped.mismatch (Equiv.refl TyVar) left right
      rw [Ty.rename_refl, Ty.rename_refl] at error
      rw [unify_of_clash clash.symm]
      exact ⟨_, .refl _, .error error⟩
  | domainsError leftDomain leftCodomain rightDomain rightCodomain error events run induction =>
      obtain ⟨perm, moves, swapped⟩ := induction
      generalize exchangedRun : unify rightDomain leftDomain = exchanged at swapped
      cases swapped with
      | error errors =>
          rw [unify_arrow_of_domains_error exchangedRun]
          exact ⟨perm, moves.mono fun _ => mem_problemVars_of_domains, .error errors⟩
  | codomainsError leftDomain leftCodomain rightDomain rightCodomain domains error events
      moreEvents domainsRun domainsInduction codomainsRun codomainsInduction =>
      obtain ⟨perm, moves, domainsSwapped⟩ := domainsInduction
      obtain ⟨further, movesFurther, codomainsSwapped⟩ := codomainsInduction
      generalize exchangedRun : unify rightDomain leftDomain = exchanged at domainsSwapped
      cases domainsSwapped with
      | ok images =>
          have swapped := unify_codomains_swapped images codomainsSwapped
          generalize exchangedCodomains : unify (Subst.apply _ rightCodomain) _ =
            exchanged at swapped
          cases swapped with
          | error errors =>
              rw [unify_arrow_of_codomains_error exchangedRun exchangedCodomains]
              exact ⟨_, moves.arrow domainsRun movesFurther, .error errors⟩
  | arrow leftDomain leftCodomain rightDomain rightCodomain domains codomains events
      moreEvents domainsRun domainsInduction codomainsRun codomainsInduction =>
      obtain ⟨perm, moves, domainsSwapped⟩ := domainsInduction
      obtain ⟨further, movesFurther, codomainsSwapped⟩ := codomainsInduction
      generalize exchangedRun : unify rightDomain leftDomain = exchanged at domainsSwapped
      cases domainsSwapped with
      | ok images =>
          have swapped := unify_codomains_swapped images codomainsSwapped
          generalize exchangedCodomains : unify (Subst.apply _ rightCodomain) _ =
            exchanged at swapped
          cases swapped with
          | ok moreImages =>
              rw [unify_arrow_of_ok exchangedRun exchangedCodomains]
              refine ⟨_, moves.arrow domainsRun movesFurther, .ok fun ty => ?_⟩
              rw [Unifier.arrow, Unifier.arrow, Subst.apply_comp, Subst.apply_comp, images,
                moreImages]

/-- The outcome of unification does not depend on the order of its arguments.  Both orders
succeed or both fail.  Where they succeed, the two unifiers act alike up to one renaming, and
where they fail, they do so for the same reason, with the same payload up to the renaming and
with the sides of a mismatch exchanged.  Only variables of the two types are renamed. -/
theorem unify_order_irrelevant (left right : Ty) :
    ∃ perm : Renaming, (∀ name, name ∉ problemVars left right → perm name = name) ∧
      match (unify left right).outcome, (unify right left).outcome with
      | .ok unifier, .ok exchanged =>
          ∀ ty, exchanged.subst.apply ty = (unifier.subst.apply ty).rename perm
      | .error (.mismatch expected actual), .error (.mismatch otherExpected otherActual) =>
          otherExpected = actual.rename perm ∧ otherActual = expected.rename perm
      | .error (.occursCheck var ty), .error (.occursCheck otherVar otherTy) =>
          otherVar = perm var ∧ otherTy = ty.rename perm
      | _, _ => False := by
  obtain ⟨perm, moves, swapped⟩ := unify_swapped left right
  refine ⟨perm, moves, ?_⟩
  generalize unify left right = run, unify right left = exchanged at swapped
  cases swapped with
  | ok images => simpa only [Ty.rename_refl] using images
  | error errors =>
      cases errors with
      | mismatch => exact ⟨rfl, rfl⟩
      | occursCheck => exact ⟨rfl, rfl⟩

end LetPoly
