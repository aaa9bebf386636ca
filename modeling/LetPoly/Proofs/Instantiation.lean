import LetPoly.Scheme.Instantiation
import LetPoly.Proofs.Typing

/-!
# Fresh instances

The fresh instance of a scheme is its most general one.  Each quantified variable
is replaced by a name that was just issued, and from that name the variable can be
recovered even if the list of quantified variables repeats it, because no name is
issued twice.  So any replacement of the quantified variables can be made after
the fact, without disturbing older names (`Scheme.exists_of_freshInstance`).
-/

namespace LetPoly

namespace Scheme

/-- The fresh instance of a scheme. -/
def freshInstance (scheme : Scheme) (supply : Supply) : Ty :=
  (scheme.freshSubst supply).1.apply scheme.ty

/-! ## The substitution by fresh variables -/

theorem freshSubst_extends (scheme : Scheme) (supply : Supply) :
    supply.Extends (scheme.freshSubst supply).2 :=
  supply.freshMany_extends scheme.vars.length

theorem apply_freshSubst_of_not_mem {scheme : Scheme} {name : TyVar}
    (free : name ∉ scheme.vars) (supply : Supply) :
    (scheme.freshSubst supply).1.apply (.var name) = .var name := by
  refine Subst.apply_var_of_not_binds fun bound => free ?_
  obtain ⟨⟨_, ty⟩, member, rfl⟩ := List.mem_map.mp (Subst.binds_ofList.mp bound)
  exact (List.of_mem_zip member).1

/-- A quantified variable is replaced by one of the names drawn for its places in
the list. -/
theorem exists_apply_freshSubst {scheme : Scheme} {name : TyVar}
    (quantified : name ∈ scheme.vars) (supply : Supply) :
    ∃ new, (name, new) ∈ scheme.vars.zip (supply.freshMany scheme.vars.length).1 ∧
      (scheme.freshSubst supply).1.apply (.var name) = .var new := by
  have lengths : scheme.vars.length = (supply.freshMany scheme.vars.length).1.length :=
    (supply.length_freshMany _).symm
  have bound : (scheme.freshSubst supply).1.Binds name := by
    refine Subst.binds_ofList.mpr ?_
    rwa [List.map_fst_zip (by simp [← lengths])]
  obtain ⟨ty, found⟩ := bound
  have listed := Subst.mem_of_find?_ofList found
  rw [List.zip_map_right, List.mem_map] at listed
  obtain ⟨⟨old, new⟩, inZip, equal⟩ := listed
  cases equal
  exact ⟨new, inZip, Subst.apply_var_of_find? found⟩

/-- The quantified variables are replaced by names that are issued here, different ones
by different names. -/
theorem exists_freshNames (scheme : Scheme) (supply : Supply) :
    ∃ new : TyVar → TyVar,
      (∀ name ∈ scheme.vars, supply.Issued (scheme.freshSubst supply).2 (new name) ∧
        (scheme.freshSubst supply).1.apply (.var name) = .var (new name)) ∧
      ∀ first ∈ scheme.vars, ∀ second ∈ scheme.vars, new first = new second → first = second := by
  have replaced : ∀ name, ∃ new, name ∈ scheme.vars →
      (name, new) ∈ scheme.vars.zip (supply.freshMany scheme.vars.length).1 ∧
        (scheme.freshSubst supply).1.apply (.var name) = .var new := by
    intro name
    by_cases quantified : name ∈ scheme.vars
    · obtain ⟨new, inZip, image⟩ := exists_apply_freshSubst quantified supply
      exact ⟨new, fun _ => ⟨inZip, image⟩⟩
    · exact ⟨name, fun member => absurd member quantified⟩
  obtain ⟨new, replaces⟩ := Classical.skolem.mp replaced
  obtain ⟨restore, restores⟩ := exists_restore scheme.vars
    (supply.freshMany scheme.vars.length).1 (supply.nodup_freshMany _)
  refine ⟨new, fun name quantified => ?_, fun first firstMember second secondMember same => ?_⟩
  · obtain ⟨inZip, image⟩ := replaces name quantified
    exact ⟨supply.freshMany_issued _ _ (List.of_mem_zip inZip).2, image⟩
  · rw [← restores first _ (replaces first firstMember).1, same,
      restores second _ (replaces second secondMember).1]

/-- A variable of the fresh instance is free in the scheme or was just issued. -/
theorem mem_vars_freshInstance {scheme : Scheme} {supply : Supply} {name : TyVar}
    (membership : name ∈ (scheme.freshInstance supply).vars) :
    name ∈ scheme.freeVars ∨ supply.Issued (scheme.freshSubst supply).2 name := by
  obtain ⟨source, sourceMember, inImage⟩ := Subst.mem_vars_apply.mp membership
  by_cases quantified : source ∈ scheme.vars
  · obtain ⟨new, inZip, image⟩ := exists_apply_freshSubst quantified supply
    rw [image, Ty.mem_vars_var] at inImage
    rw [inImage]
    exact .inr (supply.freshMany_issued _ new (List.of_mem_zip inZip).2)
  · rw [apply_freshSubst_of_not_mem quantified, Ty.mem_vars_var] at inImage
    rw [inImage]
    exact .inl (mem_freeVars.mpr ⟨sourceMember, quantified⟩)

/-! ## Generality -/

theorem instance_freshInstance (scheme : Scheme) (supply : Supply) :
    scheme.Instance (scheme.freshInstance supply) :=
  instance_iff.mpr ⟨(scheme.freshSubst supply).1,
    fun _ free => apply_freshSubst_of_not_mem (mem_freeVars.mp free).2 supply, rfl⟩

/-- Whatever replaces the quantified variables can replace the fresh ones instead,
in a substitution that is given on all names that are not issued here. -/
theorem exists_of_freshInstance {scheme : Scheme} {supply : Supply}
    (spent : ∀ name ∈ scheme.freeVars, supply.Spent name) (subst replacement : Subst)
    (onFree : ∀ name ∈ scheme.freeVars,
      replacement.apply (.var name) = subst.apply (.var name)) :
    ∃ mediator : Subst,
      mediator.apply (scheme.freshInstance supply) = replacement.apply scheme.ty ∧
      ∀ name, ¬ supply.Issued (scheme.freshSubst supply).2 name →
        mediator.apply (.var name) = subst.apply (.var name) := by
  let drawn := (supply.freshMany scheme.vars.length).1
  have issued : ∀ name ∈ drawn, supply.Issued (scheme.freshSubst supply).2 name :=
    supply.freshMany_issued _
  obtain ⟨restore, restores⟩ := exists_restore scheme.vars drawn (supply.nodup_freshMany _)
  refine ⟨subst.override drawn fun name => replacement.apply (.var (restore name)), ?_, ?_⟩
  · rw [freshInstance, ← Subst.apply_comp]
    apply apply_congr
    · intro name quantified
      obtain ⟨new, inZip, image⟩ := exists_apply_freshSubst quantified supply
      rw [Subst.apply_comp, image, Subst.apply_override_of_mem (List.of_mem_zip inZip).2,
        restores name new inZip]
    · intro name free
      rw [Subst.apply_comp, apply_freshSubst_of_not_mem (mem_freeVars.mp free).2,
        Subst.apply_override_of_not_mem, onFree name free]
      exact fun isDrawn => (issued name isDrawn).1 (spent name free)
  · intro name notIssued
    exact Subst.apply_override_of_not_mem fun isDrawn => notIssued (issued name isDrawn)

end Scheme

end LetPoly
