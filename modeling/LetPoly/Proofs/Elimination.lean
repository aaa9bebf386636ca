import LetPoly.Proofs.Bindings

/-!
# What a unifier eliminates

A unifier speaks of the variables of its equation only, and it is resolved: what it binds
occurs in none of its values.  So it divides the variables of the equation into two kinds.
Those that it binds are gone from both sides, and those that it leaves alone are still
there on both sides, even if only one side had them before (`mem_vars_apply_unifier`).

Counting the two kinds says exactly how much an equation shrinks when it is solved: by one
variable for each entry of the unifier (`size_vars_add_size_unifier`).
-/

namespace LetPoly

/-- A set loses as many names as are listed when the listed names are taken out. -/
theorem NameSet.size_add_length {smaller larger : NameSet} {taken : List String}
    (distinct : taken.Nodup) (subset : ∀ name ∈ taken, name ∈ larger)
    (left : ∀ name, name ∈ smaller ↔ name ∈ larger ∧ name ∉ taken) :
    smaller.size + taken.length = larger.size := by
  have apart : (smaller.toList ++ taken).Nodup := by
    refine List.nodup_append.mpr ⟨nodup_toList smaller, distinct, ?_⟩
    rintro name inSmaller _ isTaken rfl
    exact ((left name).mp (Std.ExtTreeSet.mem_toList.mp inSmaller)).2 isTaken
  have sameNames : (smaller.toList ++ taken).Perm larger.toList := by
    refine (List.perm_ext_iff_of_nodup apart (nodup_toList larger)).mpr fun name => ?_
    rw [List.mem_append, Std.ExtTreeSet.mem_toList, Std.ExtTreeSet.mem_toList, left]
    by_cases isTaken : name ∈ taken
    · simp [isTaken, subset name isTaken]
    · simp [isTaken]
  simpa using sameNames.length_eq

/-- A variable without an entry survives a substitution. -/
theorem Subst.mem_vars_apply_of_not_binds {subst : Subst} {ty : Ty} {name : TyVar}
    (member : name ∈ ty.vars) (unbound : ¬ subst.Binds name) :
    name ∈ (subst.apply ty).vars := by
  apply vars_apply_var_subset member
  rw [apply_var_of_not_binds unbound]
  simp

section

variable {left right : Ty} {unifier : Unifier}

/-- What is left of an equation once it is solved: its variables without those that the
unifier binds. -/
theorem mem_vars_apply_unifier (success : (unify left right).outcome = .ok unifier)
    {name : TyVar} :
    name ∈ (unifier.subst.apply left).vars ↔
      name ∈ problemVars left right ∧ ¬ unifier.subst.Binds name := by
  obtain ⟨localized, resolved⟩ := unify_relevant left right unifier success
  constructor
  · intro membership
    refine ⟨?_, resolved.not_binds membership⟩
    rcases localized.mem_or membership with old | inside
    · exact mem_problemVars.mpr (.inl old)
    · exact inside
  · rintro ⟨membership, unbound⟩
    rcases mem_problemVars.mp membership with inLeft | inRight
    · exact Subst.mem_vars_apply_of_not_binds inLeft unbound
    · -- A variable of the right side only comes in because the sides have become equal.
      rw [(mostGeneral_of_unify success).unifies]
      exact Subst.mem_vars_apply_of_not_binds inRight unbound

/-- Solving an equation costs one variable for each entry of the unifier. -/
theorem size_vars_add_size_unifier (success : (unify left right).outcome = .ok unifier) :
    (unifier.subst.apply left).vars.size + unifier.subst.size =
      (problemVars left right).size := by
  have accounted := unify_accounted left right unifier success
  have localized := (unify_relevant left right unifier success).1
  rw [accounted.size_eq, ← List.length_map Prod.fst]
  apply NameSet.size_add_length accounted.distinct
  · intro name bound
    exact localized.keys (accounted.binds_iff.mpr bound)
  · intro name
    rw [mem_vars_apply_unifier success, accounted.binds_iff]

theorem size_pos_of_ne_empty (success : (unify left right).outcome = .ok unifier)
    (notEmpty : unifier.subst ≠ ∅) : 0 < unifier.subst.size := by
  have accounted := unify_accounted left right unifier success
  rw [accounted.size_eq, List.length_pos_iff]
  intro noBindings
  apply notEmpty
  rw [accounted.composed, noBindings, Subst.inTurn_nil]

end

/-- Unifiers are relevant and idempotent, and one that is not empty leaves fewer distinct
variables than the equation had. -/
theorem unifier_relevant_idempotent (left right : Ty) (unifier : Unifier)
    (success : (unify left right).outcome = .ok unifier) :
    (∀ key value, unifier.subst.find? key = some value →
      (key ∈ left.vars ∨ key ∈ right.vars) ∧
        ∀ name ∈ value.vars, name ∈ left.vars ∨ name ∈ right.vars) ∧
    (∀ key, unifier.subst.Binds key →
      ∀ other value, unifier.subst.find? other = some value → key ∉ value.vars) ∧
    unifier.subst.comp unifier.subst = unifier.subst ∧
    (unifier.subst ≠ ∅ →
      (unifier.subst.apply left).vars.size < (problemVars left right).size) := by
  obtain ⟨localized, resolved⟩ := unify_relevant left right unifier success
  refine ⟨?_, ?_, resolved.comp_self, ?_⟩
  · intro key value found
    refine ⟨mem_problemVars.mp (localized.keys ⟨value, found⟩), fun name member => ?_⟩
    exact mem_problemVars.mp (localized.values found name member)
  · intro key bound other value found
    exact resolved.not_mem_value bound found
  · intro notEmpty
    have lost := size_vars_add_size_unifier success
    have entries := size_pos_of_ne_empty success notEmpty
    omega

/-- Two variables are bound one after the other, and none is left. -/
theorem unifier_relevant_idempotent_chained :
    ∃ unifier, (unify (.arrow (.var "a") (.var "b")) (.arrow (.var "b") .int)).outcome =
        .ok unifier ∧
      unifier.subst ≠ ∅ ∧ unifier.subst.comp unifier.subst = unifier.subst ∧
      (unifier.subst.apply (.arrow (.var "a") (.var "b"))).vars.size <
        (problemVars (.arrow (.var "a") (.var "b")) (.arrow (.var "b") .int)).size := by
  obtain ⟨unifier, run⟩ := exists_unify_chained
  have success := congrArg Traced.outcome run
  obtain ⟨_, _, idempotent, shrinks⟩ := unifier_relevant_idempotent _ _ unifier success
  have notEmpty : unifier.subst ≠ ∅ := by
    intro empty
    have unifies := (mostGeneral_of_unify success).unifies
    rw [empty, Subst.Unifies, Subst.apply_empty, Subst.apply_empty] at unifies
    exact absurd unifies (by decide)
  exact ⟨unifier, success, notEmpty, idempotent, shrinks notEmpty⟩

end LetPoly
