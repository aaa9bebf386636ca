import LetPoly.Proofs.Instantiation
import LetPoly.Proofs.Unification
import Mathlib.Logic.Equiv.Basic

/-!
# Renaming of type variables

A renaming is a permutation of all type variables.  It acts on types, on the keys and
values of substitutions and on the payload of errors, and everything that does not look
at the spelling of names commutes with it: substitution, composition, and unification
with all its failures (`unify_renamed`).

Generalization does look at the spelling, because it lists what it quantifies in code
point order.  So two schemes count as renamed (`Scheme.Renamed`) if their types are and
if they quantify the same variables up to the renaming, in whatever order and however
often.  That is enough for substitution and generalization in environments.

A renaming can be prolonged to chosen images for new names by swaps, and away from the
new names nothing changes (`Renaming.exists_prolong`).
-/

namespace LetPoly

/-- A permutation of all type variables. -/
abbrev Renaming : Type := Equiv.Perm TyVar

/-! ## Prolonging a renaming -/

namespace Renaming

/-- Prescribe the image of one name. -/
theorem exists_prolong_single (perm : Renaming) (source target : TyVar) :
    ∃ prolonged : Renaming, prolonged source = target ∧
      ∀ name, name ≠ source → perm name ≠ target → prolonged name = perm name := by
  refine ⟨perm.trans (Equiv.swap (perm source) target), ?_, ?_⟩
  · exact Equiv.swap_apply_left _ _
  · intro name notSource notTarget
    exact Equiv.swap_apply_of_ne_of_ne (perm.injective.ne notSource) notTarget

/-- Prescribe the images of finitely many names, given one-to-one over a list of
indices. -/
theorem exists_prolong (perm : Renaming) (indices : List TyVar)
    (source target : TyVar → TyVar)
    (sourceInjective : ∀ first ∈ indices, ∀ second ∈ indices,
      source first = source second → first = second)
    (targetInjective : ∀ first ∈ indices, ∀ second ∈ indices,
      target first = target second → first = second) :
    ∃ prolonged : Renaming, (∀ index ∈ indices, prolonged (source index) = target index) ∧
      ∀ name, (∀ index ∈ indices, name ≠ source index) →
        (∀ index ∈ indices, perm name ≠ target index) →
        prolonged name = perm name := by
  induction indices with
  | nil => exact ⟨perm, by simp, fun _ _ _ => rfl⟩
  | cons first others induction =>
      obtain ⟨prolonged, onOthers, away⟩ := induction
        (fun one oneMember two twoMember =>
          sourceInjective one (.tail _ oneMember) two (.tail _ twoMember))
        (fun one oneMember two twoMember =>
          targetInjective one (.tail _ oneMember) two (.tail _ twoMember))
      by_cases repeated : first ∈ others
      · refine ⟨prolonged, ?_, ?_⟩
        · intro index member
          rcases List.mem_cons.mp member with rfl | member
          · exact onOthers _ repeated
          · exact onOthers index member
        · intro name notSource notTarget
          exact away name (fun index member => notSource index (.tail _ member))
            fun index member => notTarget index (.tail _ member)
      · obtain ⟨last, onFirst, awayFirst⟩ :=
          prolonged.exists_prolong_single (source first) (target first)
        refine ⟨last, ?_, ?_⟩
        · intro index member
          rcases List.mem_cons.mp member with rfl | member
          · exact onFirst
          · have different : index ≠ first := fun same => repeated (same ▸ member)
            rw [awayFirst, onOthers index member]
            · exact fun same => different
                (sourceInjective index (.tail _ member) first (.head _) same)
            · rw [onOthers index member]
              exact fun same => different
                (targetInjective index (.tail _ member) first (.head _) same)
        · intro name notSource notTarget
          have before : prolonged name = perm name :=
            away name (fun index member => notSource index (.tail _ member))
              fun index member => notTarget index (.tail _ member)
          rw [awayFirst name (notSource first (.head _)), before]
          rw [before]
          exact notTarget first (.head _)

end Renaming

/-! ## Types -/

namespace Ty

/-- Rename the variables of a type. -/
def rename (perm : Renaming) : Ty → Ty
  | var name => var (perm name)
  | arrow domain codomain => arrow (domain.rename perm) (codomain.rename perm)
  | int => int
  | bool => bool

theorem mem_vars_rename {perm : Renaming} {ty : Ty} {name : TyVar} :
    perm name ∈ (ty.rename perm).vars ↔ name ∈ ty.vars := by
  induction ty with
  | var other => simp [rename]
  | arrow domain codomain domainInduction codomainInduction =>
      simp [rename, domainInduction, codomainInduction]
  | int => simp [rename]
  | bool => simp [rename]

theorem rename_congr {first second : Renaming} {ty : Ty}
    (agree : ∀ name ∈ ty.vars, first name = second name) :
    ty.rename first = ty.rename second := by
  induction ty with
  | var name => rw [rename, rename, agree name (mem_vars_var.mpr rfl)]
  | arrow domain codomain domainInduction codomainInduction =>
      rw [rename, rename,
        domainInduction fun name member => agree name (mem_vars_arrow.mpr (.inl member)),
        codomainInduction fun name member => agree name (mem_vars_arrow.mpr (.inr member))]
  | int => rfl
  | bool => rfl

theorem rename_refl (ty : Ty) : ty.rename (Equiv.refl TyVar) = ty := by
  induction ty with
  | var name => rfl
  | arrow domain codomain domainInduction codomainInduction =>
      rw [rename, domainInduction, codomainInduction]
  | int => rfl
  | bool => rfl

theorem rename_rename (first second : Renaming) (ty : Ty) :
    (ty.rename first).rename second = ty.rename (first.trans second) := by
  induction ty with
  | var name => rfl
  | arrow domain codomain domainInduction codomainInduction =>
      rw [rename, rename, rename, domainInduction, codomainInduction]
  | int => rfl
  | bool => rfl

theorem rename_eq_var {perm : Renaming} {ty : Ty} {name : TyVar} :
    ty.rename perm = var (perm name) ↔ ty = var name := by
  cases ty <;> simp [rename]

theorem head?_rename (perm : Renaming) (ty : Ty) :
    (ty.rename perm).head? = ty.head? := by
  cases ty <;> rfl

theorem Clash.rename {left right : Ty} (clash : left.Clash right) (perm : Renaming) :
    (left.rename perm).Clash (right.rename perm) := by
  unfold Clash at *
  simpa only [head?_rename] using clash

end Ty

/-! ## Substitutions -/

namespace Subst

/-- Rename the keys of a substitution and the variables of its values. -/
def rename (perm : Renaming) (subst : Subst) : Subst :=
  .ofList (subst.toList.map fun entry => (perm entry.1, entry.2.rename perm))

variable (perm : Renaming)

theorem find?_rename_eq_some {subst : Subst} {name : TyVar} {image : Ty} :
    (subst.rename perm).find? (perm name) = some image ↔
      ∃ ty, subst.find? name = some ty ∧ ty.rename perm = image := by
  have entry : ∀ image, (subst.rename perm).find? (perm name) = some image →
      ∃ ty, subst.find? name = some ty ∧ ty.rename perm = image := by
    intro image found
    obtain ⟨⟨key, ty⟩, member, equal⟩ := List.mem_map.mp (mem_of_find?_ofList found)
    obtain ⟨keyEqual, rfl⟩ := Prod.mk.inj equal
    cases perm.injective keyEqual
    exact ⟨ty, mem_toList.mp member, rfl⟩
  constructor
  · exact entry image
  · rintro ⟨ty, found, rfl⟩
    have bound : (subst.rename perm).Binds (perm name) := by
      exact binds_ofList.mpr
        (List.mem_map.mpr ⟨_, List.mem_map_of_mem (mem_toList.mpr found), rfl⟩)
    obtain ⟨image, imageFound⟩ := bound
    obtain ⟨other, otherFound, rfl⟩ := entry image imageFound
    rw [found] at otherFound
    cases otherFound
    exact imageFound

/-- Look-up in a renamed substitution. -/
theorem find?_rename (subst : Subst) (name : TyVar) :
    (subst.rename perm).find? (perm name) =
      (subst.find? name).map (Ty.rename perm) := by
  ext image
  rw [find?_rename_eq_some, Option.map_eq_some_iff]

/-- To compare substitutions it is enough to look up images. -/
theorem ext_images {first second : Subst}
    (agree : ∀ name, first.find? (perm name) = second.find? (perm name)) :
    first = second := by
  ext image
  obtain ⟨name, rfl⟩ := perm.surjective image
  rw [agree name]

theorem rename_empty : (∅ : Subst).rename perm = ∅ := by
  apply ext_images perm
  intro name
  rw [find?_rename, find?_empty, find?_empty, Option.map_none]

theorem rename_singleton (name : TyVar) (ty : Ty) :
    (singleton name ty).rename perm =
      singleton (perm name) (ty.rename perm) := by
  apply ext_images perm
  intro other
  simp only [find?_rename, find?_singleton, perm.injective.eq_iff]
  split <;> rfl

/-- Whether two substitutions act alike up to renaming is seen on variables. -/
theorem apply_rename_of_forall {left right : Subst} {before after : Renaming} {ty : Ty}
    (onVars : ∀ name ∈ ty.vars,
      right.apply (.var (before name)) = (left.apply (.var name)).rename after) :
    right.apply (ty.rename before) = (left.apply ty).rename after := by
  induction ty with
  | var name => exact onVars name (Ty.mem_vars_var.mpr rfl)
  | arrow domain codomain domainInduction codomainInduction =>
      rw [Ty.rename, apply_arrow, apply_arrow, Ty.rename,
        domainInduction fun name member => onVars name (Ty.mem_vars_arrow.mpr (.inl member)),
        codomainInduction fun name member => onVars name (Ty.mem_vars_arrow.mpr (.inr member))]
  | int => rfl
  | bool => rfl

/-- A substitution that renames the variables of a type renames the type. -/
theorem apply_eq_rename {subst : Subst} {ty : Ty}
    (onVars : ∀ name ∈ ty.vars, subst.apply (.var name) = .var (perm name)) :
    subst.apply ty = ty.rename perm := by
  have renamed : subst.apply (ty.rename (Equiv.refl TyVar)) =
      ((∅ : Subst).apply ty).rename perm := by
    refine apply_rename_of_forall fun name member => ?_
    rw [Equiv.refl_apply, apply_empty, onVars name member, Ty.rename]
  rwa [Ty.rename_refl, apply_empty] at renamed

/-- Substitution commutes with renaming. -/
theorem apply_rename (subst : Subst) (ty : Ty) :
    (subst.rename perm).apply (ty.rename perm) = (subst.apply ty).rename perm := by
  refine apply_rename_of_forall fun name _ => ?_
  rw [apply, apply, find?_rename]
  cases subst.find? name <;> rfl

theorem rename_comp (outer inner : Subst) :
    (outer.comp inner).rename perm =
      (outer.rename perm).comp (inner.rename perm) := by
  apply ext_images perm
  intro name
  rw [find?_rename, find?_comp, find?_comp, find?_rename, find?_rename]
  cases inner.find? name with
  | none => rfl
  | some ty => simp [apply_rename]

/-- Renamings that agree on what a substitution is made of rename it alike. -/
theorem rename_congr {first second : Renaming} {subst : Subst}
    (localized : subst.Localized fun name => first name = second name) :
    subst.rename first = subst.rename second := by
  have entries : subst.toList.map (fun entry => (first entry.1, entry.2.rename first)) =
      subst.toList.map fun entry => (second entry.1, entry.2.rename second) := by
    apply List.map_congr_left
    rintro ⟨key, ty⟩ member
    have found := mem_toList.mp member
    rw [localized.keys ⟨ty, found⟩, Ty.rename_congr (localized.values found)]
  rw [rename, rename, entries]

end Subst

/-! ## Unification -/

/-- Rename the type variables in the payload of an error. -/
def TypeError.rename (perm : Renaming) : TypeError → TypeError
  | unboundVariable name => unboundVariable name
  | occursCheck var ty => occursCheck (perm var) (ty.rename perm)
  | mismatch expected actual => mismatch (expected.rename perm) (actual.rename perm)
  | unsupported expr => unsupported expr

theorem TypeError.rename_rename (first second : Renaming) (error : TypeError) :
    (error.rename first).rename second = error.rename (first.trans second) := by
  cases error <;> simp [TypeError.rename, Ty.rename_rename]

/-- A run of unification ends as another one does, up to a renaming. -/
inductive Traced.Renamed (perm : Renaming) : Traced Unifier → Traced Unifier → Prop where
  | ok {left right : Unifier} {leftEvents rightEvents : List Event} :
      right.subst = left.subst.rename perm →
      Renamed perm ⟨.ok left, leftEvents⟩ ⟨.ok right, rightEvents⟩
  | error {error : TypeError} {leftEvents rightEvents : List Event} :
      Renamed perm ⟨.error error, leftEvents⟩ ⟨.error (error.rename perm), rightEvents⟩

theorem bindVarFor_renamed (perm : Renaming) (input renamedInput : String) (name : TyVar)
    (ty : Ty) :
    (bindVarFor input name ty).Renamed perm
      (bindVarFor renamedInput (perm name) (ty.rename perm)) := by
  by_cases same : ty = .var name
  · rw [same, Ty.rename, bindVarFor_self, bindVarFor_self]
    exact .ok (Subst.rename_empty perm).symm
  · by_cases occurs : name ∈ ty.vars
    · rw [bindVarFor_of_mem input same occurs,
        bindVarFor_of_mem renamedInput (mt Ty.rename_eq_var.mp same)
          (Ty.mem_vars_rename.mpr occurs)]
      exact .error
    · rw [bindVarFor_of_not_mem input occurs,
        bindVarFor_of_not_mem renamedInput (mt Ty.mem_vars_rename.mp occurs)]
      exact .ok (Subst.rename_singleton perm name ty).symm

/-- Unification commutes with renaming, whether it succeeds or fails. -/
theorem unify_renamed (perm : Renaming) (left right : Ty) :
    (unify left right).Renamed perm
      (unify (left.rename perm) (right.rename perm)) := by
  induction left, right using unify_induction with
  | int =>
      rw [Ty.rename, unify_int]
      exact .ok (Subst.rename_empty perm).symm
  | bool =>
      rw [Ty.rename, unify_bool]
      exact .ok (Subst.rename_empty perm).symm
  | varLeft name right =>
      rw [Ty.rename, unify_var_left]
      exact bindVarFor_renamed perm _ _ name right
  | varRight left name notVar =>
      have notVarRenamed : ∀ other, left.rename perm ≠ .var other := by
        intro other equal
        obtain ⟨source, rfl⟩ := perm.surjective other
        exact notVar source (Ty.rename_eq_var.mp equal)
      rw [Ty.rename, unify_var_right _ notVarRenamed]
      exact bindVarFor_renamed perm _ _ name left
  | clash left right clash =>
      rw [unify_of_clash (clash.rename perm)]
      exact .error
  | domainsError leftDomain leftCodomain rightDomain rightCodomain error events run induction =>
      generalize renamedRun : unify (leftDomain.rename perm) (rightDomain.rename perm) =
        renamed at induction
      cases induction
      rw [Ty.rename, Ty.rename, unify_arrow_of_domains_error renamedRun]
      exact .error
  | codomainsError leftDomain leftCodomain rightDomain rightCodomain domains error events
      moreEvents domainsRun domainsInduction codomainsRun codomainsInduction =>
      generalize renamedRun : unify (leftDomain.rename perm) (rightDomain.rename perm) =
        renamed at domainsInduction
      cases domainsInduction with
      | ok substEqual =>
          rw [← Subst.apply_rename, ← Subst.apply_rename, ← substEqual] at codomainsInduction
          generalize renamedCodomains : unify (Subst.apply _ (leftCodomain.rename perm)) _ =
            renamed at codomainsInduction
          cases codomainsInduction
          rw [Ty.rename, Ty.rename, unify_arrow_of_codomains_error renamedRun renamedCodomains]
          exact .error
  | arrow leftDomain leftCodomain rightDomain rightCodomain domains codomains events
      moreEvents domainsRun domainsInduction codomainsRun codomainsInduction =>
      generalize renamedRun : unify (leftDomain.rename perm) (rightDomain.rename perm) =
        renamed at domainsInduction
      cases domainsInduction with
      | ok substEqual =>
          rw [← Subst.apply_rename, ← Subst.apply_rename, ← substEqual] at codomainsInduction
          generalize renamedCodomains : unify (Subst.apply _ (leftCodomain.rename perm)) _ =
            renamed at codomainsInduction
          cases codomainsInduction with
          | ok moreEqual =>
              rw [Ty.rename, Ty.rename, unify_arrow_of_ok renamedRun renamedCodomains]
              refine .ok ?_
              rw [Unifier.arrow, Unifier.arrow, Subst.rename_comp, substEqual, moreEqual]

/-! ## Schemes -/

/-- A scheme is another one up to a renaming: the types are, and so are the variables
they quantify, in whatever order. -/
structure Scheme.Renamed (perm : Renaming) (left right : Scheme) : Prop where
  ty : right.ty = left.ty.rename perm
  vars : ∀ name, perm name ∈ right.vars ↔ name ∈ left.vars

namespace Scheme.Renamed

variable {perm : Renaming} {left right : Scheme}

theorem refl (scheme : Scheme) : scheme.Renamed (Equiv.refl TyVar) scheme where
  ty := scheme.ty.rename_refl.symm
  vars := fun _ => Iff.rfl

theorem mono (perm : Renaming) (ty : Ty) : (Scheme.mono ty).Renamed perm (.mono (ty.rename perm)) where
  ty := rfl
  vars := by simp [Scheme.mono]

theorem mem_freeVars (renamed : left.Renamed perm right) {name : TyVar} :
    perm name ∈ right.freeVars ↔ name ∈ left.freeVars := by
  rw [Scheme.mem_freeVars, Scheme.mem_freeVars, renamed.ty, Ty.mem_vars_rename, renamed.vars]

theorem mem_mentioned (renamed : left.Renamed perm right) {name : TyVar} :
    perm name ∈ right.mentioned ↔ name ∈ left.mentioned := by
  rw [Scheme.mem_mentioned, Scheme.mem_mentioned, renamed.ty, Ty.mem_vars_rename, renamed.vars]

/-- Only what a renaming does to the names in a scheme counts. -/
theorem congr {other : Renaming} (renamed : left.Renamed perm right)
    (agree : ∀ name ∈ left.mentioned, other name = perm name) : left.Renamed other right where
  ty := by
    rw [renamed.ty]
    exact Ty.rename_congr fun name member =>
      (agree name (Scheme.mem_mentioned.mpr (.inl member))).symm
  vars := by
    intro name
    constructor
    · intro quantified
      obtain ⟨source, same⟩ := perm.surjective (other name)
      rw [← same, renamed.vars] at quantified
      rw [← agree source (Scheme.mem_mentioned.mpr (.inr quantified))] at same
      exact other.injective same ▸ quantified
    · intro quantified
      rw [agree name (Scheme.mem_mentioned.mpr (.inr quantified)), renamed.vars]
      exact quantified

/-- Substitutions that act alike on the free variables, up to a renaming that is the same
on the scheme itself. -/
theorem subst {after : Renaming} {leftSubst rightSubst : Subst}
    (renamed : left.Renamed perm right)
    (agree : ∀ name ∈ left.mentioned, after name = perm name)
    (images : ∀ name ∈ left.freeVars,
      rightSubst.apply (.var (perm name)) = (leftSubst.apply (.var name)).rename after) :
    (left.subst leftSubst).Renamed after (right.subst rightSubst) where
  ty := by
    rw [Scheme.subst, Scheme.subst, renamed.ty]
    refine Subst.apply_rename_of_forall fun name member => ?_
    by_cases quantified : name ∈ left.vars
    · rw [apply_without_of_mem quantified,
        apply_without_of_mem ((renamed.vars name).mpr quantified), Ty.rename,
        agree name (Scheme.mem_mentioned.mpr (.inr quantified))]
    · rw [apply_without_of_not_mem quantified,
        apply_without_of_not_mem (mt (renamed.vars name).mp quantified)]
      exact images name (Scheme.mem_freeVars.mpr ⟨member, quantified⟩)
  vars := (renamed.congr agree).vars

end Scheme.Renamed

/-! ## Environments -/

/-- Two environments bind the same program variables, to schemes that are the same up to
a renaming. -/
def Env.Renamed (perm : Renaming) (left right : Env) : Prop :=
  Env.Pointwise (Scheme.Renamed perm) left right

namespace Env.Renamed

variable {perm : Renaming} {left right : Env}

theorem refl (env : Env) : env.Renamed (Equiv.refl TyVar) env := by
  intro var
  cases env.find? var with
  | none => exact .none
  | some scheme => exact .some (.refl scheme)

/-- What is collected from all schemes is renamed if it is renamed in each. -/
theorem mem_collect {names : Scheme → NameSet} (renamed : left.Renamed perm right)
    (schemes : ∀ {source image : Scheme}, source.Renamed perm image →
      ∀ {name}, perm name ∈ names image ↔ name ∈ names source) {name : TyVar} :
    perm name ∈ right.collect names ↔ name ∈ left.collect names := by
  rw [Env.mem_collect, Env.mem_collect]
  constructor
  · rintro ⟨var, image, found, member⟩
    obtain ⟨source, sourceFound, related⟩ := Pointwise.exists_left renamed found
    exact ⟨var, source, sourceFound, (schemes related).mp member⟩
  · rintro ⟨var, source, found, member⟩
    obtain ⟨image, imageFound, related⟩ := Pointwise.exists_right renamed found
    exact ⟨var, image, imageFound, (schemes related).mpr member⟩

theorem mem_freeVars (renamed : left.Renamed perm right) {name : TyVar} :
    perm name ∈ right.freeVars ↔ name ∈ left.freeVars :=
  renamed.mem_collect fun schemes => schemes.mem_freeVars

theorem mem_mentioned (renamed : left.Renamed perm right) {name : TyVar} :
    perm name ∈ right.mentioned ↔ name ∈ left.mentioned :=
  renamed.mem_collect fun schemes => schemes.mem_mentioned

theorem congr {other : Renaming} (renamed : left.Renamed perm right)
    (agree : ∀ name ∈ left.mentioned, other name = perm name) : left.Renamed other right := by
  refine Pointwise.map renamed (fun _ => Option.map_id'.symm) (fun _ => Option.map_id'.symm) ?_
  intro var source image found schemes
  exact schemes.congr fun name member =>
    agree name (Env.mem_mentioned.mpr ⟨var, source, found, member⟩)

theorem subst {after : Renaming} {leftSubst rightSubst : Subst}
    (renamed : left.Renamed perm right)
    (agree : ∀ name ∈ left.mentioned, after name = perm name)
    (images : ∀ name ∈ left.freeVars,
      rightSubst.apply (.var (perm name)) = (leftSubst.apply (.var name)).rename after) :
    (left.subst leftSubst).Renamed after (right.subst rightSubst) := by
  refine Pointwise.map renamed (left.find?_subst leftSubst) (right.find?_subst rightSubst) ?_
  intro var source image found schemes
  refine schemes.subst ?_ ?_
  · exact fun name member => agree name (Env.mem_mentioned.mpr ⟨var, source, found, member⟩)
  · exact fun name member => images name (Env.mem_freeVars.mpr ⟨var, source, found, member⟩)

theorem generalize (renamed : left.Renamed perm right) (ty : Ty) :
    (left.generalize ty).Renamed perm (right.generalize (ty.rename perm)) where
  ty := rfl
  vars := by
    intro name
    rw [mem_vars_generalize, mem_vars_generalize, Ty.mem_vars_rename, renamed.mem_freeVars]

end Env.Renamed

end LetPoly
