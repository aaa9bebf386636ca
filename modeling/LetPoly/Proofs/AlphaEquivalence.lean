import LetPoly.Proofs.Variants

/-!
# Alpha-equivalence of types

`Ty.alphaEq` walks two types in step and keeps the pairs of variables that it has met.  Three
facts about the walk say what its answer means.  It never drops a pair.  It keeps the pairs
one-to-one (`Pairing.OneToOne`).  And where it succeeds, every renaming that goes along with
the pairs it ends with takes the first type to the second.  A one-to-one list of pairs always
has such a renaming, so the check accepts exactly the types that differ by one
(`Ty.alphaEq_iff_exists_rename`).  A walk that keeps a map for either side in place of the
pairs gives the same answer (`Ty.alphaEq_eq_walk`).

From there on it is algebra of renamings.  A substitution renames a type as soon as it puts
different variables in for the variables of the type, and it does so whenever a second
substitution takes its image back.
-/

namespace LetPoly

/-! ## Pairs of variables -/

namespace Pairing

/-- No name is paired with two others, on either side. -/
def OneToOne (pairing : Pairing) : Prop :=
  ∀ first ∈ pairing, ∀ second ∈ pairing, first.1 = second.1 ↔ first.2 = second.2

theorem OneToOne.cons {pairing : Pairing} (oneToOne : pairing.OneToOne) {left right : TyVar}
    (newLeft : left ∉ pairing.map Prod.fst) (newRight : right ∉ pairing.map Prod.snd) :
    OneToOne ((left, right) :: pairing) := by
  have notLeft : ∀ entry ∈ pairing, entry.1 ≠ left := fun entry member same =>
    newLeft (same ▸ List.mem_map_of_mem member)
  have notRight : ∀ entry ∈ pairing, entry.2 ≠ right := fun entry member same =>
    newRight (same ▸ List.mem_map_of_mem member)
  intro first firstMember second secondMember
  rcases List.mem_cons.mp firstMember with rfl | firstMember <;>
    rcases List.mem_cons.mp secondMember with rfl | secondMember
  · simp
  · simp [(notLeft second secondMember).symm, (notRight second secondMember).symm]
  · simp [notLeft first firstMember, notRight first firstMember]
  · exact oneToOne first firstMember second secondMember

/-- One-to-one pairs are part of a renaming. -/
theorem OneToOne.exists_along {pairing : Pairing} (oneToOne : pairing.OneToOne) :
    ∃ perm : Renaming, pairing.Along perm := by
  induction pairing with
  | nil => exact ⟨Equiv.refl TyVar, fun _ _ member => nomatch member⟩
  | cons entry others induction =>
      obtain ⟨left, right⟩ := entry
      obtain ⟨perm, along⟩ := induction fun first firstMember second secondMember =>
        oneToOne first (.tail _ firstMember) second (.tail _ secondMember)
      obtain ⟨prolonged, onLeft, away⟩ := perm.exists_prolong_single left right
      refine ⟨prolonged, fun source target member => ?_⟩
      have here := oneToOne (source, target) member (left, right) (.head _)
      by_cases same : source = left
      · rw [same, onLeft]
        exact (here.mp same).symm
      · have different : target ≠ right := fun equal => same (here.mpr equal)
        rcases List.mem_cons.mp member with equal | member
        · exact absurd (congrArg Prod.fst equal) same
        · have image : perm source = target := along source target member
          rw [away source same (image ▸ different), image]

/-- What it takes for the pairs of a walk to grow: none is lost, and they stay one-to-one. -/
structure Grows (pairing extended : Pairing) : Prop where
  keeps : ∀ entry ∈ pairing, entry ∈ extended
  oneToOne : pairing.OneToOne → extended.OneToOne

theorem Grows.refl (pairing : Pairing) : pairing.Grows pairing :=
  ⟨fun _ => id, id⟩

theorem Grows.trans {pairing middle extended : Pairing} (first : pairing.Grows middle)
    (second : middle.Grows extended) : pairing.Grows extended :=
  ⟨fun entry member => second.keeps entry (first.keeps entry member),
    fun oneToOne => second.oneToOne (first.oneToOne oneToOne)⟩

/-- A renaming that goes along with more pairs goes along with fewer. -/
theorem Grows.along {pairing extended : Pairing} (grows : pairing.Grows extended)
    {perm : Renaming} (along : extended.Along perm) : pairing.Along perm :=
  fun left right member => along left right (grows.keeps _ member)

theorem grows_of_pair {pairing extended : Pairing} {left right : TyVar}
    (paired : pairing.pair left right = some extended) :
    pairing.Grows extended ∧ (left, right) ∈ extended := by
  unfold pair at paired
  split at paired
  next known =>
    cases paired
    exact ⟨.refl pairing, known⟩
  next =>
    split at paired
    next => cases paired
    next unknown =>
      cases paired
      obtain ⟨newLeft, newRight⟩ := not_or.mp unknown
      exact ⟨⟨fun entry member => .tail _ member,
        fun oneToOne => oneToOne.cons newLeft newRight⟩, .head _⟩

end Pairing

/-! ## The walk -/

namespace Ty

/-- Where the walk succeeds, its pairs have grown, and they rename the first type to the
second. -/
theorem matchUpTo_sound {left right : Ty} {pairing extended : Pairing}
    (matched : matchUpTo pairing left right = some extended) :
    pairing.Grows extended ∧
      ∀ perm : Renaming, extended.Along perm → left.rename perm = right := by
  induction left generalizing right pairing extended with
  | var name =>
      cases right with
      | var other =>
          obtain ⟨grows, member⟩ := Pairing.grows_of_pair matched
          exact ⟨grows, fun perm along => congrArg var (along name other member)⟩
      | _ => cases matched
  | arrow domain codomain domainInduction codomainInduction =>
      cases right with
      | arrow otherDomain otherCodomain =>
          obtain ⟨middle, domainMatched, codomainMatched⟩ := Option.bind_eq_some_iff.mp matched
          obtain ⟨domainGrows, domainRenamed⟩ := domainInduction domainMatched
          obtain ⟨codomainGrows, codomainRenamed⟩ := codomainInduction codomainMatched
          refine ⟨domainGrows.trans codomainGrows, fun perm along => ?_⟩
          rw [rename, domainRenamed perm (codomainGrows.along along), codomainRenamed perm along]
      | _ => cases matched
  | int =>
      cases right with
      | int =>
          cases matched
          exact ⟨.refl pairing, fun _ _ => rfl⟩
      | _ => cases matched
  | bool =>
      cases right with
      | bool =>
          cases matched
          exact ⟨.refl pairing, fun _ _ => rfl⟩
      | _ => cases matched

/-- The check accepts exactly the renamings of a type. -/
theorem alphaEq_iff_exists_rename {left right : Ty} :
    left.alphaEq right = true ↔ ∃ perm : Renaming, left.rename perm = right := by
  constructor
  · intro same
    obtain ⟨extended, matched⟩ := Option.isSome_iff_exists.mp same
    obtain ⟨grows, renamed⟩ := matchUpTo_sound matched
    have nothingPaired : Pairing.OneToOne [] := fun _ member => nomatch member
    obtain ⟨perm, along⟩ := (grows.oneToOne nothingPaired).exists_along
    exact ⟨perm, renamed perm along⟩
  · rintro ⟨perm, rfl⟩
    exact alphaEq_rename perm left

theorem equivalence_alphaEq : Equivalence fun left right : Ty => left.alphaEq right = true where
  refl := fun ty => alphaEq_iff_exists_rename.mpr ⟨Equiv.refl TyVar, ty.rename_refl⟩
  symm := by
    intro left right same
    obtain ⟨perm, rfl⟩ := alphaEq_iff_exists_rename.mp same
    exact rename_alphaEq perm left
  trans := by
    intro left middle right first second
    obtain ⟨firstPerm, rfl⟩ := alphaEq_iff_exists_rename.mp first
    obtain ⟨secondPerm, rfl⟩ := alphaEq_iff_exists_rename.mp second
    exact alphaEq_iff_exists_rename.mpr
      ⟨firstPerm.trans secondPerm, (rename_rename firstPerm secondPerm left).symm⟩

end Ty

/-! ## The walk with two maps

The same check, as a walk that keeps the partner of each name in two maps, one for either
side.  At two variables it enters each name as the partner of the other, unless that one has
a partner already, and then looks up both.  Both maps are entered before anything is
compared, so where the walk gives up they may disagree.  As long as it goes on they hold the
same pairs. -/

/-- A map is the table of a relation between names. -/
def NameMap.Tabulates (map : NameMap TyVar) (related : TyVar → TyVar → Prop) : Prop :=
  ∀ key value, map[key]? = some value ↔ related key value

namespace NameMap.Tabulates

variable {map : NameMap TyVar} {related : TyVar → TyVar → Prop} {key value : TyVar}

/-- What is known already can be entered again. -/
theorem insertIfNew_known (tabulates : Tabulates map related) (known : related key value) :
    Tabulates (map.insertIfNew key value) related := by
  intro name other
  rw [getElem?_insertIfNew_eq, ← tabulates]
  split
  next same => rw [same, (tabulates key value).mpr known, Option.getD_some]
  next => rfl

/-- What is new is entered. -/
theorem insertIfNew_new (tabulates : Tabulates map related)
    (unknown : ∀ other, ¬ related key other) {extended : TyVar → TyVar → Prop}
    (prolongs : ∀ name other, extended name other ↔
      (name = key ∧ other = value) ∨ related name other) :
    Tabulates (map.insertIfNew key value) extended := by
  have absent : map[key]? = none :=
    Option.eq_none_iff_forall_ne_some.mpr fun other found =>
      unknown other ((tabulates key other).mp found)
  intro name other
  rw [getElem?_insertIfNew_eq, absent, Option.getD_none, prolongs, ← tabulates]
  by_cases same : name = key
  · simp [same, absent, eq_comm]
  · simp [same]

/-- What is known is never replaced. -/
theorem getElem?_insertIfNew (tabulates : Tabulates map related) {other : TyVar}
    (known : related key other) : (map.insertIfNew key value)[key]? = some other := by
  rw [getElem?_insertIfNew_eq, if_pos rfl, (tabulates key other).mpr known, Option.getD_some]

end NameMap.Tabulates

/-- The partners of the names met so far. -/
structure Partners where
  ofLeft : NameMap TyVar := ∅
  ofRight : NameMap TyVar := ∅

namespace Partners

/-- Enter two names as partners, and look whether they are. -/
def enter (partners : Partners) (left right : TyVar) : Bool × Partners :=
  let ofLeft := partners.ofLeft.insertIfNew left right
  let ofRight := partners.ofRight.insertIfNew right left
  (ofLeft[left]? == some right && ofRight[right]? == some left, ⟨ofLeft, ofRight⟩)

/-- Both maps hold the pairs of a pairing. -/
structure Agrees (partners : Partners) (pairing : Pairing) : Prop where
  ofLeft : partners.ofLeft.Tabulates fun left right => (left, right) ∈ pairing
  ofRight : partners.ofRight.Tabulates fun right left => (left, right) ∈ pairing

/-- One walk goes on where the other does, and with the same pairs. -/
inductive Follows : Option Pairing → Bool × Partners → Prop where
  | matched {pairing : Pairing} {step : Bool × Partners} :
      step.1 = true → step.2.Agrees pairing → Follows (some pairing) step
  | refused {step : Bool × Partners} : step.1 = false → Follows none step

variable {partners : Partners} {pairing : Pairing} {left right : TyVar}

theorem agrees_nil : Agrees {} [] where
  ofLeft := by simp [NameMap.Tabulates]
  ofRight := by simp [NameMap.Tabulates]

/-- The look-up of two names that are partners now succeeds. -/
theorem follows_of_agrees (agrees : (partners.enter left right).2.Agrees pairing)
    (paired : (left, right) ∈ pairing) :
    Follows (some pairing) (partners.enter left right) := by
  refine .matched ?_ agrees
  have foundLeft := (agrees.ofLeft left right).mpr paired
  have foundRight := (agrees.ofRight right left).mpr paired
  simp only [enter] at foundLeft foundRight ⊢
  rw [foundLeft, foundRight, beq_self_eq_true, beq_self_eq_true, Bool.and_true]

/-- Two variables are met in step. -/
theorem Agrees.follows_enter (agrees : partners.Agrees pairing) (left right : TyVar) :
    Follows (pairing.pair left right) (partners.enter left right) := by
  unfold Pairing.pair
  split
  next known =>
    exact follows_of_agrees
      ⟨agrees.ofLeft.insertIfNew_known known, agrees.ofRight.insertIfNew_known known⟩ known
  next unknown =>
    split
    next taken =>
      apply Follows.refused
      rw [enter, Bool.and_eq_false_iff, beq_eq_false_iff_ne, beq_eq_false_iff_ne]
      refine taken.imp (fun takenLeft => ?_) fun takenRight => ?_
      · obtain ⟨⟨source, target⟩, member, rfl⟩ := List.mem_map.mp takenLeft
        rw [agrees.ofLeft.getElem?_insertIfNew member]
        rintro ⟨⟩
        exact unknown member
      · obtain ⟨⟨source, target⟩, member, rfl⟩ := List.mem_map.mp takenRight
        rw [agrees.ofRight.getElem?_insertIfNew member]
        rintro ⟨⟩
        exact unknown member
    next untaken =>
      obtain ⟨newLeft, newRight⟩ := not_or.mp untaken
      refine follows_of_agrees ⟨agrees.ofLeft.insertIfNew_new ?_ ?_,
        agrees.ofRight.insertIfNew_new ?_ ?_⟩ (.head _)
      · exact fun other member => newLeft (List.mem_map_of_mem member)
      · simp
      · exact fun other member => newRight (List.mem_map_of_mem member)
      · simp [and_comm]

end Partners

namespace Ty

/-- Walk two types in step, and stop where they differ. -/
def walk (partners : Partners) : Ty → Ty → Bool × Partners
  | var left, var right => partners.enter left right
  | arrow leftDomain leftCodomain, arrow rightDomain rightCodomain =>
      match walk partners leftDomain rightDomain with
      | (true, met) => walk met leftCodomain rightCodomain
      | (false, met) => (false, met)
  | int, int => (true, partners)
  | bool, bool => (true, partners)
  | _, _ => (false, partners)

/-- The two walks stay in step. -/
theorem follows_walk {partners : Partners} {pairing : Pairing} (agrees : partners.Agrees pairing)
    (left right : Ty) :
    Partners.Follows (matchUpTo pairing left right) (walk partners left right) := by
  induction left generalizing right partners pairing with
  | var name =>
      cases right with
      | var other => exact agrees.follows_enter name other
      | _ => exact .refused rfl
  | arrow domain codomain domainInduction codomainInduction =>
      cases right with
      | arrow otherDomain otherCodomain =>
          have domainsFollow := domainInduction agrees otherDomain
          rw [matchUpTo, walk]
          generalize matchUpTo pairing domain otherDomain = outcome,
            walk partners domain otherDomain = step at domainsFollow ⊢
          obtain ⟨goesOn, met⟩ := step
          cases domainsFollow with
          | matched matched metAgrees =>
              obtain rfl : goesOn = true := matched
              exact codomainInduction metAgrees otherCodomain
          | refused refused =>
              obtain rfl : goesOn = false := refused
              exact .refused rfl
      | _ => exact .refused rfl
  | int =>
      cases right with
      | int => exact .matched rfl agrees
      | _ => exact .refused rfl
  | bool =>
      cases right with
      | bool => exact .matched rfl agrees
      | _ => exact .refused rfl

/-- The walk with two maps accepts the same types. -/
theorem alphaEq_eq_walk (left right : Ty) : left.alphaEq right = (walk {} left right).1 := by
  have follows := follows_walk Partners.agrees_nil left right
  rw [alphaEq]
  generalize matchUpTo [] left right = outcome, walk {} left right = step at follows ⊢
  cases follows with
  | matched goesOn => exact goesOn.symm
  | refused givesUp => exact givesUp.symm

end Ty

/-! ## Substitutions that rename -/

namespace Subst

/-- A substitution that puts in variables only, different ones for different variables of a
type. -/
structure RenamesOn (subst : Subst) (ty : Ty) : Prop where
  toVars : ∀ key value, subst.find? key = some value → ∃ name, value = .var name
  injective : ∀ first ∈ ty.vars, ∀ second ∈ ty.vars,
    subst.apply (.var first) = subst.apply (.var second) → first = second

theorem RenamesOn.exists_var {subst : Subst} {ty : Ty} (renames : subst.RenamesOn ty)
    (name : TyVar) : ∃ other, subst.apply (.var name) = .var other := by
  by_cases bound : subst.Binds name
  · obtain ⟨value, found⟩ := bound
    obtain ⟨other, rfl⟩ := renames.toVars name value found
    exact ⟨other, apply_var_of_find? found⟩
  · exact ⟨name, apply_var_of_not_binds bound⟩

/-- The variable that a substitution puts in for a variable, if it puts in one. -/
def image (subst : Subst) (name : TyVar) : TyVar :=
  match subst.apply (.var name) with
  | .var other => other
  | _ => name

/-- Whether a substitution renames a type is seen on the variables of the type. -/
theorem exists_rename_of_injective {subst : Subst} {ty : Ty}
    (toVars : ∀ name ∈ ty.vars, ∃ other, subst.apply (.var name) = .var other)
    (injective : ∀ first ∈ ty.vars, ∀ second ∈ ty.vars,
      subst.apply (.var first) = subst.apply (.var second) → first = second) :
    ∃ perm : Renaming, ty.rename perm = subst.apply ty := by
  have onVars : ∀ name ∈ ty.vars, subst.apply (.var name) = .var (subst.image name) := by
    intro name member
    obtain ⟨other, equal⟩ := toVars name member
    rw [image, equal]
  obtain ⟨perm, prescribed, _⟩ := Renaming.exists_prolong (Equiv.refl TyVar) ty.vars.toList
    id subst.image (fun _ _ _ _ same => same) fun first firstListed second secondListed same => by
      have firstMember := Std.ExtTreeSet.mem_toList.mp firstListed
      have secondMember := Std.ExtTreeSet.mem_toList.mp secondListed
      apply injective first firstMember second secondMember
      rw [onVars first firstMember, onVars second secondMember, same]
  refine ⟨perm, (apply_eq_rename perm fun name member => ?_).symm⟩
  rw [onVars name member]
  exact congrArg Ty.var (prescribed name (Std.ExtTreeSet.mem_toList.mpr member)).symm

/-- Every renaming of a type is the work of a substitution. -/
theorem exists_renamesOn (perm : Renaming) (ty : Ty) :
    ∃ subst : Subst, subst.RenamesOn ty ∧ subst.apply ty = ty.rename perm := by
  let subst : Subst := (∅ : Subst).override ty.vars.toList fun name => .var (perm name)
  have onVars : ∀ name ∈ ty.vars, subst.apply (.var name) = .var (perm name) :=
    fun name member => apply_override_of_mem (Std.ExtTreeSet.mem_toList.mpr member)
  refine ⟨subst, ⟨?_, ?_⟩, apply_eq_rename perm onVars⟩
  · intro key value found
    rw [find?_override, find?_empty] at found
    split at found
    · cases found
      exact ⟨perm key, rfl⟩
    · cases found
  · intro first firstMember second secondMember same
    rw [onVars first firstMember, onVars second secondMember] at same
    exact perm.injective (Ty.var.inj same)

/-- A type that comes back unchanged has none of its variables moved. -/
theorem apply_var_of_apply_eq_self {subst : Subst} {ty : Ty} (unchanged : subst.apply ty = ty) :
    ∀ name ∈ ty.vars, subst.apply (.var name) = .var name := by
  induction ty with
  | var other =>
      intro name member
      rw [Ty.mem_vars_var.mp member, unchanged]
  | arrow domain codomain domainInduction codomainInduction =>
      obtain ⟨domainUnchanged, codomainUnchanged⟩ := Ty.arrow.inj unchanged
      intro name member
      rcases Ty.mem_vars_arrow.mp member with inDomain | inCodomain
      · exact domainInduction domainUnchanged name inDomain
      · exact codomainInduction codomainUnchanged name inCodomain
  | int => exact fun name member => absurd member Ty.not_mem_vars_int
  | bool => exact fun name member => absurd member Ty.not_mem_vars_bool

/-- A substitution whose work on a type can be undone has renamed the type. -/
theorem exists_rename_of_undone {subst undo : Subst} {ty : Ty}
    (undone : undo.apply (subst.apply ty) = ty) :
    ∃ perm : Renaming, ty.rename perm = subst.apply ty := by
  have back : ∀ name ∈ ty.vars, undo.apply (subst.apply (.var name)) = .var name := by
    intro name member
    rw [← apply_comp]
    exact apply_var_of_apply_eq_self ((apply_comp undo subst ty).trans undone) name member
  apply exists_rename_of_injective
  · intro name member
    have restored := back name member
    -- Only a variable can be turned into a variable.
    cases put : subst.apply (.var name) with
    | var other => exact ⟨other, rfl⟩
    | _ =>
        rw [put] at restored
        cases restored
  · intro first firstMember second secondMember same
    have restored := back first firstMember
    rw [same, back second secondMember] at restored
    exact (Ty.var.inj restored).symm

end Subst

/-- Two types pass the check exactly if a substitution renames one to the other, and exactly
if each is an instance of the other.  So passing it is an equivalence. -/
theorem Ty.alphaEq_exact :
    (∀ left right : Ty, left.alphaEq right = true ↔
      ∃ subst : Subst, subst.RenamesOn left ∧ subst.apply left = right) ∧
    (∀ left right : Ty, left.alphaEq right = true ↔
      (∃ subst : Subst, subst.apply left = right) ∧ ∃ subst : Subst, subst.apply right = left) ∧
    Equivalence fun left right : Ty => left.alphaEq right = true := by
  refine ⟨fun left right => ⟨?_, ?_⟩, fun left right => ⟨?_, ?_⟩, equivalence_alphaEq⟩
  · intro same
    obtain ⟨perm, rfl⟩ := alphaEq_iff_exists_rename.mp same
    exact Subst.exists_renamesOn perm left
  · rintro ⟨subst, renames, rfl⟩
    exact alphaEq_iff_exists_rename.mpr (Subst.exists_rename_of_injective
      (fun name _ => renames.exists_var name) renames.injective)
  · intro same
    obtain ⟨perm, rfl⟩ := alphaEq_iff_exists_rename.mp same
    obtain ⟨there, _, thereEqual⟩ := Subst.exists_renamesOn perm left
    obtain ⟨back, _, backEqual⟩ := Subst.exists_renamesOn perm.symm (left.rename perm)
    rw [rename_rename, Equiv.self_trans_symm, rename_refl] at backEqual
    exact ⟨⟨there, thereEqual⟩, back, backEqual⟩
  · rintro ⟨⟨there, rfl⟩, back, undone⟩
    exact alphaEq_iff_exists_rename.mpr (Subst.exists_rename_of_undone undone)

end LetPoly
