import LetPoly.Proofs.Lockstep
import LetPoly.Proofs.Renaming
import LetPoly.Proofs.Scope

/-!
# Bridges between two runs

Two runs that draw from different supplies, or in a different order, answer with different
names.  What they find is compared up to a renaming, and the renaming cannot be given in
advance: it grows as the two runs draw names.  A `Bridge` holds both supplies and the
renaming so far, and `Bridge.Extends` says how it may grow.  It may change on any name
except those that both runs can have met (`Bridge.Carries`), and a name that is just drawn
is not one of them.

`Bridge.Relates` compares environments across a bridge.  `Bridge.Moves` compares
substitutions: all that counts is what they do to the names that the bridge carries, so one
side may bind more names than the other as long as the other has never met them.

`Bridge.Simulates` compares two computations across a bridge, with one rule for each
operation of inference.
-/

namespace LetPoly

/-- The supplies of two runs, and a renaming of the names of the left run to those of the
right one. -/
structure Bridge where
  left : Supply
  right : Supply
  perm : Renaming

namespace Bridge

/-- A name is carried by a bridge when it is spent on the left and its image is on the
right. -/
def Carries (bridge : Bridge) (name : TyVar) : Prop :=
  bridge.left.Spent name ∧ bridge.right.Spent (bridge.perm name)

/-- A bridge is a later state of another: the supplies are, and what was carried keeps
its image. -/
structure Extends (before after : Bridge) : Prop where
  left : before.left.Extends after.left
  right : before.right.Extends after.right
  agree : ∀ name, before.Carries name → after.perm name = before.perm name

namespace Extends

variable {before middle after : Bridge}

theorem refl (bridge : Bridge) : bridge.Extends bridge :=
  ⟨.refl _, .refl _, fun _ _ => rfl⟩

theorem carries (extension : before.Extends after) {name : TyVar}
    (carried : before.Carries name) : after.Carries name := by
  refine ⟨extension.left.spent carried.1, ?_⟩
  rw [extension.agree name carried]
  exact extension.right.spent carried.2

theorem trans (first : before.Extends middle) (second : middle.Extends after) :
    before.Extends after := by
  refine ⟨first.left.trans second.left, first.right.trans second.right, fun name carried => ?_⟩
  rw [second.agree name (first.carries carried), first.agree name carried]

/-- A type over carried names is renamed as before. -/
theorem rename_eq (extension : before.Extends after) {ty : Ty}
    (carried : ∀ name ∈ ty.vars, before.Carries name) :
    ty.rename after.perm = ty.rename before.perm :=
  Ty.rename_congr fun name member => extension.agree name (carried name member)

end Extends

/-- The bridge between two supplies on which every name stands for itself. -/
def between (left right : Supply) : Bridge :=
  ⟨left, right, Equiv.refl TyVar⟩

theorem Extends.fixes {left right : Supply} {after : Bridge} {name : TyVar}
    (extension : (between left right).Extends after) (leftSpent : left.Spent name)
    (rightSpent : right.Spent name) : after.perm name = name :=
  extension.agree name ⟨leftSpent, rightSpent⟩

/-! ## Drawing on both sides -/

/-- A bridge may send names that are issued on the left to any names that are issued on
the right, as long as it is one-to-one. -/
theorem exists_extends (bridge : Bridge) {left right : Supply}
    (leftExtends : bridge.left.Extends left) (rightExtends : bridge.right.Extends right)
    (indices : List TyVar) (source target : TyVar → TyVar)
    (sourceIssued : ∀ index ∈ indices, bridge.left.Issued left (source index))
    (targetIssued : ∀ index ∈ indices, bridge.right.Issued right (target index))
    (sourceInjective : ∀ first ∈ indices, ∀ second ∈ indices,
      source first = source second → first = second)
    (targetInjective : ∀ first ∈ indices, ∀ second ∈ indices,
      target first = target second → first = second) :
    ∃ perm, bridge.Extends ⟨left, right, perm⟩ ∧
      ∀ index ∈ indices, perm (source index) = target index := by
  obtain ⟨perm, prescribed, away⟩ :=
    bridge.perm.exists_prolong indices source target sourceInjective targetInjective
  refine ⟨perm, ⟨leftExtends, rightExtends, fun name carried => away name ?_ ?_⟩, prescribed⟩
  · rintro index member rfl
    exact (sourceIssued index member).1 carried.1
  · intro index member same
    exact (targetIssued index member).1 (same ▸ carried.2)

/-- The names drawn next correspond, and are carried from then on. -/
theorem exists_fresh (bridge : Bridge) :
    ∃ perm, bridge.Extends ⟨bridge.left.fresh.2, bridge.right.fresh.2, perm⟩ ∧
      perm bridge.left.fresh.1 = bridge.right.fresh.1 ∧
      Carries ⟨bridge.left.fresh.2, bridge.right.fresh.2, perm⟩ bridge.left.fresh.1 := by
  obtain ⟨perm, extension, prescribed⟩ := bridge.exists_extends bridge.left.fresh_extends
    bridge.right.fresh_extends [bridge.left.fresh.1] id (fun _ => bridge.right.fresh.1)
    (by simpa using bridge.left.fresh_issued) (by simpa using bridge.right.fresh_issued)
    (by simp) (by simp)
  have drawn : perm bridge.left.fresh.1 = bridge.right.fresh.1 := prescribed _ (.head _)
  refine ⟨perm, extension, drawn, bridge.left.fresh_issued.2, ?_⟩
  rw [drawn]
  exact bridge.right.fresh_issued.2

/-- Fresh instances of renamed schemes are renamed: the name drawn for a quantified
variable on the left goes to the name drawn for its image on the right. -/
theorem exists_freshInstance (bridge : Bridge) {left right : Scheme}
    (renamed : left.Renamed bridge.perm right)
    (carried : ∀ name ∈ left.mentioned, bridge.Carries name) :
    ∃ perm, bridge.Extends
        ⟨(left.freshSubst bridge.left).2, (right.freshSubst bridge.right).2, perm⟩ ∧
      right.freshInstance bridge.right = (left.freshInstance bridge.left).rename perm := by
  obtain ⟨leftNew, leftReplaces, leftInjective⟩ := left.exists_freshNames bridge.left
  obtain ⟨rightNew, rightReplaces, rightInjective⟩ := right.exists_freshNames bridge.right
  have quantifiedImage : ∀ name ∈ left.vars, bridge.perm name ∈ right.vars :=
    fun name quantified => (renamed.vars name).mpr quantified
  obtain ⟨perm, extension, prescribed⟩ := bridge.exists_extends
    (left.freshSubst_extends bridge.left) (right.freshSubst_extends bridge.right)
    left.vars leftNew (fun name => rightNew (bridge.perm name))
    (fun name quantified => (leftReplaces name quantified).1)
    (fun name quantified => (rightReplaces _ (quantifiedImage name quantified)).1)
    leftInjective
    (fun first firstMember second secondMember same => bridge.perm.injective
      (rightInjective _ (quantifiedImage first firstMember) _
        (quantifiedImage second secondMember) same))
  refine ⟨perm, extension, ?_⟩
  rw [Scheme.freshInstance, Scheme.freshInstance, renamed.ty]
  refine Subst.apply_rename_of_forall fun name member => ?_
  by_cases quantified : name ∈ left.vars
  · rw [(leftReplaces name quantified).2,
      (rightReplaces _ (quantifiedImage name quantified)).2, Ty.rename,
      prescribed name quantified]
  · have agree := extension.agree name
      (carried name (Scheme.mem_mentioned.mpr (.inl member)))
    rw [Scheme.apply_freshSubst_of_not_mem quantified,
      Scheme.apply_freshSubst_of_not_mem (mt (renamed.vars name).mp quantified), Ty.rename]
    exact congrArg Ty.var agree.symm

/-! ## Environments across a bridge -/

/-- Two environments correspond across a bridge. -/
structure Relates (bridge : Bridge) (left right : Env) : Prop where
  coversLeft : bridge.left.Covers left
  coversRight : bridge.right.Covers right
  renamed : left.Renamed bridge.perm right

namespace Relates

variable {before after : Bridge} {left right : Env}

theorem carries (relates : before.Relates left right) {name : TyVar}
    (member : name ∈ left.mentioned) : before.Carries name :=
  ⟨relates.coversLeft name member,
    relates.coversRight _ (relates.renamed.mem_mentioned.mpr member)⟩

/-- Environments that are the same up to the renaming correspond if the bridge carries the
names of one of them. -/
theorem of_carries (renamed : left.Renamed before.perm right)
    (carried : ∀ name ∈ left.mentioned, before.Carries name) : before.Relates left right where
  coversLeft := fun name member => (carried name member).1
  coversRight := by
    intro image member
    obtain ⟨name, rfl⟩ := before.perm.surjective image
    exact (carried name (renamed.mem_mentioned.mp member)).2
  renamed := renamed

theorem refl {first second : Supply} {env : Env} (coversFirst : first.Covers env)
    (coversSecond : second.Covers env) : (between first second).Relates env env :=
  ⟨coversFirst, coversSecond, .refl env⟩

theorem renamed_later (relates : before.Relates left right) (extension : before.Extends after) :
    left.Renamed after.perm right :=
  relates.renamed.congr fun name member => extension.agree name (relates.carries member)

theorem insert_fresh {perm : Renaming} (relates : before.Relates left right)
    (extension : before.Extends ⟨before.left.fresh.2, before.right.fresh.2, perm⟩)
    (drawn : perm before.left.fresh.1 = before.right.fresh.1) (param : Var) :
    Relates ⟨before.left.fresh.2, before.right.fresh.2, perm⟩
      (left.insert param (.mono (.var before.left.fresh.1)))
      (right.insert param (.mono (.var before.right.fresh.1))) where
  coversLeft := relates.coversLeft.insert_fresh param
  coversRight := relates.coversRight.insert_fresh param
  renamed := by
    refine Env.Pointwise.insert (relates.renamed_later extension) ?_ param
    rw [← drawn]
    exact .mono perm _

end Relates

/-! ## Substitutions across a bridge -/

/-- Two substitutions act alike on all names that a bridge carries, and what they put in is
carried by a later bridge. -/
structure Moves (before after : Bridge) (left right : Subst) : Prop where
  image : ∀ {name : TyVar}, before.Carries name →
    right.apply (.var (before.perm name)) = (left.apply (.var name)).rename after.perm
  carried : ∀ {name : TyVar}, before.Carries name →
    ∀ other ∈ (left.apply (.var name)).vars, after.Carries other

namespace Moves

variable {before middle after : Bridge} {left right : Subst}

theorem apply_eq (moves : before.Moves after left right) {ty : Ty}
    (carried : ∀ name ∈ ty.vars, before.Carries name) :
    right.apply (ty.rename before.perm) = (left.apply ty).rename after.perm :=
  Subst.apply_rename_of_forall fun name member => moves.image (carried name member)

theorem carries_apply (moves : before.Moves after left right) {ty : Ty}
    (carried : ∀ name ∈ ty.vars, before.Carries name) :
    ∀ name ∈ (left.apply ty).vars, after.Carries name := by
  intro name member
  obtain ⟨source, sourceMember, inImage⟩ := Subst.mem_vars_apply.mp member
  exact moves.carried (carried source sourceMember) name inImage

/-- A substitution over carried names and its renaming. -/
theorem of_localized (extension : before.Extends after)
    (localized : left.Localized after.Carries) :
    before.Moves after left (left.rename after.perm) where
  image := by
    intro name carried
    rw [← extension.agree name carried, ← Subst.apply_rename]
    rfl
  carried := by
    intro name carried other member
    rcases localized.eq_or member with rfl | inside
    · exact extension.carries carried
    · exact inside

theorem empty (extension : before.Extends after) : before.Moves after ∅ ∅ := by
  have moves := of_localized extension (.empty after.Carries)
  rwa [Subst.rename_empty] at moves

theorem comp {leftOuter rightOuter : Subst} (inner : before.Moves middle left right)
    (outer : middle.Moves after leftOuter rightOuter) :
    before.Moves after (leftOuter.comp left) (rightOuter.comp right) where
  image := by
    intro name carried
    rw [Subst.apply_comp, Subst.apply_comp, inner.image carried,
      outer.apply_eq (inner.carried carried)]
  carried := by
    intro name carried
    rw [Subst.apply_comp]
    exact outer.carries_apply (inner.carried carried)

theorem later (moves : before.Moves middle left right) (extension : middle.Extends after) :
    before.Moves after left right := by
  have composed := moves.comp (.empty extension)
  rwa [Subst.empty_comp, Subst.empty_comp] at composed

theorem earlier (extension : before.Extends middle) (moves : middle.Moves after left right) :
    before.Moves after left right := by
  have composed := (empty extension).comp moves
  rwa [Subst.comp_empty, Subst.comp_empty] at composed

end Moves

namespace Relates

variable {before after : Bridge} {left right : Env}

/-- Substitutions that act alike leave corresponding environments. -/
theorem subst {leftSubst rightSubst : Subst} (relates : before.Relates left right)
    (extension : before.Extends after) (moves : before.Moves after leftSubst rightSubst) :
    after.Relates (left.subst leftSubst) (right.subst rightSubst) := by
  refine .of_carries ?_ fun name member => ?_
  · refine relates.renamed.subst ?_ ?_
    · exact fun name member => extension.agree name (relates.carries member)
    · exact fun name free =>
        moves.image (relates.carries (Env.mem_mentioned_of_mem_freeVars free))
  · rcases Env.mem_mentioned_subst member with old | ⟨source, free, inImage⟩
    · exact extension.carries (relates.carries old)
    · exact moves.carried (relates.carries (Env.mem_mentioned_of_mem_freeVars free)) name inImage

/-- Generalized types may be put in, although the two sides may list what they quantify in
different orders. -/
theorem insert_generalize {ty : Ty} (relates : before.Relates left right)
    (carried : ∀ name ∈ ty.vars, before.Carries name) (name : Var) :
    before.Relates (left.insert name (left.generalize ty))
      (right.insert name (right.generalize (ty.rename before.perm))) := by
  refine .of_carries (Env.Pointwise.insert relates.renamed (relates.renamed.generalize ty) name) ?_
  intro other member
  rcases Env.mem_mentioned_insert member with inScheme | inEnv
  · rcases Scheme.mem_mentioned.mp inScheme with inTy | quantified
    · exact carried other inTy
    · exact carried other (Env.mem_vars_generalize.mp quantified).1
  · exact relates.carries inEnv

end Relates

/-! ## Typings across a bridge -/

/-- Two typings have the same type up to renaming, and their substitutions act alike on what
was carried before. -/
structure Follows (before after : Bridge) (left right : Typing) : Prop where
  ty : right.ty = left.ty.rename after.perm
  tyCarried : ∀ name ∈ left.ty.vars, after.Carries name
  subst : before.Moves after left.subst right.subst

/-- The environments for the body of a `let` correspond. -/
theorem Relates.letBody {before after : Bridge} {left right : Env}
    {leftValue rightValue : Typing} (relates : before.Relates left right)
    (leftConfined : leftValue.Confined left before.left after.left)
    (rightConfined : rightValue.Confined right before.right after.right)
    (extension : before.Extends after) (follows : before.Follows after leftValue rightValue)
    (name : Var) :
    after.Relates
      ((left.insert name ((left.subst leftValue.subst).generalize leftValue.ty)).subst
        leftValue.subst)
      ((right.insert name ((right.subst rightValue.subst).generalize rightValue.ty)).subst
        rightValue.subst) := by
  rw [leftConfined.insert_generalize, rightConfined.insert_generalize, follows.ty]
  exact (relates.subst extension follows.subst).insert_generalize follows.tyCarried name

/-! ## Computations across a bridge -/

section Computations

variable {α β γ δ : Type}

/-- Two results are reached by extending a bridge to the supplies that are left. -/
def Reaches (before : Bridge) (related : Bridge → α → β → Prop) (left : α) (leftRest : Supply)
    (right : β) (rightRest : Supply) : Prop :=
  ∃ perm, before.Extends ⟨leftRest, rightRest, perm⟩ ∧
    related ⟨leftRest, rightRest, perm⟩ left right

/-- Two computations end in the same way, with related values or with errors that are the
same up to renaming. -/
def Simulates (before : Bridge) (related : Bridge → α → β → Prop) (left : Inference α)
    (right : Inference β) : Prop :=
  Inference.Lockstep (before.Reaches related)
    (before.Reaches fun after leftError rightError => rightError = leftError.rename after.perm)
    (left.run before.left) (right.run before.right)

theorem Reaches.earlier {before middle : Bridge} {related : Bridge → α → β → Prop} {left : α}
    {leftRest : Supply} {right : β} {rightRest : Supply} (extension : before.Extends middle)
    (reaches : middle.Reaches related left leftRest right rightRest) :
    before.Reaches related left leftRest right rightRest := by
  obtain ⟨perm, later, holds⟩ := reaches
  exact ⟨perm, extension.trans later, holds⟩

namespace Simulates

variable {before : Bridge} {related : Bridge → γ → δ → Prop}

theorem pure {left : γ} {right : δ} (holds : related before left right) :
    before.Simulates related (pure left) (pure right) :=
  Inference.Lockstep.ok ⟨before.perm, .refl before, holds⟩

theorem fail (before : Bridge) (related : Bridge → γ → δ → Prop) (error : TypeError) :
    before.Simulates related (.fail error) (.fail (error.rename before.perm)) :=
  Inference.Lockstep.error ⟨before.perm, .refl before, rfl⟩

/-- What follows has to be compared only where both first parts succeed, across the
bridge that they leave. -/
theorem bind {between : Bridge → α → β → Prop} {left : Inference α} {right : Inference β}
    {leftNext : α → Inference γ} {rightNext : β → Inference δ}
    (first : before.Simulates between left right)
    (next : ∀ after leftValue leftEvents rightValue rightEvents,
      left.run before.left = (⟨.ok leftValue, leftEvents⟩, after.left) →
      right.run before.right = (⟨.ok rightValue, rightEvents⟩, after.right) →
      before.Extends after → between after leftValue rightValue →
      after.Simulates related (leftNext leftValue) (rightNext rightValue)) :
    before.Simulates related (left >>= leftNext) (right >>= rightNext) := by
  refine Inference.Lockstep.bind first ?_
  rintro leftValue leftEvents leftRest rightValue rightEvents rightRest leftRun rightRun
    ⟨perm, extension, holds⟩
  have second := next ⟨leftRest, rightRest, perm⟩ _ _ _ _ leftRun rightRun extension holds
  exact second.mono (fun _ _ _ _ => .earlier extension) fun _ _ _ _ => .earlier extension

/-- A first part that cannot fail on either side. -/
theorem step {after : Bridge} {left : Inference α} {right : Inference β} {leftValue : α}
    {rightValue : β} {leftEvents rightEvents : List Event} {leftNext : α → Inference γ}
    {rightNext : β → Inference δ}
    (leftRun : left.run before.left = (⟨.ok leftValue, leftEvents⟩, after.left))
    (rightRun : right.run before.right = (⟨.ok rightValue, rightEvents⟩, after.right))
    (extension : before.Extends after)
    (next : after.Simulates related (leftNext leftValue) (rightNext rightValue)) :
    before.Simulates related (left >>= leftNext) (right >>= rightNext) := by
  have sequence := Inference.Lockstep.step leftRun rightRun next
  exact sequence.mono (fun _ _ _ _ => .earlier extension) fun _ _ _ _ => .earlier extension

/-- A first part that only the left side has. -/
theorem step_left {left : Inference α} {value : α} {events : List Event} {rest : Supply}
    {next : α → Inference γ} {right : Inference δ}
    (run : left.run before.left = (⟨.ok value, events⟩, rest))
    (extension : before.left.Extends rest)
    (simulates : Simulates ⟨rest, before.right, before.perm⟩ related (next value) right) :
    before.Simulates related (left >>= next) right := by
  let after : Bridge := ⟨rest, before.right, before.perm⟩
  have leftRun : left.run before.left = (⟨.ok value, events⟩, after.left) := run
  have rightRun : (Pure.pure () : Inference Unit).run before.right =
      (⟨.ok (), []⟩, after.right) := rfl
  rw [← pure_bind () fun _ => right]
  exact step leftRun rightRun ⟨extension, .refl _, fun _ _ => rfl⟩ simulates

theorem report (leftEvent rightEvent : Event) {left : Inference γ} {right : Inference δ}
    (next : before.Simulates related left right) :
    before.Simulates related (Inference.report leftEvent >>= fun _ => left)
      (Inference.report rightEvent >>= fun _ => right) :=
  step (Inference.run_report _ _) (Inference.run_report _ _) (.refl before) next

theorem unify {left right leftImage rightImage : Ty} {leftNext : Unifier → Inference γ}
    {rightNext : Unifier → Inference δ} (leftEqual : leftImage = left.rename before.perm)
    (rightEqual : rightImage = right.rename before.perm)
    (next : ∀ leftUnifier rightUnifier,
      (LetPoly.unify left right).outcome = .ok leftUnifier →
      rightUnifier.subst = leftUnifier.subst.rename before.perm →
      before.Simulates related (leftNext leftUnifier) (rightNext rightUnifier)) :
    before.Simulates related
      ((monadLift (LetPoly.unify left right) : Inference Unifier) >>= leftNext)
      ((monadLift (LetPoly.unify leftImage rightImage) : Inference Unifier) >>= rightNext) := by
  have first : before.Simulates
      (fun after leftUnifier rightUnifier => after = before ∧
        rightUnifier.subst = leftUnifier.subst.rename before.perm)
      (monadLift (LetPoly.unify left right)) (monadLift (LetPoly.unify leftImage rightImage)) := by
    rw [Simulates, Inference.run_monadLift, Inference.run_monadLift, leftEqual, rightEqual]
    have runs := unify_renamed before.perm left right
    generalize LetPoly.unify left right = leftRun,
      LetPoly.unify (left.rename before.perm) (right.rename before.perm) = rightRun at runs ⊢
    cases runs with
    | ok substEqual => exact .ok ⟨before.perm, .refl before, rfl, substEqual⟩
    | error => exact .error ⟨before.perm, .refl before, rfl⟩
  refine first.bind ?_
  rintro _ leftUnifier _ rightUnifier _ leftRun _ _ ⟨rfl, substEqual⟩
  rw [Inference.run_monadLift] at leftRun
  exact next leftUnifier rightUnifier (by rw [(Prod.mk.inj leftRun).1]) substEqual

end Simulates

end Computations

end Bridge

end LetPoly
