import LetPoly.Proofs.Bridge

/-!
# Runs from different supplies

Two supplies may differ in their stem, in their number and in what they have reserved,
for instance because earlier runs have left them so.  Inference from one and from the
other ends in the same way, up to a renaming of type variables that fixes every name in
the environment.

The names drawn by one run are spelled differently from those drawn by the other, so a
`let` may list what it quantifies in another order, and each use of its variable then draws
the fresh names in another order.  The two runs are therefore compared across a bridge,
and the main induction puts the rules of `Bridge.Simulates` together.
-/

namespace LetPoly

/-! ## Typings that are the same up to a renaming -/

/-- Two typings have the same type and the same substitution, up to a renaming. -/
structure Typing.Renamed (perm : Renaming) (left right : Typing) : Prop where
  ty : right.ty = left.ty.rename perm
  subst : right.subst = left.subst.rename perm

namespace Typing.Renamed

variable {perm : Renaming} {left right : Env}

theorem ofLit (value : Lit) :
    (Typing.ofLit left value).Renamed perm (.ofLit right value) where
  ty := by
    cases value <;> rfl
  subst := (Subst.rename_empty perm).symm

theorem ofVar {leftTy rightTy : Ty} (name : Var) (renamed : rightTy = leftTy.rename perm) :
    (Typing.ofVar left name leftTy).Renamed perm (.ofVar right name rightTy) where
  ty := renamed
  subst := (Subst.rename_empty perm).symm

theorem ofAbs {leftName rightName : TyVar} {leftBody rightBody : Typing} (param : Var)
    (body : Expr) (names : perm leftName = rightName)
    (renamed : leftBody.Renamed perm rightBody) :
    (Typing.ofAbs left param body (.var leftName) leftBody).Renamed perm
      (.ofAbs right param body (.var rightName) rightBody) where
  ty := by
    rw [Typing.ofAbs, Typing.ofAbs, Ty.rename, ← Subst.apply_rename, Ty.rename, names,
      renamed.subst, renamed.ty]
  subst := renamed.subst

theorem ofApp {leftName rightName : TyVar} {leftFunc rightFunc leftArg rightArg : Typing}
    {leftUnifier rightUnifier : Unifier} (func arg : Expr) (names : perm leftName = rightName)
    (funcRenamed : leftFunc.Renamed perm rightFunc) (argRenamed : leftArg.Renamed perm rightArg)
    (unifiersRenamed : rightUnifier.subst = leftUnifier.subst.rename perm) :
    (Typing.ofApp left func arg (.var leftName) leftFunc leftArg leftUnifier).Renamed perm
      (.ofApp right func arg (.var rightName) rightFunc rightArg rightUnifier) where
  ty := by
    rw [Typing.ofApp, Typing.ofApp, ← Subst.apply_rename, Ty.rename, names, unifiersRenamed]
  subst := by
    rw [Typing.ofApp, Typing.ofApp, Subst.rename_comp, Subst.rename_comp, unifiersRenamed,
      argRenamed.subst, funcRenamed.subst]

theorem ofLet {leftValue rightValue leftBody rightBody : Typing} (name : Var)
    (value body : Expr) (valueRenamed : leftValue.Renamed perm rightValue)
    (bodyRenamed : leftBody.Renamed perm rightBody) :
    (Typing.ofLet left name value body leftValue leftBody).Renamed perm
      (.ofLet right name value body rightValue rightBody) where
  ty := bodyRenamed.ty
  subst := by
    rw [Typing.ofLet, Typing.ofLet, Subst.rename_comp, bodyRenamed.subst, valueRenamed.subst]

end Typing.Renamed

namespace Bridge

/-- Two typings correspond across a bridge, which carries all their names. -/
structure Holds (bridge : Bridge) (left right : Typing) : Prop where
  renamed : left.Renamed bridge.perm right
  ty : ∀ name ∈ left.ty.vars, bridge.Carries name
  subst : left.subst.Localized bridge.Carries

theorem Holds.renamed_later {before after : Bridge} {left right : Typing}
    (holds : before.Holds left right) (extension : before.Extends after) :
    left.Renamed after.perm right where
  ty := by
    rw [holds.renamed.ty]
    exact Ty.rename_congr fun name member => (extension.agree name (holds.ty name member)).symm
  subst := by
    rw [holds.renamed.subst]
    exact Subst.rename_congr (holds.subst.mono fun name carried =>
      (extension.agree name carried).symm)

theorem Holds.follows {before after : Bridge} {left right : Typing}
    (holds : after.Holds left right) (extension : before.Extends after) :
    before.Follows after left right where
  ty := holds.renamed.ty
  tyCarried := holds.ty
  subst := by
    rw [holds.renamed.subst]
    exact .of_localized extension holds.subst

section Runs

variable {before after : Bridge} {left right : Env} {expr : Expr}
  {leftTyping rightTyping : Typing} {leftEvents rightEvents : List Event}
  (relates : before.Relates left right)
  (leftRun : Infers left expr before.left leftTyping leftEvents after.left)
  (rightRun : Infers right expr before.right rightTyping rightEvents after.right)
  (renamed : leftTyping.Renamed after.perm rightTyping)

include relates leftRun rightRun renamed

/-- What two runs in corresponding environments have found is carried from then on. -/
theorem Relates.holds : after.Holds leftTyping rightTyping where
  renamed := renamed
  ty := by
    intro name member
    refine ⟨relates.coversLeft.inScope leftRun.extends
      ((leftRun.confined relates.coversLeft).ty name member),
      relates.coversRight.inScope rightRun.extends
        ((rightRun.confined relates.coversRight).ty _ ?_)⟩
    rw [renamed.ty]
    exact Ty.mem_vars_rename.mpr member
  subst := by
    have leftLocalized := (leftRun.confined relates.coversLeft).subst
    have rightLocalized := (rightRun.confined relates.coversRight).subst
    rw [renamed.subst] at rightLocalized
    have image : ∀ {key value}, leftTyping.subst.find? key = some value →
        (leftTyping.subst.rename after.perm).find? (after.perm key) =
          some (value.rename after.perm) := by
      intro key value found
      rw [Subst.find?_rename, found]
      rfl
    constructor
    · rintro key ⟨value, found⟩
      exact ⟨relates.coversLeft.inScope leftRun.extends (leftLocalized.keys ⟨value, found⟩),
        relates.coversRight.inScope rightRun.extends (rightLocalized.keys ⟨_, image found⟩)⟩
    · intro key value found name member
      exact ⟨relates.coversLeft.inScope leftRun.extends (leftLocalized.values found name member),
        relates.coversRight.inScope rightRun.extends
          (rightLocalized.values (image found) _ (Ty.mem_vars_rename.mpr member))⟩

end Runs

end Bridge

/-! ## Inference -/

/-- Inference in corresponding environments ends in the same way on both sides. -/
theorem inferExpr_simulates (expr : Expr) {bridge : Bridge} {left right : Env}
    (relates : bridge.Relates left right) :
    bridge.Simulates (fun after leftTyping rightTyping => leftTyping.Renamed after.perm rightTyping)
      (inferExpr left expr) (inferExpr right expr) := by
  induction expr generalizing bridge left right with
  | lit value => exact .pure (.ofLit value)
  | var name =>
      rw [inferExpr, inferExpr]
      cases found : left.find? name with
      | none =>
          rw [Env.Pointwise.find?_eq_none relates.renamed found]
          exact .fail bridge _ _
      | some scheme =>
          obtain ⟨image, imageFound, schemes⟩ :=
            Env.Pointwise.exists_right relates.renamed found
          have carried : ∀ other ∈ scheme.mentioned, bridge.Carries other := fun other member =>
            relates.carries (Env.mem_mentioned.mpr ⟨name, scheme, found, member⟩)
          obtain ⟨perm, extension, instances⟩ := bridge.exists_freshInstance schemes carried
          rw [imageFound]
          refine .step (scheme.run_instantiate _) (image.run_instantiate _) extension ?_
          exact .report _ _ (.pure (.ofVar name instances))
  | abs param body bodyInduction =>
      rw [inferExpr, inferExpr]
      obtain ⟨perm, extension, drawn, carried⟩ := bridge.exists_fresh
      refine .step (Inference.run_fresh _) (Inference.run_fresh _) extension ?_
      refine (bodyInduction (relates.insert_fresh extension drawn param)).bind ?_
      intro after leftBody _ rightBody _ _ _ bodyExtension renamed
      have names := (bodyExtension.agree _ carried).trans drawn
      exact .report _ _ (.pure (.ofAbs param body names renamed))
  | app func arg funcInduction argInduction =>
      rw [inferExpr, inferExpr]
      refine (funcInduction relates).bind ?_
      intro afterFunc leftFunc _ rightFunc _ leftRun rightRun extension renamed
      have leftFuncRun := infers_of_run leftRun
      have rightFuncRun := infers_of_run rightRun
      have funcHolds := relates.holds leftFuncRun rightFuncRun renamed
      have refined := relates.subst extension (funcHolds.follows extension).subst
      refine (argInduction refined).bind ?_
      intro afterArg leftArg _ rightArg _ leftRun rightRun extension renamed
      have argHolds := refined.holds (infers_of_run leftRun) (infers_of_run rightRun) renamed
      obtain ⟨perm, freshExtension, drawn, _⟩ := afterArg.exists_fresh
      refine .step (Inference.run_fresh _) (Inference.run_fresh _) freshExtension ?_
      have funcRenamed := funcHolds.renamed_later (extension.trans freshExtension)
      have argRenamed := argHolds.renamed_later freshExtension
      refine .unify ?_ ?_ fun leftUnifier rightUnifier _ unifiersRenamed => ?_
      · rw [argRenamed.subst, funcRenamed.ty, Subst.apply_rename]
      · rw [argRenamed.ty, ← drawn]
        rfl
      · exact .report _ _ (.pure
          (.ofApp func arg drawn funcRenamed argRenamed unifiersRenamed))
  | letIn name value body valueInduction bodyInduction =>
      rw [inferExpr, inferExpr]
      refine (valueInduction relates).bind ?_
      intro afterValue leftValue _ rightValue _ leftRun rightRun extension renamed
      have leftValueRun := infers_of_run leftRun
      have rightValueRun := infers_of_run rightRun
      have valueHolds := relates.holds leftValueRun rightValueRun renamed
      have refined := relates.letBody (leftValueRun.confined relates.coversLeft)
        (rightValueRun.confined relates.coversRight) extension (valueHolds.follows extension) name
      refine .report _ _ ?_
      refine (bodyInduction refined).bind ?_
      intro afterBody leftBody _ rightBody _ _ _ bodyExtension bodyRenamed
      exact .pure (.ofLet name value body (valueHolds.renamed_later bodyExtension) bodyRenamed)

/-- The answer of inference depends on the supply in the names of type variables only.
Whatever two supplies are like, inference succeeds on both or fails on both, and one
renaming, which fixes every name in the environment, turns the first answer or error into
the second. -/
theorem infer_supply_irrelevant (env : Env) (expr : Expr) (first second : Supply) :
    ∃ perm : Renaming, (∀ name ∈ env.mentioned, perm name = name) ∧
      match ((env.infer expr).run first).1.outcome, ((env.infer expr).run second).1.outcome with
      | .ok left, .ok right =>
          right.ty = left.ty.rename perm ∧ right.subst = left.subst.rename perm
      | .error left, .error right => right = left.rename perm
      | _, _ => False := by
  let bridge : Bridge :=
    ⟨first.reserve env.mentioned, second.reserve env.mentioned, Equiv.refl TyVar⟩
  have relates : bridge.Relates env env :=
    ⟨.reserve first env, .reserve second env, .refl env⟩
  have fixed : ∀ {left right : Supply} {perm : Renaming}, bridge.Extends ⟨left, right, perm⟩ →
      ∀ name ∈ env.mentioned, perm name = name := fun extension name member =>
    extension.agree name (relates.carries member)
  have runs := inferExpr_simulates expr relates
  unfold Bridge.Simulates at runs
  rw [Env.run_infer, Env.run_infer]
  generalize (inferExpr env expr).run (first.reserve env.mentioned) = leftEnd,
    (inferExpr env expr).run (second.reserve env.mentioned) = rightEnd at runs ⊢
  cases runs with
  | ok reaches =>
      obtain ⟨perm, extension, renamed⟩ := reaches
      exact ⟨perm, fixed extension, renamed.ty, renamed.subst⟩
  | error reaches =>
      obtain ⟨perm, extension, renamed⟩ := reaches
      exact ⟨perm, fixed extension, renamed⟩

end LetPoly
