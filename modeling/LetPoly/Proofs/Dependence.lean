import LetPoly.Expr.Binding
import LetPoly.Proofs.Lockstep
import LetPoly.Proofs.Principality

/-!
# What inference depends on

Inference looks up the free variables of an expression and nothing else, but at a
`let` it generalizes over the free type variables of the whole environment.  A binding
that the expression never uses might keep a type variable from being quantified.
`Typing.Confined.generalize_eq` says that it does not.  Where two environments lead to
the same answer for the value, the answer is in the scope of both, and each of its
variables is free in both refined environments or in neither.

The environments of two such runs drift apart under binders, by what each of them
shadows.  `Env.AgreeUnder` relates them through the pairs of binders that enclose the
two expressions, as equality up to the names of bound variables does, so that
`inferExpr_alike` covers two such expressions as well as a single one.
-/

namespace LetPoly

/-! ## Computations that end alike -/

namespace Inference

variable {α β γ δ : Type}

/-- Two computations on one supply both succeed, with related values, or both fail, with
the same error, and leave the same supply. -/
def Alike (related : α → β → Prop) (left : Inference α) (right : Inference β)
    (supply : Supply) : Prop :=
  Lockstep
    (fun leftValue leftRest rightValue rightRest =>
      leftRest = rightRest ∧ related leftValue rightValue)
    (fun leftError leftRest rightError rightRest =>
      leftRest = rightRest ∧ leftError = rightError)
    (left.run supply) (right.run supply)

namespace Alike

variable {related : γ → δ → Prop} {supply rest : Supply}

theorem pure {left : γ} {right : δ} (holds : related left right) (supply : Supply) :
    Alike related (pure left) (pure right) supply :=
  Lockstep.ok ⟨rfl, holds⟩

theorem refl (action : Inference α) (supply : Supply) : Alike Eq action action supply := by
  unfold Alike
  rcases action.run supply with ⟨⟨outcome, events⟩, rest⟩
  cases outcome with
  | ok value => exact .ok ⟨rfl, rfl⟩
  | error error => exact .error ⟨rfl, rfl⟩

theorem bind {between : α → β → Prop} {left : Inference α} {right : Inference β}
    {leftNext : α → Inference γ} {rightNext : β → Inference δ}
    (first : Alike between left right supply)
    (next : ∀ leftValue leftEvents rightValue rightEvents rest,
      left.run supply = (⟨.ok leftValue, leftEvents⟩, rest) →
      right.run supply = (⟨.ok rightValue, rightEvents⟩, rest) →
      between leftValue rightValue →
      Alike related (leftNext leftValue) (rightNext rightValue) rest) :
    Alike related (left >>= leftNext) (right >>= rightNext) supply := by
  refine Lockstep.bind first ?_
  rintro leftValue leftEvents leftRest rightValue rightEvents _ leftRun rightRun ⟨rfl, holds⟩
  exact next _ _ _ _ _ leftRun rightRun holds

/-- A first part that succeeds on both sides with the same value. -/
theorem step {left right : Inference α} {value : α} {leftEvents rightEvents : List Event}
    {leftNext : α → Inference γ} {rightNext : α → Inference δ}
    (leftRun : left.run supply = (⟨.ok value, leftEvents⟩, rest))
    (rightRun : right.run supply = (⟨.ok value, rightEvents⟩, rest))
    (next : Alike related (leftNext value) (rightNext value) rest) :
    Alike related (left >>= leftNext) (right >>= rightNext) supply :=
  Lockstep.step leftRun rightRun next

theorem report (leftEvent rightEvent : Event) {left : Inference γ} {right : Inference δ}
    (next : Alike related left right supply) :
    Alike related (Inference.report leftEvent >>= fun _ => left)
      (Inference.report rightEvent >>= fun _ => right) supply :=
  step (run_report _ _) (run_report _ _) next

end Alike

end Inference

/-! ## Answers in two scopes -/

/-- Two typings with the same type and the same substitution.  Their derivations may
differ, since a derivation writes its environment out. -/
structure Typing.SameAnswer (left right : Typing) : Prop where
  ty : left.ty = right.ty
  subst : left.subst = right.subst

theorem Typing.SameAnswer.confined {left right : Typing} {env : Env} {before after : Supply}
    (same : left.SameAnswer right) (confined : right.Confined env before after) :
    left.Confined env before after := by
  obtain ⟨ty, subst, derivation⟩ := left
  obtain ⟨rfl, rfl⟩ := same
  exact ⟨confined.ty, confined.subst, confined.resolved, confined.settled⟩

namespace Typing.Confined

variable {typing : Typing} {left right : Env} {before after : Supply}

/-- A variable of the type that is free in any refined environment is free in the one that
the answer is for. -/
theorem mem_freeVars_subst (inRight : typing.Confined right before after)
    (leftCovers : before.Covers left) (rightCovers : before.Covers right) {name : TyVar}
    (inTy : name ∈ typing.ty.vars) (free : name ∈ (left.subst typing.subst).freeVars) :
    name ∈ (right.subst typing.subst).freeVars := by
  rcases inRight.ty name inTy with freeRight | issued
  · -- The type is settled, so the substitution leaves the name where it is.
    obtain ⟨var, scheme, found, member⟩ := Env.mem_freeVars.mp freeRight
    refine Env.mem_freeVars_subst found
      (Scheme.mem_freeVars_subst member ?_ (Scheme.mem_freeVars.mp member).2)
    rw [Subst.apply_var_of_not_binds (inRight.settled name inTy), Ty.mem_vars_var]
  · -- A name drawn by the run gets into an environment through a key, which is in scope,
    -- and no scheme quantifies it.
    obtain ⟨source, sourceFree, inImage⟩ := Env.source_of_mem_freeVars_subst free
    have sourceSpent := leftCovers.free sourceFree
    have bound : typing.subst.Binds source := by
      refine Classical.byContradiction fun unbound => ?_
      rw [Subst.apply_var_of_not_binds unbound, Ty.mem_vars_var] at inImage
      exact issued.1 (inImage ▸ sourceSpent)
    have sourceFreeRight : source ∈ right.freeVars :=
      (inRight.subst.keys bound).resolve_right fun sourceIssued => sourceIssued.1 sourceSpent
    obtain ⟨var, scheme, found, member⟩ := Env.mem_freeVars.mp sourceFreeRight
    exact Env.mem_freeVars_subst found (Scheme.mem_freeVars_subst member inImage
      fun quantified => issued.1 (rightCovers.quantified ⟨var, scheme, found, quantified⟩))

/-- A type in both scopes is generalized to the same scheme. -/
theorem generalize_eq (inLeft : typing.Confined left before after)
    (inRight : typing.Confined right before after) (leftCovers : before.Covers left)
    (rightCovers : before.Covers right) :
    (left.subst typing.subst).generalize typing.ty =
      (right.subst typing.subst).generalize typing.ty := by
  have sameVars : typing.ty.vars \ (left.subst typing.subst).freeVars =
      typing.ty.vars \ (right.subst typing.subst).freeVars := by
    ext name
    rw [Std.ExtTreeSet.mem_diff_iff, Std.ExtTreeSet.mem_diff_iff]
    refine and_congr_right fun inTy => not_congr ⟨?_, ?_⟩
    · exact inRight.mem_freeVars_subst leftCovers rightCovers inTy
    · exact inLeft.mem_freeVars_subst rightCovers leftCovers inTy
  rw [Env.generalize, Env.generalize, sameVars]

end Typing.Confined

/-! ## Environments that agree on the variables of an expression -/

theorem Expr.alphaEqUnder_refl (expr : Expr) {pairs : BinderPairs}
    (reflexive : ∀ name, pairs.Relates name name) : AlphaEqUnder pairs expr expr := by
  have under : ∀ {pairs : BinderPairs} (binder : Var), (∀ name, pairs.Relates name name) →
      ∀ name, BinderPairs.Relates ((binder, binder) :: pairs) name name := by
    intro pairs binder reflexive name
    by_cases same : name = binder
    · exact .inl ⟨same, same⟩
    · exact .inr ⟨same, same, reflexive name⟩
  induction expr generalizing pairs with
  | var name => exact .var (reflexive name)
  | abs param _ bodyInduction => exact .abs (bodyInduction (under param reflexive))
  | app _ _ funcInduction argInduction =>
      exact .app (funcInduction reflexive) (argInduction reflexive)
  | letIn name _ _ valueInduction bodyInduction =>
      exact .letIn (valueInduction reflexive) (bodyInduction (under name reflexive))
  | lit _ => exact .lit

/-- Each of the variables has the same binding as any variable that refers to the same
binder.  An unbound one refers to no binder, and keeps its name. -/
def Env.AgreeUnder (pairs : BinderPairs) (vars : List Var) (left right : Env) : Prop :=
  ∀ leftVar ∈ vars, ∀ rightVar, pairs.Relates leftVar rightVar →
    left.find? leftVar = right.find? rightVar ∧
      (left.find? leftVar = none → leftVar = rightVar)

namespace Env.AgreeUnder

variable {pairs : BinderPairs} {vars : List Var} {left right : Env}

theorem subst (agree : AgreeUnder pairs vars left right) (subst : Subst) :
    AgreeUnder pairs vars (left.subst subst) (right.subst subst) := by
  intro leftVar member rightVar related
  obtain ⟨sameBinding, sameName⟩ := agree leftVar member rightVar related
  rw [find?_subst, find?_subst, ← sameBinding]
  exact ⟨rfl, fun unbound => sameName (Option.map_eq_none_iff.mp unbound)⟩

/-- A binder on each side, with the same scheme for both. -/
theorem insert {leftName rightName : Var}
    (agree : AgreeUnder pairs (vars.filter (· ≠ leftName)) left right) (scheme : Scheme) :
    AgreeUnder ((leftName, rightName) :: pairs) vars (left.insert leftName scheme)
      (right.insert rightName scheme) := by
  rintro leftVar member rightVar (⟨rfl, rfl⟩ | ⟨leftOther, rightOther, related⟩)
  · simp
  · rw [find?_insert, find?_insert, if_neg leftOther, if_neg rightOther]
    exact agree leftVar (List.mem_filter.mpr ⟨member, by simpa using leftOther⟩) rightVar related

end Env.AgreeUnder

/-- Two environments that a run cannot tell apart: the supply covers both, and they agree
on the variables of the expression. -/
structure Env.Matches (pairs : BinderPairs) (vars : List Var) (supply : Supply)
    (left right : Env) : Prop where
  coversLeft : supply.Covers left
  coversRight : supply.Covers right
  agree : Env.AgreeUnder pairs vars left right

namespace Env.Matches

variable {pairs : BinderPairs} {vars fewer : List Var} {supply rest : Supply} {left right : Env}

theorem restrict (alike : Matches pairs vars supply left right) (subset : fewer ⊆ vars) :
    Matches pairs fewer supply left right :=
  ⟨alike.coversLeft, alike.coversRight, fun leftVar member => alike.agree leftVar (subset member)⟩

theorem insert_fresh {leftParam rightParam : Var}
    (alike : Matches pairs (vars.filter (· ≠ leftParam)) supply left right) :
    Matches ((leftParam, rightParam) :: pairs) vars supply.fresh.2
      (left.insert leftParam (.mono (.var supply.fresh.1)))
      (right.insert rightParam (.mono (.var supply.fresh.1))) :=
  ⟨alike.coversLeft.insert_fresh leftParam, alike.coversRight.insert_fresh rightParam,
    alike.agree.insert _⟩

section Runs

variable {leftExpr rightExpr : Expr} {leftTyping rightTyping : Typing}
  {leftEvents rightEvents : List Event}
  (leftRun : Infers left leftExpr supply leftTyping leftEvents rest)
  (rightRun : Infers right rightExpr supply rightTyping rightEvents rest)
  (same : leftTyping.SameAnswer rightTyping)

include leftRun rightRun same

/-- Two runs with the same answer leave environments that match. -/
theorem subst (alike : Matches pairs vars supply left right) :
    Matches pairs vars rest (left.subst leftTyping.subst) (right.subst rightTyping.subst) where
  coversLeft := alike.coversLeft.subst leftRun.extends (leftRun.confined alike.coversLeft).subst
  coversRight :=
    alike.coversRight.subst rightRun.extends (rightRun.confined alike.coversRight).subst
  agree := same.subst ▸ alike.agree.subst leftTyping.subst

/-- The environments for the body of a `let` match, since both sides generalize the type of
the value to the same scheme. -/
theorem insert_generalize {leftName rightName : Var}
    (alike : Matches pairs (vars.filter (· ≠ leftName)) supply left right) :
    Matches ((leftName, rightName) :: pairs) vars rest
      ((left.insert leftName ((left.subst leftTyping.subst).generalize leftTyping.ty)).subst
        leftTyping.subst)
      ((right.insert rightName ((right.subst rightTyping.subst).generalize rightTyping.ty)).subst
        rightTyping.subst) := by
  have leftConfined := leftRun.confined alike.coversLeft
  have rightConfined := rightRun.confined alike.coversRight
  have sameScheme := leftConfined.generalize_eq (same.confined rightConfined)
    alike.coversLeft alike.coversRight
  refine ⟨?_, ?_, ?_⟩
  · rw [leftConfined.insert_generalize]
    exact leftConfined.covers_insert_generalize leftName alike.coversLeft leftRun.extends
  · rw [rightConfined.insert_generalize]
    exact rightConfined.covers_insert_generalize rightName alike.coversRight rightRun.extends
  · rw [← same.ty, ← same.subst, ← sameScheme]
    exact (alike.agree.insert _).subst leftTyping.subst

end Runs

end Env.Matches

/-! ## Inference -/

/-- Inference of expressions that are equal up to the names of bound variables, in
environments that agree on their free variables, ends alike. -/
theorem inferExpr_alike {pairs : BinderPairs} {leftExpr rightExpr : Expr}
    (alpha : Expr.AlphaEqUnder pairs leftExpr rightExpr) {supply : Supply} {left right : Env}
    (alike : Env.Matches pairs leftExpr.freeVars supply left right) :
    Inference.Alike Typing.SameAnswer (inferExpr left leftExpr) (inferExpr right rightExpr)
      supply := by
  induction alpha generalizing supply left right with
  | lit => exact .pure ⟨rfl, rfl⟩ supply
  | @var pairs leftVar rightVar related =>
      obtain ⟨sameBinding, sameName⟩ :=
        alike.agree leftVar (List.mem_singleton_self _) rightVar related
      rw [inferExpr, inferExpr, ← sameBinding]
      cases found : left.find? leftVar with
      | none =>
          rw [sameName found]
          exact Inference.Lockstep.error ⟨rfl, rfl⟩
      | some scheme =>
          refine .step (scheme.run_instantiate supply) (scheme.run_instantiate supply) ?_
          exact .report _ _ (.pure ⟨rfl, rfl⟩ _)
  | abs _ bodyInduction =>
      rw [inferExpr, inferExpr]
      refine .step (Inference.run_fresh supply) (Inference.run_fresh supply) ?_
      refine (bodyInduction alike.insert_fresh).bind ?_
      intro leftBody _ rightBody _ rest _ _ same
      rw [← same.ty, ← same.subst]
      exact .report _ _ (.pure ⟨rfl, rfl⟩ rest)
  | app _ _ funcInduction argInduction =>
      rw [inferExpr, inferExpr]
      refine (funcInduction (alike.restrict (List.subset_append_left _ _))).bind ?_
      intro leftFunc _ rightFunc _ afterFunc leftRun rightRun sameFunc
      have refined := alike.subst (infers_of_run leftRun) (infers_of_run rightRun) sameFunc
      refine (argInduction (refined.restrict (List.subset_append_right _ _))).bind ?_
      intro leftArg _ rightArg _ afterArg _ _ sameArg
      refine .step (Inference.run_fresh afterArg) (Inference.run_fresh afterArg) ?_
      rw [← sameFunc.ty, ← sameFunc.subst, ← sameArg.ty, ← sameArg.subst]
      refine (Inference.Alike.refl _ _).bind ?_
      rintro unifier _ _ _ rest _ _ rfl
      exact .report _ _ (.pure ⟨rfl, rfl⟩ rest)
  | letIn _ _ valueInduction bodyInduction =>
      rw [inferExpr, inferExpr]
      refine (valueInduction (alike.restrict (List.subset_append_left _ _))).bind ?_
      intro leftValue _ rightValue _ afterValue leftRun rightRun sameValue
      have inBody := alike.restrict (List.subset_append_right _ _)
      refine .report _ _ ?_
      refine (bodyInduction (inBody.insert_generalize (infers_of_run leftRun)
        (infers_of_run rightRun) sameValue)).bind ?_
      intro leftBody _ rightBody _ rest _ _ sameBody
      rw [← sameBody.ty, ← sameBody.subst, ← sameValue.subst]
      exact .pure ⟨rfl, rfl⟩ rest

/-- Inference depends on the bindings of the free variables of an expression only.  Once
all names in both environments are reserved, it gives the same answer or the same error in
both, and draws the same names. -/
theorem infer_reads_freeVars (expr : Expr) (left right : Env) (supply : Supply)
    (agree : ∀ name ∈ expr.freeVars, left.find? name = right.find? name)
    (leftReserved : ∀ name ∈ left.mentioned, name ∈ supply.reserved)
    (rightReserved : ∀ name ∈ right.mentioned, name ∈ supply.reserved) :
    ((left.infer expr).run supply).2 = ((right.infer expr).run supply).2 ∧
      match ((left.infer expr).run supply).1.outcome,
        ((right.infer expr).run supply).1.outcome with
      | .ok leftTyping, .ok rightTyping =>
          leftTyping.ty = rightTyping.ty ∧ leftTyping.subst = rightTyping.subst
      | .error leftError, .error rightError => leftError = rightError
      | _, _ => False := by
  have alike : Env.Matches [] expr.freeVars supply left right := by
    refine ⟨fun name member => .inl (leftReserved name member),
      fun name member => .inl (rightReserved name member), ?_⟩
    rintro name member _ rfl
    exact ⟨agree name member, fun _ => rfl⟩
  have alpha : Expr.AlphaEqUnder [] expr expr := expr.alphaEqUnder_refl fun _ => rfl
  have runs := inferExpr_alike alpha alike
  unfold Inference.Alike at runs
  rw [Env.run_infer, Env.run_infer, Supply.reserve_eq_self leftReserved,
    Supply.reserve_eq_self rightReserved]
  generalize (inferExpr left expr).run supply = leftEnd,
    (inferExpr right expr).run supply = rightEnd at runs ⊢
  cases runs with
  | ok ends => exact ⟨ends.1, ends.2.ty, ends.2.subst⟩
  | error ends => exact ends

/-- `numberedEnv` with a binding that `curriedLet` does not use.  It has the variable free
that `f` quantifies. -/
def crowdedEnv : Env :=
  numberedEnv.insert "y" (.mono (.arrow (.var "t0") (.var "t1")))

theorem infer_reads_freeVars_crowdedEnv :
    ¬ crowdedEnv.WellScoped ∧ ∃ supply left right,
      ((numberedEnv.infer curriedLet).run supply).1.outcome = .ok left ∧
      ((crowdedEnv.infer curriedLet).run supply).1.outcome = .ok right ∧
      left.ty = right.ty ∧ left.subst = right.subst := by
  let supply : Supply := Supply.reserve {} crowdedEnv.mentioned
  have reserved : (∀ name ∈ numberedEnv.mentioned.toList, name ∈ supply.reserved) ∧
      ∀ name ∈ crowdedEnv.mentioned.toList, name ∈ supply.reserved := by
    decide +kernel
  obtain ⟨_, sameAnswer⟩ := infer_reads_freeVars curriedLet numberedEnv crowdedEnv supply
    (by decide +kernel) (fun name member => reserved.1 name (Std.ExtTreeSet.mem_toList.mpr member))
    (fun name member => reserved.2 name (Std.ExtTreeSet.mem_toList.mpr member))
  obtain ⟨left, success, _⟩ := hasType_curriedLet.exists_infer_ok numberedEnv_wellScoped
    (Env.captureFree_of_avoids numberedEnv_avoids) supply
  rw [success] at sameAnswer
  refine ⟨by decide +kernel, supply, left, ?_⟩
  cases found : ((crowdedEnv.infer curriedLet).run supply).1.outcome with
  | ok right =>
      rw [found] at sameAnswer
      exact ⟨right, success, rfl, sameAnswer⟩
  | error error =>
      rw [found] at sameAnswer
      exact sameAnswer.elim

/-! ## Names of bound variables -/

/-- Inference does not see the names of bound variables.  For expressions that are equal up
to them it gives the same type and substitution, or the same error, and leaves the same
supply. -/
theorem infer_ignores_binderNames (env : Env) (supply : Supply) (left right : Expr)
    (alpha : left.AlphaEq right) :
    ((env.infer left).run supply).2 = ((env.infer right).run supply).2 ∧
      match ((env.infer left).run supply).1.outcome,
        ((env.infer right).run supply).1.outcome with
      | .ok leftTyping, .ok rightTyping =>
          leftTyping.ty = rightTyping.ty ∧ leftTyping.subst = rightTyping.subst
      | .error leftError, .error rightError => leftError = rightError
      | _, _ => False := by
  have alike : Env.Matches [] left.freeVars (supply.reserve env.mentioned) env env := by
    refine ⟨.reserve supply env, .reserve supply env, ?_⟩
    rintro name _ _ rfl
    exact ⟨rfl, fun _ => rfl⟩
  have runs := inferExpr_alike alpha alike
  unfold Inference.Alike at runs
  rw [Env.run_infer, Env.run_infer]
  generalize (inferExpr env left).run (supply.reserve env.mentioned) = leftEnd,
    (inferExpr env right).run (supply.reserve env.mentioned) = rightEnd at runs ⊢
  cases runs with
  | ok ends => exact ⟨ends.1, ends.2.ty, ends.2.subst⟩
  | error ends => exact ends

/-- `curriedLet` with a binder that has the name of the variable it is bound to, so that it
shadows the binding of `numberedEnv`. -/
def shadowingLet : Expr :=
  .letIn "f" (.var "f") (.app (.app (.var "f") (.lit (.bool true))) (.lit (.int 1)))

theorem infer_ignores_binderNames_shadowing :
    curriedLet.AlphaEq shadowingLet ∧ curriedLet ≠ shadowingLet ∧ ∃ left right,
      ((numberedEnv.infer curriedLet).run {}).1.outcome = .ok left ∧
      ((numberedEnv.infer shadowingLet).run {}).1.outcome = .ok right ∧
      left.ty = right.ty ∧ left.subst = right.subst := by
  have alpha : curriedLet.AlphaEq shadowingLet :=
    .letIn (.var rfl) (.app (.app (.var (.inl ⟨rfl, rfl⟩)) .lit) .lit)
  obtain ⟨left, success, _⟩ := hasType_curriedLet.exists_infer_ok numberedEnv_wellScoped
    (Env.captureFree_of_avoids numberedEnv_avoids) {}
  obtain ⟨_, sameAnswer⟩ := infer_ignores_binderNames numberedEnv {} curriedLet shadowingLet alpha
  rw [success] at sameAnswer
  refine ⟨alpha, by decide, left, ?_⟩
  cases found : ((numberedEnv.infer shadowingLet).run {}).1.outcome with
  | ok right =>
      rw [found] at sameAnswer
      exact ⟨right, success, rfl, sameAnswer⟩
  | error error =>
      rw [found] at sameAnswer
      exact sameAnswer.elim

end LetPoly
