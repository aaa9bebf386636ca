import LetPoly.Proofs.Dependence
import LetPoly.Proofs.Histories

/-!
# Let-polymorphism

A `let` is one of three ways to use a value in a body.  The others are to apply the
abstraction of the body to the value, and to write the value out wherever its variable
stands.

*Application.*  The parameter of an abstraction has one type, and the variable of a `let`
has at least that type.  So the typing that inference finds for the application is a typing
of the `let` (`HasType.letIn_of_applied`), and the inferred typing of the `let` is as
general.

*Inlining.*  For a closed value, a `let` and the body with the value written out have the
same inferred type, up to names.  Principality alone does not say so: it makes either
answer an instance of the other, but the renaming between them might move the free variables
of the environment.  The two runs are therefore compared across a bridge
(`inferExpr_inlines`).  Where one takes a fresh instance of the scheme, the other runs the
value again, and the names that this run draws and solves for are known to it alone.  Its
substitution is not a renaming of the other one, but it acts alike on everything carried
(`Bridge.Follows`).
-/

namespace LetPoly

/-! ## Application -/

/-- A generalized type is an instance of itself. -/
theorem Env.generalize_subsumes_mono (env : Env) (ty : Ty) :
    (env.generalize ty).Subsumes (.mono ty) ∅ := by
  intro replacement onFree
  have equal : replacement.apply ty = (∅ : Subst).apply ty :=
    Subst.apply_congr fun name member => onFree name (Scheme.mem_freeVars_mono.mpr member)
  exact Scheme.instance_iff.mpr ⟨∅, fun name _ => Subst.apply_empty _, equal.symm⟩

/-- A type of an applied abstraction is a type of the `let`. -/
theorem HasType.letIn_of_applied {env : Env} {name : Var} {value body : Expr} {ty : Ty}
    (typed : HasType env (.app (.abs name body) value) ty) :
    HasType env (.letIn name value body) ty := by
  cases typed with
  | @app _ _ _ domain _ ofFunc ofValue =>
      cases ofFunc with
      | abs inBody =>
          have polymorphic := inBody.transport
            ((Env.Subsumes.refl env).insert name (env.generalize_subsumes_mono domain))
          rw [Subst.apply_empty] at polymorphic
          exact .letIn ofValue polymorphic

/-- A `let` is inferred wherever the abstraction of its body can be applied to its value,
and its typing is as general. -/
theorem infer_let_of_applied (env : Env) (wellScoped : env.WellScoped) (first second : Supply)
    (name : Var) (value body : Expr) (applied : Typing)
    (success : ((env.infer (.app (.abs name body) value)).run first).1.outcome = .ok applied) :
    ∃ typing, ((env.infer (.letIn name value body)).run second).1.outcome = .ok typing ∧
      ∃ mediator : Subst, mediator.apply typing.ty = applied.ty ∧
        ∀ free ∈ env.freeVars,
          mediator.apply (typing.subst.apply (.var free)) = applied.subst.apply (.var free) := by
  have ready := Env.Ready.reserve wellScoped first
  obtain ⟨events, rest, infers⟩ := Env.infers_of_infer_ok success
  have typed := (infers.hasType ready).letIn_of_applied
  exact typed.exists_infer_ok wellScoped (ready.captureFree infers) second

/-- The body of `curriedLet` as an abstraction, applied to its value. -/
def curriedApp : Expr :=
  .app (.abs "g" (.app (.app (.var "g") (.lit (.bool true))) (.lit (.int 1)))) (.var "f")

/-- What the abstraction in `curriedApp` does to its parameter. -/
def curriedSubst : Subst :=
  .ofList [("t2", .arrow .bool (.arrow .int (.var "t4"))), ("t3", .arrow .int (.var "t4"))]

theorem arrives_curriedApp_func :
    Arrives numberedEnv
      (.abs "g" (.app (.app (.var "g") (.lit (.bool true))) (.lit (.int 1)))) (numberedSupply 0)
      (.arrow (.arrow .bool (.arrow .int (.var "t4"))) (.var "t4")) curriedSubst
      (numberedSupply 5) := by
  let env := numberedEnv.insert "g" (.mono (.var "t2"))
  have found : env.find? "g" = some (.mono (.var "t2")) := by decide +kernel
  have drawnFirst : (numberedSupply 3).fresh = ("t3", numberedSupply 4) := by decide +kernel
  have drawnSecond : (numberedSupply 4).fresh = ("t4", numberedSupply 5) := by decide +kernel
  have ofG : Arrives env (.var "g") (numberedSupply 3) (.var "t2") ∅ (numberedSupply 3) :=
    .var found (by decide +kernel)
  have first := ofG.app_of_var (.lit (.bool true)) drawnFirst (Subst.apply_empty _) (by decide)
  have second := first.app_of_var (.lit (.int 1)) drawnSecond (Subst.apply_empty _) (by decide)
  exact .abs (by decide +kernel) (second.of_toList_eq (by decide +kernel)) (by decide +kernel)

/-- The answer for `curriedApp`. -/
theorem exists_infer_curriedApp :
    ∃ typing, ((numberedEnv.infer curriedApp).run {}).1.outcome = .ok typing ∧
      typing.ty = .var "t6" ∧ typing.subst.apply (.var "t0") = .arrow .int (.var "t6") := by
  have found : (numberedEnv.subst curriedSubst).find? "f" =
      some ⟨["t1"], .arrow (.var "t1") (.var "t0")⟩ := by decide +kernel
  have ofF : Arrives (numberedEnv.subst curriedSubst) (.var "f") (numberedSupply 5)
      (.arrow (.var "t5") (.var "t0")) ∅ (numberedSupply 6) := .var found (by decide +kernel)
  have ofBool : Solves .bool (.var "t5") _ _ := .bindRight (by simp) (by decide)
  have ofInt : Solves (.arrow .int (.var "t4")) (.var "t0") _ _ :=
    .bindRight (by simp) (by decide)
  have domains : Solves (.arrow .bool (.arrow .int (.var "t4")))
      (.arrow (.var "t5") (.var "t0")) _ _ :=
    ofBool.arrow_of_eq ofInt (by decide +kernel) (by decide +kernel)
  have codomains : Solves (.var "t4") (.var "t6") _ _ := .bindLeft (by decide)
  have solved : Solves (.arrow (.arrow .bool (.arrow .int (.var "t4"))) (.var "t4"))
      (.arrow (.arrow (.var "t5") (.var "t0")) (.var "t6")) _ _ :=
    domains.arrow_of_eq codomains (by decide +kernel) (by decide +kernel)
  have arrives : Arrives numberedEnv curriedApp (numberedSupply 0) (.var "t6") _
      (numberedSupply 7) :=
    .app arrives_curriedApp_func ofF solved (by decide +kernel) (by decide +kernel)
  obtain ⟨typing, success, tyEqual, substEqual⟩ := arrives.exists_infer_ok
  refine ⟨typing, success, tyEqual, ?_⟩
  rw [substEqual]
  decide +kernel

theorem infer_let_of_applied_curried :
    ∃ applied typing, ((numberedEnv.infer curriedApp).run {}).1.outcome = .ok applied ∧
      applied.ty = .var "t6" ∧ applied.subst.apply (.var "t0") = .arrow .int (.var "t6") ∧
      ((numberedEnv.infer curriedLet).run {}).1.outcome = .ok typing ∧
      typing.ty = .var "t5" ∧
      ∃ mediator : Subst, mediator.apply typing.ty = applied.ty ∧
        mediator.apply (typing.subst.apply (.var "t0")) = applied.subst.apply (.var "t0") := by
  obtain ⟨applied, success, appliedTy, onFree⟩ := exists_infer_curriedApp
  obtain ⟨typing, letSuccess, mediator, tyEqual, agree⟩ :=
    infer_let_of_applied numberedEnv numberedEnv_wellScoped {} {} "g" (.var "f") _ applied success
  obtain ⟨found, foundSuccess, foundTy, _⟩ := exists_infer_curriedLet
  obtain rfl : found = typing := Except.ok.inj (foundSuccess.symm.trans letSuccess)
  exact ⟨applied, found, success, appliedTy, onFree, letSuccess, foundTy, mediator, tyEqual,
    agree "t0" (by decide)⟩

/-! ## Closed values -/

/-- A closed value that is put in leaves none of the variable. -/
theorem Expr.not_mem_freeVars_replace {name : Var} {value : Expr} (closed : value.freeVars = [])
    (expr : Expr) : name ∉ (expr.replace name value).freeVars := by
  induction expr with
  | var other =>
      rw [replace]
      split
      · simp [closed]
      · next different => simpa [freeVars] using Ne.symm different
  | abs param body bodyInduction =>
      rw [replace, freeVars]
      split
      · next same => simp [same]
      · simp [bodyInduction]
  | app func arg funcInduction argInduction =>
      simp [replace, freeVars, funcInduction, argInduction]
  | letIn other bound body boundInduction bodyInduction =>
      rw [replace, freeVars]
      split
      · next same => simp [same, boundInduction]
      · simp [boundInduction, bodyInduction]
  | lit literal => simp [replace, freeVars]

/-- Wherever an expression is inferred, it has the given type up to a renaming, and its
answer is made of names that it has drawn itself. -/
def Expr.Yields (expr : Expr) (ty : Ty) : Prop :=
  ∀ (env : Env) (supply : Supply), supply.Covers env →
    ∃ typing events rest, Infers env expr supply typing events rest ∧
      typing.Confined ∅ supply rest ∧ ∃ perm : Renaming, typing.ty = ty.rename perm

/-- Environments that agree on the free variables of an expression are alike to it. -/
theorem inferExpr_alike_of_agree {expr : Expr} {left right : Env} {supply : Supply}
    (coversLeft : supply.Covers left) (coversRight : supply.Covers right)
    (agree : ∀ name ∈ expr.freeVars, left.find? name = right.find? name) :
    Inference.Alike Typing.SameAnswer (inferExpr left expr) (inferExpr right expr) supply := by
  have alpha : Expr.AlphaEqUnder [] expr expr := expr.alphaEqUnder_refl fun _ => rfl
  refine inferExpr_alike alpha ⟨coversLeft, coversRight, ?_⟩
  rintro name member _ rfl
  exact ⟨agree name member, fun _ => rfl⟩

/-- A closed expression that is inferred once is inferred everywhere.  The run is taken to
the empty environment, from there to the other supply, and into the other environment. -/
theorem Infers.yields {env : Env} {expr : Expr} {supply rest : Supply} {typing : Typing}
    {events : List Event} (infers : Infers env expr supply typing events rest)
    (covers : supply.Covers env) (closed : expr.freeVars = []) : expr.Yields typing.ty := by
  intro target start targetCovers
  have agree : ∀ {left right : Env},
      ∀ name ∈ expr.freeVars, left.find? name = right.find? name := by
    simp [closed]
  obtain ⟨alone, _, _, aloneRun, _, sameAlone⟩ :=
    (inferExpr_alike_of_agree covers (.empty supply) agree).exists_right infers.run_eq
  have relates := Bridge.Relates.refl (.empty supply) (.empty start)
  obtain ⟨moved, _, _, movedRun, perm, _, renamed⟩ :=
    (inferExpr_simulates expr relates).exists_right aloneRun
  obtain ⟨placed, _, _, placedRun, rfl, samePlaced⟩ :=
    (inferExpr_alike_of_agree (.empty start) targetCovers agree).exists_right movedRun
  have sameMoved : placed.SameAnswer moved := ⟨samePlaced.ty.symm, samePlaced.subst.symm⟩
  have confined := (infers_of_run movedRun).confined (.empty start)
  refine ⟨placed, _, _, infers_of_run placedRun, sameMoved.confined confined, perm, ?_⟩
  rw [sameMoved.ty, renamed.ty, sameAlone.ty]

/-- A scheme that quantifies every variable of its type. -/
def Scheme.Closed (scheme : Scheme) : Prop :=
  ∀ name, name ∉ scheme.freeVars

theorem Scheme.Closed.mem_vars {scheme : Scheme} (closed : scheme.Closed) {name : TyVar}
    (member : name ∈ scheme.ty.vars) : name ∈ scheme.vars :=
  Classical.byContradiction fun notQuantified =>
    closed name (Scheme.mem_freeVars.mpr ⟨member, notQuantified⟩)

/-- A closed scheme stays what it is when an environment is refined. -/
theorem Scheme.Closed.find?_subst {scheme : Scheme} (closed : scheme.Closed) {env : Env}
    {name : Var} (found : env.find? name = some scheme) (subst : Subst) :
    (env.subst subst).find? name = some scheme := by
  rw [Env.find?_subst, found, Option.map_some, Scheme.subst_eq_self]
  exact fun free member => absurd member (closed free)

namespace Typing.Confined

variable {typing : Typing} {env : Env} {before after : Supply}
  (confined : typing.Confined ∅ before after) (covers : before.Covers env)

include confined covers

/-- The answer for a closed value leaves the environment alone. -/
theorem env_subst_eq : env.subst typing.subst = env :=
  Env.subst_eq_self fun _ free bound =>
    (confined.subst.keys bound).issued_of_empty.1 (covers.free free)

/-- All of the type of a closed value is generalized. -/
theorem closed_generalize : (env.generalize typing.ty).Closed := by
  intro name free
  obtain ⟨inTy, inEnv⟩ := Env.mem_freeVars_generalize.mp free
  exact (confined.ty name inTy).issued_of_empty.1 (covers.free inEnv)

end Typing.Confined

/-! ## Closed schemes and typings across a bridge -/

namespace Bridge

/-- The fresh instance of a closed scheme goes to any spelling of its type in names that are
issued on the right. -/
theorem exists_closedInstance (bridge : Bridge) {scheme : Scheme} {rest : Supply}
    {target : Renaming} (closed : scheme.Closed) (extension : bridge.right.Extends rest)
    (issued : ∀ name ∈ scheme.ty.vars, bridge.right.Issued rest (target name)) :
    ∃ perm, bridge.Extends ⟨(scheme.freshSubst bridge.left).2, rest, perm⟩ ∧
      scheme.ty.rename target = (scheme.freshInstance bridge.left).rename perm := by
  obtain ⟨new, replaces, newInjective⟩ := scheme.exists_freshNames bridge.left
  have listed : ∀ {name}, name ∈ scheme.ty.vars.toList ↔ name ∈ scheme.ty.vars :=
    Std.ExtTreeSet.mem_toList
  have quantified : ∀ name ∈ scheme.ty.vars.toList, name ∈ scheme.vars :=
    fun name member => closed.mem_vars (listed.mp member)
  obtain ⟨perm, extended, prescribed⟩ := bridge.exists_extends
    (scheme.freshSubst_extends bridge.left) extension scheme.ty.vars.toList new target
    (fun name member => (replaces name (quantified name member)).1)
    (fun name member => issued name (listed.mp member))
    (fun first firstMember second secondMember => newInjective first
      (quantified first firstMember) second (quantified second secondMember))
    (fun _ _ _ _ same => target.injective same)
  refine ⟨perm, extended, ?_⟩
  rw [← Subst.apply_empty (scheme.ty.rename target), Scheme.freshInstance]
  refine Subst.apply_rename_of_forall fun name member => ?_
  rw [(replaces name (closed.mem_vars member)).2, Subst.apply_empty, Ty.rename,
    prescribed name (listed.mpr member)]

theorem Moves.of_fixed {before after : Bridge} {right : Subst} (extension : before.Extends after)
    (fixed : ∀ name, before.right.Spent name → right.apply (.var name) = .var name) :
    before.Moves after ∅ right where
  image := by
    intro name carried
    rw [fixed _ carried.2, ← (Moves.empty extension).image carried, Subst.apply_empty]
  carried := (Moves.empty extension).carried

namespace Follows

variable {before middle after : Bridge} {leftEnv rightEnv : Env}

theorem later {left right : Typing} (follows : before.Follows middle left right)
    (extension : middle.Extends after) : before.Follows after left right where
  ty := by
    rw [follows.ty, extension.rename_eq follows.tyCarried]
  tyCarried := fun name member => extension.carries (follows.tyCarried name member)
  subst := follows.subst.later extension

theorem ofAbs {leftName rightName : TyVar} {leftBody rightBody : Typing} (param : Var)
    (leftExpr rightExpr : Expr) (extension : before.Extends middle)
    (drawn : middle.perm leftName = rightName) (carried : middle.Carries leftName)
    (follows : middle.Follows after leftBody rightBody) :
    before.Follows after (.ofAbs leftEnv param leftExpr (.var leftName) leftBody)
      (.ofAbs rightEnv param rightExpr (.var rightName) rightBody) where
  ty := by
    rw [Typing.ofAbs, Typing.ofAbs, Ty.rename, ← drawn, follows.subst.image carried, follows.ty]
  tyCarried := by
    intro name member
    rcases Ty.mem_vars_arrow.mp member with inDomain | inCodomain
    · exact follows.subst.carried carried name inDomain
    · exact follows.tyCarried name inCodomain
  subst := follows.subst.earlier extension

/-- The equation between the sides of an application is over carried names. -/
theorem carries_of_mem_problemVars {leftName : TyVar} {leftFunc rightFunc leftArg rightArg : Typing}
    (carried : after.Carries leftName) (funcFollows : before.Follows middle leftFunc rightFunc)
    (argFollows : middle.Follows after leftArg rightArg) {name : TyVar}
    (member : name ∈ problemVars (leftArg.subst.apply leftFunc.ty)
      (.arrow leftArg.ty (.var leftName))) : after.Carries name := by
  rcases mem_problemVars.mp member with inFunc | inExpected
  · exact argFollows.subst.carries_apply funcFollows.tyCarried name inFunc
  · rcases Ty.mem_vars_arrow.mp inExpected with inArg | isResult
    · exact argFollows.tyCarried name inArg
    · rw [Ty.mem_vars_var] at isResult
      exact isResult ▸ carried

theorem ofApp {leftName rightName : TyVar} {leftFunc rightFunc leftArg rightArg : Typing}
    {leftUnifier rightUnifier : Unifier}
    (leftFuncExpr leftArgExpr rightFuncExpr rightArgExpr : Expr)
    (drawn : after.perm leftName = rightName) (carried : after.Carries leftName)
    (funcFollows : before.Follows middle leftFunc rightFunc)
    (argFollows : middle.Follows after leftArg rightArg)
    (success : (unify (leftArg.subst.apply leftFunc.ty)
      (.arrow leftArg.ty (.var leftName))).outcome = .ok leftUnifier)
    (unifiersRenamed : rightUnifier.subst = leftUnifier.subst.rename after.perm) :
    before.Follows after
      (.ofApp leftEnv leftFuncExpr leftArgExpr (.var leftName) leftFunc leftArg leftUnifier)
      (.ofApp rightEnv rightFuncExpr rightArgExpr (.var rightName) rightFunc rightArg
        rightUnifier) := by
  have localized : leftUnifier.subst.Localized after.Carries :=
    (unify_relevant _ _ leftUnifier success).1.mono fun name =>
      carries_of_mem_problemVars carried funcFollows argFollows
  have moves : after.Moves after leftUnifier.subst rightUnifier.subst := by
    rw [unifiersRenamed]
    exact .of_localized (.refl after) localized
  refine ⟨?_, moves.carried carried, (funcFollows.subst.comp argFollows.subst).comp moves⟩
  rw [Typing.ofApp, Typing.ofApp, ← drawn, moves.image carried]

theorem ofLet {leftValue rightValue leftBody rightBody : Typing} (name : Var)
    (leftValueExpr leftBodyExpr rightValueExpr rightBodyExpr : Expr)
    (valueFollows : before.Follows middle leftValue rightValue)
    (bodyFollows : middle.Follows after leftBody rightBody) :
    before.Follows after (.ofLet leftEnv name leftValueExpr leftBodyExpr leftValue leftBody)
      (.ofLet rightEnv name rightValueExpr rightBodyExpr rightValue rightBody) where
  ty := bodyFollows.ty
  tyCarried := bodyFollows.tyCarried
  subst := valueFollows.subst.comp bodyFollows.subst

end Follows

end Bridge

/-! ## Inlining -/

/-- Inference of one expression, in corresponding environments. -/
theorem inferExpr_follows (expr : Expr) {bridge : Bridge} {left right : Env}
    (relates : bridge.Relates left right) :
    bridge.Simulates bridge.Follows (inferExpr left expr) (inferExpr right expr) := by
  rw [← bind_pure (inferExpr left expr), ← bind_pure (inferExpr right expr)]
  refine (inferExpr_simulates expr relates).bind ?_
  intro after leftTyping _ rightTyping _ leftRun rightRun extension renamed
  have holds := relates.holds (infers_of_run leftRun) (infers_of_run rightRun) renamed
  exact .pure (holds.follows extension)

section Inlining

variable {name : Var} {value : Expr} {scheme : Scheme} (closed : scheme.Closed)
  (yields : value.Yields scheme.ty)

include closed yields

/-- A variable is instantiated on one side, and its value is run on the other. -/
theorem inferExpr_var_inlines {bridge : Bridge} {left right : Env}
    (coversRight : bridge.right.Covers right) (found : left.find? name = some scheme) :
    bridge.Simulates bridge.Follows (inferExpr left (.var name)) (inferExpr right value) := by
  obtain ⟨typing, events, rest, rightRun, confined, target, tyEqual⟩ :=
    yields right bridge.right coversRight
  have issued : ∀ index ∈ scheme.ty.vars, bridge.right.Issued rest (target index) := by
    intro index member
    refine (confined.ty _ ?_).issued_of_empty
    rw [tyEqual]
    exact Ty.mem_vars_rename.mpr member
  obtain ⟨perm, extension, instances⟩ :=
    bridge.exists_closedInstance closed rightRun.extends issued
  rw [← tyEqual] at instances
  rw [Bridge.Simulates, (Infers.var found).run_eq, rightRun.run_eq]
  refine .ok ⟨perm, extension, instances, fun other member => ?_, .of_fixed extension ?_⟩
  · -- Nothing is free in the scheme, so the name was drawn, and so was its image.
    have imageMember : perm other ∈ typing.ty.vars := by
      rw [instances]
      exact Ty.mem_vars_rename.mpr member
    rcases Scheme.mem_vars_freshInstance member with free | drawn
    · exact absurd free (closed other)
    · exact ⟨drawn.2, (confined.ty _ imageMember).issued_of_empty.2⟩
  · intro other spent
    refine Subst.apply_var_of_not_binds fun bound => ?_
    exact (confined.subst.keys bound).issued_of_empty.1 spent

/-- Inference of an expression, and of the same expression with a closed value written out
for a variable that is bound to the scheme of the value. -/
theorem inferExpr_inlines (expr : Expr) {bridge : Bridge} {left right : Env}
    (relates : bridge.Relates left right) (found : left.find? name = some scheme) :
    bridge.Simulates bridge.Follows (inferExpr left expr)
      (inferExpr right (expr.replace name value)) := by
  -- Under a binder of the same name, nothing is written out.
  have underBinder : ∀ {body : Expr} {binder : Var} {inner : Bridge} {left right : Env},
      inner.Relates left right →
      (binder ≠ name → inner.Simulates inner.Follows (inferExpr left body)
        (inferExpr right (body.replace name value))) →
      inner.Simulates inner.Follows (inferExpr left body)
        (inferExpr right (if binder = name then body else body.replace name value)) := by
    intro body binder inner left right related inlines
    split
    · exact inferExpr_follows body related
    · next different => exact inlines different
  have foundInsert : ∀ {env : Env} {binder : Var} (inserted : Scheme), binder ≠ name →
      env.find? name = some scheme → (env.insert binder inserted).find? name = some scheme := by
    intro env binder inserted different foundHere
    rw [Env.find?_insert, if_neg different.symm, foundHere]
  induction expr generalizing bridge left right with
  | lit literal => exact inferExpr_follows _ relates
  | var other =>
      rw [Expr.replace]
      split
      · next same =>
          rw [same]
          exact inferExpr_var_inlines closed yields relates.coversRight found
      · exact inferExpr_follows _ relates
  | abs param body bodyInduction =>
      rw [Expr.replace, inferExpr, inferExpr]
      obtain ⟨perm, extension, drawn, carried⟩ := bridge.exists_fresh
      have inner := relates.insert_fresh extension drawn param
      refine .step (Inference.run_fresh _) (Inference.run_fresh _) extension ?_
      refine (underBinder inner fun different =>
        bodyInduction inner (foundInsert _ different found)).bind ?_
      intro after leftBody _ rightBody _ _ _ _ follows
      exact .report _ _ (.pure (.ofAbs param _ _ extension drawn carried follows))
  | app func arg funcInduction argInduction =>
      rw [Expr.replace, inferExpr, inferExpr]
      refine (funcInduction relates found).bind ?_
      intro afterFunc leftFunc _ rightFunc _ _ _ extension funcFollows
      have refined := relates.subst extension funcFollows.subst
      refine (argInduction refined (closed.find?_subst found _)).bind ?_
      intro afterArg leftArg _ rightArg _ _ _ _ argFollows
      obtain ⟨perm, freshExtension, drawn, carried⟩ := afterArg.exists_fresh
      refine .step (Inference.run_fresh _) (Inference.run_fresh _) freshExtension ?_
      have argLater := argFollows.later freshExtension
      refine .unify ?_ ?_ fun leftUnifier rightUnifier success unifiersRenamed => ?_
      · rw [funcFollows.ty, argLater.subst.apply_eq funcFollows.tyCarried]
      · rw [argLater.ty, ← drawn]
        rfl
      · exact .report _ _ (.pure (.ofApp _ _ _ _ drawn carried funcFollows argLater success
          unifiersRenamed))
  | letIn binder bound body boundInduction bodyInduction =>
      rw [Expr.replace, inferExpr, inferExpr]
      refine (boundInduction relates found).bind ?_
      intro afterBound leftBound _ rightBound _ leftRun rightRun extension boundFollows
      have inner := relates.letBody ((infers_of_run leftRun).confined relates.coversLeft)
        ((infers_of_run rightRun).confined relates.coversRight) extension boundFollows binder
      refine .report _ _ ?_
      refine (underBinder inner fun different => bodyInduction inner
        (closed.find?_subst (foundInsert _ different found) _)).bind ?_
      intro afterBody leftBody _ rightBody _ _ _ _ bodyFollows
      exact .pure (.ofLet binder _ _ _ _ boundFollows bodyFollows)

end Inlining

/-- What one side of a bridge runs may be replaced by something alike. -/
theorem Bridge.Simulates.trans_alike {α β γ : Type} {bridge : Bridge}
    {related : Bridge → α → β → Prop} {same : β → γ → Prop} {left : Inference α}
    {middle : Inference β} {right : Inference γ} (simulates : bridge.Simulates related left middle)
    (alike : Inference.Alike same middle right bridge.right) :
    bridge.Simulates (fun after leftValue rightValue =>
      ∃ value, related after leftValue value ∧ same value rightValue) left right := by
  refine (Inference.Lockstep.trans simulates alike).mono ?_ ?_
  · rintro _ _ _ _ ⟨value, _, ⟨perm, extension, holds⟩, rfl, isSame⟩
    exact ⟨perm, extension, value, holds, isSame⟩
  · rintro _ _ _ _ ⟨_, _, ⟨perm, extension, renamed⟩, rfl, rfl⟩
    exact ⟨perm, extension, renamed⟩

/-- A `let` with a closed value, and its body with the value written out, which runs from
what the value leaves of the supply. -/
theorem Infers.let_simulates {env : Env} {value : Expr} {supply afterValue : Supply}
    {ofValue : Typing} {events : List Event}
    (valueRun : Infers env value supply ofValue events afterValue) (covers : supply.Covers env)
    (confined : ofValue.Confined ∅ supply afterValue) (closed : value.freeVars = [])
    (name : Var) (body : Expr) :
    (Bridge.between supply afterValue).Simulates
      (fun after left right => right.ty = left.ty.rename after.perm)
      (inferExpr env (.letIn name value body)) (inferExpr env (body.replace name value)) := by
  let bodyEnv := env.insert name (env.generalize ofValue.ty)
  have valueConfined := valueRun.confined covers
  have unchanged := confined.env_subst_eq covers
  have bodyCovers : afterValue.Covers bodyEnv := by
    have covered := valueConfined.covers_insert_generalize name covers valueRun.extends
    rwa [unchanged] at covered
  have found : bodyEnv.find? name = some (env.generalize ofValue.ty) := by
    rw [Env.find?_insert, if_pos rfl]
  have inlines := inferExpr_inlines (confined.closed_generalize covers)
    (valueRun.yields covers closed) body (.refl bodyCovers bodyCovers) found
  -- The variable is not used any more, so the body may run without it.
  have dropped : Inference.Alike Typing.SameAnswer (inferExpr bodyEnv (body.replace name value))
      (inferExpr env (body.replace name value)) afterValue := by
    refine inferExpr_alike_of_agree bodyCovers (covers.later valueRun.extends) ?_
    intro var member
    rw [Env.find?_insert, if_neg]
    rintro rfl
    exact Expr.not_mem_freeVars_replace closed body member
  rw [inferExpr, ← bind_pure (inferExpr env (body.replace name value))]
  refine .step_left valueRun.run_eq valueRun.extends ?_
  refine .step_left (Inference.run_report _ _) (.refl _) ?_
  rw [valueConfined.insert_generalize, unchanged]
  refine (inlines.trans_alike dropped).bind ?_
  rintro after leftBody _ rightBody _ _ _ _ ⟨inlined, follows, same⟩
  exact .pure (same.ty ▸ follows.ty)

/-- A `let` with a closed value means the body with the value written out.  If the value can
be inferred at all, then inference of both succeeds or of both fails, and one renaming, which
fixes the free variables of the environment, turns the type of the first, or its error, into
that of the second. -/
theorem infer_let_inlines (env : Env) (first second : Supply) (name : Var) (value body : Expr)
    (closed : value.freeVars = []) (other : Env) (start : Supply) (ofValue : Typing)
    (success : ((other.infer value).run start).1.outcome = .ok ofValue) :
    ∃ perm : Renaming, (∀ free ∈ env.freeVars, perm free = free) ∧
      match ((env.infer (.letIn name value body)).run first).1.outcome,
        ((env.infer (body.replace name value)).run second).1.outcome with
      | .ok left, .ok right => right.ty = left.ty.rename perm
      | .error left, .error right => right = left.rename perm
      | _, _ => False := by
  have covers := Supply.Covers.reserve first env
  obtain ⟨_, _, infers⟩ := Env.infers_of_infer_ok success
  obtain ⟨_, _, afterValue, valueRun, confined, _⟩ :=
    infers.yields (.reserve start other) closed env _ covers
  have coversAfter := covers.later valueRun.extends
  have coversSecond := Supply.Covers.reserve second env
  -- The inlined body is compared with the `let` where the value has been run, and from there
  -- with itself on the other supply.
  have inlines := valueRun.let_simulates covers confined closed name body
  have relates := Bridge.Relates.refl coversAfter coversSecond
  have runs : Inference.Lockstep _ _
      ((inferExpr env (.letIn name value body)).run (first.reserve env.mentioned))
      ((inferExpr env (body.replace name value)).run (second.reserve env.mentioned)) :=
    inlines.trans (inferExpr_simulates _ relates)
  have fixed : ∀ {inlined moved : Bridge},
      (Bridge.between (first.reserve env.mentioned) afterValue).Extends inlined →
      (Bridge.between afterValue (second.reserve env.mentioned)).Extends moved →
      ∀ free ∈ env.freeVars, (inlined.perm.trans moved.perm) free = free := by
    intro inlined moved firstExtends secondExtends free member
    rw [Equiv.trans_apply, firstExtends.fixes (covers.free member) (coversAfter.free member),
      secondExtends.fixes (coversAfter.free member) (coversSecond.free member)]
  rw [Env.run_infer, Env.run_infer]
  generalize (inferExpr env (.letIn name value body)).run _ = leftEnd,
    (inferExpr env (body.replace name value)).run _ = rightEnd at runs ⊢
  cases runs with
  | @ok left right _ _ _ _ related =>
      obtain ⟨_, _, ⟨perm, inlined, tyEqual⟩, more, moved, renamed⟩ := related
      refine ⟨perm.trans more, fixed inlined moved, ?_⟩
      show right.ty = left.ty.rename (perm.trans more)
      rw [renamed.ty, tyEqual, Ty.rename_rename]
  | @error left right _ _ _ _ related =>
      obtain ⟨_, _, ⟨perm, inlined, errorEqual⟩, more, moved, renamed⟩ := related
      refine ⟨perm.trans more, fixed inlined moved, ?_⟩
      show right = left.rename (perm.trans more)
      rw [renamed, errorEqual, TypeError.rename_rename]

/-- The identity, applied to itself.  To infer it is to solve an equation. -/
def appliedIdentity : Expr :=
  .app (.abs "z" (.var "z")) (.abs "z" (.var "z"))

/-- A body that uses its variable at two types, for the function of `numberedEnv` and for its
argument. -/
def twoUses : Expr :=
  .app (.app (.var "x") (.var "f")) (.app (.var "x") (.lit (.int 1)))

/-- The identity draws one name. -/
theorem arrives_identity (env : Env) {supply rest : Supply} {name : TyVar}
    (drawn : supply.fresh = (name, rest)) :
    Arrives env (.abs "z" (.var "z")) supply (.arrow (.var name) (.var name)) ∅ rest := by
  have found : (env.insert "z" (.mono (.var name))).find? "z" = some (.mono (.var name)) := by
    rw [Env.find?_insert, if_pos rfl]
  have taken : (Scheme.mono (.var name)).freshInstance rest = .var name := Subst.apply_empty _
  exact .abs drawn (.var found (Prod.ext taken rfl)) (by rw [Subst.apply_empty])

/-- What `appliedIdentity` solves for with the three names that it draws. -/
def identitySubst (first second third : TyVar) : Subst :=
  (Subst.singleton third (.arrow (.var second) (.var second))).comp
    (.singleton first (.arrow (.var second) (.var second)))

theorem arrives_appliedIdentity (env : Env) {supply afterFirst afterSecond rest : Supply}
    {first second third : TyVar} (drawnFirst : supply.fresh = (first, afterFirst))
    (drawnSecond : afterFirst.fresh = (second, afterSecond))
    (drawnThird : afterSecond.fresh = (third, rest)) (distinct : [third, second, first].Nodup) :
    Arrives env appliedIdentity supply (.arrow (.var second) (.var second))
      (identitySubst first second third) rest := by
  simp only [List.nodup_cons, List.mem_cons, List.not_mem_nil, not_or, or_false] at distinct
  obtain ⟨⟨notSecond, notFirst⟩, secondNotFirst, _⟩ := distinct
  have arrives := (arrives_identity env drawnFirst).app_of_identity
    (arrives_identity (env.subst ∅) drawnSecond) drawnThird (Subst.apply_empty _) (by simp)
    ⟨by simpa using Ne.symm secondNotFirst, by simpa using notSecond⟩ notFirst
  rwa [Subst.comp_empty, Subst.comp_empty] at arrives

theorem arrives_appliedIdentity_numbered :
    Arrives numberedEnv appliedIdentity (numberedSupply 0) (.arrow (.var "t3") (.var "t3"))
      (identitySubst "t2" "t3" "t4") (numberedSupply 5) := by
  have drawnFirst : (numberedSupply 0).fresh = ("t2", numberedSupply 3) := by decide +kernel
  have drawnSecond : (numberedSupply 3).fresh = ("t3", numberedSupply 4) := by decide +kernel
  have drawnThird : (numberedSupply 4).fresh = ("t4", numberedSupply 5) := by decide +kernel
  exact arrives_appliedIdentity numberedEnv drawnFirst drawnSecond drawnThird (by decide)

/-- The environment in which `twoUses` is inferred as the body of a `let`. -/
def identityEnv : Env :=
  numberedEnv.insert "x" ⟨["t3"], .arrow (.var "t3") (.var "t3")⟩

/-- The answer for the `let`.  Its variable is used at a function type, then at `Int`. -/
theorem exists_infer_let_twoUses :
    ∃ typing,
      ((numberedEnv.infer (.letIn "x" appliedIdentity twoUses)).run {}).1.outcome = .ok typing ∧
        typing.ty = .var "t10" := by
  let funcTy : Ty := .arrow (.var "t6") (.var "t0")
  let afterFunc : Subst := .ofList [("t5", funcTy), ("t7", funcTy)]
  let afterArg : Subst := .ofList [("t8", .int), ("t9", .int)]
  have foundX : identityEnv.find? "x" = some ⟨["t3"], .arrow (.var "t3") (.var "t3")⟩ := by
    decide +kernel
  have foundF : (identityEnv.subst ∅).find? "f" =
      some ⟨["t1"], .arrow (.var "t1") (.var "t0")⟩ := by decide +kernel
  have foundAgain : (identityEnv.subst afterFunc).find? "x" =
      some ⟨["t3"], .arrow (.var "t3") (.var "t3")⟩ := by decide +kernel
  have drawnFunc : (numberedSupply 7).fresh = ("t7", numberedSupply 8) := by decide +kernel
  have drawnArg : (numberedSupply 9).fresh = ("t9", numberedSupply 10) := by decide +kernel
  have drawnLast : (numberedSupply 10).fresh = ("t10", numberedSupply 11) := by decide +kernel
  have ofX : Arrives identityEnv (.var "x") (numberedSupply 5) (.arrow (.var "t5") (.var "t5")) ∅
      (numberedSupply 6) := .var foundX (by decide +kernel)
  have ofF : Arrives (identityEnv.subst ∅) (.var "f") (numberedSupply 6) funcTy ∅
      (numberedSupply 7) := .var foundF (by decide +kernel)
  have ofFunc : Arrives _ _ _ _ afterFunc _ :=
    (ofX.app_of_identity ofF drawnFunc (Subst.apply_empty _) (by simp [funcTy]) (by decide)
      (by decide)).of_toList_eq (by decide +kernel)
  have ofXAgain : Arrives (identityEnv.subst afterFunc) (.var "x") (numberedSupply 8)
      (.arrow (.var "t8") (.var "t8")) ∅ (numberedSupply 9) := .var foundAgain (by decide +kernel)
  have ofArg : Arrives _ _ _ .int afterArg _ :=
    (ofXAgain.app_of_identity (.lit (.int 1)) drawnArg (Subst.apply_empty _) (by simp [Lit.ty])
      (by decide) (by decide)).of_toList_eq (by decide +kernel)
  have kept : afterArg.apply funcTy = funcTy := by decide +kernel
  have inBody := ofFunc.app_of_arrow ofArg drawnLast kept (by decide) (by decide)
  have arrives : Arrives numberedEnv (.letIn "x" appliedIdentity twoUses) (numberedSupply 0) _ _
      _ := .letIn arrives_appliedIdentity_numbered (by decide +kernel) inBody
  obtain ⟨typing, success, tyEqual, _⟩ := arrives.exists_infer_ok
  exact ⟨typing, success, tyEqual⟩

/-- The answer for the body with the value written out.  The value is inferred twice. -/
theorem exists_infer_inlined_twoUses :
    ∃ typing,
      ((numberedEnv.infer (twoUses.replace "x" appliedIdentity)).run {}).1.outcome = .ok typing ∧
        typing.ty = .var "t11" := by
  let funcTy : Ty := .arrow (.var "t5") (.var "t0")
  let afterArg : Subst := .ofList
    [("t7", .arrow .int .int), ("t8", .int), ("t9", .arrow .int .int), ("t10", .int)]
  have foundF : (numberedEnv.subst (identitySubst "t2" "t3" "t4")).find? "f" =
      some ⟨["t1"], .arrow (.var "t1") (.var "t0")⟩ := by decide +kernel
  have drawnFunc : (numberedSupply 6).fresh = ("t6", numberedSupply 7) := by decide +kernel
  have drawnFirst : (numberedSupply 7).fresh = ("t7", numberedSupply 8) := by decide +kernel
  have drawnSecond : (numberedSupply 8).fresh = ("t8", numberedSupply 9) := by decide +kernel
  have drawnThird : (numberedSupply 9).fresh = ("t9", numberedSupply 10) := by decide +kernel
  have drawnArg : (numberedSupply 10).fresh = ("t10", numberedSupply 11) := by decide +kernel
  have drawnLast : (numberedSupply 11).fresh = ("t11", numberedSupply 12) := by decide +kernel
  have ofF : Arrives (numberedEnv.subst (identitySubst "t2" "t3" "t4")) (.var "f")
      (numberedSupply 5) funcTy ∅ (numberedSupply 6) := .var foundF (by decide +kernel)
  have ofFunc := arrives_appliedIdentity_numbered.app_of_identity ofF drawnFunc
    (Subst.apply_empty _) (by simp [funcTy]) (by decide) (by decide)
  have again := fun env =>
    arrives_appliedIdentity env drawnFirst drawnSecond drawnThird (by decide)
  have ofArg := fun env => ((again env).app_of_identity (.lit (.int 1)) drawnArg
    (Subst.apply_empty _) (by simp [Lit.ty]) (by decide) (by decide)).of_toList_eq
      (show _ = afterArg.toList by decide +kernel)
  have kept : afterArg.apply funcTy = funcTy := by decide +kernel
  have arrives := ofFunc.app_of_arrow (ofArg _) drawnLast kept (by decide) (by decide)
  obtain ⟨typing, success, tyEqual, _⟩ := arrives.exists_infer_ok
  exact ⟨typing, success, tyEqual⟩

theorem infer_let_inlines_twoUses :
    appliedIdentity.freeVars = [] ∧ ∃ (perm : Renaming) (left right : Typing),
      perm "t0" = "t0" ∧
      ((numberedEnv.infer (.letIn "x" appliedIdentity twoUses)).run {}).1.outcome = .ok left ∧
      left.ty = .var "t10" ∧
      ((numberedEnv.infer (twoUses.replace "x" appliedIdentity)).run {}).1.outcome = .ok right ∧
      right.ty = .var "t11" ∧
      right.ty = left.ty.rename perm := by
  obtain ⟨value, valueSuccess, _⟩ := arrives_appliedIdentity_numbered.exists_infer_ok
  obtain ⟨left, leftSuccess, leftTy⟩ := exists_infer_let_twoUses
  obtain ⟨right, rightSuccess, rightTy⟩ := exists_infer_inlined_twoUses
  obtain ⟨perm, fixed, sameType⟩ := infer_let_inlines numberedEnv {} {} "x" appliedIdentity
    twoUses (by decide) numberedEnv {} value valueSuccess
  rw [leftSuccess, rightSuccess] at sameType
  exact ⟨by decide, perm, left, right, fixed "t0" (by decide), leftSuccess, leftTy, rightSuccess,
    rightTy, sameType⟩

end LetPoly
