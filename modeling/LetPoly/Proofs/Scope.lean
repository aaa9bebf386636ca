import LetPoly.Proofs.Runs

/-!
# The scope of a run

A run is given an environment and a supply that has spent every name written in
it (`Supply.Covers`).  All it can talk about is then the free variables of the
environment and the names it draws itself (`Env.InScope`).  `Infers.confined` is
the invariant that every other result about runs rests on: the type, the keys
and the values of the substitution are in scope, and no key is left anywhere in
the answer.

The names that an environment quantifies are spent but not free, so they are
never in scope.  That is why substitutions that come out of a run capture
nothing, although none of them renames a quantified variable, and why every
environment of a run stays well-scoped.  `Env.Ready` holds of an environment and the
supply at hand, and each rule of inference passes it on to its parts.
-/

namespace LetPoly

/-- Every name that an environment mentions is spent. -/
def Supply.Covers (supply : Supply) (env : Env) : Prop :=
  ∀ name ∈ env.mentioned, supply.Spent name

/-- The names that a run in an environment may use: the free ones, and those issued
between its two supplies. -/
def Env.InScope (env : Env) (before after : Supply) (name : TyVar) : Prop :=
  name ∈ env.freeVars ∨ before.Issued after name

/-- An answer stays in scope and is fully resolved. -/
structure Typing.Confined (typing : Typing) (env : Env) (before after : Supply) : Prop where
  ty : ∀ name ∈ typing.ty.vars, env.InScope before after name
  subst : typing.subst.Localized (env.InScope before after)
  resolved : typing.subst.Resolved
  settled : ∀ name ∈ typing.ty.vars, ¬ typing.subst.Binds name

/-! ## Coverage -/

namespace Supply.Covers

variable {before after : Supply} {env : Env}

theorem later (covers : before.Covers env) (extension : before.Extends after) :
    after.Covers env :=
  fun name member => extension.spent (covers name member)

theorem free (covers : before.Covers env) {name : TyVar} (member : name ∈ env.freeVars) :
    before.Spent name :=
  covers name (Env.mem_mentioned_of_mem_freeVars member)

theorem quantified (covers : before.Covers env) {name : TyVar}
    (quantifies : env.Quantifies name) : before.Spent name :=
  covers name (Env.mem_mentioned_of_quantifies quantifies)

theorem inScope (covers : before.Covers env) (extension : before.Extends after)
    {name : TyVar} (inScope : env.InScope before after name) : after.Spent name := by
  rcases inScope with free | issued
  · exact extension.spent (covers.free free)
  · exact issued.2

theorem empty (supply : Supply) : supply.Covers ∅ := by
  intro name member
  obtain ⟨var, scheme, found, _⟩ := Env.mem_mentioned.mp member
  simp at found

theorem reserve (supply : Supply) (env : Env) : (supply.reserve env.mentioned).Covers env :=
  fun _ member => Supply.spent_reserve member

theorem insert (covers : before.Covers env) {var : Var} {scheme : Scheme}
    (spent : ∀ name ∈ scheme.mentioned, before.Spent name) :
    before.Covers (env.insert var scheme) := by
  intro name member
  rcases Env.mem_mentioned_insert member with inScheme | inEnv
  · exact spent name inScheme
  · exact covers name inEnv

/-- The environment that a parameter of fresh type is put into. -/
theorem insert_fresh (covers : before.Covers env) (param : Var) :
    before.fresh.2.Covers (env.insert param (.mono (.var before.fresh.1))) := by
  refine (covers.later before.fresh_extends).insert fun name member => ?_
  rw [Scheme.mem_mentioned, Scheme.mono, Ty.mem_vars_var] at member
  rcases member with rfl | inVars
  · exact before.fresh_issued.2
  · cases inVars

/-- A substitution that is in scope keeps the environment covered. -/
theorem subst (covers : before.Covers env) (extension : before.Extends after)
    {subst : Subst} (localized : subst.Localized (env.InScope before after)) :
    after.Covers (env.subst subst) := by
  intro name member
  rcases Env.mem_mentioned_subst member with old | ⟨source, sourceFree, inImage⟩
  · exact extension.spent (covers name old)
  · rcases localized.eq_or inImage with rfl | inScope
    · exact extension.spent (covers.free sourceFree)
    · exact covers.inScope extension inScope

end Supply.Covers

/-! ## Moving between scopes -/

namespace Env.InScope

variable {env : Env} {before middle after : Supply} {name : TyVar}

theorem later (inScope : env.InScope before middle name) (extension : middle.Extends after) :
    env.InScope before after name :=
  inScope.imp_right fun issued => issued.later extension

theorem issued_of_empty (inScope : (∅ : Env).InScope before after name) :
    before.Issued after name := by
  rcases inScope with free | issued
  · obtain ⟨var, scheme, found, _⟩ := Env.mem_freeVars.mp free
    simp at found
  · exact issued

theorem of_fresh {param : Var}
    (inScope : (env.insert param (.mono (.var before.fresh.1))).InScope before.fresh.2 after name)
    (extension : before.fresh.2.Extends after) : env.InScope before after name := by
  rcases inScope with free | issued
  · rcases Env.mem_freeVars_insert free with isParam | inEnv
    · rw [Scheme.mem_freeVars_mono, Ty.mem_vars_var] at isParam
      exact .inr (isParam ▸ before.fresh_issued.later extension)
    · exact .inl inEnv
  · exact .inr (issued.earlier before.fresh_extends)

/-- The scope of a second run, in the environment that a first one leaves, is part
of the scope of both together. -/
theorem of_subst {subst : Subst} (localized : subst.Localized (env.InScope before middle))
    (first : before.Extends middle) (second : middle.Extends after)
    (inScope : (env.subst subst).InScope middle after name) :
    env.InScope before after name := by
  rcases inScope with free | issued
  · obtain ⟨source, sourceFree, inImage⟩ := Env.source_of_mem_freeVars_subst free
    rcases localized.eq_or inImage with rfl | inScope
    · exact .inl sourceFree
    · exact inScope.later second
  · exact .inr (issued.earlier first)

/-- Binding the generalized type of a value brings no name into scope. -/
theorem of_insert_generalize {var : Var} {ty : Ty}
    (inScope : (env.insert var (env.generalize ty)).InScope before after name) :
    env.InScope before after name := by
  rcases inScope with free | issued
  · rcases Env.mem_freeVars_insert free with inScheme | inEnv
    · exact .inl (Env.mem_freeVars_generalize.mp inScheme).2
    · exact .inl inEnv
  · exact .inr issued

end Env.InScope

/-- A key of the first substitution is out of scope in every later run. -/
theorem Typing.Confined.not_inScope {typing : Typing} {env : Env} {before middle after : Supply}
    (confined : typing.Confined env before middle) (covers : before.Covers env)
    (extension : before.Extends middle) {key : TyVar} (bound : typing.subst.Binds key) :
    ¬ (env.subst typing.subst).InScope middle after key := by
  rintro (free | issued)
  · obtain ⟨source, _, inImage⟩ := Env.source_of_mem_freeVars_subst free
    exact confined.resolved key bound (.var source) inImage
  · exact issued.1 (covers.inScope extension (confined.subst.keys bound))

/-- The scheme of a `let` is not changed by the substitution of its value, so that
the body is inferred in the refined environment with the scheme put in. -/
theorem Typing.Confined.insert_generalize {typing : Typing} {env : Env} {before after : Supply}
    (confined : typing.Confined env before after) (name : Var) :
    (env.insert name ((env.subst typing.subst).generalize typing.ty)).subst typing.subst =
      (env.subst typing.subst).insert name
        ((env.subst typing.subst).generalize typing.ty) := by
  rw [Env.insert_subst, Scheme.subst_eq_self]
  intro free member
  exact confined.settled free (Env.mem_freeVars_generalize.mp member).1

/-! ## The invariant, rule by rule -/

theorem Infers.extends {env : Env} {expr : Expr} {supply rest : Supply} {typing : Typing}
    {events : List Event} (infers : Infers env expr supply typing events rest) :
    supply.Extends rest := by
  induction infers with
  | lit => exact .refl _
  | var found => exact Scheme.freshSubst_extends _ _
  | abs _ bodyInduction => exact (Supply.fresh_extends _).trans bodyInduction
  | app _ _ _ funcInduction argInduction =>
      exact (funcInduction.trans argInduction).trans (Supply.fresh_extends _)
  | letIn _ _ valueInduction bodyInduction => exact valueInduction.trans bodyInduction

namespace Typing.Confined

theorem ofLit (env : Env) (value : Lit) (supply : Supply) :
    (Typing.ofLit env value).Confined env supply supply where
  ty := by
    intro name member
    cases value with
    | int => exact absurd member Ty.not_mem_vars_int
    | bool => exact absurd member Ty.not_mem_vars_bool
  subst := .empty _
  resolved := .empty
  settled := fun _ _ => Subst.not_binds_empty

theorem ofVar {env : Env} {name : Var} {scheme : Scheme} (supply : Supply)
    (found : env.find? name = some scheme) :
    (Typing.ofVar env name (scheme.freshInstance supply)).Confined env supply
      (scheme.freshSubst supply).2 where
  ty := by
    intro var member
    rcases Scheme.mem_vars_freshInstance member with free | issued
    · exact .inl (Env.mem_freeVars.mpr ⟨name, scheme, found, free⟩)
    · exact .inr issued
  subst := .empty _
  resolved := .empty
  settled := fun _ _ => Subst.not_binds_empty

theorem ofAbs {env : Env} {supply rest : Supply} {inBody : Typing} (param : Var) (body : Expr)
    (extension : supply.fresh.2.Extends rest)
    (confined : inBody.Confined (env.insert param (.mono (.var supply.fresh.1)))
      supply.fresh.2 rest) :
    (Typing.ofAbs env param body (.var supply.fresh.1) inBody).Confined env supply rest := by
  have localized : inBody.subst.Localized (env.InScope supply rest) :=
    confined.subst.mono fun name inScope => inScope.of_fresh extension
  have paramInScope : ∀ name ∈ (Ty.var supply.fresh.1).vars, env.InScope supply rest name := by
    intro name member
    rw [Ty.mem_vars_var] at member
    exact .inr (member ▸ supply.fresh_issued.later extension)
  refine ⟨?_, localized, confined.resolved, ?_⟩
  · intro name member
    rcases Ty.mem_vars_arrow.mp member with inDomain | inCodomain
    · exact localized.mem_of_forall paramInScope name inDomain
    · exact (confined.ty name inCodomain).of_fresh extension
  · intro name member
    rcases Ty.mem_vars_arrow.mp member with inDomain | inCodomain
    · exact confined.resolved.not_binds inDomain
    · exact confined.settled name inCodomain

section Application

variable {env : Env} {supply afterFunc afterArg : Supply} {ofFunc ofArg : Typing}
  (covers : supply.Covers env)
  (first : supply.Extends afterFunc) (second : afterFunc.Extends afterArg)
  (funcConfined : ofFunc.Confined env supply afterFunc)
  (argConfined : ofArg.Confined (env.subst ofFunc.subst) afterFunc afterArg)

include covers first second funcConfined argConfined

omit second in
/-- The substitutions of both sides leave no key of either. -/
theorem comp_resolved : (ofArg.subst.comp ofFunc.subst).Resolved :=
  .comp argConfined.resolved funcConfined.resolved argConfined.subst
    fun _ bound => funcConfined.not_inScope covers first bound

omit covers in
theorem comp_localized : (ofArg.subst.comp ofFunc.subst).Localized (env.InScope supply afterArg) :=
  .comp (argConfined.subst.mono fun _ inScope => inScope.of_subst funcConfined.subst first second)
    (funcConfined.subst.mono fun _ inScope => inScope.later second)

/-- The keys of both sides are spent. -/
theorem spent_of_binds_comp {key : TyVar} (bound : (ofArg.subst.comp ofFunc.subst).Binds key) :
    afterArg.Spent key :=
  covers.inScope (first.trans second)
    ((comp_localized first second funcConfined argConfined).keys bound)

/-- No key of either side occurs in the equation between them. -/
theorem not_mem_problemVars {key : TyVar}
    (bound : (ofArg.subst.comp ofFunc.subst).Binds key) :
    key ∉ problemVars (ofArg.subst.apply ofFunc.ty)
      (.arrow ofArg.ty (.var afterArg.fresh.1)) := by
  intro membership
  rcases mem_problemVars.mp membership with inFunc | inExpected
  · rcases Subst.binds_comp.mp bound with argBound | funcBound
    · exact argConfined.resolved key argBound ofFunc.ty inFunc
    · rcases argConfined.subst.mem_or inFunc with inTy | inScope
      · exact funcConfined.settled key inTy funcBound
      · exact funcConfined.not_inScope covers first funcBound inScope
  · rcases Ty.mem_vars_arrow.mp inExpected with inArg | isResult
    · rcases Subst.binds_comp.mp bound with argBound | funcBound
      · exact argConfined.settled key inArg argBound
      · exact funcConfined.not_inScope covers first funcBound (argConfined.ty key inArg)
    · rw [Ty.mem_vars_var] at isResult
      exact afterArg.fresh_not_spent (isResult ▸
        spent_of_binds_comp covers first second funcConfined argConfined bound)

omit covers in
/-- The equation between both sides is in scope. -/
theorem inScope_of_mem_problemVars {name : TyVar}
    (membership : name ∈ problemVars (ofArg.subst.apply ofFunc.ty)
      (.arrow ofArg.ty (.var afterArg.fresh.1))) :
    env.InScope supply afterArg.fresh.2 name := by
  have widen : ∀ {other}, (env.subst ofFunc.subst).InScope afterFunc afterArg other →
      env.InScope supply afterArg.fresh.2 other :=
    fun inScope => (inScope.of_subst funcConfined.subst first second).later
      afterArg.fresh_extends
  rcases mem_problemVars.mp membership with inFunc | inExpected
  · rcases argConfined.subst.mem_or inFunc with inTy | inScope
    · exact ((funcConfined.ty name inTy).later second).later afterArg.fresh_extends
    · exact widen inScope
  · rcases Ty.mem_vars_arrow.mp inExpected with inArg | isResult
    · exact widen (argConfined.ty name inArg)
    · rw [Ty.mem_vars_var] at isResult
      exact .inr (isResult ▸ afterArg.fresh_issued.earlier (first.trans second))

theorem ofApp {unifier : Unifier} (func arg : Expr)
    (success : (unify (ofArg.subst.apply ofFunc.ty)
      (.arrow ofArg.ty (.var afterArg.fresh.1))).outcome = .ok unifier) :
    (Typing.ofApp env func arg (.var afterArg.fresh.1) ofFunc ofArg unifier).Confined env supply
      afterArg.fresh.2 := by
  obtain ⟨unifierLocalized, unifierResolved⟩ := unify_relevant _ _ unifier success
  have localized : unifier.subst.Localized (env.InScope supply afterArg.fresh.2) :=
    unifierLocalized.mono fun _ =>
      inScope_of_mem_problemVars first second funcConfined argConfined
  have sidesLocalized := (comp_localized first second funcConfined argConfined).mono
    fun _ inScope => inScope.later afterArg.fresh_extends
  have resolved : (unifier.subst.comp (ofArg.subst.comp ofFunc.subst)).Resolved :=
    .comp unifierResolved (comp_resolved covers first funcConfined argConfined)
      unifierLocalized
      fun _ bound => not_mem_problemVars covers first second funcConfined argConfined bound
  refine ⟨?_, localized.comp sidesLocalized, resolved, ?_⟩
  · refine localized.mem_of_forall fun name member => ?_
    rw [Ty.mem_vars_var] at member
    exact .inr (member ▸ afterArg.fresh_issued.earlier (first.trans second))
  · intro name member
    -- The result type is the image of a variable that only the unifier knows.
    have unbound : ¬ (ofArg.subst.comp ofFunc.subst).Binds afterArg.fresh.1 := fun bound =>
      afterArg.fresh_not_spent
        (spent_of_binds_comp covers first second funcConfined argConfined bound)
    have image : unifier.subst.apply (.var afterArg.fresh.1) =
        (unifier.subst.comp (ofArg.subst.comp ofFunc.subst)).apply (.var afterArg.fresh.1) := by
      rw [Subst.apply_comp, Subst.apply_var_of_not_binds unbound]
    rw [Typing.ofApp, image] at member
    exact resolved.not_binds member

end Application

theorem ofLet {env : Env} {supply afterValue rest : Supply} {ofValue inBody : Typing}
    (name : Var) (value body : Expr) (covers : supply.Covers env)
    (first : supply.Extends afterValue) (second : afterValue.Extends rest)
    (valueConfined : ofValue.Confined env supply afterValue)
    (bodyConfined : inBody.Confined
      ((env.subst ofValue.subst).insert name
        ((env.subst ofValue.subst).generalize ofValue.ty)) afterValue rest) :
    (Typing.ofLet env name value body ofValue inBody).Confined env supply rest := by
  have bodyLocalized : inBody.subst.Localized
      ((env.subst ofValue.subst).InScope afterValue rest) :=
    bodyConfined.subst.mono fun _ inScope => inScope.of_insert_generalize
  have widen : ∀ {other}, (env.subst ofValue.subst).InScope afterValue rest other →
      env.InScope supply rest other :=
    fun inScope => inScope.of_subst valueConfined.subst first second
  refine ⟨?_, .comp ?_ ?_, .comp bodyConfined.resolved valueConfined.resolved bodyLocalized ?_, ?_⟩
  · exact fun other member => widen (bodyConfined.ty other member).of_insert_generalize
  · exact bodyLocalized.mono fun _ => widen
  · exact valueConfined.subst.mono fun _ inScope => inScope.later second
  · exact fun key bound => valueConfined.not_inScope covers first bound
  · intro other member bound
    rcases Subst.binds_comp.mp bound with bodyBound | valueBound
    · exact bodyConfined.settled other member bodyBound
    · exact valueConfined.not_inScope covers first valueBound
        (bodyConfined.ty other member).of_insert_generalize

/-- The environment in which the body of a `let` is inferred is covered. -/
theorem covers_insert_generalize {env : Env} {supply afterValue : Supply} {ofValue : Typing}
    (name : Var) (covers : supply.Covers env) (first : supply.Extends afterValue)
    (valueConfined : ofValue.Confined env supply afterValue) :
    afterValue.Covers ((env.subst ofValue.subst).insert name
      ((env.subst ofValue.subst).generalize ofValue.ty)) := by
  refine (covers.subst first valueConfined.subst).insert fun other member => ?_
  have inTy : other ∈ ofValue.ty.vars := by
    rcases Scheme.mem_mentioned.mp member with inTy | inVars
    · exact inTy
    · exact (Env.mem_vars_generalize.mp inVars).1
  exact covers.inScope first (valueConfined.ty other inTy)

end Typing.Confined

/-- The answer of a run in a covered environment stays in scope and is resolved. -/
theorem Infers.confined {env : Env} {expr : Expr} {supply rest : Supply} {typing : Typing}
    {events : List Event} (infers : Infers env expr supply typing events rest)
    (covers : supply.Covers env) : typing.Confined env supply rest := by
  induction infers with
  | lit => exact .ofLit _ _ _
  | var found => exact .ofVar _ found
  | abs body bodyInduction =>
      exact .ofAbs _ _ body.extends (bodyInduction (covers.insert_fresh _))
  | app func arg unified funcInduction argInduction =>
      have funcConfined := funcInduction covers
      have argConfined := argInduction (covers.subst func.extends funcConfined.subst)
      exact .ofApp covers func.extends arg.extends funcConfined argConfined _ _
        (congrArg Traced.outcome unified)
  | letIn value body valueInduction bodyInduction =>
      have valueConfined := valueInduction covers
      rw [valueConfined.insert_generalize] at bodyInduction
      exact .ofLet _ _ _ covers value.extends body.extends valueConfined
        (bodyInduction (valueConfined.covers_insert_generalize _ covers value.extends))

/-! ## Well-scoped environments -/

namespace Env.WellScoped

variable {env : Env} {before after : Supply}

/-- What a well-scoped environment quantifies is out of scope. -/
theorem not_inScope (wellScoped : env.WellScoped) (covers : before.Covers env) {name : TyVar}
    (quantifies : env.Quantifies name) : ¬ env.InScope before after name := by
  rintro (free | issued)
  · exact wellScoped_iff.mp wellScoped name quantifies free
  · exact issued.1 (covers.quantified quantifies)

theorem captureFree (wellScoped : env.WellScoped) (covers : before.Covers env)
    {subst : Subst} (localized : subst.Localized (env.InScope before after)) :
    env.CaptureFree subst :=
  captureFree_of_localized localized fun _ quantifies =>
    wellScoped.not_inScope covers quantifies

theorem subst (wellScoped : env.WellScoped) (covers : before.Covers env)
    {subst : Subst} (localized : subst.Localized (env.InScope before after)) :
    (env.subst subst).WellScoped := by
  refine wellScoped_iff.mpr fun name quantifies free => ?_
  have quantifiesBefore := quantifies_subst.mp quantifies
  obtain ⟨source, sourceFree, inImage⟩ := source_of_mem_freeVars_subst free
  rcases localized.eq_or inImage with rfl | inScope
  · exact wellScoped_iff.mp wellScoped _ quantifiesBefore sourceFree
  · exact wellScoped.not_inScope covers quantifiesBefore inScope

theorem insert_fresh (wellScoped : env.WellScoped) (covers : before.Covers env) (param : Var) :
    (env.insert param (.mono (.var before.fresh.1))).WellScoped := by
  intro var scheme found name quantified free
  rw [find?_insert] at found
  split at found
  · cases found
    cases quantified
  · have quantifies : env.Quantifies name := ⟨var, scheme, found, quantified⟩
    rcases mem_freeVars_insert free with isParam | inEnv
    · rw [Scheme.mem_freeVars_mono, Ty.mem_vars_var] at isParam
      exact before.fresh_not_spent (isParam ▸ covers.quantified quantifies)
    · exact wellScoped_iff.mp wellScoped name quantifies inEnv

theorem insert_generalize (wellScoped : env.WellScoped) (var : Var) (ty : Ty) :
    (env.insert var (env.generalize ty)).WellScoped := by
  intro other scheme found name quantified free
  have inEnv : name ∈ env.freeVars := by
    rcases mem_freeVars_insert free with inScheme | inEnv
    · exact (mem_freeVars_generalize.mp inScheme).2
    · exact inEnv
  rw [find?_insert] at found
  split at found
  · cases found
    exact (mem_vars_generalize.mp quantified).2 inEnv
  · exact wellScoped other scheme found name quantified inEnv

end Env.WellScoped

/-- Inference may start in an environment: it is well-scoped, and the supply has spent
every name in it. -/
structure Env.Ready (env : Env) (supply : Supply) : Prop where
  wellScoped : env.WellScoped
  covers : supply.Covers env

namespace Env.Ready

variable {env : Env} {expr : Expr} {supply rest : Supply} {typing : Typing} {events : List Event}

theorem reserve (wellScoped : env.WellScoped) (supply : Supply) :
    env.Ready (supply.reserve env.mentioned) :=
  ⟨wellScoped, .reserve supply env⟩

theorem insert_fresh (ready : env.Ready supply) (param : Var) :
    (env.insert param (.mono (.var supply.fresh.1))).Ready supply.fresh.2 :=
  ⟨ready.wellScoped.insert_fresh ready.covers param, ready.covers.insert_fresh param⟩

theorem confined (ready : env.Ready supply) (run : Infers env expr supply typing events rest) :
    typing.Confined env supply rest :=
  run.confined ready.covers

theorem captureFree (ready : env.Ready supply)
    (run : Infers env expr supply typing events rest) : env.CaptureFree typing.subst :=
  ready.wellScoped.captureFree ready.covers (ready.confined run).subst

/-- A run leaves the environment ready for the next one. -/
theorem subst (ready : env.Ready supply) (run : Infers env expr supply typing events rest) :
    (env.subst typing.subst).Ready rest :=
  have localized := (ready.confined run).subst
  ⟨ready.wellScoped.subst ready.covers localized, ready.covers.subst run.extends localized⟩

/-- The body of a `let` is inferred in an environment that is ready. -/
theorem insert_generalize (ready : env.Ready supply)
    (run : Infers env expr supply typing events rest) (name : Var) :
    ((env.subst typing.subst).insert name
      ((env.subst typing.subst).generalize typing.ty)).Ready rest :=
  ⟨(ready.subst run).wellScoped.insert_generalize name typing.ty,
    (ready.confined run).covers_insert_generalize name ready.covers run.extends⟩

end Env.Ready

/-! ## An environment with the names of a supply -/

/-- The variables of this environment are spelled as those that a supply draws: `t0`
is free in it and `t1` is quantified. -/
def numberedEnv : Env :=
  .ofList [("f", ⟨["t1"], .arrow (.var "t1") (.var "t0")⟩)]

/-- Applied to two arguments, the bound function turns the free variable of
`numberedEnv` into a function type. -/
def curriedLet : Expr :=
  .letIn "g" (.var "f") (.app (.app (.var "g") (.lit (.bool true))) (.lit (.int 1)))

theorem numberedEnv_wellScoped : numberedEnv.WellScoped := by
  decide

theorem eq_of_mem_freeVars_numberedEnv {name : TyVar} (free : name ∈ numberedEnv.freeVars) :
    name = "t0" := by
  have listed : numberedEnv.freeVars.toList = ["t0"] := by decide
  rw [← Std.ExtTreeSet.mem_toList, listed] at free
  exact List.mem_singleton.mp free

theorem eq_of_numberedEnv_quantifies {name : TyVar} (quantifies : numberedEnv.Quantifies name) :
    name = "t1" := by
  obtain ⟨var, scheme, found, quantified⟩ := quantifies
  have listed : numberedEnv.toList = [("f", ⟨["t1"], .arrow (.var "t1") (.var "t0")⟩)] := by
    decide
  rw [← Env.mem_toList, listed, List.mem_singleton] at found
  cases found
  exact List.mem_singleton.mp quantified

/-- The supply with which `numberedEnv` is entered, once it is at a given number. -/
def numberedSupply (next : Nat) : Supply :=
  { Supply.reserve {} numberedEnv.mentioned with next }

/-- The environment in which the body of `curriedLet` is inferred. -/
def curriedEnv : Env :=
  numberedEnv.insert "g" ⟨["t2"], .arrow (.var "t2") (.var "t0")⟩

theorem arrives_curriedLet_value :
    Arrives numberedEnv (.var "f") (numberedSupply 0) (.arrow (.var "t2") (.var "t0")) ∅
      (numberedSupply 3) := by
  have found : numberedEnv.find? "f" = some ⟨["t1"], .arrow (.var "t1") (.var "t0")⟩ := by
    decide +kernel
  exact .var found (by decide +kernel)

theorem arrives_curriedLet_func :
    Arrives curriedEnv (.var "g") (numberedSupply 3) (.arrow (.var "t3") (.var "t0")) ∅
      (numberedSupply 4) := by
  have found : curriedEnv.find? "g" = some ⟨["t2"], .arrow (.var "t2") (.var "t0")⟩ := by
    decide +kernel
  exact .var found (by decide +kernel)

/-- The first application solves for the free variable of `numberedEnv`. -/
theorem arrives_curriedLet_first :
    Arrives curriedEnv (.app (.var "g") (.lit (.bool true))) (numberedSupply 3) (.var "t4")
      (.ofList [("t0", .var "t4"), ("t3", .bool)]) (numberedSupply 5) := by
  have drawn : (numberedSupply 4).fresh = ("t4", numberedSupply 5) := by decide +kernel
  have arrives := arrives_curriedLet_func.app_of_arrow (.lit (.bool true)) drawn
    (Subst.apply_empty _) (by decide) (by decide)
  exact arrives.of_toList_eq (by decide +kernel)

/-- The answer for `curriedLet`. -/
theorem exists_infer_curriedLet :
    ∃ typing, ((numberedEnv.infer curriedLet).run {}).1.outcome = .ok typing ∧
      typing.ty = .var "t5" ∧
      typing.subst = .ofList
        [("t0", .arrow .int (.var "t5")), ("t3", .bool), ("t4", .arrow .int (.var "t5"))] := by
  have drawn : (numberedSupply 5).fresh = ("t5", numberedSupply 6) := by decide +kernel
  have inBody := arrives_curriedLet_first.app_of_var (.lit (.int 1)) drawn
    (Subst.apply_empty _) (by decide)
  have arrives : Arrives numberedEnv curriedLet (numberedSupply 0) _ _ _ :=
    .letIn arrives_curriedLet_value (by decide +kernel) inBody
  exact (arrives.of_toList_eq (by decide +kernel)).exists_infer_ok

end LetPoly
