import LetPoly.Proofs.Scope

/-!
# Soundness of inference

If inference of an expression in a well-scoped environment succeeds, the typing
relation gives the expression the inferred type in the environment as the inferred
substitution refines it.

The substitution of an application or a `let` is a composition, and its parts act
on the environment one after the other.  Each part is capture-free where it acts,
because the names it mentions are in scope there and quantified names are not; so
acting in turn is acting at once, and the typings of the earlier parts carry over.
-/

namespace LetPoly

/-- The unifier of an application captures nothing in the environment that both
sides have refined. -/
theorem Env.Ready.captureFree_unifier {env : Env} {func arg : Expr}
    {supply afterFunc afterArg : Supply} {ofFunc ofArg : Typing} {unifier : Unifier}
    {funcEvents argEvents : List Event} (ready : env.Ready supply)
    (funcRun : Infers env func supply ofFunc funcEvents afterFunc)
    (argRun : Infers (env.subst ofFunc.subst) arg afterFunc ofArg argEvents afterArg)
    (success : (unify (ofArg.subst.apply ofFunc.ty)
      (.arrow ofArg.ty (.var afterArg.fresh.1))).outcome = .ok unifier) :
    ((env.subst ofFunc.subst).subst ofArg.subst).CaptureFree unifier.subst := by
  refine Env.captureFree_of_localized (unify_relevant _ _ unifier success).1 ?_
  intro name quantifies membership
  have quantifiesBefore := Env.quantifies_subst.mp (Env.quantifies_subst.mp quantifies)
  have inScope := Typing.Confined.inScope_of_mem_problemVars funcRun.extends argRun.extends
    (ready.confined funcRun) ((ready.subst funcRun).confined argRun) membership
  exact ready.wellScoped.not_inScope ready.covers quantifiesBefore inScope

/-- What a `let` quantifies is out of scope in its body. -/
theorem Env.Ready.not_inScope_of_generalize {env : Env} {value : Expr}
    {supply afterValue rest : Supply} {ofValue : Typing} {events : List Event}
    (ready : env.Ready supply) (valueRun : Infers env value supply ofValue events afterValue)
    {name : TyVar}
    (quantified : name ∈ ((env.subst ofValue.subst).generalize ofValue.ty).vars) :
    ¬ (env.subst ofValue.subst).InScope afterValue rest name := by
  obtain ⟨inTy, notFree⟩ := Env.mem_vars_generalize.mp quantified
  rintro (free | issued)
  · exact notFree free
  · exact issued.1 (ready.covers.inScope valueRun.extends ((ready.confined valueRun).ty name inTy))

/-- The typing relation holds of every successful run. -/
theorem Infers.hasType {env : Env} {expr : Expr} {supply rest : Supply} {typing : Typing}
    {events : List Event} (infers : Infers env expr supply typing events rest)
    (ready : env.Ready supply) : HasType (env.subst typing.subst) expr typing.ty := by
  induction infers with
  | lit => exact .lit
  | @var env name scheme supply found =>
      rw [Typing.ofVar, Env.subst_empty]
      exact .var found (scheme.instance_freshInstance supply)
  | abs _ bodyInduction =>
      have bodyTyped := bodyInduction (ready.insert_fresh _)
      rw [Env.insert_subst, Scheme.mono_subst] at bodyTyped
      exact .abs bodyTyped
  | @app env func arg supply afterFunc afterArg ofFunc ofArg unifier _ _ _ funcRun argRun unified
      funcInduction argInduction =>
      have success := congrArg Traced.outcome unified
      have readyArg := ready.subst funcRun
      have captureFree₁ := ready.captureFree funcRun
      have captureFree₂ := readyArg.captureFree argRun
      have captureFree₃ := ready.captureFree_unifier funcRun argRun success
      have funcTyped := ((funcInduction ready).subst captureFree₂).subst captureFree₃
      have argTyped := (argInduction readyArg).subst captureFree₃
      rw [(mostGeneral_of_unify success).unifies, Subst.apply_arrow] at funcTyped
      rw [Typing.ofApp, ← (captureFree₁.comp captureFree₂).subst_subst,
        ← captureFree₁.subst_subst]
      exact .app funcTyped argTyped
  | @letIn env name value body supply afterValue rest ofValue inBody _ _ valueRun bodyRun
      valueInduction bodyInduction =>
      rw [(ready.confined valueRun).insert_generalize] at bodyRun bodyInduction
      have readyRefined := ready.subst valueRun
      have readyBody := ready.insert_generalize valueRun name
      have bodyLocalized : inBody.subst.Localized
          ((env.subst ofValue.subst).InScope afterValue rest) :=
        (readyBody.confined bodyRun).subst.mono fun _ inScope => inScope.of_insert_generalize
      have captureFree₁ := ready.captureFree valueRun
      have captureFree₂ := readyRefined.wellScoped.captureFree readyRefined.covers bodyLocalized
      have valueTyped := (valueInduction ready).subst captureFree₂
      have bodyTyped := bodyInduction readyBody
      -- Refining the generalized scheme is generalizing the refined type.
      rw [Env.insert_subst, Env.generalize_subst captureFree₂ bodyLocalized
        fun _ quantified => ready.not_inScope_of_generalize valueRun quantified] at bodyTyped
      rw [Typing.ofLet, ← captureFree₁.subst_subst]
      exact .letIn valueTyped bodyTyped

end LetPoly
