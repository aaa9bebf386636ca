import LetPoly.Proofs.Answers

/-!
# Bind events

Unification reports each variable that it binds.  The substitution of a run is put
together by compositions that are nested as the types and the expression are, while the
events come in one flat list.  `Subst.inTurn` composes the bindings of a list one after
the other, and composition is associative on the nose, so all nestings come to the same
(`inTurn_append`).

A variable that is bound once is never bound again.  The keys of a substitution are gone
from every type and every environment that comes after it, and what is bound later occurs
there.  So the bindings have as many keys as there are events (`Subst.Accounted`).
-/

namespace LetPoly

/-! ## Bindings of a list of events -/

/-- The binding that an event reports, if it reports one. -/
def Event.binding? : Event → Option (TyVar × Ty)
  | bound name ty => some (name, ty)
  | _ => none

/-- The bindings that are reported in a list of events, in order. -/
def bindingsOf (events : List Event) : List (TyVar × Ty) :=
  events.filterMap Event.binding?

theorem bindingsOf_append (events more : List Event) :
    bindingsOf (events ++ more) = bindingsOf events ++ bindingsOf more :=
  List.filterMap_append

/-- Typing rules make no binding of their own. -/
theorem bindingsOf_append_typed (events : List Event) (rule : Rule) (expr : Expr) (ty : Ty) :
    bindingsOf (events ++ [.typed rule expr ty]) = bindingsOf events :=
  (bindingsOf_append events _).trans (List.append_nil _)

theorem bindingsOf_instantiationEvents (scheme : Scheme) (supply : Supply) :
    bindingsOf (scheme.instantiationEvents supply) = [] := by
  unfold Scheme.instantiationEvents
  split <;> rfl

namespace Subst

/-- Make bindings one after the other, each composed after those before it. -/
def inTurn (bindings : List (TyVar × Ty)) : Subst :=
  bindings.foldl (fun before binding => (singleton binding.1 binding.2).comp before) ∅

theorem inTurn_nil : inTurn [] = ∅ := rfl

theorem inTurn_append (bindings more : List (TyVar × Ty)) :
    inTurn (bindings ++ more) = (inTurn more).comp (inTurn bindings) := by
  have after : ∀ (more : List (TyVar × Ty)) (before : Subst),
      more.foldl (fun before binding => (singleton binding.1 binding.2).comp before) before =
        (inTurn more).comp before := by
    intro more
    induction more with
    | nil => exact fun before => (empty_comp before).symm
    | cons binding more induction =>
        intro before
        rw [inTurn, List.foldl_cons, List.foldl_cons, induction, induction, comp_empty, comp_assoc]
  rw [inTurn, List.foldl_append, after]
  rfl

theorem inTurn_singleton (name : TyVar) (ty : Ty) : inTurn [(name, ty)] = singleton name ty :=
  comp_empty _

theorem binds_inTurn {bindings : List (TyVar × Ty)} {name : TyVar} :
    (inTurn bindings).Binds name ↔ name ∈ bindings.map Prod.fst := by
  induction bindings with
  | nil => simpa [inTurn_nil] using not_binds_empty
  | cons binding more induction =>
      rw [← List.singleton_append, inTurn_append, binds_comp, induction, inTurn_singleton,
        binds_singleton, List.map_append, List.mem_append, List.map_singleton,
        List.mem_singleton]
      exact or_comm

/-- A substitution has as many entries as there are keys. -/
theorem size_eq_length {subst : Subst} {keys : List TyVar} (distinct : keys.Nodup)
    (listed : ∀ name, subst.Binds name ↔ name ∈ keys) : subst.size = keys.length := by
  have sameKeys : subst.map.keys.Perm keys := by
    refine (List.perm_ext_iff_of_nodup Std.ExtTreeMap.nodup_keys distinct).mpr fun name => ?_
    rw [Std.ExtTreeMap.mem_keys, Std.ExtTreeMap.mem_iff_isSome_getElem?, ← listed,
      Option.isSome_iff_exists]
    rfl
  rw [size, ← Std.ExtTreeMap.length_keys, sameKeys.length_eq]

/-! ## Substitutions accounted for by bindings -/

/-- A substitution comes from making bindings of different variables in turn. -/
structure Accounted (subst : Subst) (bindings : List (TyVar × Ty)) : Prop where
  composed : subst = inTurn bindings
  distinct : (bindings.map Prod.fst).Nodup

namespace Accounted

theorem empty : Accounted ∅ [] :=
  ⟨rfl, .nil⟩

theorem singleton (name : TyVar) (ty : Ty) : (singleton name ty).Accounted [(name, ty)] :=
  ⟨(inTurn_singleton name ty).symm, by simp⟩

theorem binds_iff {subst : Subst} {bindings : List (TyVar × Ty)}
    (accounted : subst.Accounted bindings) {name : TyVar} :
    subst.Binds name ↔ name ∈ bindings.map Prod.fst := by
  rw [accounted.composed]
  exact binds_inTurn

theorem size_eq {subst : Subst} {bindings : List (TyVar × Ty)}
    (accounted : subst.Accounted bindings) : subst.size = bindings.length := by
  rw [size_eq_length accounted.distinct fun _ => accounted.binds_iff, List.length_map]

/-- Bindings made later, of variables that were not bound before, go to the end. -/
theorem comp {outer inner : Subst} {bindings more : List (TyVar × Ty)}
    (innerAccounted : inner.Accounted bindings) (outerAccounted : outer.Accounted more)
    (separate : ∀ key, inner.Binds key → ¬ outer.Binds key) :
    (outer.comp inner).Accounted (bindings ++ more) where
  composed := by
    rw [inTurn_append, ← innerAccounted.composed, ← outerAccounted.composed]
  distinct := by
    rw [List.map_append]
    refine List.nodup_append.mpr
      ⟨innerAccounted.distinct, outerAccounted.distinct, fun key inFirst other inSecond same => ?_⟩
    subst other
    exact separate key (innerAccounted.binds_iff.mpr inFirst)
      (outerAccounted.binds_iff.mpr inSecond)

end Accounted

end Subst

/-! ## Unification -/

/-- The events of a run that succeeds account for its substitution. -/
def Traced.Accounted (run : Traced Unifier) : Prop :=
  ∀ unifier, run.outcome = .ok unifier → unifier.subst.Accounted (bindingsOf run.events)

theorem Solves.accounted {left right : Ty} {unifier : Unifier} {events : List Event}
    (solves : Solves left right unifier events) :
    unifier.subst.Accounted (bindingsOf events) := by
  induction solves with
  | int => exact .empty
  | bool => exact .empty
  | same => exact .empty
  | @bindLeft name right _ => exact .singleton name right
  | @bindRight left name _ _ => exact .singleton name left
  | @arrow leftDomain leftCodomain rightDomain rightCodomain domains codomains events moreEvents
      domainsSolves codomainsSolves domainsInduction codomainsInduction =>
      obtain ⟨_, domainsResolved⟩ := domainsSolves.relevant
      obtain ⟨codomainsLocalized, _⟩ := codomainsSolves.relevant
      rw [bindingsOf_append]
      refine .comp domainsInduction codomainsInduction ?_
      -- What the codomains bind occurs in them, where no key of the domains is left.
      intro key bound boundAgain
      rcases mem_problemVars.mp (codomainsLocalized.keys boundAgain) with inLeft | inRight
      · exact domainsResolved key bound leftCodomain inLeft
      · exact domainsResolved key bound rightCodomain inRight

theorem unify_accounted (left right : Ty) : (unify left right).Accounted :=
  fun _ success => (solves_of_ok success).accounted

/-! ## Inference -/

/-- The events of a run in a covered environment account for its substitution. -/
theorem Infers.accounted {env : Env} {expr : Expr} {supply rest : Supply} {typing : Typing}
    {events : List Event} (infers : Infers env expr supply typing events rest)
    (covers : supply.Covers env) : typing.subst.Accounted (bindingsOf events) := by
  induction infers with
  | lit => exact .empty
  | @var env name scheme supply found =>
      rw [bindingsOf_append_typed, bindingsOf_instantiationEvents]
      exact .empty
  | abs body bodyInduction =>
      rw [bindingsOf_append_typed]
      exact bodyInduction (covers.insert_fresh _)
  | @app env func arg supply afterFunc afterArg ofFunc ofArg unifier funcEvents argEvents
      unifyEvents funcRun argRun unified funcInduction argInduction =>
      have funcConfined := funcRun.confined covers
      have argCovers := covers.subst funcRun.extends funcConfined.subst
      have argConfined := argRun.confined argCovers
      have success := congrArg Traced.outcome unified
      have unifierAccounted := unify_accounted _ _ unifier success
      rw [unified] at unifierAccounted
      have sides := Subst.Accounted.comp (funcInduction covers) (argInduction argCovers)
        fun key bound boundAgain => funcConfined.not_inScope covers funcRun.extends bound
          (argConfined.subst.keys boundAgain)
      rw [bindingsOf_append, bindingsOf_append, bindingsOf_append_typed, ← List.append_assoc]
      exact sides.comp unifierAccounted fun key bound boundAgain =>
        Typing.Confined.not_mem_problemVars covers funcRun.extends argRun.extends funcConfined
          argConfined bound ((unify_relevant _ _ unifier success).1.keys boundAgain)
  | @letIn env name value body supply afterValue rest ofValue inBody valueEvents bodyEvents
      valueRun bodyRun valueInduction bodyInduction =>
      have valueConfined := valueRun.confined covers
      rw [valueConfined.insert_generalize] at bodyRun bodyInduction
      have bodyCovers := valueConfined.covers_insert_generalize name covers valueRun.extends
      have bodyConfined := bodyRun.confined bodyCovers
      rw [bindingsOf_append]
      exact .comp (valueInduction covers) (bodyInduction bodyCovers)
        fun key bound boundAgain => valueConfined.not_inScope covers valueRun.extends bound
          (bodyConfined.subst.keys boundAgain).of_insert_generalize

/-- The bind events account for the whole substitution, of inference in any environment
and of unification.  Made in turn, the bindings give the substitution; they bind different
variables; and the substitution has no other entries. -/
theorem bind_events_account :
    (∀ (env : Env) (expr : Expr) (supply : Supply) (typing : Typing),
      ((env.infer expr).run supply).1.outcome = .ok typing →
      typing.subst = .inTurn (bindingsOf ((env.infer expr).run supply).1.events) ∧
      ((bindingsOf ((env.infer expr).run supply).1.events).map Prod.fst).Nodup ∧
      typing.subst.size = (bindingsOf ((env.infer expr).run supply).1.events).length) ∧
    ∀ (left right : Ty) (unifier : Unifier),
      (unify left right).outcome = .ok unifier →
      unifier.subst = .inTurn (bindingsOf (unify left right).events) ∧
      ((bindingsOf (unify left right).events).map Prod.fst).Nodup ∧
      unifier.subst.size = (bindingsOf (unify left right).events).length := by
  constructor
  · intro env expr supply typing success
    obtain ⟨events, rest, infers⟩ := Env.infers_of_infer_ok success
    have accounted := infers.accounted (.reserve supply env)
    rw [Env.run_infer, infers.run_eq]
    exact ⟨accounted.composed, accounted.distinct, accounted.size_eq⟩
  · intro left right unifier success
    have accounted := unify_accounted left right unifier success
    exact ⟨accounted.composed, accounted.distinct, accounted.size_eq⟩

/-- A variable that does not occur in a type is bound to it. -/
theorem exists_unify_var {name : TyVar} {ty : Ty} (absent : name ∉ ty.vars) :
    ∃ derivation, unify (.var name) ty =
      ⟨.ok ⟨.singleton name ty, derivation⟩, [.bound name ty]⟩ := by
  rw [unify_var_left, bindVar, bindVarFor_of_not_mem _ absent]
  exact ⟨_, rfl⟩

/-- Of two bindings in turn, the second rewrites what the first puts in. -/
theorem exists_unify_chained :
    ∃ unifier, unify (.arrow (.var "a") (.var "b")) (.arrow (.var "b") .int) =
      ⟨.ok unifier, [.bound "a" (.var "b"), .bound "b" .int]⟩ := by
  obtain ⟨first, domains⟩ := @exists_unify_var "a" (.var "b") (by decide)
  obtain ⟨second, codomains⟩ := @exists_unify_var "b" .int (by decide)
  have untouched : (Subst.singleton "a" (.var "b")).apply (.var "b") = .var "b" := by decide
  rw [← untouched] at codomains
  exact ⟨_, unify_arrow_of_ok domains codomains⟩

theorem bind_events_account_chained :
    (∃ typing, ((crossedEnv.infer crossedApp).run {}).1.outcome = .ok typing ∧
      typing.subst ≠ ∅ ∧
      typing.subst = .inTurn (bindingsOf ((crossedEnv.infer crossedApp).run {}).1.events)) ∧
    ∃ unifier, (unify (.arrow (.var "a") (.var "b")) (.arrow (.var "b") .int)).outcome =
        .ok unifier ∧
      unifier.subst = .inTurn [("a", .var "b"), ("b", .int)] ∧ unifier.subst.size = 2 := by
  constructor
  · obtain ⟨typing, success, notEmpty⟩ := exists_infer_crossedApp
    exact ⟨typing, success, notEmpty,
      (bind_events_account.1 crossedEnv crossedApp {} typing success).1⟩
  · obtain ⟨unifier, run⟩ := exists_unify_chained
    have success := congrArg Traced.outcome run
    have account := bind_events_account.2 _ _ unifier success
    rw [run] at account
    exact ⟨unifier, success, account.1, account.2.2⟩

end LetPoly
