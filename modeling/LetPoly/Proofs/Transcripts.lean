import LetPoly.Proofs.Bindings
import Mathlib.Data.List.Forall2

/-!
# Derivations and events

A run leaves two records of what it did.  It returns a derivation, whose nodes are put
together once the parts of an expression are done, and it reports events on the way.  The
two tell the same story about the expression.

*Shape.*  A derivation has a node for each part of the expression, and besides these the
solution of an equation under each application.  `Derivation.typingsOnly` takes the equations
out, and `Derivation.Mirrors` says that what is left is the expression over again.

*Order.*  `Derivation.announcements` goes through a derivation and writes down what each node
has to report: most rules after their premises, a `let` between its two, and an equation for
each variable that it binds.  `Announcement.Reports` says which events do so.  Instances of
schemes are reported too, but they are no rule of their own and leave no node.
-/

namespace LetPoly

theorem Rule.label_inj {first second : Rule} : first.label = second.label ↔ first = second := by
  constructor
  · cases first <;> cases second <;> simp [label]
  · rintro rfl
    rfl

namespace Expr

/-- The parts of an expression, in the order in which they are written. -/
def parts : Expr → List Expr
  | var _ => []
  | abs _ body => [body]
  | app func arg => [func, arg]
  | letIn _ value body => [value, body]
  | lit _ => []

/-- The rule for an expression. -/
def rule : Expr → Rule
  | var _ => .var
  | abs _ _ => .abs
  | app _ _ => .app
  | letIn _ _ _ => .letIn
  | lit value => value.rule

end Expr

namespace Derivation

/-! ## Derivations without equations -/

/-- The output of the last rule. -/
def output : Derivation → String
  | node _ _ output _ => output

mutual

/-- A derivation in which no application has its third premise any more, the solution of its
equation. -/
def typingsOnly : Derivation → Derivation
  | node rule input output premises =>
      node rule input output
        (if rule = Rule.app.label then (typingsOnlyOfAll premises).eraseIdx 2
          else typingsOnlyOfAll premises)

/-- The same for several derivations. -/
def typingsOnlyOfAll : List Derivation → List Derivation
  | [] => []
  | derivation :: remaining => typingsOnly derivation :: typingsOnlyOfAll remaining

end

/-- The nodes of a derivation are an expression and its parts, and theirs in turn, each with
the rule for it and with its text at the end of the input. -/
inductive Mirrors : Derivation → Expr → Prop where
  | node {context output : String} {premises : List Derivation} {expr : Expr} :
      List.Forall₂ Mirrors premises expr.parts →
      Mirrors
        (.node expr.rule.label (context ++ "⊢ " ++ expr.render ++ " ⇒") output premises)
        expr

theorem mirrors_typing {rule : Rule} {env : Env} {expr : Expr} {ty : Ty}
    {premises : List Derivation} (ruleEqual : rule = expr.rule)
    (ofParts : List.Forall₂ Mirrors premises expr.parts) :
    (typing rule env expr ty premises).Mirrors expr := by
  have input : typingInput env expr = (env.render ++ " ") ++ "⊢ " ++ expr.render ++ " ⇒" := by
    simp only [typingInput, String.append_assoc]
    rfl
  rw [typing, input, ruleEqual]
  exact .node ofParts

theorem typingsOnly_app (env : Env) (expr : Expr) (ty : Ty)
    (ofFunc ofArg equation : Derivation) :
    (typing .app env expr ty [ofFunc, ofArg, equation]).typingsOnly =
      typing .app env expr ty [ofFunc.typingsOnly, ofArg.typingsOnly] := by
  simp [typing, typingsOnly, typingsOnlyOfAll]

theorem typingsOnly_of_ne {rule : Rule} (different : rule ≠ .app) (env : Env) (expr : Expr)
    (ty : Ty) (premises : List Derivation) :
    (typing rule env expr ty premises).typingsOnly =
      typing rule env expr ty (typingsOnlyOfAll premises) := by
  simp [typing, typingsOnly, Rule.label_inj, different]

end Derivation

/-! ## Announcements -/

/-- What a node of a derivation has to report.  The subject is the expression that the node
is about, and there is none for an equation. -/
inductive Announcement where
  | typed (rule : String) (subject : Option Expr) (output : String)
  | generalized (subject : Option Expr)
  | bound (output : String)

/-- An event reports what was announced. -/
inductive Announcement.Reports : Announcement → Event → Prop where
  | typed {rule : Rule} {expr : Expr} {ty : Ty} :
      Reports (.typed rule.label (some expr) ty.render) (.typed rule expr ty)
  | generalized {name : Var} {value body : Expr} {scheme : Scheme} :
      Reports (.generalized (some (.letIn name value body))) (.generalized name scheme)
  | bound {name : TyVar} {ty : Ty} :
      Reports (.bound ("\x7b" ++ ty.render ++ "/" ++ name ++ "\x7d")) (.bound name ty)

namespace Derivation

/-- The announcements of a node, from those of its premises. -/
def announced (rule : String) (subject : Option Expr) (output : String)
    (ofPremises : List (List Announcement)) : List Announcement :=
  if rule ∈ [Rule.var.label, Rule.abs.label, Rule.app.label] then
    ofPremises.flatten ++ [.typed rule subject output]
  else if rule = Rule.letIn.label then
    (ofPremises.take 1).flatten ++ .generalized subject :: (ofPremises.drop 1).flatten
  else if rule = Rule.unifyVar.label then
    ofPremises.flatten ++ [.bound output]
  else
    ofPremises.flatten

mutual

/-- The announcements of a derivation about a subject. -/
def announcements : Option Expr → Derivation → List Announcement
  | subject, node rule _ output premises =>
      announced rule subject output (announcementsOfAll (subject.elim [] Expr.parts) premises)

/-- The announcements of several derivations about the parts of an expression.  Derivations
after those for the parts are about equations. -/
def announcementsOfAll : List Expr → List Derivation → List (List Announcement)
  | _, [] => []
  | parts, derivation :: remaining =>
      announcements parts.head? derivation :: announcementsOfAll parts.tail remaining

end

section

variable {rule : Rule} {subject : Option Expr} {input output : String}
  {premises : List Derivation}

/-- Variables, abstractions and applications are reported after their premises. -/
theorem announcements_typed (reported : rule ∈ [.var, .abs, .app]) :
    (node rule.label input output premises).announcements subject =
      (announcementsOfAll (subject.elim [] Expr.parts) premises).flatten ++
        [.typed rule.label subject output] := by
  have listed : rule.label ∈ [Rule.var.label, Rule.abs.label, Rule.app.label] :=
    List.mem_map_of_mem reported
  rw [announcements, announced, if_pos listed]

/-- A `let` is reported between its value and its body. -/
theorem announcements_letIn (name : Var) (value body : Expr) (ofValue ofBody : Derivation) :
    (node Rule.letIn.label input output [ofValue, ofBody]).announcements
        (some (.letIn name value body)) =
      ofValue.announcements (some value) ++
        .generalized (some (.letIn name value body)) :: ofBody.announcements (some body) := by
  simp [announcements, announced, announcementsOfAll, Rule.label_inj, Expr.parts]

theorem announcements_unifyVar :
    (node Rule.unifyVar.label input output []).announcements subject = [.bound output] := by
  simp [announcements, announced, announcementsOfAll, Rule.label_inj]

/-- The other rules pass on what their premises announce. -/
theorem announcements_silent (silent : rule ∉ [.var, .abs, .app, .letIn, .unifyVar]) :
    (node rule.label input output premises).announcements subject =
      (announcementsOfAll (subject.elim [] Expr.parts) premises).flatten := by
  simp only [List.mem_cons, List.not_mem_nil, or_false, not_or] at silent
  simp [announcements, announced, Rule.label_inj, silent]

end

end Derivation

/-! ## Transcripts -/

/-- The events other than instances of schemes. -/
def withoutInstantiations (events : List Event) : List Event :=
  events.filter fun event => event.headline ≠ some "instantiate"

/-- Events report what was announced, one by one and in order. -/
def Transcribes (announcements : List Announcement) (events : List Event) : Prop :=
  List.Forall₂ Announcement.Reports announcements (withoutInstantiations events)

namespace Transcribes

theorem nil : Transcribes [] [] := List.Forall₂.nil

theorem append {announcements more : List Announcement} {events others : List Event}
    (first : Transcribes announcements events) (second : Transcribes more others) :
    Transcribes (announcements ++ more) (events ++ others) := by
  rw [Transcribes, withoutInstantiations, List.filter_append]
  exact List.rel_append first second

theorem typed (rule : Rule) (expr : Expr) (ty : Ty) :
    Transcribes [.typed rule.label (some expr) ty.render] [.typed rule expr ty] :=
  .cons .typed .nil

theorem generalized (name : Var) (value body : Expr) (scheme : Scheme) :
    Transcribes [.generalized (some (.letIn name value body))] [.generalized name scheme] :=
  .cons .generalized .nil

theorem bound (name : TyVar) (ty : Ty) :
    Transcribes [.bound ("\x7b" ++ ty.render ++ "/" ++ name ++ "\x7d")] [.bound name ty] :=
  .cons .bound .nil

theorem instantiationEvents (scheme : Scheme) (supply : Supply) :
    Transcribes [] (scheme.instantiationEvents supply) := by
  unfold Scheme.instantiationEvents
  split
  · exact .nil
  · exact .nil

end Transcribes

/-! ## Unification -/

theorem Subst.toList_singleton (name : TyVar) (ty : Ty) :
    (singleton name ty).toList = [(name, ty)] := by
  have length : (singleton name ty).toList.length = 1 :=
    Std.ExtTreeMap.length_toList.trans (Accounted.singleton name ty).size_eq
  obtain ⟨entry, listed⟩ := List.length_eq_one_iff.mp length
  have found : (singleton name ty).find? name = some ty := by simp
  have member : (name, ty) ∈ (singleton name ty).toList := mem_toList.mpr found
  rw [listed, List.mem_singleton] at member
  rw [listed, member]

theorem Subst.render_singleton (name : TyVar) (ty : Ty) :
    (singleton name ty).render = "\x7b" ++ ty.render ++ "/" ++ name ++ "\x7d" := by
  simp [render, toList_singleton, Text.braced, String.append_assoc]

theorem Solves.transcribes {left right : Ty} {unifier : Unifier} {events : List Event}
    (solves : Solves left right unifier events) :
    Transcribes (unifier.derivation.announcements none) events := by
  induction solves with
  | int =>
      rw [Unifier.base, Derivation.unification, Derivation.announcements_silent (by decide)]
      exact .nil
  | bool =>
      rw [Unifier.base, Derivation.unification, Derivation.announcements_silent (by decide)]
      exact .nil
  | same =>
      rw [Unifier.trivial, Derivation.unification, Derivation.announcements_silent (by decide)]
      exact .nil
  | @bindLeft name right _ =>
      rw [Unifier.binding, Derivation.unification, Derivation.announcements_unifyVar,
        Subst.render_singleton]
      exact .bound name right
  | @bindRight left name _ _ =>
      rw [Unifier.binding, Derivation.unification, Derivation.announcements_unifyVar,
        Subst.render_singleton]
      exact .bound name left
  | arrow _ _ domainsInduction codomainsInduction =>
      rw [Unifier.arrow, Derivation.unification, Derivation.announcements_silent (by decide)]
      simp only [Derivation.announcementsOfAll, List.flatten_cons, List.flatten_nil,
        List.append_nil]
      exact domainsInduction.append codomainsInduction

/-! ## Inference -/

namespace Infers

variable {env : Env} {expr : Expr} {supply rest : Supply} {typing : Typing}
  {events : List Event}

theorem output_eq (infers : Infers env expr supply typing events rest) :
    typing.derivation.output = typing.ty.render := by
  cases infers with
  | lit => rfl
  | var => rfl
  | abs => rfl
  | app => rfl
  | letIn => rfl

theorem mirrors (infers : Infers env expr supply typing events rest) :
    typing.derivation.typingsOnly.Mirrors expr := by
  induction infers with
  | @lit env value supply =>
      have different : value.rule ≠ .app := by
        cases value <;> simp [Lit.rule]
      rw [Typing.ofLit, Derivation.typingsOnly_of_ne different]
      exact Derivation.mirrors_typing rfl .nil
  | var found =>
      rw [Typing.ofVar, Derivation.typingsOnly_of_ne (by decide)]
      exact Derivation.mirrors_typing rfl .nil
  | abs _ bodyInduction =>
      rw [Typing.ofAbs, Derivation.typingsOnly_of_ne (by decide)]
      exact Derivation.mirrors_typing rfl (.cons bodyInduction .nil)
  | app _ _ _ funcInduction argInduction =>
      rw [Typing.ofApp, Derivation.typingsOnly_app]
      exact Derivation.mirrors_typing rfl (.cons funcInduction (.cons argInduction .nil))
  | letIn _ _ valueInduction bodyInduction =>
      rw [Typing.ofLet, Derivation.typingsOnly_of_ne (by decide)]
      exact Derivation.mirrors_typing rfl (.cons valueInduction (.cons bodyInduction .nil))

/-- The events of a run are announced by its derivation. -/
theorem transcribes (infers : Infers env expr supply typing events rest) :
    Transcribes (typing.derivation.announcements (some expr)) events := by
  induction infers with
  | @lit env value supply =>
      have silent : value.rule ∉ [Rule.var, .abs, .app, .letIn, .unifyVar] := by
        cases value <;> simp [Lit.rule]
      rw [Typing.ofLit, Derivation.typing, Derivation.announcements_silent silent]
      exact .nil
  | @var env name scheme supply found =>
      rw [Typing.ofVar, Derivation.typing, Derivation.announcements_typed (by decide)]
      exact .append (.instantiationEvents scheme supply) (.typed .var _ _)
  | abs _ bodyInduction =>
      rw [Typing.ofAbs, Derivation.typing, Derivation.announcements_typed (by decide)]
      simp only [Derivation.announcementsOfAll, List.flatten_cons, List.flatten_nil,
        List.append_nil]
      exact bodyInduction.append (.typed .abs _ _)
  | app _ _ unified funcInduction argInduction =>
      -- The third premise is about no part of the expression, so it has no subject.
      have equation := (solves_of_run unified).transcribes
      rw [Typing.ofApp, Derivation.typing, Derivation.announcements_typed (by decide)]
      simp only [Derivation.announcementsOfAll, List.flatten_cons, List.flatten_nil,
        List.append_nil, List.append_assoc]
      exact funcInduction.append (argInduction.append (equation.append (.typed .app _ _)))
  | letIn _ _ valueInduction bodyInduction =>
      rw [Typing.ofLet, Derivation.typing, Derivation.announcements_letIn]
      exact valueInduction.append (.append (.generalized _ _ _ _) bodyInduction)

end Infers

/-- The derivation, the expression, the type and the events of a successful run agree.  The
last output is the type; without its equations the derivation is the expression over again;
and going through the derivation gives the events in order, instances of schemes aside. -/
theorem infer_records_agree (env : Env) (expr : Expr) (supply : Supply) (typing : Typing)
    (success : ((env.infer expr).run supply).1.outcome = .ok typing) :
    typing.derivation.output = typing.ty.render ∧
    typing.derivation.typingsOnly.Mirrors expr ∧
    List.Forall₂ Announcement.Reports (typing.derivation.announcements (some expr))
      (((env.infer expr).run supply).1.events.filter
        fun event => event.headline ≠ some "instantiate") := by
  obtain ⟨events, rest, infers⟩ := Env.infers_of_infer_ok success
  rw [Env.run_infer, infers.run_eq]
  exact ⟨infers.output_eq, infers.mirrors, infers.transcribes⟩

theorem infer_records_agree_curriedLet :
    ∃ typing, ((numberedEnv.infer curriedLet).run {}).1.outcome = .ok typing ∧
      typing.derivation.output = typing.ty.render ∧
      typing.derivation.typingsOnly.Mirrors curriedLet ∧
      List.Forall₂ Announcement.Reports (typing.derivation.announcements (some curriedLet))
        (((numberedEnv.infer curriedLet).run {}).1.events.filter
          fun event => event.headline ≠ some "instantiate") := by
  obtain ⟨typing, success, _⟩ := exists_infer_curriedLet
  exact ⟨typing, success, infer_records_agree numberedEnv curriedLet {} typing success⟩

end LetPoly
