import LetPoly.Name
import LetPoly.Text
import LetPoly.Ty
import LetPoly.Ty.Renaming
import LetPoly.Expr
import LetPoly.Expr.Binding
import LetPoly.Subst
import LetPoly.Scheme
import LetPoly.Env
import LetPoly.HasType
import LetPoly.Supply
import LetPoly.TypeError
import LetPoly.Derivation
import LetPoly.Event
import LetPoly.Traced
import LetPoly.Inference
import LetPoly.Scheme.Instantiation
import LetPoly.Unify
import LetPoly.Infer
import LetPoly.Proofs.Schemes
import LetPoly.Proofs.Freshness
import LetPoly.Proofs.Typing
import LetPoly.Proofs.Unification
import LetPoly.Proofs.Termination
import LetPoly.Proofs.Rejection
import LetPoly.Proofs.Instantiation
import LetPoly.Proofs.Runs
import LetPoly.Proofs.Unbound
import LetPoly.Proofs.Scope
import LetPoly.Proofs.Soundness
import LetPoly.Proofs.Principality
import LetPoly.Proofs.Answers
import LetPoly.Proofs.Lockstep
import LetPoly.Proofs.Renaming
import LetPoly.Proofs.Symmetry
import LetPoly.Proofs.Variants
import LetPoly.Proofs.AlphaEquivalence
import LetPoly.Proofs.Bridge
import LetPoly.Proofs.Histories
import LetPoly.Proofs.Dependence
import LetPoly.Proofs.Bindings
import LetPoly.Proofs.Elimination
import LetPoly.Proofs.Issuance
import LetPoly.Proofs.Transcripts
import LetPoly.Proofs.Capture
import LetPoly.Proofs.Polymorphism
import LetPoly.Proofs.Legibility
import LetPoly.Proofs.Outlines
import LetPoly.Proofs.Reading
import LetPoly.Proofs.Reader
