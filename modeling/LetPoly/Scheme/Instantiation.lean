import LetPoly.Inference

/-!
# Instantiation of schemes

To instantiate a scheme is to put types in for its quantified variables, all at once.
Inference takes the instance with fresh variables, one for each place in the list
of quantified variables; for a variable listed twice the last one drawn counts.
-/

namespace LetPoly.Scheme

/-- A substitution of fresh variables for the quantified ones, and what is left
of the supply. -/
def freshSubst (scheme : Scheme) (supply : Supply) : Subst × Supply :=
  let (names, rest) := supply.freshMany scheme.vars.length
  (.ofList (scheme.vars.zip (names.map .var)), rest)

/-- The instance of a scheme with fresh variables.  A scheme that quantifies
nothing is its own instance, and taking it is not reported. -/
def instantiate (scheme : Scheme) : Inference Ty := fun supply =>
  let (subst, rest) := scheme.freshSubst supply
  let events := if scheme.vars.isEmpty then [] else [.instantiated scheme subst]
  (⟨.ok (subst.apply scheme.ty), events⟩, rest)

end LetPoly.Scheme
