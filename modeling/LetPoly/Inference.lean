import LetPoly.Supply
import LetPoly.Traced

/-!
# Inference computations

`Inference α` is a traced computation that also draws on a supply of names.  A
failure keeps the names drawn and the names reserved before it, so that a later
run on the same supply never repeats them.
-/

namespace LetPoly

/-- A traced computation that draws on a supply of names. -/
def Inference (α : Type) : Type :=
  Supply → Traced α × Supply

namespace Inference

variable {α β : Type}

/-- Run a computation on a supply. -/
def run (action : Inference α) (supply : Supply) : Traced α × Supply :=
  action supply

instance : Monad Inference where
  pure value := fun supply => (pure value, supply)
  bind action next := fun supply =>
    let first := action supply
    match first.1.outcome with
    | .ok value =>
        let second := next value first.2
        (⟨second.1.outcome, first.1.events ++ second.1.events⟩, second.2)
    | .error error => (⟨.error error, first.1.events⟩, first.2)

instance : LawfulMonad Inference := LawfulMonad.mk' Inference
  (by
    intro α action
    funext supply
    simp only [Functor.map]
    rcases action supply with ⟨⟨outcome, events⟩, rest⟩
    cases outcome with
    | error error => rfl
    | ok value => exact congrArg (fun all => (Traced.mk (.ok value) all, rest)) (List.append_nil _))
  (by
    intro α β value next
    funext supply
    simp [bind, pure])
  (by
    intro α β γ action second third
    funext supply
    simp only [bind]
    rcases action supply with ⟨⟨outcome, events⟩, rest⟩
    cases outcome with
    | error error => rfl
    | ok value =>
        dsimp only
        rcases second value rest with ⟨⟨outcome, events⟩, rest⟩
        cases outcome <;> simp)

/-- A traced computation that draws no names. -/
def lift (traced : Traced α) : Inference α :=
  fun supply => (traced, supply)

instance : MonadLift Traced Inference where
  monadLift := lift

/-- A failure. -/
def fail (error : TypeError) : Inference α :=
  lift (.fail error)

/-- Report one event. -/
def report (event : Event) : Inference Unit :=
  lift (.report event)

/-- Draw a fresh name. -/
def fresh : Inference TyVar :=
  fun supply => (pure supply.fresh.1, supply.fresh.2)

/-- Never draw any of the given names from now on. -/
def reserve (names : NameSet) : Inference Unit :=
  fun supply => (pure (), supply.reserve names)

end Inference

end LetPoly
