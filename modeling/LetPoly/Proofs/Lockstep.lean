import LetPoly.Proofs.Runs

/-!
# Two runs in lockstep

Some properties of inference compare two runs: from different supplies, or in
different environments.  Such runs take the same branches, so they are compared step
by step.  `Inference.Lockstep` says of two runs that they end in the same way, with
results that are related as asked; a failure of one run is a failure of the other.

`Lockstep.bind` opens a sequence of computations.  What follows the first step has to
be compared only where both runs have succeeded in it, and the two successful runs are
there to be used.  `Lockstep.trans` compares two runs through a third.
-/

namespace LetPoly

namespace Inference

variable {α β γ δ : Type}

/-- Two runs both succeed, with values and supplies that are related, or both fail,
with errors and supplies that are. -/
inductive Lockstep (values : α → Supply → β → Supply → Prop)
    (errors : TypeError → Supply → TypeError → Supply → Prop) :
    Traced α × Supply → Traced β × Supply → Prop where
  | ok {left : α} {right : β} {leftEvents rightEvents : List Event}
      {leftRest rightRest : Supply} :
      values left leftRest right rightRest →
      Lockstep values errors (⟨.ok left, leftEvents⟩, leftRest)
        (⟨.ok right, rightEvents⟩, rightRest)
  | error {left right : TypeError} {leftEvents rightEvents : List Event}
      {leftRest rightRest : Supply} :
      errors left leftRest right rightRest →
      Lockstep values errors (⟨.error left, leftEvents⟩, leftRest)
        (⟨.error right, rightEvents⟩, rightRest)

namespace Lockstep

theorem mono {values values' : α → Supply → β → Supply → Prop}
    {errors errors' : TypeError → Supply → TypeError → Supply → Prop}
    {left : Traced α × Supply} {right : Traced β × Supply}
    (lockstep : Lockstep values errors left right)
    (valuesMono : ∀ leftValue leftRest rightValue rightRest,
      values leftValue leftRest rightValue rightRest →
      values' leftValue leftRest rightValue rightRest)
    (errorsMono : ∀ leftError leftRest rightError rightRest,
      errors leftError leftRest rightError rightRest →
      errors' leftError leftRest rightError rightRest) :
    Lockstep values' errors' left right := by
  cases lockstep with
  | ok related => exact .ok (valuesMono _ _ _ _ related)
  | error related => exact .error (errorsMono _ _ _ _ related)

/-- Where the left run succeeds, so does the right one. -/
theorem exists_right {values : α → Supply → β → Supply → Prop}
    {errors : TypeError → Supply → TypeError → Supply → Prop} {left : Traced α × Supply}
    {right : Traced β × Supply} {value : α} {events : List Event} {rest : Supply}
    (lockstep : Lockstep values errors left right)
    (success : left = (⟨.ok value, events⟩, rest)) :
    ∃ image imageEvents imageRest, right = (⟨.ok image, imageEvents⟩, imageRest) ∧
      values value rest image imageRest := by
  subst success
  cases lockstep with
  | ok related => exact ⟨_, _, _, rfl, related⟩

/-- Runs are compared through a third one. -/
theorem trans {values : α → Supply → β → Supply → Prop}
    {moreValues : β → Supply → γ → Supply → Prop}
    {errors moreErrors : TypeError → Supply → TypeError → Supply → Prop}
    {left : Traced α × Supply} {middle : Traced β × Supply} {right : Traced γ × Supply}
    (first : Lockstep values errors left middle)
    (second : Lockstep moreValues moreErrors middle right) :
    Lockstep
      (fun leftValue leftRest rightValue rightRest => ∃ value rest,
        values leftValue leftRest value rest ∧ moreValues value rest rightValue rightRest)
      (fun leftError leftRest rightError rightRest => ∃ error rest,
        errors leftError leftRest error rest ∧ moreErrors error rest rightError rightRest)
      left right := by
  cases first with
  | ok related =>
      cases second with
      | ok moreRelated => exact .ok ⟨_, _, related, moreRelated⟩
  | error related =>
      cases second with
      | error moreRelated => exact .error ⟨_, _, related, moreRelated⟩

section Sequence

variable {values : γ → Supply → δ → Supply → Prop}
  {errors : TypeError → Supply → TypeError → Supply → Prop}
  {left : Inference α} {right : Inference β} {leftNext : α → Inference γ}
  {rightNext : β → Inference δ} {leftSupply rightSupply : Supply}

/-- A first part that succeeds on both sides. -/
theorem step {leftValue : α} {rightValue : β} {leftEvents rightEvents : List Event}
    {leftRest rightRest : Supply}
    (leftRun : left.run leftSupply = (⟨.ok leftValue, leftEvents⟩, leftRest))
    (rightRun : right.run rightSupply = (⟨.ok rightValue, rightEvents⟩, rightRest))
    (next : Lockstep values errors ((leftNext leftValue).run leftRest)
      ((rightNext rightValue).run rightRest)) :
    Lockstep values errors ((left >>= leftNext).run leftSupply)
      ((right >>= rightNext).run rightSupply) := by
  rw [run_bind_of_ok leftRun, run_bind_of_ok rightRun]
  generalize (leftNext _).run _ = leftLast, (rightNext _).run _ = rightLast at next ⊢
  cases next with
  | ok related => exact .ok related
  | error related => exact .error related

/-- Sequences run in lockstep if their first parts do, and their second parts do
wherever the first parts succeed. -/
theorem bind {between : α → Supply → β → Supply → Prop}
    (first : Lockstep between errors (left.run leftSupply) (right.run rightSupply))
    (next : ∀ leftValue leftEvents leftRest rightValue rightEvents rightRest,
      left.run leftSupply = (⟨.ok leftValue, leftEvents⟩, leftRest) →
      right.run rightSupply = (⟨.ok rightValue, rightEvents⟩, rightRest) →
      between leftValue leftRest rightValue rightRest →
      Lockstep values errors ((leftNext leftValue).run leftRest)
        ((rightNext rightValue).run rightRest)) :
    Lockstep values errors ((left >>= leftNext).run leftSupply)
      ((right >>= rightNext).run rightSupply) := by
  generalize leftRun : left.run leftSupply = leftEnd, rightRun : right.run rightSupply = rightEnd
    at first
  cases first with
  | ok related => exact step leftRun rightRun (next _ _ _ _ _ _ leftRun rightRun related)
  | error related =>
      rw [run_bind_of_error leftRun, run_bind_of_error rightRun]
      exact .error related

end Sequence

end Lockstep

end Inference

end LetPoly
