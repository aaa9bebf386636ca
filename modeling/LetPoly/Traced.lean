import LetPoly.Event

/-!
# Traced computations

`Traced α` is a computation that may fail with a type error and that reports
events either way: a failure keeps the events reported before it.
-/

namespace LetPoly

/-- A value or a type error, with the events reported on the way. -/
structure Traced (α : Type) where
  outcome : Except TypeError α
  events : List Event

namespace Traced

variable {α β : Type}

/-- A failure. -/
def fail (error : TypeError) : Traced α :=
  ⟨.error error, []⟩

/-- Report one event. -/
def report (event : Event) : Traced Unit :=
  ⟨.ok (), [event]⟩

instance : Monad Traced where
  pure value := ⟨.ok value, []⟩
  bind first next :=
    match first.outcome with
    | .ok value =>
        let second := next value
        ⟨second.outcome, first.events ++ second.events⟩
    | .error error => ⟨.error error, first.events⟩

theorem pure_eq (value : α) : (pure value : Traced α) = ⟨.ok value, []⟩ := rfl

theorem bind_ok (value : α) (events : List Event) (next : α → Traced β) :
    (⟨.ok value, events⟩ : Traced α) >>= next =
      ⟨(next value).outcome, events ++ (next value).events⟩ := rfl

theorem bind_error (error : TypeError) (events : List Event) (next : α → Traced β) :
    (⟨.error error, events⟩ : Traced α) >>= next = ⟨.error error, events⟩ := rfl

instance : LawfulMonad Traced := LawfulMonad.mk' Traced
  (by
    intro α ⟨outcome, events⟩
    cases outcome <;> simp [Functor.map])
  (by
    intro α β value next
    simp [bind, pure])
  (by
    intro α β γ ⟨outcome, events⟩ second third
    cases outcome with
    | error error => rfl
    | ok value =>
        simp only [bind_ok]
        cases second value with
        | mk outcome events =>
            cases outcome <;> simp [bind])

/-- Keep a value together with a property that every value of the computation
has. -/
def attach {property : α → Prop} (traced : Traced α)
    (holds : ∀ value, traced.outcome = .ok value → property value) :
    Traced { value : α // property value } :=
  ⟨match outcome : traced.outcome with
    | .ok value => .ok ⟨value, holds value outcome⟩
    | .error error => .error error,
    traced.events⟩

@[simp]
theorem map_val_attach {property : α → Prop} (traced : Traced α)
    (holds : ∀ value, traced.outcome = .ok value → property value) :
    Subtype.val <$> traced.attach holds = traced := by
  obtain ⟨outcome, events⟩ := traced
  cases outcome <;> simp [attach, Functor.map]

end Traced

end LetPoly
