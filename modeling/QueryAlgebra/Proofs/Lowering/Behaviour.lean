import QueryAlgebra.Proofs.Lowering.FreshNames
import QueryAlgebra.Proofs.Lowering.Outcomes
import QueryAlgebra.Traversal

/-! # What a step of the passage does

A step takes names from the supply, has results of a kind, and fails for certain reasons alone.
`Lowering.Behaves` says so about the step from a given supply: the supply that is left is one that
the first may give, whether the step succeeds or fails; a result has a property, which may depend on
the names that are in use afterwards; and if nothing is wrong with what is written (`clean`), the
only failure is that of a traversal that needs more stack than there is.
-/

namespace QueryAlgebra

/-- A traversal needed more stack than there is. -/
inductive LoweringError.IsOverflow : LoweringError → Prop
  | intro (limit : Nat) : IsOverflow (.traversal (.stackOverflow limit))

/-- A result that has a property, or an error, unless nothing is wrong. -/
def Settles {α : Type} (clean : Prop) (P : α → Prop) : Except LoweringError α → Prop
  | .ok value => P value
  | .error _ => ¬ clean

namespace Settles

variable {α β : Type} {clean : Prop} {P Q : α → Prop} {R : β → Prop}

theorem bind {result : Except LoweringError α} {next : α → Except LoweringError β}
    (first : Settles clean P result) (goesOn : ∀ value, P value → Settles clean R (next value)) :
    Settles clean R (result >>= next) := by
  cases result with
  | ok value => exact goesOn value first
  | error error => exact first

theorem imp {result : Except LoweringError α} (settles : Settles clean P result)
    (weaker : ∀ value, P value → Q value) : Settles clean Q result := by
  cases result with
  | ok value => exact weaker value settles
  | error error => exact settles

end Settles

namespace Lowering

variable {α β : Type} {clean : Prop} {P Q : NameSupply → α → Prop} {R : NameSupply → β → Prop}
  {supply : NameSupply}

/-- What a step does from a supply of names. -/
def Behaves (clean : Prop) (P : NameSupply → α → Prop) (step : Lowering α)
    (supply : NameSupply) : Prop :=
  match step supply with
  | .ok value after => supply.Gives after ∧ P after value
  | .error error after => supply.Gives after ∧ (clean → error.IsOverflow)

namespace Behaves

theorem pure {value : α} (holds : P supply value) :
    Behaves clean P (pure value : Lowering α) supply := ⟨.refl supply, holds⟩

theorem bind {step : Lowering α} {next : α → Lowering β} (first : Behaves clean P step supply)
    (goesOn : ∀ value after, supply.Gives after → P after value →
      Behaves clean R (next value) after) :
    Behaves clean R (step >>= next) supply := by
  unfold Behaves at first
  cases outcome : step supply with
  | ok value after =>
    rw [outcome] at first
    have second := goesOn value after first.1 first.2
    unfold Behaves at second ⊢
    rw [bind_ok outcome]
    cases last : next value after with
    | ok result later =>
      rw [last] at second
      exact ⟨first.1.trans second.1, second.2⟩
    | error error later =>
      rw [last] at second
      exact ⟨first.1.trans second.1, second.2⟩
  | error error after =>
    rw [outcome] at first
    unfold Behaves
    rw [bind_error outcome]
    exact first

theorem imp {step : Lowering α} (behaves : Behaves clean P step supply)
    (weaker : ∀ value after, supply.Gives after → P after value → Q after value) :
    Behaves clean Q step supply := by
  unfold Behaves at behaves ⊢
  cases outcome : step supply with
  | ok value after =>
    rw [outcome] at behaves
    exact ⟨behaves.1, weaker value after behaves.1 behaves.2⟩
  | error error after =>
    rw [outcome] at behaves
    exact behaves

theorem throw {error : LoweringError} (unclean : ¬ clean) :
    Behaves clean P (throw error : Lowering α) supply :=
  ⟨.refl supply, fun isClean => absurd isClean unclean⟩

/-- What depends on the context alone takes no names. -/
theorem lift {result : Except LoweringError α} (settles : Settles clean (P supply) result) :
    Behaves clean P (liftM result : Lowering α) supply := by
  cases result with
  | ok value => exact .pure settles
  | error error => exact .throw settles

theorem bindLift {P : α → Prop} {result : Except LoweringError α} {next : α → Lowering β}
    (settles : Settles clean P result)
    (goesOn : ∀ value, P value → Behaves clean R (next value) supply) :
    Behaves clean R (liftM result >>= next) supply := by
  cases result with
  | ok value => exact goesOn value settles
  | error error => exact .throw settles

/-- A traversal fails only for want of stack. -/
theorem ofTraversal {P : NameSupply → Unit → Prop} (below : NodeKind → Below) (node : Node)
    (holds : P supply ()) :
    Behaves clean P (Lowering.ofTraversal (node.checkFits below)) supply := by
  unfold Node.checkFits
  split
  · exact .pure holds
  · exact ⟨.refl supply, fun _ => .intro _⟩

/-- Taking a name from the supply. -/
theorem take {take : NameSupply → String × NameSupply} {name : String → LocalName}
    (takes : supply.Takes (name (take supply).1) (take supply).2) :
    Behaves clean (fun after text => after.Has (name text))
      (modifyGet take : Lowering String) supply :=
  ⟨.of_takes takes, (takes.has_iff _).2 (.inl rfl)⟩

end Behaves

end Lowering

end QueryAlgebra
