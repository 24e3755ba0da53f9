import QueryAlgebra.Lowering.Aggregates
import QueryAlgebra.Proofs.Lowering.WellFormedTerms

/-! # What expressions without aggregates become

A step that takes aggregates out of expressions keeps the aggregates found so far well-formed, and
the variables that stand for them are in use. `Extracting.Behaves` says so about a step from a given
supply.
-/

namespace QueryAlgebra

namespace Extracting

variable {α β : Type} {guarantee : Guarantee} {supply : NameSupply} {P : NameSupply → α → Prop}
  {R : NameSupply → β → Prop}

/-- What a step does from a supply of names, whichever aggregates were found before. -/
def Behaves (guarantee : Guarantee) (P : NameSupply → α → Prop) (step : Extracting α)
    (supply : NameSupply) : Prop :=
  ∀ found, BoundAggregate.allWellFormed (guarantee.bounds supply) found →
    Lowering.Behaves guarantee.clean
      (fun after result => P after result.1
        ∧ BoundAggregate.allWellFormed (guarantee.bounds after) result.2)
      (step.run found) supply

namespace Behaves

theorem pure {value : α} (holds : P supply value) :
    Behaves guarantee P (pure value : Extracting α) supply := fun _ wellFormed =>
  Lowering.Behaves.pure ⟨holds, wellFormed⟩

theorem bind {step : Extracting α} {next : α → Extracting β}
    (first : Behaves guarantee P step supply)
    (goesOn : ∀ value after, supply.Gives after → P after value →
      Behaves guarantee R (next value) after) :
    Behaves guarantee R (step >>= next) supply := fun found wellFormed => by
  rw [StateT.run_bind]
  exact (first found wellFormed).bind fun result after gives ⟨holds, wellFormed⟩ =>
    goesOn result.1 after gives holds result.2 wellFormed

/-- A step that finds no aggregates. -/
theorem lift {step : Lowering α} (behaves : Lowering.Behaves guarantee.clean P step supply) :
    Behaves guarantee P (liftM step : Extracting α) supply := fun found wellFormed => by
  refine Lowering.Behaves.bind behaves fun value after gives holds =>
    Lowering.Behaves.pure ⟨holds, ?_⟩
  exact (guarantee.bounds_le gives).aggregates found wellFormed

end Behaves

end Extracting

namespace Context

open Extracting (Behaves)

variable {context : Context} {guarantee : Guarantee} {supply : NameSupply}

private theorem behaves_bindAggregate (suits : context.Suits guarantee) {aggregate : Expression}
    (wellFormed : aggregate.WellFormed (guarantee.bounds supply) false) (key : Bool) :
    Behaves guarantee (fun after value => value.WellFormed (guarantee.bounds after) key)
      (context.bindAggregate aggregate) supply := by
  intro found ofFound
  rw [bindAggregate, StateT.run_bind, StateT.run_get, pure_bind]
  dsimp only
  split
  · rename_i bound isFound
    have member := List.mem_of_find?_eq_some isFound
    exact .pure ⟨(BoundAggregate.allWellFormed_iff.1 ofFound bound member).1, ofFound⟩
  · simp only [StateT.run_bind, liftM, monadLift, MonadLift.monadLift, StateT.run_lift,
      StateT.run_set, StateT.run_pure, bind_assoc, pure_bind]
    refine (behaves_newVariable suits).bind fun name after gives isAllowed =>
      .pure ⟨isAllowed, ?_⟩
    have le := guarantee.bounds_le gives
    rw [BoundAggregate.allWellFormed_iff]
    refine List.forall_mem_append.2 ⟨fun bound member => ?_, List.forall_mem_singleton.2 ?_⟩
    · exact BoundAggregate.allWellFormed_iff.1 (le.aggregates found ofFound) bound member
    · exact ⟨isAllowed, le.expression _ wellFormed⟩

mutual

private theorem behaves_replaceAggregates (suits : context.Suits guarantee) :
    ∀ (expression : Expression) {supply : NameSupply} {key : Bool},
    expression.WellFormed (guarantee.bounds supply) key →
    Behaves guarantee (fun after value => value.WellFormed (guarantee.bounds after) key)
      (context.replaceAggregates expression) supply
  | .term value, _, _, isValue => .pure isValue
  | .call (.operator name) arguments, _, _, ⟨takes, ofArguments⟩ => by
    rw [replaceAggregates]
    refine (behaves_replaceAllAggregates suits arguments ofArguments).bind
      fun arguments after gives result => .pure ⟨?_, result.1⟩
    rw [result.2]
    exact takes
  | .call (.function name) arguments, _, _, ⟨full, ofArguments⟩ => by
    rw [replaceAggregates]
    exact (behaves_replaceAllAggregates suits arguments ofArguments).bind
      fun arguments after gives result => .pure ⟨full, result.1⟩
  | .aggregate _ _ _ _, _, key, wellFormed => by
    rw [replaceAggregates]
    exact behaves_bindAggregate suits wellFormed key
  | .existence _ _, _, _, wellFormed => .pure wellFormed

private theorem behaves_replaceAllAggregates (suits : context.Suits guarantee) :
    ∀ (expressions : List Expression) {supply : NameSupply} {key : Bool},
    Expression.allWellFormed (guarantee.bounds supply) key expressions →
    Behaves guarantee
      (fun after result => Expression.allWellFormed (guarantee.bounds after) key result
        ∧ result.length = expressions.length)
      (context.replaceAllAggregates expressions) supply
  | [], _, _, _ => .pure ⟨trivial, rfl⟩
  | expression :: rest, _, _, ⟨first, others⟩ => by
    rw [replaceAllAggregates]
    refine (behaves_replaceAggregates suits expression first).bind
      fun expression s₁ gives₁ expression₁ => ?_
    refine (behaves_replaceAllAggregates suits rest
      ((guarantee.bounds_le gives₁).expressions _ others)).bind
      fun expressions s₂ gives₂ result => .pure ?_
    exact ⟨⟨(guarantee.bounds_le gives₂).expression _ expression₁, result.1⟩,
      congrArg (· + 1) result.2⟩

end

/-- An expression stays well-formed when its aggregates are taken out. -/
theorem behaves_extractAggregates (suits : context.Suits guarantee) {expression : Expression}
    (wellFormed : expression.WellFormed (guarantee.bounds supply) false) :
    Behaves guarantee (fun after value => value.WellFormed (guarantee.bounds after) false)
      (context.extractAggregates expression) supply := by
  rw [extractAggregates]
  refine Behaves.bind (P := fun after _ => supply.Gives after) (.lift (.ofTraversal _ _ (.refl _)))
    fun _ after _ gives => ?_
  exact behaves_replaceAggregates suits expression
    ((guarantee.bounds_le gives).expression _ wellFormed)

end Context

end QueryAlgebra
