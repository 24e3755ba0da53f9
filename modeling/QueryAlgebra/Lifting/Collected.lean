import QueryAlgebra.Lifting.Triples

/-! # What is met on the way to the pattern of a query

The operators between a query form and its pattern become clauses of the query. `Found` is what one
of them contributes, and `Collecting` is writing an operation or expression while keeping what was
found in it, from the outside to the inside.

The expression of a contribution is written when a clause takes it, so it is kept together with the
error that writing it may have, and with what was found in it.
-/

namespace QueryAlgebra

/-- A contribution to the clauses of the query around it. -/
inductive Found where
  | extension (name : Variable) (value : Except LiftingError (Surface.Expression × List Found))
  | groupKey (name : Variable)
  | aggregate (name : Variable) (value : Except LiftingError (Surface.Expression × List Found))
  | orderKey (direction : Surface.Direction)
      (value : Except LiftingError (Surface.Expression × List Found))

/-- A result with what was found on the way to it, or an error. -/
structure Collecting (α : Type) where
  outcome : Except LiftingError (α × List Found)

namespace Collecting

variable {α β : Type}

/-- What the next step finds comes after what was found before. -/
def after (found : List Found) : Except LiftingError (α × List Found) → Collecting α
  | .error error => ⟨.error error⟩
  | .ok (value, more) => ⟨.ok (value, found ++ more)⟩

/-- Go on with a result. -/
def andThen (next : α → Collecting β) : Except LiftingError (α × List Found) → Collecting β
  | .error error => ⟨.error error⟩
  | .ok (value, found) => after found (next value).outcome

instance : Monad Collecting where
  pure value := ⟨.ok (value, [])⟩
  bind step next := andThen next step.outcome

instance : LawfulMonad Collecting :=
  LawfulMonad.mk' Collecting
    (by
      rintro α ⟨error | ⟨value, found⟩⟩
      · rfl
      · simp [Functor.map, andThen, after])
    (by
      intro α β value next
      simp only [bind, pure, andThen]
      rcases next value with ⟨error | ⟨result, found⟩⟩ <;> rfl)
    (by
      rintro α β γ ⟨error | ⟨value, found⟩⟩ next last
      · rfl
      · simp only [bind, andThen]
        rcases next value with ⟨error | ⟨result, more⟩⟩
        · rfl
        · simp only [after]
          rcases last result with ⟨error | ⟨answer, rest⟩⟩ <;> simp [List.append_assoc])

/-- Nothing is found in what is written directly. -/
instance : MonadLift (Except LiftingError) Collecting where
  monadLift
    | .error error => ⟨.error error⟩
    | .ok value => ⟨.ok (value, [])⟩

/-- Stop with an error. -/
def fail (error : LiftingError) : Collecting α := ⟨.error error⟩

/-- Contribute to the clauses of the query around. -/
def note (found : List Found) : Collecting Unit := ⟨.ok ((), found)⟩

end Collecting

namespace Found

/-- The values bound on the way, outermost first. -/
def extensions : List Found → List (Variable × Collecting Surface.Expression)
  | [] => []
  | .extension name value :: rest => (name, ⟨value⟩) :: extensions rest
  | _ :: rest => extensions rest

/-- The keys of groups. -/
def groupKeys : List Found → List Variable
  | [] => []
  | .groupKey name :: rest => name :: groupKeys rest
  | _ :: rest => groupKeys rest

/-- The aggregates of groups. -/
def aggregates : List Found → List (Variable × Collecting Surface.Expression)
  | [] => []
  | .aggregate name value :: rest => (name, ⟨value⟩) :: aggregates rest
  | _ :: rest => aggregates rest

/-- The keys of orders. -/
def orderKeys : List Found → List (Surface.Direction × Collecting Surface.Expression)
  | [] => []
  | .orderKey direction value :: rest => (direction, ⟨value⟩) :: orderKeys rest
  | _ :: rest => orderKeys rest

end Found

end QueryAlgebra
