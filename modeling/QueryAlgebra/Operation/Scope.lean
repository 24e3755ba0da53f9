import QueryAlgebra.Node.OwnTerms
import QueryAlgebra.Operation.Canonical

/-! # The variables in scope of an operation

A variable is in scope where a pattern, a graph name, a binding, a group or inline data mentions
it. A projection hides what is below it and shows its own variables.
-/

namespace QueryAlgebra

/-- The variables in a term. -/
def Term.vars (term : Term) : List Variable := term.nested.filterMap Term.asVariable?

/-- The variables that an operator of itself puts into scope. -/
def Operator.scopeVariables : Operator → List Variable
  | .wrap (.project vars) _ => vars
  | .wrap (.graph name) _ => name.vars
  | .wrap (.service name _) _ => name.vars
  | .extend _ name _ => [name]
  | .group _ keys aggregates => keys ++ aggregates.map (·.name)
  | .values vars _ => vars
  | .path subject _ object graph => subject.vars ++ object.vars ++ graph.vars
  | _ => []

/-- Whether the operator is a projection. -/
def Operator.isProject : Operator → Bool
  | .wrap (.project _) _ => true
  | _ => false

/-- The variables in scope of an operation, in the order in which they are first met. -/
def Operation.inScope (operation : Operation) : List Variable :=
  firstSeen <| operation.gather
    { closed := Operator.isProject
      pattern := fun _ pattern => pattern.terms.flatMap Term.vars
      expression := fun _ => []
      operator := Operator.scopeVariables }

end QueryAlgebra
