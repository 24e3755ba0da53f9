import QueryAlgebra.Lowering.Context
import QueryAlgebra.Operation.Equality
import QueryAlgebra.Traversal

/-! # Taking aggregates out of expressions

Aggregates are computed where solutions are grouped, so each aggregate of an expression is replaced
by a variable that the group binds. Equal aggregates share a variable. What EXISTS asks about is
left alone.
-/

namespace QueryAlgebra

/-- Steps that keep a list of the aggregates found so far. -/
abbrev Extracting := StateT (List BoundAggregate) Lowering

namespace Context

/-- The variable of an aggregate, which is found now unless it was found before. -/
def bindAggregate (context : Context) (aggregate : Expression) : Extracting Expression := do
  let found ← get
  match found.find? (·.expression == aggregate) with
  | some bound => pure (.var bound.name)
  | none =>
    let name ← context.newVariable
    set (found ++ [⟨name, aggregate⟩])
    pure (.var name)

mutual

/-- Replace the aggregates of an expression. -/
def replaceAggregates (context : Context) : Expression → Extracting Expression
  | .term value => pure (.term value)
  | .call callee arguments => do
    let arguments ← context.replaceAllAggregates arguments
    pure (.call callee arguments)
  | .aggregate name argument distinct separator =>
    context.bindAggregate (.aggregate name argument distinct separator)
  | .existence negated input => pure (.existence negated input)
  | .wildcard => pure .wildcard

/-- Replace the aggregates of a list of expressions. -/
def replaceAllAggregates (context : Context) : List Expression → Extracting (List Expression)
  | [] => pure []
  | expression :: rest => do
    let expression ← context.replaceAggregates expression
    let expressions ← context.replaceAllAggregates rest
    pure (expression :: expressions)

end

/-- Take the aggregates out of an expression, if it fits on the stack of the traversal. -/
def extractAggregates (context : Context) (expression : Expression) : Extracting Expression := do
  Lowering.ofTraversal ((Node.expression expression).checkFits fun kind =>
    if kind = .aggregateExpression ∨ kind = .existenceExpression then .leave else .descend)
  context.replaceAggregates expression

end Context

end QueryAlgebra
