import QueryAlgebra.Operation

/-! # Gathering from and rebuilding whole operations

Most passes over an operation either gather something from every part of it or replace some parts
and keep the rest. `Operation.gather` and `Operation.rebuild` go through an operation once, inputs
before the operation itself and left before right, through expressions and the operations that they
ask about as well. Paths and terms have no parts of interest here.
-/

namespace QueryAlgebra

/-- Where a pattern stands. -/
inductive Place where
  | bgp
  | template
  | delete
  | insert
deriving DecidableEq, Inhabited

/-- What is gathered from the parts of an operation. Nothing is gathered from below operations that
are `closed`. -/
structure Gather (α : Type) where
  closed : Operator → Bool
  pattern : Place → Pattern → List α
  expression : Expression → List α
  operator : Operator → List α

/-- What the parts of an operation are replaced by. Operations that are `closed` stay as they are,
with all that is below them; an operation or expression is replaced after its parts. -/
structure Rebuild where
  closed : Operator → Bool
  pattern : Place → Pattern → Pattern
  expression : Expression → Expression
  operation : Operation → Operation

namespace Rebuild

/-- Replaces nothing. -/
def nothing : Rebuild := ⟨fun _ => false, fun _ pattern => pattern, id, id⟩

end Rebuild

namespace Operator

/-- Whether the operator is a graph block. -/
def isGraph : Operator → Bool
  | .wrap (.graph _) _ => true
  | _ => false

/-- Whether the operator is an update of triples. -/
def isDeleteInsert : Operator → Bool
  | .deleteInsert .. => true
  | _ => false

end Operator

variable {α : Type}

mutual

/-- Gather from an operation. -/
def Operation.gather (what : Gather α) : Operation → List α
  | ⟨operator, _⟩ =>
    if what.closed operator then what.operator operator
    else operator.gather what ++ what.operator operator

/-- Gather from the parts of an operator. -/
def Operator.gather (what : Gather α) : Operator → List α
  | .bgp patterns => patterns.flatMap (what.pattern .bgp)
  | .values .. => []
  | .nop => []
  | .path .. => []
  | .manage _ => []
  | .wrap _ input => input.gather what
  | .filter input condition => input.gather what ++ condition.gather what
  | .extend input _ value => input.gather what ++ value.gather what
  | .group input _ aggregates => input.gather what ++ BoundAggregate.gatherAll what aggregates
  | .orderBy input keys => input.gather what ++ Expression.gatherAll what keys
  | .construct input template =>
    input.gather what ++ template.flatMap (what.pattern .template)
  | .combine _ inputs => Operation.gatherAll what inputs
  | .leftJoin left right none => left.gather what ++ right.gather what
  | .leftJoin left right (some condition) =>
    left.gather what ++ right.gather what ++ condition.gather what
  | .minus left right => left.gather what ++ right.gather what
  | .deleteInsert delete insert none =>
    (delete.getD []).flatMap (what.pattern .delete)
      ++ (insert.getD []).flatMap (what.pattern .insert)
  | .deleteInsert delete insert (some scope) =>
    (delete.getD []).flatMap (what.pattern .delete)
      ++ (insert.getD []).flatMap (what.pattern .insert) ++ scope.gather what

/-- Gather from an expression. -/
def Expression.gather (what : Gather α) : Expression → List α
  | .term value => what.expression (.term value)
  | .call callee arguments =>
    Expression.gatherAll what arguments ++ what.expression (.call callee arguments)
  | .aggregate name argument distinct separator =>
    argument.gather what ++ what.expression (.aggregate name argument distinct separator)
  | .existence negated input => input.gather what ++ what.expression (.existence negated input)
  | .wildcard => what.expression .wildcard

/-- Gather from a list of operations. -/
def Operation.gatherAll (what : Gather α) : List Operation → List α
  | [] => []
  | operation :: rest => operation.gather what ++ Operation.gatherAll what rest

/-- Gather from a list of expressions. -/
def Expression.gatherAll (what : Gather α) : List Expression → List α
  | [] => []
  | expression :: rest => expression.gather what ++ Expression.gatherAll what rest

/-- Gather from the expressions of aggregates. -/
def BoundAggregate.gatherAll (what : Gather α) : List BoundAggregate → List α
  | [] => []
  | ⟨_, expression⟩ :: rest => expression.gather what ++ BoundAggregate.gatherAll what rest

end

mutual

/-- Rebuild an operation. -/
def Operation.rebuild (change : Rebuild) : Operation → Operation
  | ⟨operator, metadata⟩ =>
    if change.closed operator then ⟨operator, metadata⟩
    else change.operation ⟨operator.rebuild change, metadata⟩

/-- Rebuild the parts of an operator. -/
def Operator.rebuild (change : Rebuild) : Operator → Operator
  | .bgp patterns => .bgp (patterns.map (change.pattern .bgp))
  | .values vars rows => .values vars rows
  | .nop => .nop
  | .path subject predicate object graph => .path subject predicate object graph
  | .manage action => .manage action
  | .wrap wrapper input => .wrap wrapper (input.rebuild change)
  | .filter input condition => .filter (input.rebuild change) (condition.rebuild change)
  | .extend input name value => .extend (input.rebuild change) name (value.rebuild change)
  | .group input keys aggregates =>
    .group (input.rebuild change) keys (BoundAggregate.rebuildAll change aggregates)
  | .orderBy input keys => .orderBy (input.rebuild change) (Expression.rebuildAll change keys)
  | .construct input template =>
    .construct (input.rebuild change) (template.map (change.pattern .template))
  | .combine how inputs => .combine how (Operation.rebuildAll change inputs)
  | .leftJoin left right none => .leftJoin (left.rebuild change) (right.rebuild change) none
  | .leftJoin left right (some condition) =>
    .leftJoin (left.rebuild change) (right.rebuild change) (some (condition.rebuild change))
  | .minus left right => .minus (left.rebuild change) (right.rebuild change)
  | .deleteInsert delete insert none =>
    .deleteInsert (delete.map (·.map (change.pattern .delete)))
      (insert.map (·.map (change.pattern .insert))) none
  | .deleteInsert delete insert (some scope) =>
    .deleteInsert (delete.map (·.map (change.pattern .delete)))
      (insert.map (·.map (change.pattern .insert))) (some (scope.rebuild change))

/-- Rebuild an expression. -/
def Expression.rebuild (change : Rebuild) : Expression → Expression
  | .term value => change.expression (.term value)
  | .call callee arguments =>
    change.expression (.call callee (Expression.rebuildAll change arguments))
  | .aggregate name argument distinct separator =>
    change.expression (.aggregate name (argument.rebuild change) distinct separator)
  | .existence negated input => change.expression (.existence negated (input.rebuild change))
  | .wildcard => change.expression .wildcard

/-- Rebuild a list of operations. -/
def Operation.rebuildAll (change : Rebuild) : List Operation → List Operation
  | [] => []
  | operation :: rest => operation.rebuild change :: Operation.rebuildAll change rest

/-- Rebuild a list of expressions. -/
def Expression.rebuildAll (change : Rebuild) : List Expression → List Expression
  | [] => []
  | expression :: rest => expression.rebuild change :: Expression.rebuildAll change rest

/-- Rebuild the expressions of aggregates. -/
def BoundAggregate.rebuildAll (change : Rebuild) : List BoundAggregate → List BoundAggregate
  | [] => []
  | ⟨name, expression⟩ :: rest =>
    ⟨name, expression.rebuild change⟩ :: BoundAggregate.rebuildAll change rest

end

theorem Operation.rebuildAll_eq_map (change : Rebuild) (operations : List Operation) :
    rebuildAll change operations = operations.map (rebuild change) := by
  induction operations with
  | nil => rfl
  | cons operation rest ih => rw [rebuildAll, ih, List.map_cons]

theorem Expression.rebuildAll_eq_map (change : Rebuild) (expressions : List Expression) :
    rebuildAll change expressions = expressions.map (rebuild change) := by
  induction expressions with
  | nil => rfl
  | cons expression rest ih => rw [rebuildAll, ih, List.map_cons]

theorem BoundAggregate.rebuildAll_eq_map (change : Rebuild) (aggregates : List BoundAggregate) :
    rebuildAll change aggregates
      = aggregates.map fun bound => ⟨bound.name, bound.expression.rebuild change⟩ := by
  induction aggregates with
  | nil => rfl
  | cons bound rest ih =>
    obtain ⟨name, expression⟩ := bound
    rw [rebuildAll, ih, List.map_cons]

end QueryAlgebra
