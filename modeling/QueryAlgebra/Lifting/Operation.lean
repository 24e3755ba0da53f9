import QueryAlgebra.Lifting.QueryScope
import QueryAlgebra.Surface.Request

/-! # Writing operations

An operation is written as the elements of a group of patterns, or as a query if it is a query form
or modifies one. A query stands in a pattern only if it shows variables.

The flag of `Operation.written` tells whether a query form is around the operation with nothing but
bindings, orders and graph blocks between: a binding there contributes to the query instead of being
written where it stands.
-/

namespace QueryAlgebra

open Surface (AggregateFunction BinaryOp Builtin UnaryOp)

/-- What an operation is written as. -/
inductive Lifted where
  | elements (elements : List Surface.Pattern)
  | query (query : Surface.Query)

namespace Lifted

/-- The elements of a group in which the operation stands. -/
def asElements : Lifted → Except LiftingError (List Surface.Pattern)
  | .elements patterns => .ok patterns
  | .query (.select inner) => .ok [.subquery inner .none]
  | .query _ => .error (.unwritable .nestedQuery)

/-- The query under a modifier of a given name. -/
def asQuery (modifier : String) : Lifted → Except LiftingError Surface.Query
  | .elements _ => .error (.unwritable (.modifierWithoutQuery modifier))
  | .query asked => .ok asked

/-- The query of a whole request; without a query form it shows all variables. -/
def toQuery : Lifted → Surface.Query
  | .elements patterns =>
    .select ⟨.keep, .all, none, Surface.Pattern.groupOf patterns, Surface.Modifiers.none⟩
  | .query asked => asked

end Lifted

namespace Surface.Query

/-- Leave out repeated solutions, which only a query that shows variables can do. -/
def withDuplicates (duplicates : Surface.Duplicates) (modifier : String) :
    Surface.Query → Except LiftingError Surface.Query
  | .select query => .ok (.select { query with duplicates })
  | _ => .error (.unwritable (.duplicatesWithoutSelect modifier))

/-- Change the clauses after the pattern. -/
def mapModifiers (f : Surface.Modifiers → Surface.Modifiers) : Surface.Query → Surface.Query
  | .select query => .select { query with modifiers := f query.modifiers }
  | .construct query => .construct { query with modifiers := f query.modifiers }
  | .ask query => .ask { query with modifiers := f query.modifiers }
  | .describe query => .describe { query with modifiers := f query.modifiers }

/-- Ask a query of other graphs. -/
def withDataset (dataset : Surface.Dataset) : Surface.Query → Surface.Query
  | .select query => .select { query with dataset := some dataset }
  | .construct query => .construct { query with dataset := some dataset }
  | .ask query => .ask { query with dataset := some dataset }
  | .describe query => .describe { query with dataset := some dataset }

end Surface.Query

/-- Show a part of the solutions; a start of zero is not written. -/
def Surface.Modifiers.sliced (start : Nat) (length : Option Nat) (modifiers : Surface.Modifiers) :
    Surface.Modifiers :=
  { modifiers with
    offset := if start = 0 then modifiers.offset else some start
    limit := length.or modifiers.limit }

/-- The graphs of a dataset. -/
def Surface.Dataset.ofNodes (default named : List NamedNode) : Surface.Dataset :=
  ⟨default.map NamedNode.written, named.map NamedNode.written⟩

/-- Patterns as branches of one another, nested to the left. -/
def Surface.Pattern.unionOf : List Surface.Pattern → List Surface.Pattern
  | [] => []
  | first :: rest => [rest.foldl (fun left right => .union left right .none) first]

/-- The cells of a row under the variables of a header. -/
def Row.written (row : Row) : List Variable → Except LiftingError (List (Option Surface.Term))
  | [] => pure []
  | name :: names => do
    let cell ← match row.find? name.name with
      | some term => some <$> term.written
      | none => pure none
    let cells ← Row.written row names
    pure (cell :: cells)

/-- Rows under the variables of a header. -/
def Row.allWritten (vars : List Variable) :
    List Row → Except LiftingError (List (List (Option Surface.Term)))
  | [] => pure []
  | row :: rest => do
    let cells ← Row.written row vars
    let rows ← allWritten vars rest
    pure (cells :: rows)

namespace Surface.Expression

/-- The error of an operator that has the wrong number of arguments. -/
def wrongArity (name expected : String) : Except LiftingError Surface.Expression :=
  .error (.unwritable (.operatorArity name expected))

/-- An operator that is neither binary nor unary: a special form, or a built-in function in any
capitals. -/
def ofSpecial (name : String) (arguments : List Surface.Expression) :
    Except LiftingError Surface.Expression :=
  if name = "if" then
    match arguments with
    | [condition, positive, negative] => .ok (.ifElse condition positive negative)
    | _ => wrongArity name "3"
  else if name = "coalesce" then .ok (.coalesce arguments)
  else if name = "in" ∨ name = "notin" then
    match arguments with
    | value :: choices => .ok (.among value choices (name == "notin"))
    | [] => wrongArity name "at least 1"
  else if name = "desc" then .error (.unwritable .descendingKey)
  else
    match Builtin.ofAnyCase? name with
    | some function => .ok (.call (.builtin function) arguments false)
    | none => .error (.unwritable (.unknownOperator name))

/-- The application of an operator of a given name. -/
def ofOperator (name : String) (arguments : List Surface.Expression) :
    Except LiftingError Surface.Expression :=
  match BinaryOp.ofName? name with
  | some op =>
    match arguments with
    | [left, right] => .ok (.binary op left right)
    | _ => wrongArity name "2"
  | none =>
    match UnaryOp.ofName? name with
    | some op =>
      match arguments with
      | [operand] => .ok (.unary op operand)
      | _ => wrongArity name "1"
    | none => ofSpecial name arguments

end Surface.Expression

/-- Whether an expression is the wildcard. -/
def Expression.isWildcard : Expression → Bool
  | .wildcard => true
  | _ => false

/-- The aggregate of a name. -/
def aggregateOf (name : String) : Except LiftingError AggregateFunction :=
  match AggregateFunction.ofName? name with
  | some function => .ok function
  | none => .error (.unwritable (.unknownAggregate name))

/-- The elements of a group in which an operation stands. -/
def Collecting.asElements (lifted : Collecting Lifted) : Collecting (List Surface.Pattern) := do
  let lifted ← lifted
  lifted.asElements

/-- The query under a modifier of a given name. -/
def Collecting.asQuery (modifier : String) (lifted : Collecting Lifted) :
    Collecting Surface.Query := do
  let lifted ← lifted
  lifted.asQuery modifier

/-- The clauses of a query form over its pattern. Nothing that is found below the form goes into a
query around it. -/
def Collecting.asScope (lifted : Collecting Lifted) : Except LiftingError QueryScope := do
  let (elements, found) ← lifted.asElements.outcome
  QueryScope.ofFound elements found

mutual

/-- The operation as it is written. -/
def Operation.written (inForm : Bool) : Operation → Collecting Lifted
  | ⟨operator, _⟩ => operator.written inForm

/-- The operator with its inputs as it is written. -/
def Operator.written (inForm : Bool) : Operator → Collecting Lifted
  | .bgp [] => pure (.elements [])
  | .bgp patterns => do
    let triples ← Pattern.allWritten patterns
    pure (.elements [.bgp triples .none])
  | .values vars rows => do
    let rows ← Row.allWritten vars rows
    pure (.elements [.values ⟨vars, rows⟩ .none])
  | .nop => pure (.elements [])
  | .path subject predicate object graph =>
    if graph.isDefaultGraph then do
      let subject ← subject.written
      let predicate ← predicate.written
      let object ← object.written
      pure (.elements [.bgp [⟨.term subject, .path predicate, .term object⟩] .none])
    else Collecting.fail (.unwritable (.pathInGraph graph))
  | .manage action => Collecting.fail (.unexpectedOperation action.typeName)
  | .wrap wrapper input =>
    match wrapper with
    | .project vars => do
      let scope ← (input.written true).asScope
      pure (.query (.select (scope.select (input.shows vars) vars)))
    | .graph name => do
      let name ← name.writtenVarOrIri
      let elements ← (input.written inForm).asElements
      pure (.elements [.graph name (Surface.Pattern.groupOf elements) .none])
    | .service name silent => do
      let endpoint ← name.writtenVarOrIri
      let elements ← (input.written false).asElements
      pure (.elements [.service silent endpoint (Surface.Pattern.groupOf elements) .none])
    | .distinct => do
      let query ← (input.written false).asQuery "distinct"
      let query ← query.withDuplicates .distinct "distinct"
      pure (.query query)
    | .reduced => do
      let query ← (input.written false).asQuery "reduced"
      let query ← query.withDuplicates .reduced "reduced"
      pure (.query query)
    | .slice start length => do
      let query ← (input.written false).asQuery "slice"
      pure (.query (query.mapModifiers (.sliced start length)))
    | .dataset default named => do
      let query ← (input.written false).asQuery "from"
      pure (.query (query.withDataset (.ofNodes default named)))
    | .ask => do
      let scope ← (input.written true).asScope
      pure (.query (.ask scope.ask))
    | .describe terms => do
      let scope ← (input.written true).asScope
      let target ← input.describeTarget terms
      pure (.query (.describe (scope.describe target)))
  | .filter input condition => do
    let elements ← (input.written false).asElements
    let condition ← condition.written
    pure (.elements [.group (elements ++ [.filter condition .none]) .none])
  | .extend input name value =>
    if inForm then do
      Collecting.note [.extension name value.written.outcome]
      input.written true
    else do
      let elements ← (input.written false).asElements
      let value ← value.written
      pure (.elements (elements ++ [.bind value name .none]))
  | .group input keys aggregates => do
    Collecting.note (keys.map .groupKey ++ BoundAggregate.allFound aggregates)
    input.written false
  | .orderBy input keys => do
    Collecting.note (Expression.allOrderKeys keys)
    input.written inForm
  | .construct input template => do
    let scope ← (input.written true).asScope
    let triples ← Pattern.writtenTemplate template
    pure (.query (.construct (scope.construct triples)))
  | .combine how inputs =>
    match how with
    | .join => do
      let parts ← Operation.allElements inputs
      pure (.elements (Surface.Pattern.mergeTriples parts.flatten))
    | .union => do
      let parts ← Operation.allElements inputs
      pure (.elements (Surface.Pattern.unionOf (parts.map Surface.Pattern.groupOf)))
    | .updates => Collecting.fail (.unexpectedOperation "compositeupdate")
  | .leftJoin left right condition => do
    let elements ← (left.written false).asElements
    let optional ← (right.written false).asElements
    let filters ← Expression.optionalFilter condition
    pure (.elements (elements ++ [.optional (.group (optional ++ filters) .none) .none]))
  | .minus left right => do
    let elements ← (left.written false).asElements
    let removed ← (right.written false).asElements
    pure (.elements (elements ++ [.minus (Surface.Pattern.groupOf removed) .none]))
  | .deleteInsert .. => Collecting.fail (.unexpectedOperation "deleteinsert")

/-- The elements of each operation. -/
def Operation.allElements : List Operation → Collecting (List (List Surface.Pattern))
  | [] => pure []
  | operation :: rest => do
    let elements ← (operation.written false).asElements
    let others ← Operation.allElements rest
    pure (elements :: others)

/-- The aggregates that a group contributes. -/
def BoundAggregate.allFound : List BoundAggregate → List Found
  | [] => []
  | ⟨name, expression⟩ :: rest =>
    .aggregate name expression.written.outcome :: BoundAggregate.allFound rest

/-- The keys that an order contributes; only here may a key be descending. -/
def Expression.allOrderKeys : List Expression → List Found
  | [] => []
  | .call (.operator "desc") [argument] :: rest =>
    .orderKey .descending argument.written.outcome :: Expression.allOrderKeys rest
  | key :: rest => .orderKey .ascending key.written.outcome :: Expression.allOrderKeys rest

/-- The filter of a condition, if there is one. -/
def Expression.optionalFilter : Option Expression → Collecting (List Surface.Pattern)
  | none => pure []
  | some condition => do
    let condition ← condition.written
    pure [.filter condition .none]

/-- The expression as it is written. -/
def Expression.written : Expression → Collecting Surface.Expression
  | .term value => value.writtenExpression
  | .call callee arguments => do
    let arguments ← Expression.allWritten arguments
    match callee with
    | .operator name => Surface.Expression.ofOperator name arguments
    | .function name => pure (.call (.named name.written) arguments false)
  | .aggregate name argument distinct separator => do
    let function ← aggregateOf name
    if argument.isWildcard then pure (.aggregate function none distinct separator)
    else
      let argument ← argument.written
      pure (.aggregate function (some argument) distinct separator)
  | .existence negated input => do
    let elements ← (input.written false).asElements
    pure (.existence negated (Surface.Pattern.groupOf elements))
  | .wildcard => Collecting.fail (.unwritable .wildcard)

/-- The expressions as they are written. -/
def Expression.allWritten : List Expression → Collecting (List Surface.Expression)
  | [] => pure []
  | expression :: rest => do
    let written ← expression.written
    let others ← Expression.allWritten rest
    pure (written :: others)

end

end QueryAlgebra
