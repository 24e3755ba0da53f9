import QueryAlgebra.Lowering.Aggregates
import QueryAlgebra.Lowering.GraphBlocks
import QueryAlgebra.Lowering.Triples
import QueryAlgebra.Operation.EmbeddedGraphs
import QueryAlgebra.Surface.Scope

/-! # Operations of patterns, expressions and subqueries

The elements of a group are joined from left to right, beginning with the empty basic graph
pattern; filters apply to the whole group wherever they stand in it. A query lays its clauses over
its pattern from the inside out: groups and aggregates, HAVING, trailing inline data, computed
variables, order, projection, duplicates, slice and dataset.
-/

namespace QueryAlgebra

/-- The join of two members of a group. Basic graph patterns are merged, and an empty one is left
out. -/
def simplifiedJoin (left right : Operation) : Operation :=
  match left, right with
  | ⟨.bgp first, none⟩, ⟨.bgp second, none⟩ => .bgp (first ++ second)
  | _, _ =>
    if left.isEmptyBgp then right
    else if right.isEmptyBgp then left
    else .join [left, right]

/-- The left join with an optional part, whose filter is the condition. -/
def leftJoinOf (left right : Operation) : Operation :=
  match right with
  | ⟨.filter input condition, none⟩ => .of (.leftJoin left input (some condition))
  | _ => .of (.leftJoin left right none)

/-- The conjunction of conditions, nested to the left. -/
def conjunction? : List Expression → Option Expression
  | [] => none
  | first :: rest => some (rest.foldl (fun all next => .operator "&&" [all, next]) first)

/-- A group with its filters applied. -/
def filtered (operation : Operation) (filters : List Expression) : Operation :=
  match conjunction? filters with
  | some condition => .of (.filter operation condition)
  | none => operation

/-- The name of a test of membership. -/
def membershipName (negated : Bool) : String := if negated then "notin" else "in"

namespace Context

open Surface (Dataset Direction Duplicates Function GroupKey OrderKey Projection SelectItem)

/-- A key in its direction. -/
def orderKey (direction : Direction) (key : Expression) : Expression :=
  match direction with
  | .ascending => key
  | .descending => .operator "desc" [key]

/-- What is called. -/
def callee (context : Context) : Function → Except LoweringError Callee
  | .builtin function => pure (.operator function.name)
  | .named iri => do pure (.function (← context.namedNode iri))

/-- The operation asked of a dataset, if one is given. -/
def overDataset (context : Context) (dataset : Option Dataset) (operation : Operation) :
    Except LoweringError Operation :=
  match dataset with
  | none => pure operation
  | some dataset =>
    if dataset.isEmpty then pure operation
    else do
      let default ← context.namedNodes dataset.default
      let named ← context.namedNodes dataset.named
      pure (.of (.wrap (.dataset default named) operation))

/-- The operation cut to a slice, if one is given. -/
def sliced (limit offset : Option Nat) (operation : Operation) : Operation :=
  if limit.isNone && offset.isNone then operation
  else .of (.wrap (.slice (offset.getD 0) limit) operation)

/-- The operation with computed variables bound. -/
def computed (selected : List (Variable × Option Expression)) (operation : Operation) :
    Operation :=
  selected.foldl
    (fun operation item =>
      match item.2 with
      | some value => .of (.extend operation item.1 value)
      | none => operation)
    operation

/-- The operation with duplicates treated. -/
def withDuplicates (duplicates : Duplicates) (operation : Operation) : Operation :=
  match duplicates with
  | .keep => operation
  | .distinct => .of (.wrap .distinct operation)
  | .reduced => .of (.wrap .reduced operation)

/-- The variables that a SELECT query shows. -/
def shown (context : Context) (projection : Projection) (pattern : Surface.Pattern)
    (values : Option Surface.InlineData) (selected : List (Variable × Option Expression)) :
    List Variable :=
  match projection with
  | .all => (Surface.starVariables (some pattern) values).map context.var
  | .items _ => selected.map (·.1)

/-- The operation with trailing inline data joined in. -/
def joinedWith (context : Context) (values : Option Surface.InlineData) (operation : Operation) :
    Lowering Operation :=
  match values with
  | none => pure operation
  | some data => do
    let table ← context.inlineData data
    pure (.join [operation, table])

mutual

/-- The expression that is written. -/
def expression (context : Context) : Surface.Expression → Lowering Expression
  | .var name => pure (.var (context.var name))
  | .iri iri => do pure (.term (.iri (← context.namedNode iri)))
  | .literal literal => do pure (.term (.literal (← context.literal literal)))
  | .binary op left right => do
    let left ← context.expression left
    let right ← context.expression right
    pure (.operator op.name [left, right])
  | .unary op operand => do
    let operand ← context.expression operand
    pure (.operator op.name [operand])
  | .call function arguments _ => do
    let arguments ← context.expressions arguments
    let callee ← context.callee function
    pure (.call callee arguments)
  | .ifElse condition positive negative => do
    let condition ← context.expression condition
    let positive ← context.expression positive
    let negative ← context.expression negative
    pure (.operator "if" [condition, positive, negative])
  | .coalesce arguments => do
    let arguments ← context.expressions arguments
    pure (.operator "coalesce" arguments)
  | .among value choices negated => do
    let value ← context.expression value
    let choices ← context.expressions choices
    pure (.operator (membershipName negated) (value :: choices))
  | .existence negated pattern => do
    let input ← context.pattern pattern
    pure (.existence negated input)
  | .aggregate function none distinct separator =>
    pure (.aggregate function.name .wildcard distinct separator)
  | .aggregate function (some argument) distinct separator => do
    let argument ← context.expression argument
    pure (.aggregate function.name argument distinct separator)
  | .bracketed inner => context.expression inner

/-- The expressions that are written. -/
def expressions (context : Context) : List Surface.Expression → Lowering (List Expression)
  | [] => pure []
  | first :: rest => do
    let first ← context.expression first
    let rest ← context.expressions rest
    pure (first :: rest)

/-- The operation of a pattern. Some patterns mean something only as elements of a group. -/
def pattern (context : Context) : Surface.Pattern → Lowering Operation
  | .bgp triples _ => context.basicGraphPattern triples
  | .group elements _ => do
    let (operation, filters) ← context.elements elements (.bgp []) []
    pure (filtered operation filters)
  | .union left right _ => do
    let left ← context.pattern left
    let right ← context.pattern right
    pure (.union [left, right])
  | .graph name pattern _ => do
    let input ← context.pattern pattern
    let name ← context.varOrIri name
    let input ← if context.quads then context.embedGraph name input else pure input
    pure (input.graph name)
  | .service silent endpoint pattern _ => do
    let input ← context.pattern pattern
    let name ← context.varOrIri endpoint
    pure (.of (.wrap (.service name silent) input))
  | .values data _ => context.inlineData data
  | .subquery query _ => context.select query
  | .optional _ span => throw (.unexpectedPattern "optional" span)
  | .minus _ span => throw (.unexpectedPattern "minus" span)
  | .filter _ span => throw (.unexpectedPattern "filter" span)
  | .bind _ _ span => throw (.unexpectedPattern "bind" span)

/-- The operation of the elements of a group after those treated so far, and the filters among
all of them. -/
def elements (context : Context) : List Surface.Pattern → Operation → List Expression →
    Lowering (Operation × List Expression)
  | [], operation, filters => pure (operation, filters)
  | .filter condition _ :: rest, operation, filters => do
    let condition ← context.expression condition
    context.elements rest operation (filters ++ [condition])
  | .optional pattern _ :: rest, operation, filters => do
    let right ← context.pattern pattern
    context.elements rest (leftJoinOf operation right) filters
  | .minus pattern _ :: rest, operation, filters => do
    let right ← context.pattern pattern
    context.elements rest (.of (.minus operation right)) filters
  | .bind value name _ :: rest, operation, filters => do
    let value ← context.expression value
    context.elements rest (.of (.extend operation (context.var name) value)) filters
  | element :: rest, operation, filters => do
    let right ← context.pattern element
    context.elements rest (simplifiedJoin operation right) filters

/-- The operation of a SELECT query. -/
def select (context : Context) : Surface.Select → Lowering Operation
  | ⟨duplicates, projection, dataset, pattern, modifiers⟩ => do
    let input ← context.pattern pattern
    let (selected, aggregates) ← (context.projection projection).run []
    let solutions ← context.solutions selected aggregates input modifiers
    let projected := .of (.wrap
      (.project (context.shown projection pattern modifiers.values selected)) solutions)
    context.overDataset dataset
      (sliced modifiers.limit modifiers.offset (withDuplicates duplicates projected))

/-- The listed variables of a projection with their values. -/
def projection (context : Context) :
    Projection → Extracting (List (Variable × Option Expression))
  | .all => pure []
  | .items items => context.selectItems items

/-- The variables of the items of a projection with their values. -/
def selectItems (context : Context) :
    List SelectItem → Extracting (List (Variable × Option Expression))
  | [] => pure []
  | .var name :: rest => do
    let others ← context.selectItems rest
    pure ((context.var name, none) :: others)
  | .computed value name :: rest => do
    let value ← context.expression value
    let value ← context.extractAggregates value
    let others ← context.selectItems rest
    pure ((context.var name, some value) :: others)

/-- The solutions of a query after its clauses: grouped, filtered, joined with inline data, with
computed variables, and ordered. -/
def solutions (context : Context) (selected : List (Variable × Option Expression))
    (aggregates : List BoundAggregate) (input : Operation) :
    Surface.Modifiers → Lowering Operation
  | ⟨groupBy, having, orderBy, _, _, values⟩ => do
    let (having, aggregates) ← (context.conditions having).run aggregates
    let (order, aggregates) ← (context.orderKeys orderBy).run aggregates
    let grouped ←
      match groupBy with
      | some keys => do
        let (input, vars) ← context.groupKeys keys input
        pure (.of (.group input vars aggregates))
      | none =>
        if aggregates.isEmpty then pure input else pure (.of (.group input [] aggregates))
    let filtered :=
      having.foldl (fun operation condition => .of (.filter operation condition)) grouped
    let joined ← context.joinedWith values filtered
    let extended := computed selected joined
    if order.isEmpty then pure extended else pure (.of (.orderBy extended order))

/-- The conditions of a HAVING clause. -/
def conditions (context : Context) : List Surface.Expression → Extracting (List Expression)
  | [] => pure []
  | condition :: rest => do
    let condition ← context.expression condition
    let condition ← context.extractAggregates condition
    let others ← context.conditions rest
    pure (condition :: others)

/-- The keys of an ORDER BY clause. -/
def orderKeys (context : Context) : List OrderKey → Extracting (List Expression)
  | [] => pure []
  | .var name direction :: rest => do
    let others ← context.orderKeys rest
    pure (orderKey direction (.var (context.var name)) :: others)
  | .computed value direction :: rest => do
    let value ← context.expression value
    let value ← context.extractAggregates value
    let others ← context.orderKeys rest
    pure (orderKey direction value :: others)

/-- The operation with the keys of a GROUP BY clause bound, and the variables of the keys. -/
def groupKeys (context : Context) : List GroupKey → Operation →
    Lowering (Operation × List Variable)
  | [], operation => pure (operation, [])
  | .var name :: rest, operation => do
    let (operation, vars) ← context.groupKeys rest operation
    pure (operation, context.var name :: vars)
  | .computed value name :: rest, operation => do
    let value ← context.expression value
    let name ←
      match name with
      | some name => pure (context.var name)
      | none => context.newVariable
    let (operation, vars) ← context.groupKeys rest (.of (.extend operation name value))
    pure (operation, name :: vars)

end

end Context

end QueryAlgebra
