import QueryAlgebra.Lowering.Context
import QueryAlgebra.Node.OwnTerms

/-! # Putting the name of a graph block into its patterns

Every pattern and path of a graph block that names no graph yet gets the name of the block. Where
the name is a variable that a projection hides or a binding sets anew, what stands below means
another variable; below a projection that does not show the name, and below a binding of it, the
name is replaced by a new variable. The replacement goes on through graph and service blocks
inside, whose patterns keep their graphs.
-/

namespace QueryAlgebra

/-- How the name of a graph block goes into what is inside: whether it becomes the graph of
patterns that have none, and the variable that replaces its other occurrences, if any. -/
structure Embedding where
  name : Term
  replacement : Option Variable
  fills : Bool
deriving DecidableEq

namespace Embedding

/-- Replace an occurrence of the name. -/
def substitute (embedding : Embedding) (term : Term) : Term :=
  match embedding.replacement with
  | some new => if term = embedding.name then .var new else term
  | none => term

/-- The graph of a pattern or path. -/
def graph (embedding : Embedding) (graph : Term) : Term :=
  if embedding.fills && graph.isDefaultGraph then embedding.name else embedding.substitute graph

/-- A pattern inside. -/
def pattern (embedding : Embedding) (pattern : Pattern) : Pattern :=
  ⟨embedding.substitute pattern.subject, embedding.substitute pattern.predicate,
    embedding.substitute pattern.object, embedding.graph pattern.graph⟩

/-- Replace the name among the terms of a wrapper. -/
def wrapper (embedding : Embedding) (wrapper : Wrapper) : Wrapper :=
  match embedding.replacement with
  | some _ => wrapper.mapOwnTerms embedding.substitute
  | none => wrapper

/-- Replace the name among variables. -/
def var (embedding : Embedding) (name : Variable) : Variable :=
  match embedding.replacement with
  | some _ => name.mapTerm embedding.substitute
  | none => name

/-- Replace the name in a row. -/
def row (embedding : Embedding) (row : Row) : Row :=
  match embedding.replacement with
  | some _ => mapRow embedding.substitute row
  | none => row

/-- Whether nothing inside an operator changes. -/
def isIdle (embedding : Embedding) (nested : Bool) : Bool :=
  embedding.replacement.isNone && (nested || !embedding.fills)

/-- The embedding below a graph or service block. -/
def inside (embedding : Embedding) (nested : Bool) : Embedding :=
  { embedding with fills := embedding.fills && !nested }

end Embedding

/-- Whether an operator says where the patterns inside it are matched. -/
def Operator.setsGraph : Operator → Bool
  | .wrap (.graph _) _ => true
  | .wrap (.service ..) _ => true
  | _ => false

namespace Context

/-- The embedding below an operator that hides the name if `hidden`. -/
def shadow (context : Context) (embedding : Embedding) (hidden : Bool) : Lowering Embedding :=
  if hidden && embedding.replacement.isNone then do
    let new ← context.newVariable
    pure { embedding with replacement := some new }
  else pure embedding

mutual

/-- Put the name into an operation. -/
def embed (context : Context) (embedding : Embedding) : Operation → Lowering Operation
  | ⟨operator, metadata⟩ =>
    if embedding.isIdle operator.setsGraph then pure ⟨operator, metadata⟩
    else do
      let operator ← context.embedOperator (embedding.inside operator.setsGraph) operator
      pure ⟨operator, metadata⟩

/-- Put the name into the parts of an operator. Without a replacement, a projection and a binding
change their input alone. -/
def embedOperator (context : Context) (embedding : Embedding) : Operator → Lowering Operator
  | .bgp patterns => pure (.bgp (patterns.map embedding.pattern))
  | .values vars rows =>
    pure (.values (vars.map embedding.var) (rows.map embedding.row))
  | .nop => pure .nop
  | .path subject predicate object graph =>
    pure (.path (embedding.substitute subject) predicate (embedding.substitute object)
      (embedding.graph graph))
  | .manage action => pure (.manage action)
  | .wrap (.project vars) input => do
    let below ← context.shadow embedding (!vars.any fun name => .var name == embedding.name)
    let input ← context.embed below input
    pure (.wrap (embedding.wrapper (.project vars)) input)
  | .wrap wrapper input => do
    let input ← context.embed embedding input
    pure (.wrap (embedding.wrapper wrapper) input)
  | .filter input condition => do
    let input ← context.embed embedding input
    let condition ← context.embedExpression embedding condition
    pure (.filter input condition)
  | .extend input name value => do
    let below ← context.shadow embedding (.var name == embedding.name)
    let input ← context.embed below input
    let value ←
      if embedding.replacement.isNone then pure value
      else context.embedExpression embedding value
    pure (.extend input (embedding.var name) value)
  | .group input keys aggregates => do
    let input ← context.embed embedding input
    let aggregates ← context.embedAggregates embedding aggregates
    pure (.group input (keys.map embedding.var) aggregates)
  | .orderBy input keys => do
    let input ← context.embed embedding input
    let keys ← context.embedExpressions embedding keys
    pure (.orderBy input keys)
  | .construct input template => do
    let input ← context.embed embedding input
    pure (.construct input (template.map embedding.pattern))
  | .combine how inputs => do
    let inputs ← context.embedAll embedding inputs
    pure (.combine how inputs)
  | .leftJoin left right none => do
    let left ← context.embed embedding left
    let right ← context.embed embedding right
    pure (.leftJoin left right none)
  | .leftJoin left right (some condition) => do
    let left ← context.embed embedding left
    let right ← context.embed embedding right
    let condition ← context.embedExpression embedding condition
    pure (.leftJoin left right (some condition))
  | .minus left right => do
    let left ← context.embed embedding left
    let right ← context.embed embedding right
    pure (.minus left right)
  | .deleteInsert delete insert none =>
    pure (.deleteInsert (delete.map (·.map embedding.pattern))
      (insert.map (·.map embedding.pattern)) none)
  | .deleteInsert delete insert (some scope) => do
    let scope ← context.embed embedding scope
    pure (.deleteInsert (delete.map (·.map embedding.pattern))
      (insert.map (·.map embedding.pattern)) (some scope))

/-- Put the name into an expression. -/
def embedExpression (context : Context) (embedding : Embedding) :
    Expression → Lowering Expression
  | .term value => pure (.term (embedding.substitute value))
  | .call callee arguments => do
    let arguments ← context.embedExpressions embedding arguments
    pure (.call callee arguments)
  | .aggregate name argument distinct separator => do
    let argument ← context.embedExpression embedding argument
    pure (.aggregate name argument distinct separator)
  | .existence negated input => do
    let input ← context.embed embedding input
    pure (.existence negated input)
  | .wildcard => pure .wildcard

/-- Put the name into a list of operations. -/
def embedAll (context : Context) (embedding : Embedding) :
    List Operation → Lowering (List Operation)
  | [] => pure []
  | operation :: rest => do
    let operation ← context.embed embedding operation
    let operations ← context.embedAll embedding rest
    pure (operation :: operations)

/-- Put the name into a list of expressions. -/
def embedExpressions (context : Context) (embedding : Embedding) :
    List Expression → Lowering (List Expression)
  | [] => pure []
  | expression :: rest => do
    let expression ← context.embedExpression embedding expression
    let expressions ← context.embedExpressions embedding rest
    pure (expression :: expressions)

/-- Put the name into the aggregates of a group. -/
def embedAggregates (context : Context) (embedding : Embedding) :
    List BoundAggregate → Lowering (List BoundAggregate)
  | [] => pure []
  | ⟨name, expression⟩ :: rest => do
    let expression ← context.embedExpression embedding expression
    let aggregates ← context.embedAggregates embedding rest
    pure (⟨embedding.var name, expression⟩ :: aggregates)

end

/-- The operation of a graph block with its name in its patterns. -/
def embedGraph (context : Context) (name : Term) (operation : Operation) : Lowering Operation :=
  context.embed ⟨name, none, true⟩ operation

end Context

end QueryAlgebra
