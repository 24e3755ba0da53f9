import QueryAlgebra.Lowering.BlankNodes
import QueryAlgebra.Lowering.Pattern

/-! # Operations of requests

A query form is laid over the solutions of its clauses. The updates of a request are treated in
their order, each with all declarations before it; updates of triples need graph names in patterns,
because their templates carry them.
-/

namespace QueryAlgebra

/-- The triples of a pattern that is its own template. -/
def Surface.Pattern.triples : Surface.Pattern → List Surface.Triple
  | .bgp triples _ => triples
  | .group elements _ => ofElements elements
  | _ => []
where
  /-- The triples of the elements of a group. -/
  ofElements : List Surface.Pattern → List Surface.Triple
    | [] => []
    | element :: rest => Surface.Pattern.triples element ++ ofElements rest

namespace Context

open Surface (Ask Body ClearTarget Construct Dataset Describe DescribeTarget GraphOrDefault Modify
  QuadBlock Query Request Update UpdateUnit VarOrIri)

/-! ### Queries -/

/-- The operation of a CONSTRUCT query. -/
def construct (context : Context) (query : Construct) : Lowering Operation := do
  let input ← context.pattern query.pattern
  let solutions ← context.solutions [] [] input query.modifiers
  let template ←
    context.template context.factory.defaultGraph (query.template.getD query.pattern.triples)
  context.overDataset query.dataset
    (sliced query.modifiers.limit query.modifiers.offset (.of (.construct solutions template)))

/-- The operation of an ASK query. -/
def ask (context : Context) (query : Ask) : Lowering Operation := do
  let input ← context.pattern query.pattern
  let solutions ← context.solutions [] [] input query.modifiers
  context.overDataset query.dataset
    (sliced query.modifiers.limit query.modifiers.offset (.of (.wrap .ask solutions)))

/-- The terms of a list of variables and IRIs. -/
def resources (context : Context) : List VarOrIri → Except LoweringError (List Term)
  | [] => pure []
  | resource :: rest => do
    let term ← context.varOrIri resource
    let terms ← context.resources rest
    pure (term :: terms)

/-- The terms that a DESCRIBE query is about. -/
def described (context : Context) (query : Describe) : Except LoweringError (List Term) :=
  match query.target with
  | .all =>
    pure ((Surface.starVariables query.pattern query.modifiers.values).map fun name =>
      .var (context.var name))
  | .resources resources => context.resources resources

/-- The operation of a DESCRIBE query. -/
def describe (context : Context) (query : Describe) : Lowering Operation := do
  let input ←
    match query.pattern with
    | some pattern => context.pattern pattern
    | none => pure (.bgp [])
  let solutions ← context.solutions [] [] input query.modifiers
  let terms ← context.described query
  context.overDataset query.dataset
    (sliced query.modifiers.limit query.modifiers.offset (.of (.wrap (.describe terms) solutions)))

/-! ### Updates -/

/-- Fail unless graph names go into patterns. -/
def requireQuads (context : Context) (span : Surface.Span) : Except LoweringError Unit :=
  if context.quads then .ok () else .error (.quadsRequired span)

/-- The patterns of the blocks of a template; those without a graph go into the given one. -/
def quadPatterns (context : Context) (graph : Term) : List QuadBlock → Lowering (List Pattern)
  | [] => pure []
  | block :: rest => do
    let blockGraph ←
      match block.graph with
      | some name => context.varOrIri name
      | none => pure graph
    let patterns ← context.template blockGraph block.triples
    let others ← context.quadPatterns graph rest
    pure (patterns ++ others)

/-- A template, unless it has no patterns. -/
def nonEmpty? (patterns : List Pattern) : Option (List Pattern) :=
  if patterns.isEmpty then none else some patterns

/-- The graphs to be emptied. -/
def clearTarget (context : Context) : ClearTarget → Except LoweringError GraphTarget
  | .default => pure .default
  | .named => pure .named
  | .all => pure .all
  | .graph iri => do pure (.graph (← context.namedNode iri))

/-- One graph. -/
def graphOrDefault (context : Context) : GraphOrDefault → Except LoweringError GraphTarget
  | .default => pure .default
  | .graph iri => do pure (.graph (← context.namedNode iri))

/-- The node of an IRI that may be absent. -/
def optionalNode (context : Context) : Option Surface.Iri → Except LoweringError (Option NamedNode)
  | none => pure none
  | some iri => do pure (some (← context.namedNode iri))

/-- Whether a pattern is a group or basic graph pattern without members. -/
def isEmptyPattern : Surface.Pattern → Bool
  | .group [] _ => true
  | .bgp [] _ => true
  | _ => false

/-- The operation that an update takes its solutions from: asked of a dataset if one is named, else
within the graph of the update. -/
def scopeOf (context : Context) (dataset : Option Dataset) (graph : Option Term)
    (operation : Operation) : Lowering Operation :=
  match dataset.filter (!·.isEmpty), graph with
  | some dataset, _ => do context.overDataset (some dataset) operation
  | none, some graph => context.embedGraph graph operation
  | none, none => pure operation

/-- The operation of an update of triples by a pattern. -/
def modify (context : Context) (update : Modify) : Lowering Operation := do
  context.requireQuads update.span
  let graph ← context.optionalNode update.withGraph
  let graph := graph.map Term.iri
  let templateGraph := graph.getD context.factory.defaultGraph
  let delete ← context.quadPatterns templateGraph (update.delete.getD [])
  let insert ← context.quadPatterns templateGraph (update.insert.getD [])
  let scope ←
    if isEmptyPattern update.pattern then pure none
    else do
      let operation ← context.pattern update.pattern
      let operation ← context.scopeOf update.dataset graph operation
      pure (some operation)
  pure (.of (.deleteInsert (nonEmpty? delete) (nonEmpty? insert) scope))

/-- The operation of an update. -/
def update (context : Context) : Update → Lowering Operation
  | .insertData quads span => do
    context.requireQuads span
    let insert ← context.quadPatterns context.factory.defaultGraph quads
    pure (.of (.deleteInsert none (nonEmpty? insert) none))
  | .deleteData quads span => do
    context.requireQuads span
    let delete ← context.quadPatterns context.factory.defaultGraph quads
    pure (.of (.deleteInsert (nonEmpty? delete) none none))
  | .deleteWhere quads span => do
    context.requireQuads span
    let delete ← context.quadPatterns context.factory.defaultGraph quads
    pure (.of (.deleteInsert (nonEmpty? delete) none (some (.bgp delete))))
  | .modify update => context.modify update
  | .load silent source destination => do
    let source ← context.namedNode source
    let destination ← context.optionalNode destination
    pure (.of (.manage (.load source destination silent)))
  | .clear silent target => do
    let target ← context.clearTarget target
    pure (.of (.manage (.clear target silent)))
  | .drop silent target => do
    let target ← context.clearTarget target
    pure (.of (.manage (.drop target silent)))
  | .create silent graph => do
    let graph ← context.namedNode graph
    pure (.of (.manage (.create graph silent)))
  | .transfer how silent source destination => do
    let source ← context.graphOrDefault source
    let destination ← context.graphOrDefault destination
    pure (.of (.manage (.transfer how source destination silent)))

/-- The operations of the updates of a request, each after its declarations. -/
def updates (context : Context) : List UpdateUnit → Lowering (List Operation)
  | [] => pure []
  | unit :: rest => do
    let context ← context.declare unit.prologue
    let operation ← context.update unit.update
    let operations ← context.updates rest
    pure (operation :: operations)

/-- The operation of the updates of a request. -/
def updateSequence : List Operation → Operation
  | [] => .nop
  | [operation] => operation
  | operations => .of (.combine .updates operations)

/-- The operation of a query. -/
def query (context : Context) : Query → Lowering Operation
  | .select query => context.select query
  | .construct query => context.construct query
  | .ask query => context.ask query
  | .describe query => context.describe query

/-- The operation of what a request asks for. -/
def body (context : Context) : Body → Lowering Operation
  | .query query => context.query query
  | .update units => do
    let operations ← context.updates units
    pure (updateSequence operations)

/-- The operation of a request, with blank nodes turned into variables if asked. -/
def request (context : Context) (blankToVariable : Bool) (request : Request) :
    Lowering Operation := do
  let context ← context.declare request.prologue
  let operation ← context.body request.body
  if blankToVariable then context.blanksToVariables operation else pure operation

end Context

/-- The operation of a request whose terms a factory makes. -/
def Surface.Request.lowerWith (factory : TermFactory) (options : Options)
    (request : Surface.Request) : Except LoweringError Operation :=
  match (Context.ofOptions factory options).request options.blankToVariable request
      (.ofNames request.names) with
  | .ok operation _ => .ok operation
  | .error error _ => .error error

/-- The operation of a request. -/
def Surface.Request.lower (options : Options) (request : Surface.Request) :
    Except LoweringError Operation :=
  request.lowerWith .plain options

end QueryAlgebra
