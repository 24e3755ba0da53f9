import QueryAlgebra.Node
import QueryAlgebra.Operation.Walk
import QueryAlgebra.Traversal

/-! # Taking graph names out of patterns

A pattern or path may name the graph that it is matched in, although it stands in a graph block of
that name. `Operation.withoutEmbeddedGraphs` puts such patterns back into the default graph, and
puts patterns of other graphs into graph blocks of their own. Updates of triples are left alone.
-/

namespace QueryAlgebra

namespace Pattern

/-- The pattern in the default graph. -/
def inDefaultGraph (pattern : Pattern) : Pattern := { pattern with graph := .defaultGraph }

/-- The graphs of patterns in the order in which they are first met, each with its patterns. -/
def byGraph (patterns : List Pattern) : List (Term × List Pattern) :=
  (patterns.map graph).eraseDups.map fun name =>
    (name, patterns.filter fun pattern => pattern.graph = name)

end Pattern

/-- A graph block. -/
def Operation.graph (input : Operation) (name : Term) : Operation :=
  .of (.wrap (.graph name) input)

/-- Put the patterns and paths that name a graph into the default graph, outside the graph blocks
below. -/
def Operation.clearGraph (name : Term) (operation : Operation) : Operation :=
  operation.rebuild
    { Rebuild.nothing with
      closed := fun operator => operator.isGraph || operator.isDeleteInsert
      pattern := fun _ pattern => if pattern.graph = name then pattern.inDefaultGraph else pattern
      operation := fun
        | ⟨.path subject predicate object graph, metadata⟩ =>
          ⟨.path subject predicate object (if graph = name then .defaultGraph else graph), metadata⟩
        | other => other }

/-- Clear the name of every graph block below it. -/
def Operation.clearBlockGraphs (operation : Operation) : Operation :=
  operation.rebuild
    { Rebuild.nothing with
      closed := Operator.isDeleteInsert
      operation := fun
        | ⟨.wrap (.graph name) input, metadata⟩ =>
          ⟨.wrap (.graph name) (input.clearGraph name), metadata⟩
        | other => other }

/-- The basic graph pattern of patterns that are matched in one graph. -/
def Operation.ofGraphPart (part : Term × List Pattern) : Operation :=
  let patterns := Operation.bgp (part.2.map Pattern.inDefaultGraph)
  if part.1.isDefaultGraph then patterns else patterns.graph part.1

/-- Split patterns into one part for each graph. -/
def Operator.splitByGraph (patterns : List Pattern) : Operator :=
  if patterns.all (·.graph.isDefaultGraph) then .bgp patterns
  else
    match (Pattern.byGraph patterns).map Operation.ofGraphPart with
    | [part] => part.operator
    | parts => (Operation.join parts).operator

/-- Put patterns and paths that still name a graph into graph blocks. -/
def Operation.wrapForeignGraphs (operation : Operation) : Operation :=
  operation.rebuild
    { Rebuild.nothing with
      closed := Operator.isDeleteInsert
      operation := fun
        | ⟨.bgp patterns, metadata⟩ => ⟨.splitByGraph patterns, metadata⟩
        | ⟨.path subject predicate object graph, metadata⟩ =>
          if graph.isDefaultGraph then ⟨.path subject predicate object graph, metadata⟩
          else Operation.graph ⟨.path subject predicate object .defaultGraph, metadata⟩ graph
        | other => other }

/-- The operation with no graph named in its patterns and paths. -/
def Operation.withoutEmbeddedGraphs (operation : Operation) : Operation :=
  operation.clearBlockGraphs.wrapForeignGraphs

/-- The operation with no graph named in its patterns and paths, if it fits on the stack of the
traversal. -/
def Operation.removeEmbeddedGraphs (operation : Operation) : Except TraversalError Operation := do
  (Node.operation operation).checkFits fun kind =>
    if kind = .deleteInsert then .leave else .descend
  pure operation.withoutEmbeddedGraphs

end QueryAlgebra
