import QueryAlgebra.Operation.EmbeddedGraphs
import QueryAlgebra.Proofs.Lowering.WellFormedTriples
import QueryAlgebra.Proofs.Operation.WellFormedRebuild

/-! # Operations whose graph names are taken out

Once graph names are taken out of the patterns and paths of a well-formed operation, all of them
stand in the default graph, and the operation is well-formed still. Updates of triples stay as they
are; their patterns are treated when they are written.
-/

namespace QueryAlgebra

variable {bounds : Bounds}

/-- What is no default graph but the graph of a pattern has a name. -/
theorem Term.IsGraph.isName {graph : Term} (isGraph : graph.IsGraph bounds)
    (named : graph.isDefaultGraph = false) : graph.IsName bounds := by
  rcases isGraph with rfl | ⟨_, isName⟩
  · cases named
  · exact isName

theorem Pattern.WellFormed.inDefaultGraph {pattern : Pattern}
    (wellFormed : pattern.WellFormed bounds) : pattern.inDefaultGraph.WellFormed bounds :=
  ⟨wellFormed.subject, wellFormed.predicate, wellFormed.object, .inl rfl⟩

namespace Operation

/-- How the name of a graph is cleared. -/
def clearing (name : Term) : Rebuild :=
  { Rebuild.nothing with
    closed := fun operator => operator.isGraph || operator.isDeleteInsert
    pattern := fun _ pattern => if pattern.graph = name then pattern.inDefaultGraph else pattern
    operation := fun
      | ⟨.path subject predicate object graph, metadata⟩ =>
        ⟨.path subject predicate object (if graph = name then .defaultGraph else graph), metadata⟩
      | other => other }

/-- How the names of all graph blocks are cleared below them. -/
def clearingBlocks : Rebuild :=
  { Rebuild.nothing with
    closed := Operator.isDeleteInsert
    operation := fun
      | ⟨.wrap (.graph name) input, metadata⟩ =>
        ⟨.wrap (.graph name) (input.clearGraph name), metadata⟩
      | other => other }

theorem clearingBlocks_same (operator : Operator) (metadata : Option Metadata)
    (other : operator.isGraph = false) :
    clearingBlocks.operation ⟨operator, metadata⟩ = ⟨operator, metadata⟩ := by
  cases operator with
  | wrap wrapper input => cases wrapper <;> first | rfl | cases other
  | _ => rfl

/-- How patterns and paths of other graphs are put into blocks. -/
def wrapping : Rebuild :=
  { Rebuild.nothing with
    closed := Operator.isDeleteInsert
    operation := fun
      | ⟨.bgp patterns, metadata⟩ => ⟨.splitByGraph patterns, metadata⟩
      | ⟨.path subject predicate object graph, metadata⟩ =>
        if graph.isDefaultGraph then ⟨.path subject predicate object graph, metadata⟩
        else Operation.graph ⟨.path subject predicate object .defaultGraph, metadata⟩ graph
      | other => other }

theorem wrapping_same (operator : Operator) (metadata : Option Metadata)
    (other : operator.isMatching = false) :
    wrapping.operation ⟨operator, metadata⟩ = ⟨operator, metadata⟩ := by
  cases operator with
  | bgp | path => cases other
  | _ => rfl

end Operation

end QueryAlgebra
