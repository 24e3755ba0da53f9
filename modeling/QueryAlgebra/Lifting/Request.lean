import QueryAlgebra.Lifting.Operation
import QueryAlgebra.Operation.EmbeddedGraphs

/-! # Writing requests

`Operation.lift` writes an operation as a request without declarations, every IRI in full. The names
of graphs are taken out of patterns first. Updates are written one after another, and whatever is no
update is written as a query.

A template without a pattern to match is data, or deletes what matches the template itself if it has
variables.
-/

namespace QueryAlgebra

open Surface (QuadBlock)

/-- The name of a block of triples; the default graph is not named. -/
def Term.writtenBlockName (graph : Term) : Except LiftingError (Option Surface.VarOrIri) :=
  if graph.isDefaultGraph then .ok none else some <$> graph.writtenVarOrIri

namespace Pattern

/-- The triples of patterns with the graphs that they stand in. -/
def writtenQuads : List Pattern → Except LiftingError (List (Term × Surface.Triple))
  | [] => pure []
  | pattern :: rest => do
    let triple ← pattern.writtenTriple
    let triples ← writtenQuads rest
    pure ((pattern.graph, triple) :: triples)

/-- The blocks of graphs with the triples that stand in each. -/
def blocksOf (quads : List (Term × Surface.Triple)) :
    List Term → Except LiftingError (List QuadBlock)
  | [] => pure []
  | graph :: rest => do
    let name ← graph.writtenBlockName
    let blocks ← blocksOf quads rest
    pure (⟨name, (quads.filter fun quad => quad.1 = graph).map (·.2)⟩ :: blocks)

/-- A template as one block for each graph, in the order in which the graphs are first met. -/
def writtenBlocks (patterns : List Pattern) : Except LiftingError (List QuadBlock) := do
  let quads ← writtenQuads patterns
  blocksOf quads (patterns.map graph).eraseDups

/-- A template that may be absent. -/
def optionalBlocks : Option (List Pattern) → Except LiftingError (Option (List QuadBlock))
  | none => pure none
  | some patterns => some <$> writtenBlocks patterns

/-- Whether a variable stands anywhere in a pattern. -/
def hasVariable (pattern : Pattern) : Bool := pattern.nestedTerms.any (·.isVariable)

end Pattern

namespace GraphTarget

/-- The graphs to be emptied. -/
def written : GraphTarget → Surface.ClearTarget
  | .default => .default
  | .named => .named
  | .all => .all
  | .graph name => .graph name.written

/-- One graph. -/
def writtenSingle : GraphTarget → Except LiftingError Surface.GraphOrDefault
  | .default => .ok .default
  | .graph name => .ok (.graph name.written)
  | _ => .error (.unwritable .severalGraphs)

end GraphTarget

/-- An update of whole graphs. -/
def GraphAction.written : GraphAction → Except LiftingError Surface.Update
  | .load source destination silent =>
    .ok (.load silent source.written (destination.map NamedNode.written))
  | .clear target silent => .ok (.clear silent target.written)
  | .drop target silent => .ok (.drop silent target.written)
  | .create graph silent => .ok (.create silent graph.written)
  | .transfer how source destination silent => do
    let source ← source.writtenSingle
    let destination ← destination.writtenSingle
    pure (.transfer how silent source destination)

namespace Operation

/-- The operation with no graph named in its patterns and paths. -/
def withoutGraphs (operation : Operation) : Except LiftingError Operation :=
  match operation.removeEmbeddedGraphs with
  | .ok cleared => .ok cleared
  | .error error => .error (.traversal error)

/-- The dataset that an operation is asked of, and the operation itself. -/
def splitDataset : Operation → Option Surface.Dataset × Operation
  | ⟨.wrap (.dataset default named) input, _⟩ => (some (.ofNodes default named), input)
  | operation => (none, operation)

/-- The dataset and the pattern of an update; the empty pattern need not be written. -/
def updateScope : Option Operation → Option Surface.Dataset × Option Operation
  | none => (none, none)
  | some operation =>
    let (dataset, input) := operation.splitDataset
    (dataset, if input.isEmptyBgp then none else some input)

/-- Whether an operation matches exactly the patterns of a template. -/
def isBgpOf (template : List Pattern) : Operation → Bool
  | ⟨.bgp patterns, _⟩ => patterns = template
  | _ => false

/-- The pattern of an update. -/
def writtenWhere : Option Operation → Except LiftingError Surface.Pattern
  | none => .ok (Surface.Pattern.groupOf [])
  | some input => do
    let input ← input.withoutGraphs
    let (elements, _) ← (input.written false).asElements.outcome
    pure (Surface.Pattern.groupOf elements)

/-- An update of triples by the solutions of a pattern. -/
def writtenModify (dataset : Option Surface.Dataset) (delete insert : Option (List Pattern))
    (input : Option Operation) : Except LiftingError Surface.Update := do
  let pattern ← writtenWhere input
  let delete ← Pattern.optionalBlocks delete
  let insert ← Pattern.optionalBlocks insert
  pure (.modify ⟨none, dataset, delete, insert, pattern, .none⟩)

/-- An update of triples. Without a pattern it is about data, and a template that is also the
pattern is written once. -/
def writtenDeleteInsert (delete insert : Option (List Pattern)) (scope : Option Operation) :
    Except LiftingError Surface.Update :=
  let (dataset, input) := updateScope scope
  match delete, insert, input with
  | none, insert, none => do
    let blocks ← Pattern.writtenBlocks (insert.getD [])
    pure (.insertData blocks .none)
  | some template, none, none => do
    let blocks ← Pattern.writtenBlocks template
    pure (if template.any (·.hasVariable) then .deleteWhere blocks .none
      else .deleteData blocks .none)
  | some template, none, some pattern =>
    if dataset.isNone && pattern.isBgpOf template then do
      let blocks ← Pattern.writtenBlocks template
      pure (.deleteWhere blocks .none)
    else writtenModify dataset delete insert input
  | _, _, _ => writtenModify dataset delete insert input

/-- An operation as one update. -/
def writtenUpdate : Operation → Except LiftingError Surface.Update
  | ⟨.deleteInsert delete insert scope, _⟩ => writtenDeleteInsert delete insert scope
  | ⟨.manage action, _⟩ => action.written
  | ⟨operator, _⟩ => .error (.unexpectedOperation operator.typeName)

/-- Operations as updates without declarations. -/
def writtenUnits : List Operation → Except LiftingError (List Surface.UpdateUnit)
  | [] => pure []
  | operation :: rest => do
    let update ← operation.writtenUpdate
    let units ← writtenUnits rest
    pure (⟨.none, update⟩ :: units)

/-- The updates of an operation, of which there are none if it does nothing. -/
def updates : Operation → List Operation
  | ⟨.nop, _⟩ => []
  | ⟨.combine .updates inputs, _⟩ => inputs
  | operation => [operation]

/-- The body of the request that an operation without embedded graphs is written as. -/
def writtenBody (operation : Operation) : Except LiftingError Surface.Body :=
  if operation.operator.isUpdate then do
    let units ← writtenUnits operation.updates
    pure (.update units)
  else do
    let (lifted, _) ← (operation.written false).outcome
    pure (.query lifted.toQuery)

/-- Write an operation as a request. -/
def lift (operation : Operation) : Except LiftingError Surface.Request := do
  let operation ← operation.withoutGraphs
  let body ← operation.writtenBody
  pure ⟨.none, body⟩

end Operation

end QueryAlgebra
