import QueryAlgebra.Surface.Query
import QueryAlgebra.Traversal

/-! # Writing terms, paths and triples

Not every operation can be written as a request: `LiftingError` says why not.

IRIs are written in full and literals with their datatypes, except plain strings. Sequences and
alternatives are nested to the left. An alternative of negated sets alone is one negated set.
-/

namespace QueryAlgebra

/-! ### Why an operation cannot be written -/

/-- What has no written form. -/
inductive Unwritable where
  | quotedInGraph (graph : Term)
  | defaultGraphTerm
  | notVarOrIri (term : Term)
  | inExpression (term : Term)
  | patternInGraph (graph : Term)
  | pathInGraph (graph : Term)
  | templateInGraph
  | emptyNegatedSet
  | emptyPath
  | unknownAggregate (name : String)
  | unknownOperator (name : String)
  | operatorArity (name expected : String)
  | wildcard
  | descendingKey
  | duplicatesWithoutSelect (kind : String)
  | modifierWithoutQuery (kind : String)
  | nestedQuery
  | severalGraphs
deriving DecidableEq

/-- The text that says what has no written form. -/
def Unwritable.message : Unwritable → String
  | .quotedInGraph graph => "quoted triple in graph " ++ graph.display
  | .defaultGraphTerm => "default graph used as a term"
  | .notVarOrIri term => term.typeName ++ " where a variable or IRI is required"
  | .inExpression term => term.typeName ++ " inside an expression"
  | .patternInGraph graph => "pattern in graph " ++ graph.display ++ " outside a GRAPH block"
  | .pathInGraph graph => "path in graph " ++ graph.display ++ " outside a GRAPH block"
  | .templateInGraph => "CONSTRUCT template pattern in a named graph"
  | .emptyNegatedSet => "empty negated property set"
  | .emptyPath => "path sequence or alternative without members"
  | .unknownAggregate name => "unknown aggregate " ++ name
  | .unknownOperator name => "unknown operator " ++ name
  | .operatorArity name expected => "operator " ++ name ++ " expects " ++ expected ++ " arguments"
  | .wildcard => "wildcard outside an aggregate"
  | .descendingKey => "descending key outside ORDER BY"
  | .duplicatesWithoutSelect kind => kind ++ " over a non-SELECT query"
  | .modifierWithoutQuery kind => kind ++ " without a query form below it"
  | .nestedQuery => "only SELECT queries can be nested in a pattern"
  | .severalGraphs => "ADD/MOVE/COPY take a single graph, not NAMED or ALL"

/-- Why an operation has no request: an operation stands where none of its kind may, something has
no written form, or a traversal failed. -/
inductive LiftingError where
  | unexpectedOperation (kind : String)
  | unwritable (what : Unwritable)
  | traversal (error : TraversalError)
deriving DecidableEq

/-- The text of an error. -/
def LiftingError.message : LiftingError → String
  | .unexpectedOperation kind => "Unexpected " ++ kind ++ " operation"
  | .unwritable what => "Cannot express algebra as SPARQL: " ++ what.message
  | .traversal error => error.message

/-! ### What is written -/

open Surface (NegatedMember VarOrIri)

/-- The IRI of a node. -/
def NamedNode.written (node : NamedNode) : Surface.Iri := ⟨.full node.iri, .none⟩

/-- The literal as it is written. -/
def Literal.written (literal : Literal) : Surface.Literal :=
  match literal.language with
  | some language => .tagged literal.value language
  | none =>
    if literal.datatype.iri == Vocabulary.xsdString then .string literal.value
    else .typed literal.value literal.datatype.written

namespace Term

/-- A term where a variable or IRI has to stand. -/
def writtenVarOrIri : Term → Except LiftingError VarOrIri
  | .var name => .ok (.var name)
  | .iri node => .ok (.iri node.written)
  | other => .error (.unwritable (.notVarOrIri other))

/-- The term as it is written; quoted triples have to stand in the default graph. -/
def written : Term → Except LiftingError Surface.Term
  | .iri node => .ok (.iri node.written)
  | .blank node => .ok (.blank node.label)
  | .literal text => .ok (.literal text.written)
  | .var name => .ok (.var name)
  | .quad subject predicate object graph =>
    if graph.isDefaultGraph then do
      let subject ← subject.written
      let predicate ← predicate.writtenVarOrIri
      let object ← object.written
      pure (.quoted subject predicate object)
    else .error (.unwritable (.quotedInGraph graph))
  | .defaultGraph => .error (.unwritable .defaultGraphTerm)

/-- A term in an expression. -/
def writtenExpression : Term → Except LiftingError Surface.Expression
  | .var name => .ok (.var name)
  | .iri node => .ok (.iri node.written)
  | .literal text => .ok (.literal text.written)
  | other => .error (.unwritable (.inExpression other))

end Term

namespace Pattern

/-- The triple of a pattern, whatever its graph. -/
def writtenTriple (pattern : Pattern) : Except LiftingError Surface.Triple := do
  let subject ← pattern.subject.written
  let predicate ← pattern.predicate.writtenVarOrIri
  let object ← pattern.object.written
  pure ⟨.term subject, .simple predicate, .term object⟩

/-- The triple of a pattern in the default graph. -/
def written (pattern : Pattern) : Except LiftingError Surface.Triple :=
  if pattern.graph.isDefaultGraph then pattern.writtenTriple
  else .error (.unwritable (.patternInGraph pattern.graph))

/-- The triples of patterns in the default graph. -/
def allWritten : List Pattern → Except LiftingError (List Surface.Triple)
  | [] => pure []
  | pattern :: rest => do
    let triple ← pattern.written
    let triples ← allWritten rest
    pure (triple :: triples)

end Pattern

namespace Path

/-- The members of a negated set followed forwards. -/
def forwardMembers (predicates : List NamedNode) : List NegatedMember :=
  predicates.map fun node => .forward node.written

/-- The members of a negated set followed backwards. -/
def inverseMembers (predicates : List NamedNode) : List NegatedMember :=
  predicates.map fun node => .inverse node.written

/-- The members of a path that is a negated set, forwards or backwards. -/
def negatedMembers? : Path → Option (List NegatedMember)
  | .negated predicates => some (forwardMembers predicates)
  | .inverse (.negated predicates) => some (inverseMembers predicates)
  | _ => none

/-- The members of all branches together, if every branch is a negated set. -/
def allNegatedMembers? : List Path → Option (List NegatedMember)
  | [] => some []
  | branch :: rest => do
    let members ← branch.negatedMembers?
    let others ← allNegatedMembers? rest
    pure (members ++ others)

/-- The members of at least two branches that are all negated sets. -/
def mergedNegation? (branches : List Path) : Option (List NegatedMember) :=
  if branches.length < 2 then none else allNegatedMembers? branches

/-- A negated set that has members. -/
def negatedSet (members : List NegatedMember) : Except LiftingError Surface.Path :=
  if members.isEmpty then .error (.unwritable .emptyNegatedSet)
  else .ok (.negated members .none)

/-- Paths nested to the left. -/
def nestLeft (combine : Surface.Path → Surface.Path → Surface.Path) :
    List Surface.Path → Except LiftingError Surface.Path
  | [] => .error (.unwritable .emptyPath)
  | first :: rest => .ok (rest.foldl combine first)

mutual

/-- The path as it is written. -/
def written : Path → Except LiftingError Surface.Path
  | .link predicate => .ok (.iri predicate.written)
  | .inverse (.negated predicates) => negatedSet (inverseMembers predicates)
  | .inverse path => do
    let path ← path.written
    pure (.inverse path .none)
  | .seq steps => do
    let steps ← allWritten steps
    nestLeft (fun left right => .sequence left right .none) steps
  | .alt branches =>
    match mergedNegation? branches with
    | some members => negatedSet members
    | none => do
      let branches ← allWritten branches
      nestLeft (fun left right => .alternative left right .none) branches
  | .zeroOrMore path => do
    let path ← path.written
    pure (.zeroOrMore path .none)
  | .oneOrMore path => do
    let path ← path.written
    pure (.oneOrMore path .none)
  | .zeroOrOne path => do
    let path ← path.written
    pure (.zeroOrOne path .none)
  | .negated predicates => negatedSet (forwardMembers predicates)

/-- The paths as they are written. -/
def allWritten : List Path → Except LiftingError (List Surface.Path)
  | [] => pure []
  | path :: rest => do
    let path ← path.written
    let paths ← allWritten rest
    pure (path :: paths)

end

end Path

end QueryAlgebra
