import QueryAlgebra.Iri
import QueryAlgebra.Lowering.Names
import QueryAlgebra.Options
import QueryAlgebra.Term
import QueryAlgebra.Traversal

/-! # Terms of a request

What holds while a request becomes an operation: the factory of terms, the prefixes and the base
declared so far, and whether graph names are put into patterns. IRIs and literals depend on these
alone; anonymous blank nodes need new labels from the supply.
-/

namespace QueryAlgebra

/-- What is wrong with a property path. -/
inductive PathProblem where
  | emptyNegatedSet
  | inTemplate
deriving DecidableEq

/-- The text of a problem. -/
def PathProblem.message : PathProblem → String
  | .emptyNegatedSet => "negated property set must not be empty"
  | .inTemplate => "property paths are not allowed in templates"

/-- Why a request has no operation. -/
inductive LoweringError where
  | unknownPrefix (label : String) (span : Surface.Span)
  | relativeIri (iri : String) (span : Surface.Span)
  | quadsRequired (span : Surface.Span)
  | unexpectedPattern (kind : String) (span : Surface.Span)
  | invalidPath (problem : PathProblem) (span : Surface.Span)
  | traversal (error : TraversalError)
deriving DecidableEq

namespace LoweringError

/-- The text of an error. -/
def message : LoweringError → String
  | .unknownPrefix label _ => "Unknown prefix: " ++ label
  | .relativeIri iri _ =>
    "Cannot resolve relative IRI " ++ iri ++ " because no base IRI was set."
  | .quadsRequired _ => "INSERT/DELETE operations are only supported with quads option enabled"
  | .unexpectedPattern kind span =>
    "Unexpected " ++ kind ++ " node at position " ++ toString span.start
  | .invalidPath problem _ => "Invalid property path: " ++ problem.message
  | .traversal error => error.message

/-- The range that an error points at, unless it belongs to no text. -/
def span? : LoweringError → Option Surface.Span
  | .unknownPrefix _ span => shown span
  | .relativeIri _ span => shown span
  | .quadsRequired span => shown span
  | .unexpectedPattern _ span => shown span
  | .invalidPath _ span => shown span
  | .traversal _ => none
where
  /-- A range that belongs to a text. -/
  shown (span : Surface.Span) : Option Surface.Span := if span.isNone then none else some span

end LoweringError

/-- Steps that take names from the supply and may fail. -/
abbrev Lowering := EStateM LoweringError NameSupply

instance : MonadLift (Except LoweringError) Lowering where
  monadLift
    | .ok value => pure value
    | .error error => throw error

/-- Pass on the failure of a traversal. -/
def Lowering.ofTraversal (result : Except TraversalError Unit) : Lowering Unit :=
  match result with
  | .ok () => pure ()
  | .error error => throw (.traversal error)

/-- What holds for the terms of a request. -/
structure Context where
  factory : TermFactory
  quads : Bool
  prefixes : NameMap String
  base : Option String

namespace Context

open Surface (Prologue VarOrIri)

/-- The context before the declarations of a request. -/
def ofOptions (factory : TermFactory) (options : Options) : Context :=
  ⟨factory, options.quads, options.prefixes, options.base⟩

/-- The absolute form of an IRI. -/
def resolve (context : Context) (iri : String) (span : Surface.Span) :
    Except LoweringError String :=
  match Iri.resolve? context.base iri with
  | some absolute => .ok absolute
  | none => .error (.relativeIri iri span)

/-- Let a prefix stand for an IRI. -/
def declarePrefix (context : Context) (declaration : Surface.PrefixDeclaration) :
    Except LoweringError Context := do
  let iri ← context.resolve declaration.iri declaration.span
  pure { context with prefixes := context.prefixes.insert declaration.label iri }

/-- Add declarations. The base comes first, so that prefixes may be relative to it. -/
def declare (context : Context) (prologue : Prologue) : Except LoweringError Context := do
  let context ←
    match prologue.base with
    | none => pure context
    | some declaration => do
      let base ← context.resolve declaration.iri declaration.span
      pure { context with base := some base }
  prologue.prefixes.foldlM declarePrefix context

/-- The node of a vocabulary's IRI. -/
def vocabulary (context : Context) (iri : String) : Term := .iri (context.factory.namedNode iri)

/-- The term of a variable. -/
def var (context : Context) (name : Variable) : Variable := context.factory.var name.name

/-- The node of an IRI. -/
def namedNode (context : Context) (iri : Surface.Iri) : Except LoweringError NamedNode := do
  let text ←
    match iri.text with
    | .full text => pure text
    | .abbreviated label rest =>
      match context.prefixes.find? label with
      | some namespaceIri => pure (namespaceIri ++ rest)
      | none => .error (.unknownPrefix label iri.span)
  let absolute ← context.resolve text iri.span
  pure (context.factory.namedNode absolute)

/-- The nodes of a list of IRIs. -/
def namedNodes (context : Context) : List Surface.Iri → Except LoweringError (List NamedNode)
  | [] => pure []
  | iri :: rest => do
    let node ← context.namedNode iri
    let nodes ← context.namedNodes rest
    pure (node :: nodes)

/-- The term of a variable or IRI. -/
def varOrIri (context : Context) : VarOrIri → Except LoweringError Term
  | .var name => pure (.var (context.var name))
  | .iri iri => do pure (.iri (← context.namedNode iri))

/-- The literal of a value whose datatype is not written. -/
def shorthand (context : Context) (value datatype : String) : Literal :=
  context.factory.literal value none (some (context.factory.namedNode datatype))

/-- The literal that is written. -/
def literal (context : Context) : Surface.Literal → Except LoweringError Literal
  | .string value => pure (context.factory.literal value none none)
  | .tagged value language => pure (context.factory.literal value (some language) none)
  | .typed value datatype => do
    let datatype ← context.namedNode datatype
    pure (context.factory.literal value none (some datatype))
  | .integer value => pure (context.shorthand (toString value) Vocabulary.xsdInteger)
  | .decimal value => pure (context.shorthand value Vocabulary.xsdDecimal)
  | .double value => pure (context.shorthand value.toText Vocabulary.xsdDouble)
  | .boolean value =>
    pure (context.shorthand (if value then "true" else "false") Vocabulary.xsdBoolean)

/-- A variable that is used nowhere else. -/
def newVariable (context : Context) : Lowering Variable := do
  let name ← modifyGet NameSupply.takeVariable
  pure (context.factory.var name)

/-- A blank node whose label is used nowhere else. -/
def newBlank (context : Context) : Lowering Term := do
  let label ← modifyGet NameSupply.takeLabel
  pure (.blank (context.factory.blank label))

/-- The term that is written. Quoted triples stand in the default graph. -/
def term (context : Context) : Surface.Term → Lowering Term
  | .var name => pure (.var (context.var name))
  | .iri iri => do pure (.iri (← context.namedNode iri))
  | .literal literal => do pure (.literal (← context.literal literal))
  | .blank label => pure (.blank (context.factory.blank label))
  | .anonymous => context.newBlank
  | .quoted subject predicate object => do
    let subject ← context.term subject
    let predicate ← context.varOrIri predicate
    let object ← context.term object
    pure (context.factory.quad subject predicate object context.factory.defaultGraph)

/-- The row of a line of inline data; undefined cells are left out. -/
def row (context : Context) :
    List Variable → List (Option Surface.Term) → Row → Lowering Row
  | name :: names, some value :: cells, row => do
    let value ← context.term value
    context.row names cells (row.insert (context.var name).name value)
  | _ :: names, none :: cells, row => context.row names cells row
  | _, _, row => pure row

/-- The rows of lines of inline data. -/
def rows (context : Context) (names : List Variable) :
    List (List (Option Surface.Term)) → Lowering (List Row)
  | [] => pure []
  | cells :: rest => do
    let row ← context.row names cells .empty
    let rows ← context.rows names rest
    pure (row :: rows)

/-- The operation of inline data. -/
def inlineData (context : Context) (data : Surface.InlineData) : Lowering Operation := do
  let rows ← context.rows data.vars data.rows
  pure (.of (.values (data.vars.map context.var) rows))

end Context

end QueryAlgebra
