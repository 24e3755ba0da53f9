import QueryAlgebra.Lowering.Context
import QueryAlgebra.Operation

/-! # Triples of a request

Collections and property lists are spelled out as triples, and property paths that amount to links
become plain patterns: an inverse swaps its ends, and a sequence goes through new variables. What
is left of the paths are path operations. Runs of patterns become basic graph patterns, joined with
the path operations between them in the order of the text.
-/

namespace QueryAlgebra

/-- The predicate of a triple that is spelled out. -/
inductive FlatPredicate where
  | term (value : Term)
  | path (path : Surface.Path)

/-- A triple whose subject and object are terms. -/
structure FlatTriple where
  subject : Term
  predicate : FlatPredicate
  object : Term

/-- A piece of a basic graph pattern: a pattern, or a path that is no plain link. -/
inductive Fragment where
  | pattern (pattern : Pattern)
  | path (subject : Term) (predicate : Path) (object graph : Term)
deriving DecidableEq

namespace Context

open Surface (GraphNode NegatedMember Triple Verb)

/-! ### Property paths -/

/-- The nodes of the members of a negated set, those followed forwards and those followed
backwards. -/
def negatedMembers (context : Context) :
    List NegatedMember → Except LoweringError (List NamedNode × List NamedNode)
  | [] => pure ([], [])
  | member :: rest => do
    let node ← context.namedNode member.iri
    let (forward, inverse) ← context.negatedMembers rest
    pure (if member.isInverse then (forward, node :: inverse) else (node :: forward, inverse))

/-- The path of a negated set: the links forwards, the links backwards, or either. -/
def negatedPath (forward inverse : List NamedNode) : Path :=
  match forward, inverse with
  | _ :: _, [] => .negated forward
  | [], _ :: _ => .inverse (.negated inverse)
  | _, _ => .alternative [.negated forward, .inverse (.negated inverse)]

/-- The path that is written. -/
def path (context : Context) : Surface.Path → Except LoweringError Path
  | .iri iri => do pure (.link (← context.namedNode iri))
  | .type _ => pure (.link (context.factory.namedNode Vocabulary.rdfType))
  | .group path _ => context.path path
  | .inverse path _ => do pure (.inverse (← context.path path))
  | .sequence left right _ => do
    let left ← context.path left
    let right ← context.path right
    pure (.sequence [left, right])
  | .alternative left right _ => do
    let left ← context.path left
    let right ← context.path right
    pure (.alternative [left, right])
  | .zeroOrMore path _ => do pure (.zeroOrMore (← context.path path))
  | .oneOrMore path _ => do pure (.oneOrMore (← context.path path))
  | .zeroOrOne path _ => do pure (.zeroOrOne (← context.path path))
  | .negated members span =>
    if members.isEmpty then .error (.invalidPath .emptyNegatedSet span)
    else do
      let (forward, inverse) ← context.negatedMembers members
      pure (negatedPath forward inverse)

mutual

/-- The pieces of a path between two terms. -/
def fragments (context : Context) (subject : Term) (path : Path) (object : Term) :
    Lowering (List Fragment) :=
  match path with
  | .link predicate =>
    pure [.pattern ⟨subject, .iri predicate, object, context.factory.defaultGraph⟩]
  | .inverse path => context.fragments object path subject
  | .seq steps => context.stepFragments subject steps object
  | path => pure [.path subject path object context.factory.defaultGraph]

/-- The pieces of the steps of a sequence, with a new variable between each two of them. -/
def stepFragments (context : Context) (subject : Term) (steps : List Path) (object : Term) :
    Lowering (List Fragment) :=
  match steps with
  | [] => pure [.path subject (.seq []) object context.factory.defaultGraph]
  | [step] => context.fragments subject step object
  | step :: next :: steps => do
    let between := Term.var (← context.newVariable)
    let first ← context.fragments subject step between
    let rest ← context.stepFragments between (next :: steps) object
    pure (first ++ rest)

end

/-! ### Spelling out triples -/

/-- The predicate that is written; a path that is one predicate is that predicate. -/
def predicate (context : Context) : Verb → Except LoweringError FlatPredicate
  | .simple verb => do pure (.term (← context.varOrIri verb))
  | .path path =>
    match path.unwrapped with
    | .iri iri => do pure (.term (.iri (← context.namedNode iri)))
    | .type _ => pure (.term (context.vocabulary Vocabulary.rdfType))
    | path => pure (.path path)

/-- New blank nodes, as many as there are items. -/
def newCells (context : Context) : Nat → Lowering (List Term)
  | 0 => pure []
  | count + 1 => do
    let cell ← context.newBlank
    let cells ← context.newCells count
    pure (cell :: cells)

/-- The triples of one cell of a list. -/
def cellTriples (context : Context) (cell value next : Term) : List FlatTriple :=
  [⟨cell, .term (context.vocabulary Vocabulary.rdfFirst), value⟩,
    ⟨cell, .term (context.vocabulary Vocabulary.rdfRest), next⟩]

mutual

/-- The term that a subject or object stands for, and the triples that it implies. -/
def node (context : Context) : GraphNode → Lowering (Term × List FlatTriple)
  | .term value => do pure (← context.term value, [])
  | .collection items => do
    let nil := context.vocabulary Vocabulary.rdfNil
    let cells ← context.newCells items.length
    let triples ← context.listTriples items cells nil
    pure (cells.headD nil, triples)
  | .properties entries => do
    let subject ← context.newBlank
    let triples ← context.propertyTriples subject entries
    pure (subject, triples)

/-- The triples of a list of items with their cells, which ends in `nil`. -/
def listTriples (context : Context) : List GraphNode → List Term → Term →
    Lowering (List FlatTriple)
  | item :: items, cell :: cells, nil => do
    let (value, triples) ← context.node item
    let rest ← context.listTriples items cells nil
    pure (triples ++ context.cellTriples cell value (cells.headD nil) ++ rest)
  | _, _, _ => pure []

/-- The triples of a list of properties of a subject. -/
def propertyTriples (context : Context) (subject : Term) : List (Verb × GraphNode) →
    Lowering (List FlatTriple)
  | [] => pure []
  | (verb, object) :: entries => do
    let predicate ← context.predicate verb
    let (object, triples) ← context.node object
    let rest ← context.propertyTriples subject entries
    pure (triples ++ ⟨subject, predicate, object⟩ :: rest)

end

/-- A triple with the triples that its subject and object imply; these come first. -/
def triple (context : Context) (triple : Triple) : Lowering (List FlatTriple) := do
  let (subject, ofSubject) ← context.node triple.subject
  let predicate ← context.predicate triple.verb
  let (object, ofObject) ← context.node triple.object
  pure (ofSubject ++ ofObject ++ [⟨subject, predicate, object⟩])

/-- A list of triples with all triples that they imply. -/
def triples (context : Context) : List Triple → Lowering (List FlatTriple)
  | [] => pure []
  | triple :: rest => do
    let first ← context.triple triple
    let others ← context.triples rest
    pure (first ++ others)

/-! ### Basic graph patterns -/

/-- The pieces of a triple that is spelled out. -/
def tripleFragments (context : Context) (triple : FlatTriple) : Lowering (List Fragment) :=
  match triple.predicate with
  | .term predicate =>
    pure [.pattern ⟨triple.subject, predicate, triple.object, context.factory.defaultGraph⟩]
  | .path written => do
    let path ← context.path written
    context.fragments triple.subject path triple.object

/-- The pieces of a list of triples. -/
def allFragments (context : Context) : List FlatTriple → Lowering (List Fragment)
  | [] => pure []
  | triple :: rest => do
    let first ← context.tripleFragments triple
    let others ← context.allFragments rest
    pure (first ++ others)

end Context

/-- A run of patterns, or a path between two runs. -/
inductive Segment where
  | run (patterns : List Pattern)
  | path (subject : Term) (predicate : Path) (object graph : Term)
deriving DecidableEq

namespace Segment

/-- Put a piece before segments; a pattern joins a run that they begin with. -/
def cons : Fragment → List Segment → List Segment
  | .pattern pattern, .run patterns :: rest => .run (pattern :: patterns) :: rest
  | .pattern pattern, rest => .run [pattern] :: rest
  | .path subject predicate object graph, rest => .path subject predicate object graph :: rest

/-- The segments of a list of pieces. -/
def ofFragments (fragments : List Fragment) : List Segment := fragments.foldr cons []

/-- The operation of a segment. -/
def toOperation : Segment → Operation
  | .run patterns => .bgp patterns
  | .path subject predicate object graph => .of (.path subject predicate object graph)

end Segment

/-- The operation of a list of pieces: one basic graph pattern or path, or a join of them. -/
def Operation.ofFragments (fragments : List Fragment) : Operation :=
  match (Segment.ofFragments fragments).map Segment.toOperation with
  | [] => .bgp []
  | [segment] => segment
  | segments => .join segments

namespace Context

/-- The operation of a list of triples. All triples are spelled out before the first path is
treated. -/
def basicGraphPattern (context : Context) (written : List Surface.Triple) : Lowering Operation := do
  let flat ← context.triples written
  let fragments ← context.allFragments flat
  pure (.ofFragments fragments)

/-- The pattern of a triple of a template, where paths are not allowed. -/
def templatePattern (graph : Term) (triple : FlatTriple) : Except LoweringError Pattern :=
  match triple.predicate with
  | .term predicate => .ok ⟨triple.subject, predicate, triple.object, graph⟩
  | .path path => .error (.invalidPath .inTemplate path.span)

/-- The patterns of a list of triples of a template. -/
def templatePatterns (graph : Term) : List FlatTriple → Except LoweringError (List Pattern)
  | [] => pure []
  | triple :: rest => do
    let pattern ← templatePattern graph triple
    let patterns ← templatePatterns graph rest
    pure (pattern :: patterns)

/-- The patterns of a template in a graph. -/
def template (context : Context) (graph : Term) (written : List Surface.Triple) :
    Lowering (List Pattern) := do
  let flat ← context.triples written
  templatePatterns graph flat

end Context

end QueryAlgebra
