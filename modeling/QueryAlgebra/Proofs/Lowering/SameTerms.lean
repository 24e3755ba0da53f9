import QueryAlgebra.Lowering.Request

/-! # Terms with and without graph names in patterns

Whether graph names are put into patterns matters for graph blocks and for updates of triples alone.
Terms, inline data, basic graph patterns and templates are the same in any case.
-/

namespace QueryAlgebra.Context

open Surface (GraphNode NegatedMember Triple VarOrIri Verb)

/-- The context in which graph names are put into patterns, or are not. -/
def withQuads (context : Context) (quads : Bool) : Context := { context with quads := quads }

variable (context : Context) (quads : Bool)

@[simp] theorem withQuads_self : context.withQuads context.quads = context := rfl

/-! ### Terms -/

@[simp] theorem factory_withQuads : (context.withQuads quads).factory = context.factory := rfl

@[simp] theorem var_withQuads (name : Variable) :
    (context.withQuads quads).var name = context.var name := rfl

@[simp] theorem newVariable_withQuads :
    (context.withQuads quads).newVariable = context.newVariable := rfl

@[simp] theorem newBlank_withQuads : (context.withQuads quads).newBlank = context.newBlank := rfl

@[simp] theorem vocabulary_withQuads (iri : String) :
    (context.withQuads quads).vocabulary iri = context.vocabulary iri := rfl

@[simp] theorem namedNode_withQuads (iri : Surface.Iri) :
    (context.withQuads quads).namedNode iri = context.namedNode iri := rfl

@[simp] theorem namedNodes_withQuads (iris : List Surface.Iri) :
    (context.withQuads quads).namedNodes iris = context.namedNodes iris := by
  induction iris with
  | nil => rfl
  | cons iri rest ih => rw [namedNodes, namedNodes, ih, namedNode_withQuads]

@[simp] theorem varOrIri_withQuads (name : VarOrIri) :
    (context.withQuads quads).varOrIri name = context.varOrIri name := by
  cases name <;> rfl

@[simp] theorem literal_withQuads (literal : Surface.Literal) :
    (context.withQuads quads).literal literal = context.literal literal := by
  cases literal <;> rfl

@[simp] theorem term_withQuads (term : Surface.Term) :
    (context.withQuads quads).term term = context.term term := by
  induction term with
  | var | iri | literal | blank | anonymous => simp [Context.term]
  | quoted subject predicate object ihSubject ihObject =>
    simp only [Context.term, ihSubject, ihObject, varOrIri_withQuads, factory_withQuads]

/-! ### Inline data -/

@[simp] theorem row_withQuads (names : List Variable) (cells : List (Option Surface.Term))
    (row : Row) : (context.withQuads quads).row names cells row = context.row names cells row := by
  induction names generalizing cells row with
  | nil => cases cells <;> simp [Context.row]
  | cons name names ih =>
    cases cells with
    | nil => simp [Context.row]
    | cons cell cells => cases cell <;> simp [Context.row, ih]

@[simp] theorem rows_withQuads (names : List Variable)
    (lines : List (List (Option Surface.Term))) :
    (context.withQuads quads).rows names lines = context.rows names lines := by
  induction lines with
  | nil => rfl
  | cons cells rest ih => simp only [rows, ih, row_withQuads]

@[simp] theorem inlineData_withQuads (data : Surface.InlineData) :
    (context.withQuads quads).inlineData data = context.inlineData data := by
  rw [inlineData, inlineData, rows_withQuads]
  rfl

/-! ### Paths -/

@[simp] theorem negatedMembers_withQuads (members : List NegatedMember) :
    (context.withQuads quads).negatedMembers members = context.negatedMembers members := by
  induction members with
  | nil => rfl
  | cons member rest ih => simp only [negatedMembers, ih, namedNode_withQuads]

@[simp] theorem path_withQuads (path : Surface.Path) :
    (context.withQuads quads).path path = context.path path := by
  induction path <;> simp only [Context.path, *, namedNode_withQuads, factory_withQuads,
    negatedMembers_withQuads]

mutual

@[simp] theorem fragments_withQuads (subject : Term) : ∀ (path : Path) (object : Term),
    (context.withQuads quads).fragments subject path object
      = context.fragments subject path object
  | .inverse path, object => by
    rw [fragments, fragments, fragments_withQuads object path subject]
  | .seq steps, object => by
    rw [fragments, fragments, stepFragments_withQuads subject steps object]
  | .link _, _ | .alt _, _ | .zeroOrMore _, _ | .oneOrMore _, _ | .zeroOrOne _, _
  | .negated _, _ => by simp only [fragments, factory_withQuads]

@[simp] theorem stepFragments_withQuads (subject : Term) : ∀ (steps : List Path) (object : Term),
    (context.withQuads quads).stepFragments subject steps object
      = context.stepFragments subject steps object
  | [], _ => rfl
  | [step], object => by
    rw [stepFragments, stepFragments, fragments_withQuads subject step object]
  | step :: next :: steps, object => by
    simp only [stepFragments, newVariable_withQuads, fragments_withQuads subject step,
      fun between => stepFragments_withQuads between (next :: steps) object]

end

/-! ### Triples -/

@[simp] theorem predicate_withQuads (verb : Verb) :
    (context.withQuads quads).predicate verb = context.predicate verb := by
  cases verb with
  | simple name => simp only [predicate, varOrIri_withQuads]
  | path path => rfl

@[simp] theorem newCells_withQuads (count : Nat) :
    (context.withQuads quads).newCells count = context.newCells count := by
  induction count with
  | zero => rfl
  | succ count ih => simp only [newCells, ih, newBlank_withQuads]

mutual

@[simp] theorem node_withQuads : ∀ node : GraphNode,
    (context.withQuads quads).node node = context.node node
  | .term value => by rw [node, node, term_withQuads]
  | .collection items => by
    simp only [node, newCells_withQuads, vocabulary_withQuads, listTriples_withQuads items]
  | .properties entries => by
    simp only [node, newBlank_withQuads, propertyTriples_withQuads entries]

@[simp] theorem listTriples_withQuads : ∀ (items : List GraphNode) (cells : List Term) (nil : Term),
    (context.withQuads quads).listTriples items cells nil = context.listTriples items cells nil
  | item :: items, cell :: cells, nil => by
    simp only [listTriples, node_withQuads item, listTriples_withQuads items cells nil]
    rfl
  | [], _, _ => rfl
  | _ :: _, [], _ => rfl

@[simp] theorem propertyTriples_withQuads : ∀ (entries : List (Verb × GraphNode)) (subject : Term),
    (context.withQuads quads).propertyTriples subject entries
      = context.propertyTriples subject entries
  | [], _ => rfl
  | (verb, object) :: entries, subject => by
    simp only [propertyTriples, predicate_withQuads, node_withQuads object,
      propertyTriples_withQuads entries subject]

end

@[simp] theorem triple_withQuads (triple : Triple) :
    (context.withQuads quads).triple triple = context.triple triple := by
  simp only [Context.triple, node_withQuads, predicate_withQuads]

@[simp] theorem triples_withQuads (triples : List Triple) :
    (context.withQuads quads).triples triples = context.triples triples := by
  induction triples with
  | nil => rfl
  | cons triple rest ih => simp only [Context.triples, ih, triple_withQuads]

@[simp] theorem tripleFragments_withQuads (triple : FlatTriple) :
    (context.withQuads quads).tripleFragments triple = context.tripleFragments triple := by
  unfold tripleFragments
  cases triple.predicate with
  | term predicate => rfl
  | path path => simp only [path_withQuads, fragments_withQuads]

@[simp] theorem allFragments_withQuads (triples : List FlatTriple) :
    (context.withQuads quads).allFragments triples = context.allFragments triples := by
  induction triples with
  | nil => rfl
  | cons triple rest ih => simp only [allFragments, ih, tripleFragments_withQuads]

@[simp] theorem basicGraphPattern_withQuads (triples : List Triple) :
    (context.withQuads quads).basicGraphPattern triples = context.basicGraphPattern triples := by
  simp only [basicGraphPattern, triples_withQuads, allFragments_withQuads]

@[simp] theorem template_withQuads (graph : Term) (triples : List Triple) :
    (context.withQuads quads).template graph triples = context.template graph triples := by
  simp only [template, triples_withQuads]

/-! ### Clauses and declarations -/

@[simp] theorem callee_withQuads (function : Surface.Function) :
    (context.withQuads quads).callee function = context.callee function := by
  cases function <;> rfl

@[simp] theorem overDataset_withQuads (dataset : Option Surface.Dataset) (operation : Operation) :
    (context.withQuads quads).overDataset dataset operation
      = context.overDataset dataset operation := by
  cases dataset with
  | none => rfl
  | some dataset => simp only [overDataset, namedNodes_withQuads]

@[simp] theorem joinedWith_withQuads (values : Option Surface.InlineData) (operation : Operation) :
    (context.withQuads quads).joinedWith values operation
      = context.joinedWith values operation := by
  cases values with
  | none => rfl
  | some data => simp only [joinedWith, inlineData_withQuads]

@[simp] theorem shown_withQuads (projection : Surface.Projection) (pattern : Surface.Pattern)
    (values : Option Surface.InlineData) (selected : List (Variable × Option Expression)) :
    (context.withQuads quads).shown projection pattern values selected
      = context.shown projection pattern values selected := by
  cases projection <;> rfl

@[simp] theorem resources_withQuads (resources : List VarOrIri) :
    (context.withQuads quads).resources resources = context.resources resources := by
  induction resources with
  | nil => rfl
  | cons resource rest ih => simp only [Context.resources, ih, varOrIri_withQuads]

@[simp] theorem described_withQuads (query : Surface.Describe) :
    (context.withQuads quads).described query = context.described query := by
  unfold described
  cases query.target with
  | all => rfl
  | resources resources => exact resources_withQuads context quads resources

private theorem declarePrefixes_withQuads (declarations : List Surface.PrefixDeclaration) :
    declarations.foldlM declarePrefix (context.withQuads quads)
      = (·.withQuads quads) <$> declarations.foldlM declarePrefix context := by
  induction declarations generalizing context with
  | nil => rfl
  | cons declaration rest ih =>
    rw [List.foldlM_cons, List.foldlM_cons, declarePrefix, declarePrefix]
    have resolves : (context.withQuads quads).resolve declaration.iri declaration.span
      = context.resolve declaration.iri declaration.span := rfl
    rw [resolves]
    cases context.resolve declaration.iri declaration.span with
    | error error => rfl
    | ok iri => exact ih { context with prefixes := context.prefixes.insert declaration.label iri }

/-- Declarations do not depend on whether graph names are put into patterns. -/
theorem declare_withQuads (prologue : Surface.Prologue) :
    (context.withQuads quads).declare prologue
      = (·.withQuads quads) <$> context.declare prologue := by
  obtain ⟨base, prefixes⟩ := prologue
  cases base with
  | none => exact declarePrefixes_withQuads context quads prefixes
  | some declaration =>
    rw [declare, declare]
    have resolves : (context.withQuads quads).resolve declaration.iri declaration.span
      = context.resolve declaration.iri declaration.span := rfl
    dsimp only
    rw [resolves]
    cases context.resolve declaration.iri declaration.span with
    | error error => rfl
    | ok base => exact declarePrefixes_withQuads { context with base := some base } quads prefixes

end QueryAlgebra.Context
