import QueryAlgebra.Proofs.Lowering.BlankVariables
import QueryAlgebra.Proofs.Lowering.OpenBlocks
import QueryAlgebra.Proofs.Lowering.PlacedLikeness
import QueryAlgebra.Proofs.Operation.ClearedGraphs

/-! # Graph names are put in and taken out again

If no graph block of a query binds variables, then the query has an operation with graph names in
its patterns exactly if it has one without, and taking the names out of the first operation leads
to the second: `Surface.Request.removeEmbeddedGraphs_lower`. Both are made in step. All patterns of
the second are in the default graph, and the first is the second with its patterns in the graphs of
the blocks around them.
-/

namespace QueryAlgebra

open Lowering (Agree Alike Yields)

/-! ### Patterns in the default graph, and in the graphs of their blocks -/

/-- What has no graph names in patterns, related to what has those of the blocks. -/
def Likeness.placed : Likeness where
  operations plain named := plain.InDefault ∧ plain.inBlockGraphs = named
  expressions plain named := plain.InDefault ∧ plain.inBlockGraphs = named

/-- The operators of patterns and queries, other than graph blocks, stand in the default graph. -/
private theorem ofBlocks_staysIn : (Placing.ofBlocks Term.asGraph).StaysIn .defaultGraph where
  enter {wrapper} other := by
    cases wrapper with
    | graph name => exact absurd rfl (other name)
    | _ => rfl
  bind _ := rfl
  value := rfl
  graph := rfl

/-- The operators of patterns and queries put no graph names into patterns. -/
theorem Likeness.placed_closed : placed.Closed True := by
  have isPlaced : placed = placedBy (.ofBlocks Term.asGraph) .defaultGraph := by
    simp only [placed, placedBy, Operation.inBlockGraphs, Operation.inGraphs_eq_place,
      Expression.inBlockGraphs, Expression.inGraphs_eq_place]
  rw [isPlaced]
  exact placedBy_closed ofBlocks_staysIn

namespace Context

variable {context : Context}

/-! ### Queries with and without graph names in patterns -/

/-- The name of a graph block is the graph of the patterns inside. -/
theorem varOrIri_asGraph {written : Surface.VarOrIri} {name : Term}
    (success : context.varOrIri written = .ok name) : name.asGraph = name := by
  obtain ⟨own, rfl⟩ | ⟨node, rfl⟩ := varOrIri_cases success
  · rfl
  · rfl

/-- Where no variables are bound in graph blocks, graph names alone make a difference. -/
theorem keeps_placed (plain : context.MakesPlain) (quads : context.quads = false) :
    context.Keeps true .placed (·.bindsInGraph = false) True where
  closed := Likeness.placed_closed
  defaultGraph := by rw [plain]; rfl
  triples written supply operation after success := by
    have pieces := context.basicGraphPattern_yields written supply operation after success
    rw [plain] at pieces
    refine ⟨pieces.inDefault, ?_⟩
    rw [Operation.inBlockGraphs, Operation.inGraphs_eq_place]
    exact @Operation.MatchedPieces.place _ (.ofBlocks Term.asGraph) .defaultGraph _ pieces
  data written supply operation after success := by
    obtain ⟨vars, rows, rfl⟩ := context.inlineData_yields written supply operation after success
    exact ⟨fun _ => rfl, rfl⟩
  binding _ _ := trivial
  graph {_ pattern _ block input _ supply after} unbound made named alike := by
    obtain ⟨inDefault, rfl⟩ := alike
    have isOpen : input.IsOpen := by
      refine pattern_open (plain ▸ rfl) quads (fun inner member => ?_) supply input after made
      exact Bool.eq_false_iff.2 (List.any_eq_false.1 unbound inner member)
    have named := varOrIri_asGraph named
    -- The name goes in without new variables, so both sides go on with the same supply.
    rw [quads, if_pos rfl, embedGraph_open _ named isOpen]
    exact .ok ⟨fun _ => congrArg (·.graph block) (inDefault block), rfl⟩

/-- The same variables stand for labels with and without graph names in patterns. -/
theorem labelVariables_withQuads (quads : Bool) (labels : List String) :
    (context.withQuads quads).labelVariables labels = context.labelVariables labels := by
  induction labels with
  | nil => rfl
  | cons label rest ih => rw [labelVariables, labelVariables, ih, factory_withQuads]

/-- Blank nodes become the same variables with and without graph names in patterns. -/
theorem agree_blanksToVariables {plain named : Operation} (quads : Bool)
    (alike : Likeness.placed.operations plain named) :
    Agree Likeness.placed.operations (context.blanksToVariables plain)
      ((context.withQuads quads).blanksToVariables named) := by
  obtain ⟨inDefault, rfl⟩ := alike
  have sameLabels : plain.inBlockGraphs.labels = plain.labels := by
    have ofGraphs : plain.inBlockGraphs.gather .ofLabels = plain.inDefaultGraph.gather .ofLabels :=
      Operation.labels_inGraphs Term.labels_asGraph (fun _ => rfl) plain _ _
    have taken : plain.inDefaultGraph = plain := inDefault .defaultGraph
    rw [taken] at ofGraphs
    exact congrArg firstSeen ofGraphs
  have sameShape := Operation.sameShape_inGraphs Term.asGraph .defaultGraph plain
  rw [blanksToVariables, blanksToVariables, Node.checkFits, Node.checkFits, sameShape.fits_eq,
    sameLabels, labelVariables_withQuads]
  refine .same_bind fun _ => .same_bind fun vars => .pure ⟨fun block => ?_, ?_⟩
  · rw [← Operation.replaceBlanks_inGraphs (fun _ => rfl), inDefault]
  · exact (Operation.replaceBlanks_inGraphs (Term.replaceBlanks_asGraph _) plain .defaultGraph).symm

/-- A query without variables bound in graph blocks is made in step with and without graph names in
patterns. -/
theorem agree_queryRequest (plain : context.MakesPlain) (quads : context.quads = false)
    {request : Surface.Request} {query : Surface.Query} (isQuery : request.body = .query query)
    (unbound : query.bindsInGraphs = false) (blankToVariable : Bool) :
    Agree Likeness.placed.operations (context.request blankToVariable request)
      ((context.withQuads true).request blankToVariable request) := by
  have suits : context.Suits (.ofNames (Options.withQuads {} false)) :=
    ⟨plain, False.elim, by rw [quads]; exact Iff.rfl⟩
  have ofDeclared := settles_declare suits request.meets_nothing.prologue
  rw [Context.request, Context.request, declare_withQuads, isQuery]
  cases isDeclared : context.declare request.prologue with
  | error error => exact fun _ => .error
  | ok declared =>
    rw [isDeclared] at ofDeclared
    have keeps := keeps_placed ofDeclared.plain
      (Bool.eq_false_iff.2 fun quads => Bool.false_ne_true (ofDeclared.quads.1 quads))
    have agree : Agree Likeness.placed.operations (declared.query query)
        ((declared.withQuads true).query query) :=
      agree_query keeps trivial query fun pattern member =>
        Bool.eq_false_iff.2 (List.any_eq_false.1 unbound pattern member)
    refine agree.bind fun operation named alike => ?_
    cases blankToVariable with
    | false => exact .pure alike
    | true => exact agree_blanksToVariables true alike

end Context

/-- Whether the traversals that take graph names out can hold an operation. -/
def Operation.fitsRemoving (operation : Operation) : Bool :=
  (Node.operation operation).fits Traversal.defaultLimit
    (fun kind => if kind = .deleteInsert then .leave else .descend) 1

/-- Graph names are taken out unless the traversals would need more stack than there is. -/
theorem Operation.removeEmbeddedGraphs_eq (operation : Operation) :
    operation.removeEmbeddedGraphs
      = if operation.fitsRemoving then .ok operation.withoutEmbeddedGraphs
        else .error (.stackOverflow Traversal.defaultLimit) := by
  rw [removeEmbeddedGraphs, Node.checkFits, fitsRemoving]
  split
  · rfl
  · rfl

namespace Surface.Request

/-- If variables are not bound in graph blocks, a query has an operation with graph names in its
patterns exactly if it has one without, and taking the names out of the first leads to the second,
unless this would need more stack than there is. -/
theorem removeEmbeddedGraphs_lower (options : Options) {request : Surface.Request} {query : Query}
    (isQuery : request.body = .query query) (unbound : query.bindsInGraphs = false) :
    ((∃ named, request.lower (options.withQuads true) = .ok named)
        ↔ ∃ plain, request.lower (options.withQuads false) = .ok plain)
      ∧ ∀ named plain, request.lower (options.withQuads true) = .ok named →
        request.lower (options.withQuads false) = .ok plain →
        named.removeEmbeddedGraphs
          = if named.fitsRemoving then .ok plain
            else .error (.stackOverflow Traversal.defaultLimit) := by
  have plain : (Context.ofOptions .plain (options.withQuads false)).MakesPlain := rfl
  have alike := Context.agree_queryRequest plain rfl isQuery unbound options.blankToVariable
    (.ofNames request.names)
  have outcomes := lower_alike (options.withQuads false) (options.withQuads true) alike
  rcases outcomes with ⟨plain, named, ofPlain, ofNamed, inDefault, rfl⟩ | ⟨error, ofPlain, ofNamed⟩
  · rw [ofPlain, ofNamed]
    refine ⟨⟨fun _ => ⟨plain, rfl⟩, fun _ => ⟨_, rfl⟩⟩, ?_⟩
    rintro _ _ ⟨⟩ ⟨⟩
    have taken : plain.inDefaultGraph = plain := inDefault .defaultGraph
    rw [Operation.removeEmbeddedGraphs_eq, Operation.withoutEmbeddedGraphs_inBlockGraphs, taken]
  · rw [ofPlain, ofNamed]
    simp

/-- `?s <http://ex.org/p> ?o`. -/
private def direct : Pattern :=
  .bgp [⟨.term (.var ⟨"s"⟩), .simple (.iri ⟨.full "http://ex.org/p", .none⟩), .term (.var ⟨"o"⟩)⟩]
    .none

/-- `?s <http://ex.org/p>* ?o`. -/
private def transitive : Pattern :=
  .bgp [⟨.term (.var ⟨"s"⟩),
    .path (.zeroOrMore (.iri ⟨.full "http://ex.org/p", .none⟩) .none), .term (.var ⟨"o"⟩)⟩] .none

/-- The query of all solutions of `GRAPH ?g { … }` with the blocks `GRAPH ?g { … }`,
`OPTIONAL { SERVICE <http://ex.org/s> { … } … }`, `MINUS { … }` and `FILTER EXISTS { … }` inside. -/
private def nestedBlocks : Query :=
  .select ⟨.keep, .all, none,
    .graph (.var ⟨"g"⟩)
      (.group [
        transitive,
        .graph (.var ⟨"g"⟩) (.group [direct] .none) .none,
        .optional (.group [
          .service false (.iri ⟨.full "http://ex.org/s", .none⟩) (.group [direct] .none) .none,
          direct] .none) .none,
        .minus (.group [transitive] .none) .none,
        .filter (.existence false (.group [direct] .none)) .none] .none) .none,
    ⟨none, [], [], none, none, none⟩⟩

/-- The request of the query. -/
private def nestedRequest : Request := ⟨.none, .query nestedBlocks⟩

/-- The names of nested blocks are put into patterns in five places, and taken out of all. -/
theorem removeEmbeddedGraphs_lower_nestedBlocks : ∃ named plain,
    nestedRequest.body = .query nestedBlocks ∧ nestedBlocks.bindsInGraphs = false
      ∧ nestedRequest.lower (Options.withQuads {} true) = .ok named
      ∧ nestedRequest.lower (Options.withQuads {} false) = .ok plain
      ∧ named.sites.countP (·.graph = .var ⟨"g"⟩) = 5 ∧ plain.sites.all (·.graph = .defaultGraph)
      ∧ named.removeEmbeddedGraphs = .ok plain := by
  have isQuery : nestedRequest.body = .query nestedBlocks := rfl
  have unbound : nestedBlocks.bindsInGraphs = false := by decide
  refine ⟨_, _, isQuery, unbound, rfl, rfl, by decide, by decide, ?_⟩
  have removed := (removeEmbeddedGraphs_lower {} isQuery unbound).2 _ _ rfl rfl
  exact removed.trans (if_pos (by decide +kernel))

end Surface.Request

end QueryAlgebra
