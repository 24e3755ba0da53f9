import QueryAlgebra.Proofs.Lowering.EmbeddedSites
import QueryAlgebra.Proofs.Lowering.LikePatterns
import QueryAlgebra.Proofs.Lowering.MatchedPieces

/-! # Patterns name the graph of the block around them

Where graph names go into patterns, every pattern and path names the graph of the innermost block
around it, and the default graph in a service block and outside all blocks, wherever it stands:
`Context.names_enclosing_graphs`. Values that are bound to variables are an exception. An expression
in a graph block may ask there whether a pattern has a solution, and the name of the block does not
reach that pattern, `Context.not_enclosing_boundExistence`.
-/

namespace QueryAlgebra

open Lowering (Agree Alike Yields)

/-- Every pattern and path names the graph that it is to be matched in; in a value that is bound to
a variable it may stand in the default graph. -/
def Operation.NamesEnclosingGraphs (operation : Operation) : Prop :=
  ∀ site ∈ operation.sites,
    site.graph = site.enclosing ∨ site.bound = true ∧ site.graph = .defaultGraph

theorem Operation.namesEnclosingGraphs_iff {operation : Operation} :
    operation.NamesEnclosingGraphs ↔ AllHeld .defaultGraph false operation.sites := by
  simp [NamesEnclosingGraphs, AllHeld, PatternSite.Held, PatternSite.enclosing]

/-- What is in the graphs of its blocks, related to itself. -/
def Likeness.held : Likeness where
  operations first second := AllHeld .defaultGraph false first.sites ∧ first = second
  expressions first second := AllHeld .defaultGraph false first.sites ∧ first = second

variable {graph : Term} {loose : Bool}

theorem AllHeld.loosen {sites : List PatternSite} (held : AllHeld graph false sites) :
    AllHeld graph loose sites := fun site member => (held site member).loosen

theorem AllHeld.simplifiedJoin {left right : Operation} (ofLeft : AllHeld graph loose left.sites)
    (ofRight : AllHeld graph loose right.sites) :
    AllHeld graph loose (simplifiedJoin left right).sites := by
  unfold QueryAlgebra.simplifiedJoin
  split
  · exact AllHeld.patterns.2
      (List.forall_mem_append.2 ⟨AllHeld.patterns.1 ofLeft, AllHeld.patterns.1 ofRight⟩)
  · split
    · exact ofRight
    · split
      · exact ofLeft
      · rw [Operation.sites_join]
        exact AllHeld.append.2 ⟨ofLeft, ofRight⟩

theorem AllHeld.leftJoinOf {left right : Operation} (ofLeft : AllHeld graph loose left.sites)
    (ofRight : AllHeld graph loose right.sites) :
    AllHeld graph loose (leftJoinOf left right).sites := by
  unfold QueryAlgebra.leftJoinOf
  split
  · obtain ⟨ofInput, ofCondition⟩ := AllHeld.append.1 ofRight
    exact AllHeld.append.2 ⟨AllHeld.append.2 ⟨ofLeft, ofInput⟩, ofCondition⟩
  · exact AllHeld.append.2 ⟨ofLeft, ofRight⟩

theorem Likeness.held_expressions {first second : List Expression} :
    List.Forall₂ held.expressions first second
      ↔ AllHeld .defaultGraph false (Expression.sitesOfAll first) ∧ first = second := by
  simp only [held, List.forall₂_and_left, List.forall₂_eq_eq_eq, AllHeld,
    Expression.forall_mem_sitesOfAll]

theorem Likeness.held_aggregates {first second : List BoundAggregate}
    (alike : List.Forall₂ held.Aggregates first second) :
    AllHeld .defaultGraph false (BoundAggregate.sitesOfAll first) ∧ first = second := by
  induction alike with
  | nil => exact ⟨.nil, rfl⟩
  | @cons bound bound' _ _ ofBound _ ih =>
    obtain ⟨name, expression⟩ := bound
    obtain ⟨name', expression'⟩ := bound'
    obtain ⟨rfl, held, rfl⟩ := ofBound
    exact ⟨AllHeld.append.2 ⟨held, ih.1⟩, congrArg _ ih.2⟩

/-- The operators of patterns and queries keep patterns and paths in the graphs of their blocks. -/
theorem Likeness.held_closed : held.Closed True where
  term _ := ⟨.nil, rfl⟩
  wildcard := ⟨.nil, rfl⟩
  call callee _ _ alike := by
    obtain ⟨held, rfl⟩ := held_expressions.1 alike
    exact ⟨held, rfl⟩
  aggregate name distinct separator := by
    rintro _ _ ⟨held, rfl⟩
    exact ⟨held, rfl⟩
  existence negated := by
    rintro _ _ ⟨held, rfl⟩
    exact ⟨held, rfl⟩
  empty := ⟨.nil, rfl⟩
  simplifiedJoin := by
    rintro _ _ _ _ ⟨ofLeft, rfl⟩ ⟨ofRight, rfl⟩
    exact ⟨ofLeft.simplifiedJoin ofRight, rfl⟩
  join := by
    rintro _ _ _ _ ⟨ofLeft, rfl⟩ ⟨ofRight, rfl⟩
    exact ⟨Operation.sites_join _ _ ▸ AllHeld.append.2 ⟨ofLeft, ofRight⟩, rfl⟩
  union := by
    rintro _ _ _ _ ⟨ofLeft, rfl⟩ ⟨ofRight, rfl⟩
    exact ⟨Operation.sites_union _ _ ▸ AllHeld.append.2 ⟨ofLeft, ofRight⟩, rfl⟩
  leftJoinOf := by
    rintro _ _ _ _ ⟨ofLeft, rfl⟩ ⟨ofRight, rfl⟩
    exact ⟨ofLeft.leftJoinOf ofRight, rfl⟩
  minus := by
    rintro _ _ _ _ ⟨ofLeft, rfl⟩ ⟨ofRight, rfl⟩
    exact ⟨AllHeld.append.2 ⟨ofLeft, ofRight⟩, rfl⟩
  filter := by
    rintro _ _ _ _ ⟨ofInput, rfl⟩ ⟨ofCondition, rfl⟩
    exact ⟨AllHeld.append.2 ⟨ofInput, ofCondition⟩, rfl⟩
  service name silent := by
    rintro _ _ ⟨held, rfl⟩
    exact ⟨AllHeld.within.2 held, rfl⟩
  extend _ name := by
    rintro _ _ _ _ ⟨ofInput, rfl⟩ ⟨ofValue, rfl⟩
    exact ⟨AllHeld.append.2 ⟨ofInput, AllHeld.inValue.2 ofValue.loosen⟩, rfl⟩
  wrap _ {wrapper _ _} plain := by
    rintro ⟨held, rfl⟩
    refine ⟨?_, rfl⟩
    cases wrapper with
    | graph | service => cases plain
    | _ => exact held
  group _ keys {_ _ _ _} alike ofAggregates := by
    obtain ⟨held, rfl⟩ := held_aggregates ofAggregates
    exact ⟨AllHeld.append.2 ⟨alike.1, held⟩, alike.2 ▸ rfl⟩
  orderBy _ {_ _ _ _} alike ofKeys := by
    obtain ⟨held, rfl⟩ := held_expressions.1 ofKeys
    exact ⟨AllHeld.append.2 ⟨alike.1, held⟩, alike.2 ▸ rfl⟩
  construct _ {_ _ _} inDefault := by
    rintro ⟨held, rfl⟩
    exact ⟨AllHeld.append.2 ⟨held, AllHeld.patterns.2 fun pattern member =>
      .inl (inDefault pattern member)⟩, rfl⟩
  forms {first _} := by
    rintro ⟨held, rfl⟩
    cases first with
    | call callee arguments => exact .call callee (held_expressions.2 ⟨held, rfl⟩)
    | _ => constructor
  shape := by
    rintro _ _ ⟨-, rfl⟩
    exact .refl _
  same := by
    rintro _ _ _ _ ⟨-, rfl⟩ ⟨-, rfl⟩
    rfl

namespace Context

variable {context : Context}

theorem varOrIri_ne_defaultGraph {written : Surface.VarOrIri} {name : Term}
    (success : context.varOrIri written = .ok name) : name ≠ .defaultGraph := by
  obtain ⟨own, rfl⟩ | ⟨node, rfl⟩ := varOrIri_cases success
  · nofun
  · nofun

private theorem held_pieces {operation : Operation}
    (pieces : operation.MatchedPieces .defaultGraph) :
    AllHeld .defaultGraph false operation.sites := by
  have ofPiece {input : Operation} (piece : input.MatchedPiece .defaultGraph) :
      AllHeld .defaultGraph false input.sites := by
    cases piece with
    | bgp inDefault =>
      exact AllHeld.patterns.2 fun pattern member => .inl (inDefault pattern member)
    | path => exact AllHeld.path.2 (.inl rfl)
  cases pieces with
  | piece piece => exact ofPiece piece
  | @join inputs arePieces =>
    show AllHeld _ _ (Operation.sitesOfAll inputs)
    induction inputs with
    | nil => exact .nil
    | cons input rest ih =>
      rw [List.forall_mem_cons] at arePieces
      exact AllHeld.append.2 ⟨ofPiece arePieces.1, ih arePieces.2⟩

/-- Where graph names go into patterns, patterns and paths are in the graphs of their blocks. -/
theorem keeps_held (plain : context.MakesPlain) (quads : context.quads = true) :
    context.Keeps context.quads .held (fun _ => True) True where
  closed := Likeness.held_closed
  defaultGraph := by rw [plain]; rfl
  triples written := by
    have yields := context.basicGraphPattern_yields written
    rw [plain] at yields
    exact fun supply operation after success =>
      ⟨held_pieces (yields supply operation after success), rfl⟩
  data written supply operation after success := by
    obtain ⟨vars, rows, rfl⟩ := context.inlineData_yields written supply operation after success
    exact ⟨.nil, rfl⟩
  binding _ _ := trivial
  graph {_ _ _ block input _ _ after} _ _ named alike := by
    obtain ⟨held, rfl⟩ := alike
    have moves : Embedding.Moves ⟨block, none, true⟩ .defaultGraph block :=
      ⟨varOrIri_ne_defaultGraph named, .inl ⟨rfl, rfl, rfl⟩⟩
    rw [withQuads_self, quads]
    have yields : Yields (fun operation : Operation => AllHeld .defaultGraph false operation.sites)
        (do
          let input ← context.embedGraph block input
          pure (input.graph block)) :=
      (embed_holds input moves held).bind fun input held => .pure (AllHeld.within.2 held)
    have agree := Yields.agree (R := Likeness.held.operations) fun supply operation after success =>
      ⟨yields supply operation after success, rfl⟩
    exact agree after

/-- Where graph names go into patterns, every pattern and path of what a pattern or a query becomes
names the graph of the innermost block around it, and the default graph in a service block and
outside all blocks. In a value that is bound to a variable it may stand in the default graph. -/
theorem names_enclosing_graphs (plain : context.MakesPlain) (quads : context.quads = true) :
    (∀ pattern, Yields Operation.NamesEnclosingGraphs (context.pattern pattern))
      ∧ ∀ query, Yields Operation.NamesEnclosingGraphs (context.query query) := by
  have keeps := context.keeps_held plain quads
  constructor
  · intro pattern supply operation after success
    have agree := agree_pattern keeps pattern fun _ _ => trivial
    exact Operation.namesEnclosingGraphs_iff.2 (agree.yields supply operation after success)
  · intro query supply operation after success
    have agree := agree_query keeps trivial query fun _ _ => trivial
    exact Operation.namesEnclosingGraphs_iff.2 (agree.yields supply operation after success)

/-- The context of default options, but that graph names go into patterns. -/
private def namingGraphs : Context := ofOptions .plain (Options.withQuads {} true)

/-- `?s <http://ex.org/p> ?o`. -/
private def linked : Surface.Pattern :=
  .bgp [⟨.term (.var ⟨"s"⟩), .simple (.iri ⟨.full "http://ex.org/p", .none⟩),
    .term (.var ⟨"o"⟩)⟩] .none

/-- `GRAPH ?g { SERVICE <http://ex.org/s> { … } GRAPH ?h { … } FILTER EXISTS { … } }` with the same
triple in all three places. -/
private def blocksInBlock : Surface.Pattern :=
  .graph (.var ⟨"g"⟩)
    (.group [
      .service false (.iri ⟨.full "http://ex.org/s", .none⟩) (.group [linked] .none) .none,
      .graph (.var ⟨"h"⟩) (.group [linked] .none) .none,
      .filter (.existence false (.group [linked] .none)) .none] .none) .none

/-- Each of three blocks around a pattern says its graph. -/
theorem names_enclosing_graphs_blocksInBlock : ∃ operation after,
    namingGraphs.MakesPlain ∧ namingGraphs.quads = true
      ∧ namingGraphs.pattern blocksInBlock (.ofNames blocksInBlock.names) = .ok operation after
      ∧ operation.sites.map (·.graph) = [.defaultGraph, .var ⟨"h"⟩, .var ⟨"g"⟩]
      ∧ operation.NamesEnclosingGraphs := by
  have plain : namingGraphs.MakesPlain := rfl
  refine ⟨_, _, plain, rfl, rfl, by decide, ?_⟩
  exact (names_enclosing_graphs plain rfl).1 blocksInBlock (.ofNames blocksInBlock.names) _ _ rfl

/-- `GRAPH ?g { BIND(EXISTS { ?s <http://ex.org/p> ?o } AS ?x) }`. -/
private def boundExistence : Surface.Pattern :=
  .graph (.var ⟨"g"⟩)
    (.group [.bind (.existence false (.group [linked] .none)) ⟨"x"⟩ .none] .none) .none

/-- A pattern that a bound value asks about stays in the default graph. -/
theorem not_enclosing_boundExistence : ∃ operation after,
    namingGraphs.pattern boundExistence (.ofNames boundExistence.names) = .ok operation after
      ∧ ¬ ∀ site ∈ operation.sites, site.graph = site.enclosing := by
  refine ⟨_, _, rfl, ?_⟩
  decide

end Context

end QueryAlgebra
