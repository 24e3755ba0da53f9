import QueryAlgebra.Proofs.Lowering.Segments

/-! # The pieces of a basic graph pattern

Triples become one basic graph pattern or path, or a join of several, all in the graph that the
terms of the request are in. Inline data becomes a table.
-/

namespace QueryAlgebra

open Lowering (Yields)

/-- The graph that a piece is matched in. -/
def Fragment.graph : Fragment → Term
  | .pattern triple => triple.graph
  | .path _ _ _ own => own

/-- A basic graph pattern or path without metadata, in one graph. -/
inductive Operation.MatchedPiece (graph : Term) : Operation → Prop where
  | bgp {patterns : List Pattern} : (∀ pattern ∈ patterns, pattern.graph = graph) →
    MatchedPiece graph (.bgp patterns)
  | path (subject : Term) (predicate : Path) (object : Term) :
    MatchedPiece graph (.of (.path subject predicate object graph))

/-- A piece or a join of pieces. -/
inductive Operation.MatchedPieces (graph : Term) : Operation → Prop where
  | piece {operation : Operation} : operation.MatchedPiece graph → MatchedPieces graph operation
  | join {inputs : List Operation} : (∀ input ∈ inputs, input.MatchedPiece graph) →
    MatchedPieces graph (.of (.combine .join inputs))

variable {graph : Term}

/-- Pieces in one graph become an operation in that graph. -/
theorem Operation.pieces_ofFragments {fragments : List Fragment}
    (inGraph : ∀ fragment ∈ fragments, fragment.graph = graph) :
    (Operation.ofFragments fragments).MatchedPieces graph := by
  refine ofFragments_cases
    (fun patterns _ given => .bgp fun pattern isPattern => inGraph _ (given pattern isPattern))
    (fun subject predicate object own given => ?_) (.piece (.bgp (List.forall_mem_nil _)))
    (fun _ => .piece) fun _ _ _ => .join
  obtain rfl : own = graph := inGraph _ given
  exact .path subject predicate object

namespace Context

variable (context : Context)

mutual

private theorem fragments_inGraph : ∀ (path : Path) (subject object : Term),
    Yields (fun fragments => ∀ fragment ∈ fragments,
      fragment.graph = context.factory.defaultGraph) (context.fragments subject path object)
  | .link _, _, _ => by
    rw [fragments]
    exact .pure (List.forall_mem_singleton.2 rfl)
  | .inverse path, subject, object => by
    rw [fragments]
    exact fragments_inGraph path object subject
  | .seq steps, subject, object => by
    rw [fragments]
    exact stepFragments_inGraph steps subject object
  | .alt _, _, _ | .zeroOrMore _, _, _ | .oneOrMore _, _, _ | .zeroOrOne _, _, _
  | .negated _, _, _ => by
    simp only [fragments]
    exact .pure (List.forall_mem_singleton.2 rfl)

private theorem stepFragments_inGraph : ∀ (steps : List Path) (subject object : Term),
    Yields (fun fragments => ∀ fragment ∈ fragments,
      fragment.graph = context.factory.defaultGraph) (context.stepFragments subject steps object)
  | [], _, _ => by
    rw [stepFragments]
    exact .pure (List.forall_mem_singleton.2 rfl)
  | [step], subject, object => by
    rw [stepFragments]
    exact fragments_inGraph step subject object
  | step :: next :: steps, subject, object => by
    rw [stepFragments]
    exact .bind_any fun between => (fragments_inGraph step subject _).bind fun first ofFirst =>
      (stepFragments_inGraph (next :: steps) _ object).bind fun rest ofRest =>
        .pure (List.forall_mem_append.2 ⟨ofFirst, ofRest⟩)

end

private theorem allFragments_inGraph (triples : List FlatTriple) :
    Yields (fun fragments => ∀ fragment ∈ fragments,
      fragment.graph = context.factory.defaultGraph) (context.allFragments triples) := by
  induction triples with
  | nil => exact .pure (List.forall_mem_nil _)
  | cons triple rest ih =>
    have first : Yields (fun fragments => ∀ fragment ∈ fragments,
        fragment.graph = context.factory.defaultGraph) (context.tripleFragments triple) := by
      rw [tripleFragments]
      split
      · exact .pure (List.forall_mem_singleton.2 rfl)
      · exact .bind_any fun path => fragments_inGraph context path _ _
    rw [allFragments]
    exact first.bind fun first ofFirst => ih.bind fun others ofOthers =>
      .pure (List.forall_mem_append.2 ⟨ofFirst, ofOthers⟩)

/-- Triples become pieces in the graph that the terms of the request are in. -/
theorem basicGraphPattern_yields (written : List Surface.Triple) :
    Yields (Operation.MatchedPieces context.factory.defaultGraph)
      (context.basicGraphPattern written) := by
  rw [basicGraphPattern]
  exact .bind_any fun flat => (allFragments_inGraph context flat).bind fun fragments inGraph =>
    .pure (Operation.pieces_ofFragments inGraph)

/-- Inline data becomes a table. -/
theorem inlineData_yields (data : Surface.InlineData) :
    Yields (fun operation => ∃ vars rows, operation = .of (.values vars rows))
      (context.inlineData data) := by
  rw [inlineData]
  exact .bind_any fun rows => .pure ⟨_, rows, rfl⟩

end Context

end QueryAlgebra
