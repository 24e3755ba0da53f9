import QueryAlgebra.Proofs.Lowering.Likeness
import QueryAlgebra.Proofs.Lowering.MatchedPieces
import QueryAlgebra.Proofs.Operation.NamedGraphs

/-! # Operations with and without graph names in patterns

An operation whose patterns and paths are in the default graph is related to what it becomes when it
is placed from an area on. If the operators of patterns and queries, other than graph blocks, do not
lead out of this area, and its graph is the default graph, then they keep the relation:
`Likeness.placedBy_closed`.
-/

namespace QueryAlgebra

variable {Area : Type} {placing : Placing Area} {start : Area}

/-- The operators of patterns and queries, other than graph blocks, stay in an area, whose graph is
the default graph. -/
structure Placing.StaysIn (placing : Placing Area) (start : Area) : Prop where
  enter {wrapper : Wrapper} (other : ∀ name, wrapper ≠ .graph name) :
    placing.enter wrapper start = start
  bind (name : Variable) : placing.bind name start = start
  value : placing.value start = start
  graph : placing.graph start = .defaultGraph

/-- What has no graph names in patterns, related to what is placed from an area on. -/
def Likeness.placedBy (placing : Placing Area) (start : Area) : Likeness where
  operations plain named := plain.InDefault ∧ plain.place placing start = named
  expressions plain named := plain.InDefault ∧ plain.place placing start = named

namespace Likeness

theorem placedBy_expressions {plain named : List Expression} :
    List.Forall₂ (placedBy placing start).expressions plain named
      ↔ (∀ block, Expression.allInGraphs (fun _ => .defaultGraph) block plain = plain)
        ∧ Expression.allPlaced placing start plain = named := by
  induction plain generalizing named with
  | nil => simp [Expression.allInGraphs, Expression.allPlaced, eq_comm]
  | cons expression rest ih =>
    rw [List.forall₂_cons_left_iff]
    constructor
    · rintro ⟨expression', rest', ⟨inDefault, rfl⟩, ofRest, rfl⟩
      obtain ⟨areInDefault, rfl⟩ := ih.1 ofRest
      exact ⟨fun block => congrArg₂ List.cons (inDefault block) (areInDefault block), rfl⟩
    · rintro ⟨areInDefault, rfl⟩
      exact ⟨_, _, ⟨fun block => (List.cons.inj (areInDefault block)).1, rfl⟩,
        ih.2 ⟨fun block => (List.cons.inj (areInDefault block)).2, rfl⟩, rfl⟩

private theorem placedBy_aggregates {plain named : List BoundAggregate}
    (alike : List.Forall₂ (placedBy placing start).Aggregates plain named) :
    (∀ block, BoundAggregate.allInGraphs (fun _ => .defaultGraph) block plain = plain)
      ∧ BoundAggregate.allPlaced placing start plain = named := by
  induction alike with
  | nil => exact ⟨fun _ => rfl, rfl⟩
  | @cons bound bound' rest _ ofBound _ ih =>
    obtain ⟨name, expression⟩ := bound
    obtain ⟨name', expression'⟩ := bound'
    obtain ⟨rfl, inDefault, rfl⟩ := ofBound
    obtain ⟨areInDefault, rfl⟩ := ih
    refine ⟨fun block => ?_, rfl⟩
    rw [BoundAggregate.allInGraphs, inDefault, areInDefault]

/-- The operators of patterns and queries put no graph names into patterns. -/
theorem placedBy_closed (stays : placing.StaysIn start) : (placedBy placing start).Closed True where
  term _ := ⟨fun _ => rfl, rfl⟩
  wildcard := ⟨fun _ => rfl, rfl⟩
  call callee _ _ alike := by
    obtain ⟨inDefault, rfl⟩ := placedBy_expressions.1 alike
    exact ⟨fun block => congrArg (Expression.call callee) (inDefault block), rfl⟩
  aggregate name distinct separator := by
    rintro _ _ ⟨inDefault, rfl⟩
    exact ⟨fun block => congrArg (Expression.aggregate name · distinct separator) (inDefault block),
      rfl⟩
  existence negated := by
    rintro _ _ ⟨inDefault, rfl⟩
    exact ⟨fun block => congrArg (Expression.existence negated) (inDefault block), rfl⟩
  empty := ⟨fun _ => rfl, rfl⟩
  simplifiedJoin := by
    rintro _ _ _ _ ⟨ofLeft, rfl⟩ ⟨ofRight, rfl⟩
    refine ⟨fun block => ?_, place_simplifiedJoin ..⟩
    rw [inGraphs_simplifiedJoin, ofLeft, ofRight]
  join := by
    rintro _ _ _ _ ⟨ofLeft, rfl⟩ ⟨ofRight, rfl⟩
    refine ⟨fun block => ?_, Operation.place_join ..⟩
    rw [Operation.inGraphs_join, List.map_cons, List.map_cons, List.map_nil, ofLeft, ofRight]
  union := by
    rintro _ _ _ _ ⟨ofLeft, rfl⟩ ⟨ofRight, rfl⟩
    refine ⟨fun block => ?_, Operation.place_union ..⟩
    rw [Operation.inGraphs_union, List.map_cons, List.map_cons, List.map_nil, ofLeft, ofRight]
  leftJoinOf := by
    rintro _ _ _ _ ⟨ofLeft, rfl⟩ ⟨ofRight, rfl⟩
    refine ⟨fun block => ?_, place_leftJoinOf ..⟩
    rw [inGraphs_leftJoinOf, ofLeft, ofRight]
  minus := by
    rintro _ _ _ _ ⟨ofLeft, rfl⟩ ⟨ofRight, rfl⟩
    exact ⟨fun block => congrArg₂ (fun left right => Operation.of (.minus left right))
      (ofLeft block) (ofRight block), rfl⟩
  filter := by
    rintro _ _ _ _ ⟨ofInput, rfl⟩ ⟨ofCondition, rfl⟩
    exact ⟨fun block => congrArg₂ (fun input condition => Operation.of (.filter input condition))
      (ofInput block) (ofCondition block), rfl⟩
  service name silent := by
    rintro input _ ⟨inDefault, rfl⟩
    refine ⟨fun _ => congrArg (fun input => Operation.of (.wrap (.service name silent) input))
      (inDefault _), ?_⟩
    have other (graph : Term) : Wrapper.service name silent ≠ .graph graph := Wrapper.noConfusion
    rw [Operation.of, Operation.place, Operator.place, stays.enter other, Operation.of]
  extend _ name := by
    rintro _ _ _ _ ⟨ofInput, rfl⟩ ⟨ofValue, rfl⟩
    refine ⟨fun block => congrArg₂ (fun input value => Operation.of (.extend input name value))
      (ofInput block) (ofValue block), ?_⟩
    rw [Operation.of, Operation.place, Operator.place, stays.bind, stays.value, Operation.of]
  wrap _ {wrapper _ _} plain := by
    rintro ⟨inDefault, rfl⟩
    refine ⟨fun _ => congrArg (fun input => Operation.of (.wrap wrapper input)) (inDefault _), ?_⟩
    have other : ∀ name, wrapper ≠ .graph name := by
      rintro name rfl
      cases plain
    rw [Operation.of, Operation.place, Operator.place, stays.enter other, Operation.of]
  group _ keys := by
    rintro _ _ _ _ ⟨ofInput, rfl⟩ alike
    obtain ⟨ofAggregates, rfl⟩ := placedBy_aggregates alike
    exact ⟨fun block => congrArg₂
      (fun input aggregates => Operation.of (.group input keys aggregates)) (ofInput block)
      (ofAggregates block), rfl⟩
  orderBy _ := by
    rintro _ _ _ _ ⟨ofInput, rfl⟩ alike
    obtain ⟨ofKeys, rfl⟩ := placedBy_expressions.1 alike
    exact ⟨fun block => congrArg₂ (fun input keys => Operation.of (.orderBy input keys))
      (ofInput block) (ofKeys block), rfl⟩
  construct _ {template _ _} inDefault := by
    have ofTemplate := Pattern.map_inGraph inDefault
    rintro ⟨ofInput, rfl⟩
    refine ⟨fun block => congrArg₂
      (fun input template => Operation.of (.construct input template)) (ofInput block) ofTemplate,
      ?_⟩
    rw [Operation.of, Operation.place, Operator.place, stays.graph, ofTemplate, Operation.of]
  forms {first _} := by
    rintro ⟨inDefault, rfl⟩
    cases first with
    | call callee arguments =>
      exact .call callee (placedBy_expressions.2
        ⟨fun block => (Expression.call.inj (inDefault block)).2, rfl⟩)
    | _ => constructor
  shape {first _} := by
    rintro ⟨-, rfl⟩
    exact Expression.sameShape_place placing first start
  same {first _ second _} := by
    rintro ⟨ofFirst, rfl⟩ ⟨ofSecond, rfl⟩
    refine ⟨congrArg _, fun same => ?_⟩
    -- With graph names or without, expressions differ in the same places: the names can be taken out.
    have taken (expression : Expression) (inDefault : expression.InDefault) :
        (expression.place placing start).inDefaultGraph = expression := by
      rw [Expression.inDefaultGraph, Expression.inGraphs_eq_place, Expression.place_place,
        ← Expression.inGraphs_eq_place]
      exact inDefault .defaultGraph
    rw [← taken first ofFirst, same, taken second ofSecond]

end Likeness

/-- Triples that are matched stay where they are if their graph is that of the area. -/
theorem Operation.MatchedPieces.place {operation : Operation}
    (pieces : operation.MatchedPieces (placing.graph start)) :
    operation.place placing start = operation := by
  have ofPiece {input : Operation} (piece : input.MatchedPiece (placing.graph start)) :
      input.place placing start = input := by
    cases piece with
    | bgp inGraph => rw [bgp, of, Operation.place, Operator.place, Pattern.map_inGraph inGraph]
    | path => rfl
  cases pieces with
  | piece piece => exact ofPiece piece
  | @join inputs arePieces =>
    have same : inputs.map (Operation.place placing start) = inputs :=
      (List.map_congr_left fun input member => ofPiece (arePieces input member)).trans
        (List.map_id inputs)
    rw [of, Operation.place, Operator.place, allPlaced_eq_map, same]

/-- Triples that are matched in the default graph stay where they are, whatever is around them. -/
theorem Operation.MatchedPieces.inDefault {operation : Operation}
    (pieces : operation.MatchedPieces .defaultGraph) : operation.InDefault := fun block => by
  rw [Operation.inGraphs_eq_place]
  exact @place _ (.ofBlocks fun _ => .defaultGraph) block _ pieces

end QueryAlgebra
