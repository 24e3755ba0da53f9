import QueryAlgebra.Proofs.Operation.Correspondence
import QueryAlgebra.Proofs.Operation.NamedGraphs

/-! # Correspondence and the graphs of patterns

Operations that correspond still do so when all of their patterns and paths are put into the graphs
of the blocks around them: `Operation.Corresponds.inBlockGraphs`.
-/

namespace QueryAlgebra

variable {related : LocalName → LocalName → Prop}

namespace Term.Corresponds

variable {first second : Term}

theorem asGraph (correspond : first.Corresponds related second) :
    first.asGraph.Corresponds related second.asGraph := by
  cases correspond with
  | var isRelated => exact .var isRelated
  | iri node => exact .iri node
  | _ => exact .defaultGraph

theorem asTemplateGraph (correspond : first.Corresponds related second) :
    first.asGraph.Corresponds (InTemplate related) second.asGraph := by
  cases correspond with
  | var isRelated => exact .var (.var isRelated)
  | iri node => exact .iri node
  | _ => exact .defaultGraph

end Term.Corresponds

private theorem patterns_inGraph {related : LocalName → LocalName → Prop} {graph graph' : Term}
    (ofGraph : graph.Corresponds related graph') {first second : List Pattern}
    (correspond : List.Forall₂ (Pattern.Corresponds related) first second) :
    List.Forall₂ (Pattern.Corresponds related) (first.map (·.inGraph graph))
      (second.map (·.inGraph graph')) :=
  List.forall₂_map_left_iff.2 <| List.forall₂_map_right_iff.2 <| correspond.imp fun _ _ pattern =>
    ⟨pattern.subject, pattern.predicate, pattern.object, ofGraph⟩

/-- The blocks that corresponding wrappers make correspond. -/
private theorem Wrapper.Corresponds.block {wrapper wrapper' : Wrapper}
    (correspond : wrapper.Corresponds related wrapper') {block block' : Term}
    (ofBlock : block.Corresponds related block') :
    (wrapper.block?.getD block).Corresponds related (wrapper'.block?.getD block') := by
  cases correspond with
  | graph name => exact name
  | service => exact .defaultGraph
  | _ => exact ofBlock

mutual

theorem Operation.Corresponds.inGraphs : ∀ {first second : Operation} {block block' : Term},
    block.Corresponds related block' → first.Corresponds related second →
    (first.inGraphs Term.asGraph block).Corresponds related (second.inGraphs Term.asGraph block')
  | ⟨_, _⟩, _, _, _, ofBlock, .mk metadata operators =>
    .mk metadata (Operator.Corresponds.inGraphs ofBlock operators)
termination_by structural first => first

theorem Operator.Corresponds.inGraphs : ∀ {first second : Operator} {block block' : Term},
    block.Corresponds related block' → first.Corresponds related second →
    (first.inGraphs Term.asGraph block).Corresponds related (second.inGraphs Term.asGraph block')
  | .bgp _, _, _, _, ofBlock, .bgp patterns => .bgp (patterns_inGraph ofBlock.asGraph patterns)
  | .values _ _, _, _, _, _, .values vars rows => .values vars rows
  | .nop, _, _, _, _, .nop => .nop
  | .path .., _, _, _, ofBlock, .path predicate subject object _ =>
    .path predicate subject object ofBlock.asGraph
  | .manage _, _, _, _, _, .manage action => .manage action
  | .wrap _ _, _, _, _, ofBlock, .wrap wrapper input =>
    .wrap wrapper (Operation.Corresponds.inGraphs (wrapper.block ofBlock) input)
  | .filter _ _, _, _, _, ofBlock, .filter input condition =>
    .filter (Operation.Corresponds.inGraphs ofBlock input)
      (Expression.Corresponds.inGraphs ofBlock condition)
  | .extend _ _ _, _, _, _, ofBlock, .extend input name value =>
    .extend (Operation.Corresponds.inGraphs ofBlock input) name
      (Expression.Corresponds.inGraphs ofBlock value)
  | .group _ _ _, _, _, _, ofBlock, .group input keys aggregates =>
    .group (Operation.Corresponds.inGraphs ofBlock input) keys
      (BoundAggregate.Corresponds.allInGraphs ofBlock aggregates)
  | .orderBy _ _, _, _, _, ofBlock, .orderBy input keys =>
    .orderBy (Operation.Corresponds.inGraphs ofBlock input)
      (Expression.Corresponds.allInGraphs ofBlock keys)
  | .construct _ _, _, _, _, ofBlock, .construct input template =>
    .construct (Operation.Corresponds.inGraphs ofBlock input)
      (patterns_inGraph ofBlock.asTemplateGraph template)
  | .combine _ _, _, _, _, ofBlock, .combine how inputs =>
    .combine how (Operation.Corresponds.allInGraphs ofBlock inputs)
  | .leftJoin _ _ _, _, _, _, ofBlock, .leftJoin left right .none =>
    .leftJoin (Operation.Corresponds.inGraphs ofBlock left)
      (Operation.Corresponds.inGraphs ofBlock right) .none
  | .leftJoin _ _ _, _, _, _, ofBlock, .leftJoin left right (.some condition) =>
    .leftJoin (Operation.Corresponds.inGraphs ofBlock left)
      (Operation.Corresponds.inGraphs ofBlock right)
      (.some (Expression.Corresponds.inGraphs ofBlock condition))
  | .minus _ _, _, _, _, ofBlock, .minus left right =>
    .minus (Operation.Corresponds.inGraphs ofBlock left)
      (Operation.Corresponds.inGraphs ofBlock right)
  | .deleteInsert .., _, _, _, _, .deleteInsert delete insert scope =>
    .deleteInsert delete insert scope
termination_by structural first => first

theorem Expression.Corresponds.inGraphs : ∀ {first second : Expression} {block block' : Term},
    block.Corresponds related block' → first.Corresponds related second →
    (first.inGraphs Term.asGraph block).Corresponds related (second.inGraphs Term.asGraph block')
  | .term _, _, _, _, _, .term value => .term value
  | .call _ _, _, _, _, ofBlock, .call callee arguments =>
    .call callee (Expression.Corresponds.allInGraphs ofBlock arguments)
  | .aggregate .., _, _, _, ofBlock, .aggregate name distinct separator argument =>
    .aggregate name distinct separator (Expression.Corresponds.inGraphs ofBlock argument)
  | .existence _ _, _, _, _, ofBlock, .existence negated input =>
    .existence negated (Operation.Corresponds.inGraphs ofBlock input)
  | .wildcard, _, _, _, _, .wildcard => .wildcard
termination_by structural first => first

theorem Operation.Corresponds.allInGraphs : ∀ {first second : List Operation}
    {block block' : Term}, block.Corresponds related block' →
    List.Forall₂ (Operation.Corresponds related) first second →
    List.Forall₂ (Operation.Corresponds related) (Operation.allInGraphs Term.asGraph block first)
      (Operation.allInGraphs Term.asGraph block' second)
  | [], _, _, _, _, .nil => .nil
  | _ :: _, _, _, _, ofBlock, .cons head rest =>
    .cons (Operation.Corresponds.inGraphs ofBlock head)
      (Operation.Corresponds.allInGraphs ofBlock rest)
termination_by structural first => first

theorem Expression.Corresponds.allInGraphs : ∀ {first second : List Expression}
    {block block' : Term}, block.Corresponds related block' →
    List.Forall₂ (Expression.Corresponds related) first second →
    List.Forall₂ (Expression.Corresponds related) (Expression.allInGraphs Term.asGraph block first)
      (Expression.allInGraphs Term.asGraph block' second)
  | [], _, _, _, _, .nil => .nil
  | _ :: _, _, _, _, ofBlock, .cons head rest =>
    .cons (Expression.Corresponds.inGraphs ofBlock head)
      (Expression.Corresponds.allInGraphs ofBlock rest)
termination_by structural first => first

theorem BoundAggregate.Corresponds.allInGraphs : ∀ {first second : List BoundAggregate}
    {block block' : Term}, block.Corresponds related block' →
    List.Forall₂ (BoundAggregate.Corresponds related) first second →
    List.Forall₂ (BoundAggregate.Corresponds related)
      (BoundAggregate.allInGraphs Term.asGraph block first)
      (BoundAggregate.allInGraphs Term.asGraph block' second)
  | [], _, _, _, _, .nil => .nil
  | ⟨_, _⟩ :: _, _, _, _, ofBlock, .cons (.mk name expression) rest =>
    .cons (.mk name (Expression.Corresponds.inGraphs ofBlock expression))
      (BoundAggregate.Corresponds.allInGraphs ofBlock rest)
termination_by structural first => first

end

/-- With their patterns in the graphs of the blocks around them, operations still correspond. -/
theorem Operation.Corresponds.inBlockGraphs {first second : Operation}
    (correspond : first.Corresponds related second) :
    first.inBlockGraphs.Corresponds related second.inBlockGraphs :=
  correspond.inGraphs .defaultGraph

end QueryAlgebra
