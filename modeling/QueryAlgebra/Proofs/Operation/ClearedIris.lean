import QueryAlgebra.Operation.EmbeddedGraphs
import QueryAlgebra.Proofs.Operation.GraphsTakenOut
import QueryAlgebra.Proofs.Operation.Iris

/-! # IRIs without graph names

Rebuilding an operation from parts with absolute IRIs leaves all IRIs absolute, and so does taking
graph names out of its patterns: `Operation.absolute_withoutEmbeddedGraphs`.
-/

namespace QueryAlgebra

/-- A rebuilding that makes no IRI relative. -/
structure Rebuild.KeepsAbsolute (change : Rebuild) : Prop where
  pattern (place : Place) {pattern : Pattern} : AllAbsolute pattern.iris →
    AllAbsolute (change.pattern place pattern).iris
  expression {expression : Expression} : AllAbsolute expression.iris →
    AllAbsolute (change.expression expression).iris
  operation {operation : Operation} : AllAbsolute operation.iris →
    AllAbsolute (change.operation operation).iris

variable {change : Rebuild}

namespace Rebuild.KeepsAbsolute

private theorem patterns (keeps : change.KeepsAbsolute) (place : Place) {patterns : List Pattern}
    (absolute : AllAbsolute (patterns.flatMap Pattern.iris)) :
    AllAbsolute ((patterns.map (change.pattern place)).flatMap Pattern.iris) :=
  AllAbsolute.flatMap.2 (List.forall_mem_map.2 fun pattern member =>
    keeps.pattern place (AllAbsolute.flatMap.1 absolute pattern member))

private theorem optional (keeps : change.KeepsAbsolute) (place : Place)
    {patterns : Option (List Pattern)}
    (absolute : AllAbsolute ((patterns.getD []).flatMap Pattern.iris)) :
    AllAbsolute (((patterns.map (·.map (change.pattern place))).getD []).flatMap Pattern.iris) := by
  cases patterns with
  | none => exact .nil
  | some patterns => exact keeps.patterns place absolute

end Rebuild.KeepsAbsolute

mutual

/-- IRIs are absolute after a rebuilding of parts that keeps them absolute. -/
theorem Operation.absolute_rebuild (keeps : change.KeepsAbsolute) : ∀ operation : Operation,
    AllAbsolute operation.iris → AllAbsolute (operation.rebuild change).iris
  | ⟨operator, metadata⟩, absolute => by
    rw [Operation.rebuild]
    split
    · exact absolute
    · exact keeps.operation (Operator.absolute_rebuild keeps metadata operator absolute)

theorem Operator.absolute_rebuild (keeps : change.KeepsAbsolute) (metadata : Option Metadata) :
    ∀ operator : Operator, AllAbsolute (Operation.iris ⟨operator, metadata⟩) →
    AllAbsolute (Operation.iris ⟨operator.rebuild change, metadata⟩)
  | .bgp patterns, absolute => by
    obtain ⟨ofPatterns, own⟩ := AllAbsolute.operation.1 absolute
    rw [Operator.rebuild]
    exact AllAbsolute.operation.2 ⟨keeps.patterns .bgp ofPatterns, own⟩
  | .values .., absolute | .nop, absolute | .path .., absolute | .manage _, absolute => by
    rwa [Operator.rebuild]
  | .wrap wrapper input, absolute => by
    obtain ⟨ofInput, own⟩ := AllAbsolute.operation.1 absolute
    rw [Operator.rebuild]
    refine AllAbsolute.operation.2 ⟨Operation.absolute_rebuild keeps input ofInput, ?_⟩
    cases wrapper <;> exact own
  | .filter input condition, absolute => by
    obtain ⟨ofInput, ofCondition⟩ := AllAbsolute.append.1 (AllAbsolute.operation.1 absolute).1
    rw [Operator.rebuild]
    exact AllAbsolute.filter (Operation.absolute_rebuild keeps input ofInput)
      (Expression.absolute_rebuild keeps condition ofCondition)
  | .extend input name value, absolute => by
    obtain ⟨ofInput, ofValue⟩ := AllAbsolute.append.1 (AllAbsolute.operation.1 absolute).1
    rw [Operator.rebuild]
    exact AllAbsolute.extend (Operation.absolute_rebuild keeps input ofInput) name
      (Expression.absolute_rebuild keeps value ofValue)
  | .group input keys aggregates, absolute => by
    obtain ⟨ofInput, ofAggregates⟩ := AllAbsolute.append.1 (AllAbsolute.operation.1 absolute).1
    rw [Operator.rebuild]
    exact AllAbsolute.group (Operation.absolute_rebuild keeps input ofInput) keys
      (AllAbsolute.aggregates.1 (BoundAggregate.absolute_rebuildAll keeps aggregates ofAggregates))
  | .orderBy input keys, absolute => by
    obtain ⟨ofInput, ofKeys⟩ := AllAbsolute.append.1 (AllAbsolute.operation.1 absolute).1
    rw [Operator.rebuild]
    exact AllAbsolute.orderBy (Operation.absolute_rebuild keeps input ofInput)
      (AllAbsolute.expressions.1 (Expression.absolute_rebuildAll keeps keys ofKeys))
  | .construct input template, absolute => by
    obtain ⟨ofInput, ofTemplate⟩ := AllAbsolute.append.1 (AllAbsolute.operation.1 absolute).1
    rw [Operator.rebuild]
    exact AllAbsolute.construct (Operation.absolute_rebuild keeps input ofInput)
      (AllAbsolute.flatMap.1 (keeps.patterns .template ofTemplate))
  | .combine how inputs, absolute => by
    rw [Operator.rebuild]
    exact AllAbsolute.combine (AllAbsolute.operations.1
      (Operation.absolute_rebuildAll keeps inputs (AllAbsolute.operation.1 absolute).1))
  | .leftJoin left right none, absolute => by
    obtain ⟨ofLeft, ofRight⟩ := AllAbsolute.append.1 (AllAbsolute.operation.1 absolute).1
    rw [Operator.rebuild]
    exact AllAbsolute.operation.2 ⟨AllAbsolute.append.2
      ⟨Operation.absolute_rebuild keeps left ofLeft,
        Operation.absolute_rebuild keeps right ofRight⟩,
      .nil⟩
  | .leftJoin left right (some condition), absolute => by
    obtain ⟨ofSides, ofCondition⟩ := AllAbsolute.append.1 (AllAbsolute.operation.1 absolute).1
    obtain ⟨ofLeft, ofRight⟩ := AllAbsolute.append.1 ofSides
    rw [Operator.rebuild]
    exact AllAbsolute.operation.2 ⟨AllAbsolute.append.2 ⟨AllAbsolute.append.2
      ⟨Operation.absolute_rebuild keeps left ofLeft,
        Operation.absolute_rebuild keeps right ofRight⟩,
      Expression.absolute_rebuild keeps condition ofCondition⟩, .nil⟩
  | .minus left right, absolute => by
    obtain ⟨ofLeft, ofRight⟩ := AllAbsolute.append.1 (AllAbsolute.operation.1 absolute).1
    rw [Operator.rebuild]
    exact AllAbsolute.minus (Operation.absolute_rebuild keeps left ofLeft)
      (Operation.absolute_rebuild keeps right ofRight)
  | .deleteInsert delete insert none, absolute => by
    obtain ⟨ofDelete, ofInsert⟩ := AllAbsolute.append.1 (AllAbsolute.operation.1 absolute).1
    rw [Operator.rebuild]
    exact AllAbsolute.operation.2 ⟨AllAbsolute.append.2
      ⟨keeps.optional .delete ofDelete, keeps.optional .insert ofInsert⟩, .nil⟩
  | .deleteInsert delete insert (some scope), absolute => by
    obtain ⟨ofTemplates, ofScope⟩ := AllAbsolute.append.1 (AllAbsolute.operation.1 absolute).1
    obtain ⟨ofDelete, ofInsert⟩ := AllAbsolute.append.1 ofTemplates
    rw [Operator.rebuild]
    exact AllAbsolute.operation.2 ⟨AllAbsolute.append.2 ⟨AllAbsolute.append.2
      ⟨keeps.optional .delete ofDelete, keeps.optional .insert ofInsert⟩,
      Operation.absolute_rebuild keeps scope ofScope⟩, .nil⟩

theorem Expression.absolute_rebuild (keeps : change.KeepsAbsolute) : ∀ expression : Expression,
    AllAbsolute expression.iris → AllAbsolute (expression.rebuild change).iris
  | .term _, absolute => by
    rw [Expression.rebuild]
    exact keeps.expression absolute
  | .wildcard, absolute => by
    rw [Expression.rebuild]
    exact keeps.expression absolute
  | .call callee arguments, absolute => by
    obtain ⟨ofArguments, ofCallee⟩ := AllAbsolute.append.1 absolute
    rw [Expression.rebuild]
    refine keeps.expression (AllAbsolute.append.2
      ⟨Expression.absolute_rebuildAll keeps arguments ofArguments, ?_⟩)
    cases callee <;> exact ofCallee
  | .aggregate _ argument _ _, absolute => by
    rw [Expression.rebuild]
    exact keeps.expression (AllAbsolute.append.2
      ⟨Expression.absolute_rebuild keeps argument (AllAbsolute.append.1 absolute).1, .nil⟩)
  | .existence _ input, absolute => by
    rw [Expression.rebuild]
    exact keeps.expression (AllAbsolute.append.2
      ⟨Operation.absolute_rebuild keeps input (AllAbsolute.append.1 absolute).1, .nil⟩)

theorem Operation.absolute_rebuildAll (keeps : change.KeepsAbsolute) :
    ∀ operations : List Operation, AllAbsolute (Operation.gatherAll .allIris operations) →
    AllAbsolute (Operation.gatherAll .allIris (Operation.rebuildAll change operations))
  | [], _ => .nil
  | operation :: rest, absolute => by
    obtain ⟨ofFirst, ofRest⟩ := AllAbsolute.append.1 absolute
    exact AllAbsolute.append.2 ⟨Operation.absolute_rebuild keeps operation ofFirst,
      Operation.absolute_rebuildAll keeps rest ofRest⟩

theorem Expression.absolute_rebuildAll (keeps : change.KeepsAbsolute) :
    ∀ expressions : List Expression, AllAbsolute (Expression.gatherAll .allIris expressions) →
    AllAbsolute (Expression.gatherAll .allIris (Expression.rebuildAll change expressions))
  | [], _ => .nil
  | expression :: rest, absolute => by
    obtain ⟨ofFirst, ofRest⟩ := AllAbsolute.append.1 absolute
    exact AllAbsolute.append.2 ⟨Expression.absolute_rebuild keeps expression ofFirst,
      Expression.absolute_rebuildAll keeps rest ofRest⟩

theorem BoundAggregate.absolute_rebuildAll (keeps : change.KeepsAbsolute) :
    ∀ aggregates : List BoundAggregate,
    AllAbsolute (BoundAggregate.gatherAll .allIris aggregates) →
    AllAbsolute (BoundAggregate.gatherAll .allIris (BoundAggregate.rebuildAll change aggregates))
  | [], _ => .nil
  | ⟨_, expression⟩ :: rest, absolute => by
    obtain ⟨ofFirst, ofRest⟩ := AllAbsolute.append.1 absolute
    exact AllAbsolute.append.2 ⟨Expression.absolute_rebuild keeps expression ofFirst,
      BoundAggregate.absolute_rebuildAll keeps rest ofRest⟩

end

/-! ### Graph names -/

namespace Operation

private theorem absolute_inDefaultGraph {pattern : Pattern} (absolute : AllAbsolute pattern.iris) :
    AllAbsolute pattern.inDefaultGraph.iris := by
  obtain ⟨ofSubject, ofPredicate, ofObject, _⟩ := AllAbsolute.pattern.1 absolute
  exact AllAbsolute.pattern.2 ⟨ofSubject, ofPredicate, ofObject, .nil⟩

/-- The IRIs of a path in another graph. -/
private theorem absolute_path {subject object graph other : Term} {predicate : Path}
    {metadata : Option Metadata}
    (absolute : AllAbsolute (Operation.iris ⟨.path subject predicate object graph, metadata⟩))
    (ofOther : AllAbsolute other.iris) :
    AllAbsolute (Operation.iris ⟨.path subject predicate object other, metadata⟩) := by
  obtain ⟨ofPredicate, ofTerms⟩ := AllAbsolute.append.1 (AllAbsolute.operation.1 absolute).2
  refine AllAbsolute.operation.2 ⟨.nil, AllAbsolute.append.2 ⟨ofPredicate, ?_⟩⟩
  rw [AllAbsolute.flatMap, List.forall_mem_cons, List.forall_mem_cons,
    List.forall_mem_singleton] at ofTerms ⊢
  exact ⟨ofTerms.1, ofTerms.2.1, ofOther⟩

private theorem absolute_graphOfPath {subject object graph : Term} {predicate : Path}
    {metadata : Option Metadata}
    (absolute : AllAbsolute (Operation.iris ⟨.path subject predicate object graph, metadata⟩)) :
    AllAbsolute graph.iris :=
  AllAbsolute.flatMap.1 (AllAbsolute.append.1 (AllAbsolute.operation.1 absolute).2).2 graph
    (List.mem_cons_of_mem _ (List.mem_cons_of_mem _ (List.mem_singleton_self graph)))

private theorem clearing_keepsAbsolute (name : Term) : (clearing name).KeepsAbsolute where
  pattern _ pattern absolute := by
    show AllAbsolute (Pattern.iris (if _ then _ else _))
    split
    · exact absolute_inDefaultGraph absolute
    · exact absolute
  expression := id
  operation {operation} absolute := by
    obtain ⟨operator, metadata⟩ := operation
    cases operator with
    | path =>
      refine absolute_path absolute ?_
      split
      · exact .nil
      · exact absolute_graphOfPath absolute
    | _ => exact absolute

private theorem clearingBlocks_keepsAbsolute : clearingBlocks.KeepsAbsolute where
  pattern _ _ := id
  expression := id
  operation {operation} absolute := by
    obtain ⟨operator, metadata⟩ := operation
    cases isBlock : operator.isGraph with
    | false => rwa [clearingBlocks_same operator metadata isBlock]
    | true =>
      cases operator with
      | wrap wrapper input =>
        cases wrapper with
        | graph name =>
          obtain ⟨ofInput, own⟩ := AllAbsolute.operation.1 absolute
          exact AllAbsolute.operation.2
            ⟨absolute_rebuild (clearing_keepsAbsolute name) input ofInput, own⟩
        | _ => cases isBlock
      | _ => cases isBlock

private theorem absolute_ofGraphPart {part : Term × List Pattern} (named : AllAbsolute part.1.iris)
    (absolute : ∀ pattern ∈ part.2, AllAbsolute pattern.iris) :
    AllAbsolute (ofGraphPart part).iris := by
  have patterns : AllAbsolute (bgp (part.2.map Pattern.inDefaultGraph)).iris :=
    AllAbsolute.bgp.2 (List.forall_mem_map.2 fun pattern member =>
      absolute_inDefaultGraph (absolute pattern member))
  rw [ofGraphPart]
  split
  · exact patterns
  · exact AllAbsolute.wrap patterns (AllAbsolute.flatMap.2 (List.forall_mem_singleton.2 named))

private theorem absolute_splitByGraph {patterns : List Pattern} (metadata : Option Metadata)
    (absolute : ∀ pattern ∈ patterns, AllAbsolute pattern.iris) :
    AllAbsolute (Operation.iris ⟨.splitByGraph patterns, metadata⟩) := by
  rw [Operator.splitByGraph]
  split
  · exact AllAbsolute.bgp.2 absolute
  · have parts : ∀ part ∈ (Pattern.byGraph patterns).map ofGraphPart, AllAbsolute part.iris := by
      intro part member
      obtain ⟨⟨name, others⟩, ofGraph, rfl⟩ := List.mem_map.1 member
      obtain ⟨graph, isGraph, same⟩ := List.mem_map.1 ofGraph
      obtain ⟨rfl, rfl⟩ := Prod.ext_iff.1 same
      obtain ⟨pattern, isPattern, rfl⟩ := List.mem_map.1 (List.mem_eraseDups.1 isGraph)
      exact absolute_ofGraphPart (AllAbsolute.pattern.1 (absolute pattern isPattern)).2.2.2
        fun other inGraph => absolute other (List.mem_filter.1 inGraph).1
    split
    · rename_i part isOnly
      have ofPart := parts part (isOnly ▸ List.mem_singleton_self part)
      obtain ⟨operator, _⟩ := part
      exact ofPart
    · exact AllAbsolute.join parts

private theorem wrapping_keepsAbsolute : wrapping.KeepsAbsolute where
  pattern _ _ := id
  expression := id
  operation {operation} absolute := by
    obtain ⟨operator, metadata⟩ := operation
    cases operator with
    | bgp patterns => exact absolute_splitByGraph metadata (AllAbsolute.bgp.1 absolute)
    | path subject predicate object graph =>
      show AllAbsolute (Operation.iris (if graph.isDefaultGraph = true then _ else _))
      split
      · exact absolute
      · exact AllAbsolute.wrap (absolute_path absolute .nil)
          (AllAbsolute.flatMap.2 (List.forall_mem_singleton.2 (absolute_graphOfPath absolute)))
    | _ => exact absolute

/-- Taking graph names out of patterns makes no IRI relative. -/
theorem absolute_withoutEmbeddedGraphs {operation : Operation}
    (absolute : AllAbsolute operation.iris) : AllAbsolute operation.withoutEmbeddedGraphs.iris :=
  absolute_rebuild wrapping_keepsAbsolute _
    (absolute_rebuild clearingBlocks_keepsAbsolute operation absolute)

end Operation

end QueryAlgebra
