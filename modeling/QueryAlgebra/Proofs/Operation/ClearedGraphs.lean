import QueryAlgebra.Proofs.Operation.GraphsTakenOut
import QueryAlgebra.Proofs.Operation.NamedGraphs

/-! # Taking out the graphs of blocks

If all patterns and paths of an operation are in the graphs of the blocks around them, taking graph
names out leaves all of them in the default graph and changes nothing else:
`Operation.withoutEmbeddedGraphs_inBlockGraphs`.
-/

namespace QueryAlgebra

/-! ### Rebuilding nothing -/

/-- A rebuilding that changes no part. -/
structure Rebuild.Idle (change : Rebuild) : Prop where
  pattern (place : Place) (pattern : Pattern) : change.pattern place pattern = pattern
  expression (expression : Expression) : change.expression expression = expression
  operation (operation : Operation) : change.operation operation = operation

section

variable {change : Rebuild}

private theorem Rebuild.Idle.patterns (idle : change.Idle) (place : Place)
    (patterns : List Pattern) : patterns.map (change.pattern place) = patterns := by
  rw [funext (idle.pattern place), List.map_id']

private theorem Rebuild.Idle.optional (idle : change.Idle) (place : Place)
    (patterns : Option (List Pattern)) :
    patterns.map (·.map (change.pattern place)) = patterns := by
  cases patterns with
  | none => rfl
  | some patterns => exact congrArg some (idle.patterns place patterns)

mutual

/-- An operation is the same if no part of it changes. -/
theorem Operation.rebuild_idle (idle : change.Idle) : ∀ operation : Operation,
    operation.rebuild change = operation
  | ⟨operator, _⟩ => by
    rw [Operation.rebuild, Operator.rebuild_idle idle operator, idle.operation, ite_self]

theorem Operator.rebuild_idle (idle : change.Idle) : ∀ operator : Operator,
    operator.rebuild change = operator
  | .bgp _ => by rw [Operator.rebuild, idle.patterns]
  | .values .. | .nop | .path .. | .manage _ => by rw [Operator.rebuild]
  | .wrap _ input => by rw [Operator.rebuild, Operation.rebuild_idle idle input]
  | .filter input condition => by
    rw [Operator.rebuild, Operation.rebuild_idle idle input, Expression.rebuild_idle idle condition]
  | .extend input _ value => by
    rw [Operator.rebuild, Operation.rebuild_idle idle input, Expression.rebuild_idle idle value]
  | .group input _ aggregates => by
    rw [Operator.rebuild, Operation.rebuild_idle idle input,
      BoundAggregate.rebuildAll_idle idle aggregates]
  | .orderBy input keys => by
    rw [Operator.rebuild, Operation.rebuild_idle idle input, Expression.rebuildAll_idle idle keys]
  | .construct input _ => by
    rw [Operator.rebuild, Operation.rebuild_idle idle input, idle.patterns]
  | .combine _ inputs => by rw [Operator.rebuild, Operation.rebuildAll_idle idle inputs]
  | .leftJoin left right none => by
    rw [Operator.rebuild, Operation.rebuild_idle idle left, Operation.rebuild_idle idle right]
  | .leftJoin left right (some condition) => by
    rw [Operator.rebuild, Operation.rebuild_idle idle left, Operation.rebuild_idle idle right,
      Expression.rebuild_idle idle condition]
  | .minus left right => by
    rw [Operator.rebuild, Operation.rebuild_idle idle left, Operation.rebuild_idle idle right]
  | .deleteInsert _ _ none => by rw [Operator.rebuild, idle.optional, idle.optional]
  | .deleteInsert _ _ (some scope) => by
    rw [Operator.rebuild, idle.optional, idle.optional, Operation.rebuild_idle idle scope]

theorem Expression.rebuild_idle (idle : change.Idle) : ∀ expression : Expression,
    expression.rebuild change = expression
  | .term _ | .wildcard => by rw [Expression.rebuild, idle.expression]
  | .call _ arguments => by
    rw [Expression.rebuild, Expression.rebuildAll_idle idle arguments, idle.expression]
  | .aggregate _ argument _ _ => by
    rw [Expression.rebuild, Expression.rebuild_idle idle argument, idle.expression]
  | .existence _ input => by
    rw [Expression.rebuild, Operation.rebuild_idle idle input, idle.expression]

theorem Operation.rebuildAll_idle (idle : change.Idle) : ∀ operations : List Operation,
    Operation.rebuildAll change operations = operations
  | [] => rfl
  | operation :: rest => by
    rw [Operation.rebuildAll, Operation.rebuild_idle idle operation,
      Operation.rebuildAll_idle idle rest]

theorem Expression.rebuildAll_idle (idle : change.Idle) : ∀ expressions : List Expression,
    Expression.rebuildAll change expressions = expressions
  | [] => rfl
  | expression :: rest => by
    rw [Expression.rebuildAll, Expression.rebuild_idle idle expression,
      Expression.rebuildAll_idle idle rest]

theorem BoundAggregate.rebuildAll_idle (idle : change.Idle) : ∀ aggregates : List BoundAggregate,
    BoundAggregate.rebuildAll change aggregates = aggregates
  | [] => rfl
  | ⟨_, expression⟩ :: rest => by
    rw [BoundAggregate.rebuildAll, Expression.rebuild_idle idle expression,
      BoundAggregate.rebuildAll_idle idle rest]

end

/-- The default graph is the default graph already. -/
theorem Operation.clearGraph_defaultGraph (operation : Operation) :
    operation.clearGraph .defaultGraph = operation := by
  have idle : (clearing .defaultGraph).Idle := by
    refine ⟨fun place pattern => ?_, fun _ => rfl, fun operation => ?_⟩
    · show (if _ then _ else _) = pattern
      split
      · rename_i isDefault
        rw [Pattern.inDefaultGraph, ← isDefault]
      · rfl
    · obtain ⟨operator, metadata⟩ := operation
      cases operator with
      | path subject predicate object graph =>
        show (⟨.path subject predicate object (if graph = .defaultGraph then _ else _), metadata⟩
          : Operation) = _
        split <;> simp_all
      | _ => rfl
  exact rebuild_idle idle operation

end

/-! ### Clearing the names of blocks -/

/-- The graph of a pattern in a block is cleared with the block, unless it is the default graph. -/
private theorem asGraph_cases {name block : Term} (inside : block = name ∨ block = .defaultGraph) :
    block.asGraph = name ∨ block.asGraph = .defaultGraph := by
  rcases inside with rfl | rfl
  · cases block <;> simp [Term.asGraph]
  · exact .inr rfl

private theorem clear_patterns {name block : Term} (inside : block = name ∨ block = .defaultGraph)
    (place : Place) (patterns : List Pattern) :
    ((patterns.map (·.inGraph block.asGraph)).map (Operation.clearingBlocks.pattern place)).map
        ((Operation.clearing name).pattern place)
      = patterns.map (·.inGraph .defaultGraph) := by
  simp only [List.map_map]
  refine List.map_congr_left fun pattern _ => ?_
  show (if block.asGraph = name then Pattern.inDefaultGraph (pattern.inGraph block.asGraph)
    else pattern.inGraph block.asGraph) = _
  split
  · rfl
  · rename_i other
    rw [(asGraph_cases inside).resolve_left other]

-- `block` is the innermost block around the operation. Below a graph block it is the name that the
-- block clears; below a service block it is the default graph, where clearing changes nothing.
mutual

/-- Clearing the names of blocks inside, and then that of the block around it all, leaves every
pattern and path in the default graph. -/
private theorem Operation.clear_inGraphs : ∀ (operation : Operation) {name block : Term},
    block = name ∨ block = .defaultGraph →
    ((operation.inGraphs Term.asGraph block).clearBlockGraphs).clearGraph name
      = operation.inGraphs (fun _ => .defaultGraph) block
  | ⟨.bgp patterns, metadata⟩, _, _, inside =>
    congrArg (fun patterns => Operation.mk (.bgp patterns) metadata)
      (clear_patterns inside .bgp patterns)
  | ⟨.values .., _⟩, _, _, _ | ⟨.nop, _⟩, _, _, _ | ⟨.manage _, _⟩, _, _, _
  | ⟨.deleteInsert .., _⟩, _, _, _ => rfl
  | ⟨.path subject predicate object graph, metadata⟩, name, block, inside => by
    show (⟨.path subject predicate object (if block.asGraph = name then _ else _), metadata⟩
      : Operation) = ⟨.path subject predicate object .defaultGraph, metadata⟩
    split
    · rfl
    · rename_i other
      rw [(asGraph_cases inside).resolve_left other]
  | ⟨.wrap wrapper input, metadata⟩, name, block, inside => by
    cases wrapper with
    | graph own =>
      exact congrArg (fun input => Operation.mk (.wrap (.graph own) input) metadata)
        (Operation.clear_inGraphs input (.inl rfl))
    | service =>
      exact congrArg (fun input => Operation.mk (.wrap _ input) metadata)
        (Operation.clear_inGraphs input (.inr rfl))
    | project | distinct | reduced | slice | dataset | ask | describe =>
      exact congrArg (fun input => Operation.mk (.wrap _ input) metadata)
        (Operation.clear_inGraphs input inside)
  | ⟨.filter input condition, metadata⟩, _, _, inside =>
    congrArg₂ (fun input condition => Operation.mk (.filter input condition) metadata)
      (Operation.clear_inGraphs input inside) (Expression.clear_inGraphs condition inside)
  | ⟨.extend input name value, metadata⟩, _, _, inside =>
    congrArg₂ (fun input value => Operation.mk (.extend input name value) metadata)
      (Operation.clear_inGraphs input inside) (Expression.clear_inGraphs value inside)
  | ⟨.group input keys aggregates, metadata⟩, _, _, inside =>
    congrArg₂ (fun input aggregates => Operation.mk (.group input keys aggregates) metadata)
      (Operation.clear_inGraphs input inside) (BoundAggregate.clear_allInGraphs aggregates inside)
  | ⟨.orderBy input keys, metadata⟩, _, _, inside =>
    congrArg₂ (fun input keys => Operation.mk (.orderBy input keys) metadata)
      (Operation.clear_inGraphs input inside) (Expression.clear_allInGraphs keys inside)
  | ⟨.construct input template, metadata⟩, _, _, inside =>
    congrArg₂ (fun input template => Operation.mk (.construct input template) metadata)
      (Operation.clear_inGraphs input inside) (clear_patterns inside .template template)
  | ⟨.combine how inputs, metadata⟩, _, _, inside =>
    congrArg (fun inputs => Operation.mk (.combine how inputs) metadata)
      (Operation.clear_allInGraphs inputs inside)
  | ⟨.leftJoin left right none, metadata⟩, _, _, inside =>
    congrArg₂ (fun left right => Operation.mk (.leftJoin left right none) metadata)
      (Operation.clear_inGraphs left inside) (Operation.clear_inGraphs right inside)
  | ⟨.leftJoin left right (some condition), metadata⟩, _, _, inside => by
    have sides := congrArg₂ Prod.mk (Operation.clear_inGraphs left inside)
      (Operation.clear_inGraphs right inside)
    exact congrArg₂
      (fun sides condition => Operation.mk (.leftJoin sides.1 sides.2 (some condition)) metadata)
      sides (Expression.clear_inGraphs condition inside)
  | ⟨.minus left right, metadata⟩, _, _, inside =>
    congrArg₂ (fun left right => Operation.mk (.minus left right) metadata)
      (Operation.clear_inGraphs left inside) (Operation.clear_inGraphs right inside)

private theorem Expression.clear_inGraphs : ∀ (expression : Expression) {name block : Term},
    block = name ∨ block = .defaultGraph →
    ((expression.inGraphs Term.asGraph block).rebuild Operation.clearingBlocks).rebuild
        (Operation.clearing name)
      = expression.inGraphs (fun _ => .defaultGraph) block
  | .term _, _, _, _ | .wildcard, _, _, _ => rfl
  | .call callee arguments, _, _, inside =>
    congrArg (Expression.call callee) (Expression.clear_allInGraphs arguments inside)
  | .aggregate name argument distinct separator, _, _, inside =>
    congrArg (Expression.aggregate name · distinct separator)
      (Expression.clear_inGraphs argument inside)
  | .existence negated input, _, _, inside =>
    congrArg (Expression.existence negated) (Operation.clear_inGraphs input inside)

private theorem Operation.clear_allInGraphs : ∀ (operations : List Operation) {name block : Term},
    block = name ∨ block = .defaultGraph →
    Operation.rebuildAll (Operation.clearing name) (Operation.rebuildAll Operation.clearingBlocks
        (Operation.allInGraphs Term.asGraph block operations))
      = Operation.allInGraphs (fun _ => .defaultGraph) block operations
  | [], _, _, _ => rfl
  | operation :: rest, _, _, inside =>
    congrArg₂ List.cons (Operation.clear_inGraphs operation inside)
      (Operation.clear_allInGraphs rest inside)

private theorem Expression.clear_allInGraphs : ∀ (expressions : List Expression)
    {name block : Term}, block = name ∨ block = .defaultGraph →
    Expression.rebuildAll (Operation.clearing name) (Expression.rebuildAll Operation.clearingBlocks
        (Expression.allInGraphs Term.asGraph block expressions))
      = Expression.allInGraphs (fun _ => .defaultGraph) block expressions
  | [], _, _, _ => rfl
  | expression :: rest, _, _, inside =>
    congrArg₂ List.cons (Expression.clear_inGraphs expression inside)
      (Expression.clear_allInGraphs rest inside)

private theorem BoundAggregate.clear_allInGraphs : ∀ (aggregates : List BoundAggregate)
    {name block : Term}, block = name ∨ block = .defaultGraph →
    BoundAggregate.rebuildAll (Operation.clearing name)
        (BoundAggregate.rebuildAll Operation.clearingBlocks
          (BoundAggregate.allInGraphs Term.asGraph block aggregates))
      = BoundAggregate.allInGraphs (fun _ => .defaultGraph) block aggregates
  | [], _, _, _ => rfl
  | ⟨name, expression⟩ :: rest, _, _, inside =>
    congrArg₂ (fun expression => List.cons (BoundAggregate.mk name expression))
      (Expression.clear_inGraphs expression inside) (BoundAggregate.clear_allInGraphs rest inside)

end

/-! ### Nothing is left for blocks of its own -/

private theorem splitByGraph_inDefaultGraph (patterns : List Pattern) :
    Operator.splitByGraph (patterns.map (·.inGraph .defaultGraph))
      = .bgp (patterns.map (·.inGraph .defaultGraph)) := by
  refine if_pos (List.all_eq_true.2 fun pattern member => ?_)
  obtain ⟨pattern, -, rfl⟩ := List.mem_map.1 member
  rfl

private theorem map_wrapping (place : Place) (patterns : List Pattern) :
    patterns.map (Operation.wrapping.pattern place) = patterns := List.map_id' patterns

mutual

/-- Patterns and paths in the default graph need no block. -/
private theorem Operation.wrap_inGraphs : ∀ (operation : Operation) (block : Term),
    (operation.inGraphs (fun _ => .defaultGraph) block).wrapForeignGraphs
      = operation.inGraphs (fun _ => .defaultGraph) block
  | ⟨.bgp patterns, metadata⟩, _ => by
    refine congrArg (Operation.mk · metadata) ?_
    show Operator.splitByGraph ((patterns.map (·.inGraph .defaultGraph)).map
      (Operation.wrapping.pattern .bgp)) = _
    rw [map_wrapping, splitByGraph_inDefaultGraph]
    rfl
  | ⟨.values .., _⟩, _ | ⟨.nop, _⟩, _ | ⟨.manage _, _⟩, _ | ⟨.deleteInsert .., _⟩, _
  | ⟨.path .., _⟩, _ => rfl
  | ⟨.wrap wrapper input, metadata⟩, _ =>
    congrArg (fun input => Operation.mk (.wrap wrapper input) metadata)
      (Operation.wrap_inGraphs input _)
  | ⟨.filter input condition, metadata⟩, block =>
    congrArg₂ (fun input condition => Operation.mk (.filter input condition) metadata)
      (Operation.wrap_inGraphs input block) (Expression.wrap_inGraphs condition block)
  | ⟨.extend input name value, metadata⟩, block =>
    congrArg₂ (fun input value => Operation.mk (.extend input name value) metadata)
      (Operation.wrap_inGraphs input block) (Expression.wrap_inGraphs value block)
  | ⟨.group input keys aggregates, metadata⟩, block =>
    congrArg₂ (fun input aggregates => Operation.mk (.group input keys aggregates) metadata)
      (Operation.wrap_inGraphs input block) (BoundAggregate.wrap_allInGraphs aggregates block)
  | ⟨.orderBy input keys, metadata⟩, block =>
    congrArg₂ (fun input keys => Operation.mk (.orderBy input keys) metadata)
      (Operation.wrap_inGraphs input block) (Expression.wrap_allInGraphs keys block)
  | ⟨.construct input template, metadata⟩, block =>
    congrArg₂ (fun input template => Operation.mk (.construct input template) metadata)
      (Operation.wrap_inGraphs input block) (map_wrapping .template _)
  | ⟨.combine how inputs, metadata⟩, block =>
    congrArg (fun inputs => Operation.mk (.combine how inputs) metadata)
      (Operation.wrap_allInGraphs inputs block)
  | ⟨.leftJoin left right none, metadata⟩, block =>
    congrArg₂ (fun left right => Operation.mk (.leftJoin left right none) metadata)
      (Operation.wrap_inGraphs left block) (Operation.wrap_inGraphs right block)
  | ⟨.leftJoin left right (some condition), metadata⟩, block => by
    have sides := congrArg₂ Prod.mk (Operation.wrap_inGraphs left block)
      (Operation.wrap_inGraphs right block)
    exact congrArg₂
      (fun sides condition => Operation.mk (.leftJoin sides.1 sides.2 (some condition)) metadata)
      sides (Expression.wrap_inGraphs condition block)
  | ⟨.minus left right, metadata⟩, block =>
    congrArg₂ (fun left right => Operation.mk (.minus left right) metadata)
      (Operation.wrap_inGraphs left block) (Operation.wrap_inGraphs right block)

private theorem Expression.wrap_inGraphs : ∀ (expression : Expression) (block : Term),
    (expression.inGraphs (fun _ => .defaultGraph) block).rebuild Operation.wrapping
      = expression.inGraphs (fun _ => .defaultGraph) block
  | .term _, _ | .wildcard, _ => rfl
  | .call callee arguments, block =>
    congrArg (Expression.call callee) (Expression.wrap_allInGraphs arguments block)
  | .aggregate name argument distinct separator, block =>
    congrArg (Expression.aggregate name · distinct separator)
      (Expression.wrap_inGraphs argument block)
  | .existence negated input, block =>
    congrArg (Expression.existence negated) (Operation.wrap_inGraphs input block)

private theorem Operation.wrap_allInGraphs : ∀ (operations : List Operation) (block : Term),
    Operation.rebuildAll Operation.wrapping
        (Operation.allInGraphs (fun _ => .defaultGraph) block operations)
      = Operation.allInGraphs (fun _ => .defaultGraph) block operations
  | [], _ => rfl
  | operation :: rest, block =>
    congrArg₂ List.cons (Operation.wrap_inGraphs operation block)
      (Operation.wrap_allInGraphs rest block)

private theorem Expression.wrap_allInGraphs : ∀ (expressions : List Expression) (block : Term),
    Expression.rebuildAll Operation.wrapping
        (Expression.allInGraphs (fun _ => .defaultGraph) block expressions)
      = Expression.allInGraphs (fun _ => .defaultGraph) block expressions
  | [], _ => rfl
  | expression :: rest, block =>
    congrArg₂ List.cons (Expression.wrap_inGraphs expression block)
      (Expression.wrap_allInGraphs rest block)

private theorem BoundAggregate.wrap_allInGraphs : ∀ (aggregates : List BoundAggregate)
    (block : Term), BoundAggregate.rebuildAll Operation.wrapping
        (BoundAggregate.allInGraphs (fun _ => .defaultGraph) block aggregates)
      = BoundAggregate.allInGraphs (fun _ => .defaultGraph) block aggregates
  | [], _ => rfl
  | ⟨name, expression⟩ :: rest, block =>
    congrArg₂ (fun expression => List.cons (BoundAggregate.mk name expression))
      (Expression.wrap_inGraphs expression block) (BoundAggregate.wrap_allInGraphs rest block)

end

/-- Taking graph names out undoes putting the names of blocks in. -/
theorem Operation.withoutEmbeddedGraphs_inBlockGraphs (operation : Operation) :
    operation.inBlockGraphs.withoutEmbeddedGraphs = operation.inDefaultGraph := by
  have cleared := clear_inGraphs operation (.inl rfl : Term.defaultGraph = .defaultGraph ∨ _)
  rw [clearGraph_defaultGraph] at cleared
  rw [withoutEmbeddedGraphs, inBlockGraphs, cleared]
  exact wrap_inGraphs operation .defaultGraph

end QueryAlgebra
