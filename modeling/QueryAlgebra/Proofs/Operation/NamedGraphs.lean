import QueryAlgebra.Proofs.Operation.PatternSites
import QueryAlgebra.Proofs.Operation.PlacedGraphs

/-! # Operations with the graphs of their patterns chosen anew

`Operation.inGraphs` puts every pattern and path of an operation into a graph that is chosen for the
block around it. `Operation.inBlockGraphs` chooses the name of the block, and
`Operation.inDefaultGraph` the default graph everywhere. Updates of triples are left alone.

The blocks are areas, `Operation.inGraphs_eq_place`, so only graphs change: the last choice counts,
joins stay what they are, and neither the shape of an operation nor its blank nodes depend on the
choice.
-/

namespace QueryAlgebra

mutual

/-- The operation with the graphs chosen, in a block. -/
def Operation.inGraphs (choose : Term → Term) (block : Term) : Operation → Operation
  | ⟨operator, metadata⟩ => ⟨operator.inGraphs choose block, metadata⟩

/-- The operator with the graphs chosen, in a block. -/
def Operator.inGraphs (choose : Term → Term) (block : Term) : Operator → Operator
  | .bgp patterns => .bgp (patterns.map (·.inGraph (choose block)))
  | .values vars rows => .values vars rows
  | .nop => .nop
  | .path subject predicate object _ => .path subject predicate object (choose block)
  | .manage action => .manage action
  | .wrap wrapper input => .wrap wrapper (input.inGraphs choose (wrapper.block?.getD block))
  | .filter input condition =>
    .filter (input.inGraphs choose block) (condition.inGraphs choose block)
  | .extend input name value =>
    .extend (input.inGraphs choose block) name (value.inGraphs choose block)
  | .group input keys aggregates =>
    .group (input.inGraphs choose block) keys (BoundAggregate.allInGraphs choose block aggregates)
  | .orderBy input keys =>
    .orderBy (input.inGraphs choose block) (Expression.allInGraphs choose block keys)
  | .construct input template =>
    .construct (input.inGraphs choose block) (template.map (·.inGraph (choose block)))
  | .combine how inputs => .combine how (Operation.allInGraphs choose block inputs)
  | .leftJoin left right none =>
    .leftJoin (left.inGraphs choose block) (right.inGraphs choose block) none
  | .leftJoin left right (some condition) =>
    .leftJoin (left.inGraphs choose block) (right.inGraphs choose block)
      (some (condition.inGraphs choose block))
  | .minus left right => .minus (left.inGraphs choose block) (right.inGraphs choose block)
  | .deleteInsert delete insert scope => .deleteInsert delete insert scope

/-- The expression with the graphs chosen, in a block. -/
def Expression.inGraphs (choose : Term → Term) (block : Term) : Expression → Expression
  | .term value => .term value
  | .call callee arguments => .call callee (Expression.allInGraphs choose block arguments)
  | .aggregate name argument distinct separator =>
    .aggregate name (argument.inGraphs choose block) distinct separator
  | .existence negated input => .existence negated (input.inGraphs choose block)
  | .wildcard => .wildcard

/-- The operations with the graphs chosen, in a block. -/
def Operation.allInGraphs (choose : Term → Term) (block : Term) : List Operation → List Operation
  | [] => []
  | operation :: rest =>
    operation.inGraphs choose block :: Operation.allInGraphs choose block rest

/-- The expressions with the graphs chosen, in a block. -/
def Expression.allInGraphs (choose : Term → Term) (block : Term) :
    List Expression → List Expression
  | [] => []
  | expression :: rest =>
    expression.inGraphs choose block :: Expression.allInGraphs choose block rest

/-- The aggregates with the graphs chosen, in a block. -/
def BoundAggregate.allInGraphs (choose : Term → Term) (block : Term) :
    List BoundAggregate → List BoundAggregate
  | [] => []
  | ⟨name, expression⟩ :: rest =>
    ⟨name, expression.inGraphs choose block⟩ :: BoundAggregate.allInGraphs choose block rest

end

/-- The graph that the name of a block stands for; blocks are named by variables and IRIs. -/
def Term.asGraph : Term → Term
  | .var name => .var name
  | .iri node => .iri node
  | _ => .defaultGraph

/-- The operation with all patterns and paths in the graphs of the blocks around them. -/
abbrev Operation.inBlockGraphs : Operation → Operation := inGraphs Term.asGraph .defaultGraph

/-- The operation with all patterns and paths in the default graph. -/
abbrev Operation.inDefaultGraph : Operation → Operation :=
  inGraphs (fun _ => .defaultGraph) .defaultGraph

/-- The expression with all patterns and paths in the graphs of the blocks around them. -/
abbrev Expression.inBlockGraphs : Expression → Expression := inGraphs Term.asGraph .defaultGraph

/-- The expression with all patterns and paths in the default graph. -/
abbrev Expression.inDefaultGraph : Expression → Expression :=
  inGraphs (fun _ => .defaultGraph) .defaultGraph

/-- All patterns and paths of the operation are in the default graph. -/
def Operation.InDefault (operation : Operation) : Prop :=
  ∀ block, operation.inGraphs (fun _ => .defaultGraph) block = operation

/-- All patterns and paths that the expression asks about are in the default graph. -/
def Expression.InDefault (expression : Expression) : Prop :=
  ∀ block, expression.inGraphs (fun _ => .defaultGraph) block = expression

/-- The areas of an operation are its blocks, with a graph chosen for each. -/
def Placing.ofBlocks (choose : Term → Term) : Placing Term where
  enter wrapper block := wrapper.block?.getD block
  bind _ block := block
  value block := block
  graph := choose

section

variable (choose choose' : Term → Term) (block block' : Term)

mutual

/-- To choose graphs for blocks is to place an operation in them. -/
theorem Operation.inGraphs_eq_place : ∀ (operation : Operation) (block : Term),
    operation.inGraphs choose block = operation.place (.ofBlocks choose) block
  | ⟨operator, _⟩, block => by
    rw [Operation.inGraphs, Operation.place, Operator.inGraphs_eq_place operator]

theorem Operator.inGraphs_eq_place : ∀ (operator : Operator) (block : Term),
    operator.inGraphs choose block = operator.place (.ofBlocks choose) block
  | .bgp _, _ | .values .., _ | .nop, _ | .path .., _ | .manage _, _ | .deleteInsert .., _ => by
    simp only [Operator.inGraphs, Operator.place, Placing.ofBlocks]
  | .wrap _ input, _ => by
    simp only [Operator.inGraphs, Operator.place, Operation.inGraphs_eq_place input,
      Placing.ofBlocks]
  | .filter input condition, _ => by
    simp only [Operator.inGraphs, Operator.place, Operation.inGraphs_eq_place input,
      Expression.inGraphs_eq_place condition]
  | .extend input _ value, _ => by
    simp only [Operator.inGraphs, Operator.place, Operation.inGraphs_eq_place input,
      Expression.inGraphs_eq_place value, Placing.ofBlocks]
  | .group input _ aggregates, _ => by
    simp only [Operator.inGraphs, Operator.place, Operation.inGraphs_eq_place input,
      BoundAggregate.allInGraphs_eq_allPlaced aggregates]
  | .orderBy input keys, _ => by
    simp only [Operator.inGraphs, Operator.place, Operation.inGraphs_eq_place input,
      Expression.allInGraphs_eq_allPlaced keys]
  | .construct input _, _ => by
    simp only [Operator.inGraphs, Operator.place, Operation.inGraphs_eq_place input,
      Placing.ofBlocks]
  | .combine _ inputs, _ => by
    simp only [Operator.inGraphs, Operator.place, Operation.allInGraphs_eq_allPlaced inputs]
  | .leftJoin left right none, _ => by
    simp only [Operator.inGraphs, Operator.place, Operation.inGraphs_eq_place left,
      Operation.inGraphs_eq_place right]
  | .leftJoin left right (some condition), _ => by
    simp only [Operator.inGraphs, Operator.place, Operation.inGraphs_eq_place left,
      Operation.inGraphs_eq_place right, Expression.inGraphs_eq_place condition]
  | .minus left right, _ => by
    simp only [Operator.inGraphs, Operator.place, Operation.inGraphs_eq_place left,
      Operation.inGraphs_eq_place right]

theorem Expression.inGraphs_eq_place : ∀ (expression : Expression) (block : Term),
    expression.inGraphs choose block = expression.place (.ofBlocks choose) block
  | .term _, _ | .wildcard, _ => rfl
  | .call _ arguments, _ => by
    simp only [Expression.inGraphs, Expression.place,
      Expression.allInGraphs_eq_allPlaced arguments]
  | .aggregate _ argument _ _, _ => by
    simp only [Expression.inGraphs, Expression.place, Expression.inGraphs_eq_place argument]
  | .existence _ input, _ => by
    simp only [Expression.inGraphs, Expression.place, Operation.inGraphs_eq_place input]

theorem Operation.allInGraphs_eq_allPlaced : ∀ (operations : List Operation) (block : Term),
    Operation.allInGraphs choose block operations
      = Operation.allPlaced (.ofBlocks choose) block operations
  | [], _ => rfl
  | operation :: rest, _ => by
    simp only [Operation.allInGraphs, Operation.allPlaced, Operation.inGraphs_eq_place operation,
      Operation.allInGraphs_eq_allPlaced rest]

theorem Expression.allInGraphs_eq_allPlaced : ∀ (expressions : List Expression) (block : Term),
    Expression.allInGraphs choose block expressions
      = Expression.allPlaced (.ofBlocks choose) block expressions
  | [], _ => rfl
  | expression :: rest, _ => by
    simp only [Expression.allInGraphs, Expression.allPlaced,
      Expression.inGraphs_eq_place expression, Expression.allInGraphs_eq_allPlaced rest]

theorem BoundAggregate.allInGraphs_eq_allPlaced : ∀ (aggregates : List BoundAggregate)
    (block : Term),
    BoundAggregate.allInGraphs choose block aggregates
      = BoundAggregate.allPlaced (.ofBlocks choose) block aggregates
  | [], _ => rfl
  | ⟨_, expression⟩ :: rest, _ => by
    simp only [BoundAggregate.allInGraphs, BoundAggregate.allPlaced,
      Expression.inGraphs_eq_place expression, BoundAggregate.allInGraphs_eq_allPlaced rest]

end

/-! ### The last choice counts -/

/-- A choice for the blocks takes the place of an earlier one. -/
theorem Operation.inGraphs_inGraphs (operation : Operation) :
    (operation.inGraphs choose' block').inGraphs choose block
      = operation.inGraphs choose block := by
  simp only [inGraphs_eq_place, place_place]

theorem Expression.inGraphs_inGraphs (expression : Expression) :
    (expression.inGraphs choose' block').inGraphs choose block
      = expression.inGraphs choose block := by
  simp only [inGraphs_eq_place, place_place]

/-! ### Joins and unions -/

private theorem map_inGraphs (operations : List Operation) :
    operations.map (Operation.inGraphs choose block)
      = operations.map (Operation.place (.ofBlocks choose) block) :=
  List.map_congr_left fun _ _ => Operation.inGraphs_eq_place ..

theorem Operation.inGraphs_join (inputs : List Operation) :
    (join inputs).inGraphs choose block = join (inputs.map (inGraphs choose block)) := by
  rw [inGraphs_eq_place, place_join, map_inGraphs]

theorem Operation.inGraphs_union (inputs : List Operation) :
    (union inputs).inGraphs choose block = union (inputs.map (inGraphs choose block)) := by
  rw [inGraphs_eq_place, place_union, map_inGraphs]

theorem inGraphs_simplifiedJoin (left right : Operation) :
    (simplifiedJoin left right).inGraphs choose block
      = simplifiedJoin (left.inGraphs choose block) (right.inGraphs choose block) := by
  simp only [Operation.inGraphs_eq_place, place_simplifiedJoin]

theorem inGraphs_leftJoinOf (left right : Operation) :
    (leftJoinOf left right).inGraphs choose block
      = leftJoinOf (left.inGraphs choose block) (right.inGraphs choose block) := by
  simp only [Operation.inGraphs_eq_place, place_leftJoinOf]

/-! ### Shapes and blank nodes -/

/-- The shape of an operation does not depend on the graphs of its patterns. -/
theorem Operation.sameShape_inGraphs (operation : Operation) :
    Node.SameShape (.operation operation) (.operation (operation.inGraphs choose block)) := by
  rw [inGraphs_eq_place]
  exact sameShape_place ..

theorem Expression.sameShape_inGraphs (expression : Expression) :
    Node.SameShape (.expression expression) (.expression (expression.inGraphs choose block)) := by
  rw [inGraphs_eq_place]
  exact sameShape_place ..

end

section

variable {choose choose' : Term → Term}

/-- The blank nodes of an operation do not depend on graphs that have none. -/
theorem Operation.labels_inGraphs (plain : ∀ term, (choose term).labels = [])
    (plain' : ∀ term, (choose' term).labels = []) (operation : Operation) (block block' : Term) :
    (operation.inGraphs choose block).gather .ofLabels
      = (operation.inGraphs choose' block').gather .ofLabels := by
  rw [inGraphs_eq_place, inGraphs_eq_place]
  exact labels_place plain plain' ..

/-- Blank nodes are replaced in the same way whatever graphs are chosen, if these have none. -/
theorem Operation.replaceBlanks_inGraphs {replace : String → Term}
    (plain : ∀ term, (choose term).replaceBlanks replace = choose term) (operation : Operation)
    (block : Term) :
    (operation.inGraphs choose block).replaceBlanks replace
      = (operation.replaceBlanks replace).inGraphs choose block := by
  rw [inGraphs_eq_place, inGraphs_eq_place]
  exact replaceBlanks_place plain ..

end

/-- The name of a block has no blank nodes. -/
@[simp] theorem Term.labels_asGraph (term : Term) : term.asGraph.labels = [] := by
  cases term <;> rfl

@[simp] theorem Term.replaceBlanks_asGraph (replace : String → Term) (term : Term) :
    term.asGraph.replaceBlanks replace = term.asGraph := by
  cases term <;> rfl

end QueryAlgebra
