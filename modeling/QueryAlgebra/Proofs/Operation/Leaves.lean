import QueryAlgebra.Proofs.Lowering.MatchedPieces
import QueryAlgebra.Proofs.Operation.NamedGraphs
import QueryAlgebra.Proofs.Operation.WellFormedRebuild

/-! # Leaves of operations

The leaves of an operation are the patterns and paths that are matched, the patterns of templates,
and updates of triples, which are leaves as a whole. Each stands in graph blocks, of which the
innermost counts.

What a rebuilding of leaves makes of an operation is known from what it makes of leaves and graph
blocks: any relation on lists of leaves that holds there holds for the whole operation
(`Rebuild.Relates.leaves`), and the operation stays as it is if every leaf is spared
(`Rebuild.Spares.eq`).
-/

namespace QueryAlgebra

/-- The pattern or path in another graph. -/
def Fragment.inGraph (graph : Term) : Fragment → Fragment
  | .pattern triple => .pattern (triple.inGraph graph)
  | .path subject predicate object _ => .path subject predicate object graph

/-- What a leaf is. -/
inductive LeafContent where
  | piece (piece : Fragment)
  | template (pattern : Pattern)
  | update (operation : Operation)

/-- A leaf and the name of the innermost graph block around it, if any. -/
structure Leaf where
  block : Option Term
  content : LeafContent

namespace Leaf

/-- A leaf that no graph block stands around. -/
def bare (content : LeafContent) : Leaf := ⟨none, content⟩

/-- The leaf with a graph block around it. -/
def within (name : Term) (leaf : Leaf) : Leaf := { leaf with block := leaf.block.or (some name) }

end Leaf

/-- The leaves of what a wrapper is put around. -/
def Wrapper.aroundLeaves : Wrapper → List Leaf → List Leaf
  | .graph name, leaves => leaves.map (·.within name)
  | _, leaves => leaves

/-- The leaves of a basic graph pattern. -/
def Pattern.leaves (patterns : List Pattern) : List Leaf :=
  patterns.map fun pattern => .bare (.piece (.pattern pattern))

/-- The leaves of a template. -/
def Pattern.templateLeaves (patterns : List Pattern) : List Leaf :=
  patterns.map fun pattern => .bare (.template pattern)

mutual

/-- The leaves of an operation. -/
def Operation.leaves : Operation → List Leaf
  | ⟨operator, metadata⟩ =>
    if operator.isDeleteInsert then [.bare (.update ⟨operator, metadata⟩)] else operator.leaves

/-- The leaves of an operator that is no update of triples. -/
def Operator.leaves : Operator → List Leaf
  | .bgp patterns => Pattern.leaves patterns
  | .values .. => []
  | .nop => []
  | .path subject predicate object graph => [.bare (.piece (.path subject predicate object graph))]
  | .manage _ => []
  | .wrap wrapper input => wrapper.aroundLeaves input.leaves
  | .filter input condition => input.leaves ++ condition.leaves
  | .extend input _ value => input.leaves ++ value.leaves
  | .group input _ aggregates => input.leaves ++ BoundAggregate.leavesOfAll aggregates
  | .orderBy input keys => input.leaves ++ Expression.leavesOfAll keys
  | .construct input template => input.leaves ++ Pattern.templateLeaves template
  | .combine _ inputs => Operation.leavesOfAll inputs
  | .leftJoin left right none => left.leaves ++ right.leaves
  | .leftJoin left right (some condition) => left.leaves ++ right.leaves ++ condition.leaves
  | .minus left right => left.leaves ++ right.leaves
  | .deleteInsert .. => []

/-- The leaves of the operations that an expression asks about. -/
def Expression.leaves : Expression → List Leaf
  | .term _ => []
  | .call _ arguments => Expression.leavesOfAll arguments
  | .aggregate _ argument _ _ => argument.leaves
  | .existence _ input => input.leaves
  | .wildcard => []

/-- The leaves of operations. -/
def Operation.leavesOfAll : List Operation → List Leaf
  | [] => []
  | operation :: rest => operation.leaves ++ Operation.leavesOfAll rest

/-- The leaves of expressions. -/
def Expression.leavesOfAll : List Expression → List Leaf
  | [] => []
  | expression :: rest => expression.leaves ++ Expression.leavesOfAll rest

/-- The leaves of aggregates. -/
def BoundAggregate.leavesOfAll : List BoundAggregate → List Leaf
  | [] => []
  | ⟨_, expression⟩ :: rest => expression.leaves ++ BoundAggregate.leavesOfAll rest

end

theorem Operation.leaves_of_other {operator : Operator} (metadata : Option Metadata)
    (other : operator.isDeleteInsert = false) : leaves ⟨operator, metadata⟩ = operator.leaves := by
  rw [leaves, other, if_neg Bool.false_ne_true]

theorem Operation.leaves_of_update {operator : Operator} (metadata : Option Metadata)
    (isUpdate : operator.isDeleteInsert = true) :
    leaves ⟨operator, metadata⟩ = [.bare (.update ⟨operator, metadata⟩)] := by
  rw [leaves, if_pos isUpdate]

/-- A rebuilding changes nothing but patterns, paths and graph blocks, and no updates of triples. -/
structure Rebuild.OfLeaves (change : Rebuild) : Prop where
  expression (expression : Expression) : change.expression expression = expression
  update {operator : Operator} : operator.isDeleteInsert = true → change.closed operator = true
  other {operator : Operator} (metadata : Option Metadata) : operator.isMatching = false →
    operator.isGraph = false → change.operation ⟨operator, metadata⟩ = ⟨operator, metadata⟩

theorem Operator.isMatching_rebuild (change : Rebuild) (operator : Operator) :
    (operator.rebuild change).isMatching = operator.isMatching := by
  cases operator with
  | leftJoin _ _ condition => cases condition <;> rfl
  | deleteInsert _ _ scope => cases scope <;> rfl
  | _ => rfl

theorem Operator.isGraph_rebuild (change : Rebuild) (operator : Operator) :
    (operator.rebuild change).isGraph = operator.isGraph := by
  cases operator with
  | wrap wrapper => cases wrapper <;> rfl
  | leftJoin _ _ condition => cases condition <;> rfl
  | deleteInsert _ _ scope => cases scope <;> rfl
  | _ => rfl

theorem Operator.isDeleteInsert_rebuild (change : Rebuild) (operator : Operator) :
    (operator.rebuild change).isDeleteInsert = operator.isDeleteInsert := by
  cases operator with
  | leftJoin _ _ condition => cases condition <;> rfl
  | deleteInsert _ _ scope => cases scope <;> rfl
  | _ => rfl

/-! ### The leaves of what is rebuilt -/

/-- A relation between leaves before and after a rebuilding, which holds for each leaf and goes
through graph blocks. -/
structure Rebuild.Relates (change : Rebuild) (related : List Leaf → List Leaf → Prop) : Prop
    extends change.OfLeaves where
  nil : related [] []
  append {before after before' after' : List Leaf} : related before after →
    related before' after' → related (before ++ before') (after ++ after')
  closed {operator : Operator} (metadata : Option Metadata) : change.closed operator = true →
    related (Operation.leaves ⟨operator, metadata⟩) (Operation.leaves ⟨operator, metadata⟩)
  bgp (patterns : List Pattern) (metadata : Option Metadata) :
    related (Pattern.leaves patterns)
      (change.operation ⟨.bgp (patterns.map (change.pattern .bgp)), metadata⟩).leaves
  path (subject : Term) (predicate : Path) (object graph : Term) (metadata : Option Metadata) :
    related [.bare (.piece (.path subject predicate object graph))]
      (change.operation ⟨.path subject predicate object graph, metadata⟩).leaves
  template (pattern : Pattern) :
    related [.bare (.template pattern)] [.bare (.template (change.pattern .template pattern))]
  graph (name : Term) {input input' : Operation} (metadata : Option Metadata) :
    change.closed (.wrap (.graph name) input) = false → related input.leaves input'.leaves →
    related (input.leaves.map (·.within name))
      (change.operation ⟨.wrap (.graph name) input', metadata⟩).leaves

namespace Rebuild.Relates

variable {change : Rebuild} {related : List Leaf → List Leaf → Prop}

theorem templates (relates : change.Relates related) : ∀ patterns : List Pattern,
    related (Pattern.templateLeaves patterns)
      (Pattern.templateLeaves (patterns.map (change.pattern .template)))
  | [] => relates.nil
  | pattern :: rest => relates.append (relates.template pattern) (relates.templates rest)

mutual

/-- What holds for each leaf holds for all leaves of an operation. -/
theorem leaves (relates : change.Relates related) : ∀ operation : Operation,
    related operation.leaves (operation.rebuild change).leaves
  | ⟨operator, metadata⟩ => by
    rw [Operation.rebuild]
    split
    · rename_i isClosed
      exact relates.closed metadata isClosed
    rename_i isOpen
    have noUpdate : operator.isDeleteInsert = false :=
      Bool.eq_false_iff.2 fun isUpdate => isOpen (relates.update isUpdate)
    rw [Operation.leaves_of_other metadata noUpdate]
    by_cases inner : operator.isMatching = false ∧ operator.isGraph = false
    · rw [relates.other metadata ((operator.isMatching_rebuild change).trans inner.1)
          ((operator.isGraph_rebuild change).trans inner.2),
        Operation.leaves_of_other metadata
          ((operator.isDeleteInsert_rebuild change).trans noUpdate)]
      exact Relates.ofOperator relates operator inner.1 inner.2
    · cases operator with
      | bgp patterns => exact relates.bgp patterns metadata
      | path subject predicate object graph =>
        exact relates.path subject predicate object graph metadata
      | wrap wrapper input =>
        cases wrapper with
        | graph name =>
          exact relates.graph name metadata (Bool.eq_false_iff.2 isOpen)
            (Relates.leaves relates input)
        | _ => exact absurd ⟨rfl, rfl⟩ inner
      | _ => exact absurd ⟨rfl, rfl⟩ inner

theorem ofOperator (relates : change.Relates related) : ∀ operator : Operator,
    operator.isMatching = false → operator.isGraph = false →
    related operator.leaves (operator.rebuild change).leaves
  | .values .., _, _ | .nop, _, _ | .manage _, _, _ => relates.nil
  | .wrap (.project _) input, _, _ | .wrap (.service _ _) input, _, _ | .wrap .distinct input, _, _
  | .wrap .reduced input, _, _ | .wrap (.slice _ _) input, _, _ | .wrap (.dataset _ _) input, _, _
  | .wrap .ask input, _, _ | .wrap (.describe _) input, _, _ => Relates.leaves relates input
  | .filter input condition, _, _ =>
    relates.append (Relates.leaves relates input) (Relates.ofExpression relates condition)
  | .extend input _ value, _, _ =>
    relates.append (Relates.leaves relates input) (Relates.ofExpression relates value)
  | .group input _ aggregates, _, _ =>
    relates.append (Relates.leaves relates input) (Relates.ofAggregates relates aggregates)
  | .orderBy input keys, _, _ =>
    relates.append (Relates.leaves relates input) (Relates.ofExpressions relates keys)
  | .construct input template, _, _ =>
    relates.append (Relates.leaves relates input) (relates.templates template)
  | .combine _ inputs, _, _ => Relates.ofOperations relates inputs
  | .leftJoin left right none, _, _ =>
    relates.append (Relates.leaves relates left) (Relates.leaves relates right)
  | .leftJoin left right (some condition), _, _ =>
    relates.append (relates.append (Relates.leaves relates left) (Relates.leaves relates right))
      (Relates.ofExpression relates condition)
  | .minus left right, _, _ =>
    relates.append (Relates.leaves relates left) (Relates.leaves relates right)
  | .deleteInsert _ _ none, _, _ | .deleteInsert _ _ (some _), _, _ => relates.nil

theorem ofExpression (relates : change.Relates related) : ∀ expression : Expression,
    related expression.leaves (expression.rebuild change).leaves
  | .term _ | .wildcard => by
    rw [Expression.rebuild, relates.expression]
    exact relates.nil
  | .call _ arguments => by
    rw [Expression.rebuild, relates.expression]
    exact Relates.ofExpressions relates arguments
  | .aggregate _ argument _ _ => by
    rw [Expression.rebuild, relates.expression]
    exact Relates.ofExpression relates argument
  | .existence _ input => by
    rw [Expression.rebuild, relates.expression]
    exact Relates.leaves relates input

theorem ofOperations (relates : change.Relates related) : ∀ operations : List Operation,
    related (Operation.leavesOfAll operations)
      (Operation.leavesOfAll (Operation.rebuildAll change operations))
  | [] => relates.nil
  | operation :: rest =>
    relates.append (Relates.leaves relates operation) (Relates.ofOperations relates rest)

theorem ofExpressions (relates : change.Relates related) : ∀ expressions : List Expression,
    related (Expression.leavesOfAll expressions)
      (Expression.leavesOfAll (Expression.rebuildAll change expressions))
  | [] => relates.nil
  | expression :: rest =>
    relates.append (Relates.ofExpression relates expression) (Relates.ofExpressions relates rest)

theorem ofAggregates (relates : change.Relates related) : ∀ aggregates : List BoundAggregate,
    related (BoundAggregate.leavesOfAll aggregates)
      (BoundAggregate.leavesOfAll (BoundAggregate.rebuildAll change aggregates))
  | [] => relates.nil
  | ⟨_, expression⟩ :: rest =>
    relates.append (Relates.ofExpression relates expression) (Relates.ofAggregates relates rest)

end

end Rebuild.Relates

/-! ### Operations whose leaves are spared -/

/-- A rebuilding that does not change leaves that are spared. Below a graph block, leaves are spared
because of the block. -/
structure Rebuild.Spares (change : Rebuild) (spared : Leaf → Prop) : Prop
    extends change.OfLeaves where
  bgp {patterns : List Pattern} (metadata : Option Metadata) :
    (∀ leaf ∈ Pattern.leaves patterns, spared leaf) →
    change.operation ⟨.bgp (patterns.map (change.pattern .bgp)), metadata⟩
      = ⟨.bgp patterns, metadata⟩
  path {subject : Term} {predicate : Path} {object graph : Term} (metadata : Option Metadata) :
    spared (.bare (.piece (.path subject predicate object graph))) →
    change.operation ⟨.path subject predicate object graph, metadata⟩
      = ⟨.path subject predicate object graph, metadata⟩
  template {pattern : Pattern} :
    spared (.bare (.template pattern)) → change.pattern .template pattern = pattern
  inside {name : Term} {input : Operation} : change.closed (.wrap (.graph name) input) = false →
    ∀ leaf, spared (leaf.within name) → spared leaf
  graph {name : Term} {input : Operation} (metadata : Option Metadata) :
    change.closed (.wrap (.graph name) input) = false →
    (∀ leaf ∈ input.leaves, spared (leaf.within name)) →
    change.operation ⟨.wrap (.graph name) input, metadata⟩ = ⟨.wrap (.graph name) input, metadata⟩

namespace Rebuild.Spares

variable {change : Rebuild} {spared : Leaf → Prop}

theorem templates (spares : change.Spares spared) {patterns : List Pattern}
    (all : ∀ leaf ∈ Pattern.templateLeaves patterns, spared leaf) :
    patterns.map (change.pattern .template) = patterns := by
  refine (List.map_congr_left fun pattern member => ?_).trans (List.map_id patterns)
  exact spares.template (all _ (List.mem_map_of_mem member))

mutual

/-- An operation stays as it is if every leaf of it is spared. -/
theorem eq (spares : change.Spares spared) : ∀ operation : Operation,
    (∀ leaf ∈ operation.leaves, spared leaf) → operation.rebuild change = operation
  | ⟨operator, metadata⟩, all => by
    rw [Operation.rebuild]
    split
    · rfl
    rename_i isOpen
    have noUpdate : operator.isDeleteInsert = false :=
      Bool.eq_false_iff.2 fun isUpdate => isOpen (spares.update isUpdate)
    rw [Operation.leaves_of_other metadata noUpdate] at all
    by_cases inner : operator.isMatching = false ∧ operator.isGraph = false
    · rw [spares.other metadata ((operator.isMatching_rebuild change).trans inner.1)
          ((operator.isGraph_rebuild change).trans inner.2),
        Spares.ofOperator spares operator noUpdate inner.1 inner.2 all]
    · cases operator with
      | bgp patterns => exact spares.bgp metadata all
      | path subject predicate object graph => exact spares.path metadata (all _ (.head _))
      | wrap wrapper input =>
        cases wrapper with
        | graph name =>
          have isOpen := Bool.eq_false_iff.2 isOpen
          have inBlock := List.forall_mem_map.1 all
          rw [Operator.rebuild, Spares.eq spares input fun leaf member =>
            spares.inside isOpen leaf (inBlock leaf member)]
          exact spares.graph metadata isOpen inBlock
        | _ => exact absurd ⟨rfl, rfl⟩ inner
      | _ => exact absurd ⟨rfl, rfl⟩ inner

theorem ofOperator (spares : change.Spares spared) : ∀ operator : Operator,
    operator.isDeleteInsert = false → operator.isMatching = false → operator.isGraph = false →
    (∀ leaf ∈ operator.leaves, spared leaf) → operator.rebuild change = operator
  | .values .., _, _, _, _ | .nop, _, _, _, _ | .manage _, _, _, _, _ => by rw [Operator.rebuild]
  | .wrap (.project _) input, _, _, _, all | .wrap (.service _ _) input, _, _, _, all
  | .wrap .distinct input, _, _, _, all | .wrap .reduced input, _, _, _, all
  | .wrap (.slice _ _) input, _, _, _, all | .wrap (.dataset _ _) input, _, _, _, all
  | .wrap .ask input, _, _, _, all | .wrap (.describe _) input, _, _, _, all => by
    rw [Operator.rebuild, Spares.eq spares input all]
  | .filter input condition, _, _, _, all => by
    obtain ⟨ofInput, ofCondition⟩ := List.forall_mem_append.1 all
    rw [Operator.rebuild, Spares.eq spares input ofInput,
      Spares.ofExpression spares condition ofCondition]
  | .extend input _ value, _, _, _, all => by
    obtain ⟨ofInput, ofValue⟩ := List.forall_mem_append.1 all
    rw [Operator.rebuild, Spares.eq spares input ofInput, Spares.ofExpression spares value ofValue]
  | .group input _ aggregates, _, _, _, all => by
    obtain ⟨ofInput, ofAggregates⟩ := List.forall_mem_append.1 all
    rw [Operator.rebuild, Spares.eq spares input ofInput,
      Spares.ofAggregates spares aggregates ofAggregates]
  | .orderBy input keys, _, _, _, all => by
    obtain ⟨ofInput, ofKeys⟩ := List.forall_mem_append.1 all
    rw [Operator.rebuild, Spares.eq spares input ofInput, Spares.ofExpressions spares keys ofKeys]
  | .construct input template, _, _, _, all => by
    obtain ⟨ofInput, ofTemplate⟩ := List.forall_mem_append.1 all
    rw [Operator.rebuild, Spares.eq spares input ofInput, spares.templates ofTemplate]
  | .combine _ inputs, _, _, _, all => by
    rw [Operator.rebuild, Spares.ofOperations spares inputs all]
  | .leftJoin left right none, _, _, _, all | .minus left right, _, _, _, all => by
    obtain ⟨ofLeft, ofRight⟩ := List.forall_mem_append.1 all
    rw [Operator.rebuild, Spares.eq spares left ofLeft, Spares.eq spares right ofRight]
  | .leftJoin left right (some condition), _, _, _, all => by
    obtain ⟨ofBoth, ofCondition⟩ := List.forall_mem_append.1 all
    obtain ⟨ofLeft, ofRight⟩ := List.forall_mem_append.1 ofBoth
    rw [Operator.rebuild, Spares.eq spares left ofLeft, Spares.eq spares right ofRight,
      Spares.ofExpression spares condition ofCondition]

theorem ofExpression (spares : change.Spares spared) : ∀ expression : Expression,
    (∀ leaf ∈ expression.leaves, spared leaf) → expression.rebuild change = expression
  | .term _, _ | .wildcard, _ => by rw [Expression.rebuild, spares.expression]
  | .call _ arguments, all => by
    rw [Expression.rebuild, spares.expression, Spares.ofExpressions spares arguments all]
  | .aggregate _ argument _ _, all => by
    rw [Expression.rebuild, spares.expression, Spares.ofExpression spares argument all]
  | .existence _ input, all => by
    rw [Expression.rebuild, spares.expression, Spares.eq spares input all]

theorem ofOperations (spares : change.Spares spared) : ∀ operations : List Operation,
    (∀ leaf ∈ Operation.leavesOfAll operations, spared leaf) →
    Operation.rebuildAll change operations = operations
  | [], _ => rfl
  | operation :: rest, all => by
    obtain ⟨ofFirst, ofRest⟩ := List.forall_mem_append.1 all
    rw [Operation.rebuildAll, Spares.eq spares operation ofFirst,
      Spares.ofOperations spares rest ofRest]

theorem ofExpressions (spares : change.Spares spared) : ∀ expressions : List Expression,
    (∀ leaf ∈ Expression.leavesOfAll expressions, spared leaf) →
    Expression.rebuildAll change expressions = expressions
  | [], _ => rfl
  | expression :: rest, all => by
    obtain ⟨ofFirst, ofRest⟩ := List.forall_mem_append.1 all
    rw [Expression.rebuildAll, Spares.ofExpression spares expression ofFirst,
      Spares.ofExpressions spares rest ofRest]

theorem ofAggregates (spares : change.Spares spared) : ∀ aggregates : List BoundAggregate,
    (∀ leaf ∈ BoundAggregate.leavesOfAll aggregates, spared leaf) →
    BoundAggregate.rebuildAll change aggregates = aggregates
  | [], _ => rfl
  | ⟨_, expression⟩ :: rest, all => by
    obtain ⟨ofFirst, ofRest⟩ := List.forall_mem_append.1 all
    rw [BoundAggregate.rebuildAll, Spares.ofExpression spares expression ofFirst,
      Spares.ofAggregates spares rest ofRest]

end

end Rebuild.Spares

end QueryAlgebra
