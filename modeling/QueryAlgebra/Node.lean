import QueryAlgebra.Operation.Equality

/-! # Nodes of algebra trees

Operations, patterns, expressions and paths are the four families of nodes. `Node.kind` tells the
nodes of a family apart, and `Node.children` lists the nodes below a node, in one order for every
kind. Terms are not nodes: they belong to the node that they stand in.

A child is smaller than its parent (`Node.sizeOf_lt_of_mem_children`), and all children together
are (`Node.totalSize_children_lt`), which is what recursions over nodes rest on.
-/

namespace QueryAlgebra

/-- A node of an algebra tree. -/
inductive Node where
  | operation (operation : Operation)
  | pattern (pattern : Pattern)
  | expression (expression : Expression)
  | path (path : Path)
deriving DecidableEq, Inhabited

/-- The kinds of nodes. -/
inductive NodeKind where
  | bgp | values | nop | project | filter | extend | graph | service | group | orderBy | distinct
  | reduced | slice | dataset | ask | describe | construct | join | leftJoin | minus | union | path
  | deleteInsert | load | clear | drop | create | add | move | copy | compositeUpdate
  | pattern
  | termExpression | operatorExpression | namedExpression | aggregateExpression
  | existenceExpression | wildcardExpression
  | linkPath | inversePath | seqPath | altPath | zeroOrMorePath | oneOrMorePath | zeroOrOnePath
  | negatedPath
deriving DecidableEq, Inhabited

namespace NodeKind

/-- All kinds, operations first. -/
def all : List NodeKind :=
  [.bgp, .values, .nop, .project, .filter, .extend, .graph, .service, .group, .orderBy, .distinct,
    .reduced, .slice, .dataset, .ask, .describe, .construct, .join, .leftJoin, .minus, .union,
    .path, .deleteInsert, .load, .clear, .drop, .create, .add, .move, .copy, .compositeUpdate,
    .pattern, .termExpression, .operatorExpression, .namedExpression, .aggregateExpression,
    .existenceExpression, .wildcardExpression, .linkPath, .inversePath, .seqPath, .altPath,
    .zeroOrMorePath, .oneOrMorePath, .zeroOrOnePath, .negatedPath]

/-- The name of a kind in messages. -/
def name : NodeKind → String
  | .bgp => "Bgp"
  | .values => "Values"
  | .nop => "Nop"
  | .project => "Project"
  | .filter => "Filter"
  | .extend => "Extend"
  | .graph => "Graph"
  | .service => "Service"
  | .group => "Group"
  | .orderBy => "OrderBy"
  | .distinct => "Distinct"
  | .reduced => "Reduced"
  | .slice => "Slice"
  | .dataset => "From"
  | .ask => "Ask"
  | .describe => "Describe"
  | .construct => "Construct"
  | .join => "Join"
  | .leftJoin => "LeftJoin"
  | .minus => "Minus"
  | .union => "Union"
  | .path => "Path"
  | .deleteInsert => "DeleteInsert"
  | .load => "Load"
  | .clear => "Clear"
  | .drop => "Drop"
  | .create => "Create"
  | .add => "Add"
  | .move => "Move"
  | .copy => "Copy"
  | .compositeUpdate => "CompositeUpdate"
  | .pattern => "Pattern"
  | .termExpression => "TermExpression"
  | .operatorExpression => "OperatorExpression"
  | .namedExpression => "NamedExpression"
  | .aggregateExpression => "AggregateExpression"
  | .existenceExpression => "ExistenceExpression"
  | .wildcardExpression => "WildcardExpression"
  | .linkPath => "LinkPath"
  | .inversePath => "InvPath"
  | .seqPath => "SeqPath"
  | .altPath => "AltPath"
  | .zeroOrMorePath => "ZeroOrMorePath"
  | .oneOrMorePath => "OneOrMorePath"
  | .zeroOrOnePath => "ZeroOrOnePath"
  | .negatedPath => "NpsPath"

/-- The kind of a name. -/
def ofName? (name : String) : Option NodeKind := all.find? (·.name == name)

end NodeKind

/-- The kind of an update of whole graphs. -/
def GraphAction.kind : GraphAction → NodeKind
  | .load .. => .load
  | .clear .. => .clear
  | .drop .. => .drop
  | .create .. => .create
  | .transfer .add .. => .add
  | .transfer .move .. => .move
  | .transfer .copy .. => .copy

/-- The kind of an operator on one operation. -/
def Wrapper.kind : Wrapper → NodeKind
  | .project _ => .project
  | .graph _ => .graph
  | .service .. => .service
  | .distinct => .distinct
  | .reduced => .reduced
  | .slice .. => .slice
  | .dataset .. => .dataset
  | .ask => .ask
  | .describe _ => .describe

/-- The kind of an operator on a list of operations. -/
def Combination.kind : Combination → NodeKind
  | .join => .join
  | .union => .union
  | .updates => .compositeUpdate

/-- The kind of an operator. -/
def Operator.kind : Operator → NodeKind
  | .bgp _ => .bgp
  | .values .. => .values
  | .nop => .nop
  | .path .. => .path
  | .manage action => action.kind
  | .wrap wrapper _ => wrapper.kind
  | .filter .. => .filter
  | .extend .. => .extend
  | .group .. => .group
  | .orderBy .. => .orderBy
  | .construct .. => .construct
  | .combine how _ => how.kind
  | .leftJoin .. => .leftJoin
  | .minus .. => .minus
  | .deleteInsert .. => .deleteInsert

/-- The kind of an expression. -/
def Expression.kind : Expression → NodeKind
  | .term _ => .termExpression
  | .call (.operator _) _ => .operatorExpression
  | .call (.function _) _ => .namedExpression
  | .aggregate .. => .aggregateExpression
  | .existence .. => .existenceExpression
  | .wildcard => .wildcardExpression

/-- The kind of a path. -/
def Path.kind : Path → NodeKind
  | .link _ => .linkPath
  | .inverse _ => .inversePath
  | .seq _ => .seqPath
  | .alt _ => .altPath
  | .zeroOrMore _ => .zeroOrMorePath
  | .oneOrMore _ => .oneOrMorePath
  | .zeroOrOne _ => .zeroOrOnePath
  | .negated _ => .negatedPath

/-- The nodes below an operator. -/
def Operator.children : Operator → List Node
  | .bgp patterns => patterns.map .pattern
  | .values .. => []
  | .nop => []
  | .path _ predicate _ _ => [.path predicate]
  | .manage _ => []
  | .wrap _ input => [.operation input]
  | .filter input condition => [.operation input, .expression condition]
  | .extend input _ value => [.operation input, .expression value]
  | .group input _ aggregates => .operation input :: aggregates.map (.expression ·.expression)
  | .orderBy input keys => .operation input :: keys.map .expression
  | .construct input template => .operation input :: template.map .pattern
  | .combine _ inputs => inputs.map .operation
  | .leftJoin left right condition =>
    .operation left :: .operation right :: (condition.map .expression).toList
  | .minus left right => [.operation left, .operation right]
  | .deleteInsert delete insert scope =>
    (delete.getD []).map .pattern ++ (insert.getD []).map .pattern
      ++ (scope.map .operation).toList

/-- The nodes below an expression. -/
def Expression.children : Expression → List Node
  | .term _ => []
  | .call _ arguments => arguments.map .expression
  | .aggregate _ argument _ _ => [.expression argument]
  | .existence _ input => [.operation input]
  | .wildcard => []

/-- The nodes below a path. -/
def Path.children : Path → List Node
  | .link _ => []
  | .inverse path => [.path path]
  | .seq steps => steps.map .path
  | .alt branches => branches.map .path
  | .zeroOrMore path => [.path path]
  | .oneOrMore path => [.path path]
  | .zeroOrOne path => [.path path]
  | .negated _ => []

namespace Node

/-- The kind of a node. -/
def kind : Node → NodeKind
  | .operation op => op.operator.kind
  | .pattern _ => .pattern
  | .expression value => value.kind
  | .path way => way.kind

/-- The nodes below a node, in the order of its fields. -/
def children : Node → List Node
  | .operation op => op.operator.children
  | .pattern _ => []
  | .expression value => value.children
  | .path way => way.children

/-- The node at the end of a path of child indices. -/
def descendant? (node : Node) : List Nat → Option Node
  | [] => some node
  | index :: rest => node.children[index]?.bind fun child => child.descendant? rest

/-! ### Children are smaller -/

/-- The size of all nodes of a list together. -/
noncomputable def totalSize : List Node → Nat
  | [] => 0
  | node :: rest => sizeOf node + totalSize rest

theorem totalSize_append (first second : List Node) :
    totalSize (first ++ second) = totalSize first + totalSize second := by
  induction first with
  | nil => simp [totalSize]
  | cons node rest ih =>
    simp only [List.cons_append, totalSize, ih]
    omega

theorem totalSize_map_lt {α : Type} [SizeOf α] (wrap : α → Node)
    (size : ∀ x, sizeOf (wrap x) = 1 + sizeOf x) (xs : List α) :
    totalSize (xs.map wrap) < sizeOf xs := by
  induction xs with
  | nil => simp [totalSize]
  | cons x rest ih =>
    simp only [List.map_cons, totalSize, List.cons.sizeOf_spec, size]
    omega

theorem totalSize_aggregates_lt (aggregates : List BoundAggregate) :
    totalSize (aggregates.map fun bound => Node.expression bound.expression)
      < sizeOf aggregates := by
  induction aggregates with
  | nil => simp [totalSize]
  | cons bound rest ih =>
    obtain ⟨name, value⟩ := bound
    simp only [List.map_cons, totalSize, List.cons.sizeOf_spec, BoundAggregate.mk.sizeOf_spec,
      Node.expression.sizeOf_spec]
    omega

theorem totalSize_operator_children_lt (operator : Operator) :
    totalSize operator.children < 3 + sizeOf operator := by
  cases operator with
  | bgp patterns =>
    have := totalSize_map_lt Node.pattern (fun _ => rfl) patterns
    simp only [Operator.children, Operator.bgp.sizeOf_spec]
    omega
  | group input keys aggregates =>
    have := totalSize_aggregates_lt aggregates
    simp only [Operator.children, totalSize, Operator.group.sizeOf_spec,
      Node.operation.sizeOf_spec]
    omega
  | orderBy input keys =>
    have := totalSize_map_lt Node.expression (fun _ => rfl) keys
    simp only [Operator.children, totalSize, Operator.orderBy.sizeOf_spec,
      Node.operation.sizeOf_spec]
    omega
  | construct input template =>
    have := totalSize_map_lt Node.pattern (fun _ => rfl) template
    simp only [Operator.children, totalSize, Operator.construct.sizeOf_spec,
      Node.operation.sizeOf_spec]
    omega
  | combine how inputs =>
    have := totalSize_map_lt Node.operation (fun _ => rfl) inputs
    simp only [Operator.children, Operator.combine.sizeOf_spec]
    omega
  | leftJoin left right condition =>
    cases condition <;> simp [Operator.children, totalSize] <;> omega
  | deleteInsert delete insert scope =>
    have inDelete := totalSize_map_lt Node.pattern (fun _ => rfl) (delete.getD [])
    have inInsert := totalSize_map_lt Node.pattern (fun _ => rfl) (insert.getD [])
    cases delete <;> cases insert <;> cases scope <;>
      simp_all [Operator.children, totalSize, totalSize_append] <;> omega
  | _ => simp [Operator.children, totalSize] <;> omega

theorem sizeOf_pos (node : Node) : 0 < sizeOf node := by
  cases node <;> exact Nat.add_pos_left Nat.one_pos _

/-- All children together are smaller than their parent. -/
theorem totalSize_children_lt (node : Node) : totalSize node.children < sizeOf node := by
  cases node with
  | operation op =>
    obtain ⟨operator, metadata⟩ := op
    have small := totalSize_operator_children_lt operator
    have positive : 1 ≤ sizeOf metadata := by cases metadata <;> simp
    simp only [children, Node.operation.sizeOf_spec, Operation.mk.sizeOf_spec]
    omega
  | pattern => exact sizeOf_pos _
  | expression value =>
    cases value with
    | call callee arguments =>
      have := totalSize_map_lt Node.expression (fun _ => rfl) arguments
      simp only [children, Expression.children, Node.expression.sizeOf_spec,
        Expression.call.sizeOf_spec]
      omega
    | _ => simp [children, Expression.children, totalSize] <;> omega
  | path way =>
    cases way with
    | seq steps =>
      have := totalSize_map_lt Node.path (fun _ => rfl) steps
      simp only [children, Path.children, Node.path.sizeOf_spec, Path.seq.sizeOf_spec]
      omega
    | alt branches =>
      have := totalSize_map_lt Node.path (fun _ => rfl) branches
      simp only [children, Path.children, Node.path.sizeOf_spec, Path.alt.sizeOf_spec]
      omega
    | link | negated => exact sizeOf_pos _
    | _ => simp [children, Path.children, totalSize]

theorem sizeOf_le_totalSize {node : Node} {nodes : List Node} (member : node ∈ nodes) :
    sizeOf node ≤ totalSize nodes := by
  induction nodes with
  | nil => cases member
  | cons head rest ih =>
    simp only [totalSize]
    rcases List.mem_cons.1 member with same | inRest
    · subst same
      omega
    · have := ih inRest
      omega

/-- A child is smaller than its parent. -/
theorem sizeOf_lt_of_mem_children {node child : Node} (member : child ∈ node.children) :
    sizeOf child < sizeOf node := by
  have := sizeOf_le_totalSize member
  have := totalSize_children_lt node
  omega

end Node

end QueryAlgebra
