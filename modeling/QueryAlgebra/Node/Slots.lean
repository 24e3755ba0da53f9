import QueryAlgebra.Node

/-! # Refilling the slots of a node

The children of a node stand in slots, each for one family. `Node.refill` puts a list of nodes into
the slots from left to right and stops at the first node of the wrong family; the slots from there
on keep what they held. `Node.emptied` leaves a placeholder in every slot, and `Node.putChildren`
refills a node with exactly as many nodes as it has slots.
-/

namespace QueryAlgebra

/-- The nodes still to be put into slots, until one is rejected for its family. -/
structure Refill where
  pending : List Node
  rejected : Option Node

namespace Refill

/-- Fill a slot: `fits?` recognises the nodes of its family, and `old` is what it held. -/
def slot {α : Type} (fits? : Node → Option α) (old : α) : StateM Refill α := fun state =>
  match state.pending with
  | [] => (old, state)
  | node :: rest =>
    match fits? node with
    | some new => (new, ⟨rest, state.rejected⟩)
    | none => (old, ⟨[], some node⟩)

/-- Fill a slot for an operation. -/
def operation : Operation → StateM Refill Operation :=
  slot fun
    | .operation new => some new
    | _ => none

/-- Fill a slot for a pattern. -/
def pattern : Pattern → StateM Refill Pattern :=
  slot fun
    | .pattern new => some new
    | _ => none

/-- Fill a slot for an expression. -/
def expression : Expression → StateM Refill Expression :=
  slot fun
    | .expression new => some new
    | _ => none

/-- Fill a slot for a path. -/
def path : Path → StateM Refill Path :=
  slot fun
    | .path new => some new
    | _ => none

/-- Fill the slots of a list. -/
def all {α : Type} (fill : α → StateM Refill α) : List α → StateM Refill (List α)
  | [] => pure []
  | old :: rest => do
    let new ← fill old
    let news ← all fill rest
    pure (new :: news)

/-- Fill the slot that may be there. -/
def optional {α : Type} (fill : α → StateM Refill α) : Option α → StateM Refill (Option α)
  | none => pure none
  | some old => some <$> fill old

/-- Fill the slot of an aggregate's expression. -/
def aggregate (bound : BoundAggregate) : StateM Refill BoundAggregate := do
  let value ← expression bound.expression
  pure ⟨bound.name, value⟩

end Refill

/-- Refill the slots of an operator. -/
def Operator.refill : Operator → StateM Refill Operator
  | .bgp patterns => .bgp <$> Refill.all Refill.pattern patterns
  | .values vars rows => pure (.values vars rows)
  | .nop => pure .nop
  | .path subject predicate object graph => do
    let predicate ← Refill.path predicate
    pure (.path subject predicate object graph)
  | .manage action => pure (.manage action)
  | .wrap wrapper input => .wrap wrapper <$> Refill.operation input
  | .filter input condition => do
    let input ← Refill.operation input
    let condition ← Refill.expression condition
    pure (.filter input condition)
  | .extend input name value => do
    let input ← Refill.operation input
    let value ← Refill.expression value
    pure (.extend input name value)
  | .group input keys aggregates => do
    let input ← Refill.operation input
    let aggregates ← Refill.all Refill.aggregate aggregates
    pure (.group input keys aggregates)
  | .orderBy input keys => do
    let input ← Refill.operation input
    let keys ← Refill.all Refill.expression keys
    pure (.orderBy input keys)
  | .construct input template => do
    let input ← Refill.operation input
    let template ← Refill.all Refill.pattern template
    pure (.construct input template)
  | .combine how inputs => .combine how <$> Refill.all Refill.operation inputs
  | .leftJoin left right condition => do
    let left ← Refill.operation left
    let right ← Refill.operation right
    let condition ← Refill.optional Refill.expression condition
    pure (.leftJoin left right condition)
  | .minus left right => do
    let left ← Refill.operation left
    let right ← Refill.operation right
    pure (.minus left right)
  | .deleteInsert delete insert scope => do
    let delete ← Refill.optional (Refill.all Refill.pattern) delete
    let insert ← Refill.optional (Refill.all Refill.pattern) insert
    let scope ← Refill.optional Refill.operation scope
    pure (.deleteInsert delete insert scope)

/-- Refill the slots of an expression. -/
def Expression.refill : Expression → StateM Refill Expression
  | .term value => pure (.term value)
  | .call callee arguments => .call callee <$> Refill.all Refill.expression arguments
  | .aggregate name argument distinct separator => do
    let argument ← Refill.expression argument
    pure (.aggregate name argument distinct separator)
  | .existence negated input => .existence negated <$> Refill.operation input
  | .wildcard => pure .wildcard

/-- Refill the slots of a path. -/
def Path.refill : Path → StateM Refill Path
  | .link predicate => pure (.link predicate)
  | .inverse path => .inverse <$> Refill.path path
  | .seq steps => .seq <$> Refill.all Refill.path steps
  | .alt branches => .alt <$> Refill.all Refill.path branches
  | .zeroOrMore path => .zeroOrMore <$> Refill.path path
  | .oneOrMore path => .oneOrMore <$> Refill.path path
  | .zeroOrOne path => .zeroOrOne <$> Refill.path path
  | .negated predicates => pure (.negated predicates)

namespace Node

/-- Refill the slots of a node. -/
def refill : Node → StateM Refill Node
  | .operation op => do
    let operator ← op.operator.refill
    pure (.operation ⟨operator, op.metadata⟩)
  | .pattern triple => pure (.pattern triple)
  | .expression value => .expression <$> value.refill
  | .path way => .path <$> way.refill

/-- What stands in a slot whose child was taken out. -/
def placeholder : Node → Node
  | .operation _ => .operation .nop
  | .pattern _ => .pattern ⟨.defaultGraph, .defaultGraph, .defaultGraph, .defaultGraph⟩
  | .expression _ => .expression .wildcard
  | .path _ => .path (.negated [])

/-- The node with its children taken out. -/
def emptied (node : Node) : Node :=
  (node.refill ⟨node.children.map placeholder, none⟩).1

/-- Why nodes could not be put into the slots of a node. -/
inductive PutError where
  | arity
  | family (rejected : Node)
deriving DecidableEq

/-- Put nodes into the slots of a node. Unless there are as many as slots, nothing is put; the
slots before a rejected node are filled. -/
def putChildren (node : Node) (children : List Node) : Node × Except PutError Unit :=
  if children.length = node.children.length then
    match node.refill ⟨children, none⟩ with
    | (filled, ⟨_, none⟩) => (filled, .ok ())
    | (filled, ⟨_, some rejected⟩) => (filled, .error (.family rejected))
  else (node, .error .arity)

/-- The node with other children, if they fit. -/
def withChildren? (node : Node) (children : List Node) : Option Node :=
  match node.putChildren children with
  | (filled, .ok ()) => some filled
  | (_, .error _) => none

end Node

end QueryAlgebra
