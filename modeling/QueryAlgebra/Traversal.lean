import QueryAlgebra.Node.Slots

/-! # Transforming a tree on a stack of its own

A traversal asks `enter` at every node it meets, before the nodes below it, and hands nodes to
`leave`, after the nodes below them were replaced. Both may keep a state, and `leave` may fail. What
`enter` decides is a `Decision`: whether to go below the node, whether to stop after it, and whether
to hand it over.

The work still to be done is a list of tasks and the finished nodes are a second list, so the depth
of a tree does not matter; their joint length is bounded by a limit. `Node.fits` tells whether a
tree stays within the limit.
-/

namespace QueryAlgebra

/-- What to do at a node: whether to transform the nodes below it first, whether to pass by every
node not met yet, and whether to hand the node itself over. -/
structure Decision where
  descend : Bool := true
  shortcut : Bool := false
  copy : Bool := true
deriving DecidableEq, Inhabited

namespace Decision

/-- Transform the nodes below, then the node. -/
def default : Decision := {}

/-- Transform the node without going below it. -/
def skip : Decision := { descend := false }

/-- Transform the node and pass by everything not met yet. -/
def stop : Decision := { descend := false, shortcut := true }

/-- Go below the node, but leave the node itself. -/
def keep : Decision := { copy := false }

/-- Whether the nodes below are met. -/
def descends (decision : Decision) : Bool := decision.descend && !decision.shortcut

end Decision

/-- Why a traversal failed by itself. -/
inductive TraversalError where
  | stackOverflow (limit : Nat)
  | childMismatch (parent : NodeKind)
  | rootMismatch (found : NodeKind)
deriving DecidableEq

/-- The text of a failure. -/
def TraversalError.message : TraversalError → String
  | .stackOverflow limit => "Transform object stack overflowed (limit " ++ toString limit ++ ")"
  | .childMismatch parent => "Transformed children do not fit a " ++ parent.name ++ " node"
  | .rootMismatch found =>
    "Expected the transformed root to be an operation, got " ++ found.name

namespace Traversal

/-- The bound on pending entries where none is chosen. -/
def defaultLimit : Nat := 1000000

/-- What a transformation does at the nodes it meets, and how it reports its own failures. -/
structure Hooks (ε σ : Type) where
  enter : Node → StateM σ Decision
  leave : Node → EStateM ε σ Node
  fail : TraversalError → ε

/-- Work still to be done: a node to be met, or a node waiting for its children. -/
inductive Task where
  | visit (node : Node)
  | build (node : Node) (arity : Nat) (apply : Bool)

namespace Task

/-- A node counts twice its size, so that it outweighs the tasks that replace it. -/
noncomputable def weight : Task → Nat
  | .visit node => 2 * sizeOf node
  | .build .. => 1

/-- The weight of a list of tasks. -/
noncomputable def totalWeight : List Task → Nat
  | [] => 0
  | task :: rest => weight task + totalWeight rest

theorem totalWeight_children_lt (node : Node) (arity : Nat) (apply : Bool) (tasks : List Task) :
    totalWeight (node.children.map .visit ++ .build node arity apply :: tasks)
      < totalWeight (.visit node :: tasks) := by
  have doubled : ∀ (added : List Task) (children : List Node),
      totalWeight (children.map .visit ++ added)
        = 2 * Node.totalSize children + totalWeight added := by
    intro added children
    induction children with
    | nil => simp [Node.totalSize]
    | cons child rest ih =>
      simp only [List.map_cons, List.cons_append, totalWeight, ih, weight, Node.totalSize]
      omega
  have small := node.totalSize_children_lt
  simp only [doubled, totalWeight, weight]
  omega

theorem totalWeight_lt_cons (task : Task) (tasks : List Task) :
    totalWeight tasks < totalWeight (task :: tasks) := by
  have positive : 0 < weight task := by
    cases task with
    | visit node => exact Nat.mul_pos Nat.two_pos node.sizeOf_pos
    | build => simp [weight]
  simp only [totalWeight]
  omega

end Task

variable {ε σ : Type}

/-- Work off the tasks. `done` holds the finished nodes, the last one first, `held` is the number
of tasks and finished nodes together, and `stopped` tells that the nodes not met yet are passed
by. -/
def run (hooks : Hooks ε σ) (limit : Nat) (tasks : List Task) (done : List Node) (held : Nat)
    (stopped : Bool) (state : σ) : EStateM.Result ε σ Node :=
  match tasks with
  | [] =>
    match done with
    | [root] => .ok root state
    | others => .error (hooks.fail (.childMismatch ((others.head?.map Node.kind).getD .nop))) state
  | .visit node :: tasks =>
    if stopped then run hooks limit tasks (node :: done) held stopped state
    else
      let (decision, state) := hooks.enter node state
      if decision.descends then
        let arity := node.children.length
        if held + arity > limit then .error (hooks.fail (.stackOverflow limit)) state
        else
          run hooks limit (node.children.map .visit ++ .build node arity decision.copy :: tasks)
            done (held + arity) decision.shortcut state
      else if decision.copy then
        match hooks.leave node state with
        | .ok node state => run hooks limit tasks (node :: done) held decision.shortcut state
        | .error error state => .error error state
      else run hooks limit tasks (node :: done) held decision.shortcut state
  | .build node arity apply :: tasks =>
    match node.withChildren? (done.take arity).reverse with
    | none => .error (hooks.fail (.childMismatch node.kind)) state
    | some node =>
      if apply then
        match hooks.leave node state with
        | .ok node state =>
          run hooks limit tasks (node :: done.drop arity) (held - arity) stopped state
        | .error error state => .error error state
      else run hooks limit tasks (node :: done.drop arity) (held - arity) stopped state
termination_by Task.totalWeight tasks
decreasing_by
  all_goals first
    | exact Task.totalWeight_lt_cons ..
    | exact Task.totalWeight_children_lt ..

/-- Transform a tree. -/
def transform (limit : Nat) (hooks : Hooks ε σ) (root : Node) : EStateM ε σ Node :=
  run hooks limit [.visit root] [] 1 false

/-- Transform an operation, which has to become an operation. -/
def transformOperation (limit : Nat) (hooks : Hooks ε σ) (root : Operation) :
    EStateM ε σ Operation := do
  match ← transform limit hooks (.operation root) with
  | .operation result => pure result
  | other => throw (hooks.fail (.rootMismatch other.kind))

end Traversal

/-! ### How much a traversal holds at once

Before a node's children are met, a transformation holds one entry for the root and one for each
child of every node on the way down. Some kinds of nodes are left alone, and below others the count
starts afresh because a traversal of its own treats them. -/

/-- What happens below a node. -/
inductive Below where
  | descend
  | leave
  | afresh
deriving DecidableEq

/-- Whether at most `limit` entries are held at every node below `node`, of which `held` are held
already. -/
def Node.fits (limit : Nat) (below : NodeKind → Below) (held : Nat) (node : Node) : Bool :=
  match below node.kind with
  | .leave => true
  | .descend =>
    let now := held + node.children.length
    now ≤ limit && node.children.attach.all fun child => child.1.fits limit below now
  | .afresh => node.children.attach.all fun child => child.1.fits limit below 1
termination_by sizeOf node
decreasing_by all_goals exact Node.sizeOf_lt_of_mem_children child.2

/-- Fail unless a tree fits within the default limit. -/
def Node.checkFits (below : NodeKind → Below) (node : Node) : Except TraversalError Unit :=
  if node.fits Traversal.defaultLimit below 1 then .ok ()
  else .error (.stackOverflow Traversal.defaultLimit)

end QueryAlgebra
