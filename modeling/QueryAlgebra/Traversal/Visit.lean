import QueryAlgebra.Traversal

/-! # Visiting a tree without changing it

A visit meets nodes as a transformation does, and shows every node to `leave` after the nodes below
it. Nodes passed by after a shortcut are not shown. The bound is on the pending tasks alone.
-/

namespace QueryAlgebra

namespace Traversal

/-- What a visit does at the nodes it meets. -/
structure Visitor (σ : Type) where
  enter : Node → StateM σ Decision
  leave : Node → StateM σ Unit

/-- Work still to be done: a node to be met, or a node to be shown. -/
inductive VisitTask where
  | enter (node : Node)
  | leave (node : Node)

namespace VisitTask

/-- A node counts twice its size, so that it outweighs the tasks that replace it. -/
noncomputable def weight : VisitTask → Nat
  | .enter node => 2 * sizeOf node
  | .leave _ => 1

/-- The weight of a list of tasks. -/
noncomputable def totalWeight : List VisitTask → Nat
  | [] => 0
  | task :: rest => weight task + totalWeight rest

theorem totalWeight_children_lt (node : Node) (tasks : List VisitTask) :
    totalWeight (node.children.map .enter ++ .leave node :: tasks)
      < totalWeight (.enter node :: tasks) := by
  have doubled : ∀ (added : List VisitTask) (children : List Node),
      totalWeight (children.map .enter ++ added)
        = 2 * Node.totalSize children + totalWeight added := by
    intro added children
    induction children with
    | nil => simp [Node.totalSize]
    | cons child rest ih =>
      simp only [List.map_cons, List.cons_append, totalWeight, ih, weight, Node.totalSize]
      omega
  have small := node.totalSize_children_lt
  simp only [doubled, totalWeight, weight]
  omega

theorem totalWeight_leave_lt (node : Node) (tasks : List VisitTask) :
    totalWeight (.leave node :: tasks) < totalWeight (.enter node :: tasks) := by
  have positive := node.sizeOf_pos
  simp only [totalWeight, weight]
  omega

theorem totalWeight_lt_cons (task : VisitTask) (tasks : List VisitTask) :
    totalWeight tasks < totalWeight (task :: tasks) := by
  have positive : 0 < weight task := by
    cases task with
    | enter node => exact Nat.mul_pos Nat.two_pos node.sizeOf_pos
    | leave => simp [weight]
  simp only [totalWeight]
  omega

end VisitTask

variable {σ : Type}

/-- Work off the tasks, of which there are `held`. -/
def runVisit (visitor : Visitor σ) (limit : Nat) (tasks : List VisitTask) (held : Nat)
    (stopped : Bool) (state : σ) : EStateM.Result TraversalError σ Unit :=
  match tasks with
  | [] => .ok () state
  | .enter node :: tasks =>
    if stopped then runVisit visitor limit tasks (held - 1) stopped state
    else
      let (decision, state) := visitor.enter node state
      if decision.descends then
        let arity := node.children.length
        if held + arity > limit then .error (.stackOverflow limit) state
        else
          runVisit visitor limit (node.children.map .enter ++ .leave node :: tasks) (held + arity)
            decision.shortcut state
      else runVisit visitor limit (.leave node :: tasks) held decision.shortcut state
  | .leave node :: tasks =>
    let (_, state) := visitor.leave node state
    runVisit visitor limit tasks (held - 1) stopped state
termination_by VisitTask.totalWeight tasks
decreasing_by
  all_goals first
    | exact VisitTask.totalWeight_lt_cons ..
    | exact VisitTask.totalWeight_children_lt ..
    | exact VisitTask.totalWeight_leave_lt ..

/-- Visit a tree. -/
def visit (limit : Nat) (visitor : Visitor σ) (root : Node) : EStateM TraversalError σ Unit :=
  runVisit visitor limit [.enter root] 1 false

end Traversal

end QueryAlgebra
