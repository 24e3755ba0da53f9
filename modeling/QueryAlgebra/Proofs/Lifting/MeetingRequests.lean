import QueryAlgebra.Proofs.Lifting.MeetingOperations
import QueryAlgebra.Proofs.Operation.GraphsTakenOut

/-! # Requests that meet demands

The operation of a request can be written as a request that meets demands, unless the traversal that
takes graph names out of it needs more stack than there is. Updates need that graph names may stand
in patterns, because their templates carry them.
-/

namespace QueryAlgebra

open Surface (Demands QuadBlock)

variable {bounds : Bounds} {demands : Demands}

/-! ### Queries -/

/-- A query of any form that meets demands. -/
def Lifted.IsQuery (demands : Demands) (lifted : Lifted) : Prop :=
  ∃ query : Surface.Query, lifted = .query query ∧ query.Meets demands

namespace Operation

end Operation

/-! ### Updates -/

namespace Pattern

variable {patterns : List Pattern}

end Pattern

namespace Operation

/-- Taking graph names out of an operation fails only for want of stack. -/
theorem lifts_withoutGraphs (operation : Operation) :
    Lifts (fun cleared => cleared = operation.withoutEmbeddedGraphs) operation.withoutGraphs := by
  rw [withoutGraphs, removeEmbeddedGraphs, Node.checkFits]
  by_cases fits : (Node.operation operation).fits Traversal.defaultLimit
      (fun kind => if kind = .deleteInsert then .leave else .descend) 1 = true
  · rw [if_pos fits]
    exact rfl
  · rw [if_neg fits]
    exact .intro _

section

variable {delete insert : Option (List Pattern)}

end

theorem GraphTarget.meets_written (suffice : bounds.Suffice demands) {target : GraphTarget}
    (full : target.IsFull bounds) : target.written.Meets demands := by
  cases target with
  | graph name => exact suffice.full name full
  | _ => exact trivial

theorem GraphTarget.succeeds_writtenSingle (suffice : bounds.Suffice demands) {target : GraphTarget}
    (single : target.IsSingle bounds) :
    Succeeds (fun graph => graph.Meets demands) target.writtenSingle := by
  cases target with
  | default => exact trivial
  | graph name => exact suffice.full name single
  | _ => cases single

theorem GraphAction.succeeds_written (suffice : bounds.Suffice demands) {action : GraphAction}
    (wellFormed : action.WellFormed bounds) :
    Succeeds (fun update => update.Meets demands) action.written := by
  cases action with
  | load source destination silent =>
    refine ⟨suffice.full source wellFormed.1, fun graph member => ?_⟩
    obtain ⟨node, isNode, rfl⟩ := Option.map_eq_some_iff.1 member
    exact suffice.full node (wellFormed.2 node isNode)
  | clear target silent | drop target silent => exact GraphTarget.meets_written suffice wellFormed
  | create graph silent => exact suffice.full graph wellFormed
  | transfer how source destination silent =>
    refine (GraphTarget.succeeds_writtenSingle suffice wellFormed.1).bind fun source ofSource => ?_
    exact (GraphTarget.succeeds_writtenSingle suffice wellFormed.2).bind
      fun destination ofDestination => ⟨ofSource, ofDestination⟩

variable (suffice : bounds.Suffice demands) (updates : bounds.graphs → demands.updates)

include suffice updates

end Operation

end QueryAlgebra
