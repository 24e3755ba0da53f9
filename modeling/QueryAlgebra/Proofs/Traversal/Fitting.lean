import QueryAlgebra.Traversal
import Mathlib.Data.List.Forall2

/-! # Trees that fit on a stack

A tree that fits on a stack when everything in it is descended into also fits when less is held
already, when some of it is left alone, and when the count starts afresh in some of it. So do its
parts. Trees of one shape fit alike.
-/

namespace QueryAlgebra

namespace Node

variable {limit held : Nat}

theorem fits_descend_iff (node : Node) :
    node.fits limit (fun _ => .descend) held = true
      ↔ held + node.children.length ≤ limit
        ∧ ∀ child ∈ node.children,
          child.fits limit (fun _ => .descend) (held + node.children.length) = true := by
  rw [fits]
  simp

/-- A tree that fits when everything is descended into fits in any other way. -/
theorem fits_of_descend (below : NodeKind → Below) (node : Node) {held held' : Nat}
    (fits : node.fits limit (fun _ => .descend) held = true) (positive : 1 ≤ held)
    (less : held' ≤ held) : node.fits limit below held' = true := by
  obtain ⟨within, children⟩ := (fits_descend_iff node).1 fits
  rw [Node.fits]
  cases below node.kind with
  | leave => rfl
  | descend =>
    simp only [Bool.and_eq_true, decide_eq_true_eq, List.all_eq_true]
    refine ⟨by omega, fun child _ => ?_⟩
    exact fits_of_descend below child.1 (children child.1 child.2) (by omega) (by omega)
  | afresh =>
    simp only [List.all_eq_true]
    intro child _
    exact fits_of_descend below child.1 (children child.1 child.2) (by omega) (by omega)
termination_by sizeOf node
decreasing_by all_goals exact Node.sizeOf_lt_of_mem_children child.2

/-- A part of a tree that fits, fits on its own. -/
theorem fits_child {node child : Node} (fits : node.fits limit (fun _ => .descend) 1 = true)
    (member : child ∈ node.children) : child.fits limit (fun _ => .descend) 1 = true :=
  fits_of_descend _ child (((fits_descend_iff node).1 fits).2 child member) (by omega) (by omega)

theorem checkFits_of_descend (below : NodeKind → Below) {node : Node}
    (fits : node.fits Traversal.defaultLimit (fun _ => .descend) 1 = true) :
    node.checkFits below = .ok () := by
  rw [checkFits, if_pos (fits_of_descend below node fits (by omega) (by omega))]

/-- Nodes of the same kinds in the same places. -/
inductive SameShape : Node → Node → Prop where
  | mk {first second : Node} : first.kind = second.kind →
    List.Forall₂ SameShape first.children second.children → SameShape first second

theorem SameShape.refl (node : Node) : SameShape node node :=
  .mk rfl (List.forall₂_same.2 fun child _ => SameShape.refl child)
termination_by sizeOf node
decreasing_by exact sizeOf_lt_of_mem_children ‹_›

mutual

theorem SameShape.trans {first second third : Node} :
    SameShape first second → SameShape second third → SameShape first third
  | .mk kinds children, .mk kinds' children' =>
    .mk (kinds.trans kinds') (SameShape.all_trans children children')
termination_by (sizeOf first, 0)
decreasing_by all_goals exact .left _ _ (totalSize_children_lt first)

theorem SameShape.all_trans {firsts seconds thirds : List Node} :
    List.Forall₂ SameShape firsts seconds → List.Forall₂ SameShape seconds thirds →
    List.Forall₂ SameShape firsts thirds
  | .nil, .nil => .nil
  | .cons (a := node) head rest, .cons head' rest' => by
    have positive := node.sizeOf_pos
    exact .cons (SameShape.trans head head') (SameShape.all_trans rest rest')
termination_by (totalSize firsts, 1)
decreasing_by all_goals simp only [totalSize, Prod.lex_def]; omega

end

theorem fits_eq (below : NodeKind → Below) (node : Node) (held : Nat) :
    node.fits limit below held = match below node.kind with
      | .leave => true
      | .descend =>
        decide (held + node.children.length ≤ limit)
          && node.children.all fun child => child.fits limit below (held + node.children.length)
      | .afresh => node.children.all fun child => child.fits limit below 1 := by
  rw [fits]
  cases below node.kind <;> simp

mutual

/-- Whether a tree fits depends on its shape alone. -/
theorem SameShape.fits_eq (below : NodeKind → Below) {first second : Node} (held : Nat) :
    SameShape first second → first.fits limit below held = second.fits limit below held
  | .mk kinds children => by
    rw [Node.fits_eq, Node.fits_eq, kinds, children.length_eq, SameShape.all_fit_eq below _ children,
      SameShape.all_fit_eq below _ children]
termination_by (sizeOf first, 0)
decreasing_by all_goals exact .left _ _ (totalSize_children_lt first)

theorem SameShape.all_fit_eq (below : NodeKind → Below) {firsts seconds : List Node} (held : Nat) :
    List.Forall₂ SameShape firsts seconds →
    (firsts.all fun node => node.fits limit below held)
      = seconds.all fun node => node.fits limit below held
  | .nil => rfl
  | .cons (a := node) head rest => by
    have positive := node.sizeOf_pos
    rw [List.all_cons, List.all_cons, SameShape.fits_eq below held head,
      SameShape.all_fit_eq below held rest]
termination_by (totalSize firsts, 1)
decreasing_by all_goals simp only [totalSize, Prod.lex_def]; omega

end

end Node

end QueryAlgebra
