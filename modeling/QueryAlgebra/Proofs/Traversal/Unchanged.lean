import QueryAlgebra.Proofs.Traversal.Fitting
import QueryAlgebra.Proofs.Traversal.Refinement
import QueryAlgebra.Proofs.Traversal.Refitting
import QueryAlgebra.Traversal.Table

/-! # Traversals that change nothing

Hooks that leave every node as it is leave the whole tree as it is, whatever they decide on the
way: nodes that were passed by, kept or handed over are the nodes that were met, and a node that
was descended into gets its own children back. All that can go wrong is that the tree does not fit
on the stack, and a tree that fits when everything is descended into always does.
-/

namespace QueryAlgebra.Traversal

variable {ε σ : Type}

/-- Hooks that leave every node as it is and only take note of it. -/
def Hooks.watching (enter : Node → StateM σ Decision) (note : Node → StateM σ Unit)
    (fail : TraversalError → ε) : Hooks ε σ where
  enter := enter
  leave node state := .ok node (note node state).2
  fail := fail

section

variable (enter : Node → StateM σ Decision) (note : Node → StateM σ Unit)
  (fail : TraversalError → ε)

theorem handOver_watching (decision : Decision) (node : Node) (state : σ) :
    ∃ final, (Hooks.watching enter note fail).handOver decision node state = .ok node final := by
  cases copied : decision.copy with
  | true =>
    refine ⟨(note node state).2, ?_⟩
    simp only [Hooks.handOver, copied, ↓reduceIte, Hooks.watching]
  | false =>
    refine ⟨state, ?_⟩
    simp only [Hooks.handOver, copied, Bool.false_eq_true, ↓reduceIte]
    rfl

mutual

/-- The recursion gives back the node that it was given. -/
theorem rewrite_watching (node : Node) (stopped : Bool) (state : σ) :
    ∃ stopped' final, (rewrite (Hooks.watching enter note fail) node).run stopped state =
      .ok (node, stopped') final := by
  cases stopped with
  | true => exact ⟨true, state, rewrite_stopped _ node state⟩
  | false =>
    rcases entered : enter node state with ⟨decision, asked⟩
    cases descends : decision.descends with
    | false =>
      obtain ⟨final, handed⟩ := handOver_watching enter note fail decision node asked
      refine ⟨decision.shortcut, final, ?_⟩
      rw [rewrite_leaf _ node entered descends, handed, andThen_ok]
    | true =>
      obtain ⟨stopped', below, children⟩ := rewriteAll_watching node.children false asked
      obtain ⟨final, handed⟩ := handOver_watching enter note fail decision node below
      refine ⟨stopped', final, ?_⟩
      rw [rewrite_descend _ node entered descends, children, andThen_ok, putBack_eq,
        node.withChildren?_children]
      simp only [andThen_ok, handed]
termination_by 2 * sizeOf node
decreasing_by exact node.children_below

/-- The recursion gives back the nodes that it was given, in their order. -/
theorem rewriteAll_watching (nodes : List Node) (stopped : Bool) (state : σ) :
    ∃ stopped' final, (rewriteAll (Hooks.watching enter note fail) nodes).run stopped state =
      .ok (nodes, stopped') final := by
  match nodes with
  | [] => exact ⟨stopped, state, rewriteAll_nil _ stopped state⟩
  | node :: rest =>
    obtain ⟨between, middle, first⟩ := rewrite_watching node stopped state
    obtain ⟨stopped', final, others⟩ := rewriteAll_watching rest between middle
    refine ⟨stopped', final, ?_⟩
    rw [rewriteAll_cons, first, andThen_ok, others, andThen_ok]
termination_by 2 * Node.totalSize nodes + 1
decreasing_by
  · exact node.first_below rest
  · exact node.rest_below rest

end

/-- A traversal that changes nothing gives back its root, or does not fit on the stack. -/
theorem transform_watching (limit : Nat) (root : Node) (state : σ) :
    ∃ final, transform limit (Hooks.watching enter note fail) root state =
      if peak (Hooks.watching enter note fail) 1 root false state ≤ limit then .ok root final
      else .error (fail (.stackOverflow limit)) final := by
  by_cases within : peak (Hooks.watching enter note fail) 1 root false state ≤ limit
  · obtain ⟨stopped, final, rewritten⟩ := rewrite_watching enter note fail root false state
    refine ⟨final, ?_⟩
    rw [if_pos within, transform_within _ limit root state within]
    change andThen ((rewrite _ root).run false state) (fun result state => .ok result.1 state) = _
    rw [rewritten, andThen_ok]
  · obtain ⟨final, overflows⟩ :=
      (run_visit (Hooks.watching enter note fail) limit root [] [] 1 false state).2 (by omega)
    exact ⟨final, by rw [if_neg within]; exact overflows⟩

end

/-! ### Trees that fit

Whatever hooks decide and put in the place of nodes, the nodes that are met are nodes of the tree.
-/

mutual

theorem peak_le_of_fits (hooks : Hooks ε σ) {limit held : Nat} (node : Node) (stopped : Bool)
    (state : σ) (fits : node.fits limit (fun _ => .descend) held = true) :
    peak hooks held node stopped state ≤ limit := by
  obtain ⟨within, children⟩ := (Node.fits_descend_iff node).1 fits
  cases stopped with
  | true =>
    rw [peak]
    exact Nat.zero_le limit
  | false =>
    rcases entered : hooks.enter node state with ⟨decision, asked⟩
    cases descends : decision.descends with
    | false =>
      rw [peak_leaf held entered descends]
      exact Nat.zero_le limit
    | true =>
      rw [peak_descend held entered descends]
      exact Nat.max_le.2 ⟨within, peakAll_le_of_fit hooks node.children false asked children⟩
termination_by 2 * sizeOf node
decreasing_by exact node.children_below

theorem peakAll_le_of_fit (hooks : Hooks ε σ) {limit held : Nat} (nodes : List Node)
    (stopped : Bool) (state : σ)
    (fit : ∀ node ∈ nodes, node.fits limit (fun _ => .descend) held = true) :
    peakAll hooks held nodes stopped state ≤ limit := by
  match nodes with
  | [] =>
    rw [peakAll]
    exact Nat.zero_le limit
  | node :: rest =>
    have first := peak_le_of_fits hooks node stopped state (fit node (List.mem_cons_self ..))
    rw [peakAll]
    cases (rewrite hooks node).run stopped state with
    | error => exact first
    | ok result between =>
      have others := peakAll_le_of_fit hooks rest result.2 between
        fun other member => fit other (List.mem_cons_of_mem _ member)
      exact Nat.max_le.2 ⟨first, others⟩
termination_by 2 * Node.totalSize nodes + 1
decreasing_by
  · exact node.first_below rest
  · exact node.rest_below rest

end

/-- Watching a tree that fits gives it back, whatever is decided on the way. -/
theorem transform_watching_of_fits (enter : Node → StateM σ Decision)
    (note : Node → StateM σ Unit) (fail : TraversalError → ε) {limit : Nat} {root : Node}
    (state : σ) (fits : root.fits limit (fun _ => .descend) 1 = true) :
    ∃ final, transform limit (Hooks.watching enter note fail) root state = .ok root final := by
  obtain ⟨final, result⟩ := transform_watching enter note fail limit root state
  rw [if_pos (peak_le_of_fits _ root false state fits)] at result
  exact ⟨final, result⟩

/-! ### Hooks by kind -/

/-- A table without transformations watches. -/
theorem Table.hooks_untransformed (enter : NodeKind → Option (Node → StateM σ Decision))
    (fail : TraversalError → ε) :
    (Table.mk enter fun _ => none).hooks fail =
      .watching ((⟨enter, fun _ => none⟩ : Table ε σ).hooks fail).enter (fun _ => pure ()) fail :=
  rfl

/-- A traversal that changes nothing is the identity. The hooks may decide as they like at every
node, by all that they have seen, and the operations of the tree may carry any metadata: unless the
limit is exceeded the root comes back as it was. That holds for hooks that leave every node as it
is and for tables without transformations. -/
theorem transform_unchanged (enter : Node → StateM σ Decision) (note : Node → StateM σ Unit)
    (previsits : NodeKind → Option (Node → StateM σ Decision)) (fail : TraversalError → ε)
    (limit : Nat) (root : Node) (state : σ) :
    (∃ final, transform limit (Hooks.watching enter note fail) root state =
      if peak (Hooks.watching enter note fail) 1 root false state ≤ limit then .ok root final
      else .error (fail (.stackOverflow limit)) final) ∧
    (∃ final, transform limit ((Table.mk previsits fun _ => none).hooks fail) root state =
      if peak ((Table.mk previsits fun _ => none).hooks fail) 1 root false state ≤ limit
      then .ok root final
      else .error (fail (.stackOverflow limit)) final) := by
  constructor
  · exact transform_watching enter note fail limit root state
  · rw [Table.hooks_untransformed]
    exact transform_watching _ _ fail limit root state

end QueryAlgebra.Traversal
