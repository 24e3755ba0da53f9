import QueryAlgebra.Proofs.Traversal.Unchanged
import QueryAlgebra.Traversal.Visit

/-! # A visit goes where a transformation goes

A visit and a transformation that leaves every node as it is work on stacks of their own kind: the
one keeps the nodes that are still to be shown, the other rebuilds every node from its finished
children and counts those too. Where every node is handed over both make the same calls in the same
order, and since a visit holds no more than a transformation it does not overflow before the other
does. `visit_calls_eq_transform_calls` puts this together.
-/

namespace QueryAlgebra.Traversal

variable {ε σ : Type}

/-- A visitor that notes the calls made to it. -/
def Visitor.recorded (visitor : Visitor σ) : Visitor (σ × List Call) where
  enter node kept :=
    ((visitor.enter node kept.1).1, (visitor.enter node kept.1).2, kept.2 ++ [.enter node])
  leave node kept := ((), (visitor.leave node kept.1).2, kept.2 ++ [.leave node])

/-- Hooks that do what a visitor does, and leave every node as it is. -/
def Visitor.hooks (visitor : Visitor σ) (fail : TraversalError → ε) : Hooks ε σ :=
  .watching visitor.enter visitor.leave fail

theorem Visitor.hooks_recorded (visitor : Visitor σ) (fail : TraversalError → ε) :
    (visitor.hooks fail).recorded = visitor.recorded.hooks fail := rfl

/-- Every node that is met is shown too, whatever else is decided. -/
def Visitor.ShowsAll (visitor : Visitor σ) : Prop :=
  ∀ node state, (visitor.enter node state).1.copy = true

theorem Visitor.ShowsAll.recorded {visitor : Visitor σ} (shows : visitor.ShowsAll) :
    visitor.recorded.ShowsAll := fun node kept => shows node kept.1

/-! ### What a visit does at a node -/

section

variable (visitor : Visitor σ) (limit : Nat) (node : Node) (tasks : List VisitTask) (held : Nat)

theorem runVisit_stopped (state : σ) :
    runVisit visitor limit (.enter node :: tasks) held true state =
      runVisit visitor limit tasks (held - 1) true state := by
  rw [runVisit, if_pos rfl]

theorem runVisit_leave (stopped : Bool) (state : σ) :
    runVisit visitor limit (.leave node :: tasks) held stopped state =
      runVisit visitor limit tasks (held - 1) stopped (visitor.leave node state).2 := by
  rw [runVisit]
  rfl

/-- A node that is not descended into is shown next. -/
theorem runVisit_leaf {state asked : σ} {decision : Decision}
    (entered : visitor.enter node state = (decision, asked)) (leaf : decision.descends = false) :
    runVisit visitor limit (.enter node :: tasks) held false state =
      runVisit visitor limit tasks (held - 1) decision.shortcut (visitor.leave node asked).2 := by
  rw [runVisit]
  simp only [entered, leaf, Bool.false_eq_true, ↓reduceIte, runVisit_leave]

/-- A node that is descended into is shown after its children, if the limit allows. -/
theorem runVisit_descend {state asked : σ} {decision : Decision}
    (entered : visitor.enter node state = (decision, asked)) (descends : decision.descends = true)
    (within : held + node.children.length ≤ limit) :
    runVisit visitor limit (.enter node :: tasks) held false state =
      runVisit visitor limit (node.children.map .enter ++ .leave node :: tasks)
        (held + node.children.length) false asked := by
  have goesOn : decision.shortcut = false := by
    simp only [Decision.descends, Bool.and_eq_true, Bool.not_eq_true'] at descends
    exact descends.2
  rw [runVisit]
  simp only [entered, descends, goesOn, Bool.false_eq_true, ↓reduceIte, gt_iff_lt,
    if_neg (Nat.not_lt.2 within)]

end

/-! ### A visit against the recursion -/

section

variable {visitor : Visitor σ} (fail : TraversalError → ε)

theorem Visitor.ShowsAll.handOver (shows : visitor.ShowsAll) {node : Node} {state asked : σ}
    {decision : Decision} (entered : visitor.enter node state = (decision, asked)) (shown : Node)
    (before : σ) :
    (visitor.hooks fail).handOver decision shown before =
      .ok shown (visitor.leave shown before).2 := by
  have copied : decision.copy = true := by
    simpa only [entered] using shows node state
  rw [Hooks.handOver, if_pos copied]
  rfl

mutual

/-- A node on the stack of a visit is treated as the recursion treats it, when the stack of a
transformation has room for it. -/
theorem runVisit_enter (shows : visitor.ShowsAll) (limit : Nat) (node : Node)
    (tasks : List VisitTask) {held bound : Nat} {stopped stopped' : Bool} {state final : σ}
    {result : Node} (within : peak (visitor.hooks fail) bound node stopped state ≤ limit)
    (less : held ≤ bound)
    (rewritten : (rewrite (visitor.hooks fail) node).run stopped state =
      .ok (result, stopped') final) :
    runVisit visitor limit (.enter node :: tasks) held stopped state =
      runVisit visitor limit tasks (held - 1) stopped' final := by
  cases stopped with
  | true =>
    rw [rewrite_stopped] at rewritten
    cases rewritten
    exact runVisit_stopped visitor limit node tasks held state
  | false =>
    rcases entered : visitor.enter node state with ⟨decision, asked⟩
    cases descends : decision.descends with
    | false =>
      rw [rewrite_leaf _ node entered descends, shows.handOver fail entered, andThen_ok]
        at rewritten
      cases rewritten
      exact runVisit_leaf visitor limit node tasks held entered descends
    | true =>
      rw [peak_descend bound entered descends] at within
      rw [rewrite_descend _ node entered descends] at rewritten
      obtain ⟨children, below, done, rewritten⟩ := andThen_eq_ok rewritten
      obtain ⟨again, last, watched⟩ :=
        rewriteAll_watching visitor.enter visitor.leave fail node.children false asked
      obtain rfl : children = (node.children, again) := by
        cases done.symm.trans watched
        rfl
      rw [putBack_eq, node.withChildren?_children, andThen_ok, shows.handOver fail entered,
        andThen_ok] at rewritten
      cases rewritten
      rw [runVisit_descend visitor limit node tasks held entered descends (by omega),
        runVisit_enters shows limit node.children (.leave node :: tasks) (by omega)
          (Nat.add_le_add_right less _) done,
        runVisit_leave, Nat.add_sub_cancel]
termination_by 2 * sizeOf node
decreasing_by exact node.children_below

theorem runVisit_enters (shows : visitor.ShowsAll) (limit : Nat) (nodes : List Node)
    (tasks : List VisitTask) {held bound : Nat} {stopped stopped' : Bool} {state final : σ}
    {results : List Node} (within : peakAll (visitor.hooks fail) bound nodes stopped state ≤ limit)
    (less : held ≤ bound)
    (rewritten : (rewriteAll (visitor.hooks fail) nodes).run stopped state =
      .ok (results, stopped') final) :
    runVisit visitor limit (nodes.map .enter ++ tasks) held stopped state =
      runVisit visitor limit tasks (held - nodes.length) stopped' final := by
  match nodes with
  | [] =>
    rw [rewriteAll_nil] at rewritten
    cases rewritten
    rfl
  | node :: rest =>
    rw [rewriteAll_cons] at rewritten
    obtain ⟨⟨first, between⟩, middle, done, rewritten⟩ := andThen_eq_ok rewritten
    obtain ⟨⟨others, last⟩, final', doneRest, rewritten⟩ := andThen_eq_ok rewritten
    cases rewritten
    rw [peakAll, done] at within
    simp only at within doneRest
    have restWithin : peakAll (visitor.hooks fail) bound rest between middle ≤ limit := by omega
    rw [List.map_cons, List.cons_append,
      runVisit_enter shows limit node (rest.map VisitTask.enter ++ tasks) (by omega) less done,
      runVisit_enters shows limit rest tasks restWithin (by omega) doneRest,
      List.length_cons, Nat.sub_sub, Nat.add_comm 1]
termination_by 2 * Node.totalSize nodes + 1
decreasing_by
  · exact node.first_below rest
  · exact node.rest_below rest

end

end

/-- A visit agrees with a transformation that changes nothing, where every node that is met is
shown. Unless the transformation overflows, the visit does not either, and then both ask at the same
nodes and hand over the same nodes, all in one order, and come to the same state. -/
theorem visit_calls_eq_transform_calls {visitor : Visitor σ} (shows : visitor.ShowsAll)
    (fail : TraversalError → ε) (limit : Nat) (root : Node) (state : σ)
    (fits : ∀ final, transform limit (visitor.hooks fail) root state ≠
      .error (fail (.stackOverflow limit)) final) :
    ∃ final calls,
      transform limit (visitor.hooks fail).recorded root (state, []) = .ok root (final, calls) ∧
      visit limit visitor.recorded root (state, []) = .ok () (final, calls) := by
  have within : peak (visitor.recorded.hooks fail) 1 root false (state, []) ≤ limit := by
    rw [← Visitor.hooks_recorded, peak_recorded]
    by_contra beyond
    obtain ⟨final, overflows⟩ :=
      (run_visit (visitor.hooks fail) limit root [] [] 1 false state).2 (Nat.not_le.1 beyond)
    exact fits final overflows
  obtain ⟨stopped, ⟨final, calls⟩, rewritten⟩ :=
    rewrite_watching visitor.recorded.enter visitor.recorded.leave fail root false (state, [])
  refine ⟨final, calls, ?_, ?_⟩
  · rw [Visitor.hooks_recorded, transform_within _ limit root _ within]
    change andThen ((rewrite (visitor.recorded.hooks fail) root).run false (state, []))
      (fun result state => .ok result.1 state) = _
    rw [Visitor.hooks, rewritten, andThen_ok]
  · rw [visit, runVisit_enter fail shows.recorded limit root [] within (Nat.le_refl 1) rewritten,
      runVisit]

/-- A visitor that does not look into joins, stops at a table, and counts what it meets. -/
private def stoppingVisitor : Visitor Nat where
  enter node met :=
    (match node.kind with
      | .join => .skip
      | .values => .stop
      | _ => .default, met + 1)
  leave _ met := ((), met)

/-- A union of a join, a table and a pattern that is not met. -/
private def stoppedUnion : Node :=
  .operation ⟨.combine .union [⟨.combine .join [⟨.nop, none⟩, ⟨.nop, none⟩], none⟩,
    ⟨.values [] [], none⟩, ⟨.bgp [], none⟩], none⟩

theorem visit_calls_eq_transform_calls_stoppedUnion :
    ∃ final calls,
      transform 6 (stoppingVisitor.hooks id).recorded stoppedUnion (0, []) =
        .ok stoppedUnion (final, calls) ∧
      visit 6 stoppingVisitor.recorded stoppedUnion (0, []) = .ok () (final, calls) := by
  have shows : stoppingVisitor.ShowsAll := by
    intro node state
    simp only [stoppingVisitor]
    split <;> rfl
  have fits : stoppedUnion.fits 6 (fun _ => .descend) 1 = true := by decide +kernel
  obtain ⟨final, unchanged⟩ := transform_watching_of_fits stoppingVisitor.enter
    stoppingVisitor.leave id 0 fits
  refine visit_calls_eq_transform_calls shows id 6 stoppedUnion 0 fun other overflowed => ?_
  cases unchanged.symm.trans overflowed

end QueryAlgebra.Traversal
