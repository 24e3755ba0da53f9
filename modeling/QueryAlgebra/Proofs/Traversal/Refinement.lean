import QueryAlgebra.Proofs.Traversal.Recursion

/-! # The calls of a traversal

Hooks that keep a list of their calls decide and answer as before, so a traversal that refines the
recursion with all hooks makes the same calls in the same order. `transform_refines_rewrite` puts
the result, the calls, the limit and the configurations on the way together.
-/

namespace QueryAlgebra.Traversal

variable {ε σ : Type}

/-- A call of a hook. -/
inductive Call where
  | enter (node : Node)
  | leave (node : Node)

/-- Hooks that note their calls. -/
def Hooks.recorded (hooks : Hooks ε σ) : Hooks ε (σ × List Call) where
  enter node kept :=
    ((hooks.enter node kept.1).1, (hooks.enter node kept.1).2, kept.2 ++ [.enter node])
  leave node kept :=
    match hooks.leave node kept.1 with
    | .ok result state => .ok result (state, kept.2 ++ [.leave node])
    | .error error state => .error error (state, kept.2 ++ [.leave node])
  fail := hooks.fail

/-- A result without the calls. -/
def forget {α : Type} : EStateM.Result ε (σ × List Call) α → EStateM.Result ε σ α
  | .ok value kept => .ok value kept.1
  | .error error kept => .error error kept.1

/-- Results that agree but for the calls go on to results that agree but for the calls. -/
theorem forget_andThen {α β : Type} {recorded : EStateM.Result ε (σ × List Call) α}
    {plain : EStateM.Result ε σ α}
    {next : α → σ × List Call → EStateM.Result ε (σ × List Call) β}
    {plainNext : α → σ → EStateM.Result ε σ β} (same : forget recorded = plain)
    (sameNext : ∀ value kept, forget (next value kept) = plainNext value kept.1) :
    forget (andThen recorded next) = andThen plain plainNext := by
  subst same
  cases recorded with
  | ok value kept => exact sameNext value kept
  | error error kept => rfl

section

variable (hooks : Hooks ε σ)

theorem handOver_recorded (decision : Decision) (node : Node) (kept : σ × List Call) :
    forget (hooks.recorded.handOver decision node kept) = hooks.handOver decision node kept.1 := by
  simp only [Hooks.handOver]
  cases decision.copy with
  | true =>
    simp only [↓reduceIte, Hooks.recorded]
    cases hooks.leave node kept.1 <;> rfl
  | false => rfl

theorem putBack_recorded (node : Node) (children : List Node) (kept : σ × List Call) :
    forget (hooks.recorded.putBack node children kept) = hooks.putBack node children kept.1 := by
  rw [putBack_eq, putBack_eq]
  cases node.withChildren? children <;> rfl

mutual

theorem rewrite_recorded (node : Node) (stopped : Bool) (kept : σ × List Call) :
    forget ((rewrite hooks.recorded node).run stopped kept) =
      (rewrite hooks node).run stopped kept.1 := by
  cases stopped with
  | true => rw [rewrite_stopped, rewrite_stopped, forget]
  | false =>
    rcases entered : hooks.enter node kept.1 with ⟨decision, asked⟩
    have noted : hooks.recorded.enter node kept = (decision, asked, kept.2 ++ [.enter node]) := by
      simp only [Hooks.recorded, entered]
    cases descends : decision.descends with
    | false =>
      rw [rewrite_leaf _ node noted descends, rewrite_leaf _ node entered descends]
      exact forget_andThen (handOver_recorded ..) fun _ _ => rfl
    | true =>
      rw [rewrite_descend _ node noted descends, rewrite_descend _ node entered descends]
      refine forget_andThen (rewriteAll_recorded node.children false _) fun below kept => ?_
      refine forget_andThen (putBack_recorded ..) fun filled kept => ?_
      exact forget_andThen (handOver_recorded ..) fun _ _ => rfl
termination_by 2 * sizeOf node
decreasing_by exact node.children_below

theorem rewriteAll_recorded (nodes : List Node) (stopped : Bool) (kept : σ × List Call) :
    forget ((rewriteAll hooks.recorded nodes).run stopped kept) =
      (rewriteAll hooks nodes).run stopped kept.1 := by
  match nodes with
  | [] => rw [rewriteAll_nil, rewriteAll_nil, forget]
  | node :: rest =>
    rw [rewriteAll_cons, rewriteAll_cons]
    refine forget_andThen (rewrite_recorded node stopped kept) fun first kept => ?_
    exact forget_andThen (rewriteAll_recorded rest first.2 kept) fun _ _ => rfl
termination_by 2 * Node.totalSize nodes + 1
decreasing_by
  · exact node.first_below rest
  · exact node.rest_below rest

end

mutual

theorem peak_recorded (held : Nat) (node : Node) (stopped : Bool) (kept : σ × List Call) :
    peak hooks.recorded held node stopped kept = peak hooks held node stopped kept.1 := by
  cases stopped with
  | true => rw [peak, peak]; rfl
  | false =>
    rcases entered : hooks.enter node kept.1 with ⟨decision, asked⟩
    have noted : hooks.recorded.enter node kept = (decision, asked, kept.2 ++ [.enter node]) := by
      simp only [Hooks.recorded, entered]
    cases descends : decision.descends with
    | false => rw [peak_leaf held noted descends, peak_leaf held entered descends]
    | true =>
      rw [peak_descend held noted descends, peak_descend held entered descends,
        peakAll_recorded _ node.children false]
termination_by 2 * sizeOf node
decreasing_by exact node.children_below

theorem peakAll_recorded (held : Nat) (nodes : List Node) (stopped : Bool) (kept : σ × List Call) :
    peakAll hooks.recorded held nodes stopped kept = peakAll hooks held nodes stopped kept.1 := by
  match nodes with
  | [] => rw [peakAll, peakAll]
  | node :: rest =>
    have same := rewrite_recorded hooks node stopped kept
    have first := peak_recorded held node stopped kept
    rw [peakAll, peakAll, first, ← same]
    cases (rewrite hooks.recorded node).run stopped kept with
    | ok result between =>
      simp only [forget]
      rw [peakAll_recorded held rest result.2 between]
    | error error between => rfl
termination_by 2 * Node.totalSize nodes + 1
decreasing_by
  · exact node.first_below rest
  · exact node.rest_below rest

end

end

theorem transform_within (hooks : Hooks ε σ) (limit : Nat) (root : Node) (state : σ)
    (within : peak hooks 1 root false state ≤ limit) :
    transform limit hooks root state = (rewrite hooks root).run' false state := by
  have refined := (run_visit hooks limit root [] [] 1 false state).1 within
  rw [transform, refined]
  change _ = andThen ((rewrite hooks root).run false state) fun result state => .ok result.1 state
  congr 1
  funext result state
  rw [run]

/-- A traversal on a stack of its own refines plain recursion. It comes to an answer; within the
limit that is the answer of the recursion after the same calls, and beyond the limit it is an
overflow. On the way a node that waits for its children always finds them, and one node is left at
the end. -/
theorem transform_refines_rewrite (hooks : Hooks ε σ) (limit : Nat) (root : Node) (state : σ) :
    (∃ last, Configuration.Reaches hooks limit (.start root state) last ∧
      last.step hooks limit = .inr (transform limit hooks root state)) ∧
    (peak hooks 1 root false state ≤ limit →
      transform limit hooks root state = (rewrite hooks root).run' false state ∧
      transform limit hooks.recorded root (state, []) =
        (rewrite hooks.recorded root).run' false (state, [])) ∧
    (limit < peak hooks 1 root false state →
      ∃ final, transform limit hooks root state =
        .error (hooks.fail (.stackOverflow limit)) final) ∧
    ∀ config, Configuration.Reaches hooks limit (.start root state) config → config.Settled := by
  refine ⟨Configuration.exists_answer hooks limit (.start root state),
    fun within => ⟨transform_within hooks limit root state within, ?_⟩, fun beyond => ?_,
    fun config reached => (Configuration.Balanced.of_reaches reached).settled⟩
  · apply transform_within
    rw [peak_recorded]
    exact within
  · exact (run_visit hooks limit root [] [] 1 false state).2 beyond

end QueryAlgebra.Traversal
