import QueryAlgebra.Proofs.Traversal.Configuration

/-! # A traversal is plain recursion

`rewrite` transforms a tree without a stack: it asks at a node, rewrites the nodes below it from
left to right, puts them back and hands the node over. `peak` is the largest number of entries that
a stack would hold on the way. A traversal on a stack of its own gives what the recursion gives,
with the same calls of the hooks, as long as the peak stays within the limit, and beyond the limit
it overflows.
-/

namespace QueryAlgebra

/-! ### The order of the recursion

A node comes before the list of its children, and a list of nodes before its first node and before
its other nodes.
-/

namespace Node

theorem children_below (node : Node) :
    2 * totalSize node.children + 1 < 2 * sizeOf node := by
  have := node.totalSize_children_lt
  omega

theorem first_below (node : Node) (rest : List Node) :
    2 * sizeOf node < 2 * totalSize (node :: rest) + 1 := by
  rw [totalSize]
  omega

theorem rest_below (node : Node) (rest : List Node) :
    2 * totalSize rest + 1 < 2 * totalSize (node :: rest) + 1 := by
  have := node.sizeOf_pos
  rw [totalSize]
  omega

end Node

namespace Traversal

variable {ε σ : Type}

namespace Hooks

/-- Ask what to do at a node. -/
def ask (hooks : Hooks ε σ) (node : Node) : EStateM ε σ Decision := fun state =>
  .ok (hooks.enter node state).1 (hooks.enter node state).2

/-- Put nodes into the slots of a node, which has to be of their families. -/
def putBack (hooks : Hooks ε σ) (node : Node) (children : List Node) : EStateM ε σ Node :=
  match node.putChildren children with
  | (filled, .ok ()) => pure filled
  | (_, .error _) => throw (hooks.fail (.childMismatch node.kind))

/-- Hand a node over, unless it is to be left as it is. -/
def handOver (hooks : Hooks ε σ) (decision : Decision) (node : Node) : EStateM ε σ Node :=
  if decision.copy then hooks.leave node else pure node

end Hooks

mutual

/-- Transform a tree by recursion. The state tells whether the traversal was stopped. -/
def rewrite (hooks : Hooks ε σ) (node : Node) : StateT Bool (EStateM ε σ) Node := do
  if ← get then pure node
  else
    let decision ← hooks.ask node
    if decision.shortcut then set true
    if decision.descend && !decision.shortcut then
      let children ← rewriteAll hooks node.children
      let filled ← hooks.putBack node children
      hooks.handOver decision filled
    else hooks.handOver decision node
termination_by 2 * sizeOf node
decreasing_by exact node.children_below

/-- Transform trees from left to right. -/
def rewriteAll (hooks : Hooks ε σ) (nodes : List Node) : StateT Bool (EStateM ε σ) (List Node) :=
  match nodes with
  | [] => pure []
  | node :: rest => do
    let first ← rewrite hooks node
    let others ← rewriteAll hooks rest
    pure (first :: others)
termination_by 2 * Node.totalSize nodes + 1
decreasing_by
  · exact node.first_below rest
  · exact node.rest_below rest

end

mutual

/-- The largest number of entries that a stack holds where its limit is looked at, when it holds
`held` entries as the node is met. -/
def peak (hooks : Hooks ε σ) (held : Nat) (node : Node) (stopped : Bool) (state : σ) : Nat :=
  if stopped then 0
  else
    let (decision, state) := hooks.enter node state
    if decision.descends then
      let now := held + node.children.length
      max now (peakAll hooks now node.children decision.shortcut state)
    else 0
termination_by 2 * sizeOf node
decreasing_by exact node.children_below

/-- The largest number of entries over trees from left to right, up to the first failure. -/
def peakAll (hooks : Hooks ε σ) (held : Nat) (nodes : List Node) (stopped : Bool) (state : σ) :
    Nat :=
  match nodes with
  | [] => 0
  | node :: rest =>
    match (rewrite hooks node).run stopped state with
    | .ok (_, stopped') state' =>
      max (peak hooks held node stopped state) (peakAll hooks held rest stopped' state')
    | .error _ _ => peak hooks held node stopped state
termination_by 2 * Node.totalSize nodes + 1
decreasing_by
  · exact node.first_below rest
  · exact node.rest_below rest
  · exact node.first_below rest

end

/-! ### What the recursion does at a node -/

section

variable {α β γ : Type}

/-- Go on with a result, unless it is an error. -/
def andThen (result : EStateM.Result ε σ α) (next : α → σ → EStateM.Result ε σ β) :
    EStateM.Result ε σ β :=
  match result with
  | .ok value state => next value state
  | .error error state => .error error state

theorem andThen_ok (value : α) (state : σ) (next : α → σ → EStateM.Result ε σ β) :
    andThen (.ok value state) next = next value state := rfl

theorem andThen_assoc (result : EStateM.Result ε σ α) (next : α → σ → EStateM.Result ε σ β)
    (last : β → σ → EStateM.Result ε σ γ) :
    andThen (andThen result next) last =
      andThen result fun value state => andThen (next value state) last := by
  cases result <;> rfl

theorem andThen_eq_ok {result : EStateM.Result ε σ α} {next : α → σ → EStateM.Result ε σ β}
    {value : β} {state : σ} (success : andThen result next = .ok value state) :
    ∃ first between, result = .ok first between ∧ next first between = .ok value state := by
  cases result with
  | ok first between => exact ⟨first, between, rfl, success⟩
  | error error between => cases success

private theorem run_bind (first : StateT Bool (EStateM ε σ) α)
    (next : α → StateT Bool (EStateM ε σ) β) (stopped : Bool) (state : σ) :
    (first >>= next).run stopped state =
      andThen (first.run stopped state) fun pair state => (next pair.1).run pair.2 state := by
  simp only [StateT.run, bind, StateT.bind, EStateM.bind, andThen]
  rcases first stopped state with ⟨pair, state⟩ | ⟨error, state⟩ <;> rfl

private theorem run_lift (action : EStateM ε σ α) (stopped : Bool) (state : σ) :
    (liftM action : StateT Bool (EStateM ε σ) α).run stopped state =
      andThen (action state) fun value state => .ok (value, stopped) state := rfl

private theorem run_get (stopped : Bool) (state : σ) :
    (get : StateT Bool (EStateM ε σ) Bool).run stopped state = .ok (stopped, stopped) state := rfl

private theorem run_set (new stopped : Bool) (state : σ) :
    (set new : StateT Bool (EStateM ε σ) PUnit).run stopped state = .ok (⟨⟩, new) state := rfl

private theorem run_pure (value : α) (stopped : Bool) (state : σ) :
    (pure value : StateT Bool (EStateM ε σ) α).run stopped state = .ok (value, stopped) state := rfl

end

section

variable (hooks : Hooks ε σ) (node : Node)

theorem rewrite_stopped (state : σ) :
    (rewrite hooks node).run true state = .ok (node, true) state := by
  rw [rewrite]
  rfl

/-- A node that is not descended into is handed over as it is. -/
theorem rewrite_leaf {state asked : σ} {decision : Decision}
    (entered : hooks.enter node state = (decision, asked)) (leaf : decision.descends = false) :
    (rewrite hooks node).run false state =
      andThen (hooks.handOver decision node asked) fun node state =>
        .ok (node, decision.shortcut) state := by
  rw [Decision.descends] at leaf
  rw [rewrite]
  simp only [run_bind, run_get, andThen_ok, run_lift, Hooks.ask, entered, leaf,
    Bool.false_eq_true, ↓reduceIte]
  cases decision.shortcut with
  | true => simp only [↓reduceIte, run_bind, run_set, run_lift, andThen_ok]
  | false => simp only [Bool.false_eq_true, ↓reduceIte, run_lift]

/-- A node that is descended into is handed over after the nodes below it. -/
theorem rewrite_descend {state asked : σ} {decision : Decision}
    (entered : hooks.enter node state = (decision, asked)) (descends : decision.descends = true) :
    (rewrite hooks node).run false state =
      andThen ((rewriteAll hooks node.children).run false asked) fun below state =>
        andThen (hooks.putBack node below.1 state) fun filled state =>
          andThen (hooks.handOver decision filled state) fun node state =>
            .ok (node, below.2) state := by
  have goesOn : decision.shortcut = false := by
    simp only [Decision.descends, Bool.and_eq_true, Bool.not_eq_true'] at descends
    exact descends.2
  rw [Decision.descends] at descends
  rw [rewrite]
  simp only [run_bind, run_get, andThen_ok, run_lift, Hooks.ask, entered, descends,
    Bool.false_eq_true, ↓reduceIte]
  rw [if_neg (by simp only [goesOn, Bool.false_eq_true, not_false_eq_true])]
  simp only [run_bind, run_lift, andThen_assoc, andThen_ok]

theorem rewriteAll_nil (stopped : Bool) (state : σ) :
    (rewriteAll hooks []).run stopped state = .ok ([], stopped) state := by
  rw [rewriteAll, run_pure]

/-- Trees are rewritten one after the other, up to the first failure. -/
theorem rewriteAll_cons (rest : List Node) (stopped : Bool) (state : σ) :
    (rewriteAll hooks (node :: rest)).run stopped state =
      andThen ((rewrite hooks node).run stopped state) fun first state =>
        andThen ((rewriteAll hooks rest).run first.2 state) fun others state =>
          .ok (first.1 :: others.1, others.2) state := by
  rw [rewriteAll]
  simp only [run_bind, run_pure]

end

/-- A list of trees keeps its length. -/
theorem length_rewriteAll {hooks : Hooks ε σ} {nodes : List Node} {stopped : Bool}
    {results : List Node × Bool} {state final : σ}
    (success : (rewriteAll hooks nodes).run stopped state = .ok results final) :
    results.1.length = nodes.length := by
  induction nodes generalizing results stopped state with
  | nil =>
    rw [rewriteAll_nil] at success
    cases success
    rfl
  | cons node rest ih =>
    rw [rewriteAll_cons] at success
    obtain ⟨first, between, -, success⟩ := andThen_eq_ok success
    obtain ⟨others, last, rewritten, success⟩ := andThen_eq_ok success
    cases success
    simp only [List.length_cons, ih rewritten]

/-! ### The stack against the recursion -/

theorem putBack_eq (hooks : Hooks ε σ) (node : Node) (children : List Node) (state : σ) :
    hooks.putBack node children state =
      match node.withChildren? children with
      | some filled => .ok filled state
      | none => .error (hooks.fail (.childMismatch node.kind)) state := by
  simp only [Hooks.putBack, Node.withChildren?]
  rcases node.putChildren children with ⟨filled, _ | _⟩ <;> rfl

/-- A node that is not descended into is finished at once. -/
theorem run_leaf (hooks : Hooks ε σ) (limit : Nat) (node : Node) (tasks : List Task)
    (done : List Node) (held : Nat) {state asked : σ} {decision : Decision}
    (entered : hooks.enter node state = (decision, asked)) (leaf : decision.descends = false) :
    run hooks limit (.visit node :: tasks) done held false state =
      andThen (hooks.handOver decision node asked) fun node state =>
        run hooks limit tasks (node :: done) held decision.shortcut state := by
  rw [run]
  simp only [entered, leaf, Bool.false_eq_true, ↓reduceIte, Hooks.handOver]
  cases decision.copy with
  | true =>
    simp only [↓reduceIte]
    rcases hooks.leave node asked with ⟨node, state⟩ | ⟨error, state⟩ <;> rfl
  | false => rfl

/-- A node that is descended into waits for its children, if the limit allows. -/
theorem run_descend (hooks : Hooks ε σ) (limit : Nat) (node : Node) (tasks : List Task)
    (done : List Node) (held : Nat) {state asked : σ} {decision : Decision}
    (entered : hooks.enter node state = (decision, asked)) (descends : decision.descends = true) :
    run hooks limit (.visit node :: tasks) done held false state =
      if held + node.children.length > limit then .error (hooks.fail (.stackOverflow limit)) asked
      else
        run hooks limit
          (node.children.map .visit ++ .build node node.children.length decision.copy :: tasks) done
          (held + node.children.length) false asked := by
  have goesOn : decision.shortcut = false := by
    simp only [Decision.descends, Bool.and_eq_true, Bool.not_eq_true'] at descends
    exact descends.2
  rw [run]
  simp only [entered, descends, goesOn, Bool.false_eq_true, ↓reduceIte]

/-- Finished children stand on the stack the last one first. -/
theorem run_build (hooks : Hooks ε σ) (limit : Nat) (node : Node) (decision : Decision)
    (children done : List Node) (tasks : List Task) (held : Nat) (stopped : Bool) (state : σ)
    (slots : children.length = node.children.length) :
    run hooks limit (.build node node.children.length decision.copy :: tasks)
        (children.reverse ++ done) (held + node.children.length) stopped state =
      andThen (hooks.putBack node children state) fun filled state =>
        andThen (hooks.handOver decision filled state) fun node state =>
          run hooks limit tasks (node :: done) held stopped state := by
  have taken : ((children.reverse ++ done).take node.children.length).reverse = children := by
    rw [← slots, List.take_left' (List.length_reverse ..), List.reverse_reverse]
  have dropped : (children.reverse ++ done).drop node.children.length = done := by
    rw [← slots, List.drop_left' (List.length_reverse ..)]
  rw [run, taken, dropped, Nat.add_sub_cancel, putBack_eq]
  cases node.withChildren? children with
  | none => rfl
  | some filled =>
    simp only [andThen_ok, Hooks.handOver]
    cases decision.copy with
    | true =>
      simp only [↓reduceIte]
      rcases hooks.leave filled state with ⟨node, state⟩ | ⟨error, state⟩ <;> rfl
    | false => rfl

theorem peak_leaf {hooks : Hooks ε σ} {node : Node} {state asked : σ} {decision : Decision}
    (held : Nat) (entered : hooks.enter node state = (decision, asked))
    (leaf : decision.descends = false) : peak hooks held node false state = 0 := by
  rw [peak]
  simp only [entered, leaf, Bool.false_eq_true, ↓reduceIte]

theorem peak_descend {hooks : Hooks ε σ} {node : Node} {state asked : σ} {decision : Decision}
    (held : Nat) (entered : hooks.enter node state = (decision, asked))
    (descends : decision.descends = true) :
    peak hooks held node false state =
      max (held + node.children.length)
        (peakAll hooks (held + node.children.length) node.children false asked) := by
  have goesOn : decision.shortcut = false := by
    simp only [Decision.descends, Bool.and_eq_true, Bool.not_eq_true'] at descends
    exact descends.2
  rw [peak]
  simp only [entered, descends, goesOn, Bool.false_eq_true, ↓reduceIte]

mutual

/-- A node on the stack becomes what the recursion makes of it, if the limit allows. -/
theorem run_visit (hooks : Hooks ε σ) (limit : Nat) (node : Node) (tasks : List Task)
    (done : List Node) (held : Nat) (stopped : Bool) (state : σ) :
    (peak hooks held node stopped state ≤ limit →
      run hooks limit (.visit node :: tasks) done held stopped state =
        andThen ((rewrite hooks node).run stopped state) fun result state =>
          run hooks limit tasks (result.1 :: done) held result.2 state) ∧
    (limit < peak hooks held node stopped state →
      ∃ final, run hooks limit (.visit node :: tasks) done held stopped state =
        .error (hooks.fail (.stackOverflow limit)) final) := by
  cases stopped with
  | true =>
    rw [peak, run, rewrite_stopped]
    exact ⟨fun _ => rfl, fun above => absurd above (Nat.not_lt_zero _)⟩
  | false =>
    rcases entered : hooks.enter node state with ⟨decision, asked⟩
    cases descends : decision.descends with
    | false =>
      rw [peak_leaf held entered descends, rewrite_leaf hooks node entered descends,
        run_leaf hooks limit node tasks done held entered descends, andThen_assoc]
      exact ⟨fun _ => rfl, fun above => absurd above (Nat.not_lt_zero _)⟩
    | true =>
      rw [peak_descend held entered descends, rewrite_descend hooks node entered descends,
        run_descend hooks limit node tasks done held entered descends]
      obtain ⟨within, beyond⟩ := run_visits hooks limit node.children
        (.build node node.children.length decision.copy :: tasks) done
        (held + node.children.length) false asked
      constructor
      · intro small
        rw [if_neg (by omega), within (by omega), andThen_assoc]
        cases children : (rewriteAll hooks node.children).run false asked with
        | ok below state =>
          simp only [andThen_ok, andThen_assoc]
          exact run_build hooks limit node decision below.1 done tasks held below.2 state
            (length_rewriteAll children)
        | error error state => rfl
      · intro large
        by_cases here : held + node.children.length > limit
        · exact ⟨asked, if_pos here⟩
        · rw [if_neg here]
          exact beyond (by omega)
termination_by 2 * sizeOf node
decreasing_by exact node.children_below

/-- Nodes on the stack become what the recursion makes of them, the last one on top. -/
theorem run_visits (hooks : Hooks ε σ) (limit : Nat) (nodes : List Node) (tasks : List Task)
    (done : List Node) (held : Nat) (stopped : Bool) (state : σ) :
    (peakAll hooks held nodes stopped state ≤ limit →
      run hooks limit (nodes.map .visit ++ tasks) done held stopped state =
        andThen ((rewriteAll hooks nodes).run stopped state) fun results state =>
          run hooks limit tasks (results.1.reverse ++ done) held results.2 state) ∧
    (limit < peakAll hooks held nodes stopped state →
      ∃ final, run hooks limit (nodes.map .visit ++ tasks) done held stopped state =
        .error (hooks.fail (.stackOverflow limit)) final) := by
  match nodes with
  | [] =>
    rw [peakAll, rewriteAll_nil]
    exact ⟨fun _ => rfl, fun above => absurd above (Nat.not_lt_zero _)⟩
  | node :: rest =>
    obtain ⟨within, beyond⟩ :=
      run_visit hooks limit node (rest.map .visit ++ tasks) done held stopped state
    rw [peakAll, rewriteAll_cons, andThen_assoc]
    cases rewritten : (rewrite hooks node).run stopped state with
    | error error final =>
      refine ⟨fun small => ?_, beyond⟩
      rw [List.map_cons, List.cons_append, within small, rewritten]
      rfl
    | ok first between =>
      obtain ⟨withinRest, beyondRest⟩ :=
        run_visits hooks limit rest tasks (first.1 :: done) held first.2 between
      rw [rewritten] at within
      simp only [List.map_cons, List.cons_append, andThen_ok, andThen_assoc] at within ⊢
      constructor
      · intro small
        rw [within (by omega), withinRest (by omega)]
        congr 1
        funext others state
        simp only [List.reverse_cons, List.append_assoc, List.cons_append, List.nil_append]
      · intro large
        by_cases here : limit < peak hooks held node stopped state
        · exact beyond here
        · rw [within (by omega)]
          exact beyondRest (by omega)
termination_by 2 * Node.totalSize nodes + 1
decreasing_by
  · exact node.first_below rest
  · exact node.rest_below rest

end

end Traversal

end QueryAlgebra
