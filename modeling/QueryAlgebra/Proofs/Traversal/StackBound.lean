import Mathlib.Data.List.Chain
import Mathlib.Order.MinMax
import QueryAlgebra.Proofs.Traversal.Refinement
import QueryAlgebra.Proofs.Traversal.Refitting

/-! # The bound on the stack is exact

A stack holds one entry for every node that is finished or waits beside the node that is met, and
below a node it holds one entry for every child, however many of them are finished. So the number
of entries at a node that is descended into is one and the children of all nodes on the way to it,
its own included. `transform_overflows_iff` says that a traversal overflows exactly when some node
that is descended into has more than the limit there, and that it succeeds otherwise.
-/

namespace QueryAlgebra

/-! ### Slots and families -/

/-- The four families of nodes. -/
inductive Node.Family where
  | operation | pattern | expression | path
deriving DecidableEq

/-- The family of a node. -/
def Node.family : Node → Node.Family
  | .operation _ => .operation
  | .pattern _ => .pattern
  | .expression _ => .expression
  | .path _ => .path

namespace Refill

variable {α β : Type}

/-- Whatever nodes of these families come first, filling uses up just them. -/
def Takes (fill : StateM Refill α) (families : List Node.Family) : Prop :=
  ∀ nodes : List Node, nodes.map Node.family = families → ∃ new, Gives fill nodes new

namespace Takes

theorem pure (new : α) : Takes (pure new) [] := by
  intro nodes none
  rw [List.map_eq_nil_iff.1 none]
  exact ⟨new, .pure new⟩

theorem bind {fill : StateM Refill α} {next : α → StateM Refill β}
    {families others : List Node.Family} (first : Takes fill families)
    (last : ∀ value, Takes (next value) others) : Takes (fill >>= next) (families ++ others) := by
  intro nodes fit
  obtain ⟨before, after, rfl, fitBefore, fitAfter⟩ := List.map_eq_append_iff.1 fit
  obtain ⟨value, filled⟩ := first before fitBefore
  obtain ⟨new, filledAfter⟩ := last value after fitAfter
  exact ⟨new, filled.bind filledAfter⟩

theorem map {fill : StateM Refill α} {families : List Node.Family} (build : α → β)
    (takes : Takes fill families) : Takes (build <$> fill) families := by
  intro nodes fit
  obtain ⟨value, filled⟩ := takes nodes fit
  exact ⟨build value, filled.map build⟩

/-- The last slots need no more nodes after them. -/
theorem last {fill : StateM Refill α} {families : List Node.Family} (takes : Takes fill families)
    (build : α → β) : Takes (fill >>= fun value => Pure.pure (build value)) families :=
  takes.map build

theorem all {fill : α → StateM Refill α} {family : Node.Family}
    (each : ∀ old, Takes (fill old) [family]) (olds : List α) :
    Takes (Refill.all fill olds) (olds.map fun _ => family) := by
  induction olds with
  | nil => exact pure []
  | cons old olds ih => exact (each old).bind fun new => ih.last (new :: ·)

theorem optional {fill : α → StateM Refill α} {families : α → List Node.Family}
    (each : ∀ old, Takes (fill old) (families old)) (old : Option α) :
    Takes (Refill.optional fill old) ((old.map families).getD []) := by
  cases old with
  | none => exact pure none
  | some old => exact (each old).map some

end Takes

/-- A slot takes any node of its family. -/
theorem Takes.slot {fits? : Node → Option α} {family : Node.Family}
    (fits : ∀ node : Node, node.family = family → ∃ new, fits? node = some new) (old : α) :
    Takes (slot fits? old) [family] := by
  intro nodes fit
  obtain ⟨node, rfl, same⟩ := List.map_eq_singleton_iff.1 fit
  obtain ⟨new, fitted⟩ := fits node same
  refine ⟨new, fun rest rejected => ?_⟩
  simp only [Refill.slot, List.cons_append, List.nil_append, fitted]

theorem takes_operation (old : Operation) : Takes (operation old) [.operation] := by
  refine .slot (fun node same => ?_) old
  cases node <;> cases same
  exact ⟨_, rfl⟩

theorem takes_pattern (old : Pattern) : Takes (pattern old) [.pattern] := by
  refine .slot (fun node same => ?_) old
  cases node <;> cases same
  exact ⟨_, rfl⟩

theorem takes_expression (old : Expression) : Takes (expression old) [.expression] := by
  refine .slot (fun node same => ?_) old
  cases node <;> cases same
  exact ⟨_, rfl⟩

theorem takes_path (old : Path) : Takes (path old) [.path] := by
  refine .slot (fun node same => ?_) old
  cases node <;> cases same
  exact ⟨_, rfl⟩

theorem takes_aggregate (old : BoundAggregate) : Takes (aggregate old) [.expression] :=
  (takes_expression old.expression).last (BoundAggregate.mk old.name)

end Refill

open Refill

/-- An operator takes nodes of the families of its children. -/
theorem Operator.takes_refill (operator : Operator) :
    Takes operator.refill (operator.children.map Node.family) := by
  cases operator with
  | bgp patterns =>
    simp only [refill, children, List.map_map]
    exact (Takes.all takes_pattern patterns).map Operator.bgp
  | values vars rows => exact .pure _
  | nop => exact .pure _
  | path subject way object graph =>
    exact (takes_path way).last fun way => Operator.path subject way object graph
  | manage action => exact .pure _
  | wrap wrapper input => exact (takes_operation input).map (Operator.wrap wrapper)
  | filter input condition =>
    exact (takes_operation input).bind fun input =>
      (takes_expression condition).last (Operator.filter input)
  | extend input name value =>
    exact (takes_operation input).bind fun input =>
      (takes_expression value).last (Operator.extend input name)
  | group input keys aggregates =>
    simp only [refill, children, List.map_cons, List.map_map]
    exact (takes_operation input).bind fun input =>
      (Takes.all takes_aggregate aggregates).last (Operator.group input keys)
  | orderBy input keys =>
    simp only [refill, children, List.map_cons, List.map_map]
    exact (takes_operation input).bind fun input =>
      (Takes.all takes_expression keys).last (Operator.orderBy input)
  | construct input template =>
    simp only [refill, children, List.map_cons, List.map_map]
    exact (takes_operation input).bind fun input =>
      (Takes.all takes_pattern template).last (Operator.construct input)
  | combine how inputs =>
    simp only [refill, children, List.map_map]
    exact (Takes.all takes_operation inputs).map (Operator.combine how)
  | leftJoin left right condition =>
    have families : (Operator.leftJoin left right condition).children.map Node.family =
        [.operation] ++ ([.operation] ++ (condition.map fun _ => [.expression]).getD []) := by
      cases condition <;> rfl
    rw [families]
    exact (takes_operation left).bind fun left => (takes_operation right).bind fun right =>
      (Takes.optional takes_expression condition).last (Operator.leftJoin left right)
  | minus left right =>
    exact (takes_operation left).bind fun left =>
      (takes_operation right).last (Operator.minus left)
  | deleteInsert delete insert scope =>
    have template : ∀ template : Option (List Pattern),
        Takes (optional (all pattern) template)
          ((template.map fun triples => triples.map fun _ => Node.Family.pattern).getD []) :=
      Takes.optional (Takes.all takes_pattern)
    have families : (Operator.deleteInsert delete insert scope).children.map Node.family =
        ((delete.map fun triples => triples.map fun _ => Node.Family.pattern).getD []) ++
          (((insert.map fun triples => triples.map fun _ => Node.Family.pattern).getD []) ++
            (scope.map fun _ => [.operation]).getD []) := by
      simp only [children, List.map_append, List.append_assoc]
      cases delete <;> cases insert <;> cases scope <;> simp [Node.family, Function.comp_def]
    rw [families]
    exact (template delete).bind fun delete => (template insert).bind fun insert =>
      (Takes.optional takes_operation scope).last (Operator.deleteInsert delete insert)

theorem Expression.takes_refill (value : Expression) :
    Takes value.refill (value.children.map Node.family) := by
  cases value with
  | term value => exact .pure _
  | call callee arguments =>
    simp only [refill, children, List.map_map]
    exact (Takes.all takes_expression arguments).map (Expression.call callee)
  | aggregate name argument distinct separator =>
    exact (takes_expression argument).last fun argument =>
      Expression.aggregate name argument distinct separator
  | existence negated input => exact (takes_operation input).map (Expression.existence negated)
  | wildcard => exact .pure _

theorem Path.takes_refill (way : Path) : Takes way.refill (way.children.map Node.family) := by
  cases way with
  | link predicate => exact .pure _
  | inverse way => exact (takes_path way).map Path.inverse
  | seq steps =>
    simp only [refill, children, List.map_map]
    exact (Takes.all takes_path steps).map Path.seq
  | alt branches =>
    simp only [refill, children, List.map_map]
    exact (Takes.all takes_path branches).map Path.alt
  | zeroOrMore way => exact (takes_path way).map Path.zeroOrMore
  | oneOrMore way => exact (takes_path way).map Path.oneOrMore
  | zeroOrOne way => exact (takes_path way).map Path.zeroOrOne
  | negated predicates => exact .pure _

namespace Node

/-- A node takes nodes of the families of its children. -/
theorem takes_refill (node : Node) : Takes node.refill (node.children.map family) := by
  cases node with
  | operation op =>
    exact op.operator.takes_refill.last fun operator => Node.operation ⟨operator, op.metadata⟩
  | pattern triple => exact .pure _
  | expression value => exact value.takes_refill.map Node.expression
  | path way => exact way.takes_refill.map Node.path

theorem family_refill (node : Node) (nodes : Refill) :
    (node.refill nodes).1.family = node.family := by
  cases node <;> rfl

/-- Nodes of the families of the children can be put in their place. -/
theorem withChildren?_of_families {node : Node} {children : List Node}
    (same : children.map family = node.children.map family) :
    ∃ filled, node.withChildren? children = some filled ∧ filled.family = node.family := by
  obtain ⟨filled, gives⟩ := node.takes_refill children same
  have refilled : node.refill ⟨children, none⟩ = (filled, ⟨[], none⟩) := by
    simpa only [List.append_nil] using gives [] none
  have slots : children.length = node.children.length := by
    simpa only [List.length_map] using congrArg List.length same
  refine ⟨filled, ?_, ?_⟩
  · rw [withChildren?, putChildren, if_pos slots, refilled]
  · rw [← node.family_refill ⟨children, none⟩, refilled]

end Node

namespace Traversal

variable {ε σ : Type}

namespace Hooks

/-- Nothing is passed by, and a node that is handed over becomes a node of its family. -/
structure Unhindered (hooks : Hooks ε σ) : Prop where
  goesOn : ∀ node state, (hooks.enter node state).1.shortcut = false
  keeps : ∀ node state, ∃ result final,
    hooks.leave node state = .ok result final ∧ result.family = node.family

/-- Among trees that are transformed from left to right, the one that is met in a state. -/
inductive Meets (hooks : Hooks ε σ) : List Node → σ → Node → σ → Prop where
  | first {node : Node} {rest : List Node} {state : σ} :
    Meets hooks (node :: rest) state node state
  | later {node met result : Node} {rest : List Node} {state between asked : σ} :
    (rewrite hooks node).run false state = .ok (result, false) between →
    Meets hooks rest between met asked → Meets hooks (node :: rest) state met asked

/-- The nodes on the way from a node to one below it, or to itself, all of them descended into. -/
inductive Descends (hooks : Hooks ε σ) : Node → σ → List Node → Prop where
  | here {node : Node} {state : σ} :
    (hooks.enter node state).1.descends = true → Descends hooks node state [node]
  | deeper {node child : Node} {state asked : σ} {path : List Node} :
    (hooks.enter node state).1.descends = true →
    Meets hooks node.children (hooks.enter node state).2 child asked →
    Descends hooks child asked path → Descends hooks node state (node :: path)

end Hooks

/-- How many children the nodes of a path have together. -/
def childCount : List Node → Nat
  | [] => 0
  | node :: path => node.children.length + childCount path

namespace Hooks.Unhindered

variable {hooks : Hooks ε σ}

theorem handOver (free : hooks.Unhindered) (decision : Decision) (node : Node) (state : σ) :
    ∃ result final, hooks.handOver decision node state = .ok result final ∧
      result.family = node.family := by
  rw [Hooks.handOver]
  cases decision.copy with
  | true => exact free.keeps node state
  | false => exact ⟨node, state, rfl, rfl⟩

mutual

/-- The recursion succeeds and keeps the family. -/
theorem rewrite (free : hooks.Unhindered) (node : Node) (state : σ) :
    ∃ result final, (Traversal.rewrite hooks node).run false state = .ok (result, false) final ∧
      result.family = node.family := by
  rcases entered : hooks.enter node state with ⟨decision, asked⟩
  have goesOn : decision.shortcut = false := by
    simpa only [entered] using free.goesOn node state
  cases descends : decision.descends with
  | false =>
    obtain ⟨result, final, handed, same⟩ := free.handOver decision node asked
    refine ⟨result, final, ?_, same⟩
    rw [rewrite_leaf hooks node entered descends, handed, andThen_ok, goesOn]
  | true =>
    obtain ⟨children, below, rewritten, families⟩ := free.rewriteAll node.children asked
    obtain ⟨filled, put, sameFilled⟩ := Node.withChildren?_of_families families
    obtain ⟨result, final, handed, same⟩ := free.handOver decision filled below
    refine ⟨result, final, ?_, same.trans sameFilled⟩
    rw [rewrite_descend hooks node entered descends, rewritten, andThen_ok, putBack_eq, put]
    simp only [andThen_ok, handed]
termination_by 2 * sizeOf node
decreasing_by exact node.children_below

theorem rewriteAll (free : hooks.Unhindered) (nodes : List Node) (state : σ) :
    ∃ results final,
      (Traversal.rewriteAll hooks nodes).run false state = .ok (results, false) final ∧
      results.map Node.family = nodes.map Node.family := by
  match nodes with
  | [] => exact ⟨[], state, rewriteAll_nil hooks false state, rfl⟩
  | node :: rest =>
    obtain ⟨first, between, rewritten, same⟩ := free.rewrite node state
    obtain ⟨others, final, rewrittenRest, sameRest⟩ := free.rewriteAll rest between
    refine ⟨first :: others, final, ?_, ?_⟩
    · rw [rewriteAll_cons, rewritten, andThen_ok, rewrittenRest, andThen_ok]
    · rw [List.map_cons, List.map_cons, same, sameRest]
termination_by 2 * Node.totalSize nodes + 1
decreasing_by
  · exact node.first_below rest
  · exact node.rest_below rest

end

mutual

/-- A stack goes beyond the limit below a node, or at the node itself, where the nodes on the way
have too many children. -/
theorem lt_peak_iff (free : hooks.Unhindered) (limit held : Nat) (node : Node) (state : σ) :
    limit < peak hooks held node false state ↔
      ∃ path, hooks.Descends node state path ∧ limit < held + childCount path := by
  rcases entered : hooks.enter node state with ⟨decision, asked⟩
  cases descends : decision.descends with
  | false =>
    rw [peak_leaf held entered descends]
    refine ⟨fun above => absurd above (Nat.not_lt_zero _), ?_⟩
    rintro ⟨path, way, -⟩
    cases way <;> simp_all
  | true =>
    rw [peak_descend held entered descends, lt_max_iff,
      free.lt_peakAll_iff limit (held + node.children.length) node.children asked]
    have asks : (hooks.enter node state).1.descends = true := by rw [entered, descends]
    constructor
    · rintro (here | ⟨child, state', path, met, way, above⟩)
      · refine ⟨[node], .here asks, ?_⟩
        simpa [childCount] using here
      · refine ⟨node :: path, .deeper asks (by rw [entered]; exact met) way, ?_⟩
        rw [childCount]
        omega
    · rintro ⟨path, way, above⟩
      cases way with
      | here => exact .inl (by simpa [childCount] using above)
      | deeper _ met way =>
        rw [entered] at met
        rw [childCount] at above
        exact .inr ⟨_, _, _, met, way, by omega⟩
termination_by 2 * sizeOf node
decreasing_by exact node.children_below

theorem lt_peakAll_iff (free : hooks.Unhindered) (limit held : Nat) (nodes : List Node)
    (state : σ) :
    limit < peakAll hooks held nodes false state ↔
      ∃ child asked path, hooks.Meets nodes state child asked ∧ hooks.Descends child asked path ∧
        limit < held + childCount path := by
  match nodes with
  | [] =>
    rw [peakAll]
    refine ⟨fun above => absurd above (Nat.not_lt_zero _), ?_⟩
    rintro ⟨child, asked, path, met, -⟩
    cases met
  | node :: rest =>
    obtain ⟨result, between, rewritten, -⟩ := free.rewrite node state
    rw [peakAll, rewritten]
    simp only
    rw [lt_max_iff, free.lt_peak_iff limit held node state,
      free.lt_peakAll_iff limit held rest between]
    constructor
    · rintro (⟨path, way, above⟩ | ⟨child, asked, path, met, way, above⟩)
      · exact ⟨node, state, path, .first, way, above⟩
      · exact ⟨child, asked, path, .later rewritten met, way, above⟩
    · rintro ⟨child, asked, path, met, way, above⟩
      cases met with
      | first => exact .inl ⟨path, way, above⟩
      | later done met =>
        rw [rewritten] at done
        cases done
        exact .inr ⟨child, asked, path, met, way, above⟩
termination_by 2 * Node.totalSize nodes + 1
decreasing_by
  · exact node.first_below rest
  · exact node.rest_below rest

end

end Hooks.Unhindered

namespace Hooks

variable {hooks : Hooks ε σ}

theorem Meets.mem {nodes : List Node} {state asked : σ} {met : Node}
    (meets : hooks.Meets nodes state met asked) : met ∈ nodes := by
  induction meets with
  | first => exact List.mem_cons_self ..
  | later _ _ ih => exact List.mem_cons_of_mem _ ih

theorem Unhindered.exists_meets (free : hooks.Unhindered) {nodes : List Node} {met : Node}
    (member : met ∈ nodes) (state : σ) : ∃ asked, hooks.Meets nodes state met asked := by
  induction nodes generalizing state with
  | nil => cases member
  | cons node rest ih =>
    cases member with
    | head => exact ⟨state, .first⟩
    | tail _ member =>
      obtain ⟨result, between, rewritten, -⟩ := free.rewrite node state
      obtain ⟨asked, meets⟩ := ih member between
      exact ⟨asked, .later rewritten meets⟩

/-- Where the decision depends on the node alone, a way down is a chain of children that are
descended into. -/
theorem Unhindered.descends_iff (free : hooks.Unhindered) {decide : Node → Decision}
    (fixed : ∀ node state, (hooks.enter node state).1 = decide node) (root : Node) (state : σ)
    (path : List Node) :
    hooks.Descends root state path ↔
      path.head? = some root ∧ path.IsChain (fun above below => below ∈ above.children) ∧
        ∀ node ∈ path, (decide node).descends = true := by
  induction path generalizing root state with
  | nil =>
    constructor
    · intro way
      cases way
    · rintro ⟨start, -⟩
      cases start
  | cons node path ih =>
    constructor
    · intro way
      cases way with
      | here asks =>
        rw [fixed] at asks
        simpa using asks
      | deeper asks met way =>
        obtain ⟨start, chain, descended⟩ := (ih _ _).1 way
        rw [fixed] at asks
        obtain ⟨path, rfl⟩ := List.head?_eq_some_iff.1 start
        refine ⟨rfl, chain.cons_cons met.mem, fun other member => ?_⟩
        cases member with
        | head => exact asks
        | tail _ member => exact descended other member
    · rintro ⟨start, chain, descended⟩
      obtain rfl : node = root := Option.some.inj start
      have asks : (hooks.enter node state).1.descends = true := by
        rw [fixed]
        exact descended node (List.mem_cons_self ..)
      cases path with
      | nil => exact .here asks
      | cons child path =>
        obtain ⟨member, chain⟩ := List.isChain_cons_cons.1 chain
        obtain ⟨asked, meets⟩ := free.exists_meets member (hooks.enter node state).2
        exact .deeper asks meets ((ih child asked).2
          ⟨rfl, chain, fun other member => descended other (List.mem_cons_of_mem _ member)⟩)

end Hooks

/-- The bound on the stack is exact. Hooks that pass nothing by, whose handing over does not fail
and keeps the family of every node, overflow exactly when there is a node that is descended into,
as are all nodes above it, so that one and the children of all nodes on the way, its own included,
are more than the limit. Otherwise the traversal succeeds. The hooks may decide and replace by all
that they have seen. -/
theorem transform_overflows_iff {hooks : Hooks ε σ} (free : hooks.Unhindered) (limit : Nat)
    (root : Node) (state : σ) :
    ((∃ final, transform limit hooks root state =
        .error (hooks.fail (.stackOverflow limit)) final) ↔
      ∃ path, hooks.Descends root state path ∧ limit < 1 + childCount path) ∧
    ((¬ ∃ path, hooks.Descends root state path ∧ limit < 1 + childCount path) →
      ∃ result final, transform limit hooks root state = .ok result final) := by
  have succeeds : peak hooks 1 root false state ≤ limit →
      ∃ result final, transform limit hooks root state = .ok result final := by
    intro within
    obtain ⟨result, final, rewritten, -⟩ := free.rewrite root state
    refine ⟨result, final, ?_⟩
    rw [transform_within hooks limit root state within]
    change andThen ((rewrite hooks root).run false state)
      (fun result state => .ok result.1 state) = _
    rw [rewritten, andThen_ok]
  rw [← free.lt_peak_iff limit 1 root state]
  refine ⟨⟨?_, (run_visit hooks limit root [] [] 1 false state).2⟩,
    fun within => succeeds (Nat.not_lt.1 within)⟩
  rintro ⟨final, overflowed⟩
  by_contra within
  obtain ⟨result, final', succeeded⟩ := succeeds (Nat.not_lt.1 within)
  cases succeeded.symm.trans overflowed

/-- Hooks that count the nodes they meet, and put an empty graph pattern beside every union. -/
private def countingHooks : Hooks TraversalError Nat where
  enter _ met := (.default, met + 1)
  leave node met :=
    match node with
    | .operation ⟨.combine .union inputs, metadata⟩ =>
      .ok (.operation ⟨.combine .union (⟨.bgp [], none⟩ :: inputs), metadata⟩) met
    | node => .ok node met
  fail := id

private theorem countingHooks_unhindered : countingHooks.Unhindered where
  goesOn _ _ := rfl
  keeps node state := by
    simp only [countingHooks]
    split <;> exact ⟨_, _, rfl, rfl⟩

/-- A pattern with an empty union on its left: the union becomes larger, but that is not counted. -/
private def unevenPattern : Node :=
  .operation ⟨.combine .join [⟨.combine .union [], none⟩,
    ⟨.bgp [⟨.defaultGraph, .defaultGraph, .defaultGraph, .defaultGraph⟩], none⟩], none⟩

theorem transform_overflows_unevenPattern :
    ∃ final, transform 3 countingHooks unevenPattern 0 =
      .error (countingHooks.fail (.stackOverflow 3)) final := by
  refine (transform_overflows_iff countingHooks_unhindered 3 unevenPattern 0).1.2 ?_
  have done : (rewrite countingHooks (.operation ⟨.combine .union [], none⟩)).run false 1 =
      .ok (.operation ⟨.combine .union [⟨.bgp [], none⟩], none⟩, false) 2 := by
    rw [rewrite_descend _ _ rfl rfl]
    change andThen ((rewriteAll countingHooks []).run false 2) _ = _
    rw [rewriteAll_nil]
    rfl
  exact ⟨[unevenPattern, _], .deeper rfl (.later done .first) (.here rfl), by decide⟩

end Traversal

end QueryAlgebra
