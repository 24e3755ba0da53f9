import QueryAlgebra.Proofs.Traversal.StackBound

/-! # One order of the children

A node is visited slot by slot, and something may be done at every slot (`Node.visitSlots`).
Refilling the slots is such a visit (`Node.refill_eq_visitSlots`), and so are listing what they hold
and taking it out. Every visit meets the children in the order of `Node.children` and changes
nothing of the node but them (`Node.follows_visitSlots`), so that it is enough to say what happens
to a list of nodes: `Node.slots_take_put`.
-/

namespace QueryAlgebra

/-! ### Visits -/

/-- What is done at the slots of a node, which leaves a part of the same family there. -/
structure SlotVisitor (σ : Type) where
  operation : Operation → StateM σ Operation
  pattern : Pattern → StateM σ Pattern
  expression : Expression → StateM σ Expression
  path : Path → StateM σ Path

namespace SlotVisitor

variable {σ : Type}

/-- Visit the slot of an aggregate's expression. -/
def aggregate (visitor : SlotVisitor σ) (bound : BoundAggregate) : StateM σ BoundAggregate := do
  let value ← visitor.expression bound.expression
  pure ⟨bound.name, value⟩

/-- What is done at a slot that holds a node. -/
def node (visitor : SlotVisitor σ) : Node → StateM σ Node
  | .operation old => .operation <$> visitor.operation old
  | .pattern old => .pattern <$> visitor.pattern old
  | .expression old => .expression <$> visitor.expression old
  | .path old => .path <$> visitor.path old

/-- Put pending nodes into the slots. -/
def put : SlotVisitor Refill := ⟨Refill.operation, Refill.pattern, Refill.expression, Refill.path⟩

/-- List what the slots hold. -/
def list : SlotVisitor (List Node) where
  operation old seen := (old, seen ++ [.operation old])
  pattern old seen := (old, seen ++ [.pattern old])
  expression old seen := (old, seen ++ [.expression old])
  path old seen := (old, seen ++ [.path old])

/-- Take out what the slots hold and leave placeholders. -/
def take : SlotVisitor (List Node) where
  operation old taken := (.nop, taken ++ [.operation old])
  pattern old taken := (.placeholder, taken ++ [.pattern old])
  expression old taken := (.wildcard, taken ++ [.expression old])
  path old taken := (.negated [], taken ++ [.path old])

end SlotVisitor

section

variable {σ : Type} (visitor : SlotVisitor σ)

/-- Visit the slots of an operator. -/
def Operator.visitSlots : Operator → StateM σ Operator
  | .bgp patterns => .bgp <$> patterns.mapM visitor.pattern
  | .values vars rows => pure (.values vars rows)
  | .nop => pure .nop
  | .path subject predicate object graph => do
    let predicate ← visitor.path predicate
    pure (.path subject predicate object graph)
  | .manage action => pure (.manage action)
  | .wrap wrapper input => .wrap wrapper <$> visitor.operation input
  | .filter input condition => do
    let input ← visitor.operation input
    let condition ← visitor.expression condition
    pure (.filter input condition)
  | .extend input name value => do
    let input ← visitor.operation input
    let value ← visitor.expression value
    pure (.extend input name value)
  | .group input keys aggregates => do
    let input ← visitor.operation input
    let aggregates ← aggregates.mapM visitor.aggregate
    pure (.group input keys aggregates)
  | .orderBy input keys => do
    let input ← visitor.operation input
    let keys ← keys.mapM visitor.expression
    pure (.orderBy input keys)
  | .construct input template => do
    let input ← visitor.operation input
    let template ← template.mapM visitor.pattern
    pure (.construct input template)
  | .combine how inputs => .combine how <$> inputs.mapM visitor.operation
  | .leftJoin left right condition => do
    let left ← visitor.operation left
    let right ← visitor.operation right
    let condition ← condition.mapM visitor.expression
    pure (.leftJoin left right condition)
  | .minus left right => do
    let left ← visitor.operation left
    let right ← visitor.operation right
    pure (.minus left right)
  | .deleteInsert delete insert scope => do
    let delete ← delete.mapM (·.mapM visitor.pattern)
    let insert ← insert.mapM (·.mapM visitor.pattern)
    let scope ← scope.mapM visitor.operation
    pure (.deleteInsert delete insert scope)

/-- Visit the slots of an expression. -/
def Expression.visitSlots : Expression → StateM σ Expression
  | .term value => pure (.term value)
  | .call callee arguments => .call callee <$> arguments.mapM visitor.expression
  | .aggregate name argument distinct separator => do
    let argument ← visitor.expression argument
    pure (.aggregate name argument distinct separator)
  | .existence negated input => .existence negated <$> visitor.operation input
  | .wildcard => pure .wildcard

/-- Visit the slots of a path. -/
def Path.visitSlots : Path → StateM σ Path
  | .link predicate => pure (.link predicate)
  | .inverse path => .inverse <$> visitor.path path
  | .seq steps => .seq <$> steps.mapM visitor.path
  | .alt branches => .alt <$> branches.mapM visitor.path
  | .zeroOrMore path => .zeroOrMore <$> visitor.path path
  | .oneOrMore path => .oneOrMore <$> visitor.path path
  | .zeroOrOne path => .zeroOrOne <$> visitor.path path
  | .negated predicates => pure (.negated predicates)

/-- Visit the slots of a node. -/
def Node.visitSlots : Node → StateM σ Node
  | .operation op => do
    let operator ← op.operator.visitSlots visitor
    pure (.operation ⟨operator, op.metadata⟩)
  | .pattern triple => pure (.pattern triple)
  | .expression value => .expression <$> value.visitSlots visitor
  | .path way => .path <$> way.visitSlots visitor

end

/-! ### Refilling is a visit -/

namespace Refill

variable {α : Type} (fill : α → StateM Refill α)

theorem all_eq_mapM : all fill = fun olds => olds.mapM fill := by
  funext olds
  induction olds with
  | nil => rfl
  | cons old olds ih => rw [all, List.mapM_cons, ih]

theorem optional_eq_mapM : optional fill = fun old => old.mapM fill := by
  funext old
  cases old <;> rfl

end Refill

open Refill (all_eq_mapM optional_eq_mapM)

theorem Operator.refill_eq_visitSlots (operator : Operator) :
    operator.refill = operator.visitSlots .put := by
  cases operator <;> simp only [refill, visitSlots, all_eq_mapM, optional_eq_mapM] <;> rfl

theorem Expression.refill_eq_visitSlots (value : Expression) :
    value.refill = value.visitSlots .put := by
  cases value <;> simp only [refill, visitSlots, all_eq_mapM] <;> rfl

theorem Path.refill_eq_visitSlots (way : Path) : way.refill = way.visitSlots .put := by
  cases way <;> simp only [refill, visitSlots, all_eq_mapM] <;> rfl

theorem Node.refill_eq_visitSlots (node : Node) : node.refill = node.visitSlots .put := by
  cases node with
  | operation op => rw [refill, visitSlots, op.operator.refill_eq_visitSlots]
  | pattern => rfl
  | expression value => rw [refill, visitSlots, value.refill_eq_visitSlots]
  | path way => rw [refill, visitSlots, way.refill_eq_visitSlots]

/-! ### Every visit meets the children -/

namespace SlotVisitor

variable {σ α β : Type}

/-- Visiting some slots does what the visitor does with the nodes in them, one after another. What
the slots hold afterwards is related to the nodes that the visitor leaves. -/
def Follows (visitor : SlotVisitor σ) (visit : StateM σ α) (olds : List Node)
    (P : α → List Node → Prop) : Prop :=
  ∀ state, ∃ news, olds.mapM visitor.node state = (news, (visit state).2) ∧ P (visit state).1 news

namespace Follows

variable {visitor : SlotVisitor σ} {visit : StateM σ α} {olds others : List Node}
  {P Q : α → List Node → Prop} {R : β → List Node → Prop}

theorem pure {value : α} (holds : P value []) : Follows visitor (pure value) [] P :=
  fun _ => ⟨[], rfl, holds⟩

theorem bind {next : α → StateM σ β} (first : Follows visitor visit olds P)
    (goesOn : ∀ value news, P value news →
      Follows visitor (next value) others fun result more => R result (news ++ more)) :
    Follows visitor (visit >>= next) (olds ++ others) R := by
  intro state
  obtain ⟨news, ran, holds⟩ := first state
  obtain ⟨more, ran', holds'⟩ := goesOn _ news holds (visit state).2
  refine ⟨news ++ more, ?_, holds'⟩
  have inTwoParts : (olds ++ others).mapM visitor.node state =
      ((olds.mapM visitor.node state).1
          ++ (others.mapM visitor.node (olds.mapM visitor.node state).2).1,
        (others.mapM visitor.node (olds.mapM visitor.node state).2).2) := by
    rw [List.mapM_append]
    rfl
  rw [inTwoParts, ran, ran']
  rfl

theorem imp (follows : Follows visitor visit olds P) (weaker : ∀ value news, P value news →
    Q value news) : Follows visitor visit olds Q := by
  intro state
  obtain ⟨news, ran, holds⟩ := follows state
  exact ⟨news, ran, weaker _ _ holds⟩

theorem map (build : α → β) (follows : Follows visitor visit olds fun value => R (build value)) :
    Follows visitor (build <$> visit) olds R := follows

section

variable {visit : α → StateM σ α} {wrap : α → Node} {shape : α → β}

theorem slot (same : ∀ old, visitor.node (wrap old) = wrap <$> visit old) (old : α) :
    Follows visitor (visit old) [wrap old] fun new news => news = [wrap new] := by
  intro state
  rw [List.mapM_cons, same]
  exact ⟨_, rfl, rfl⟩

/-- The slots of a list keep what each of them keeps. -/
theorem all (each : ∀ old, Follows visitor (visit old) [wrap old] fun new news =>
      news = [wrap new] ∧ shape new = shape old) (olds : List α) :
    Follows visitor (olds.mapM visit) (olds.map wrap) fun new news =>
      news = new.map wrap ∧ new.map shape = olds.map shape := by
  induction olds with
  | nil => exact .pure ⟨rfl, rfl⟩
  | cons old olds ih =>
    rw [List.mapM_cons]
    refine (each old).bind ?_
    rintro new _ ⟨rfl, sameFirst⟩
    refine (ih.imp ?_).map (new :: ·)
    rintro news _ ⟨rfl, sameRest⟩
    exact ⟨rfl, congrArg₂ List.cons sameFirst sameRest⟩

/-- As many slots of a list are filled as there are. -/
theorem slots (same : ∀ old, visitor.node (wrap old) = wrap <$> visit old) (left : β)
    (olds : List α) :
    Follows visitor (olds.mapM visit) (olds.map wrap) fun new news =>
      news = new.map wrap ∧ new.map (fun _ => left) = olds.map (fun _ => left) :=
  all (fun old => (slot same old).imp fun _ _ same => ⟨same, rfl⟩) olds

theorem optional (same : ∀ old, visitor.node (wrap old) = wrap <$> visit old) (left : β)
    (old : Option α) :
    Follows visitor (old.mapM visit) (old.map wrap).toList fun new news =>
      news = (new.map wrap).toList ∧ new.map (fun _ => left) = old.map (fun _ => left) := by
  cases old with
  | none => exact .pure ⟨rfl, rfl⟩
  | some old =>
    refine ((slot same old).imp ?_).map some
    rintro new _ rfl
    exact ⟨rfl, rfl⟩

end

/-- The slots of a template that may be there. -/
theorem template (old : Option (List Pattern)) :
    Follows visitor (old.mapM (·.mapM visitor.pattern)) ((old.getD []).map .pattern) fun new news =>
      news = (new.getD []).map .pattern
        ∧ new.map (·.map fun _ => Pattern.placeholder)
          = old.map (·.map fun _ => Pattern.placeholder) := by
  cases old with
  | none => exact .pure ⟨rfl, rfl⟩
  | some old =>
    refine ((slots (fun _ => rfl) Pattern.placeholder old).imp ?_).map some
    rintro new _ ⟨rfl, same⟩
    exact ⟨rfl, congrArg some same⟩

end Follows

variable (visitor : SlotVisitor σ)

theorem follows_operation (old : Operation) :
    Follows visitor (visitor.operation old) [.operation old] fun new news =>
      news = [.operation new] := .slot (fun _ => rfl) old

theorem follows_expression (old : Expression) :
    Follows visitor (visitor.expression old) [.expression old] fun new news =>
      news = [.expression new] := .slot (fun _ => rfl) old

theorem follows_path (old : Path) :
    Follows visitor (visitor.path old) [.path old] fun new news => news = [.path new] :=
  .slot (fun _ => rfl) old

theorem follows_aggregate (bound : BoundAggregate) :
    Follows visitor (visitor.aggregate bound) [.expression bound.expression] fun new news =>
      news = [.expression new.expression]
        ∧ BoundAggregate.mk new.name .wildcard = ⟨bound.name, .wildcard⟩ := by
  refine ((visitor.follows_expression bound.expression).imp ?_).map (BoundAggregate.mk bound.name)
  rintro value _ rfl
  exact ⟨rfl, rfl⟩

end SlotVisitor

open SlotVisitor (Follows)

variable {σ : Type} (visitor : SlotVisitor σ)

/-- A visit meets the children of an operator in their order, and keeps everything else. -/
theorem Operator.follows_visitSlots (operator : Operator) :
    Follows visitor (operator.visitSlots visitor) operator.children fun new news =>
      new.children = news ∧ new.hollow = operator.hollow := by
  cases operator with
  | bgp patterns =>
    refine ((Follows.slots (fun _ => rfl) Pattern.placeholder patterns).imp ?_).map Operator.bgp
    rintro news _ ⟨rfl, same⟩
    exact ⟨rfl, congrArg Operator.bgp same⟩
  | values | nop | manage => exact .pure ⟨rfl, rfl⟩
  | path subject predicate object graph =>
    refine ((visitor.follows_path predicate).imp ?_).map
      fun predicate => Operator.path subject predicate object graph
    rintro predicate _ rfl
    exact ⟨rfl, rfl⟩
  | wrap wrapper input =>
    refine ((visitor.follows_operation input).imp ?_).map (Operator.wrap wrapper)
    rintro input _ rfl
    exact ⟨rfl, rfl⟩
  | filter input condition =>
    refine (visitor.follows_operation input).bind ?_
    rintro input _ rfl
    refine ((visitor.follows_expression condition).imp ?_).map (Operator.filter input)
    rintro condition _ rfl
    exact ⟨rfl, rfl⟩
  | extend input name value =>
    refine (visitor.follows_operation input).bind ?_
    rintro input _ rfl
    refine ((visitor.follows_expression value).imp ?_).map (Operator.extend input name)
    rintro value _ rfl
    exact ⟨rfl, rfl⟩
  | group input keys aggregates =>
    refine (visitor.follows_operation input).bind ?_
    rintro input _ rfl
    refine ((Follows.all visitor.follows_aggregate aggregates).imp ?_).map
      (Operator.group input keys)
    rintro aggregates _ ⟨rfl, same⟩
    exact ⟨rfl, congrArg (Operator.group .nop keys) same⟩
  | orderBy input keys =>
    refine (visitor.follows_operation input).bind ?_
    rintro input _ rfl
    refine ((Follows.slots (fun _ => rfl) Expression.wildcard keys).imp ?_).map
      (Operator.orderBy input)
    rintro keys _ ⟨rfl, same⟩
    exact ⟨rfl, congrArg (Operator.orderBy .nop) same⟩
  | construct input template =>
    refine (visitor.follows_operation input).bind ?_
    rintro input _ rfl
    refine ((Follows.slots (fun _ => rfl) Pattern.placeholder template).imp ?_).map
      (Operator.construct input)
    rintro template _ ⟨rfl, same⟩
    exact ⟨rfl, congrArg (Operator.construct .nop) same⟩
  | combine how inputs =>
    refine ((Follows.slots (fun _ => rfl) Operation.nop inputs).imp ?_).map (Operator.combine how)
    rintro inputs _ ⟨rfl, same⟩
    exact ⟨rfl, congrArg (Operator.combine how) same⟩
  | leftJoin left right condition =>
    refine (visitor.follows_operation left).bind ?_
    rintro left _ rfl
    refine (visitor.follows_operation right).bind ?_
    rintro right _ rfl
    refine ((Follows.optional (fun _ => rfl) Expression.wildcard condition).imp ?_).map
      (Operator.leftJoin left right)
    rintro condition _ ⟨rfl, same⟩
    exact ⟨rfl, congrArg (Operator.leftJoin .nop .nop) same⟩
  | minus left right =>
    refine (visitor.follows_operation left).bind ?_
    rintro left _ rfl
    refine ((visitor.follows_operation right).imp ?_).map (Operator.minus left)
    rintro right _ rfl
    exact ⟨rfl, rfl⟩
  | deleteInsert delete insert scope =>
    rw [children, List.append_assoc]
    refine (Follows.template delete).bind ?_
    rintro delete _ ⟨rfl, sameDelete⟩
    refine (Follows.template insert).bind ?_
    rintro insert _ ⟨rfl, sameInsert⟩
    refine ((Follows.optional (fun _ => rfl) Operation.nop scope).imp ?_).map
      (Operator.deleteInsert delete insert)
    rintro scope _ ⟨rfl, sameScope⟩
    refine ⟨by rw [children, List.append_assoc], ?_⟩
    rw [hollow, hollow, sameDelete, sameInsert, sameScope]

theorem Expression.follows_visitSlots (value : Expression) :
    Follows visitor (value.visitSlots visitor) value.children fun new news =>
      new.children = news ∧ new.hollow = value.hollow := by
  cases value with
  | term | wildcard => exact .pure ⟨rfl, rfl⟩
  | call callee arguments =>
    refine ((Follows.slots (fun _ => rfl) Expression.wildcard arguments).imp ?_).map
      (Expression.call callee)
    rintro arguments _ ⟨rfl, same⟩
    exact ⟨rfl, congrArg (Expression.call callee) same⟩
  | aggregate name argument distinct separator =>
    refine ((visitor.follows_expression argument).imp ?_).map
      fun argument => Expression.aggregate name argument distinct separator
    rintro argument _ rfl
    exact ⟨rfl, rfl⟩
  | existence negated input =>
    refine ((visitor.follows_operation input).imp ?_).map (Expression.existence negated)
    rintro input _ rfl
    exact ⟨rfl, rfl⟩

/-- A path around one path has one slot. -/
private theorem Path.follows_around {build : Path → Path}
    (single : ∀ inner, (build inner).children = [.path inner])
    (same : ∀ inner other, (build inner).hollow = (build other).hollow) (inner : Path) :
    Follows visitor (build <$> visitor.path inner) [.path inner] fun new news =>
      new.children = news ∧ new.hollow = (build inner).hollow := by
  refine ((visitor.follows_path inner).imp ?_).map build
  rintro other _ rfl
  exact ⟨single other, same other inner⟩

theorem Path.follows_visitSlots (way : Path) :
    Follows visitor (way.visitSlots visitor) way.children fun new news =>
      new.children = news ∧ new.hollow = way.hollow := by
  cases way with
  | link | negated => exact .pure ⟨rfl, rfl⟩
  | inverse inner => exact follows_around visitor (fun _ => rfl) (fun _ _ => rfl) inner
  | zeroOrMore inner => exact follows_around visitor (fun _ => rfl) (fun _ _ => rfl) inner
  | oneOrMore inner => exact follows_around visitor (fun _ => rfl) (fun _ _ => rfl) inner
  | zeroOrOne inner => exact follows_around visitor (fun _ => rfl) (fun _ _ => rfl) inner
  | seq steps =>
    refine ((Follows.slots (fun _ => rfl) (Path.negated []) steps).imp ?_).map Path.seq
    rintro steps _ ⟨rfl, same⟩
    exact ⟨rfl, congrArg Path.seq same⟩
  | alt branches =>
    refine ((Follows.slots (fun _ => rfl) (Path.negated []) branches).imp ?_).map Path.alt
    rintro branches _ ⟨rfl, same⟩
    exact ⟨rfl, congrArg Path.alt same⟩

/-- A visit meets the children of a node in their order, and keeps everything else. -/
theorem Node.follows_visitSlots (node : Node) :
    Follows visitor (node.visitSlots visitor) node.children fun new news =>
      new.children = news ∧ new.hollow = node.hollow := by
  cases node with
  | operation op =>
    obtain ⟨operator, metadata⟩ := op
    refine ((operator.follows_visitSlots visitor).imp ?_).map
      fun operator => Node.operation ⟨operator, metadata⟩
    rintro other _ ⟨rfl, same⟩
    exact ⟨rfl, congrArg (fun operator => Node.operation ⟨operator, metadata⟩) same⟩
  | pattern => exact .pure ⟨rfl, rfl⟩
  | expression value =>
    refine ((value.follows_visitSlots visitor).imp ?_).map Node.expression
    rintro other _ ⟨rfl, same⟩
    exact ⟨rfl, congrArg Node.expression same⟩
  | path way =>
    refine ((way.follows_visitSlots visitor).imp ?_).map Node.path
    rintro other _ ⟨rfl, same⟩
    exact ⟨rfl, congrArg Node.path same⟩

/-! ### What is done with a list of nodes -/

namespace Node

/-- The nodes in the slots of a node. -/
def slots (node : Node) : List Node := (node.visitSlots .list []).2

/-- The node with its children taken out, and the children. -/
def takeChildren (node : Node) : Node × List Node := node.visitSlots .take []

/-- The first of some nodes that is not of the family that is asked for in its place. -/
def misfit? (families : List Family) (nodes : List Node) : Option Node :=
  ((nodes.zip families).find? fun place => place.1.family ≠ place.2).map Prod.fst

theorem misfit?_cons (family : Family) (families : List Family) (node : Node)
    (nodes : List Node) :
    misfit? (family :: families) (node :: nodes) =
      if node.family = family then misfit? families nodes else some node := by
  rw [misfit?, List.zip_cons_cons, List.find?_cons]
  by_cases fits : node.family = family
  · simp [fits, misfit?]
  · simp [fits]

/-- There is no misfit among nodes of the families that are asked for. -/
theorem misfit?_eq_none_iff {families : List Family} {nodes : List Node}
    (sameLength : nodes.length = families.length) :
    misfit? families nodes = none ↔ nodes.map family = families := by
  induction families generalizing nodes with
  | nil =>
    obtain rfl := List.length_eq_zero_iff.1 sameLength
    exact ⟨fun _ => rfl, fun _ => rfl⟩
  | cons first families ih =>
    obtain ⟨node, nodes, rfl⟩ := List.exists_cons_of_length_eq_add_one sameLength
    rw [misfit?_cons, List.map_cons, List.cons.injEq, ← ih (Nat.succ.inj sameLength)]
    split <;> simp [*]

@[simp] theorem family_placeholder (node : Node) : node.placeholder.family = node.family := by
  cases node <;> rfl

/-- A node is determined by its children and by what is left without them. -/
theorem eq_of_hollow {first second : Node} (sameRest : first.hollow = second.hollow)
    (sameChildren : first.children = second.children) : first = second := by
  have ofFirst := (Refits.hollow first).2 [] none
  have ofSecond := (Refits.hollow second).2 [] none
  rw [sameRest, sameChildren, ofSecond] at ofFirst
  exact (congrArg Prod.fst ofFirst).symm

end Node

namespace SlotVisitor

open Node (misfit?)

variable {σ : Type}

private theorem mapM_node_cons (visitor : SlotVisitor σ) (old : Node) (olds : List Node)
    (state : σ) :
    (old :: olds).mapM visitor.node state =
      ((visitor.node old state).1 :: (olds.mapM visitor.node (visitor.node old state).2).1,
        (olds.mapM visitor.node (visitor.node old state).2).2) := by
  rw [List.mapM_cons]
  rfl

/-- A visitor that collects what it meets collects all of it. -/
theorem mapM_collect {visitor : SlotVisitor (List Node)} (left : Node → Node)
    (collects : ∀ old seen, visitor.node old seen = (left old, seen ++ [old])) (olds : List Node)
    (seen : List Node) : olds.mapM visitor.node seen = (olds.map left, seen ++ olds) := by
  induction olds generalizing seen with
  | nil => exact congrArg (Prod.mk []) (List.append_nil seen).symm
  | cons old olds ih =>
    rw [mapM_node_cons, collects, ih, List.map_cons, List.append_assoc, List.singleton_append]

theorem node_put_cons (old new : Node) (rest : List Node) (rejected : Option Node) :
    put.node old ⟨new :: rest, rejected⟩ =
      if new.family = old.family then (new, ⟨rest, rejected⟩) else (old, ⟨[], some new⟩) := by
  cases old <;> cases new <;> rfl

/-- Without pending nodes the slots keep what they hold. -/
theorem mapM_put_nil (olds : List Node) (rejected : Option Node) :
    olds.mapM put.node ⟨[], rejected⟩ = (olds, ⟨[], rejected⟩) := by
  induction olds with
  | nil => rfl
  | cons old olds ih =>
    have kept : put.node old ⟨[], rejected⟩ = (old, ⟨[], rejected⟩) := by cases old <;> rfl
    rw [mapM_node_cons, kept, ih]

/-- The first misfit is rejected; if there is none, all nodes are put. -/
theorem mapM_put {olds news : List Node} (sameLength : news.length = olds.length) :
    (olds.mapM put.node ⟨news, none⟩).2.rejected = misfit? (olds.map Node.family) news
      ∧ (misfit? (olds.map Node.family) news = none →
        (olds.mapM put.node ⟨news, none⟩).1 = news) := by
  induction olds generalizing news with
  | nil =>
    obtain rfl := List.length_eq_zero_iff.1 sameLength
    exact ⟨rfl, fun _ => rfl⟩
  | cons old olds ih =>
    obtain ⟨new, news, rfl⟩ := List.exists_cons_of_length_eq_add_one sameLength
    rw [mapM_node_cons, node_put_cons, List.map_cons, Node.misfit?_cons]
    split
    · obtain ⟨rejects, puts⟩ := ih (Nat.succ.inj sameLength)
      exact ⟨rejects, fun noMisfit => congrArg (new :: ·) (puts noMisfit)⟩
    · rw [mapM_put_nil]
      exact ⟨rfl, fun noMisfit => by cases noMisfit⟩

end SlotVisitor

namespace Node

theorem slots_eq_children (node : Node) : node.slots = node.children := by
  obtain ⟨news, ran, -⟩ := node.follows_visitSlots .list []
  rw [SlotVisitor.mapM_collect id (fun old seen => by cases old <;> rfl)] at ran
  exact (congrArg Prod.snd ran).symm

/-- Refilling rejects the first misfit and keeps everything but the children. -/
theorem refill_spec (node : Node) {children : List Node}
    (sameLength : children.length = node.children.length) :
    (node.refill ⟨children, none⟩).2.rejected = misfit? (node.children.map family) children
      ∧ (node.refill ⟨children, none⟩).1.hollow = node.hollow
      ∧ (misfit? (node.children.map family) children = none →
        (node.refill ⟨children, none⟩).1.children = children) := by
  obtain ⟨news, ran, holds, keeps⟩ := node.follows_visitSlots .put ⟨children, none⟩
  obtain ⟨rejects, puts⟩ := SlotVisitor.mapM_put sameLength
  rw [ran] at rejects puts
  rw [refill_eq_visitSlots]
  exact ⟨rejects, keeps, fun noMisfit => holds.trans (puts noMisfit)⟩

@[simp] theorem hollow_hollow (node : Node) : node.hollow.hollow = node.hollow := by
  have filled := (Refits.hollow node).1 [] none
  rw [children_hollow, List.append_nil] at filled
  obtain ⟨-, keeps, -⟩ := node.refill_spec (List.length_map placeholder)
  rwa [filled] at keeps

theorem takeChildren_eq (node : Node) : node.takeChildren = (node.emptied, node.children) := by
  obtain ⟨news, ran, holds, keeps⟩ := node.follows_visitSlots .take []
  rw [SlotVisitor.mapM_collect placeholder (fun old seen => by cases old <;> rfl)] at ran
  obtain ⟨rfl, taken⟩ := Prod.mk.inj ran
  have left : (node.visitSlots .take []).1 = node.emptied := by
    rw [emptied_eq_hollow]
    exact eq_of_hollow (keeps.trans node.hollow_hollow.symm) (holds.trans node.children_hollow.symm)
  exact Prod.ext left taken.symm

/-- As many nodes as there are slots are put into them up to the first misfit. -/
theorem putChildren_eq (node : Node) {children : List Node}
    (sameLength : children.length = node.children.length) :
    node.putChildren children = ((node.refill ⟨children, none⟩).1,
      match misfit? (node.children.map family) children with
      | none => .ok ()
      | some rejected => .error (.family rejected)) := by
  obtain ⟨rejects, -, -⟩ := node.refill_spec sameLength
  rw [putChildren, if_pos sameLength, ← rejects]
  obtain ⟨filled, pending, rejected⟩ := node.refill ⟨children, none⟩
  cases rejected <;> rfl

theorem map_family_hollow (node : Node) :
    node.hollow.children.map family = node.children.map family := by
  rw [children_hollow, List.map_map]
  exact List.map_congr_left fun child _ => child.family_placeholder

variable {node : Node} {children : List Node}

/-- Putting nodes into slots gives the node that has them as children and is otherwise the same. -/
theorem putChildren_eq_ok_iff {filled : Node} :
    node.putChildren children = (filled, .ok ()) ↔
      filled.children = children ∧ filled.hollow = node.hollow := by
  constructor
  · intro puts
    by_cases sameLength : children.length = node.children.length
    · obtain ⟨-, keeps, holds⟩ := node.refill_spec sameLength
      rw [putChildren_eq node sameLength] at puts
      obtain ⟨rfl, succeeds⟩ := Prod.mk.inj puts
      refine ⟨holds ?_, keeps⟩
      split at succeeds
      · assumption
      · cases succeeds
    · rw [putChildren, if_neg sameLength] at puts
      cases puts
  · rintro ⟨rfl, keeps⟩
    have fits : filled.children.map family = node.children.map family := by
      rw [← map_family_hollow, keeps, map_family_hollow]
    have sameLength : filled.children.length = node.children.length := by
      simpa only [List.length_map] using congrArg List.length fits
    have noMisfit : misfit? (node.children.map family) filled.children = none :=
      (misfit?_eq_none_iff (by rw [List.length_map, sameLength])).2 fits
    obtain ⟨-, keeps', holds⟩ := node.refill_spec sameLength
    rw [putChildren_eq node sameLength, noMisfit,
      eq_of_hollow (keeps'.trans keeps.symm) (holds noMisfit)]

theorem putChildren_ok_iff :
    (node.putChildren children).2 = .ok () ↔
      children.map family = node.children.map family := by
  by_cases sameLength : children.length = node.children.length
  · rw [putChildren_eq node sameLength,
      ← misfit?_eq_none_iff (by rw [List.length_map, sameLength])]
    cases misfit? (node.children.map family) children <;> simp
  · have differs : children.map family ≠ node.children.map family := fun fits =>
      sameLength (by simpa only [List.length_map] using congrArg List.length fits)
    simp [putChildren, sameLength, differs]

theorem putChildren_arity_iff :
    (node.putChildren children).2 = .error .arity ↔ children.length ≠ node.children.length := by
  by_cases sameLength : children.length = node.children.length
  · rw [putChildren_eq node sameLength]
    cases misfit? (node.children.map family) children <;> simp [sameLength]
  · simp [putChildren, sameLength]

theorem putChildren_family_iff {rejected : Node} :
    (node.putChildren children).2 = .error (.family rejected) ↔
      children.length = node.children.length
        ∧ misfit? (node.children.map family) children = some rejected := by
  by_cases sameLength : children.length = node.children.length
  · rw [putChildren_eq node sameLength]
    cases misfit? (node.children.map family) children <;> simp [sameLength]
  · simp [putChildren, sameLength]

/-- **There is one order of the children of a node.** In this order they are listed and taken out,
and nodes of the same families take their places, which changes nothing else. -/
theorem slots_take_put (node : Node) :
    node.slots = node.children ∧ node.takeChildren = (node.emptied, node.children)
      ∧ node.emptied = node.hollow
      ∧ (∀ other : Node, other = node
        ↔ other.hollow = node.hollow ∧ other.children = node.children)
      ∧ ∀ children : List Node,
        ((node.emptied.putChildren children).2 = .ok ()
            ↔ children.map family = node.children.map family)
          ∧ (∀ filled, node.emptied.putChildren children = (filled, .ok ())
            ↔ filled.children = children ∧ filled.hollow = node.hollow)
          ∧ ((node.emptied.putChildren children).2 = .error .arity
            ↔ children.length ≠ node.children.length)
          ∧ ∀ rejected, (node.emptied.putChildren children).2 = .error (.family rejected)
            ↔ children.length = node.children.length
              ∧ misfit? (node.children.map family) children = some rejected := by
  have sameFamilies := node.map_family_hollow
  have sameLength : node.hollow.children.length = node.children.length := by
    rw [children_hollow, List.length_map]
  refine ⟨node.slots_eq_children, node.takeChildren_eq, node.emptied_eq_hollow, ?_, ?_⟩
  · intro other
    constructor
    · rintro rfl
      exact ⟨rfl, rfl⟩
    · rintro ⟨sameRest, sameChildren⟩
      exact eq_of_hollow sameRest sameChildren
  intro children
  rw [emptied_eq_hollow]
  refine ⟨?_, fun filled => ?_, ?_, fun rejected => ?_⟩
  · rw [putChildren_ok_iff, sameFamilies]
  · rw [putChildren_eq_ok_iff, hollow_hollow]
  · rw [putChildren_arity_iff, sameLength]
  · rw [putChildren_family_iff, sameFamilies, sameLength]

end Node

end QueryAlgebra
