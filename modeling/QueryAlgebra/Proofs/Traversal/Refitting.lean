import QueryAlgebra.Node.Slots

/-! # Taking a node apart and putting it together again

Filling slots uses up one node a slot, from left to right, and does not look at what a slot held
before. So one node becomes another when it gets the children of a node that differs from it in
nothing but its children. In particular a node keeps what it is when it gets its own children back,
also after they were taken out.
-/

namespace QueryAlgebra

namespace Refill

variable {α β : Type}

/-- Filling uses up `nodes`, whatever comes after them, and gives `new`. -/
def Gives (fill : StateM Refill α) (nodes : List Node) (new : α) : Prop :=
  ∀ rest rejected, fill ⟨nodes ++ rest, rejected⟩ = (new, ⟨rest, rejected⟩)

namespace Gives

theorem pure (new : α) : Gives (pure new) [] new := fun _ _ => rfl

theorem bind {fill : StateM Refill α} {next : α → StateM Refill β} {nodes others : List Node}
    {first : α} {new : β} (filled : Gives fill nodes first)
    (last : Gives (next first) others new) : Gives (fill >>= next) (nodes ++ others) new := by
  intro rest rejected
  change next (fill ⟨_, rejected⟩).1 (fill ⟨_, rejected⟩).2 = _
  rw [List.append_assoc, filled, last]

/-- The last slots need no more nodes after them. -/
theorem last {fill : StateM Refill α} {nodes : List Node} {first : α}
    (filled : Gives fill nodes first) (build : α → β) :
    Gives (fill >>= fun x => Pure.pure (build x)) nodes (build first) := by
  have after : Gives (fill >>= fun x => Pure.pure (build x)) (nodes ++ []) (build first) :=
    filled.bind (pure (build first))
  rwa [List.append_nil] at after

theorem map {fill : StateM Refill α} {nodes : List Node} {first : α}
    (filled : Gives fill nodes first) (build : α → β) :
    Gives (build <$> fill) nodes (build first) :=
  filled.last build

end Gives

section

variable {fill : α → StateM Refill α} {wrap : α → Node}

/-- As many slots as nodes take all of the nodes. -/
theorem gives_all (each : ∀ old new, Gives (fill old) [wrap new] new) {olds news : List α}
    (same : olds.length = news.length) : Gives (all fill olds) (news.map wrap) news := by
  induction olds generalizing news with
  | nil =>
    rw [List.length_eq_zero_iff.1 same.symm]
    exact .pure []
  | cons old olds ih =>
    obtain ⟨new, news, rfl⟩ := List.exists_cons_of_length_eq_add_one same.symm
    exact (each old new).bind ((ih (Nat.succ.inj same)).last (new :: ·))

/-- A slot that may be there takes a node if it is. -/
theorem gives_optional {nodes : α → List Node} (each : ∀ old new, Gives (fill old) (nodes new) new)
    {old new : Option α} (same : old.isSome = new.isSome) :
    Gives (optional fill old) ((new.map nodes).getD []) new := by
  cases old with
  | none =>
    obtain rfl : new = none := Option.not_isSome_iff_eq_none.1 (by simp [← same])
    exact .pure none
  | some old =>
    obtain ⟨new, rfl⟩ := Option.isSome_iff_exists.1 same.symm
    exact (each old new).map some

end

theorem gives_operation (old new : Operation) : Gives (operation old) [.operation new] new :=
  fun _ _ => rfl

theorem gives_pattern (old new : Pattern) : Gives (pattern old) [.pattern new] new :=
  fun _ _ => rfl

theorem gives_expression (old new : Expression) :
    Gives (expression old) [.expression new] new := fun _ _ => rfl

theorem gives_path (old new : Path) : Gives (path old) [.path new] new := fun _ _ => rfl

end Refill

/-! ### Other nodes in the slots -/

/-- An operator gets the children of another and becomes it. -/
def Operator.Refits (old new : Operator) : Prop := Refill.Gives old.refill new.children new

/-- An expression gets the children of another and becomes it. -/
def Expression.Refits (old new : Expression) : Prop := Refill.Gives old.refill new.children new

/-- A path gets the children of another and becomes it. -/
def Path.Refits (old new : Path) : Prop := Refill.Gives old.refill new.children new

open Refill

namespace Operator.Refits

theorem leaf {operator : Operator} (fills : operator.refill = pure operator)
    (none : operator.children = []) : operator.Refits operator := by
  rw [Refits, fills, none]
  exact .pure operator

theorem bgp {patterns others : List Pattern} (same : patterns.length = others.length) :
    (Operator.bgp patterns).Refits (.bgp others) :=
  (gives_all gives_pattern same).map Operator.bgp

theorem path (subject object graph : Term) (old new : Path) :
    (Operator.path subject old object graph).Refits (.path subject new object graph) :=
  (gives_path old new).last fun way => Operator.path subject way object graph

theorem wrap (wrapper : Wrapper) (old new : Operation) :
    (Operator.wrap wrapper old).Refits (.wrap wrapper new) :=
  (gives_operation old new).map (Operator.wrap wrapper)

theorem filter (old new : Operation) (condition other : Expression) :
    (Operator.filter old condition).Refits (.filter new other) :=
  (gives_operation old new).bind ((gives_expression condition other).last (Operator.filter new))

theorem extend (old new : Operation) (name : Variable) (value other : Expression) :
    (Operator.extend old name value).Refits (.extend new name other) :=
  (gives_operation old new).bind ((gives_expression value other).last (Operator.extend new name))

theorem orderBy (old new : Operation) {keys others : List Expression}
    (same : keys.length = others.length) :
    (Operator.orderBy old keys).Refits (.orderBy new others) :=
  (gives_operation old new).bind ((gives_all gives_expression same).last (Operator.orderBy new))

theorem construct (old new : Operation) {template other : List Pattern}
    (same : template.length = other.length) :
    (Operator.construct old template).Refits (.construct new other) :=
  (gives_operation old new).bind ((gives_all gives_pattern same).last (Operator.construct new))

theorem combine (how : Combination) {inputs others : List Operation}
    (same : inputs.length = others.length) :
    (Operator.combine how inputs).Refits (.combine how others) :=
  (gives_all gives_operation same).map (Operator.combine how)

theorem minus (left right left' right' : Operation) :
    (Operator.minus left right).Refits (.minus left' right') :=
  (gives_operation left left').bind ((gives_operation right right').last (Operator.minus left'))

/-- The aggregates keep their names. -/
theorem group (old new : Operation) (keys : List Variable) {aggregates others : List BoundAggregate}
    (same : aggregates.map (·.name) = others.map (·.name)) :
    (Operator.group old keys aggregates).Refits (.group new keys others) := by
  have filled : Gives (all aggregate aggregates)
      (others.map fun bound => .expression bound.expression) others := by
    induction aggregates generalizing others with
    | nil =>
      obtain rfl : others = [] := List.map_eq_nil_iff.1 same.symm
      exact .pure []
    | cons bound rest ih =>
      obtain ⟨⟨name, value⟩, others, rfl, rfl, tail⟩ := List.map_eq_cons_iff.1 same.symm
      have first : Gives (aggregate bound) [.expression value] ⟨bound.name, value⟩ :=
        (gives_expression bound.expression value).last (BoundAggregate.mk bound.name)
      exact first.bind ((ih tail.symm).last (_ :: ·))
  exact (gives_operation old new).bind (filled.last (Operator.group new keys))

theorem leftJoin (left right left' right' : Operation) {condition other : Option Expression}
    (same : condition.isSome = other.isSome) :
    (Operator.leftJoin left right condition).Refits (.leftJoin left' right' other) := by
  have filled := (gives_optional gives_expression same).last (Operator.leftJoin left' right')
  cases other <;>
    exact (gives_operation left left').bind ((gives_operation right right').bind filled)

/-- The templates and the scope of an update are there or not as before. -/
theorem deleteInsert {delete insert delete' insert' : Option (List Pattern)}
    {scope scope' : Option Operation} (sameDelete : delete.map (·.length) = delete'.map (·.length))
    (sameInsert : insert.map (·.length) = insert'.map (·.length))
    (sameScope : scope.isSome = scope'.isSome) :
    (Operator.deleteInsert delete insert scope).Refits
      (.deleteInsert delete' insert' scope') := by
  have template : ∀ {old new : Option (List Pattern)},
      old.map (·.length) = new.map (·.length) →
      Gives (optional (all pattern) old) ((new.getD []).map .pattern) new := by
    intro old new same
    cases old with
    | none =>
      obtain rfl : new = none := Option.map_eq_none_iff.1 same.symm
      exact .pure none
    | some old =>
      obtain ⟨new, rfl, length⟩ := Option.map_eq_some_iff.1 same.symm
      exact (gives_all gives_pattern length.symm).map some
  have filled := (gives_optional gives_operation sameScope).last
    (Operator.deleteInsert delete' insert')
  rw [Operator.Refits, Operator.children, List.append_assoc]
  cases scope' <;> exact (template sameDelete).bind ((template sameInsert).bind filled)

/-- An operator becomes itself when it gets its own children. -/
theorem refl (operator : Operator) : operator.Refits operator := by
  cases operator with
  | bgp => exact bgp rfl
  | values => exact leaf rfl rfl
  | nop => exact leaf rfl rfl
  | path => apply path
  | manage => exact leaf rfl rfl
  | wrap => apply wrap
  | filter => apply filter
  | extend => apply extend
  | group => exact group _ _ _ rfl
  | orderBy => exact orderBy _ _ rfl
  | construct => exact construct _ _ rfl
  | combine => exact combine _ rfl
  | leftJoin => exact leftJoin _ _ _ _ rfl
  | minus => apply minus
  | deleteInsert => exact deleteInsert rfl rfl rfl

end Operator.Refits

namespace Expression.Refits

theorem call (callee : Callee) {arguments others : List Expression}
    (same : arguments.length = others.length) :
    (Expression.call callee arguments).Refits (.call callee others) :=
  (gives_all gives_expression same).map (Expression.call callee)

theorem aggregate (name : String) (old new : Expression) (distinct : Bool)
    (separator : Option String) :
    (Expression.aggregate name old distinct separator).Refits
      (.aggregate name new distinct separator) :=
  (gives_expression old new).last fun argument =>
    Expression.aggregate name argument distinct separator

theorem existence (negated : Bool) (old new : Operation) :
    (Expression.existence negated old).Refits (.existence negated new) :=
  (gives_operation old new).map (Expression.existence negated)

theorem refl (value : Expression) : value.Refits value := by
  cases value with
  | term value => exact Gives.pure (Expression.term value)
  | call => exact call _ rfl
  | aggregate => apply aggregate
  | existence => apply existence
  | wildcard => exact Gives.pure Expression.wildcard

end Expression.Refits

namespace Path.Refits

theorem seq {steps others : List Path} (same : steps.length = others.length) :
    (Path.seq steps).Refits (.seq others) :=
  (gives_all gives_path same).map Path.seq

theorem alt {branches others : List Path} (same : branches.length = others.length) :
    (Path.alt branches).Refits (.alt others) :=
  (gives_all gives_path same).map Path.alt

/-- A path around one path. -/
theorem around (build : Path → Path)
    (fills : ∀ inner, (build inner).refill = build <$> Refill.path inner)
    (single : ∀ inner, (build inner).children = [.path inner]) (old new : Path) :
    (build old).Refits (build new) := by
  rw [Path.Refits, fills, single]
  exact (gives_path old new).map build

theorem refl (way : Path) : way.Refits way := by
  cases way with
  | link predicate => exact Gives.pure (Path.link predicate)
  | inverse => exact around .inverse (fun _ => rfl) (fun _ => rfl) _ _
  | seq => exact seq rfl
  | alt => exact alt rfl
  | zeroOrMore => exact around .zeroOrMore (fun _ => rfl) (fun _ => rfl) _ _
  | oneOrMore => exact around .oneOrMore (fun _ => rfl) (fun _ => rfl) _ _
  | zeroOrOne => exact around .zeroOrOne (fun _ => rfl) (fun _ => rfl) _ _
  | negated predicates => exact Gives.pure (Path.negated predicates)

end Path.Refits

/-! ### Placeholders in the slots

Taking the children out leaves a node that has a placeholder for each of them, and that becomes the
node again when it gets them back.
-/

/-- What stands in a slot for a pattern. -/
def Pattern.placeholder : Pattern := ⟨.defaultGraph, .defaultGraph, .defaultGraph, .defaultGraph⟩

/-- The operator with a placeholder in every slot. -/
def Operator.hollow : Operator → Operator
  | .bgp patterns => .bgp (patterns.map fun _ => .placeholder)
  | .path subject _ object graph => .path subject (.negated []) object graph
  | .wrap wrapper _ => .wrap wrapper .nop
  | .filter _ _ => .filter .nop .wildcard
  | .extend _ name _ => .extend .nop name .wildcard
  | .group _ keys aggregates =>
    .group .nop keys (aggregates.map fun bound => ⟨bound.name, .wildcard⟩)
  | .orderBy _ keys => .orderBy .nop (keys.map fun _ => .wildcard)
  | .construct _ template => .construct .nop (template.map fun _ => .placeholder)
  | .combine how inputs => .combine how (inputs.map fun _ => .nop)
  | .leftJoin _ _ condition => .leftJoin .nop .nop (condition.map fun _ => .wildcard)
  | .minus _ _ => .minus .nop .nop
  | .deleteInsert delete insert scope =>
    .deleteInsert (delete.map (·.map fun _ => .placeholder))
      (insert.map (·.map fun _ => .placeholder)) (scope.map fun _ => .nop)
  | operator => operator

/-- The expression with a placeholder in every slot. -/
def Expression.hollow : Expression → Expression
  | .call callee arguments => .call callee (arguments.map fun _ => .wildcard)
  | .aggregate name _ distinct separator => .aggregate name .wildcard distinct separator
  | .existence negated _ => .existence negated .nop
  | value => value

/-- The path with a placeholder in every slot. -/
def Path.hollow : Path → Path
  | .inverse _ => .inverse (.negated [])
  | .seq steps => .seq (steps.map fun _ => .negated [])
  | .alt branches => .alt (branches.map fun _ => .negated [])
  | .zeroOrMore _ => .zeroOrMore (.negated [])
  | .oneOrMore _ => .oneOrMore (.negated [])
  | .zeroOrOne _ => .zeroOrOne (.negated [])
  | way => way

theorem Operator.children_hollow (operator : Operator) :
    operator.hollow.children = operator.children.map Node.placeholder := by
  cases operator with
  | leftJoin left right condition => cases condition <;> rfl
  | deleteInsert delete insert scope =>
    cases delete <;> cases insert <;> cases scope <;>
      simp only [hollow, children, List.map_append, List.map_map, Option.map, Option.getD] <;> rfl
  | _ => simp [hollow, children, Node.placeholder, Pattern.placeholder, Function.comp_def]

theorem Expression.children_hollow (value : Expression) :
    value.hollow.children = value.children.map Node.placeholder := by
  cases value <;> simp [hollow, children, Node.placeholder, Function.comp_def]

theorem Path.children_hollow (way : Path) :
    way.hollow.children = way.children.map Node.placeholder := by
  cases way <;> simp [hollow, children, Node.placeholder, Function.comp_def]

theorem Operator.Refits.hollow (operator : Operator) :
    operator.Refits operator.hollow ∧ operator.hollow.Refits operator := by
  cases operator with
  | bgp => exact ⟨bgp (List.length_map _).symm, bgp (List.length_map _)⟩
  | values => exact ⟨refl _, refl _⟩
  | nop => exact ⟨refl _, refl _⟩
  | path => constructor <;> apply path
  | manage => exact ⟨refl _, refl _⟩
  | wrap => constructor <;> apply wrap
  | filter => constructor <;> apply filter
  | extend => constructor <;> apply extend
  | group input keys aggregates =>
    have names : aggregates.map (·.name)
        = (aggregates.map fun bound => BoundAggregate.mk bound.name .wildcard).map (·.name) := by
      rw [List.map_map]
      rfl
    exact ⟨group _ _ _ names, group _ _ _ names.symm⟩
  | orderBy => exact ⟨orderBy _ _ (List.length_map _).symm, orderBy _ _ (List.length_map _)⟩
  | construct => exact ⟨construct _ _ (List.length_map _).symm, construct _ _ (List.length_map _)⟩
  | combine => exact ⟨combine _ (List.length_map _).symm, combine _ (List.length_map _)⟩
  | leftJoin => exact ⟨leftJoin _ _ _ _ Option.isSome_map.symm, leftJoin _ _ _ _ Option.isSome_map⟩
  | minus => constructor <;> apply minus
  | deleteInsert delete insert scope =>
    have lengths : ∀ template : Option (List Pattern), template.map (·.length)
        = (template.map (·.map fun _ => Pattern.placeholder)).map (·.length) := by
      rintro (_ | template)
      · rfl
      · simp only [Option.map_some, List.length_map]
    exact ⟨deleteInsert (lengths _) (lengths _) Option.isSome_map.symm,
      deleteInsert (lengths _).symm (lengths _).symm Option.isSome_map⟩

theorem Expression.Refits.hollow (value : Expression) :
    value.Refits value.hollow ∧ value.hollow.Refits value := by
  cases value with
  | term => exact ⟨refl _, refl _⟩
  | call => exact ⟨call _ (List.length_map _).symm, call _ (List.length_map _)⟩
  | aggregate => constructor <;> apply aggregate
  | existence => constructor <;> apply existence
  | wildcard => exact ⟨refl _, refl _⟩

theorem Path.Refits.hollow (way : Path) : way.Refits way.hollow ∧ way.hollow.Refits way := by
  cases way with
  | link => exact ⟨refl _, refl _⟩
  | inverse => constructor <;> exact around .inverse (fun _ => rfl) (fun _ => rfl) _ _
  | seq => exact ⟨seq (List.length_map _).symm, seq (List.length_map _)⟩
  | alt => exact ⟨alt (List.length_map _).symm, alt (List.length_map _)⟩
  | zeroOrMore => constructor <;> exact around .zeroOrMore (fun _ => rfl) (fun _ => rfl) _ _
  | oneOrMore => constructor <;> exact around .oneOrMore (fun _ => rfl) (fun _ => rfl) _ _
  | zeroOrOne => constructor <;> exact around .zeroOrOne (fun _ => rfl) (fun _ => rfl) _ _
  | negated => exact ⟨refl _, refl _⟩

/-! ### Nodes -/

namespace Node

/-- A node gets the children of another and becomes it. -/
def Refits (old new : Node) : Prop := Refill.Gives old.refill new.children new

theorem Refits.operation {old new : Operator} (refits : old.Refits new)
    (metadata : Option Metadata) :
    (Node.operation ⟨old, metadata⟩).Refits (.operation ⟨new, metadata⟩) :=
  Gives.last refits fun operator => Node.operation ⟨operator, metadata⟩

theorem Refits.refl (node : Node) : node.Refits node := by
  cases node with
  | operation op =>
    obtain ⟨operator, metadata⟩ := op
    exact .operation (.refl operator) metadata
  | pattern triple => exact Gives.pure (Node.pattern triple)
  | expression value => exact Gives.map (Expression.Refits.refl value) Node.expression
  | path way => exact Gives.map (Path.Refits.refl way) Node.path

/-- The node with a placeholder in every slot. -/
def hollow : Node → Node
  | .operation op => .operation ⟨op.operator.hollow, op.metadata⟩
  | .pattern triple => .pattern triple
  | .expression value => .expression value.hollow
  | .path way => .path way.hollow

theorem children_hollow (node : Node) : node.hollow.children = node.children.map placeholder := by
  cases node with
  | operation op => exact op.operator.children_hollow
  | pattern => rfl
  | expression value => exact value.children_hollow
  | path way => exact way.children_hollow

theorem Refits.hollow (node : Node) : node.Refits node.hollow ∧ node.hollow.Refits node := by
  cases node with
  | operation op =>
    obtain ⟨operator, metadata⟩ := op
    obtain ⟨away, back⟩ := Operator.Refits.hollow operator
    exact ⟨.operation away metadata, .operation back metadata⟩
  | pattern triple => exact ⟨Refits.refl (.pattern triple), Refits.refl (.pattern triple)⟩
  | expression value =>
    obtain ⟨away, back⟩ := Expression.Refits.hollow value
    exact ⟨Gives.map away Node.expression, Gives.map back Node.expression⟩
  | path way =>
    obtain ⟨away, back⟩ := Path.Refits.hollow way
    exact ⟨Gives.map away Node.path, Gives.map back Node.path⟩

/-- Taking the children out leaves placeholders in the slots and nothing else. -/
theorem emptied_eq_hollow (node : Node) : node.emptied = node.hollow := by
  have filled := (Refits.hollow node).1 [] none
  rw [children_hollow, List.append_nil] at filled
  rw [emptied, filled]

/-- Children that refit a node can be put into it. -/
theorem Refits.putChildren {old new : Node} (refits : old.Refits new)
    (slots : new.children.length = old.children.length) :
    old.putChildren new.children = (new, .ok ()) := by
  have filled := refits [] none
  rw [List.append_nil] at filled
  rw [Node.putChildren, if_pos slots, filled]

/-- A node keeps what it is when its own children are put into it. -/
theorem withChildren?_children (node : Node) : node.withChildren? node.children = some node := by
  rw [withChildren?, (Refits.refl node).putChildren rfl]

/-- Children that were taken out of a node can be put back, and the node is what it was. -/
theorem putChildren_emptied (node : Node) :
    node.emptied.putChildren node.children = (node, .ok ()) := by
  rw [emptied_eq_hollow]
  exact (Refits.hollow node).2.putChildren (by rw [children_hollow, List.length_map])

end Node

end QueryAlgebra
