import QueryAlgebra.Proofs.Operation.BlankReplacement
import QueryAlgebra.Proofs.Operation.KeptForms
import QueryAlgebra.Proofs.Traversal.Fitting

/-! # Patterns and paths in the graphs of their areas

A `Placing` divides an operation into areas: wrappers lead from one area into another, and so do
bindings, whose values may be in an area of their own. `Operation.place` puts every pattern and path
into the graph of its area; updates of triples are left alone.

Only graphs change: the last placing counts, joins stay what they are, and neither the shape of an
operation nor its blank nodes depend on the placing.
-/

namespace QueryAlgebra

/-- The pattern in another graph. -/
def Pattern.inGraph (graph : Term) (pattern : Pattern) : Pattern := { pattern with graph := graph }

/-- The areas of operations: the one that a wrapper leads into, those of the input and of the value
of a binding, and the graph of the patterns and paths of each. -/
structure Placing (Area : Type) where
  enter : Wrapper → Area → Area
  bind : Variable → Area → Area
  value : Area → Area
  graph : Area → Term

variable {Area Area' : Type}

mutual

/-- The operation placed, from an area on. -/
def Operation.place (placing : Placing Area) (area : Area) : Operation → Operation
  | ⟨operator, metadata⟩ => ⟨operator.place placing area, metadata⟩

/-- The operator placed, from an area on. -/
def Operator.place (placing : Placing Area) (area : Area) : Operator → Operator
  | .bgp patterns => .bgp (patterns.map (·.inGraph (placing.graph area)))
  | .values vars rows => .values vars rows
  | .nop => .nop
  | .path subject predicate object _ => .path subject predicate object (placing.graph area)
  | .manage action => .manage action
  | .wrap wrapper input => .wrap wrapper (input.place placing (placing.enter wrapper area))
  | .filter input condition => .filter (input.place placing area) (condition.place placing area)
  | .extend input name value =>
    .extend (input.place placing (placing.bind name area)) name
      (value.place placing (placing.value area))
  | .group input keys aggregates =>
    .group (input.place placing area) keys (BoundAggregate.allPlaced placing area aggregates)
  | .orderBy input keys =>
    .orderBy (input.place placing area) (Expression.allPlaced placing area keys)
  | .construct input template =>
    .construct (input.place placing area) (template.map (·.inGraph (placing.graph area)))
  | .combine how inputs => .combine how (Operation.allPlaced placing area inputs)
  | .leftJoin left right none => .leftJoin (left.place placing area) (right.place placing area) none
  | .leftJoin left right (some condition) =>
    .leftJoin (left.place placing area) (right.place placing area)
      (some (condition.place placing area))
  | .minus left right => .minus (left.place placing area) (right.place placing area)
  | .deleteInsert delete insert scope => .deleteInsert delete insert scope

/-- The expression placed, from an area on. -/
def Expression.place (placing : Placing Area) (area : Area) : Expression → Expression
  | .term value => .term value
  | .call callee arguments => .call callee (Expression.allPlaced placing area arguments)
  | .aggregate name argument distinct separator =>
    .aggregate name (argument.place placing area) distinct separator
  | .existence negated input => .existence negated (input.place placing area)
  | .wildcard => .wildcard

/-- The operations placed, from an area on. -/
def Operation.allPlaced (placing : Placing Area) (area : Area) : List Operation → List Operation
  | [] => []
  | operation :: rest =>
    operation.place placing area :: Operation.allPlaced placing area rest

/-- The expressions placed, from an area on. -/
def Expression.allPlaced (placing : Placing Area) (area : Area) :
    List Expression → List Expression
  | [] => []
  | expression :: rest =>
    expression.place placing area :: Expression.allPlaced placing area rest

/-- The aggregates placed, from an area on. -/
def BoundAggregate.allPlaced (placing : Placing Area) (area : Area) :
    List BoundAggregate → List BoundAggregate
  | [] => []
  | ⟨name, expression⟩ :: rest =>
    ⟨name, expression.place placing area⟩ :: BoundAggregate.allPlaced placing area rest

end

section

variable (placing : Placing Area) (placing' : Placing Area') (area : Area)

/-! ### The last placing counts -/

@[simp] theorem Pattern.inGraph_inGraph (graph graph' : Term) (pattern : Pattern) :
    (pattern.inGraph graph').inGraph graph = pattern.inGraph graph := rfl

/-- Patterns of one graph stay what they are if they are put into it. -/
theorem Pattern.map_inGraph {graph : Term} {patterns : List Pattern}
    (inGraph : ∀ pattern ∈ patterns, pattern.graph = graph) :
    patterns.map (·.inGraph graph) = patterns := by
  refine (List.map_congr_left fun pattern member => ?_).trans (List.map_id patterns)
  rw [← inGraph pattern member]
  rfl

private theorem map_inGraph_inGraph (graph graph' : Term) (patterns : List Pattern) :
    (patterns.map (·.inGraph graph')).map (·.inGraph graph)
      = patterns.map (·.inGraph graph) := by
  simp

mutual

/-- A placing takes the place of an earlier one. -/
theorem Operation.place_place : ∀ (operation : Operation) (area : Area) (area' : Area'),
    (operation.place placing' area').place placing area = operation.place placing area
  | ⟨operator, _⟩, area, area' => by
    rw [Operation.place, Operation.place, Operation.place, Operator.place_place operator]

theorem Operator.place_place : ∀ (operator : Operator) (area : Area) (area' : Area'),
    (operator.place placing' area').place placing area = operator.place placing area
  | .bgp patterns, _, _ => by simp only [Operator.place, map_inGraph_inGraph]
  | .values .., _, _ | .nop, _, _ | .path .., _, _ | .manage _, _, _ | .deleteInsert .., _, _ => by
    simp only [Operator.place]
  | .wrap _ input, _, _ => by simp only [Operator.place, Operation.place_place input]
  | .filter input condition, _, _ => by
    simp only [Operator.place, Operation.place_place input, Expression.place_place condition]
  | .extend input _ value, _, _ => by
    simp only [Operator.place, Operation.place_place input, Expression.place_place value]
  | .group input _ aggregates, _, _ => by
    simp only [Operator.place, Operation.place_place input,
      BoundAggregate.allPlaced_allPlaced aggregates]
  | .orderBy input keys, _, _ => by
    simp only [Operator.place, Operation.place_place input, Expression.allPlaced_allPlaced keys]
  | .construct input template, _, _ => by
    simp only [Operator.place, Operation.place_place input, map_inGraph_inGraph]
  | .combine _ inputs, _, _ => by simp only [Operator.place, Operation.allPlaced_allPlaced inputs]
  | .leftJoin left right none, _, _ => by
    simp only [Operator.place, Operation.place_place left, Operation.place_place right]
  | .leftJoin left right (some condition), _, _ => by
    simp only [Operator.place, Operation.place_place left, Operation.place_place right,
      Expression.place_place condition]
  | .minus left right, _, _ => by
    simp only [Operator.place, Operation.place_place left, Operation.place_place right]

theorem Expression.place_place : ∀ (expression : Expression) (area : Area) (area' : Area'),
    (expression.place placing' area').place placing area = expression.place placing area
  | .term _, _, _ | .wildcard, _, _ => by simp only [Expression.place]
  | .call _ arguments, _, _ => by
    simp only [Expression.place, Expression.allPlaced_allPlaced arguments]
  | .aggregate _ argument _ _, _, _ => by
    simp only [Expression.place, Expression.place_place argument]
  | .existence _ input, _, _ => by simp only [Expression.place, Operation.place_place input]

theorem Operation.allPlaced_allPlaced : ∀ (operations : List Operation) (area : Area)
    (area' : Area'),
    Operation.allPlaced placing area (Operation.allPlaced placing' area' operations)
      = Operation.allPlaced placing area operations
  | [], _, _ => rfl
  | operation :: rest, _, _ => by
    simp only [Operation.allPlaced, Operation.place_place operation,
      Operation.allPlaced_allPlaced rest]

theorem Expression.allPlaced_allPlaced : ∀ (expressions : List Expression)
    (area : Area) (area' : Area'),
    Expression.allPlaced placing area (Expression.allPlaced placing' area' expressions)
      = Expression.allPlaced placing area expressions
  | [], _, _ => rfl
  | expression :: rest, _, _ => by
    simp only [Expression.allPlaced, Expression.place_place expression,
      Expression.allPlaced_allPlaced rest]

theorem BoundAggregate.allPlaced_allPlaced : ∀ (aggregates : List BoundAggregate)
    (area : Area) (area' : Area'),
    BoundAggregate.allPlaced placing area (BoundAggregate.allPlaced placing' area' aggregates)
      = BoundAggregate.allPlaced placing area aggregates
  | [], _, _ => rfl
  | ⟨_, expression⟩ :: rest, _, _ => by
    simp only [BoundAggregate.allPlaced, Expression.place_place expression,
      BoundAggregate.allPlaced_allPlaced rest]

end

/-! ### Joins and unions -/

theorem Operation.allPlaced_eq_map (operations : List Operation) :
    allPlaced placing area operations = operations.map (place placing area) := by
  induction operations with
  | nil => rfl
  | cons operation rest ih => rw [allPlaced, List.map_cons, ih]

theorem Operation.keepsForms_place :
    KeepsForms (place placing area) (Pattern.inGraph (placing.graph area))
      (Expression.place placing area) where
  form operation := by
    obtain ⟨operator, metadata⟩ := operation
    cases operator with
    | leftJoin left right condition => cases condition <;> rfl
    | _ => rfl
  metadata operation := by
    obtain ⟨operator, metadata⟩ := operation
    rfl
  bgp _ _ := rfl
  filter _ _ _ := rfl
  combine _ _ _ := by rw [place, Operator.place, allPlaced_eq_map]
  leftJoin _ _ condition _ := by cases condition <;> rfl

theorem Operation.place_join (inputs : List Operation) :
    (join inputs).place placing area = join (inputs.map (place placing area)) :=
  (keepsForms_place placing area).join inputs

theorem Operation.place_union (inputs : List Operation) :
    (union inputs).place placing area = union (inputs.map (place placing area)) :=
  (keepsForms_place placing area).union inputs

theorem place_simplifiedJoin (left right : Operation) :
    (simplifiedJoin left right).place placing area
      = simplifiedJoin (left.place placing area) (right.place placing area) :=
  (Operation.keepsForms_place placing area).simplifiedJoin left right

theorem place_leftJoinOf (left right : Operation) :
    (leftJoinOf left right).place placing area
      = leftJoinOf (left.place placing area) (right.place placing area) :=
  (Operation.keepsForms_place placing area).leftJoinOf left right

/-! ### Shapes -/

@[simp] theorem Operator.setsGraph_place (operator : Operator) :
    (operator.place placing area).setsGraph = operator.setsGraph := by
  cases operator with
  | leftJoin left right condition => cases condition <;> rfl
  | wrap wrapper input => cases wrapper <;> rfl
  | _ => rfl

private theorem sameShape_patterns (graph : Term) (patterns : List Pattern) :
    List.Forall₂ Node.SameShape (patterns.map .pattern)
      ((patterns.map (·.inGraph graph)).map .pattern) := by
  induction patterns with
  | nil => exact .nil
  | cons pattern rest ih => exact .cons (.mk rfl .nil) ih

mutual

/-- The shape of an operation does not depend on the graphs of its patterns. -/
theorem Operation.sameShape_place : ∀ (operation : Operation) (area : Area),
    Node.SameShape (.operation operation) (.operation (operation.place placing area))
  | ⟨operator, _⟩, area => by
    obtain ⟨kinds, children⟩ := Operator.sameShape_place operator area
    exact .mk kinds children

theorem Operator.sameShape_place : ∀ (operator : Operator) (area : Area),
    operator.kind = (operator.place placing area).kind
      ∧ List.Forall₂ Node.SameShape operator.children (operator.place placing area).children
  | .bgp patterns, area => ⟨rfl, sameShape_patterns (placing.graph area) patterns⟩
  | .values .., _ | .nop, _ | .manage _, _ => ⟨rfl, .nil⟩
  | .path .., _ => ⟨rfl, .cons (.refl _) .nil⟩
  | .wrap _ input, _ => ⟨rfl, .cons (Operation.sameShape_place input _) .nil⟩
  | .filter input condition, area =>
    ⟨rfl, .cons (Operation.sameShape_place input area)
      (.cons (Expression.sameShape_place condition area) .nil)⟩
  | .extend input _ value, _ =>
    ⟨rfl, .cons (Operation.sameShape_place input _)
      (.cons (Expression.sameShape_place value _) .nil)⟩
  | .group input _ aggregates, area =>
    ⟨rfl, .cons (Operation.sameShape_place input area)
      (BoundAggregate.sameShape_allPlaced aggregates area)⟩
  | .orderBy input keys, area =>
    ⟨rfl, .cons (Operation.sameShape_place input area)
      (Expression.sameShape_allPlaced keys area)⟩
  | .construct input template, area =>
    ⟨rfl, .cons (Operation.sameShape_place input area)
      (sameShape_patterns (placing.graph area) template)⟩
  | .combine _ inputs, area => ⟨rfl, Operation.sameShape_allPlaced inputs area⟩
  | .leftJoin left right none, area =>
    ⟨rfl, .cons (Operation.sameShape_place left area)
      (.cons (Operation.sameShape_place right area) .nil)⟩
  | .leftJoin left right (some condition), area =>
    ⟨rfl, .cons (Operation.sameShape_place left area)
      (.cons (Operation.sameShape_place right area)
        (.cons (Expression.sameShape_place condition area) .nil))⟩
  | .minus left right, area =>
    ⟨rfl, .cons (Operation.sameShape_place left area)
      (.cons (Operation.sameShape_place right area) .nil)⟩
  | .deleteInsert .., _ => ⟨rfl, List.forall₂_same.2 fun child _ => .refl child⟩

theorem Expression.sameShape_place : ∀ (expression : Expression) (area : Area),
    Node.SameShape (.expression expression) (.expression (expression.place placing area))
  | .term value, _ => .refl (.expression (.term value))
  | .wildcard, _ => .refl (.expression .wildcard)
  | .call callee arguments, area =>
    .mk (by cases callee <;> rfl) (Expression.sameShape_allPlaced arguments area)
  | .aggregate _ argument _ _, area =>
    .mk rfl (.cons (Expression.sameShape_place argument area) .nil)
  | .existence _ input, area => .mk rfl (.cons (Operation.sameShape_place input area) .nil)

theorem Operation.sameShape_allPlaced : ∀ (operations : List Operation) (area : Area),
    List.Forall₂ Node.SameShape (operations.map .operation)
      ((Operation.allPlaced placing area operations).map .operation)
  | [], _ => .nil
  | operation :: rest, area =>
    .cons (Operation.sameShape_place operation area)
      (Operation.sameShape_allPlaced rest area)

theorem Expression.sameShape_allPlaced : ∀ (expressions : List Expression) (area : Area),
    List.Forall₂ Node.SameShape (expressions.map .expression)
      ((Expression.allPlaced placing area expressions).map .expression)
  | [], _ => .nil
  | expression :: rest, area =>
    .cons (Expression.sameShape_place expression area)
      (Expression.sameShape_allPlaced rest area)

theorem BoundAggregate.sameShape_allPlaced : ∀ (aggregates : List BoundAggregate) (area : Area),
    List.Forall₂ Node.SameShape (aggregates.map (.expression ·.expression))
      ((BoundAggregate.allPlaced placing area aggregates).map (.expression ·.expression))
  | [], _ => .nil
  | ⟨_, expression⟩ :: rest, area =>
    .cons (Expression.sameShape_place expression area)
      (BoundAggregate.sameShape_allPlaced rest area)

end

end

/-! ### Blank nodes -/

section

variable {placing : Placing Area} {placing' : Placing Area'}

private theorem labels_patterns {graph graph' : Term} (plain : graph.labels = [])
    (plain' : graph'.labels = []) (place : Place) (patterns : List Pattern) :
    (patterns.map (·.inGraph graph)).flatMap (Gather.ofLabels.pattern place)
      = (patterns.map (·.inGraph graph')).flatMap (Gather.ofLabels.pattern place) := by
  simp only [List.flatMap_map]
  refine congrArg (List.flatMap · patterns) (funext fun pattern => ?_)
  simp only [Gather.ofLabels, Pattern.inGraph, Pattern.terms, List.flatMap_cons, plain, plain']

mutual

/-- The blank nodes of an operation do not depend on graphs that have none. -/
theorem Operation.labels_place (plain : ∀ area, (placing.graph area).labels = [])
    (plain' : ∀ area, (placing'.graph area).labels = []) :
    ∀ (operation : Operation) (area : Area) (area' : Area'),
    (operation.place placing area).gather .ofLabels
      = (operation.place placing' area').gather .ofLabels
  | ⟨.bgp patterns, _⟩, area, area' =>
    congrArg (· ++ []) (labels_patterns (plain area) (plain' area') .bgp patterns)
  | ⟨.path subject _ object _, _⟩, area, area' => by
    show [] ++ (subject.labels ++ object.labels ++ (placing.graph area).labels)
      = [] ++ (subject.labels ++ object.labels ++ (placing'.graph area').labels)
    rw [plain, plain']
  | ⟨.values .., _⟩, _, _ | ⟨.nop, _⟩, _, _ | ⟨.manage _, _⟩, _, _
  | ⟨.deleteInsert .., _⟩, _, _ => rfl
  | ⟨.wrap _ input, _⟩, _, _ =>
    congrArg (· ++ []) (Operation.labels_place plain plain' input _ _)
  | ⟨.filter input condition, _⟩, area, area' =>
    congrArg₂ (fun input condition => input ++ condition ++ [])
      (Operation.labels_place plain plain' input area area')
      (Expression.labels_place plain plain' condition area area')
  | ⟨.extend input _ value, _⟩, _, _ =>
    congrArg₂ (fun input value => input ++ value ++ [])
      (Operation.labels_place plain plain' input _ _)
      (Expression.labels_place plain plain' value _ _)
  | ⟨.group input _ aggregates, _⟩, area, area' =>
    congrArg₂ (fun input aggregates => input ++ aggregates ++ [])
      (Operation.labels_place plain plain' input area area')
      (BoundAggregate.labels_allPlaced plain plain' aggregates area area')
  | ⟨.orderBy input keys, _⟩, area, area' =>
    congrArg₂ (fun input keys => input ++ keys ++ [])
      (Operation.labels_place plain plain' input area area')
      (Expression.labels_allPlaced plain plain' keys area area')
  | ⟨.construct input template, _⟩, area, area' =>
    congrArg₂ (fun input template => input ++ template ++ [])
      (Operation.labels_place plain plain' input area area')
      (labels_patterns (plain area) (plain' area') .template template)
  | ⟨.combine _ inputs, _⟩, area, area' =>
    congrArg (· ++ []) (Operation.labels_allPlaced plain plain' inputs area area')
  | ⟨.leftJoin left right none, _⟩, area, area' =>
    congrArg₂ (fun left right => left ++ right ++ [])
      (Operation.labels_place plain plain' left area area')
      (Operation.labels_place plain plain' right area area')
  | ⟨.leftJoin left right (some condition), _⟩, area, area' => by
    have sides := congrArg₂ (· ++ ·) (Operation.labels_place plain plain' left area area')
      (Operation.labels_place plain plain' right area area')
    exact congrArg₂ (fun sides condition => sides ++ condition ++ []) sides
      (Expression.labels_place plain plain' condition area area')
  | ⟨.minus left right, _⟩, area, area' =>
    congrArg₂ (fun left right => left ++ right ++ [])
      (Operation.labels_place plain plain' left area area')
      (Operation.labels_place plain plain' right area area')

theorem Expression.labels_place (plain : ∀ area, (placing.graph area).labels = [])
    (plain' : ∀ area, (placing'.graph area).labels = []) :
    ∀ (expression : Expression) (area : Area) (area' : Area'),
    (expression.place placing area).gather .ofLabels
      = (expression.place placing' area').gather .ofLabels
  | .term _, _, _ | .wildcard, _, _ => rfl
  | .call _ arguments, area, area' =>
    congrArg (· ++ []) (Expression.labels_allPlaced plain plain' arguments area area')
  | .aggregate _ argument _ _, area, area' =>
    congrArg (· ++ []) (Expression.labels_place plain plain' argument area area')
  | .existence _ input, area, area' =>
    congrArg (· ++ []) (Operation.labels_place plain plain' input area area')

theorem Operation.labels_allPlaced (plain : ∀ area, (placing.graph area).labels = [])
    (plain' : ∀ area, (placing'.graph area).labels = []) :
    ∀ (operations : List Operation) (area : Area) (area' : Area'),
    Operation.gatherAll .ofLabels (Operation.allPlaced placing area operations)
      = Operation.gatherAll .ofLabels (Operation.allPlaced placing' area' operations)
  | [], _, _ => rfl
  | operation :: rest, area, area' =>
    congrArg₂ (· ++ ·) (Operation.labels_place plain plain' operation area area')
      (Operation.labels_allPlaced plain plain' rest area area')

theorem Expression.labels_allPlaced (plain : ∀ area, (placing.graph area).labels = [])
    (plain' : ∀ area, (placing'.graph area).labels = []) :
    ∀ (expressions : List Expression) (area : Area) (area' : Area'),
    Expression.gatherAll .ofLabels (Expression.allPlaced placing area expressions)
      = Expression.gatherAll .ofLabels (Expression.allPlaced placing' area' expressions)
  | [], _, _ => rfl
  | expression :: rest, area, area' =>
    congrArg₂ (· ++ ·) (Expression.labels_place plain plain' expression area area')
      (Expression.labels_allPlaced plain plain' rest area area')

theorem BoundAggregate.labels_allPlaced (plain : ∀ area, (placing.graph area).labels = [])
    (plain' : ∀ area, (placing'.graph area).labels = []) :
    ∀ (aggregates : List BoundAggregate) (area : Area) (area' : Area'),
    BoundAggregate.gatherAll .ofLabels (BoundAggregate.allPlaced placing area aggregates)
      = BoundAggregate.gatherAll .ofLabels (BoundAggregate.allPlaced placing' area' aggregates)
  | [], _, _ => rfl
  | ⟨_, expression⟩ :: rest, area, area' =>
    congrArg₂ (· ++ ·) (Expression.labels_place plain plain' expression area area')
      (BoundAggregate.labels_allPlaced plain plain' rest area area')

end

private theorem replace_patterns {replace : String → Term} {graph : Term}
    (plain : graph.replaceBlanks replace = graph) (patterns : List Pattern) :
    (patterns.map (·.inGraph graph)).map ((Rebuild.ofBlanks replace).pattern .bgp)
      = (patterns.map ((Rebuild.ofBlanks replace).pattern .bgp)).map (·.inGraph graph) := by
  simp only [List.map_map]
  refine List.map_congr_left fun pattern _ => ?_
  show Pattern.mapTerms _ (Pattern.inGraph graph pattern)
    = Pattern.inGraph graph (Pattern.mapTerms _ pattern)
  simp only [Pattern.mapTerms, Pattern.inGraph, plain]

private theorem replace_template (replace : String → Term) (graph : Term)
    (patterns : List Pattern) :
    (patterns.map (·.inGraph graph)).map ((Rebuild.ofBlanks replace).pattern .template)
      = (patterns.map ((Rebuild.ofBlanks replace).pattern .template)).map (·.inGraph graph) := by
  rw [Rebuild.template_ofBlanks (by decide), Rebuild.template_ofBlanks (by decide)]

mutual

/-- Blank nodes are replaced in the same way whatever graphs are chosen, if these have none. -/
theorem Operation.replaceBlanks_place {replace : String → Term}
    (plain : ∀ area, (placing.graph area).replaceBlanks replace = placing.graph area) :
    ∀ (operation : Operation) (area : Area),
    (operation.place placing area).replaceBlanks replace
      = (operation.replaceBlanks replace).place placing area
  | ⟨.bgp patterns, metadata⟩, area =>
    congrArg (fun patterns => Operation.mk (.bgp patterns) metadata)
      (replace_patterns (plain area) patterns)
  | ⟨.path subject predicate object _, metadata⟩, area =>
    congrArg (fun graph => Operation.mk (.path (subject.replaceBlanks replace) predicate
      (object.replaceBlanks replace) graph) metadata) (plain area)
  | ⟨.values .., _⟩, _ | ⟨.nop, _⟩, _ | ⟨.manage _, _⟩, _ | ⟨.deleteInsert _ _ none, _⟩, _
  | ⟨.deleteInsert _ _ (some _), _⟩, _ => rfl
  | ⟨.wrap wrapper input, metadata⟩, _ =>
    congrArg (fun input => Operation.mk (.wrap wrapper input) metadata)
      (Operation.replaceBlanks_place plain input _)
  | ⟨.filter input condition, metadata⟩, area =>
    congrArg₂ (fun input condition => Operation.mk (.filter input condition) metadata)
      (Operation.replaceBlanks_place plain input area)
      (Expression.replaceBlanks_place plain condition area)
  | ⟨.extend input name value, metadata⟩, _ =>
    congrArg₂ (fun input value => Operation.mk (.extend input name value) metadata)
      (Operation.replaceBlanks_place plain input _)
      (Expression.replaceBlanks_place plain value _)
  | ⟨.group input keys aggregates, metadata⟩, area =>
    congrArg₂ (fun input aggregates => Operation.mk (.group input keys aggregates) metadata)
      (Operation.replaceBlanks_place plain input area)
      (BoundAggregate.replaceBlanks_allPlaced plain aggregates area)
  | ⟨.orderBy input keys, metadata⟩, area =>
    congrArg₂ (fun input keys => Operation.mk (.orderBy input keys) metadata)
      (Operation.replaceBlanks_place plain input area)
      (Expression.replaceBlanks_allPlaced plain keys area)
  | ⟨.construct input template, metadata⟩, area =>
    congrArg₂ (fun input template => Operation.mk (.construct input template) metadata)
      (Operation.replaceBlanks_place plain input area)
      (replace_template replace (placing.graph area) template)
  | ⟨.combine how inputs, metadata⟩, area =>
    congrArg (fun inputs => Operation.mk (.combine how inputs) metadata)
      (Operation.replaceBlanks_allPlaced plain inputs area)
  | ⟨.leftJoin left right none, metadata⟩, area =>
    congrArg₂ (fun left right => Operation.mk (.leftJoin left right none) metadata)
      (Operation.replaceBlanks_place plain left area)
      (Operation.replaceBlanks_place plain right area)
  | ⟨.leftJoin left right (some condition), metadata⟩, area => by
    have sides := congrArg₂ Prod.mk (Operation.replaceBlanks_place plain left area)
      (Operation.replaceBlanks_place plain right area)
    exact congrArg₂
      (fun sides condition => Operation.mk (.leftJoin sides.1 sides.2 (some condition)) metadata)
      sides (Expression.replaceBlanks_place plain condition area)
  | ⟨.minus left right, metadata⟩, area =>
    congrArg₂ (fun left right => Operation.mk (.minus left right) metadata)
      (Operation.replaceBlanks_place plain left area)
      (Operation.replaceBlanks_place plain right area)

theorem Expression.replaceBlanks_place {replace : String → Term}
    (plain : ∀ area, (placing.graph area).replaceBlanks replace = placing.graph area) :
    ∀ (expression : Expression) (area : Area),
    (expression.place placing area).rebuild (.ofBlanks replace)
      = (expression.rebuild (.ofBlanks replace)).place placing area
  | .term _, _ | .wildcard, _ => rfl
  | .call callee arguments, area =>
    congrArg (Expression.call callee) (Expression.replaceBlanks_allPlaced plain arguments area)
  | .aggregate name argument distinct separator, area =>
    congrArg (Expression.aggregate name · distinct separator)
      (Expression.replaceBlanks_place plain argument area)
  | .existence negated input, area =>
    congrArg (Expression.existence negated) (Operation.replaceBlanks_place plain input area)

theorem Operation.replaceBlanks_allPlaced {replace : String → Term}
    (plain : ∀ area, (placing.graph area).replaceBlanks replace = placing.graph area) :
    ∀ (operations : List Operation) (area : Area),
    Operation.rebuildAll (.ofBlanks replace) (Operation.allPlaced placing area operations)
      = Operation.allPlaced placing area (Operation.rebuildAll (.ofBlanks replace) operations)
  | [], _ => rfl
  | operation :: rest, area =>
    congrArg₂ List.cons (Operation.replaceBlanks_place plain operation area)
      (Operation.replaceBlanks_allPlaced plain rest area)

theorem Expression.replaceBlanks_allPlaced {replace : String → Term}
    (plain : ∀ area, (placing.graph area).replaceBlanks replace = placing.graph area) :
    ∀ (expressions : List Expression) (area : Area),
    Expression.rebuildAll (.ofBlanks replace) (Expression.allPlaced placing area expressions)
      = Expression.allPlaced placing area (Expression.rebuildAll (.ofBlanks replace) expressions)
  | [], _ => rfl
  | expression :: rest, area =>
    congrArg₂ List.cons (Expression.replaceBlanks_place plain expression area)
      (Expression.replaceBlanks_allPlaced plain rest area)

theorem BoundAggregate.replaceBlanks_allPlaced {replace : String → Term}
    (plain : ∀ area, (placing.graph area).replaceBlanks replace = placing.graph area) :
    ∀ (aggregates : List BoundAggregate) (area : Area),
    BoundAggregate.rebuildAll (.ofBlanks replace)
        (BoundAggregate.allPlaced placing area aggregates)
      = BoundAggregate.allPlaced placing area
        (BoundAggregate.rebuildAll (.ofBlanks replace) aggregates)
  | [], _ => rfl
  | ⟨name, expression⟩ :: rest, area =>
    congrArg₂ (fun expression => List.cons (BoundAggregate.mk name expression))
      (Expression.replaceBlanks_place plain expression area)
      (BoundAggregate.replaceBlanks_allPlaced plain rest area)

end

end

end QueryAlgebra
