import QueryAlgebra.Iri
import QueryAlgebra.Lowering.Pattern

/-! # The IRIs of operations

IRIs stand in terms and as datatypes of literals, in property paths, where functions are called,
and where graphs, services and datasets are named. `Operation.iris` lists all of them, and
`AllAbsolute` says of a list that none of them is relative.

The operators that patterns and queries are made of keep the IRIs of their parts and add none.
-/

namespace QueryAlgebra

/-- The IRI that a term is, or that is its datatype. -/
def Term.ownIris : Term → List NamedNode
  | .iri node => [node]
  | .literal value => [value.datatype]
  | _ => []

/-- The IRIs of a term and of the terms inside it. -/
def Term.iris (term : Term) : List NamedNode := term.nested.flatMap ownIris

mutual

/-- The IRIs of a path. -/
def Path.iris : Path → List NamedNode
  | .link predicate => [predicate]
  | .inverse path => path.iris
  | .seq steps => Path.irisOfAll steps
  | .alt branches => Path.irisOfAll branches
  | .zeroOrMore path => path.iris
  | .oneOrMore path => path.iris
  | .zeroOrOne path => path.iris
  | .negated predicates => predicates

/-- The IRIs of paths. -/
def Path.irisOfAll : List Path → List NamedNode
  | [] => []
  | path :: rest => path.iris ++ Path.irisOfAll rest

end

/-- The IRI of a graph. -/
def GraphTarget.iris : GraphTarget → List NamedNode
  | .graph name => [name]
  | _ => []

/-- The IRIs of an update of whole graphs. -/
def GraphAction.iris : GraphAction → List NamedNode
  | .load source destination _ => source :: destination.toList
  | .clear target _ => target.iris
  | .drop target _ => target.iris
  | .create graph _ => [graph]
  | .transfer _ source destination _ => source.iris ++ destination.iris

/-- The IRIs of a pattern. -/
def Pattern.iris (pattern : Pattern) : List NamedNode := pattern.terms.flatMap Term.iris

/-- The IRIs of an operator's own. -/
def Operator.ownIris : Operator → List NamedNode
  | .path subject predicate object graph =>
    predicate.iris ++ [subject, object, graph].flatMap Term.iris
  | .manage action => action.iris
  | .wrap (.dataset default named) _ => default ++ named
  | operator => operator.ownTerms.flatMap Term.iris

/-- The IRIs of an expression's own. -/
def Expression.ownIris : Expression → List NamedNode
  | .term value => value.iris
  | .call (.function name) _ => [name]
  | _ => []

/-- Gathers all IRIs. -/
def Gather.allIris : Gather NamedNode where
  closed := fun _ => false
  pattern := fun _ => Pattern.iris
  expression := Expression.ownIris
  operator := Operator.ownIris

/-- The IRIs of an operation. -/
def Operation.iris (operation : Operation) : List NamedNode := operation.gather .allIris

/-- The IRIs of an expression. -/
def Expression.iris (expression : Expression) : List NamedNode := expression.gather .allIris

/-- All IRIs of a list are absolute. -/
def AllAbsolute (iris : List NamedNode) : Prop := ∀ node ∈ iris, Iri.isAbsolute node.iri = true

namespace AllAbsolute

variable {first second : List NamedNode}

@[simp] theorem nil : AllAbsolute [] := List.forall_mem_nil _

@[simp] theorem cons {node : NamedNode} {rest : List NamedNode} :
    AllAbsolute (node :: rest) ↔ Iri.isAbsolute node.iri = true ∧ AllAbsolute rest :=
  List.forall_mem_cons

@[simp] theorem append :
    AllAbsolute (first ++ second) ↔ AllAbsolute first ∧ AllAbsolute second :=
  List.forall_mem_append

theorem flatMap {α : Type} {iris : α → List NamedNode} {parts : List α} :
    AllAbsolute (parts.flatMap iris) ↔ ∀ part ∈ parts, AllAbsolute (iris part) := by
  simp only [AllAbsolute, List.mem_flatMap]
  exact ⟨fun all part member node isIri => all node ⟨part, member, isIri⟩,
    fun all node ⟨part, member, isIri⟩ => all part member node isIri⟩

@[simp] theorem quad {subject predicate object graph : Term} :
    AllAbsolute (Term.quad subject predicate object graph).iris
      ↔ AllAbsolute subject.iris ∧ AllAbsolute predicate.iris ∧ AllAbsolute object.iris
        ∧ AllAbsolute graph.iris := by
  simp [Term.iris, Term.nested, Term.ownIris]

@[simp] theorem pattern {subject predicate object graph : Term} :
    AllAbsolute (Pattern.iris ⟨subject, predicate, object, graph⟩)
      ↔ AllAbsolute subject.iris ∧ AllAbsolute predicate.iris ∧ AllAbsolute object.iris
        ∧ AllAbsolute graph.iris := by
  simp [Pattern.iris, Pattern.terms]

@[simp] theorem var (name : Variable) : AllAbsolute (Term.var name).iris := nil

theorem varExpression (name : Variable) : AllAbsolute (Expression.var name).iris := nil

theorem operation {operator : Operator} {metadata : Option Metadata} :
    AllAbsolute (Operation.iris ⟨operator, metadata⟩)
      ↔ AllAbsolute (operator.gather .allIris) ∧ AllAbsolute operator.ownIris := append

theorem bgp {patterns : List Pattern} :
    AllAbsolute (Operation.bgp patterns).iris ↔ ∀ pattern ∈ patterns, AllAbsolute pattern.iris := by
  rw [Operation.bgp, Operation.of, operation]
  exact ⟨fun ⟨all, _⟩ => flatMap.1 all, fun all => ⟨flatMap.2 all, nil⟩⟩

theorem empty : AllAbsolute (Operation.bgp []).iris := bgp.2 (List.forall_mem_nil _)

theorem expressions {expressions : List Expression} :
    AllAbsolute (Expression.gatherAll .allIris expressions)
      ↔ ∀ expression ∈ expressions, AllAbsolute expression.iris := by
  induction expressions with
  | nil => simp [Expression.gatherAll]
  | cons expression rest ih =>
    rw [Expression.gatherAll, append, ih, List.forall_mem_cons, Expression.iris]

theorem aggregates {aggregates : List BoundAggregate} :
    AllAbsolute (BoundAggregate.gatherAll .allIris aggregates)
      ↔ ∀ bound ∈ aggregates, AllAbsolute bound.expression.iris := by
  induction aggregates with
  | nil => simp [BoundAggregate.gatherAll]
  | cons bound rest ih =>
    obtain ⟨name, expression⟩ := bound
    rw [BoundAggregate.gatherAll, append, ih, List.forall_mem_cons, Expression.iris]

theorem operations {operations : List Operation} :
    AllAbsolute (Operation.gatherAll .allIris operations)
      ↔ ∀ operation ∈ operations, AllAbsolute operation.iris := by
  induction operations with
  | nil => simp [Operation.gatherAll]
  | cons operation rest ih =>
    rw [Operation.gatherAll, append, ih, List.forall_mem_cons, Operation.iris]

/-! ### Operators -/

section

variable {input left right : Operation} {condition value : Expression}

theorem call {callee : Callee} {arguments : List Expression} :
    AllAbsolute (Expression.call callee arguments).iris
      ↔ (∀ argument ∈ arguments, AllAbsolute argument.iris)
        ∧ AllAbsolute (Expression.call callee []).iris :=
  append.trans (and_congr expressions (by cases callee <;> rfl))

theorem operator {name : String} {arguments : List Expression}
    (ofArguments : ∀ argument ∈ arguments, AllAbsolute argument.iris) :
    AllAbsolute (Expression.operator name arguments).iris :=
  call.2 ⟨ofArguments, nil⟩

theorem filter (ofInput : AllAbsolute input.iris) (ofCondition : AllAbsolute condition.iris) :
    AllAbsolute (Operation.of (.filter input condition)).iris :=
  operation.2 ⟨append.2 ⟨ofInput, ofCondition⟩, nil⟩

theorem extend (ofInput : AllAbsolute input.iris) (name : Variable)
    (ofValue : AllAbsolute value.iris) :
    AllAbsolute (Operation.of (.extend input name value)).iris :=
  operation.2 ⟨append.2 ⟨ofInput, ofValue⟩, nil⟩

theorem wrap {wrapper : Wrapper} (ofInput : AllAbsolute input.iris)
    (own : AllAbsolute (Operator.wrap wrapper input).ownIris) :
    AllAbsolute (Operation.of (.wrap wrapper input)).iris :=
  operation.2 ⟨ofInput, own⟩

theorem group (ofInput : AllAbsolute input.iris) (keys : List Variable)
    {bound : List BoundAggregate}
    (ofAggregates : ∀ aggregate ∈ bound, AllAbsolute aggregate.expression.iris) :
    AllAbsolute (Operation.of (.group input keys bound)).iris := by
  refine operation.2
    ⟨append.2 ⟨ofInput, aggregates.2 ofAggregates⟩, flatMap.2 fun term member => ?_⟩
  rcases List.mem_append.1 member with isKey | isName
  · obtain ⟨name, -, rfl⟩ := List.mem_map.1 isKey
    exact var name
  · obtain ⟨aggregate, -, rfl⟩ := List.mem_map.1 isName
    exact var aggregate.name

theorem orderBy (ofInput : AllAbsolute input.iris) {keys : List Expression}
    (ofKeys : ∀ key ∈ keys, AllAbsolute key.iris) :
    AllAbsolute (Operation.of (.orderBy input keys)).iris :=
  operation.2 ⟨append.2 ⟨ofInput, expressions.2 ofKeys⟩, nil⟩

theorem construct (ofInput : AllAbsolute input.iris) {template : List Pattern}
    (ofTemplate : ∀ pattern ∈ template, AllAbsolute pattern.iris) :
    AllAbsolute (Operation.of (.construct input template)).iris :=
  operation.2 ⟨append.2 ⟨ofInput, flatMap.2 ofTemplate⟩, nil⟩

theorem minus (ofLeft : AllAbsolute left.iris) (ofRight : AllAbsolute right.iris) :
    AllAbsolute (Operation.of (.minus left right)).iris :=
  operation.2 ⟨append.2 ⟨ofLeft, ofRight⟩, nil⟩

theorem parts {whole : Operation} (how : Combination) (absolute : AllAbsolute whole.iris) :
    ∀ part ∈ whole.parts how, AllAbsolute part.iris := by
  unfold Operation.parts
  split
  · split
    · exact operations.1 (operation.1 absolute).1
    · exact List.forall_mem_singleton.2 absolute
  · exact List.forall_mem_singleton.2 absolute

theorem combine {how : Combination} {inputs : List Operation}
    (ofInputs : ∀ input ∈ inputs, AllAbsolute input.iris) :
    AllAbsolute (Operation.of (.combine how inputs)).iris :=
  operation.2 ⟨operations.2 ofInputs, nil⟩

theorem join {inputs : List Operation} (ofInputs : ∀ input ∈ inputs, AllAbsolute input.iris) :
    AllAbsolute (Operation.join inputs).iris :=
  combine fun part member => by
    obtain ⟨input, isInput, ofInput⟩ := List.mem_flatMap.1 member
    exact parts .join (ofInputs input isInput) part ofInput

theorem union {inputs : List Operation} (ofInputs : ∀ input ∈ inputs, AllAbsolute input.iris) :
    AllAbsolute (Operation.union inputs).iris :=
  combine fun part member => by
    obtain ⟨input, isInput, ofInput⟩ := List.mem_flatMap.1 member
    exact parts .union (ofInputs input isInput) part ofInput

theorem simplifiedJoin (ofLeft : AllAbsolute left.iris) (ofRight : AllAbsolute right.iris) :
    AllAbsolute (QueryAlgebra.simplifiedJoin left right).iris := by
  unfold QueryAlgebra.simplifiedJoin
  split
  · exact bgp.2 (List.forall_mem_append.2 ⟨bgp.1 ofLeft, bgp.1 ofRight⟩)
  · split
    · exact ofRight
    · split
      · exact ofLeft
      · exact join (List.forall_mem_cons.2 ⟨ofLeft, List.forall_mem_singleton.2 ofRight⟩)

theorem leftJoinOf (ofLeft : AllAbsolute left.iris) (ofRight : AllAbsolute right.iris) :
    AllAbsolute (QueryAlgebra.leftJoinOf left right).iris := by
  unfold QueryAlgebra.leftJoinOf
  split
  · obtain ⟨ofInput, ofCondition⟩ := append.1 (operation.1 ofRight).1
    exact operation.2 ⟨append.2 ⟨append.2 ⟨ofLeft, ofInput⟩, ofCondition⟩, nil⟩
  · exact operation.2 ⟨append.2 ⟨ofLeft, ofRight⟩, nil⟩

theorem filtered (ofInput : AllAbsolute input.iris) {filters : List Expression}
    (ofFilters : ∀ filter ∈ filters, AllAbsolute filter.iris) :
    AllAbsolute (QueryAlgebra.filtered input filters).iris := by
  have conjunction : ∀ {rest : List Expression} {all : Expression},
      (∀ next ∈ rest, AllAbsolute next.iris) → AllAbsolute all.iris →
      AllAbsolute (rest.foldl (fun all next => .operator "&&" [all, next]) all).iris := by
    intro rest all ofRest ofAll
    induction rest generalizing all with
    | nil => exact ofAll
    | cons next rest ih =>
      rw [List.forall_mem_cons] at ofRest
      exact ih ofRest.2
        (operator (List.forall_mem_cons.2 ⟨ofAll, List.forall_mem_singleton.2 ofRest.1⟩))
  cases filters with
  | nil => exact ofInput
  | cons first rest =>
    rw [List.forall_mem_cons] at ofFilters
    exact filter ofInput (conjunction ofFilters.2 ofFilters.1)

theorem orderKey (direction : Surface.Direction) (ofKey : AllAbsolute value.iris) :
    AllAbsolute (Context.orderKey direction value).iris := by
  cases direction with
  | ascending => exact ofKey
  | descending => exact operator (List.forall_mem_singleton.2 ofKey)

theorem conditions (ofInput : AllAbsolute input.iris) {conditions : List Expression}
    (ofConditions : ∀ condition ∈ conditions, AllAbsolute condition.iris) :
    AllAbsolute (conditions.foldl
      (fun operation condition => .of (.filter operation condition)) input).iris := by
  induction conditions generalizing input with
  | nil => exact ofInput
  | cons condition rest ih =>
    rw [List.forall_mem_cons] at ofConditions
    exact ih (filter ofInput ofConditions.1) ofConditions.2

theorem computed (ofInput : AllAbsolute input.iris)
    {selected : List (Variable × Option Expression)}
    (ofSelected : ∀ item ∈ selected, ∀ value ∈ item.2, AllAbsolute value.iris) :
    AllAbsolute (Context.computed selected input).iris := by
  unfold Context.computed
  induction selected generalizing input with
  | nil => exact ofInput
  | cons item rest ih =>
    rw [List.forall_mem_cons] at ofSelected
    refine ih ?_ ofSelected.2
    obtain ⟨name, value⟩ := item
    cases value with
    | none => exact ofInput
    | some value => exact extend ofInput name (ofSelected.1 value rfl)

theorem withDuplicates (duplicates : Surface.Duplicates) (ofInput : AllAbsolute input.iris) :
    AllAbsolute (Context.withDuplicates duplicates input).iris := by
  cases duplicates with
  | keep => exact ofInput
  | distinct | reduced => exact wrap ofInput nil

theorem sliced (limit offset : Option Nat) (ofInput : AllAbsolute input.iris) :
    AllAbsolute (Context.sliced limit offset input).iris := by
  unfold Context.sliced
  split
  · exact ofInput
  · exact wrap ofInput nil

theorem project (ofInput : AllAbsolute input.iris) (vars : List Variable) :
    AllAbsolute (Operation.of (.wrap (.project vars) input)).iris := by
  refine wrap ofInput (flatMap.2 fun term member => ?_)
  obtain ⟨name, -, rfl⟩ := List.mem_map.1 member
  exact var name

end

end AllAbsolute

end QueryAlgebra
