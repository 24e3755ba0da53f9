import QueryAlgebra.Proofs.Lifting.GroupedSolutions
import QueryAlgebra.Proofs.Lifting.NormalForm
import QueryAlgebra.Proofs.Lifting.QueryNames
import QueryAlgebra.Proofs.Lowering.RenewedNames

/-! # Operations that come back when they are written and read

A `GroupedQuery` is given as a query is written: aggregates stand in the clauses that use them.
Its operation binds each of them once, to a variable that stands in the clauses instead.

`Part.IsSettled` says which patterns, expressions and queries, with all that is nested in them, are
put together as what is written for them is read. For every part there is a list of the variables
that aggregates are bound to in it, because these are not written: when the part is read, new ones
are taken. All other variables are known.
-/

namespace QueryAlgebra

/-! ### Queries with groups -/

/-- A query whose aggregates stand in its clauses, with the variables that they are bound to. -/
structure GroupedQuery extends PlainQuery where
  keys : List Variable
  aggregates : List BoundAggregate
  conditions : List Expression

/-- Whether a form shows variables. -/
def QueryForm.isSelect : QueryForm → Bool
  | .select .. => true
  | _ => false

/-- Solutions in groups, if there are keys or aggregates. -/
def Operation.groupedBy (keys : List Variable) (aggregates : List BoundAggregate)
    (operation : Operation) : Operation :=
  if keys.isEmpty && aggregates.isEmpty then operation else .of (.group operation keys aggregates)

namespace GroupedQuery

/-- The expressions of the clauses, in the order in which aggregates are taken out of them. -/
def expressions (query : GroupedQuery) : List Expression :=
  query.bindings.map (·.2) ++ (query.conditions ++ query.order.map (·.2))

/-- Whether the solutions of a query are grouped. -/
def isGrouped (query : GroupedQuery) : Bool :=
  !(query.keys.isEmpty && query.aggregates.isEmpty)

/-- The query over groups, with variables for aggregates. -/
def flat (query : GroupedQuery) : PlainQuery where
  form := query.form
  core := .kept (query.conditions.map (·.grouped query.aggregates))
    (query.core.groupedBy query.keys query.aggregates)
  bindings := query.bindings.map fun entry => (entry.1, entry.2.grouped query.aggregates)
  order := query.order.map fun key => (key.1, key.2.grouped query.aggregates)
  slice := query.slice
  dataset := query.dataset

/-- The operation of a query. -/
def operation (query : GroupedQuery) : Operation := query.flat.operation

/-- Whether the form is written with a star. Groups are written with the variables that are shown,
unless they are described. -/
def hasStar (query : GroupedQuery) : Bool :=
  query.shown.isEmpty && query.form.showsAll query.flat.solutions
    && !(query.isGrouped && query.form.isSelect)

/-- Whether the clauses of a query are as they are read, what is below and in them aside.

Each different aggregate is bound once, in the order in which they are met, and to a variable of its
own. Conditions are on aggregates. The form takes up its values last and in their order, and values
that are left go neither below groups nor below a filter. A star lists what is bound. -/
structure IsSettled (query : GroupedQuery) : Prop where
  form : query.form.isWritable = true
  graphs : ∀ graphs ∈ query.dataset, (graphs.1 ++ graphs.2).all NamedNode.isWritable = true
  nonempty : ∀ graphs ∈ query.dataset, graphs.1 ++ graphs.2 ≠ []
  slice : query.slice ≠ some (0, none)
  aggregates : query.aggregates.map (·.expression)
    = (query.expressions.flatMap (·.ownAggregates)).eraseDups
  distinct : (query.aggregates.map (·.name)).Nodup
  fresh : ∀ bound ∈ query.aggregates, bound.name ∉ query.core.outerVariables
    ∧ bound.name ∉ query.form.vars ∧ ∀ expression ∈ query.expressions,
      bound.name ∉ expression.ownVariables
  conditions : ∀ condition ∈ query.conditions, condition.ownAggregates ≠ []
  values : query.left ++ query.shown = query.bindings
  computed : ∀ entry ∈ query.bindings, entry.1 ∉ query.keys
  inside : query.left = [] ∨ query.isGrouped = false ∧ query.core.isFilter = false
  base : query.isGrouped = true ∨ query.core.extended = []
  star : query.hasStar = true → query.isGrouped = false
    ∧ query.form.showing (query.flat.solutions.bound.eraseDups.foldr Surface.insertStar [])
      = query.form

end GroupedQuery

/-! ### Parts of operations -/

/-- A pattern, an expression or a query. -/
inductive Part where
  | pattern (operation : Operation)
  | expression (expression : Expression)
  | query (query : GroupedQuery)

/-- Whether a part comes back when it is written and read, with new variables in place of those that
are listed, if graph names are not put into patterns. -/
inductive Part.IsSettled (known : Variable → Prop) : Part → List Variable → Prop where
  | bgp {patterns : List Pattern} (normal : (Operation.bgp patterns).isNormal = true)
    (isKnown : AllKnown known (Operation.bgp patterns).localNames) :
    IsSettled known (.pattern (.bgp patterns)) []
  | values {vars : List Variable} {rows : List Row}
    (normal : (Operation.of (.values vars rows)).isNormal = true)
    (isKnown : AllKnown known (Operation.of (.values vars rows)).localNames) :
    IsSettled known (.pattern (.of (.values vars rows))) []
  | path {subject object graph : Term} {predicate : Path}
    (normal : (Operation.of (.path subject predicate object graph)).isNormal = true)
    (isKnown : AllKnown known (Operation.of (.path subject predicate object graph)).localNames) :
    IsSettled known (.pattern (.of (.path subject predicate object graph))) []
  | graph {name : Term} {input : Operation} {names : List Variable}
    (writable : name.isWritableName = true) (isKnown : AllKnown known name.localNames)
    (ofInput : IsSettled known (.pattern input) names) :
    IsSettled known (.pattern (input.graph name)) names
  | service {name : Term} {silent : Bool} {input : Operation} {names : List Variable}
    (writable : name.isWritableName = true) (isKnown : AllKnown known name.localNames)
    (ofInput : IsSettled known (.pattern input) names) :
    IsSettled known (.pattern (.of (.wrap (.service name silent) input))) names
  | filter {input : Operation} {condition : Expression} {names more : List Variable}
    (ofInput : IsSettled known (.pattern input) names)
    (ofCondition : IsSettled known (.expression condition) more) :
    IsSettled known (.pattern (.of (.filter input condition))) (names ++ more)
  | extend {input : Operation} {name : Variable} {value : Expression} {names more : List Variable}
    (isKnown : known name) (ofInput : IsSettled known (.pattern input) names)
    (ofValue : IsSettled known (.expression value) more) :
    IsSettled known (.pattern (.of (.extend input name value))) (names ++ more)
  | join {inputs : List Operation} (namesOf : Operation → List Variable)
    (flat : Operation.joinsFlat inputs = true)
    (ofInputs : ∀ input ∈ inputs, IsSettled known (.pattern input) (namesOf input)) :
    IsSettled known (.pattern (.of (.combine .join inputs))) (inputs.flatMap namesOf)
  | union {inputs : List Operation} (namesOf : Operation → List Variable)
    (several : 2 ≤ inputs.length) (others : ∀ input ∈ inputs, input.isUnion = false)
    (ofInputs : ∀ input ∈ inputs, IsSettled known (.pattern input) (namesOf input)) :
    IsSettled known (.pattern (.of (.combine .union inputs))) (inputs.flatMap namesOf)
  | optional {left right : Operation} {names more : List Variable} (other : right.isFilter = false)
    (ofLeft : IsSettled known (.pattern left) names)
    (ofRight : IsSettled known (.pattern right) more) :
    IsSettled known (.pattern (.of (.leftJoin left right none))) (names ++ more)
  | conditional {left right : Operation} {condition : Expression} {names more rest : List Variable}
    (ofLeft : IsSettled known (.pattern left) names)
    (ofRight : IsSettled known (.pattern right) more)
    (ofCondition : IsSettled known (.expression condition) rest) :
    IsSettled known (.pattern (.of (.leftJoin left right (some condition))))
      (names ++ (more ++ rest))
  | minus {left right : Operation} {names more : List Variable}
    (ofLeft : IsSettled known (.pattern left) names)
    (ofRight : IsSettled known (.pattern right) more) :
    IsSettled known (.pattern (.of (.minus left right))) (names ++ more)
  | subquery {query : GroupedQuery} {names : List Variable} (shows : query.form.isSelect = true)
    (ofQuery : IsSettled known (.query query) names) :
    IsSettled known (.pattern query.operation) names
  | term {value : Term} (normal : (Expression.term value).isNormal = true)
    (isKnown : AllKnown known value.localNames) :
    IsSettled known (.expression (.term value)) []
  | operatorCall {name : String} {arguments : List Expression}
    (namesOf : Expression → List Variable) (takes : operatorTakes name arguments.length = true)
    (ofArguments : ∀ argument ∈ arguments,
      IsSettled known (.expression argument) (namesOf argument)) :
    IsSettled known (.expression (.call (.operator name) arguments))
      (arguments.flatMap namesOf)
  | functionCall {name : NamedNode} {arguments : List Expression}
    (namesOf : Expression → List Variable) (writable : name.isWritable = true)
    (ofArguments : ∀ argument ∈ arguments,
      IsSettled known (.expression argument) (namesOf argument)) :
    IsSettled known (.expression (.call (.function name) arguments))
      (arguments.flatMap namesOf)
  | aggregate {name : String} {argument : Expression} {distinct : Bool} {separator : Option String}
    {names : List Variable} (function : (Surface.AggregateFunction.ofName? name).isSome = true)
    (ofArgument : IsSettled known (.expression argument) names) :
    IsSettled known (.expression (.aggregate name argument distinct separator)) names
  | aggregateOfAll {name : String} {distinct : Bool} {separator : Option String}
    (function : (Surface.AggregateFunction.ofName? name).isSome = true) :
    IsSettled known (.expression (.aggregate name .wildcard distinct separator)) []
  | existence {negated : Bool} {input : Operation} {names : List Variable}
    (ofInput : IsSettled known (.pattern input) names) :
    IsSettled known (.expression (.existence negated input)) names
  | query {query : GroupedQuery} {names : List Variable} (namesOf : Expression → List Variable)
    (settled : query.IsSettled) (ofForm : AllKnown known query.form.localNames)
    (ofKeys : ∀ name ∈ query.keys, known name) (ofValues : ∀ entry ∈ query.bindings, known entry.1)
    (ofCore : IsSettled known (.pattern query.core) names)
    (ofExpressions : ∀ expression ∈ query.expressions,
      IsSettled known (.expression expression) (namesOf expression)) :
    IsSettled known (.query query)
      (names ++ (query.expressions.flatMap namesOf ++ query.aggregates.map (·.name)))

/-! ### Normal forms -/

section

variable {known : Variable → Prop}

theorem AllKnown.append {names more : List LocalName} (isKnown : AllKnown known (names ++ more)) :
    AllKnown known names ∧ AllKnown known more :=
  ⟨fun name member => isKnown name (List.mem_append_left _ member),
    fun name member => isKnown name (List.mem_append_right _ member)⟩

private theorem AllKnown.of_mem {α : Type} {members : List α} {namesOf : α → List LocalName}
    (isKnown : AllKnown known (members.flatMap namesOf)) {member : α}
    (isMember : member ∈ members) :
    AllKnown known (namesOf member) :=
  fun name isName => isKnown name (List.mem_flatMap_of_mem isMember isName)

private theorem AllKnown.ofArguments {arguments : List Expression}
    (isKnown : AllKnown known (Expression.gatherAll .ofLocalNames arguments)) :
    ∀ argument ∈ arguments, AllKnown known argument.localNames := by
  induction arguments with
  | nil => exact List.forall_mem_nil _
  | cons first rest ih =>
    exact List.forall_mem_cons.2 ⟨isKnown.append.1, ih isKnown.append.2⟩

private theorem flatMap_none {α : Type} (members : List α) :
    members.flatMap (fun _ => ([] : List Variable)) = [] := by
  simp

/-- Nothing is taken anew for an operation or an expression in normal form. -/
theorem Part.normalInduction (known : Variable → Prop) : NormalInduction
    (fun operation => AllKnown known operation.localNames →
      Part.IsSettled known (.pattern operation) [])
    (fun expression => AllKnown known expression.localNames →
      Part.IsSettled known (.expression expression) []) where
  bgp _ normal isKnown := .bgp normal isKnown
  values _ _ normal isKnown := .values normal isKnown
  path _ _ _ _ normal isKnown := .path normal isKnown
  graph _ _ normal input isKnown :=
    .graph (Bool.and_eq_true_iff.1 normal).1 (isKnown.append.2.of_mem (List.mem_singleton_self _))
      (input isKnown.append.1)
  service _ _ _ normal input isKnown :=
    .service (Bool.and_eq_true_iff.1 normal).1
      (isKnown.append.2.of_mem (List.mem_singleton_self _)) (input isKnown.append.1)
  filter _ _ _ input condition isKnown := by
    rw [Operation.of, Operation.localNames_filter] at isKnown
    exact .filter (input isKnown.append.1) (condition isKnown.append.2)
  extend _ name _ _ input value isKnown := by
    rw [Operation.of, Operation.localNames_extend] at isKnown
    exact .extend (isKnown.append.2 name (List.mem_singleton_self _))
      (input isKnown.append.1.append.1) (value isKnown.append.1.append.2)
  join inputs normal ofInputs isKnown := by
    rw [Operation.of, Operation.localNames_combine] at isKnown
    have whole := Part.IsSettled.join (fun _ => []) (Bool.and_eq_true_iff.1 normal).1
      fun input member => ofInputs input member (isKnown.of_mem member)
    rwa [flatMap_none] at whole
  union inputs normal ofInputs isKnown := by
    rw [Operation.of, Operation.localNames_combine] at isKnown
    have conditions : (decide (2 ≤ inputs.length) && inputs.all (!·.isUnion)
      && Operation.allNormal inputs) = true := normal
    simp only [Bool.and_eq_true, decide_eq_true_eq, List.all_eq_true, Bool.not_eq_true']
      at conditions
    have whole := Part.IsSettled.union (fun _ => []) conditions.1.1 conditions.1.2
      fun input member => ofInputs input member (isKnown.of_mem member)
    rwa [flatMap_none] at whole
  optional left right normal ofLeft ofRight isKnown := by
    rw [Operation.of, Operation.localNames_leftJoin, Option.toList_none, List.flatMap_nil,
      List.append_nil] at isKnown
    have other : (!right.isFilter) = true := (Bool.and_eq_true_iff.1 normal).2
    exact .optional (by simpa using other) (ofLeft isKnown.append.1) (ofRight isKnown.append.2)
  conditional left right condition _ ofLeft ofRight ofCondition isKnown := by
    rw [Operation.of, Operation.localNames_leftJoin, Option.toList_some,
      List.flatMap_singleton] at isKnown
    exact .conditional (ofLeft isKnown.append.1.append.1) (ofRight isKnown.append.1.append.2)
      (ofCondition isKnown.append.2)
  minus _ _ _ left right isKnown := by
    rw [Operation.of, Operation.localNames_minus] at isKnown
    exact .minus (left isKnown.append.1) (right isKnown.append.2)
  term _ normal isKnown := .term normal (isKnown.of_mem (List.mem_singleton_self _))
  call callee arguments normal ofArguments isKnown := by
    have inArguments := AllKnown.ofArguments isKnown.append.1
    cases callee with
    | operator name =>
      have whole := Part.IsSettled.operatorCall (fun _ => [])
        (Bool.and_eq_true_iff.1 normal).1 fun argument member =>
          ofArguments argument member (inArguments argument member)
      rwa [flatMap_none] at whole
    | function name =>
      have whole := Part.IsSettled.functionCall (fun _ => [])
        (Bool.and_eq_true_iff.1 normal).1 fun argument member =>
          ofArguments argument member (inArguments argument member)
      rwa [flatMap_none] at whole
  existence _ _ _ input isKnown := .existence (input isKnown.append.1)

end

/-- An operation in normal form is settled, and nothing is taken anew for it. -/
theorem Part.isSettled_of_isNormal {known : Variable → Prop} {operation : Operation}
    (normal : operation.isNormal = true) (isKnown : AllKnown known operation.localNames) :
    Part.IsSettled known (.pattern operation) [] :=
  (Part.normalInduction known).operation operation normal isKnown

end QueryAlgebra
