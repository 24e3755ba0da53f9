import QueryAlgebra.Proofs.Lifting.MeetingQueries

/-! # Operations that can be written

Every well-formed operation of the default graph can be written, and what it is written as meets
demands, as does all that is found in it. The induction is over operations and expressions together;
the key of an order counts as its value, which alone is written.
-/

namespace QueryAlgebra

open Surface (BinaryOp Builtin Demands UnaryOp)

variable {bounds : Bounds} {demands : Demands}

/-- What an operation is written as meets demands. Only elements of a group are no query. -/
def Lifted.Meets (demands : Demands) (select : Bool) : Lifted → Prop
  | .elements patterns => select = false ∧ ∀ pattern ∈ patterns, pattern.Meets demands true
  | .query (.select asked) => asked.Meets demands
  | .query _ => False

namespace Lifted.Meets

variable {select : Bool} {lifted : Lifted}

theorem asElements (meets : lifted.Meets demands select) :
    Succeeds (fun patterns => ∀ pattern ∈ patterns, pattern.Meets demands true)
      lifted.asElements := by
  cases lifted with
  | elements patterns => exact meets.2
  | query asked =>
    cases asked with
    | select query => exact List.forall_mem_singleton.2 meets
    | _ => cases meets

/-- A query that shows variables. -/
theorem exists_select (meets : lifted.Meets demands true) :
    ∃ query, lifted = .query (.select query) ∧ query.Meets demands := by
  cases lifted with
  | elements patterns => cases meets.1
  | query asked =>
    cases asked with
    | select query => exact ⟨query, rfl, meets⟩
    | _ => cases meets

end Lifted.Meets

namespace Collecting.Finds

variable {step : Collecting Lifted} {select : Bool}

theorem asElements (finds : step.Finds demands (Lifted.Meets demands select)) :
    step.asElements.Finds demands fun patterns => ∀ pattern ∈ patterns, pattern.Meets demands true :=
  finds.bind fun _ meets => .lift meets.asElements

theorem asQuery (modifier : String) (finds : step.Finds demands (Lifted.Meets demands true)) :
    (step.asQuery modifier).Finds demands
      fun asked => ∃ query, asked = .select query ∧ query.Meets demands := by
  refine finds.bind fun lifted meets => ?_
  obtain ⟨query, rfl, ofQuery⟩ := meets.exists_select
  exact .pure ⟨query, rfl, ofQuery⟩

theorem asScope (finds : step.Finds demands (Lifted.Meets demands select)) :
    Succeeds (QueryScope.Meets demands) step.asScope :=
  Succeeds.bind finds.asElements fun (_, _) ⟨ofElements, ofFound⟩ =>
    QueryScope.succeeds_ofFound ofElements ofFound

end Collecting.Finds

/-! ### Operators -/

private theorem succeeds_ofSpecial (suffice : bounds.Suffice demands) {name : String}
    {arguments : List Surface.Expression} (takes : specialTakes name arguments.length = true)
    (meet : ∀ argument ∈ arguments, argument.Meets demands) :
    Succeeds (fun value => value.Meets demands) (Surface.Expression.ofSpecial name arguments) := by
  unfold specialTakes at takes
  unfold Surface.Expression.ofSpecial
  by_cases isIf : name = "if"
  · rw [if_pos isIf] at takes ⊢
    obtain ⟨condition, positive, negative, rfl⟩ := List.length_eq_three.1 (beq_iff_eq.1 takes)
    simp only [List.forall_mem_cons] at meet
    exact ⟨meet.1, meet.2.1, meet.2.2.1⟩
  rw [if_neg isIf] at takes ⊢
  by_cases isCoalesce : name = "coalesce"
  · rw [if_pos isCoalesce]
    exact Surface.Expression.allMeet_iff.2 meet
  rw [if_neg isCoalesce] at takes ⊢
  by_cases isMembership : name = "in" ∨ name = "notin"
  · rw [if_pos isMembership] at takes ⊢
    cases arguments with
    | nil => cases takes
    | cons value choices =>
      rw [List.forall_mem_cons] at meet
      exact ⟨meet.1, Surface.Expression.allMeet_iff.2 meet.2⟩
  rw [if_neg isMembership] at takes ⊢
  obtain ⟨function, found⟩ := Option.isSome_iff_exists.1 takes
  have own := Builtin.name_of_ofName? found
  have notDescending : name ≠ "desc" := by
    rintro rfl
    have unknown : Builtin.ofName? "desc" = none := by decide
    rw [unknown] at found
    cases found
  have anyCase : Builtin.ofAnyCase? name = some function := by
    rw [Builtin.ofAnyCase?, ← own, Builtin.toLower_name, own, found]
  rw [if_neg notDescending, anyCase]
  exact ⟨suffice.call function arguments.length, Surface.Expression.allMeet_iff.2 meet⟩

/-- An operator that takes its arguments can be written. -/
theorem succeeds_ofOperator (suffice : bounds.Suffice demands) {name : String}
    {arguments : List Surface.Expression} (takes : operatorTakes name arguments.length = true)
    (meet : ∀ argument ∈ arguments, argument.Meets demands) :
    Succeeds (fun value => value.Meets demands) (Surface.Expression.ofOperator name arguments) := by
  unfold operatorTakes at takes
  unfold Surface.Expression.ofOperator
  cases binary : BinaryOp.ofName? name with
  | some op =>
    simp only [binary, Option.isSome_some, if_true] at takes
    obtain ⟨left, right, rfl⟩ := List.length_eq_two.1 (beq_iff_eq.1 takes)
    simp only [List.forall_mem_cons] at meet
    exact ⟨meet.1, meet.2.1⟩
  | none =>
    simp only [binary, Option.isSome_none, Bool.false_eq_true, if_false] at takes
    cases unary : UnaryOp.ofName? name with
    | some op =>
      simp only [unary, Option.isSome_some, if_true] at takes
      obtain ⟨operand, rfl⟩ := List.length_eq_one_iff.1 (beq_iff_eq.1 takes)
      exact meet operand (List.mem_singleton_self operand)
    | none =>
      simp only [unary, Option.isSome_none, Bool.false_eq_true, if_false] at takes
      exact succeeds_ofSpecial suffice takes meet

namespace Expression

/-- The value of the key of an order, whatever its direction. -/
def keyValue : Expression → Expression
  | .call (.operator "desc") [argument] => argument
  | key => key

/-- An expression of a limited form is in no direction. -/
theorem keyValue_of_wellFormed (suffice : bounds.Suffice demands) {expression : Expression}
    (wellFormed : expression.WellFormed bounds false) : expression.keyValue = expression := by
  unfold keyValue
  split
  · rcases wellFormed.1 with ⟨isKey, _⟩ | takes
    · cases isKey
    · have unknown : operatorTakes "desc" 1 = false := by decide
      exact absurd (takes suffice.strict) (unknown ▸ Bool.false_ne_true)
  · rfl

theorem finds_of_keyValue (suffice : bounds.Suffice demands) {expression : Expression}
    (wellFormed : expression.WellFormed bounds false)
    (finds : expression.keyValue.written.Finds demands fun value => value.Meets demands) :
    expression.written.Finds demands fun value => value.Meets demands := by
  rwa [keyValue_of_wellFormed suffice wellFormed] at finds

theorem allOrderKeys_cons (key : Expression) (rest : List Expression) :
    ∃ direction, allOrderKeys (key :: rest)
      = .orderKey direction key.keyValue.written.outcome :: allOrderKeys rest := by
  unfold keyValue
  split
  · exact ⟨.descending, by rw [allOrderKeys]⟩
  · rename_i other
    exact ⟨.ascending, by rw [allOrderKeys]; exact other⟩

/-- Keys are found with their values. -/
theorem allOrderKeys_meet {keys : List Expression}
    (allFind : ∀ key ∈ keys, key.keyValue.written.Finds demands fun value => value.Meets demands) :
    ∀ entry ∈ allOrderKeys keys, entry.Meets demands := by
  induction keys with
  | nil =>
    rw [allOrderKeys]
    exact List.forall_mem_nil _
  | cons key rest ih =>
    rw [List.forall_mem_cons] at allFind
    obtain ⟨direction, same⟩ := allOrderKeys_cons key rest
    obtain ⟨⟨value, inside⟩, outcome, ofValue, ofInside⟩ := Succeeds.exists_ok allFind.1
    rw [same, outcome]
    exact List.forall_mem_cons.2 ⟨.orderKey direction ofValue ofInside, ih allFind.2⟩

theorem finds_allWritten {expressions : List Expression}
    (allFind : ∀ expression ∈ expressions,
      expression.written.Finds demands fun value => value.Meets demands) :
    (allWritten expressions).Finds demands fun values =>
      (∀ value ∈ values, value.Meets demands) ∧ values.length = expressions.length := by
  induction expressions with
  | nil =>
    rw [allWritten]
    exact .pure ⟨List.forall_mem_nil _, rfl⟩
  | cons first rest ih =>
    rw [List.forall_mem_cons] at allFind
    rw [allWritten]
    exact allFind.1.bind fun value meets => (ih allFind.2).bind fun others ⟨allMeet, sameLength⟩ =>
      .pure ⟨List.forall_mem_cons.2 ⟨meets, allMeet⟩, congrArg (· + 1) sameLength⟩

end Expression

theorem BoundAggregate.allFound_meet {aggregates : List BoundAggregate}
    (allFind : ∀ bound ∈ aggregates,
      bound.expression.written.Finds demands fun value => value.Meets demands) :
    ∀ entry ∈ allFound aggregates, entry.Meets demands := by
  induction aggregates with
  | nil =>
    rw [allFound]
    exact List.forall_mem_nil _
  | cons bound rest ih =>
    rw [List.forall_mem_cons] at allFind
    obtain ⟨⟨value, inside⟩, outcome, ofValue, ofInside⟩ := Succeeds.exists_ok allFind.1
    obtain ⟨name, expression⟩ := bound
    rw [allFound, show expression.written.outcome = _ from outcome]
    exact List.forall_mem_cons.2 ⟨.aggregate name ofValue ofInside, ih allFind.2⟩

theorem Operation.finds_allElements {operations : List Operation}
    (allFind : ∀ operation ∈ operations,
      (operation.written false).Finds demands (Lifted.Meets demands false)) :
    (allElements operations).Finds demands fun parts =>
      ∀ part ∈ parts, ∀ pattern ∈ part, pattern.Meets demands true := by
  induction operations with
  | nil =>
    rw [allElements]
    exact .pure (List.forall_mem_nil _)
  | cons operation rest ih =>
    rw [List.forall_mem_cons] at allFind
    rw [allElements]
    exact allFind.1.asElements.bind fun elements meet => (ih allFind.2).bind fun others allMeet =>
      .pure (List.forall_mem_cons.2 ⟨meet, allMeet⟩)

theorem Surface.Dataset.meets_ofNodes (suffice : bounds.Suffice demands)
    {default named : List NamedNode} (full : ∀ node ∈ default ++ named, node.IsFull bounds) :
    (Dataset.ofNodes default named).Meets demands := by
  rw [List.forall_mem_append] at full
  refine List.forall_mem_append.2 ⟨fun graph member => ?_, fun graph member => ?_⟩
  · obtain ⟨node, isNode, rfl⟩ := List.mem_map.1 member
    exact suffice.full node (full.1 node isNode)
  · obtain ⟨node, isNode, rfl⟩ := List.mem_map.1 member
    exact suffice.full node (full.2 node isNode)

/-! ### The induction -/

mutual

theorem Operation.finds_written (suffice : bounds.inDefault.Suffice demands) (inForm : Bool)
    {select : Bool} : ∀ operation : Operation,
    operation.WellFormed bounds.inDefault select →
    (operation.written inForm).Finds demands (Lifted.Meets demands select)
  | ⟨operator, _⟩, wellFormed => Operator.finds_written suffice inForm operator wellFormed

theorem Operator.finds_written (suffice : bounds.inDefault.Suffice demands) (inForm : Bool)
    {select : Bool} : ∀ operator : Operator,
    operator.WellFormed bounds.inDefault select →
    (operator.written inForm).Finds demands (Lifted.Meets demands select)
  | .bgp [], ⟨group, _⟩ => by
    rw [Operator.written]
    exact .pure ⟨group, List.forall_mem_nil _⟩
  | .bgp (first :: rest), ⟨group, wellFormed⟩ => by
    rw [Operator.written]
    · exact (Collecting.Finds.lift (Pattern.succeeds_allWritten suffice wellFormed)).bind
        fun triples meet => .pure ⟨group, List.forall_mem_singleton.2 meet⟩
    · exact nofun
  | .values vars rows, ⟨group, _, wellFormed⟩ => by
    rw [Operator.written]
    exact (Collecting.Finds.lift (Row.succeeds_allWritten suffice vars wellFormed)).bind
      fun rows meet => .pure ⟨group, List.forall_mem_singleton.2 meet⟩
  | .path subject predicate object graph, ⟨group, ofSubject, ofPredicate, ofObject, ofGraph⟩ => by
    rw [Operator.written, if_pos (Pattern.isDefaultGraph_of_inDefault ofGraph)]
    refine (Collecting.Finds.lift (Term.succeeds_written suffice ofSubject)).bind
      fun subject subjectMeets => ?_
    refine (Collecting.Finds.lift (Path.succeeds_written suffice predicate ofPredicate)).bind
      fun predicate predicateMeets => ?_
    refine (Collecting.Finds.lift (Term.succeeds_written suffice ofObject)).bind
      fun object objectMeets => .pure ⟨group, List.forall_mem_singleton.2 ?_⟩
    exact List.forall_mem_singleton.2 ⟨subjectMeets, ⟨nofun, predicateMeets⟩, objectMeets⟩
  | .wrap (.project vars) input, ⟨_, ofInput⟩ => by
    rw [Operator.written]
    exact (Collecting.Finds.lift (Operation.finds_written suffice true input ofInput).asScope).bind
      fun scope meets => .pure (meets.select _ vars)
  | .wrap (.graph name) input, ⟨group, ofName, ofInput⟩ => by
    rw [Operator.written]
    refine (Collecting.Finds.lift (Term.succeeds_writtenVarOrIri suffice ofName)).bind
      fun name nameMeets => ?_
    refine (Operation.finds_written suffice inForm input ofInput).asElements.bind fun elements meet =>
      .pure ⟨group, List.forall_mem_singleton.2 ?_⟩
    exact ⟨nameMeets, Surface.Pattern.meets_groupOf meet false⟩
  | .wrap (.service name silent) input, ⟨group, ofName, ofInput⟩ => by
    rw [Operator.written]
    refine (Collecting.Finds.lift (Term.succeeds_writtenVarOrIri suffice ofName)).bind
      fun name nameMeets => ?_
    refine (Operation.finds_written suffice false input ofInput).asElements.bind fun elements meet =>
      .pure ⟨group, List.forall_mem_singleton.2 ?_⟩
    exact ⟨nameMeets, Surface.Pattern.meets_groupOf meet false⟩
  | .wrap .distinct input, wellFormed => by
    rw [Operator.written]
    refine ((Operation.finds_written suffice false input wellFormed).asQuery "distinct").bind
      fun asked isSelect => ?_
    obtain ⟨⟨_, _, _, _, _⟩, rfl, meets⟩ := isSelect
    exact .pure meets
  | .wrap .reduced input, wellFormed => by
    rw [Operator.written]
    refine ((Operation.finds_written suffice false input wellFormed).asQuery "reduced").bind
      fun asked isSelect => ?_
    obtain ⟨⟨_, _, _, _, _⟩, rfl, meets⟩ := isSelect
    exact .pure meets
  | .wrap (.slice start length) input, wellFormed => by
    rw [Operator.written]
    refine ((Operation.finds_written suffice false input wellFormed).asQuery "slice").bind
      fun asked isSelect => ?_
    obtain ⟨query, rfl, meets⟩ := isSelect
    have ofQuery : (Surface.Query.select query).Meets demands := meets
    exact .pure (ofQuery.sliced start length)
  | .wrap (.dataset default named) input, ⟨nodes, ofInput⟩ => by
    rw [Operator.written]
    refine ((Operation.finds_written suffice false input ofInput).asQuery "from").bind
      fun asked isSelect => ?_
    obtain ⟨query, rfl, meets⟩ := isSelect
    have ofQuery : (Surface.Query.select query).Meets demands := meets
    exact .pure (ofQuery.withDataset (Surface.Dataset.meets_ofNodes suffice nodes))
  | .filter input condition, ⟨group, ofInput, ofCondition⟩ => by
    rw [Operator.written]
    refine (Operation.finds_written suffice false input ofInput).asElements.bind fun elements meet => ?_
    refine (Expression.finds_of_keyValue suffice ofCondition
      (Expression.finds_written suffice condition ofCondition)).bind fun condition meets =>
      .pure ⟨group, List.forall_mem_singleton.2 ?_⟩
    exact Surface.Pattern.allMeet_iff.2
      (List.forall_mem_append.2 ⟨meet, List.forall_mem_singleton.2 ⟨nofun, meets⟩⟩)
  | .extend input name value, ⟨group, ofInput, _, ofValue⟩ => by
    have found := Expression.finds_of_keyValue suffice ofValue
      (Expression.finds_written suffice value ofValue)
    rw [Operator.written]
    cases inForm with
    | true =>
      obtain ⟨⟨written, inside⟩, outcome, meets, ofInside⟩ := Succeeds.exists_ok found
      rw [if_pos rfl, outcome]
      exact .note (List.forall_mem_singleton.2 (.extension name meets ofInside))
        (group ▸ Operation.finds_written suffice true input ofInput)
    | false =>
      refine (Operation.finds_written suffice false input ofInput).asElements.bind fun elements meet => ?_
      refine found.bind fun value meets => .pure ⟨group, ?_⟩
      exact List.forall_mem_append.2 ⟨meet, List.forall_mem_singleton.2 ⟨nofun, meets⟩⟩
  | .group input keys aggregates, ⟨group, ofInput, _, ofAggregates⟩ => by
    rw [Operator.written]
    refine .note (List.forall_mem_append.2 ⟨fun entry member => ?_, ?_⟩)
      (group ▸ Operation.finds_written suffice false input ofInput)
    · obtain ⟨name, _, rfl⟩ := List.mem_map.1 member
      exact .groupKey name
    · exact BoundAggregate.allFound_meet (BoundAggregate.allFind suffice aggregates ofAggregates)
  | .orderBy input keys, ⟨group, ofInput, ofKeys⟩ => by
    rw [Operator.written]
    exact .note (Expression.allOrderKeys_meet (Expression.allFind suffice keys ofKeys))
      (group ▸ Operation.finds_written suffice inForm input ofInput)
  | .combine .join inputs, ⟨group, ofInputs⟩ => by
    rw [Operator.written]
    refine (Operation.finds_allElements (Operation.allFind suffice inputs ofInputs)).bind
      fun parts allMeet => .pure ⟨group, Surface.Pattern.meet_mergeTriples fun pattern member => ?_⟩
    obtain ⟨part, isPart, inPart⟩ := List.mem_flatten.1 member
    exact allMeet part isPart pattern inPart
  | .combine .union inputs, ⟨group, ofInputs⟩ => by
    rw [Operator.written]
    refine (Operation.finds_allElements (Operation.allFind suffice inputs ofInputs)).bind
      fun parts allMeet => .pure ⟨group, Surface.Pattern.meet_unionOf fun pattern member => ?_⟩
    obtain ⟨part, isPart, rfl⟩ := List.mem_map.1 member
    exact Surface.Pattern.meets_groupOf (allMeet part isPart)
  | .leftJoin left right none, ⟨group, ofLeft, ofRight⟩ => by
    rw [Operator.written, Expression.optionalFilter]
    refine (Operation.finds_written suffice false left ofLeft).asElements.bind fun elements meet => ?_
    refine (Operation.finds_written suffice false right ofRight).asElements.bind
      fun optional ofOptional => .pure ⟨group, ?_⟩
    refine List.forall_mem_append.2 ⟨meet, List.forall_mem_singleton.2 ⟨nofun, ?_⟩⟩
    exact Surface.Pattern.allMeet_iff.2
      (List.forall_mem_append.2 ⟨ofOptional, List.forall_mem_nil _⟩)
  | .leftJoin left right (some condition), ⟨group, ofLeft, ofRight, ofCondition⟩ => by
    rw [Operator.written, Expression.optionalFilter]
    refine (Operation.finds_written suffice false left ofLeft).asElements.bind fun elements meet => ?_
    refine (Operation.finds_written suffice false right ofRight).asElements.bind
      fun optional ofOptional => ?_
    refine Collecting.Finds.bind
      (P := fun filters => ∀ filter ∈ filters, Surface.Pattern.Meets demands true filter) ?_
      fun filters ofFilters => .pure ⟨group, ?_⟩
    · exact (Expression.finds_of_keyValue suffice ofCondition
        (Expression.finds_written suffice condition ofCondition)).bind
          fun value meets => .pure (List.forall_mem_singleton.2 ⟨nofun, meets⟩)
    · refine List.forall_mem_append.2 ⟨meet, List.forall_mem_singleton.2 ⟨nofun, ?_⟩⟩
      exact Surface.Pattern.allMeet_iff.2 (List.forall_mem_append.2 ⟨ofOptional, ofFilters⟩)
  | .minus left right, ⟨group, ofLeft, ofRight⟩ => by
    rw [Operator.written]
    refine (Operation.finds_written suffice false left ofLeft).asElements.bind fun elements meet => ?_
    refine (Operation.finds_written suffice false right ofRight).asElements.bind fun removed ofRemoved =>
      .pure ⟨group, List.forall_mem_append.2 ⟨meet, List.forall_mem_singleton.2 ⟨nofun, ?_⟩⟩⟩
    exact Surface.Pattern.meets_groupOf ofRemoved false

theorem Operation.allFind (suffice : bounds.inDefault.Suffice demands) :
    ∀ operations : List Operation,
    Operation.allWellFormed bounds.inDefault operations →
    ∀ operation ∈ operations, (operation.written false).Finds demands (Lifted.Meets demands false)
  | [], _ => List.forall_mem_nil _
  | operation :: rest, ⟨first, others⟩ => List.forall_mem_cons.2
    ⟨Operation.finds_written suffice false operation first, Operation.allFind suffice rest others⟩

theorem Expression.finds_written (suffice : bounds.inDefault.Suffice demands) {key : Bool} :
    ∀ expression : Expression,
    expression.WellFormed bounds.inDefault key →
    expression.keyValue.written.Finds demands fun value => value.Meets demands
  | .term value, isValue => by
    rw [Expression.keyValue, Expression.written]
    · exact .lift (Term.succeeds_writtenExpression suffice isValue)
    · exact nofun
  | .call (.operator name) arguments, ⟨takes, ofArguments⟩ => by
    have allFind : ∀ argument ∈ arguments,
        argument.written.Finds demands fun value => value.Meets demands := fun argument member =>
      Expression.finds_of_keyValue suffice (Expression.allWellFormed_iff.1 ofArguments _ member)
        (Expression.allFind suffice arguments ofArguments argument member)
    rcases takes with ⟨_, rfl, alone⟩ | takes
    · obtain ⟨argument, rfl⟩ := List.length_eq_one_iff.1 alone
      exact allFind argument (List.mem_singleton_self argument)
    · have wellFormed : Expression.WellFormed bounds.inDefault false
          (.call (.operator name) arguments) := ⟨.inr takes, ofArguments⟩
      rw [Expression.keyValue_of_wellFormed suffice wellFormed, Expression.written]
      refine (Expression.finds_allWritten allFind).bind fun values ⟨allMeet, sameLength⟩ => ?_
      exact .lift (succeeds_ofOperator suffice (sameLength ▸ takes suffice.strict) allMeet)
  | .call (.function name) arguments, ⟨full, ofArguments⟩ => by
    have allFind : ∀ argument ∈ arguments,
        argument.written.Finds demands fun value => value.Meets demands := fun argument member =>
      Expression.finds_of_keyValue suffice (Expression.allWellFormed_iff.1 ofArguments _ member)
        (Expression.allFind suffice arguments ofArguments argument member)
    rw [Expression.keyValue, Expression.written]
    · exact (Expression.finds_allWritten allFind).bind fun values ⟨allMeet, _⟩ =>
        .pure ⟨suffice.full name full, Surface.Expression.allMeet_iff.2 allMeet⟩
    · exact nofun
  | .aggregate name argument distinct separator, ⟨known, ofArgument⟩ => by
    obtain ⟨function, found⟩ := Option.isSome_iff_exists.1 known
    have aggregate : aggregateOf name = .ok function := by rw [aggregateOf, found]
    rw [Expression.keyValue, Expression.written, aggregate, Collecting.lift_ok, pure_bind]
    · by_cases wildcard : argument.isWildcard = true
      · rw [if_pos wildcard]
        exact .pure trivial
      · rw [if_neg wildcard]
        have ofValue : argument.WellFormed bounds.inDefault false :=
          ofArgument.resolve_left fun same => wildcard (same ▸ rfl)
        exact (Expression.finds_of_keyValue suffice ofValue
          (Expression.finds_written suffice argument ofValue)).bind fun value meets => .pure meets
    · exact nofun
  | .existence negated input, ofInput => by
    rw [Expression.keyValue, Expression.written]
    · exact (Operation.finds_written suffice false input ofInput).asElements.bind fun elements meet =>
        .pure (Surface.Pattern.meets_groupOf meet false)
    · exact nofun

theorem Expression.allFind (suffice : bounds.inDefault.Suffice demands) {key : Bool} :
    ∀ expressions : List Expression,
    Expression.allWellFormed bounds.inDefault key expressions →
    ∀ expression ∈ expressions,
      expression.keyValue.written.Finds demands fun value => value.Meets demands
  | [], _ => List.forall_mem_nil _
  | expression :: rest, ⟨first, others⟩ => List.forall_mem_cons.2
    ⟨Expression.finds_written suffice expression first, Expression.allFind suffice rest others⟩

theorem BoundAggregate.allFind (suffice : bounds.inDefault.Suffice demands) :
    ∀ aggregates : List BoundAggregate,
    BoundAggregate.allWellFormed bounds.inDefault aggregates →
    ∀ bound ∈ aggregates, bound.expression.written.Finds demands fun value => value.Meets demands
  | [], _ => List.forall_mem_nil _
  | ⟨_, expression⟩ :: rest, ⟨⟨_, ofExpression⟩, others⟩ => List.forall_mem_cons.2
    ⟨Expression.finds_of_keyValue suffice ofExpression
      (Expression.finds_written suffice expression ofExpression),
      BoundAggregate.allFind suffice rest others⟩

end

end QueryAlgebra
