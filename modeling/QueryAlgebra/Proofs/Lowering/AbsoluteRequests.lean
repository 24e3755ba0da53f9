import QueryAlgebra.Proofs.Lowering.AbsolutePasses
import QueryAlgebra.Proofs.Lowering.Translation
import QueryAlgebra.Proofs.Lowering.WellFormedRequests

/-! # What requests become has absolute IRIs

Over no base or an absolute one, every pattern, query and update of a request becomes an operation
whose IRIs are absolute. Declarations keep it so, as a base that is declared is absolute once it is
resolved, and turning blank nodes into variables brings no IRIs: `Context.absolute_request`.
-/

namespace QueryAlgebra

open Lowering (Yields)

namespace Context

variable {context : Context}

/-! ### Clauses -/

theorem absolute_callee (grounded : context.IsGrounded) {function : Surface.Function}
    {callee : Callee} (success : context.callee function = .ok callee) :
    AllAbsolute (Expression.call callee []).iris := by
  cases function with
  | builtin function => cases success; exact .nil
  | named iri =>
    rw [Context.callee] at success
    obtain ⟨node, isNode, success⟩ := ok_of_bind success
    cases success
    exact AllAbsolute.cons.2 ⟨absolute_namedNode grounded isNode, .nil⟩

theorem absolute_overDataset (grounded : context.IsGrounded) (dataset : Option Surface.Dataset)
    {operation result : Operation} (absolute : AllAbsolute operation.iris)
    (success : context.overDataset dataset operation = .ok result) : AllAbsolute result.iris := by
  cases dataset with
  | none => cases success; exact absolute
  | some dataset =>
    rw [overDataset] at success
    split at success
    · cases success; exact absolute
    · obtain ⟨default, areDefault, success⟩ := ok_of_bind success
      obtain ⟨named, areNamed, success⟩ := ok_of_bind success
      cases success
      exact AllAbsolute.wrap absolute (AllAbsolute.append.2
        ⟨absolute_namedNodes grounded areDefault, absolute_namedNodes grounded areNamed⟩)

theorem absolute_joinedWith (grounded : context.IsGrounded) (values : Option Surface.InlineData)
    {operation : Operation} (absolute : AllAbsolute operation.iris) :
    Yields (fun result : Operation => AllAbsolute result.iris)
      (context.joinedWith values operation) := by
  cases values with
  | none => exact .pure absolute
  | some data =>
    rw [joinedWith]
    exact (absolute_inlineData grounded data).bind fun table ofTable => .pure
      (AllAbsolute.join (List.forall_mem_cons.2 ⟨absolute, List.forall_mem_singleton.2 ofTable⟩))

/-! ### Patterns, expressions and subqueries -/

/-- The absolute IRIs of what the elements of a group have come to. -/
def GroupAbsolute (result : Operation × List Expression) : Prop :=
  AllAbsolute result.1.iris ∧ ∀ filter ∈ result.2, AllAbsolute filter.iris

/-- The absolute IRIs of the values of a projection. -/
def ItemsAbsolute (selected : List (Variable × Option Expression)) : Prop :=
  ∀ item ∈ selected, ∀ value ∈ item.2, AllAbsolute value.iris

mutual

theorem absolute_expression (grounded : context.IsGrounded) :
    ∀ expression : Surface.Expression,
    Yields (fun value : Expression => AllAbsolute value.iris) (context.expression expression)
  | .var _ => .pure (.varExpression _)
  | .iri iri => by
    rw [expression]
    exact .bind (.lift fun node => absolute_namedNode grounded) fun node absolute =>
      .pure (AllAbsolute.cons.2 ⟨absolute, .nil⟩)
  | .literal literal => by
    rw [expression]
    exact .bind (.lift fun value => absolute_literal grounded) fun value absolute =>
      .pure (AllAbsolute.cons.2 ⟨absolute, .nil⟩)
  | .binary op left right => by
    rw [expression]
    exact (absolute_expression grounded left).bind fun _ ofLeft =>
      (absolute_expression grounded right).bind fun _ ofRight => .pure (AllAbsolute.operator
        (List.forall_mem_cons.2 ⟨ofLeft, List.forall_mem_singleton.2 ofRight⟩))
  | .unary op operand => by
    rw [expression]
    exact (absolute_expression grounded operand).bind fun _ ofOperand =>
      .pure (AllAbsolute.operator (List.forall_mem_singleton.2 ofOperand))
  | .call function arguments _ => by
    rw [expression]
    exact (absolute_expressions grounded arguments).bind fun _ ofArguments =>
      .bind (.lift fun callee => absolute_callee grounded) fun callee ofCallee =>
        .pure (AllAbsolute.call.2 ⟨ofArguments, ofCallee⟩)
  | .ifElse condition positive negative => by
    rw [expression]
    exact (absolute_expression grounded condition).bind fun _ ofCondition =>
      (absolute_expression grounded positive).bind fun _ ofPositive =>
      (absolute_expression grounded negative).bind fun _ ofNegative =>
        .pure (AllAbsolute.operator (List.forall_mem_cons.2 ⟨ofCondition,
          List.forall_mem_cons.2 ⟨ofPositive, List.forall_mem_singleton.2 ofNegative⟩⟩))
  | .coalesce arguments => by
    rw [expression]
    exact (absolute_expressions grounded arguments).bind fun _ ofArguments =>
      .pure (AllAbsolute.operator ofArguments)
  | .among value choices negated => by
    rw [expression]
    exact (absolute_expression grounded value).bind fun _ ofValue =>
      (absolute_expressions grounded choices).bind fun _ ofChoices =>
        .pure (AllAbsolute.operator (List.forall_mem_cons.2 ⟨ofValue, ofChoices⟩))
  | .existence negated pattern => by
    rw [expression]
    exact (absolute_pattern grounded pattern).bind fun _ ofInput =>
      .pure (AllAbsolute.append.2 ⟨ofInput, .nil⟩)
  | .aggregate function none distinct separator => .pure .nil
  | .aggregate function (some argument) distinct separator => by
    rw [expression]
    exact (absolute_expression grounded argument).bind fun _ ofArgument =>
      .pure (AllAbsolute.append.2 ⟨ofArgument, .nil⟩)
  | .bracketed inner => absolute_expression grounded inner

theorem absolute_expressions (grounded : context.IsGrounded) :
    ∀ expressions : List Surface.Expression,
    Yields (fun values : List Expression => ∀ value ∈ values, AllAbsolute value.iris)
      (context.expressions expressions)
  | [] => .pure (List.forall_mem_nil _)
  | first :: rest => by
    rw [expressions]
    exact (absolute_expression grounded first).bind fun _ ofFirst =>
      (absolute_expressions grounded rest).bind fun _ ofRest =>
        .pure (List.forall_mem_cons.2 ⟨ofFirst, ofRest⟩)

theorem absolute_pattern (grounded : context.IsGrounded) : ∀ pattern : Surface.Pattern,
    Yields (fun operation : Operation => AllAbsolute operation.iris) (context.pattern pattern)
  | .bgp triples _ => absolute_basicGraphPattern grounded triples
  | .group elements _ => by
    rw [pattern]
    exact (absolute_elements grounded elements .empty (List.forall_mem_nil _)).bind
      fun _ absolute => .pure (AllAbsolute.filtered absolute.1 absolute.2)
  | .union left right _ => by
    rw [pattern]
    exact (absolute_pattern grounded left).bind fun _ ofLeft =>
      (absolute_pattern grounded right).bind fun _ ofRight => .pure (AllAbsolute.union
        (List.forall_mem_cons.2 ⟨ofLeft, List.forall_mem_singleton.2 ofRight⟩))
  | .graph name inner _ => by
    rw [pattern]
    refine (absolute_pattern grounded inner).bind fun input ofInput =>
      .bind (.lift fun term => absolute_varOrIri grounded) fun name ofName => ?_
    have finish : ∀ input : Operation, AllAbsolute input.iris →
        Yields (fun operation : Operation => AllAbsolute operation.iris)
          (pure (input.graph name)) := fun input ofInput =>
      .pure (AllAbsolute.wrap ofInput (AllAbsolute.flatMap.2 (List.forall_mem_singleton.2 ofName)))
    split
    · exact (absolute_embed input ofName ofInput).bind finish
    · exact finish input ofInput
  | .service silent endpoint inner _ => by
    rw [pattern]
    exact (absolute_pattern grounded inner).bind fun input ofInput =>
      .bind (.lift fun term => absolute_varOrIri grounded) fun name ofName =>
        .pure (AllAbsolute.wrap ofInput
          (AllAbsolute.flatMap.2 (List.forall_mem_singleton.2 ofName)))
  | .values data _ => absolute_inlineData grounded data
  | .subquery query _ => absolute_select grounded query
  | .optional _ _ | .minus _ _ | .filter _ _ | .bind _ _ _ => .throw _

theorem absolute_elements (grounded : context.IsGrounded) : ∀ (elements : List Surface.Pattern)
    {operation : Operation} {filters : List Expression}, AllAbsolute operation.iris →
    (∀ filter ∈ filters, AllAbsolute filter.iris) →
    Yields GroupAbsolute (context.elements elements operation filters)
  | [], _, _, ofOperation, ofFilters => .pure ⟨ofOperation, ofFilters⟩
  | element :: rest, operation, filters, ofOperation, ofFilters => by
    have asMember (isMember : element.isMember = true) :
        Yields GroupAbsolute (context.elements (element :: rest) operation filters) := by
      rw [elements_member context isMember]
      exact (absolute_pattern grounded element).bind fun _ ofRight =>
        absolute_elements grounded rest (AllAbsolute.simplifiedJoin ofOperation ofRight) ofFilters
    cases element with
    | filter condition span =>
      rw [elements]
      exact (absolute_expression grounded condition).bind fun _ ofCondition =>
        absolute_elements grounded rest ofOperation
          (List.forall_mem_append.2 ⟨ofFilters, List.forall_mem_singleton.2 ofCondition⟩)
    | optional pattern span =>
      rw [elements]
      exact (absolute_pattern grounded pattern).bind fun _ ofRight =>
        absolute_elements grounded rest (AllAbsolute.leftJoinOf ofOperation ofRight) ofFilters
    | minus pattern span =>
      rw [elements]
      exact (absolute_pattern grounded pattern).bind fun _ ofRight =>
        absolute_elements grounded rest (AllAbsolute.minus ofOperation ofRight) ofFilters
    | bind value name span =>
      rw [elements]
      exact (absolute_expression grounded value).bind fun _ ofValue =>
        absolute_elements grounded rest (AllAbsolute.extend ofOperation _ ofValue) ofFilters
    | bgp | group | union | values | graph | service | subquery => exact asMember rfl

theorem absolute_select (grounded : context.IsGrounded) : ∀ query : Surface.Select,
    Yields (fun operation : Operation => AllAbsolute operation.iris) (context.select query)
  | ⟨duplicates, projection, dataset, inner, modifiers⟩ => by
    rw [select]
    refine (absolute_pattern grounded inner).bind fun input ofInput => ?_
    refine (absolute_projection grounded projection [] (List.forall_mem_nil _)).bind
      fun ⟨selected, aggregates⟩ ⟨ofSelected, ofAggregates⟩ => ?_
    refine (absolute_solutions grounded modifiers ofSelected ofAggregates ofInput).bind
      fun solutions ofSolutions => .lift fun result => absolute_overDataset grounded dataset ?_
    exact AllAbsolute.sliced _ _ (AllAbsolute.withDuplicates _ (AllAbsolute.project ofSolutions _))

theorem absolute_projection (grounded : context.IsGrounded) :
    ∀ projection : Surface.Projection,
    Extracting.Yields ItemsAbsolute (context.projection projection)
  | .all => .pure (List.forall_mem_nil _)
  | .items items => absolute_selectItems grounded items

theorem absolute_selectItems (grounded : context.IsGrounded) :
    ∀ items : List Surface.SelectItem,
    Extracting.Yields ItemsAbsolute (context.selectItems items)
  | [] => .pure (List.forall_mem_nil _)
  | .var name :: rest => by
    rw [selectItems]
    exact (absolute_selectItems grounded rest).bind fun _ ofRest =>
      .pure (List.forall_mem_cons.2 ⟨nofun, ofRest⟩)
  | .computed value name :: rest => by
    rw [selectItems]
    exact .bind (.lift (absolute_expression grounded value)) fun _ ofValue =>
      (absolute_extractAggregates ofValue).bind fun _ ofValue =>
      (absolute_selectItems grounded rest).bind fun _ ofRest =>
        .pure (List.forall_mem_cons.2 ⟨fun _ isValue => Option.some.inj isValue ▸ ofValue, ofRest⟩)

theorem absolute_solutions (grounded : context.IsGrounded) : ∀ (modifiers : Surface.Modifiers)
    {selected : List (Variable × Option Expression)} {aggregates : List BoundAggregate}
    {input : Operation}, ItemsAbsolute selected →
    (∀ bound ∈ aggregates, AllAbsolute bound.expression.iris) → AllAbsolute input.iris →
    Yields (fun operation : Operation => AllAbsolute operation.iris)
      (context.solutions selected aggregates input modifiers)
  | ⟨groupBy, having, orderBy, _, _, values⟩, selected, aggregates, input, ofSelected,
      ofAggregates, ofInput => by
    -- What is done after grouping does not depend on whether there are keys.
    have finish : ∀ {having order : List Expression} {grouped : Operation},
        (∀ condition ∈ having, AllAbsolute condition.iris) →
        (∀ key ∈ order, AllAbsolute key.iris) → AllAbsolute grouped.iris →
        Yields (fun operation : Operation => AllAbsolute operation.iris)
          (do
            let filtered :=
              having.foldl (fun operation condition => .of (.filter operation condition)) grouped
            let joined ← context.joinedWith values filtered
            let extended := computed selected joined
            if order.isEmpty then pure extended else pure (.of (.orderBy extended order))) := by
      intro having order grouped ofHaving ofOrder ofGrouped
      refine (absolute_joinedWith grounded values (AllAbsolute.conditions ofGrouped ofHaving)).bind
        fun joined ofJoined => ?_
      have ofExtended := AllAbsolute.computed ofJoined ofSelected
      dsimp only
      split
      · exact .pure ofExtended
      · exact .pure (AllAbsolute.orderBy ofExtended ofOrder)
    rw [solutions]
    refine (absolute_conditions grounded having _ ofAggregates).bind
      fun ⟨having, aggregates⟩ ⟨ofHaving, ofAggregates⟩ => ?_
    refine (absolute_orderKeys grounded orderBy _ ofAggregates).bind
      fun ⟨order, aggregates⟩ ⟨ofOrder, ofAggregates⟩ => ?_
    cases groupBy with
    | some keys =>
      exact (absolute_groupKeys grounded keys ofInput).bind fun ⟨input, vars⟩ ofInput =>
        finish ofHaving ofOrder (AllAbsolute.group ofInput vars ofAggregates)
    | none =>
      dsimp only
      split
      · exact finish ofHaving ofOrder ofInput
      · exact finish ofHaving ofOrder (AllAbsolute.group ofInput [] ofAggregates)

theorem absolute_conditions (grounded : context.IsGrounded) :
    ∀ conditions : List Surface.Expression,
    Extracting.Yields (fun values : List Expression => ∀ value ∈ values, AllAbsolute value.iris)
      (context.conditions conditions)
  | [] => .pure (List.forall_mem_nil _)
  | condition :: rest => by
    rw [conditions]
    exact .bind (.lift (absolute_expression grounded condition)) fun _ ofCondition =>
      (absolute_extractAggregates ofCondition).bind fun _ ofCondition =>
      (absolute_conditions grounded rest).bind fun _ ofRest =>
        .pure (List.forall_mem_cons.2 ⟨ofCondition, ofRest⟩)

theorem absolute_orderKeys (grounded : context.IsGrounded) : ∀ keys : List Surface.OrderKey,
    Extracting.Yields (fun values : List Expression => ∀ value ∈ values, AllAbsolute value.iris)
      (context.orderKeys keys)
  | [] => .pure (List.forall_mem_nil _)
  | .var name direction :: rest => by
    rw [orderKeys]
    exact (absolute_orderKeys grounded rest).bind fun _ ofRest =>
      .pure (List.forall_mem_cons.2 ⟨AllAbsolute.orderKey direction (.varExpression _), ofRest⟩)
  | .computed value direction :: rest => by
    rw [orderKeys]
    exact .bind (.lift (absolute_expression grounded value)) fun _ ofValue =>
      (absolute_extractAggregates ofValue).bind fun _ ofValue =>
      (absolute_orderKeys grounded rest).bind fun _ ofRest =>
        .pure (List.forall_mem_cons.2 ⟨AllAbsolute.orderKey direction ofValue, ofRest⟩)

theorem absolute_groupKeys (grounded : context.IsGrounded) : ∀ (keys : List Surface.GroupKey)
    {operation : Operation}, AllAbsolute operation.iris →
    Yields (fun result : Operation × List Variable => AllAbsolute result.1.iris)
      (context.groupKeys keys operation)
  | [], _, absolute => .pure absolute
  | .var name :: rest, _, absolute => by
    rw [groupKeys]
    exact (absolute_groupKeys grounded rest absolute).bind fun _ absolute => .pure absolute
  | .computed value name :: rest, operation, absolute => by
    rw [groupKeys]
    refine (absolute_expression grounded value).bind fun value ofValue => ?_
    have finish : ∀ name : Variable,
        Yields (fun result : Operation × List Variable => AllAbsolute result.1.iris)
          (do
            let (operation, vars) ←
              context.groupKeys rest (.of (.extend operation name value))
            pure (operation, name :: vars)) := fun name =>
      (absolute_groupKeys grounded rest (AllAbsolute.extend absolute name ofValue)).bind
        fun _ absolute => .pure absolute
    cases name with
    | some name => exact finish (context.var name)
    | none => exact .bind_any finish

end

/-! ### Queries -/

private theorem absolute_resources (grounded : context.IsGrounded)
    {resources : List Surface.VarOrIri} {terms : List Term}
    (success : context.resources resources = .ok terms) :
    ∀ term ∈ terms, AllAbsolute term.iris := by
  induction resources generalizing terms with
  | nil => cases success; exact List.forall_mem_nil _
  | cons resource rest ih =>
    rw [Context.resources] at success
    obtain ⟨term, isTerm, success⟩ := ok_of_bind success
    obtain ⟨others, areOthers, success⟩ := ok_of_bind success
    cases success
    exact List.forall_mem_cons.2 ⟨absolute_varOrIri grounded isTerm, ih areOthers⟩

theorem absolute_described (grounded : context.IsGrounded) {query : Surface.Describe}
    {terms : List Term} (success : context.described query = .ok terms) :
    ∀ term ∈ terms, AllAbsolute term.iris := by
  unfold described at success
  split at success
  · cases success
    exact List.forall_mem_map.2 fun name _ => .var _
  · exact absolute_resources grounded success

theorem absolute_query (grounded : context.IsGrounded) (query : Surface.Query) :
    Yields (fun operation : Operation => AllAbsolute operation.iris) (context.query query) := by
  have noItems : ItemsAbsolute [] := List.forall_mem_nil _
  have noAggregates : ∀ bound ∈ ([] : List BoundAggregate), AllAbsolute bound.expression.iris :=
    List.forall_mem_nil _
  cases query with
  | select query => exact absolute_select grounded query
  | construct query =>
    rw [Context.query, construct]
    exact (absolute_pattern grounded query.pattern).bind fun input ofInput =>
      (absolute_solutions grounded query.modifiers noItems noAggregates ofInput).bind
        fun solutions ofSolutions =>
      (absolute_template grounded (absolute_defaultGraph grounded) _).bind
        fun template ofTemplate =>
      .lift fun result => absolute_overDataset grounded query.dataset
        (AllAbsolute.sliced _ _ (AllAbsolute.construct ofSolutions ofTemplate))
  | ask query =>
    rw [Context.query, ask]
    exact (absolute_pattern grounded query.pattern).bind fun input ofInput =>
      (absolute_solutions grounded query.modifiers noItems noAggregates ofInput).bind
        fun solutions ofSolutions =>
      .lift fun result => absolute_overDataset grounded query.dataset
        (AllAbsolute.sliced _ _ (AllAbsolute.wrap ofSolutions .nil))
  | describe query =>
    have finish : ∀ input : Operation, AllAbsolute input.iris →
        Yields (fun operation : Operation => AllAbsolute operation.iris)
          (do
            let solutions ← context.solutions [] [] input query.modifiers
            let terms ← context.described query
            context.overDataset query.dataset
              (sliced query.modifiers.limit query.modifiers.offset
                (.of (.wrap (.describe terms) solutions)))) := fun input ofInput =>
      (absolute_solutions grounded query.modifiers noItems noAggregates ofInput).bind
        fun solutions ofSolutions =>
      .bind (.lift fun terms => absolute_described grounded) fun terms ofTerms =>
      .lift fun result => absolute_overDataset grounded query.dataset
        (AllAbsolute.sliced _ _ (AllAbsolute.wrap ofSolutions (AllAbsolute.flatMap.2 ofTerms)))
    rw [Context.query, describe]
    split
    · exact (absolute_pattern grounded _).bind finish
    · exact finish _ .empty

/-! ### Updates -/

theorem absolute_quadPatterns (grounded : context.IsGrounded) {graph : Term}
    (ofGraph : AllAbsolute graph.iris) (blocks : List Surface.QuadBlock) :
    Yields (fun patterns => ∀ pattern ∈ patterns, AllAbsolute pattern.iris)
      (context.quadPatterns graph blocks) := by
  induction blocks with
  | nil => exact .pure (List.forall_mem_nil _)
  | cons block rest ih =>
    have finish : ∀ blockGraph : Term, AllAbsolute blockGraph.iris →
        Yields (fun patterns => ∀ pattern ∈ patterns, AllAbsolute pattern.iris)
          (do
            let patterns ← context.template blockGraph block.triples
            let others ← context.quadPatterns graph rest
            pure (patterns ++ others)) := fun blockGraph ofBlock =>
      (absolute_template grounded ofBlock block.triples).bind fun patterns ofPatterns =>
      ih.bind fun others ofOthers => .pure (List.forall_mem_append.2 ⟨ofPatterns, ofOthers⟩)
    rw [quadPatterns]
    split
    · exact .bind (.lift fun term => absolute_varOrIri grounded) finish
    · exact finish graph ofGraph

private theorem absolute_optionalNode (grounded : context.IsGrounded)
    {iri : Option Surface.Iri} {node : Option NamedNode}
    (success : context.optionalNode iri = .ok node) : AllAbsolute node.toList := by
  cases iri with
  | none => cases success; exact .nil
  | some iri =>
    rw [optionalNode] at success
    obtain ⟨found, isNode, success⟩ := ok_of_bind success
    cases success
    exact AllAbsolute.cons.2 ⟨absolute_namedNode grounded isNode, .nil⟩

private theorem absolute_clearTarget (grounded : context.IsGrounded)
    {written : Surface.ClearTarget} {target : GraphTarget}
    (success : context.clearTarget written = .ok target) : AllAbsolute target.iris := by
  cases written with
  | graph iri =>
    rw [clearTarget] at success
    obtain ⟨node, isNode, success⟩ := ok_of_bind success
    cases success
    exact AllAbsolute.cons.2 ⟨absolute_namedNode grounded isNode, .nil⟩
  | default | named | all => cases success; exact .nil

private theorem absolute_graphOrDefault (grounded : context.IsGrounded)
    {written : Surface.GraphOrDefault} {target : GraphTarget}
    (success : context.graphOrDefault written = .ok target) : AllAbsolute target.iris := by
  cases written with
  | graph iri =>
    rw [graphOrDefault] at success
    obtain ⟨node, isNode, success⟩ := ok_of_bind success
    cases success
    exact AllAbsolute.cons.2 ⟨absolute_namedNode grounded isNode, .nil⟩
  | default => cases success; exact .nil

private theorem absolute_scopeOf (grounded : context.IsGrounded)
    (dataset : Option Surface.Dataset) {graph : Option Term}
    (ofGraph : ∀ name ∈ graph, AllAbsolute name.iris) {operation : Operation}
    (absolute : AllAbsolute operation.iris) :
    Yields (fun result : Operation => AllAbsolute result.iris)
      (context.scopeOf dataset graph operation) := by
  unfold scopeOf
  split
  · exact .lift fun result => absolute_overDataset grounded _ absolute
  · exact absolute_embed operation (ofGraph _ rfl) absolute
  · exact .pure absolute

/-- The IRIs of an update of triples. -/
private theorem absolute_deleteInsert {delete insert : Option (List Pattern)}
    {scope : Option Operation}
    (ofDelete : ∀ patterns ∈ delete, ∀ pattern ∈ patterns, AllAbsolute pattern.iris)
    (ofInsert : ∀ patterns ∈ insert, ∀ pattern ∈ patterns, AllAbsolute pattern.iris)
    (ofScope : ∀ operation ∈ scope, AllAbsolute operation.iris) :
    AllAbsolute (Operation.of (.deleteInsert delete insert scope)).iris := by
  have ofTemplate : ∀ {template : Option (List Pattern)},
      (∀ patterns ∈ template, ∀ pattern ∈ patterns, AllAbsolute pattern.iris) →
      AllAbsolute ((template.getD []).flatMap Pattern.iris) := by
    intro template absolute
    cases template with
    | none => exact .nil
    | some patterns => exact AllAbsolute.flatMap.2 (absolute patterns rfl)
  have templates := AllAbsolute.append.2 ⟨ofTemplate ofDelete, ofTemplate ofInsert⟩
  cases scope with
  | none => exact AllAbsolute.operation.2 ⟨templates, .nil⟩
  | some operation =>
    exact AllAbsolute.operation.2 ⟨AllAbsolute.append.2 ⟨templates, ofScope operation rfl⟩, .nil⟩

private theorem absolute_nonEmpty? {patterns : List Pattern}
    (absolute : ∀ pattern ∈ patterns, AllAbsolute pattern.iris) :
    ∀ template ∈ nonEmpty? patterns, ∀ pattern ∈ template, AllAbsolute pattern.iris := by
  intro template isTemplate
  unfold nonEmpty? at isTemplate
  split at isTemplate
  · cases isTemplate
  · exact Option.some.inj isTemplate ▸ absolute

theorem absolute_modify (grounded : context.IsGrounded) (update : Surface.Modify) :
    Yields (fun operation : Operation => AllAbsolute operation.iris) (context.modify update) := by
  rw [modify]
  refine .bind_any fun _ => .bind (.lift fun node => absolute_optionalNode grounded)
    fun node ofNode => ?_
  have ofGraph : ∀ name ∈ node.map Term.iri, AllAbsolute name.iris := by
    intro name isName
    obtain ⟨found, rfl, rfl⟩ := Option.map_eq_some_iff.1 isName
    exact ofNode
  have ofTemplateGraph :
      AllAbsolute ((node.map Term.iri).getD context.factory.defaultGraph).iris := by
    cases node with
    | none => exact absolute_defaultGraph grounded
    | some node => exact ofGraph _ rfl
  refine (absolute_quadPatterns grounded ofTemplateGraph _).bind fun delete ofDelete => ?_
  refine (absolute_quadPatterns grounded ofTemplateGraph _).bind fun insert ofInsert => ?_
  have finish : ∀ scope : Option Operation, (∀ operation ∈ scope, AllAbsolute operation.iris) →
      Yields (fun operation : Operation => AllAbsolute operation.iris)
        (pure (.of (.deleteInsert (nonEmpty? delete) (nonEmpty? insert) scope))) :=
    fun scope ofScope => .pure
      (absolute_deleteInsert (absolute_nonEmpty? ofDelete) (absolute_nonEmpty? ofInsert) ofScope)
  split
  · exact finish none fun _ isScope => (Option.not_mem_none _ isScope).elim
  · refine (absolute_pattern grounded update.pattern).bind fun operation ofOperation => ?_
    refine (absolute_scopeOf grounded update.dataset ofGraph ofOperation).bind
      fun scope ofScope => ?_
    exact finish (some scope) fun _ isScope => Option.some.inj isScope ▸ ofScope

private theorem absolute_manage {action : GraphAction} (absolute : AllAbsolute action.iris) :
    AllAbsolute (Operation.of (.manage action)).iris :=
  AllAbsolute.operation.2 ⟨.nil, absolute⟩

theorem absolute_update (grounded : context.IsGrounded) (update : Surface.Update) :
    Yields (fun operation : Operation => AllAbsolute operation.iris) (context.update update) := by
  have inDefault := absolute_quadPatterns grounded (absolute_defaultGraph grounded)
  cases update with
  | insertData quads =>
    exact .bind_any fun _ => (inDefault quads).bind fun insert ofInsert => .pure
      (absolute_deleteInsert nofun (absolute_nonEmpty? ofInsert) nofun)
  | deleteData quads =>
    exact .bind_any fun _ => (inDefault quads).bind fun delete ofDelete => .pure
      (absolute_deleteInsert (absolute_nonEmpty? ofDelete) nofun nofun)
  | deleteWhere quads =>
    exact .bind_any fun _ => (inDefault quads).bind fun delete ofDelete => .pure
      (absolute_deleteInsert (absolute_nonEmpty? ofDelete) nofun
        fun _ isScope => Option.some.inj isScope ▸ AllAbsolute.bgp.2 ofDelete)
  | modify change => exact absolute_modify grounded change
  | load silent source destination =>
    exact .bind (.lift fun node => absolute_namedNode grounded) fun source ofSource =>
      .bind (.lift fun node => absolute_optionalNode grounded) fun destination ofDestination =>
        .pure (absolute_manage (AllAbsolute.cons.2 ⟨ofSource, ofDestination⟩))
  | clear silent target | drop silent target =>
    exact .bind (.lift fun target => absolute_clearTarget grounded) fun target ofTarget =>
      .pure (absolute_manage ofTarget)
  | create silent graph =>
    exact .bind (.lift fun node => absolute_namedNode grounded) fun graph ofGraph =>
      .pure (absolute_manage (AllAbsolute.cons.2 ⟨ofGraph, .nil⟩))
  | transfer how silent source destination =>
    exact .bind (.lift fun target => absolute_graphOrDefault grounded) fun source ofSource =>
      .bind (.lift fun target => absolute_graphOrDefault grounded) fun destination ofDestination =>
        .pure (absolute_manage (AllAbsolute.append.2 ⟨ofSource, ofDestination⟩))

/-! ### Requests -/

/-- A declared base is resolved against the one before it, so it is absolute too. -/
theorem IsGrounded.declare (grounded : context.IsGrounded) {prologue : Surface.Prologue}
    {declared : Context} (success : context.declare prologue = .ok declared) :
    declared.IsGrounded := by
  have settles := @settles_declare _ _ grounded.suits prologue (.inr trivial)
  rw [success] at settles
  exact ⟨settles.plain, settles.base trivial⟩

theorem absolute_updates (units : List Surface.UpdateUnit) : ∀ {context : Context},
    context.IsGrounded →
    Yields (fun operations => ∀ operation ∈ operations, AllAbsolute operation.iris)
      (context.updates units) := by
  induction units with
  | nil => exact fun _ => .pure (List.forall_mem_nil _)
  | cons unit rest ih =>
    intro context grounded
    rw [updates]
    exact .bind (.lift fun declared => grounded.declare) fun declared grounded =>
      (absolute_update grounded unit.update).bind fun operation ofOperation =>
      (ih grounded).bind fun operations ofOperations =>
        .pure (List.forall_mem_cons.2 ⟨ofOperation, ofOperations⟩)

private theorem absolute_updateSequence {operations : List Operation}
    (absolute : ∀ operation ∈ operations, AllAbsolute operation.iris) :
    AllAbsolute (updateSequence operations).iris := by
  unfold updateSequence
  split
  · exact .nil
  · exact absolute _ List.mem_cons_self
  · exact AllAbsolute.combine absolute

theorem absolute_body (grounded : context.IsGrounded) (body : Surface.Body) :
    Yields (fun operation : Operation => AllAbsolute operation.iris) (context.body body) := by
  cases body with
  | query asked => exact absolute_query grounded asked
  | update units =>
    exact (absolute_updates units grounded).bind fun operations ofOperations =>
      .pure (absolute_updateSequence ofOperations)

/-- All IRIs of the operation of a request are absolute. -/
theorem absolute_request (grounded : context.IsGrounded) (blankToVariable : Bool)
    (request : Surface.Request) :
    Yields (fun operation : Operation => AllAbsolute operation.iris)
      (context.request blankToVariable request) := by
  rw [Context.request]
  refine .bind (.lift fun declared => grounded.declare) fun declared grounded => ?_
  refine (absolute_body grounded request.body).bind fun operation ofOperation => ?_
  split
  · exact absolute_blanksToVariables grounded.plain ofOperation
  · exact .pure ofOperation

end Context

end QueryAlgebra
