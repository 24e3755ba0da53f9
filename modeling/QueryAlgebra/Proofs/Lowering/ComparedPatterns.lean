import QueryAlgebra.Lowering.Request
import QueryAlgebra.Proofs.Lowering.Comparison
import QueryAlgebra.Proofs.Lowering.WellFormedRequests
import QueryAlgebra.Proofs.Surface.PatternParts

/-! # Patterns and queries side by side

Two passages, with and without graph names put into patterns, make related operations of what is
written if they do so of basic graph patterns, templates, inline data and graph blocks, and if the
variables that are written are related to themselves: `Context.compare_pattern`,
`Context.compare_query`. What is known of all patterns that are written may be used for the graph
blocks among them.
-/

namespace QueryAlgebra

/-- Contexts that make related operations of basic graph patterns, inline data and graph blocks, for
passages of what is written in names that a supply has. Expressions are bound to variables if
patterns that do so are allowed. -/
structure Context.Compares {World : Type} [Preorder World] (context : Context) (quads : Bool)
    (comparison : Comparison World) (written : NameSupply) (allowed : Surface.Pattern → Prop)
    (binds : Prop) : Prop where
  closed : comparison.Closed binds
  var (world : World) {name : Variable} : written.Has (.var name.name) →
    comparison.vars world (context.var name) (context.var name)
  iri (world : World) (node : NamedNode) : comparison.terms world (.iri node) (.iri node)
  literal (world : World) (text : Literal) : comparison.terms world (.literal text) (.literal text)
  new : context.RelatesNew comparison
  triples (world : World) {triples : List Surface.Triple} :
    written.Covers (Surface.Names.all Surface.Triple.names triples) →
    comparison.Agree comparison.operations world (context.basicGraphPattern triples)
      (context.basicGraphPattern triples)
  template (world : World) {triples : List Surface.Triple} :
    written.Covers (Surface.Names.all Surface.Triple.names triples) →
    comparison.Agree comparison.templates world
      (context.template context.factory.defaultGraph triples)
      (context.template context.factory.defaultGraph triples)
  data (world : World) {data : Surface.InlineData} : written.Covers data.names →
    comparison.Agree comparison.operations world (context.inlineData data)
      (context.inlineData data)
  binding {pattern : Surface.Pattern} : allowed pattern → pattern.isBinding = true → binds
  graph {world : World} {name : Surface.VarOrIri} {pattern : Surface.Pattern}
    {span : Surface.Span} {block : Term} {input input' : Operation}
    {supply after after' : NameSupply} : allowed (.graph name pattern span) →
    context.pattern pattern supply = .ok input after → context.varOrIri name = .ok block →
    comparison.terms world block block → comparison.operations world input input' →
    comparison.tied world after after' →
    comparison.Outcome comparison.operations world
      ((do
        let input ← if context.quads then context.embedGraph block input else pure input
        pure (input.graph block)) after)
      ((do
        let input ← if quads then (context.withQuads quads).embedGraph block input' else pure input'
        pure (input.graph block)) after')

namespace Context

open Comparison (Agree)

variable {World : Type} [Preorder World] {context : Context} {quads : Bool}
  {comparison : Comparison World} {written : NameSupply} {allowed : Surface.Pattern → Prop}
  {binds : Prop} {world : World}

theorem compares_varOrIri (compares : context.Compares quads comparison written allowed binds)
    {name : Surface.VarOrIri} (covers : written.Covers name.names) {term : Term}
    (success : context.varOrIri name = .ok term) : comparison.terms world term term := by
  cases name with
  | var name =>
    cases success
    exact compares.var world (NameSupply.covers_var.1 covers)
  | iri iri =>
    rw [varOrIri] at success
    obtain ⟨node, -, finished⟩ := ok_of_bind success
    cases finished
    exact compares.iri world node

theorem compare_joinedWith (compares : context.Compares quads comparison written allowed binds)
    {values : Option Surface.InlineData}
    (covers : written.Covers (Surface.Names.optional Surface.InlineData.names values))
    {operation operation' : Operation} (alike : comparison.operations world operation operation') :
    comparison.Agree comparison.operations world (context.joinedWith values operation)
      ((context.withQuads quads).joinedWith values operation') := by
  rw [joinedWith_withQuads]
  cases values with
  | none => exact .pure alike
  | some data =>
    rw [joinedWith, joinedWith]
    exact (compares.data world (NameSupply.covers_optional.1 covers data rfl)).bind
      fun _ le _ _ ofTable =>
        .pure (compares.closed.join (comparison.operations_later le alike) ofTable)

theorem compare_overDataset (compares : context.Compares quads comparison written allowed binds)
    (binding : binds) (dataset : Option Surface.Dataset) {operation operation' : Operation}
    (alike : comparison.operations world operation operation') :
    comparison.Agree comparison.operations world (context.overDataset dataset operation)
      ((context.withQuads quads).overDataset dataset operation') := by
  rw [overDataset_withQuads]
  cases dataset with
  | none => exact .pure alike
  | some dataset =>
    rw [overDataset, overDataset]
    split
    · exact .pure alike
    · cases context.namedNodes dataset.default with
      | error error => exact .throw error
      | ok default =>
        cases context.namedNodes dataset.named with
        | error error => exact .throw error
        | ok named => exact .pure (compares.closed.wrap binding rfl rfl alike)

/-- The names in trailing inline data are among those in the clauses. -/
private theorem covers_values {modifiers : Surface.Modifiers}
    (covers : written.Covers modifiers.names) :
    written.Covers (Surface.Names.optional Surface.InlineData.names modifiers.values) := by
  obtain ⟨groupBy, having, orderBy, limit, offset, values⟩ := modifiers
  exact (covers_modifiers.1 covers).2.2.2

private theorem related_starred (compares : context.Compares quads comparison written allowed binds)
    {pattern : Option Surface.Pattern} {values : Option Surface.InlineData}
    (ofPattern : written.Covers (Surface.Names.optional Surface.Pattern.names pattern))
    (ofValues : written.Covers (Surface.Names.optional Surface.InlineData.names values)) :
    ∀ name ∈ Surface.starVariables pattern values,
      comparison.vars world (context.var name) (context.var name) := fun name isStarred =>
  compares.var world ((NameSupply.covers_and.2 ⟨ofPattern, ofValues⟩).vars
    (Surface.starVariables_include pattern values name isStarred))

private theorem related_shown (compares : context.Compares quads comparison written allowed binds)
    (projection : Surface.Projection) {pattern : Surface.Pattern}
    {values : Option Surface.InlineData} (ofPattern : written.Covers pattern.names)
    (ofValues : written.Covers (Surface.Names.optional Surface.InlineData.names values))
    {selected selected' : List (Variable × Option Expression)}
    (ofItems : List.Forall₂ (comparison.items world) selected selected') :
    List.Forall₂ (comparison.vars world) (context.shown projection pattern values selected)
      ((context.withQuads quads).shown projection pattern values selected') := by
  rw [shown_withQuads]
  cases projection with
  | all =>
    exact List.forall₂_map_left_iff.2 (List.forall₂_map_right_iff.2 (List.forall₂_same.2
      (related_starred compares ofPattern ofValues)))
  | items items =>
    exact List.forall₂_map_left_iff.2 (List.forall₂_map_right_iff.2
      (ofItems.imp fun _ _ ofItem => ofItem.1))

mutual

theorem compare_expression (compares : context.Compares quads comparison written allowed binds) :
    ∀ (expression : Surface.Expression) {world : World}, written.Covers expression.names →
    (∀ pattern ∈ expression.within, allowed pattern) →
    comparison.Agree comparison.expressions world (context.expression expression)
      ((context.withQuads quads).expression expression)
  | .var name, _, covers, _ => by
    rw [expression, expression]
    exact .pure (compares.closed.term (compares.var _ (NameSupply.covers_var.1 covers)))
  | .iri iri, _, _, _ => by
    rw [expression, expression, namedNode_withQuads]
    exact .bindLift fun node _ => .pure (compares.closed.term (compares.iri _ node))
  | .literal literal, _, _, _ => by
    rw [expression, expression, literal_withQuads]
    exact .bindLift fun literal _ => .pure (compares.closed.term (compares.literal _ literal))
  | .binary op left right, _, covers, areAllowed => by
    obtain ⟨ofLeft, ofRight⟩ := List.forall_mem_append.1 areAllowed
    obtain ⟨inLeft, inRight⟩ := NameSupply.covers_and.1 covers
    rw [expression, expression]
    refine (compare_expression compares left inLeft ofLeft).bind fun _ le₁ _ _ left => ?_
    refine (compare_expression compares right inRight ofRight).bind fun _ le₂ _ _ right => ?_
    have left := comparison.expressions_later le₂ left
    exact .pure (compares.closed.operator _ (.cons left (.cons right .nil)))
  | .unary op operand, _, covers, areAllowed => by
    rw [expression, expression]
    exact (compare_expression compares operand covers areAllowed).bind fun _ _ _ _ operand =>
      .pure (compares.closed.operator _ (.cons operand .nil))
  | .call function arguments _, _, covers, areAllowed => by
    rw [expression, expression, callee_withQuads]
    exact (compare_expressions compares arguments covers areAllowed).bind
      fun _ _ _ _ arguments =>
        .bindLift fun callee _ => .pure (compares.closed.call callee arguments)
  | .ifElse condition positive negative, _, covers, areAllowed => by
    obtain ⟨ofFirst, ofNegative⟩ := List.forall_mem_append.1 areAllowed
    obtain ⟨ofCondition, ofPositive⟩ := List.forall_mem_append.1 ofFirst
    obtain ⟨inFirst, inNegative⟩ := NameSupply.covers_and.1 covers
    obtain ⟨inCondition, inPositive⟩ := NameSupply.covers_and.1 inFirst
    rw [expression, expression]
    refine (compare_expression compares condition inCondition ofCondition).bind
      fun _ le₁ _ _ condition => ?_
    refine (compare_expression compares positive inPositive ofPositive).bind
      fun _ le₂ _ _ positive => ?_
    refine (compare_expression compares negative inNegative ofNegative).bind
      fun _ le₃ _ _ negative => ?_
    have condition := comparison.expressions_later (le₂.trans le₃) condition
    have positive := comparison.expressions_later le₃ positive
    exact .pure (compares.closed.operator _ (.cons condition (.cons positive (.cons negative .nil))))
  | .coalesce arguments, _, covers, areAllowed => by
    rw [expression, expression]
    exact (compare_expressions compares arguments covers areAllowed).bind
      fun _ _ _ _ arguments => .pure (compares.closed.operator _ arguments)
  | .among value choices negated, _, covers, areAllowed => by
    obtain ⟨ofValue, ofChoices⟩ := List.forall_mem_append.1 areAllowed
    obtain ⟨inValue, inChoices⟩ := NameSupply.covers_and.1 covers
    rw [expression, expression]
    refine (compare_expression compares value inValue ofValue).bind fun _ le₁ _ _ value => ?_
    refine (compare_expressions compares choices inChoices ofChoices).bind
      fun _ le₂ _ _ choices => ?_
    have value := comparison.expressions_later le₂ value
    exact .pure (compares.closed.operator _ (.cons value choices))
  | .existence negated pattern, _, covers, areAllowed => by
    rw [expression, expression]
    exact (compare_pattern compares pattern covers areAllowed).bind fun _ _ _ _ input =>
      .pure (compares.closed.existence negated input)
  | .aggregate function none distinct separator, _, _, _ => by
    rw [expression, expression]
    exact .pure (compares.closed.aggregate _ distinct separator (compares.closed.wildcard _))
  | .aggregate function (some argument) distinct separator, _, covers, areAllowed => by
    rw [expression, expression]
    exact (compare_expression compares argument covers areAllowed).bind fun _ _ _ _ argument =>
      .pure (compares.closed.aggregate _ distinct separator argument)
  | .bracketed inner, _, covers, areAllowed => by
    rw [expression, expression]
    exact compare_expression compares inner covers areAllowed

theorem compare_expressions (compares : context.Compares quads comparison written allowed binds) :
    ∀ (expressions : List Surface.Expression) {world : World},
    written.Covers (Surface.Expression.namesOfAll expressions) →
    (∀ pattern ∈ Surface.Expression.withinAll expressions, allowed pattern) →
    comparison.Agree (fun world => List.Forall₂ (comparison.expressions world)) world
      (context.expressions expressions) ((context.withQuads quads).expressions expressions)
  | [], _, _, _ => .pure .nil
  | first :: rest, _, covers, areAllowed => by
    obtain ⟨ofFirst, ofRest⟩ := List.forall_mem_append.1 areAllowed
    obtain ⟨inFirst, inRest⟩ := NameSupply.covers_and.1 covers
    rw [expressions, expressions]
    refine (compare_expression compares first inFirst ofFirst).bind fun _ le₁ _ _ first => ?_
    refine (compare_expressions compares rest inRest ofRest).bind fun _ le₂ _ _ rest => ?_
    exact .pure (.cons (comparison.expressions_later le₂ first) rest)

theorem compare_pattern (compares : context.Compares quads comparison written allowed binds) :
    ∀ (pattern : Surface.Pattern) {world : World}, written.Covers pattern.names →
    (∀ inner ∈ pattern.within, allowed inner) →
    comparison.Agree comparison.operations world (context.pattern pattern)
      ((context.withQuads quads).pattern pattern)
  | .bgp triples _, _, covers, _ => by
    rw [pattern, pattern, basicGraphPattern_withQuads]
    exact compares.triples _ covers
  | .group elements _, _, covers, areAllowed => by
    rw [pattern, pattern]
    exact (compare_elements compares elements covers (List.forall_mem_cons.1 areAllowed).2
      (compares.closed.empty _) .nil).bind
      fun _ _ _ _ treated => .pure (compares.closed.filtered treated.1 treated.2)
  | .union left right _, _, covers, areAllowed => by
    obtain ⟨ofLeft, ofRight⟩ := List.forall_mem_append.1 (List.forall_mem_cons.1 areAllowed).2
    obtain ⟨inLeft, inRight⟩ := NameSupply.covers_and.1 covers
    rw [pattern, pattern]
    refine (compare_pattern compares left inLeft ofLeft).bind fun _ le₁ _ _ left => ?_
    refine (compare_pattern compares right inRight ofRight).bind fun _ le₂ _ _ right => ?_
    exact .pure (compares.closed.union (comparison.operations_later le₂ left) right)
  | .graph name pattern _, _, covers, areAllowed => by
    obtain ⟨isAllowed, ofPattern⟩ := List.forall_mem_cons.1 areAllowed
    obtain ⟨inName, inPattern⟩ := NameSupply.covers_and.1 covers
    rw [Context.pattern, Context.pattern, varOrIri_withQuads]
    intro supply supply' tied
    refine (compare_pattern compares pattern inPattern ofPattern supply supply' tied).bind
      fun later _ input input' after after' tied made alike => ?_
    cases named : context.varOrIri name with
    | error error => exact .error le_rfl tied error
    | ok block =>
      exact compares.graph isAllowed made named (compares_varOrIri compares inName named) alike tied
  | .service silent endpoint pattern _, _, covers, areAllowed => by
    obtain ⟨inEndpoint, inPattern⟩ := NameSupply.covers_and.1 covers
    rw [Context.pattern, Context.pattern, varOrIri_withQuads]
    refine (compare_pattern compares pattern inPattern (List.forall_mem_cons.1 areAllowed).2).bind
      fun _ _ _ _ input => .bindLift fun name isName => ?_
    exact .pure (compares.closed.service silent (compares_varOrIri compares inEndpoint isName) input)
  | .values data _, _, covers, _ => by
    rw [pattern, pattern, inlineData_withQuads]
    exact compares.data _ covers
  | .subquery query _, _, covers, areAllowed => by
    obtain ⟨isAllowed, ofQuery⟩ := List.forall_mem_cons.1 areAllowed
    rw [pattern, pattern]
    exact compare_select compares (compares.binding isAllowed rfl) query covers ofQuery
  | .optional _ _, _, _, _ | .minus _ _, _, _, _ | .filter _ _, _, _, _ | .bind _ _ _, _, _, _ =>
    .throw _

theorem compare_elements (compares : context.Compares quads comparison written allowed binds) :
    ∀ (elements : List Surface.Pattern) {world : World} {operation operation' : Operation}
    {filters filters' : List Expression}, written.Covers (Surface.Pattern.namesOfAll elements) →
    (∀ pattern ∈ Surface.Pattern.withinAll elements, allowed pattern) →
    comparison.operations world operation operation' →
    List.Forall₂ (comparison.expressions world) filters filters' →
    comparison.Agree comparison.groups world (context.elements elements operation filters)
      ((context.withQuads quads).elements elements operation' filters')
  | [], _, _, _, _, _, _, _, alike, ofFilters => by
    rw [elements, elements]
    exact .pure ⟨alike, ofFilters⟩
  | element :: rest, world, operation, operation', filters, filters', covers, areAllowed, alike,
      ofFilters => by
    obtain ⟨ofElement, ofRest⟩ := List.forall_mem_append.1 areAllowed
    obtain ⟨inElement, inRest⟩ := NameSupply.covers_and.1 covers
    have finish : ∀ {later operation operation' filters filters'},
        comparison.operations later operation operation' →
        List.Forall₂ (comparison.expressions later) filters filters' →
        comparison.Agree comparison.groups later (context.elements rest operation filters)
          ((context.withQuads quads).elements rest operation' filters') :=
      fun alike ofFilters => compare_elements compares rest inRest ofRest alike ofFilters
    have asMember (isMember : element.isMember = true) :
        comparison.Agree comparison.groups world
          (context.elements (element :: rest) operation filters)
          ((context.withQuads quads).elements (element :: rest) operation' filters') := by
      rw [elements_member context isMember, elements_member (context.withQuads quads) isMember]
      refine (compare_pattern compares element inElement ofElement).bind
        fun _ le _ _ right => ?_
      exact finish (compares.closed.simplifiedJoin (comparison.operations_later le alike) right)
        (Comparison.all_expressions_later le ofFilters)
    cases element with
    | filter condition span =>
      rw [elements, elements]
      refine (compare_expression compares condition inElement
        (List.forall_mem_cons.1 ofElement).2).bind fun _ le _ _ condition => ?_
      exact finish (comparison.operations_later le alike)
        (List.rel_append (Comparison.all_expressions_later le ofFilters) (.cons condition .nil))
    | optional pattern span =>
      rw [elements, elements]
      refine (compare_pattern compares pattern inElement (List.forall_mem_cons.1 ofElement).2).bind
        fun _ le _ _ right => ?_
      exact finish (compares.closed.leftJoinOf (comparison.operations_later le alike) right)
        (Comparison.all_expressions_later le ofFilters)
    | minus pattern span =>
      rw [elements, elements]
      refine (compare_pattern compares pattern inElement (List.forall_mem_cons.1 ofElement).2).bind
        fun _ le _ _ right => ?_
      exact finish (compares.closed.minus (comparison.operations_later le alike) right)
        (Comparison.all_expressions_later le ofFilters)
    | bind value name span =>
      obtain ⟨isAllowed, ofValue⟩ := List.forall_mem_cons.1 ofElement
      obtain ⟨inValue, inName⟩ := NameSupply.covers_and.1 inElement
      rw [elements, elements, var_withQuads]
      refine (compare_expression compares value inValue ofValue).bind fun later le _ _ value => ?_
      have ofName := compares.var later (NameSupply.covers_var.1 inName)
      exact finish (compares.closed.extend (compares.binding isAllowed rfl) ofName
        (comparison.operations_later le alike) value) (Comparison.all_expressions_later le ofFilters)
    | bgp | group | union | values | graph | service | subquery => exact asMember rfl

theorem compare_select (compares : context.Compares quads comparison written allowed binds)
    (binding : binds) : ∀ (query : Surface.Select) {world : World}, written.Covers query.names →
    (∀ pattern ∈ query.within, allowed pattern) →
    comparison.Agree comparison.operations world (context.select query)
      ((context.withQuads quads).select query)
  | ⟨duplicates, projection, dataset, pattern, modifiers⟩, world, covers, areAllowed => by
    obtain ⟨ofFirst, ofModifiers⟩ := List.forall_mem_append.1 areAllowed
    obtain ⟨ofProjection, ofPattern⟩ := List.forall_mem_append.1 ofFirst
    obtain ⟨inFirst, inModifiers⟩ := NameSupply.covers_and.1 covers
    obtain ⟨inProjection, inPattern⟩ := NameSupply.covers_and.1 inFirst
    rw [select, select]
    refine (compare_pattern compares pattern inPattern ofPattern).bind
      fun _ _ input input' ofInput => ?_
    refine Agree.bind (compare_projection compares projection inProjection ofProjection [] [] .nil)
      fun _ le₂ found found' ofFound => ?_
    refine (compare_solutions compares binding modifiers inModifiers ofModifiers ofFound.1
      ofFound.2 (comparison.operations_later le₂ ofInput)).bind
      fun _ le₃ solutions solutions' ofSolutions => ?_
    have ofShown := related_shown compares projection inPattern (covers_values inModifiers)
      (Comparison.items_later le₃ ofFound.1)
    exact compare_overDataset compares binding dataset (compares.closed.sliced binding _ _
      (compares.closed.withDuplicates binding duplicates
        (compares.closed.project binding ofShown ofSolutions)))

theorem compare_projection (compares : context.Compares quads comparison written allowed binds) :
    ∀ (projection : Surface.Projection) {world : World}, written.Covers projection.names →
    (∀ pattern ∈ projection.within, allowed pattern) →
    Extracting.Compare comparison (fun world => List.Forall₂ (comparison.items world)) world
      (context.projection projection) ((context.withQuads quads).projection projection)
  | .all, _, _, _ => .pure .nil
  | .items items, _, covers, areAllowed => by
    rw [projection, projection]
    exact compare_selectItems compares items covers areAllowed

theorem compare_selectItems (compares : context.Compares quads comparison written allowed binds) :
    ∀ (items : List Surface.SelectItem) {world : World},
    written.Covers (Surface.SelectItem.namesOfAll items) →
    (∀ pattern ∈ Surface.SelectItem.withinAll items, allowed pattern) →
    Extracting.Compare comparison (fun world => List.Forall₂ (comparison.items world)) world
      (context.selectItems items) ((context.withQuads quads).selectItems items)
  | [], _, _, _ => .pure .nil
  | .var name :: rest, _, covers, areAllowed => by
    obtain ⟨inName, inRest⟩ := NameSupply.covers_and.1 covers
    rw [selectItems, selectItems, var_withQuads]
    exact (compare_selectItems compares rest inRest areAllowed).bind fun _ _ _ _ others =>
      .pure (.cons ⟨compares.var _ (NameSupply.covers_var.1 inName), .none⟩ others)
  | .computed value name :: rest, _, covers, areAllowed => by
    obtain ⟨ofValue, ofRest⟩ := List.forall_mem_append.1 areAllowed
    obtain ⟨inFirst, inRest⟩ := NameSupply.covers_and.1 covers
    obtain ⟨inValue, inName⟩ := NameSupply.covers_and.1 inFirst
    rw [selectItems, selectItems, var_withQuads]
    refine Extracting.Compare.bind (.lift (compare_expression compares value inValue ofValue))
      fun _ _ _ _ value => ?_
    refine (compare_extractAggregates compares.closed compares.new value).bind
      fun _ _ _ _ value => ?_
    refine (compare_selectItems compares rest inRest ofRest).bind fun later le _ _ others => ?_
    have ofName := compares.var later (NameSupply.covers_var.1 inName)
    exact .pure (.cons ⟨ofName, .some (comparison.expressions_later le value)⟩ others)

theorem compare_solutions (compares : context.Compares quads comparison written allowed binds)
    (binding : binds) : ∀ (modifiers : Surface.Modifiers) {world : World}
    {selected selected' : List (Variable × Option Expression)}
    {aggregates aggregates' : List BoundAggregate} {input input' : Operation},
    written.Covers modifiers.names → (∀ pattern ∈ modifiers.within, allowed pattern) →
    List.Forall₂ (comparison.items world) selected selected' →
    List.Forall₂ (comparison.aggregates world) aggregates aggregates' →
    comparison.operations world input input' →
    comparison.Agree comparison.operations world
      (context.solutions selected aggregates input modifiers)
      ((context.withQuads quads).solutions selected' aggregates' input' modifiers)
  | ⟨groupBy, having, orderBy, limit, offset, values⟩, world, selected, selected', aggregates,
      aggregates', input, input', covers, areAllowed, ofSelected, ofAggregates, alike => by
    obtain ⟨inKeys, inHaving, inOrder, inValues⟩ := covers_modifiers.1 covers
    obtain ⟨ofKeys, ofHaving, ofOrder⟩ :
        (∀ keys ∈ groupBy, ∀ pattern ∈ Surface.GroupKey.withinAll keys, allowed pattern)
          ∧ (∀ pattern ∈ Surface.Expression.withinAll having, allowed pattern)
          ∧ ∀ pattern ∈ Surface.OrderKey.withinAll orderBy, allowed pattern := by
      cases groupBy <;> simpa [Surface.Modifiers.within, or_imp, forall_and] using areAllowed
    rw [solutions, solutions]
    refine Agree.bind (compare_conditions compares having inHaving ofHaving _ _ ofAggregates)
      fun w₁ le₁ found found' ofFound => ?_
    obtain ⟨conditions, _⟩ := found
    obtain ⟨conditions', _⟩ := found'
    refine Agree.bind (compare_orderKeys compares orderBy inOrder ofOrder _ _ ofFound.2)
      fun w₂ le₂ found found' ofOrdered => ?_
    obtain ⟨order, aggregates⟩ := found
    obtain ⟨order', aggregates'⟩ := found'
    have upTo₂ := le₁.trans le₂
    have finish : ∀ {w₃ grouped grouped'}, w₂ ≤ w₃ → comparison.operations w₃ grouped grouped' →
        comparison.Agree comparison.operations w₃
          (do
            let joined ← context.joinedWith values
              (conditions.foldl (fun operation condition => .of (.filter operation condition))
                grouped)
            let extended := computed selected joined
            if order.isEmpty then pure extended else pure (.of (.orderBy extended order)))
          (do
            let joined ← (context.withQuads quads).joinedWith values
              (conditions'.foldl (fun operation condition => .of (.filter operation condition))
                grouped')
            let extended := computed selected' joined
            if order'.isEmpty then pure extended else pure (.of (.orderBy extended order'))) := by
      intro w₃ grouped grouped' le₃ ofGrouped
      have having₃ := Comparison.all_expressions_later (le₂.trans le₃) ofFound.1
      refine (compare_joinedWith compares inValues
        (compares.closed.conditions having₃ ofGrouped)).bind fun _ le₄ joined joined' ofJoined => ?_
      have extended := compares.closed.computed binding
        (Comparison.items_later ((upTo₂.trans le₃).trans le₄) ofSelected) ofJoined
      cases ofOrdered.1 with
      | nil => exact .pure extended
      | cons first rest =>
        have keys := Comparison.all_expressions_later (le₃.trans le₄) (.cons first rest)
        cases keys with
        | cons first rest => exact .pure (compares.closed.orderBy binding extended (.cons first rest))
    have input₂ := comparison.operations_later upTo₂ alike
    cases groupBy with
    | some keys =>
      refine (compare_groupKeys compares binding keys inKeys (ofKeys keys rfl) input₂).bind
        fun _ le₃ bound bound' ofBound => ?_
      obtain ⟨input, vars⟩ := bound
      obtain ⟨input', vars'⟩ := bound'
      exact finish le₃ (compares.closed.group binding ofBound.2 ofBound.1
        (Comparison.aggregates_later le₃ ofOrdered.2))
    | none =>
      cases ofOrdered.2 with
      | nil => exact finish le_rfl input₂
      | cons first rest =>
        exact finish le_rfl (compares.closed.group binding .nil input₂ (.cons first rest))

theorem compare_conditions (compares : context.Compares quads comparison written allowed binds) :
    ∀ (conditions : List Surface.Expression) {world : World},
    written.Covers (Surface.Expression.namesOfAll conditions) →
    (∀ pattern ∈ Surface.Expression.withinAll conditions, allowed pattern) →
    Extracting.Compare comparison (fun world => List.Forall₂ (comparison.expressions world)) world
      (context.conditions conditions) ((context.withQuads quads).conditions conditions)
  | [], _, _, _ => .pure .nil
  | condition :: rest, _, covers, areAllowed => by
    obtain ⟨ofCondition, ofRest⟩ := List.forall_mem_append.1 areAllowed
    obtain ⟨inCondition, inRest⟩ := NameSupply.covers_and.1 covers
    rw [conditions, conditions]
    refine Extracting.Compare.bind
      (.lift (compare_expression compares condition inCondition ofCondition))
      fun _ _ _ _ condition => ?_
    refine (compare_extractAggregates compares.closed compares.new condition).bind
      fun _ _ _ _ condition => ?_
    exact (compare_conditions compares rest inRest ofRest).bind fun _ le _ _ others =>
      .pure (.cons (comparison.expressions_later le condition) others)

theorem compare_orderKeys (compares : context.Compares quads comparison written allowed binds) :
    ∀ (keys : List Surface.OrderKey) {world : World},
    written.Covers (Surface.OrderKey.namesOfAll keys) →
    (∀ pattern ∈ Surface.OrderKey.withinAll keys, allowed pattern) →
    Extracting.Compare comparison (fun world => List.Forall₂ (comparison.expressions world)) world
      (context.orderKeys keys) ((context.withQuads quads).orderKeys keys)
  | [], _, _, _ => .pure .nil
  | .var name direction :: rest, _, covers, areAllowed => by
    obtain ⟨inName, inRest⟩ := NameSupply.covers_and.1 covers
    rw [orderKeys, orderKeys, var_withQuads]
    refine (compare_orderKeys compares rest inRest areAllowed).bind fun later _ _ _ others => ?_
    have ofName := compares.var later (NameSupply.covers_var.1 inName)
    exact .pure (.cons (compares.closed.orderKey direction (compares.closed.term ofName)) others)
  | .computed value direction :: rest, _, covers, areAllowed => by
    obtain ⟨ofValue, ofRest⟩ := List.forall_mem_append.1 areAllowed
    obtain ⟨inValue, inRest⟩ := NameSupply.covers_and.1 covers
    rw [orderKeys, orderKeys]
    refine Extracting.Compare.bind (.lift (compare_expression compares value inValue ofValue))
      fun _ _ _ _ value => ?_
    refine (compare_extractAggregates compares.closed compares.new value).bind
      fun _ _ _ _ value => ?_
    exact (compare_orderKeys compares rest inRest ofRest).bind fun _ le _ _ others =>
      .pure (.cons (compares.closed.orderKey direction (comparison.expressions_later le value))
        others)

theorem compare_groupKeys (compares : context.Compares quads comparison written allowed binds)
    (binding : binds) : ∀ (keys : List Surface.GroupKey) {world : World}
    {operation operation' : Operation}, written.Covers (Surface.GroupKey.namesOfAll keys) →
    (∀ pattern ∈ Surface.GroupKey.withinAll keys, allowed pattern) →
    comparison.operations world operation operation' →
    comparison.Agree
      (fun world bound bound' => comparison.operations world bound.1 bound'.1
        ∧ List.Forall₂ (comparison.vars world) bound.2 bound'.2)
      world (context.groupKeys keys operation) ((context.withQuads quads).groupKeys keys operation')
  | [], _, _, _, _, _, alike => by
    rw [groupKeys, groupKeys]
    exact .pure ⟨alike, .nil⟩
  | .var name :: rest, _, _, _, covers, areAllowed, alike => by
    obtain ⟨inName, inRest⟩ := NameSupply.covers_and.1 covers
    rw [groupKeys, groupKeys, var_withQuads]
    exact (compare_groupKeys compares binding rest inRest areAllowed alike).bind
      fun _ _ _ _ bound =>
        .pure ⟨bound.1, .cons (compares.var _ (NameSupply.covers_var.1 inName)) bound.2⟩
  | .computed value name :: rest, _, operation, operation', covers, areAllowed, alike => by
    obtain ⟨ofValue, ofRest⟩ := List.forall_mem_append.1 areAllowed
    obtain ⟨inFirst, inRest⟩ := NameSupply.covers_and.1 covers
    obtain ⟨inValue, inName⟩ := NameSupply.covers_and.1 inFirst
    rw [groupKeys, groupKeys]
    refine (compare_expression compares value inValue ofValue).bind
      fun w₁ le₁ value value' alikeValue => ?_
    have finish {w₂ : World} (le₂ : w₁ ≤ w₂) {name name' : Variable}
        (ofName : comparison.vars w₂ name name') :
        comparison.Agree
          (fun world bound bound' => comparison.operations world bound.1 bound'.1
            ∧ List.Forall₂ (comparison.vars world) bound.2 bound'.2)
          w₂
          (do
            let (operation, vars) ← context.groupKeys rest (.of (.extend operation name value))
            pure (operation, name :: vars))
          (do
            let (operation, vars) ←
              (context.withQuads quads).groupKeys rest (.of (.extend operation' name' value'))
            pure (operation, name' :: vars)) :=
      (compare_groupKeys compares binding rest inRest ofRest
        (compares.closed.extend binding ofName (comparison.operations_later (le₁.trans le₂) alike)
          (comparison.expressions_later le₂ alikeValue))).bind
        fun _ le₃ _ _ bound =>
          .pure ⟨bound.1, .cons (comparison.terms_later le₃ ofName) bound.2⟩
    cases name with
    | some name => exact finish le_rfl (compares.var _ (NameSupply.covers_var.1 inName))
    | none => exact (compares.new w₁).bind fun _ le₂ _ _ ofName => finish le₂ ofName

end

/-! ### Queries -/

theorem compare_construct (compares : context.Compares quads comparison written allowed binds)
    (binding : binds) {query : Surface.Construct} (covers : written.Covers query.names)
    (areAllowed : ∀ pattern ∈ query.pattern.within ++ query.modifiers.within, allowed pattern) :
    comparison.Agree comparison.operations world (context.construct query)
      ((context.withQuads quads).construct query) := by
  obtain ⟨template, dataset, pattern, modifiers⟩ := query
  obtain ⟨ofPattern, ofModifiers⟩ := List.forall_mem_append.1 areAllowed
  obtain ⟨inFirst, inModifiers⟩ := NameSupply.covers_and.1 covers
  obtain ⟨inTemplate, inPattern⟩ := NameSupply.covers_and.1 inFirst
  have inTriples : written.Covers
      (Surface.Names.all Surface.Triple.names (template.getD pattern.triples)) := by
    cases template with
    | none => exact NameSupply.covers_all.2 (covers_patternTriples pattern inPattern)
    | some triples => exact inTemplate
  rw [construct, construct]
  refine (compare_pattern compares pattern inPattern ofPattern).bind fun _ _ _ _ input => ?_
  refine (compare_solutions compares binding modifiers inModifiers ofModifiers .nil .nil input).bind
    fun _ _ _ _ solutions => ?_
  rw [template_withQuads, factory_withQuads]
  refine (compares.template _ inTriples).bind fun _ le _ _ ofTemplate => ?_
  exact compare_overDataset compares binding dataset (compares.closed.sliced binding _ _
    (compares.closed.construct binding ofTemplate (comparison.operations_later le solutions)))

private theorem related_resources
    (compares : context.Compares quads comparison written allowed binds)
    {resources : List Surface.VarOrIri}
    (covers : ∀ name ∈ resources, written.Covers name.names) {terms : List Term}
    (success : context.resources resources = .ok terms) :
    ∀ term ∈ terms, comparison.terms world term term := by
  induction resources generalizing terms with
  | nil =>
    cases success
    exact List.forall_mem_nil _
  | cons name rest ih =>
    rw [List.forall_mem_cons] at covers
    rw [Context.resources] at success
    obtain ⟨term, isName, success⟩ := ok_of_bind success
    obtain ⟨others, areOthers, finished⟩ := ok_of_bind success
    cases finished
    exact List.forall_mem_cons.2
      ⟨compares_varOrIri compares covers.1 isName, ih covers.2 areOthers⟩

private theorem related_described
    (compares : context.Compares quads comparison written allowed binds)
    {query : Surface.Describe} (covers : written.Covers query.names) {terms : List Term}
    (success : context.described query = .ok terms) :
    ∀ term ∈ terms, comparison.terms world term term := by
  obtain ⟨target, dataset, pattern, modifiers⟩ := query
  obtain ⟨inFirst, inModifiers⟩ := NameSupply.covers_and.1 covers
  obtain ⟨inTarget, inPattern⟩ := NameSupply.covers_and.1 inFirst
  cases target with
  | resources resources =>
    exact related_resources compares (NameSupply.covers_all.1 inTarget) success
  | all =>
    cases success
    intro term member
    obtain ⟨name, isStarred, rfl⟩ := List.mem_map.1 member
    exact related_starred compares inPattern (covers_values inModifiers) name isStarred

theorem compare_describe (compares : context.Compares quads comparison written allowed binds)
    (binding : binds) {query : Surface.Describe} (covers : written.Covers query.names)
    (areAllowed : ∀ pattern ∈ (query.pattern.map Surface.Pattern.within).getD []
      ++ query.modifiers.within, allowed pattern) :
    comparison.Agree comparison.operations world (context.describe query)
      ((context.withQuads quads).describe query) := by
  obtain ⟨target, dataset, pattern, modifiers⟩ := query
  obtain ⟨ofPattern, ofModifiers⟩ := List.forall_mem_append.1 areAllowed
  obtain ⟨inFirst, inModifiers⟩ := NameSupply.covers_and.1 covers
  obtain ⟨-, inPattern⟩ := NameSupply.covers_and.1 inFirst
  have finish : ∀ {later input input'}, comparison.operations later input input' →
      comparison.Agree comparison.operations later
        (do
          let solutions ← context.solutions [] [] input modifiers
          let terms ← context.described ⟨target, dataset, pattern, modifiers⟩
          context.overDataset dataset
            (sliced modifiers.limit modifiers.offset (.of (.wrap (.describe terms) solutions))))
        (do
          let solutions ← (context.withQuads quads).solutions [] [] input' modifiers
          let terms ← (context.withQuads quads).described ⟨target, dataset, pattern, modifiers⟩
          (context.withQuads quads).overDataset dataset
            (sliced modifiers.limit modifiers.offset
              (.of (.wrap (.describe terms) solutions)))) := by
    intro later input input' alike
    refine (compare_solutions compares binding modifiers inModifiers ofModifiers .nil .nil
      alike).bind fun last _ _ _ solutions => ?_
    rw [described_withQuads]
    refine .bindLift fun terms areDescribed => ?_
    have ofTerms : List.Forall₂ (comparison.terms last) terms terms :=
      List.forall₂_same.2 (related_described compares covers areDescribed)
    exact compare_overDataset compares binding dataset (compares.closed.sliced binding _ _
      (compares.closed.describe binding ofTerms solutions))
  rw [describe, describe]
  cases pattern with
  | none => exact finish (compares.closed.empty world)
  | some pattern =>
    exact (compare_pattern compares pattern inPattern ofPattern).bind fun _ _ _ _ => finish

/-- Queries are made in step. -/
theorem compare_query (compares : context.Compares quads comparison written allowed binds)
    (binding : binds) {query : Surface.Query} (covers : written.Covers query.names)
    (areAllowed : ∀ pattern ∈ query.within, allowed pattern) :
    comparison.Agree comparison.operations world (context.query query)
      ((context.withQuads quads).query query) := by
  cases query with
  | select query => exact compare_select compares binding query covers areAllowed
  | construct query => exact compare_construct compares binding covers areAllowed
  | ask query =>
    obtain ⟨ofPattern, ofModifiers⟩ := List.forall_mem_append.1 areAllowed
    obtain ⟨inPattern, inModifiers⟩ := NameSupply.covers_and.1 covers
    rw [Context.query, Context.query, ask, ask]
    refine (compare_pattern compares query.pattern inPattern ofPattern).bind
      fun _ _ _ _ input => ?_
    refine (compare_solutions compares binding query.modifiers inModifiers ofModifiers .nil .nil
      input).bind fun _ _ _ _ solutions => ?_
    exact compare_overDataset compares binding query.dataset
      (compares.closed.sliced binding _ _ (compares.closed.wrap binding rfl rfl solutions))
  | describe query => exact compare_describe compares binding covers areAllowed

end Context

end QueryAlgebra
