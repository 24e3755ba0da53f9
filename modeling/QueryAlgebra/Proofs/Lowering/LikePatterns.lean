import QueryAlgebra.Lowering.Request
import QueryAlgebra.Proofs.Lowering.Likeness
import QueryAlgebra.Proofs.Lowering.Translation
import QueryAlgebra.Proofs.Surface.PatternParts

/-! # Related operations of patterns and queries

Two contexts that differ in whether graph names are put into patterns make related operations of
what is written, and take the same names for it, if they do so of basic graph patterns, inline data
and graph blocks: `Context.agree_pattern`, `Context.agree_query`. What is known of all patterns that
are written may be used for the graph blocks among them.
-/

namespace QueryAlgebra

open Lowering (Agree Alike Yields)

/-- Contexts that make related operations of basic graph patterns, inline data and graph blocks.
Expressions are bound to variables if patterns that do so are allowed. -/
structure Context.Keeps (context : Context) (quads : Bool) (likeness : Likeness)
    (allowed : Surface.Pattern → Prop) (binds : Prop) : Prop where
  closed : likeness.Closed binds
  defaultGraph : context.factory.defaultGraph = .defaultGraph
  triples (written : List Surface.Triple) :
    Yields (fun operation => likeness.operations operation operation)
      (context.basicGraphPattern written)
  data (written : Surface.InlineData) :
    Yields (fun operation => likeness.operations operation operation) (context.inlineData written)
  binding {pattern : Surface.Pattern} : allowed pattern → pattern.isBinding = true → binds
  graph {name : Surface.VarOrIri} {pattern : Surface.Pattern} {span : Surface.Span} {block : Term}
    {input input' : Operation} {supply after : NameSupply} : allowed (.graph name pattern span) →
    context.pattern pattern supply = .ok input after → context.varOrIri name = .ok block →
    likeness.operations input input' →
    Alike likeness.operations
      ((do
        let input ← if context.quads then context.embedGraph block input else pure input
        pure (input.graph block)) after)
      ((do
        let input ← if quads then (context.withQuads quads).embedGraph block input' else pure input'
        pure (input.graph block)) after)

namespace Context

variable {context : Context} {quads : Bool} {likeness : Likeness}
  {allowed : Surface.Pattern → Prop} {binds : Prop}

/-- Blocks are named by variables and IRIs. -/
theorem varOrIri_cases {written : Surface.VarOrIri} {name : Term}
    (success : context.varOrIri written = .ok name) :
    (∃ own, name = .var own) ∨ ∃ node, name = .iri node := by
  cases written with
  | var =>
    cases success
    exact .inl ⟨_, rfl⟩
  | iri iri =>
    rw [varOrIri] at success
    cases resolved : context.namedNode iri with
    | error error =>
      rw [resolved] at success
      cases success
    | ok node =>
      rw [resolved] at success
      cases success
      exact .inr ⟨_, rfl⟩

theorem agree_joinedWith (keeps : context.Keeps quads likeness allowed binds)
    (values : Option Surface.InlineData) {operation operation' : Operation}
    (alike : likeness.operations operation operation') :
    Agree likeness.operations (context.joinedWith values operation)
      ((context.withQuads quads).joinedWith values operation') := by
  rw [joinedWith_withQuads]
  cases values with
  | none => exact .pure alike
  | some data =>
    rw [joinedWith, joinedWith]
    exact (keeps.data data).agree.bind fun _ _ ofTable => .pure (keeps.closed.join alike ofTable)

theorem agree_overDataset (keeps : context.Keeps quads likeness allowed binds) (binding : binds)
    (dataset : Option Surface.Dataset) {operation operation' : Operation}
    (alike : likeness.operations operation operation') :
    Agree likeness.operations (context.overDataset dataset operation)
      ((context.withQuads quads).overDataset dataset operation') := by
  rw [overDataset_withQuads]
  cases dataset with
  | none => exact .pure alike
  | some dataset =>
    rw [overDataset, overDataset]
    split
    · exact .pure alike
    · cases context.namedNodes dataset.default with
      | error error => exact fun _ => .error
      | ok default =>
        cases context.namedNodes dataset.named with
        | error error => exact fun _ => .error
        | ok named => exact .pure (keeps.closed.wrap binding rfl alike)

private theorem shown_alike (projection : Surface.Projection) (pattern : Surface.Pattern)
    (values : Option Surface.InlineData) {selected selected' : List (Variable × Option Expression)}
    (ofItems : List.Forall₂ likeness.Items selected selected') :
    (context.withQuads quads).shown projection pattern values selected'
      = context.shown projection pattern values selected := by
  rw [shown_withQuads]
  cases projection with
  | all => rfl
  | items items =>
    show selected'.map (·.1) = selected.map (·.1)
    induction ofItems with
    | nil => rfl
    | cons ofItem _ ih => rw [List.map_cons, List.map_cons, ofItem.1, ih]

mutual

theorem agree_expression (keeps : context.Keeps quads likeness allowed binds) :
    ∀ expression : Surface.Expression, (∀ pattern ∈ expression.within, allowed pattern) →
    Agree likeness.expressions (context.expression expression)
      ((context.withQuads quads).expression expression)
  | .var name, _ => by
    rw [expression, expression]
    exact .pure (keeps.closed.term _)
  | .iri iri, _ => by
    rw [expression, expression, namedNode_withQuads]
    exact .same_bind fun node => .pure (keeps.closed.term _)
  | .literal literal, _ => by
    rw [expression, expression, literal_withQuads]
    exact .same_bind fun literal => .pure (keeps.closed.term _)
  | .binary op left right, areAllowed => by
    obtain ⟨ofLeft, ofRight⟩ := List.forall_mem_append.1 areAllowed
    rw [expression, expression]
    exact (agree_expression keeps left ofLeft).bind fun _ _ left =>
      (agree_expression keeps right ofRight).bind fun _ _ right =>
        .pure (keeps.closed.operator _ (.cons left (.cons right .nil)))
  | .unary op operand, areAllowed => by
    rw [expression, expression]
    exact (agree_expression keeps operand areAllowed).bind fun _ _ operand =>
      .pure (keeps.closed.operator _ (.cons operand .nil))
  | .call function arguments _, areAllowed => by
    rw [expression, expression, callee_withQuads]
    exact (agree_expressions keeps arguments areAllowed).bind fun _ _ arguments =>
      .same_bind fun callee => .pure (keeps.closed.call callee arguments)
  | .ifElse condition positive negative, areAllowed => by
    obtain ⟨ofFirst, ofNegative⟩ := List.forall_mem_append.1 areAllowed
    obtain ⟨ofCondition, ofPositive⟩ := List.forall_mem_append.1 ofFirst
    rw [expression, expression]
    exact (agree_expression keeps condition ofCondition).bind fun _ _ condition =>
      (agree_expression keeps positive ofPositive).bind fun _ _ positive =>
      (agree_expression keeps negative ofNegative).bind fun _ _ negative =>
        .pure (keeps.closed.operator _ (.cons condition (.cons positive (.cons negative .nil))))
  | .coalesce arguments, areAllowed => by
    rw [expression, expression]
    exact (agree_expressions keeps arguments areAllowed).bind fun _ _ arguments =>
      .pure (keeps.closed.operator _ arguments)
  | .among value choices negated, areAllowed => by
    obtain ⟨ofValue, ofChoices⟩ := List.forall_mem_append.1 areAllowed
    rw [expression, expression]
    exact (agree_expression keeps value ofValue).bind fun _ _ value =>
      (agree_expressions keeps choices ofChoices).bind fun _ _ choices =>
        .pure (keeps.closed.operator _ (.cons value choices))
  | .existence negated pattern, areAllowed => by
    rw [expression, expression]
    exact (agree_pattern keeps pattern areAllowed).bind fun _ _ input =>
      .pure (keeps.closed.existence negated input)
  | .aggregate function none distinct separator, _ => by
    rw [expression, expression]
    exact .pure (keeps.closed.aggregate _ distinct separator keeps.closed.wildcard)
  | .aggregate function (some argument) distinct separator, areAllowed => by
    rw [expression, expression]
    exact (agree_expression keeps argument areAllowed).bind fun _ _ argument =>
      .pure (keeps.closed.aggregate _ distinct separator argument)
  | .bracketed inner, areAllowed => by
    rw [expression, expression]
    exact agree_expression keeps inner areAllowed

theorem agree_expressions (keeps : context.Keeps quads likeness allowed binds) :
    ∀ written : List Surface.Expression,
    (∀ pattern ∈ Surface.Expression.withinAll written, allowed pattern) →
    Agree (List.Forall₂ likeness.expressions) (context.expressions written)
      ((context.withQuads quads).expressions written)
  | [], _ => .pure .nil
  | first :: rest, areAllowed => by
    obtain ⟨ofFirst, ofRest⟩ := List.forall_mem_append.1 areAllowed
    rw [expressions, expressions]
    exact (agree_expression keeps first ofFirst).bind fun _ _ first =>
      (agree_expressions keeps rest ofRest).bind fun _ _ rest => .pure (.cons first rest)

theorem agree_pattern (keeps : context.Keeps quads likeness allowed binds) :
    ∀ pattern : Surface.Pattern, (∀ inner ∈ pattern.within, allowed inner) →
    Agree likeness.operations (context.pattern pattern) ((context.withQuads quads).pattern pattern)
  | .bgp triples _, _ => by
    rw [pattern, pattern, basicGraphPattern_withQuads]
    exact (keeps.triples triples).agree
  | .group elements _, areAllowed => by
    rw [pattern, pattern]
    exact (agree_elements keeps elements (List.forall_mem_cons.1 areAllowed).2 keeps.closed.empty
      .nil).bind fun _ _ treated => .pure (keeps.closed.filtered treated.1 treated.2)
  | .union left right _, areAllowed => by
    obtain ⟨ofLeft, ofRight⟩ := List.forall_mem_append.1 (List.forall_mem_cons.1 areAllowed).2
    rw [pattern, pattern]
    exact (agree_pattern keeps left ofLeft).bind fun _ _ left =>
      (agree_pattern keeps right ofRight).bind fun _ _ right =>
        .pure (keeps.closed.union left right)
  | .graph name pattern _, areAllowed => by
    obtain ⟨isAllowed, ofPattern⟩ := List.forall_mem_cons.1 areAllowed
    rw [Context.pattern, Context.pattern, varOrIri_withQuads]
    intro supply
    refine (agree_pattern keeps pattern ofPattern supply).bind
      fun input input' after made alike => ?_
    cases named : context.varOrIri name with
    | error error => exact .error
    | ok block => exact keeps.graph isAllowed made named alike
  | .service silent endpoint pattern _, areAllowed => by
    rw [Context.pattern, Context.pattern, varOrIri_withQuads]
    exact (agree_pattern keeps pattern (List.forall_mem_cons.1 areAllowed).2).bind fun _ _ input =>
      .same_bind fun name => .pure (keeps.closed.service name silent input)
  | .values data _, _ => by
    rw [pattern, pattern, inlineData_withQuads]
    exact (keeps.data data).agree
  | .subquery query _, areAllowed => by
    obtain ⟨isAllowed, ofQuery⟩ := List.forall_mem_cons.1 areAllowed
    rw [pattern, pattern]
    exact agree_select keeps (keeps.binding isAllowed rfl) query ofQuery
  | .optional _ _, _ | .minus _ _, _ | .filter _ _, _ | .bind _ _ _, _ => fun _ => .error

theorem agree_elements (keeps : context.Keeps quads likeness allowed binds) :
    ∀ (elements : List Surface.Pattern) {operation operation' : Operation}
    {filters filters' : List Expression},
    (∀ pattern ∈ Surface.Pattern.withinAll elements, allowed pattern) →
    likeness.operations operation operation' → List.Forall₂ likeness.expressions filters filters' →
    Agree likeness.Groups (context.elements elements operation filters)
      ((context.withQuads quads).elements elements operation' filters')
  | [], _, _, _, _, _, alike, ofFilters => by
    rw [elements, elements]
    exact .pure ⟨alike, ofFilters⟩
  | element :: rest, operation, operation', filters, filters', areAllowed, alike, ofFilters => by
    obtain ⟨ofElement, ofRest⟩ := List.forall_mem_append.1 areAllowed
    have finish : ∀ {operation operation' filters filters'},
        likeness.operations operation operation' →
        List.Forall₂ likeness.expressions filters filters' →
        Agree likeness.Groups (context.elements rest operation filters)
          ((context.withQuads quads).elements rest operation' filters') :=
      fun alike ofFilters => agree_elements keeps rest ofRest alike ofFilters
    have asMember (isMember : element.isMember = true) :
        Agree likeness.Groups (context.elements (element :: rest) operation filters)
          ((context.withQuads quads).elements (element :: rest) operation' filters') := by
      rw [elements_member context isMember, elements_member (context.withQuads quads) isMember]
      exact (agree_pattern keeps element ofElement).bind fun _ _ right =>
        finish (keeps.closed.simplifiedJoin alike right) ofFilters
    cases element with
    | filter condition span =>
      rw [elements, elements]
      exact (agree_expression keeps condition (List.forall_mem_cons.1 ofElement).2).bind
        fun _ _ condition => finish alike (List.rel_append ofFilters (.cons condition .nil))
    | optional pattern span =>
      rw [elements, elements]
      exact (agree_pattern keeps pattern (List.forall_mem_cons.1 ofElement).2).bind
        fun _ _ right => finish (keeps.closed.leftJoinOf alike right) ofFilters
    | minus pattern span =>
      rw [elements, elements]
      exact (agree_pattern keeps pattern (List.forall_mem_cons.1 ofElement).2).bind
        fun _ _ right => finish (keeps.closed.minus alike right) ofFilters
    | bind value name span =>
      obtain ⟨isAllowed, ofValue⟩ := List.forall_mem_cons.1 ofElement
      rw [elements, elements, var_withQuads]
      exact (agree_expression keeps value ofValue).bind fun _ _ value =>
        finish (keeps.closed.extend (keeps.binding isAllowed rfl) _ alike value) ofFilters
    | bgp | group | union | values | graph | service | subquery => exact asMember rfl

theorem agree_select (keeps : context.Keeps quads likeness allowed binds) (binding : binds) :
    ∀ query : Surface.Select, (∀ pattern ∈ query.within, allowed pattern) →
    Agree likeness.operations (context.select query) ((context.withQuads quads).select query)
  | ⟨duplicates, projection, dataset, pattern, modifiers⟩, areAllowed => by
    obtain ⟨ofFirst, ofModifiers⟩ := List.forall_mem_append.1 areAllowed
    obtain ⟨ofProjection, ofPattern⟩ := List.forall_mem_append.1 ofFirst
    rw [select, select]
    refine (agree_pattern keeps pattern ofPattern).bind fun input input' ofInput => ?_
    refine Agree.bind (agree_projection keeps projection ofProjection [] [] .nil)
      fun found found' ofFound => ?_
    refine (agree_solutions keeps binding modifiers ofModifiers ofFound.1 ofFound.2 ofInput).bind
      fun solutions solutions' ofSolutions => ?_
    rw [shown_alike projection pattern modifiers.values ofFound.1]
    exact agree_overDataset keeps binding dataset (keeps.closed.sliced binding _ _
      (keeps.closed.withDuplicates binding duplicates (keeps.closed.wrap binding rfl ofSolutions)))

theorem agree_projection (keeps : context.Keeps quads likeness allowed binds) :
    ∀ projection : Surface.Projection, (∀ pattern ∈ projection.within, allowed pattern) →
    Extracting.Agree likeness (List.Forall₂ likeness.Items) (context.projection projection)
      ((context.withQuads quads).projection projection)
  | .all, _ => .pure .nil
  | .items items, areAllowed => by
    rw [projection, projection]
    exact agree_selectItems keeps items areAllowed

theorem agree_selectItems (keeps : context.Keeps quads likeness allowed binds) :
    ∀ items : List Surface.SelectItem,
    (∀ pattern ∈ Surface.SelectItem.withinAll items, allowed pattern) →
    Extracting.Agree likeness (List.Forall₂ likeness.Items) (context.selectItems items)
      ((context.withQuads quads).selectItems items)
  | [], _ => .pure .nil
  | .var name :: rest, areAllowed => by
    rw [selectItems, selectItems, var_withQuads]
    exact (agree_selectItems keeps rest areAllowed).bind fun _ _ others =>
      .pure (.cons ⟨rfl, .none⟩ others)
  | .computed value name :: rest, areAllowed => by
    obtain ⟨ofValue, ofRest⟩ := List.forall_mem_append.1 areAllowed
    rw [selectItems, selectItems, var_withQuads]
    refine Extracting.Agree.bind (.lift (agree_expression keeps value ofValue)) fun _ _ value => ?_
    refine (agree_extractAggregates context quads keeps.closed value).bind fun _ _ value => ?_
    exact (agree_selectItems keeps rest ofRest).bind fun _ _ others =>
      .pure (.cons ⟨rfl, .some value⟩ others)

theorem agree_solutions (keeps : context.Keeps quads likeness allowed binds) (binding : binds) :
    ∀ (modifiers : Surface.Modifiers) {selected selected' : List (Variable × Option Expression)}
    {aggregates aggregates' : List BoundAggregate} {input input' : Operation},
    (∀ pattern ∈ modifiers.within, allowed pattern) →
    List.Forall₂ likeness.Items selected selected' →
    List.Forall₂ likeness.Aggregates aggregates aggregates' → likeness.operations input input' →
    Agree likeness.operations (context.solutions selected aggregates input modifiers)
      ((context.withQuads quads).solutions selected' aggregates' input' modifiers)
  | ⟨groupBy, having, orderBy, limit, offset, values⟩, selected, selected', aggregates, aggregates',
      input, input', areAllowed, ofSelected, ofAggregates, alike => by
    obtain ⟨ofKeys, ofHaving, ofOrder⟩ :
        (∀ keys ∈ groupBy, ∀ pattern ∈ Surface.GroupKey.withinAll keys, allowed pattern)
          ∧ (∀ pattern ∈ Surface.Expression.withinAll having, allowed pattern)
          ∧ ∀ pattern ∈ Surface.OrderKey.withinAll orderBy, allowed pattern := by
      cases groupBy <;> simpa [Surface.Modifiers.within, or_imp, forall_and] using areAllowed
    rw [solutions, solutions]
    refine Agree.bind (agree_conditions keeps having ofHaving _ _ ofAggregates)
      fun found found' ofFound => ?_
    obtain ⟨conditions, _⟩ := found
    obtain ⟨conditions', _⟩ := found'
    refine Agree.bind (agree_orderKeys keeps orderBy ofOrder _ _ ofFound.2)
      fun found found' ofOrdered => ?_
    obtain ⟨order, aggregates⟩ := found
    obtain ⟨order', aggregates'⟩ := found'
    have finish : ∀ {grouped grouped'}, likeness.operations grouped grouped' →
        Agree likeness.operations
          (do
            let joined ← context.joinedWith values
              (conditions.foldl (fun operation condition => .of (.filter operation condition))
                grouped)
            let extended := computed selected joined
            if order.isEmpty then pure extended else pure (.of (.orderBy extended order)))
          (do
            let joined ← (context.withQuads quads).joinedWith values
              (conditions'.foldl (fun operation condition => .of (.filter operation condition))
                grouped')
            let extended := computed selected' joined
            if order'.isEmpty then pure extended else pure (.of (.orderBy extended order'))) := by
      intro grouped grouped' ofGrouped
      refine (agree_joinedWith keeps values (keeps.closed.conditions ofFound.1 ofGrouped)).bind
        fun joined joined' ofJoined => ?_
      have extended := keeps.closed.computed binding ofSelected ofJoined
      cases ofOrdered.1 with
      | nil => exact .pure extended
      | cons first rest => exact .pure (keeps.closed.orderBy binding extended (.cons first rest))
    cases groupBy with
    | some keys =>
      refine (agree_groupKeys keeps binding keys (ofKeys keys rfl) alike).bind
        fun bound bound' ofBound => ?_
      obtain ⟨input, vars⟩ := bound
      obtain ⟨input', vars'⟩ := bound'
      obtain ⟨alike, rfl⟩ := ofBound
      exact finish (keeps.closed.group binding vars alike ofOrdered.2)
    | none =>
      cases ofOrdered.2 with
      | nil => exact finish alike
      | cons first rest => exact finish (keeps.closed.group binding [] alike (.cons first rest))

theorem agree_conditions (keeps : context.Keeps quads likeness allowed binds) :
    ∀ conditions : List Surface.Expression,
    (∀ pattern ∈ Surface.Expression.withinAll conditions, allowed pattern) →
    Extracting.Agree likeness (List.Forall₂ likeness.expressions) (context.conditions conditions)
      ((context.withQuads quads).conditions conditions)
  | [], _ => .pure .nil
  | condition :: rest, areAllowed => by
    obtain ⟨ofCondition, ofRest⟩ := List.forall_mem_append.1 areAllowed
    rw [conditions, conditions]
    refine Extracting.Agree.bind (.lift (agree_expression keeps condition ofCondition))
      fun _ _ condition => ?_
    refine (agree_extractAggregates context quads keeps.closed condition).bind
      fun _ _ condition => ?_
    exact (agree_conditions keeps rest ofRest).bind fun _ _ others => .pure (.cons condition others)

theorem agree_orderKeys (keeps : context.Keeps quads likeness allowed binds) :
    ∀ keys : List Surface.OrderKey,
    (∀ pattern ∈ Surface.OrderKey.withinAll keys, allowed pattern) →
    Extracting.Agree likeness (List.Forall₂ likeness.expressions) (context.orderKeys keys)
      ((context.withQuads quads).orderKeys keys)
  | [], _ => .pure .nil
  | .var name direction :: rest, areAllowed => by
    rw [orderKeys, orderKeys, var_withQuads]
    exact (agree_orderKeys keeps rest areAllowed).bind fun _ _ others =>
      .pure (.cons (keeps.closed.orderKey direction (keeps.closed.term _)) others)
  | .computed value direction :: rest, areAllowed => by
    obtain ⟨ofValue, ofRest⟩ := List.forall_mem_append.1 areAllowed
    rw [orderKeys, orderKeys]
    refine Extracting.Agree.bind (.lift (agree_expression keeps value ofValue)) fun _ _ value => ?_
    refine (agree_extractAggregates context quads keeps.closed value).bind fun _ _ value => ?_
    exact (agree_orderKeys keeps rest ofRest).bind fun _ _ others =>
      .pure (.cons (keeps.closed.orderKey direction value) others)

theorem agree_groupKeys (keeps : context.Keeps quads likeness allowed binds) (binding : binds) :
    ∀ (keys : List Surface.GroupKey) {operation operation' : Operation},
    (∀ pattern ∈ Surface.GroupKey.withinAll keys, allowed pattern) →
    likeness.operations operation operation' →
    Agree (fun bound bound' => likeness.operations bound.1 bound'.1 ∧ bound.2 = bound'.2)
      (context.groupKeys keys operation) ((context.withQuads quads).groupKeys keys operation')
  | [], _, _, _, alike => by
    rw [groupKeys, groupKeys]
    exact .pure ⟨alike, rfl⟩
  | .var name :: rest, _, _, areAllowed, alike => by
    rw [groupKeys, groupKeys, var_withQuads]
    exact (agree_groupKeys keeps binding rest areAllowed alike).bind fun _ _ bound =>
      .pure ⟨bound.1, congrArg (_ :: ·) bound.2⟩
  | .computed value name :: rest, operation, operation', areAllowed, alike => by
    obtain ⟨ofValue, ofRest⟩ := List.forall_mem_append.1 areAllowed
    rw [groupKeys, groupKeys]
    refine (agree_expression keeps value ofValue).bind fun value value' alikeValue => ?_
    have finish (name : Variable) := agree_groupKeys keeps binding rest ofRest
      (keeps.closed.extend binding name alike alikeValue)
    cases name with
    | some name =>
      exact (finish _).bind fun _ _ bound => .pure ⟨bound.1, congrArg (_ :: ·) bound.2⟩
    | none =>
      exact .same_bind fun name => (finish name).bind fun _ _ bound =>
        .pure ⟨bound.1, congrArg (_ :: ·) bound.2⟩

end

/-! ### Queries -/

private theorem templatePatterns_inGraph {graph : Term} {flat : List FlatTriple}
    {patterns : List Pattern}
    (success : templatePatterns graph flat = .ok patterns) :
    ∀ pattern ∈ patterns, pattern.graph = graph := by
  induction flat generalizing patterns with
  | nil =>
    cases success
    exact List.forall_mem_nil _
  | cons triple rest ih =>
    obtain ⟨subject, predicate, object⟩ := triple
    rw [templatePatterns] at success
    cases predicate with
    | path => cases success
    | term predicate =>
      cases ofRest : templatePatterns graph rest with
      | error error =>
        rw [ofRest] at success
        cases success
      | ok others =>
        rw [ofRest] at success
        cases success
        exact List.forall_mem_cons.2 ⟨rfl, ih ofRest⟩

/-- The patterns of a template stand in its graph. -/
theorem template_yields (context : Context) (graph : Term) (written : List Surface.Triple) :
    Yields (fun patterns => ∀ pattern ∈ patterns, pattern.graph = graph)
      (context.template graph written) := by
  rw [template]
  exact .bind_any fun flat => .lift fun _ success => templatePatterns_inGraph success

theorem agree_query (keeps : context.Keeps quads likeness allowed binds) (binding : binds) :
    ∀ query : Surface.Query, (∀ pattern ∈ query.within, allowed pattern) →
    Agree likeness.operations (context.query query) ((context.withQuads quads).query query)
  | .select query, areAllowed => agree_select keeps binding query areAllowed
  | .construct query, areAllowed => by
    obtain ⟨ofPattern, ofModifiers⟩ := List.forall_mem_append.1 areAllowed
    rw [Context.query, Context.query, construct, construct]
    refine (agree_pattern keeps query.pattern ofPattern).bind fun _ _ input => ?_
    refine (agree_solutions keeps binding query.modifiers ofModifiers .nil .nil input).bind
      fun _ _ solutions => ?_
    rw [template_withQuads, factory_withQuads, keeps.defaultGraph]
    refine Agree.bind (R := fun template template' =>
        (∀ pattern ∈ template, pattern.graph = .defaultGraph) ∧ template = template')
      (Yields.agree fun supply template after success =>
        ⟨template_yields context .defaultGraph _ supply template after success, rfl⟩)
      fun template template' ofTemplate => ?_
    obtain ⟨inDefault, rfl⟩ := ofTemplate
    exact agree_overDataset keeps binding query.dataset
      (keeps.closed.sliced binding _ _ (keeps.closed.construct binding inDefault solutions))
  | .ask query, areAllowed => by
    obtain ⟨ofPattern, ofModifiers⟩ := List.forall_mem_append.1 areAllowed
    rw [Context.query, Context.query, ask, ask]
    refine (agree_pattern keeps query.pattern ofPattern).bind fun _ _ input => ?_
    refine (agree_solutions keeps binding query.modifiers ofModifiers .nil .nil input).bind
      fun _ _ solutions => ?_
    exact agree_overDataset keeps binding query.dataset
      (keeps.closed.sliced binding _ _ (keeps.closed.wrap binding rfl solutions))
  | .describe ⟨target, dataset, pattern, modifiers⟩, areAllowed => by
    obtain ⟨ofPattern, ofModifiers⟩ := List.forall_mem_append.1 areAllowed
    have finish : ∀ {input input'}, likeness.operations input input' →
        Agree likeness.operations
          (do
            let solutions ← context.solutions [] [] input modifiers
            let terms ← context.described ⟨target, dataset, pattern, modifiers⟩
            context.overDataset dataset
              (sliced modifiers.limit modifiers.offset (.of (.wrap (.describe terms) solutions))))
          (do
            let solutions ← (context.withQuads quads).solutions [] [] input' modifiers
            let terms ← (context.withQuads quads).described ⟨target, dataset, pattern, modifiers⟩
            (context.withQuads quads).overDataset dataset
              (sliced modifiers.limit modifiers.offset
                (.of (.wrap (.describe terms) solutions)))) := by
      intro input input' alike
      refine (agree_solutions keeps binding modifiers ofModifiers .nil .nil alike).bind
        fun _ _ solutions => ?_
      rw [described_withQuads]
      exact .same_bind fun terms => agree_overDataset keeps binding dataset
        (keeps.closed.sliced binding _ _ (keeps.closed.wrap binding rfl solutions))
    rw [Context.query, Context.query, describe, describe]
    cases pattern with
    | none => exact finish keeps.closed.empty
    | some pattern => exact (agree_pattern keeps pattern ofPattern).bind fun _ _ => finish

end Context

end QueryAlgebra
