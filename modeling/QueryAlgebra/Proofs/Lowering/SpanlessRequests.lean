import QueryAlgebra.Proofs.Lowering.SpanlessTerms
import QueryAlgebra.Proofs.Lowering.Translation

/-! # Layout makes no difference to a request

A request and the same request without layout become the same operation, or fail with the same error
but for the range that it points at. So do any two requests that are equal without layout:
`Request.lowerWith_layout`.
-/

namespace QueryAlgebra

open Surface (GroupKey OrderKey SelectItem)

namespace Context

variable (context : Context)

/-! ### Patterns, expressions and subqueries -/

mutual

theorem expression_withoutLayout : ∀ expression : Surface.Expression,
    Lowering.spanless (context.expression expression.withoutLayout)
      = Lowering.spanless (context.expression expression)
  | .var _ => rfl
  | .iri iri => by
    simp only [Surface.Expression.withoutLayout, expression, Lowering.spanless_bind,
      Lowering.spanless_lift, namedNode_withoutSpan]
  | .literal literal => by
    simp only [Surface.Expression.withoutLayout, expression, Lowering.spanless_bind,
      Lowering.spanless_lift, literal_withoutSpan]
  | .binary op left right => by
    simp only [Surface.Expression.withoutLayout, expression, Lowering.spanless_bind,
      expression_withoutLayout left, expression_withoutLayout right]
  | .unary op operand => by
    simp only [Surface.Expression.withoutLayout, expression, Lowering.spanless_bind,
      expression_withoutLayout operand]
  | .call function arguments _ => by
    simp only [Surface.Expression.withoutLayout, expression, Lowering.spanless_bind,
      Lowering.spanless_lift, expressions_withoutLayout arguments, callee_withoutSpan]
  | .ifElse condition positive negative => by
    simp only [Surface.Expression.withoutLayout, expression, Lowering.spanless_bind,
      expression_withoutLayout condition, expression_withoutLayout positive,
      expression_withoutLayout negative]
  | .coalesce arguments => by
    simp only [Surface.Expression.withoutLayout, expression, Lowering.spanless_bind,
      expressions_withoutLayout arguments]
  | .among value choices negated => by
    simp only [Surface.Expression.withoutLayout, expression, Lowering.spanless_bind,
      expression_withoutLayout value, expressions_withoutLayout choices]
  | .existence negated pattern => by
    simp only [Surface.Expression.withoutLayout, expression, Lowering.spanless_bind,
      pattern_withoutLayout pattern]
  | .aggregate _ none _ _ => rfl
  | .aggregate _ (some argument) _ _ => by
    simp only [Surface.Expression.withoutLayout, expression, Lowering.spanless_bind,
      expression_withoutLayout argument]
  | .bracketed inner => expression_withoutLayout inner

theorem expressions_withoutLayout : ∀ expressions : List Surface.Expression,
    Lowering.spanless (context.expressions (Surface.Expression.allWithoutLayout expressions))
      = Lowering.spanless (context.expressions expressions)
  | [] => rfl
  | first :: rest => by
    simp only [Surface.Expression.allWithoutLayout, expressions, Lowering.spanless_bind,
      expression_withoutLayout first, expressions_withoutLayout rest]

theorem pattern_withoutLayout : ∀ pattern : Surface.Pattern,
    Lowering.spanless (context.pattern pattern.withoutLayout)
      = Lowering.spanless (context.pattern pattern)
  | .bgp triples _ => context.basicGraphPattern_withoutLayout triples
  | .group elements _ => by
    simp only [Surface.Pattern.withoutLayout, pattern, Lowering.spanless_bind,
      elements_withoutLayout elements]
  | .union left right _ => by
    simp only [Surface.Pattern.withoutLayout, pattern, Lowering.spanless_bind,
      pattern_withoutLayout left, pattern_withoutLayout right]
  | .graph name inner _ => by
    simp only [Surface.Pattern.withoutLayout, pattern, Lowering.spanless_bind,
      Lowering.spanless_lift, pattern_withoutLayout inner, varOrIri_withoutSpan]
  | .service silent endpoint inner _ => by
    simp only [Surface.Pattern.withoutLayout, pattern, Lowering.spanless_bind,
      Lowering.spanless_lift, pattern_withoutLayout inner, varOrIri_withoutSpan]
  | .values data _ => context.inlineData_withoutSpan data
  | .subquery query _ => select_withoutLayout query
  | .optional _ _ | .minus _ _ | .filter _ _ | .bind _ _ _ => rfl

theorem elements_withoutLayout : ∀ (elements : List Surface.Pattern) (operation : Operation)
    (filters : List Expression),
    Lowering.spanless
        (context.elements (Surface.Pattern.allWithoutLayout elements) operation filters)
      = Lowering.spanless (context.elements elements operation filters)
  | [], _, _ => rfl
  | element :: rest, operation, filters => by
    have asMember (isMember : element.isMember = true)
        (isMember' : element.withoutLayout.isMember = true) :
        Lowering.spanless (context.elements
            (Surface.Pattern.allWithoutLayout (element :: rest)) operation filters)
          = Lowering.spanless (context.elements (element :: rest) operation filters) := by
      simp only [Surface.Pattern.allWithoutLayout, elements_member _ isMember,
        elements_member _ isMember', Lowering.spanless_bind, pattern_withoutLayout element,
        elements_withoutLayout rest]
    cases element with
    | filter condition span =>
      simp only [Surface.Pattern.allWithoutLayout, Surface.Pattern.withoutLayout, elements,
        Lowering.spanless_bind, expression_withoutLayout condition, elements_withoutLayout rest]
    | optional inner span | minus inner span =>
      simp only [Surface.Pattern.allWithoutLayout, Surface.Pattern.withoutLayout, elements,
        Lowering.spanless_bind, pattern_withoutLayout inner, elements_withoutLayout rest]
    | bind value name span =>
      simp only [Surface.Pattern.allWithoutLayout, Surface.Pattern.withoutLayout, elements,
        Lowering.spanless_bind, expression_withoutLayout value, elements_withoutLayout rest]
    | bgp | group | union | values | graph | service | subquery => exact asMember rfl rfl

theorem select_withoutLayout : ∀ query : Surface.Select,
    Lowering.spanless (context.select query.withoutLayout)
      = Lowering.spanless (context.select query)
  | ⟨duplicates, projection, dataset, inner, modifiers⟩ => by
    simp only [Surface.Select.withoutLayout, select, Lowering.spanless_bind,
      Extracting.spanless_run, Lowering.spanless_lift, pattern_withoutLayout inner,
      projection_withoutLayout projection, solutions_withoutLayout modifiers,
      overDataset_withoutSpan, Surface.Modifiers.values_withoutLayout, shown_withoutLayout,
      Surface.Modifiers.limit_withoutLayout, Surface.Modifiers.offset_withoutLayout]

theorem projection_withoutLayout : ∀ projection : Surface.Projection,
    Extracting.spanless (context.projection projection.withoutLayout)
      = Extracting.spanless (context.projection projection)
  | .all => rfl
  | .items items => selectItems_withoutLayout items

theorem selectItems_withoutLayout : ∀ items : List SelectItem,
    Extracting.spanless (context.selectItems (SelectItem.allWithoutLayout items))
      = Extracting.spanless (context.selectItems items)
  | [] => rfl
  | .var name :: rest => by
    simp only [SelectItem.allWithoutLayout, selectItems, Extracting.spanless_bind,
      selectItems_withoutLayout rest]
  | .computed value name :: rest => by
    simp only [SelectItem.allWithoutLayout, selectItems, Extracting.spanless_bind,
      Extracting.spanless_lift, expression_withoutLayout value, selectItems_withoutLayout rest]

theorem solutions_withoutLayout : ∀ (modifiers : Surface.Modifiers)
    (selected : List (Variable × Option Expression)) (aggregates : List BoundAggregate)
    (input : Operation),
    Lowering.spanless (context.solutions selected aggregates input modifiers.withoutLayout)
      = Lowering.spanless (context.solutions selected aggregates input modifiers)
  | ⟨none, having, orderBy, _, _, values⟩, _, _, _ => by
    simp only [Surface.Modifiers.withoutLayout, solutions, Lowering.spanless_bind,
      Lowering.spanless_ite, Extracting.spanless_run, conditions_withoutLayout having,
      orderKeys_withoutLayout orderBy, joinedWith_withoutSpan]
  | ⟨some keys, having, orderBy, _, _, values⟩, _, _, _ => by
    simp only [Surface.Modifiers.withoutLayout, solutions, Lowering.spanless_bind,
      Extracting.spanless_run, conditions_withoutLayout having, orderKeys_withoutLayout orderBy,
      groupKeys_withoutLayout keys, joinedWith_withoutSpan]

theorem conditions_withoutLayout : ∀ conditions : List Surface.Expression,
    Extracting.spanless (context.conditions (Surface.Expression.allWithoutLayout conditions))
      = Extracting.spanless (context.conditions conditions)
  | [] => rfl
  | condition :: rest => by
    simp only [Surface.Expression.allWithoutLayout, conditions, Extracting.spanless_bind,
      Extracting.spanless_lift, expression_withoutLayout condition, conditions_withoutLayout rest]

theorem orderKeys_withoutLayout : ∀ keys : List OrderKey,
    Extracting.spanless (context.orderKeys (OrderKey.allWithoutLayout keys))
      = Extracting.spanless (context.orderKeys keys)
  | [] => rfl
  | .var name direction :: rest => by
    simp only [OrderKey.allWithoutLayout, orderKeys, Extracting.spanless_bind,
      orderKeys_withoutLayout rest]
  | .computed value direction :: rest => by
    simp only [OrderKey.allWithoutLayout, orderKeys, Extracting.spanless_bind,
      Extracting.spanless_lift, expression_withoutLayout value, orderKeys_withoutLayout rest]

theorem groupKeys_withoutLayout : ∀ (keys : List GroupKey) (operation : Operation),
    Lowering.spanless (context.groupKeys (GroupKey.allWithoutLayout keys) operation)
      = Lowering.spanless (context.groupKeys keys operation)
  | [], _ => rfl
  | .var name :: rest, _ => by
    simp only [GroupKey.allWithoutLayout, groupKeys, Lowering.spanless_bind,
      groupKeys_withoutLayout rest]
  | .computed value (some name) :: rest, _ | .computed value none :: rest, _ => by
    simp only [GroupKey.allWithoutLayout, groupKeys, Lowering.spanless_bind,
      expression_withoutLayout value, groupKeys_withoutLayout rest]

end

/-! ### Queries -/

private theorem resources_withoutSpan (resources : List Surface.VarOrIri) :
    LoweringError.spanless
        (context.resources (resources.map (Surface.VarOrIri.mapIris Surface.Iri.withoutSpan)))
      = LoweringError.spanless (context.resources resources) := by
  induction resources with
  | nil => rfl
  | cons resource rest ih =>
    simp only [List.map_cons, Context.resources, LoweringError.spanless_bind, varOrIri_withoutSpan,
      ih]

theorem described_withoutLayout (query : Surface.Describe) :
    LoweringError.spanless (context.described query.withoutLayout)
      = LoweringError.spanless (context.described query) := by
  obtain ⟨target, dataset, pattern, modifiers⟩ := query
  cases target with
  | all =>
    simp only [described, Surface.Describe.withoutLayout, Surface.DescribeTarget.mapIris,
      Surface.Modifiers.values_withoutLayout, Surface.starVariables_withoutLayout]
  | resources resources => exact context.resources_withoutSpan resources

theorem query_withoutLayout (query : Surface.Query) :
    Lowering.spanless (context.query query.withoutLayout)
      = Lowering.spanless (context.query query) := by
  cases query with
  | select query => exact context.select_withoutLayout query
  | construct query =>
    obtain ⟨template, dataset, pattern, modifiers⟩ := query
    have ofTemplate : (template.map (·.map Surface.Triple.withoutLayout)).getD
          pattern.withoutLayout.triples
        = (template.getD pattern.triples).map Surface.Triple.withoutLayout := by
      cases template with
      | none => exact pattern.triples_withoutLayout
      | some template => rfl
    simp only [Surface.Query.withoutLayout, query, construct, Surface.Construct.withoutLayout,
      ofTemplate, Lowering.spanless_bind, Lowering.spanless_lift, pattern_withoutLayout,
      solutions_withoutLayout, template_withoutLayout, overDataset_withoutSpan,
      Surface.Modifiers.limit_withoutLayout, Surface.Modifiers.offset_withoutLayout]
  | ask query =>
    simp only [Surface.Query.withoutLayout, Context.query, ask, Surface.Ask.withoutLayout,
      Lowering.spanless_bind, Lowering.spanless_lift, pattern_withoutLayout,
      solutions_withoutLayout, overDataset_withoutSpan, Surface.Modifiers.limit_withoutLayout,
      Surface.Modifiers.offset_withoutLayout]
  | describe query =>
    obtain ⟨target, dataset, pattern, modifiers⟩ := query
    have ofTarget := context.described_withoutLayout ⟨target, dataset, pattern, modifiers⟩
    simp only [Surface.Describe.withoutLayout] at ofTarget
    cases pattern <;> simp only [Option.map_some, Option.map_none] at ofTarget <;>
      simp only [Surface.Query.withoutLayout, Context.query, describe,
        Surface.Describe.withoutLayout, Option.map_some, Option.map_none, Lowering.spanless_bind,
        Lowering.spanless_lift, ofTarget, pattern_withoutLayout, solutions_withoutLayout,
        overDataset_withoutSpan, Surface.Modifiers.limit_withoutLayout,
        Surface.Modifiers.offset_withoutLayout]

/-! ### Updates -/

theorem requireQuads_withoutSpan (span : Surface.Span) :
    LoweringError.spanless (context.requireQuads .none)
      = LoweringError.spanless (context.requireQuads span) := by
  simp only [requireQuads]
  split <;> rfl

theorem quadPatterns_withoutLayout (graph : Term) (blocks : List Surface.QuadBlock) :
    Lowering.spanless
        (context.quadPatterns graph (blocks.map Surface.QuadBlock.withoutLayout))
      = Lowering.spanless (context.quadPatterns graph blocks) := by
  induction blocks with
  | nil => rfl
  | cons block rest ih =>
    obtain ⟨name, triples⟩ := block
    cases name <;> simp only [List.map_cons, quadPatterns, Surface.QuadBlock.withoutLayout,
      Option.map_some, Option.map_none, Lowering.spanless_bind, Lowering.spanless_lift,
      varOrIri_withoutSpan, template_withoutLayout, ih]

private theorem optionalNode_withoutSpan (iri : Option Surface.Iri) :
    LoweringError.spanless (context.optionalNode (iri.map Surface.Iri.withoutSpan))
      = LoweringError.spanless (context.optionalNode iri) := by
  cases iri with
  | none => rfl
  | some iri =>
    simp only [Option.map_some, optionalNode, LoweringError.spanless_bind, namedNode_withoutSpan]

private theorem clearTarget_withoutSpan (target : Surface.ClearTarget) :
    LoweringError.spanless (context.clearTarget (target.mapIris Surface.Iri.withoutSpan))
      = LoweringError.spanless (context.clearTarget target) := by
  cases target with
  | graph iri =>
    simp only [Surface.ClearTarget.mapIris, clearTarget, LoweringError.spanless_bind,
      namedNode_withoutSpan]
  | default | named | all => rfl

private theorem graphOrDefault_withoutSpan (graph : Surface.GraphOrDefault) :
    LoweringError.spanless (context.graphOrDefault (graph.mapIris Surface.Iri.withoutSpan))
      = LoweringError.spanless (context.graphOrDefault graph) := by
  cases graph with
  | graph iri =>
    simp only [Surface.GraphOrDefault.mapIris, graphOrDefault, LoweringError.spanless_bind,
      namedNode_withoutSpan]
  | default => rfl

private theorem scopeOf_withoutSpan (dataset : Option Surface.Dataset) (graph : Option Term)
    (operation : Operation) :
    Lowering.spanless (context.scopeOf
        (dataset.map (Surface.Dataset.mapIris Surface.Iri.withoutSpan)) graph operation)
      = Lowering.spanless (context.scopeOf dataset graph operation) := by
  have sameChoice : (dataset.map (Surface.Dataset.mapIris Surface.Iri.withoutSpan)).filter
        (!·.isEmpty)
      = (dataset.filter (!·.isEmpty)).map (Surface.Dataset.mapIris Surface.Iri.withoutSpan) := by
    cases dataset with
    | none => rfl
    | some dataset =>
      simp only [Option.map_some, Option.filter_some, Surface.Dataset.isEmpty_mapIris]
      split <;> rfl
  unfold scopeOf
  rw [sameChoice]
  cases dataset.filter (!·.isEmpty) with
  | none => rfl
  | some chosen =>
    have ofChosen := context.overDataset_withoutSpan (some chosen) operation
    rw [Option.map_some] at ofChosen ⊢
    exact (Lowering.spanless_lift _).trans
      ((congrArg liftM ofChosen).trans (Lowering.spanless_lift _).symm)

theorem isEmptyPattern_withoutLayout (pattern : Surface.Pattern) :
    isEmptyPattern pattern.withoutLayout = isEmptyPattern pattern := by
  cases pattern with
  | bgp triples => cases triples <;> rfl
  | group elements => cases elements <;> rfl
  | _ => rfl

theorem modify_withoutLayout (update : Surface.Modify) :
    Lowering.spanless (context.modify update.withoutLayout)
      = Lowering.spanless (context.modify update) := by
  have sameBlocks : ∀ blocks : Option (List Surface.QuadBlock),
      (blocks.map (·.map Surface.QuadBlock.withoutLayout)).getD []
        = (blocks.getD []).map Surface.QuadBlock.withoutLayout := by
    intro blocks
    cases blocks <;> rfl
  simp only [modify, Surface.Modify.withoutLayout, Lowering.spanless_bind, Lowering.spanless_lift,
    context.requireQuads_withoutSpan update.span, optionalNode_withoutSpan, sameBlocks,
    quadPatterns_withoutLayout, isEmptyPattern_withoutLayout, Lowering.spanless_ite,
    pattern_withoutLayout, scopeOf_withoutSpan]

theorem update_withoutLayout (update : Surface.Update) :
    Lowering.spanless (context.update update.withoutLayout)
      = Lowering.spanless (context.update update) := by
  cases update with
  | insertData quads span | deleteData quads span | deleteWhere quads span =>
    simp only [Surface.Update.withoutLayout, update, Lowering.spanless_bind,
      Lowering.spanless_lift, context.requireQuads_withoutSpan span, quadPatterns_withoutLayout]
  | modify change => exact context.modify_withoutLayout change
  | load =>
    simp only [Surface.Update.withoutLayout, update, Lowering.spanless_bind,
      Lowering.spanless_lift, namedNode_withoutSpan, optionalNode_withoutSpan]
  | clear | drop =>
    simp only [Surface.Update.withoutLayout, update, Lowering.spanless_bind,
      Lowering.spanless_lift, clearTarget_withoutSpan]
  | create =>
    simp only [Surface.Update.withoutLayout, update, Lowering.spanless_bind,
      Lowering.spanless_lift, namedNode_withoutSpan]
  | transfer =>
    simp only [Surface.Update.withoutLayout, update, Lowering.spanless_bind,
      Lowering.spanless_lift, graphOrDefault_withoutSpan]

/-! ### Requests -/

theorem declare_withoutLayout (prologue : Surface.Prologue) :
    LoweringError.spanless (context.declare prologue.withoutLayout)
      = LoweringError.spanless (context.declare prologue) := by
  have ofPrefixes : ∀ (declarations : List Surface.PrefixDeclaration) (context : Context),
      LoweringError.spanless ((declarations.map fun declaration =>
          { declaration with span := .none }).foldlM declarePrefix context)
        = LoweringError.spanless (declarations.foldlM declarePrefix context) := by
    intro declarations
    induction declarations with
    | nil => exact fun _ => rfl
    | cons declaration rest ih =>
      intro context
      simp only [List.map_cons, List.foldlM_cons, declarePrefix, LoweringError.spanless_bind,
        context.resolve_withoutSpan declaration.iri declaration.span, ih]
  obtain ⟨base, prefixes⟩ := prologue
  cases base with
  | none => exact ofPrefixes prefixes context
  | some declaration =>
    simp only [declare, Surface.Prologue.withoutLayout, Option.map_some,
      LoweringError.spanless_bind, context.resolve_withoutSpan declaration.iri declaration.span,
      ofPrefixes]

theorem updates_withoutLayout (units : List Surface.UpdateUnit) (context : Context) :
    Lowering.spanless (context.updates (units.map Surface.UpdateUnit.withoutLayout))
      = Lowering.spanless (context.updates units) := by
  induction units generalizing context with
  | nil => rfl
  | cons unit rest ih =>
    simp only [List.map_cons, updates, Surface.UpdateUnit.withoutLayout, Lowering.spanless_bind,
      Lowering.spanless_lift, declare_withoutLayout, update_withoutLayout, ih]

theorem body_withoutLayout (body : Surface.Body) :
    Lowering.spanless (context.body body.withoutLayout)
      = Lowering.spanless (context.body body) := by
  cases body with
  | query asked => exact context.query_withoutLayout asked
  | update units =>
    simp only [Surface.Body.withoutLayout, Context.body, Lowering.spanless_bind,
      updates_withoutLayout]

theorem request_withoutLayout (blankToVariable : Bool) (request : Surface.Request) :
    Lowering.spanless (context.request blankToVariable request.withoutLayout)
      = Lowering.spanless (context.request blankToVariable request) := by
  simp only [Context.request, Surface.Request.withoutLayout, Lowering.spanless_bind,
    Lowering.spanless_lift, declare_withoutLayout, body_withoutLayout]

end Context

namespace Surface.Request

theorem lowerWith_withoutLayout (factory : TermFactory) (options : Options)
    (request : Surface.Request) :
    LoweringError.spanless (request.withoutLayout.lowerWith factory options)
      = LoweringError.spanless (request.lowerWith factory options) := by
  have inStep := congrFun
    ((Context.ofOptions factory options).request_withoutLayout options.blankToVariable request)
    (.ofNames request.names)
  rw [Lowering.spanless, Lowering.spanless] at inStep
  rw [lowerWith, lowerWith, request.names_withoutLayout]
  revert inStep
  cases (Context.ofOptions factory options).request options.blankToVariable request.withoutLayout
      (.ofNames request.names) <;>
    cases (Context.ofOptions factory options).request options.blankToVariable request
      (.ofNames request.names) <;> intro same
  case ok.ok =>
    cases same
    rfl
  case ok.error | error.ok => cases same
  case error.error => exact congrArg Except.error (EStateM.Result.error.inj same).1

/-- Layout makes no difference. Whatever the options and the factory of terms, two requests that are
equal without ranges, brackets, parentheses in paths, and paths in the place of single predicates
become the same operation, or they fail for the same reason, with the same names and texts in it,
but for the ranges. -/
theorem lowerWith_layout (factory : TermFactory) (options : Options)
    {first second : Surface.Request} (same : first.withoutLayout = second.withoutLayout) :
    (∀ operation, first.lowerWith factory options = .ok operation
      ↔ second.lowerWith factory options = .ok operation) ∧
    ∀ error, first.lowerWith factory options = .error error →
      ∃ error', second.lowerWith factory options = .error error'
        ∧ error'.withoutSpan = error.withoutSpan := by
  apply LoweringError.same_of_spanless
  rw [← lowerWith_withoutLayout, same, lowerWith_withoutLayout]

/-- `SELECT ?s { ?s (<http://example.org/p>) ?o . ?s ^((<q>)) ?o FILTER ((?o)) }`, as read from a
text. -/
private def bracketedFilter : Surface.Request :=
  ⟨.none, .query (.select ⟨.keep, .items [.var ⟨"s"⟩], none,
    .group [
      .bgp [
        ⟨.term (.var ⟨"s"⟩),
          .path (.group (.iri ⟨.full "http://example.org/p", ⟨16, 38⟩⟩) ⟨15, 39⟩),
          .term (.var ⟨"o"⟩)⟩,
        ⟨.term (.var ⟨"s"⟩), .path (.inverse (.group (.group (.iri ⟨.full "q", ⟨51, 54⟩⟩) ⟨50, 55⟩)
          ⟨49, 56⟩) ⟨48, 56⟩), .term (.var ⟨"o"⟩)⟩] ⟨12, 59⟩,
      .filter (.bracketed (.bracketed (.var ⟨"o"⟩))) ⟨60, 74⟩] ⟨10, 76⟩,
    .none⟩)⟩

/-- The same request without brackets, not read from a text. -/
private def plainFilter : Surface.Request :=
  ⟨.none, .query (.select ⟨.keep, .items [.var ⟨"s"⟩], none,
    .group [
      .bgp [
        ⟨.term (.var ⟨"s"⟩), .simple (.iri ⟨.full "http://example.org/p", .none⟩),
          .term (.var ⟨"o"⟩)⟩,
        ⟨.term (.var ⟨"s"⟩), .path (.inverse (.iri ⟨.full "q", .none⟩) .none),
          .term (.var ⟨"o"⟩)⟩] .none,
      .filter (.var ⟨"o"⟩) .none] .none,
    .none⟩)⟩

/-- Under a base both requests have an operation, and without one both fail for the relative IRI. -/
theorem lowerWith_layout_bracketedFilter :
    bracketedFilter.withoutLayout = plainFilter.withoutLayout
      ∧ (∃ operation,
        plainFilter.lowerWith .plain { base := some "http://example.org/" } = .ok operation
        ∧ bracketedFilter.lowerWith .plain { base := some "http://example.org/" } = .ok operation)
      ∧ bracketedFilter.lowerWith .plain {} = .error (.relativeIri "q" ⟨51, 54⟩)
      ∧ plainFilter.lowerWith .plain {} = .error (.relativeIri "q" .none) := by
  have same : bracketedFilter.withoutLayout = plainFilter.withoutLayout := rfl
  have fails : bracketedFilter.lowerWith .plain {} = .error (.relativeIri "q" ⟨51, 54⟩) := rfl
  refine ⟨same, ⟨_, rfl, ?_⟩, fails, rfl⟩
  exact ((lowerWith_layout .plain { base := some "http://example.org/" } same).1 _).2 rfl

end Surface.Request

end QueryAlgebra
