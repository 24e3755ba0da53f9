import QueryAlgebra.Proofs.Lowering.AbsoluteRequests
import QueryAlgebra.Proofs.Lowering.ExpandedIris

/-! # Requests without declarations

`Request.expanded` drops the declarations of a request and writes its IRIs in full, each as it
resolves where it stands. The operation of a request is that of the expanded request under options
without prefixes and base, and all its IRIs are absolute: `Request.lower_expanded`.
-/

namespace QueryAlgebra

open Surface (GroupKey OrderKey SelectItem)

namespace Context

variable {context : Context}

/-! ### Patterns, expressions and subqueries -/

mutual

theorem expression_expand (grounded : context.IsGrounded) :
    ∀ expression : Surface.Expression,
    context.bare.expression (expression.mapIris context.expand) = context.expression expression
  | .var _ => rfl
  | .iri iri => by
    rw [Surface.Expression.mapIris, expression, expression, namedNode_expand grounded]
  | .literal literal => by
    rw [Surface.Expression.mapIris, expression, expression, literal_expand grounded]
  | .binary op left right => by
    simp only [Surface.Expression.mapIris, expression, expression_expand grounded left,
      expression_expand grounded right]
  | .unary op operand => by
    simp only [Surface.Expression.mapIris, expression, expression_expand grounded operand]
  | .call function arguments _ => by
    simp only [Surface.Expression.mapIris, expression, expressions_expand grounded arguments,
      callee_expand grounded]
  | .ifElse condition positive negative => by
    simp only [Surface.Expression.mapIris, expression, expression_expand grounded condition,
      expression_expand grounded positive, expression_expand grounded negative]
  | .coalesce arguments => by
    simp only [Surface.Expression.mapIris, expression, expressions_expand grounded arguments]
  | .among value choices negated => by
    simp only [Surface.Expression.mapIris, expression, expression_expand grounded value,
      expressions_expand grounded choices]
  | .existence negated pattern => by
    simp only [Surface.Expression.mapIris, expression, pattern_expand grounded pattern]
  | .aggregate _ none _ _ => rfl
  | .aggregate _ (some argument) _ _ => by
    simp only [Surface.Expression.mapIris, expression, expression_expand grounded argument]
  | .bracketed inner => by
    simp only [Surface.Expression.mapIris, expression, expression_expand grounded inner]

theorem expressions_expand (grounded : context.IsGrounded) :
    ∀ expressions : List Surface.Expression,
    context.bare.expressions (Surface.Expression.mapIrisOfAll context.expand expressions)
      = context.expressions expressions
  | [] => rfl
  | first :: rest => by
    simp only [Surface.Expression.mapIrisOfAll, expressions, expression_expand grounded first,
      expressions_expand grounded rest]

theorem pattern_expand (grounded : context.IsGrounded) : ∀ pattern : Surface.Pattern,
    context.bare.pattern (pattern.mapIris context.expand) = context.pattern pattern
  | .bgp triples _ => basicGraphPattern_expand grounded triples
  | .group elements _ => by
    simp only [Surface.Pattern.mapIris, pattern, elements_expand grounded elements]
  | .union left right _ => by
    simp only [Surface.Pattern.mapIris, pattern, pattern_expand grounded left,
      pattern_expand grounded right]
  | .graph name inner _ => by
    simp only [Surface.Pattern.mapIris, pattern, pattern_expand grounded inner,
      varOrIri_expand grounded, embedGraph, embed_bare]
    rfl
  | .service silent endpoint inner _ => by
    simp only [Surface.Pattern.mapIris, pattern, pattern_expand grounded inner,
      varOrIri_expand grounded]
  | .values data _ => inlineData_expand grounded data
  | .subquery query _ => select_expand grounded query
  | .optional _ _ | .minus _ _ | .filter _ _ | .bind _ _ _ => rfl

theorem elements_expand (grounded : context.IsGrounded) : ∀ (elements : List Surface.Pattern)
    (operation : Operation) (filters : List Expression),
    context.bare.elements (Surface.Pattern.mapIrisOfAll context.expand elements) operation filters
      = context.elements elements operation filters
  | [], _, _ => rfl
  | element :: rest, operation, filters => by
    have asMember (isMember : element.isMember = true)
        (isMember' : (element.mapIris context.expand).isMember = true) :
        context.bare.elements (Surface.Pattern.mapIrisOfAll context.expand (element :: rest))
            operation filters
          = context.elements (element :: rest) operation filters := by
      simp only [Surface.Pattern.mapIrisOfAll, elements_member _ isMember,
        elements_member _ isMember', pattern_expand grounded element, elements_expand grounded rest]
    cases element with
    | filter condition span =>
      simp only [Surface.Pattern.mapIrisOfAll, Surface.Pattern.mapIris, elements,
        expression_expand grounded condition, elements_expand grounded rest]
    | optional inner span | minus inner span =>
      simp only [Surface.Pattern.mapIrisOfAll, Surface.Pattern.mapIris, elements,
        pattern_expand grounded inner, elements_expand grounded rest]
    | bind value name span =>
      simp only [Surface.Pattern.mapIrisOfAll, Surface.Pattern.mapIris, elements,
        expression_expand grounded value, elements_expand grounded rest]
      rfl
    | bgp | group | union | values | graph | service | subquery => exact asMember rfl rfl

theorem select_expand (grounded : context.IsGrounded) : ∀ query : Surface.Select,
    context.bare.select (query.mapIris context.expand) = context.select query
  | ⟨duplicates, projection, dataset, inner, modifiers⟩ => by
    simp only [Surface.Select.mapIris, select, pattern_expand grounded inner,
      projection_expand grounded projection, solutions_expand grounded modifiers,
      overDataset_expand grounded, Surface.Modifiers.values_mapIris, shown_expand,
      Surface.Modifiers.limit_mapIris, Surface.Modifiers.offset_mapIris]

theorem projection_expand (grounded : context.IsGrounded) :
    ∀ projection : Surface.Projection,
    context.bare.projection (projection.mapIris context.expand) = context.projection projection
  | .all => rfl
  | .items items => selectItems_expand grounded items

theorem selectItems_expand (grounded : context.IsGrounded) : ∀ items : List SelectItem,
    context.bare.selectItems (SelectItem.mapIrisOfAll context.expand items)
      = context.selectItems items
  | [] => rfl
  | .var name :: rest => by
    simp only [SelectItem.mapIrisOfAll, selectItems, selectItems_expand grounded rest]
    rfl
  | .computed value name :: rest => by
    simp only [SelectItem.mapIrisOfAll, selectItems, expression_expand grounded value,
      extractAggregates_bare, selectItems_expand grounded rest]
    rfl

theorem solutions_expand (grounded : context.IsGrounded) : ∀ (modifiers : Surface.Modifiers)
    (selected : List (Variable × Option Expression)) (aggregates : List BoundAggregate)
    (input : Operation),
    context.bare.solutions selected aggregates input (modifiers.mapIris context.expand)
      = context.solutions selected aggregates input modifiers
  | ⟨none, having, orderBy, _, _, values⟩, _, _, _ => by
    simp only [Surface.Modifiers.mapIris, solutions, conditions_expand grounded having,
      orderKeys_expand grounded orderBy, joinedWith_expand grounded]
  | ⟨some keys, having, orderBy, _, _, values⟩, _, _, _ => by
    simp only [Surface.Modifiers.mapIris, solutions, conditions_expand grounded having,
      orderKeys_expand grounded orderBy, groupKeys_expand grounded keys,
      joinedWith_expand grounded]

theorem conditions_expand (grounded : context.IsGrounded) :
    ∀ conditions : List Surface.Expression,
    context.bare.conditions (Surface.Expression.mapIrisOfAll context.expand conditions)
      = context.conditions conditions
  | [] => rfl
  | condition :: rest => by
    simp only [Surface.Expression.mapIrisOfAll, conditions, expression_expand grounded condition,
      extractAggregates_bare, conditions_expand grounded rest]

theorem orderKeys_expand (grounded : context.IsGrounded) : ∀ keys : List OrderKey,
    context.bare.orderKeys (OrderKey.mapIrisOfAll context.expand keys) = context.orderKeys keys
  | [] => rfl
  | .var name direction :: rest => by
    simp only [OrderKey.mapIrisOfAll, orderKeys, orderKeys_expand grounded rest]
    rfl
  | .computed value direction :: rest => by
    simp only [OrderKey.mapIrisOfAll, orderKeys, expression_expand grounded value,
      extractAggregates_bare, orderKeys_expand grounded rest]

theorem groupKeys_expand (grounded : context.IsGrounded) : ∀ (keys : List GroupKey)
    (operation : Operation),
    context.bare.groupKeys (GroupKey.mapIrisOfAll context.expand keys) operation
      = context.groupKeys keys operation
  | [], _ => rfl
  | .var name :: rest, _ => by
    simp only [GroupKey.mapIrisOfAll, groupKeys, groupKeys_expand grounded rest]
    rfl
  | .computed value (some name) :: rest, _ | .computed value none :: rest, _ => by
    simp only [GroupKey.mapIrisOfAll, groupKeys, expression_expand grounded value,
      groupKeys_expand grounded rest]
    rfl

end

/-! ### Queries -/

private theorem resources_expand (grounded : context.IsGrounded)
    (resources : List Surface.VarOrIri) :
    context.bare.resources (resources.map (Surface.VarOrIri.mapIris context.expand))
      = context.resources resources := by
  induction resources with
  | nil => rfl
  | cons resource rest ih =>
    rw [List.map_cons, Context.resources, Context.resources, varOrIri_expand grounded, ih]

theorem described_expand (grounded : context.IsGrounded) (query : Surface.Describe) :
    context.bare.described (query.mapIris context.expand) = context.described query := by
  obtain ⟨target, dataset, pattern, modifiers⟩ := query
  cases target with
  | all =>
    simp only [described, Surface.Describe.mapIris, Surface.DescribeTarget.mapIris,
      Surface.Modifiers.values_mapIris, Surface.starVariables_mapIris]
    rfl
  | resources resources => exact resources_expand grounded resources

theorem query_expand (grounded : context.IsGrounded) (query : Surface.Query) :
    context.bare.query (query.mapIris context.expand) = context.query query := by
  cases query with
  | select query => exact select_expand grounded query
  | construct query =>
    obtain ⟨template, dataset, pattern, modifiers⟩ := query
    have ofTemplate : (template.map (·.map (Surface.Triple.mapIris context.expand))).getD
          (pattern.mapIris context.expand).triples
        = (template.getD pattern.triples).map (Surface.Triple.mapIris context.expand) := by
      cases template with
      | none => exact pattern.triples_mapIris
      | some template => rfl
    simp only [Surface.Query.mapIris, query, construct, Surface.Construct.mapIris, ofTemplate,
      pattern_expand grounded, solutions_expand grounded, template_expand grounded,
      overDataset_expand grounded, Surface.Modifiers.limit_mapIris,
      Surface.Modifiers.offset_mapIris]
    rfl
  | ask query =>
    simp only [Surface.Query.mapIris, Context.query, ask, Surface.Ask.mapIris,
      pattern_expand grounded, solutions_expand grounded, overDataset_expand grounded,
      Surface.Modifiers.limit_mapIris, Surface.Modifiers.offset_mapIris]
  | describe query =>
    have ofTarget := described_expand grounded query
    obtain ⟨target, dataset, pattern, modifiers⟩ := query
    simp only [Surface.Query.mapIris, Context.query, describe, ofTarget]
    cases pattern <;> simp only [Surface.Describe.mapIris, Option.map_some, Option.map_none,
      pattern_expand grounded, solutions_expand grounded, overDataset_expand grounded,
      Surface.Modifiers.limit_mapIris, Surface.Modifiers.offset_mapIris]

/-! ### Updates -/

theorem quadPatterns_expand (grounded : context.IsGrounded) (graph : Term)
    (blocks : List Surface.QuadBlock) :
    context.bare.quadPatterns graph (blocks.map (Surface.QuadBlock.mapIris context.expand))
      = context.quadPatterns graph blocks := by
  induction blocks with
  | nil => rfl
  | cons block rest ih =>
    obtain ⟨name, triples⟩ := block
    cases name <;> simp only [List.map_cons, quadPatterns, Surface.QuadBlock.mapIris,
      Option.map_some, Option.map_none, varOrIri_expand grounded, template_expand grounded, ih]

private theorem optionalNode_expand (grounded : context.IsGrounded) (iri : Option Surface.Iri) :
    context.bare.optionalNode (iri.map context.expand) = context.optionalNode iri := by
  cases iri with
  | none => rfl
  | some iri => rw [Option.map_some, optionalNode, optionalNode, namedNode_expand grounded]

private theorem clearTarget_expand (grounded : context.IsGrounded)
    (target : Surface.ClearTarget) :
    context.bare.clearTarget (target.mapIris context.expand) = context.clearTarget target := by
  cases target with
  | graph iri =>
    rw [Surface.ClearTarget.mapIris, clearTarget, clearTarget, namedNode_expand grounded]
  | default | named | all => rfl

private theorem graphOrDefault_expand (grounded : context.IsGrounded)
    (graph : Surface.GraphOrDefault) :
    context.bare.graphOrDefault (graph.mapIris context.expand) = context.graphOrDefault graph := by
  cases graph with
  | graph iri =>
    rw [Surface.GraphOrDefault.mapIris, graphOrDefault, graphOrDefault, namedNode_expand grounded]
  | default => rfl

private theorem scopeOf_expand (grounded : context.IsGrounded) (dataset : Option Surface.Dataset)
    (graph : Option Term) (operation : Operation) :
    context.bare.scopeOf (dataset.map (Surface.Dataset.mapIris context.expand)) graph operation
      = context.scopeOf dataset graph operation := by
  have sameChoice : (dataset.map (Surface.Dataset.mapIris context.expand)).filter (!·.isEmpty)
      = (dataset.filter (!·.isEmpty)).map (Surface.Dataset.mapIris context.expand) := by
    cases dataset with
    | none => rfl
    | some dataset =>
      simp only [Option.map_some, Option.filter_some, Surface.Dataset.isEmpty_mapIris]
      split <;> rfl
  unfold scopeOf
  rw [sameChoice]
  cases dataset.filter (!·.isEmpty) with
  | some chosen =>
    exact congrArg liftM (overDataset_expand grounded (some chosen) operation)
  | none =>
    cases graph with
    | none => rfl
    | some graph => exact embed_bare context _ operation

theorem modify_expand (grounded : context.IsGrounded) (update : Surface.Modify) :
    context.bare.modify (update.mapIris context.expand) = context.modify update := by
  have sameBlocks : ∀ blocks : Option (List Surface.QuadBlock),
      (blocks.map (·.map (Surface.QuadBlock.mapIris context.expand))).getD []
        = (blocks.getD []).map (Surface.QuadBlock.mapIris context.expand) := by
    intro blocks
    cases blocks <;> rfl
  have sameEmptiness : ∀ pattern : Surface.Pattern,
      isEmptyPattern (pattern.mapIris context.expand) = isEmptyPattern pattern := by
    intro pattern
    cases pattern with
    | bgp triples => cases triples <;> rfl
    | group elements => cases elements <;> rfl
    | _ => rfl
  simp only [modify, Surface.Modify.mapIris, optionalNode_expand grounded, sameBlocks,
    quadPatterns_expand grounded, sameEmptiness, pattern_expand grounded, scopeOf_expand grounded]
  rfl

theorem update_expand (grounded : context.IsGrounded) (update : Surface.Update) :
    context.bare.update (update.mapIris context.expand) = context.update update := by
  cases update with
  | insertData | deleteData | deleteWhere =>
    simp only [Surface.Update.mapIris, update, quadPatterns_expand grounded]
    rfl
  | modify change => exact modify_expand grounded change
  | load =>
    simp only [Surface.Update.mapIris, update, namedNode_expand grounded,
      optionalNode_expand grounded]
  | clear | drop => simp only [Surface.Update.mapIris, update, clearTarget_expand grounded]
  | create => simp only [Surface.Update.mapIris, update, namedNode_expand grounded]
  | transfer => simp only [Surface.Update.mapIris, update, graphOrDefault_expand grounded]

end Context

/-! ### Requests -/

namespace Context

/-- The context after declarations; those that fail declare nothing. -/
def declared (context : Context) (prologue : Surface.Prologue) : Context :=
  match context.declare prologue with
  | .ok declared => declared
  | .error _ => context

/-- The updates of a request without their declarations, each with its IRIs in full. -/
def expandUpdates (context : Context) : List Surface.UpdateUnit → List Surface.UpdateUnit
  | [] => []
  | unit :: rest =>
    let declared := context.declared unit.prologue
    ⟨.none, unit.update.mapIris declared.expand⟩ :: declared.expandUpdates rest

/-- What a request asks for, with its IRIs in full. -/
def expandBody (context : Context) : Surface.Body → Surface.Body
  | .query asked => .query (asked.mapIris context.expand)
  | .update units => .update (context.expandUpdates units)

end Context

/-- The options without prefixes and base. -/
def Options.bare (options : Options) : Options :=
  { options with prefixes := .empty, base := none }

/-- The request without declarations, whose IRIs are in full: each as it resolves under the options
and the declarations before it. -/
def Surface.Request.expanded (options : Options) (request : Surface.Request) : Surface.Request :=
  let context := (Context.ofOptions .plain options).declared request.prologue
  ⟨.none, context.expandBody request.body⟩

namespace Context

variable {context : Context}

theorem names_expandBody (context : Context) (body : Surface.Body) :
    (context.expandBody body).names = body.names := by
  have ofUnits : ∀ (units : List Surface.UpdateUnit) (context : Context),
      Surface.Names.all (fun unit => unit.update.names) (context.expandUpdates units)
        = Surface.Names.all (fun unit => unit.update.names) units := by
    intro units
    induction units with
    | nil => exact fun _ => rfl
    | cons unit rest ih =>
      intro context
      exact congrArg₂ (· ++ ·) unit.update.names_mapIris (ih (context.declared unit.prologue))
  cases body with
  | query asked => exact asked.names_mapIris
  | update units => exact ofUnits units context

/-- Declarations change prefixes and base alone. -/
theorem bare_of_declare {prologue : Surface.Prologue} {declared : Context}
    (success : context.declare prologue = .ok declared) : declared.bare = context.bare := by
  have ofPrefixes : ∀ (declarations : List Surface.PrefixDeclaration) {start : Context},
      declarations.foldlM declarePrefix start = .ok declared → declared.bare = start.bare := by
    intro declarations
    induction declarations with
    | nil =>
      intro start success
      cases success
      rfl
    | cons declaration rest ih =>
      intro start success
      rw [List.foldlM_cons] at success
      obtain ⟨next, isNext, success⟩ := ok_of_bind success
      rw [declarePrefix] at isNext
      obtain ⟨iri, -, isNext⟩ := ok_of_bind isNext
      cases isNext
      exact (ih success).trans rfl
  obtain ⟨base, prefixes⟩ := prologue
  cases base with
  | none => exact ofPrefixes prefixes success
  | some declaration =>
    rw [declare] at success
    obtain ⟨base, -, success⟩ := ok_of_bind success
    rw [pure_bind] at success
    exact (ofPrefixes prefixes success).trans rfl

theorem declared_of_ok {prologue : Surface.Prologue} {declared : Context}
    (success : context.declare prologue = .ok declared) :
    context.declared prologue = declared := by
  rw [Context.declared, success]

/-- The operations of updates are those of the updates in full, which need no declarations. -/
theorem updates_expand (units : List Surface.UpdateUnit) : ∀ {context : Context},
    context.IsGrounded → ∀ {supply after : NameSupply} {operations : List Operation},
    context.updates units supply = .ok operations after →
    context.bare.updates (context.expandUpdates units) supply = .ok operations after := by
  induction units with
  | nil => exact fun _ => id
  | cons unit rest ih =>
    intro context grounded supply after operations success
    rw [updates] at success
    obtain ⟨declared, _, lifted, success⟩ := Lowering.of_bind_ok success
    obtain ⟨isDeclared, rfl⟩ := Lowering.of_lift_ok lifted
    obtain ⟨first, between, ofFirst, success⟩ := Lowering.of_bind_ok success
    obtain ⟨others, _, ofOthers, finished⟩ := Lowering.of_bind_ok success
    have grounded := grounded.declare isDeclared
    rw [expandUpdates, declared_of_ok isDeclared, ← bare_of_declare isDeclared]
    have first' : declared.bare.update (unit.update.mapIris declared.expand) supply
        = .ok first between := by rw [update_expand grounded, ofFirst]
    rw [updates]
    have lifted : (liftM (.ok declared.bare : Except LoweringError Context) : Lowering Context)
        supply = .ok declared.bare supply := rfl
    refine (Lowering.bind_ok lifted).trans ?_
    exact (Lowering.bind_ok first').trans
      ((Lowering.bind_ok (ih grounded ofOthers)).trans finished)

theorem body_expand (grounded : context.IsGrounded) {body : Surface.Body}
    {supply after : NameSupply} {operation : Operation}
    (success : context.body body supply = .ok operation after) :
    context.bare.body (context.expandBody body) supply = .ok operation after := by
  cases body with
  | query asked =>
    rw [expandBody, Context.body, query_expand grounded]
    exact success
  | update units =>
    rw [Context.body] at success
    obtain ⟨operations, _, ofUnits, finished⟩ := Lowering.of_bind_ok success
    exact (Lowering.bind_ok (updates_expand units grounded ofUnits)).trans finished

theorem blanksToVariables_bare (context : Context) (operation : Operation) :
    context.bare.blanksToVariables operation = context.blanksToVariables operation := by
  delta blanksToVariables labelVariables
  rfl

end Context

/-- If the base of the options is absolute, all IRIs of the operation of a request are absolute, and
it is the operation of the expanded request under options without prefixes and base. -/
theorem Surface.Request.lower_expanded {options : Options} {request : Surface.Request}
    {operation : Operation}
    (absolute : ∀ base, options.base = some base → Iri.isAbsolute base = true)
    (lowers : request.lower options = .ok operation) :
    AllAbsolute operation.iris
      ∧ (request.expanded options).lower options.bare = .ok operation := by
  have grounded : (Context.ofOptions .plain options).IsGrounded := ⟨rfl, absolute⟩
  obtain ⟨after, made⟩ := lower_ok_iff.1 lowers
  refine ⟨Context.absolute_request grounded _ request _ _ _ made, lower_ok_iff.2 ⟨after, ?_⟩⟩
  rw [Context.request] at made
  obtain ⟨declared, _, lifted, made⟩ := Lowering.of_bind_ok made
  obtain ⟨isDeclared, rfl⟩ := Lowering.of_lift_ok lifted
  obtain ⟨inner, between, ofBody, finished⟩ := Lowering.of_bind_ok made
  have sameNames : (request.expanded options).names = request.names := Context.names_expandBody _ _
  have sameContext : Context.ofOptions .plain options.bare = declared.bare :=
    (Context.bare_of_declare isDeclared).symm
  have ofExpanded := Context.body_expand (grounded.declare isDeclared) ofBody
  rw [sameNames, sameContext, expanded, Context.declared_of_ok isDeclared, Context.request]
  have lifted supply : (liftM (.ok declared.bare : Except LoweringError Context)
      : Lowering Context) supply = .ok declared.bare supply := rfl
  refine (Lowering.bind_ok (lifted _)).trans
    ((Lowering.bind_ok ofExpanded).trans ?_)
  rw [Context.blanksToVariables_bare]
  exact finished

/-- `PREFIX p: <q#> CREATE GRAPH p:a ; BASE <sub/> CLEAR GRAPH p:a ; DROP GRAPH <b>`: the prefix is
resolved where it is declared, and the base against the one before it. -/
private def relativeUpdates : Surface.Request :=
  ⟨.none, .update [
    ⟨⟨none, [⟨"p", "q#", .none⟩]⟩, .create false ⟨.abbreviated "p" "a", .none⟩⟩,
    ⟨⟨some ⟨"sub/", .none⟩, []⟩, .clear false (.graph ⟨.abbreviated "p" "a", .none⟩)⟩,
    ⟨.none, .drop false (.graph ⟨.full "b", .none⟩)⟩]⟩

/-- The updates over the base `http://example.org/dir/`, with their IRIs in full. -/
private def fullUpdates : Surface.Request :=
  ⟨.none, .update [
    ⟨.none, .create false ⟨.full "http://example.org/dir/q#a", .none⟩⟩,
    ⟨.none, .clear false (.graph ⟨.full "http://example.org/dir/q#a", .none⟩)⟩,
    ⟨.none, .drop false (.graph ⟨.full "http://example.org/dir/sub/b", .none⟩)⟩]⟩

/-- The operation of both. -/
private def managedGraphs : Operation :=
  .of (.combine .updates [
    .of (.manage (.create ⟨"http://example.org/dir/q#a"⟩ false)),
    .of (.manage (.clear (.graph ⟨"http://example.org/dir/q#a"⟩) false)),
    .of (.manage (.drop (.graph ⟨"http://example.org/dir/sub/b"⟩) false))])

/-- Prefixes and bases accumulate from update to update. -/
theorem Surface.Request.lower_expanded_relativeUpdates :
    relativeUpdates.lower (Options.withBase {} "http://example.org/dir/") = .ok managedGraphs
      ∧ AllAbsolute managedGraphs.iris
      ∧ relativeUpdates.expanded (Options.withBase {} "http://example.org/dir/") = fullUpdates
      ∧ fullUpdates.lower {} = .ok managedGraphs := by
  have lowers : relativeUpdates.lower (Options.withBase {} "http://example.org/dir/")
      = .ok managedGraphs := rfl
  have inFull : relativeUpdates.expanded (Options.withBase {} "http://example.org/dir/")
      = fullUpdates := rfl
  have absolute : ∀ base, (Options.withBase {} "http://example.org/dir/").base = some base →
      Iri.isAbsolute base = true := fun base isBase =>
    Option.some.inj isBase ▸ (by decide +kernel : Iri.isAbsolute "http://example.org/dir/" = true)
  obtain ⟨areAbsolute, expanded⟩ := lower_expanded absolute lowers
  exact ⟨lowers, areAbsolute, inFull, inFull ▸ expanded⟩

end QueryAlgebra
