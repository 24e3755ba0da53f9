import QueryAlgebra.Proofs.Surface.WrittenIris

/-! # The layout of a request

`withoutLayout` takes from a part of a request what only its text has: the ranges that nodes were
read from, brackets around expressions, parentheses inside property paths, and the choice between a
predicate and a property path of this predicate alone. Two requests differ in layout alone if they
are equal without it.

Names, scopes and the kinds of patterns stay.
-/

namespace QueryAlgebra.Surface

/-! ### Triples -/

/-- The IRI without its range. -/
def Iri.withoutSpan (iri : Iri) : Iri := ⟨iri.text, .none⟩

/-- The member of a negated set without its range. -/
def NegatedMember.withoutSpan : NegatedMember → NegatedMember
  | .forward iri => .forward iri.withoutSpan
  | .inverse iri => .inverse iri.withoutSpan
  | .forwardType _ => .forwardType .none
  | .inverseType _ => .inverseType .none

/-- The path without ranges and parentheses. -/
def Path.withoutLayout : Path → Path
  | .iri name => .iri name.withoutSpan
  | .type _ => .type .none
  | .inverse path _ => .inverse path.withoutLayout .none
  | .sequence left right _ => .sequence left.withoutLayout right.withoutLayout .none
  | .alternative left right _ => .alternative left.withoutLayout right.withoutLayout .none
  | .zeroOrMore path _ => .zeroOrMore path.withoutLayout .none
  | .oneOrMore path _ => .oneOrMore path.withoutLayout .none
  | .zeroOrOne path _ => .zeroOrOne path.withoutLayout .none
  | .negated members _ => .negated (members.map NegatedMember.withoutSpan) .none
  | .group path _ => path.withoutLayout

/-- The predicate without layout; a path that is one IRI is that IRI. -/
def Verb.withoutLayout : Verb → Verb
  | .simple verb => .simple (verb.mapIris Iri.withoutSpan)
  | .path route =>
    match route.withoutLayout with
    | .iri name => .simple (.iri name)
    | other => .path other

mutual

/-- The subject or object without layout. -/
def GraphNode.withoutLayout : GraphNode → GraphNode
  | .term value => .term (value.mapIris Iri.withoutSpan)
  | .collection items => .collection (GraphNode.itemsWithoutLayout items)
  | .properties entries => .properties (GraphNode.entriesWithoutLayout entries)

/-- The items of a collection without layout. -/
def GraphNode.itemsWithoutLayout : List GraphNode → List GraphNode
  | [] => []
  | item :: rest => item.withoutLayout :: GraphNode.itemsWithoutLayout rest

/-- The properties of a list without layout. -/
def GraphNode.entriesWithoutLayout : List (Verb × GraphNode) → List (Verb × GraphNode)
  | [] => []
  | (verb, object) :: rest =>
    (verb.withoutLayout, object.withoutLayout) :: GraphNode.entriesWithoutLayout rest

end

/-- The triple without layout. -/
def Triple.withoutLayout (triple : Triple) : Triple :=
  ⟨triple.subject.withoutLayout, triple.verb.withoutLayout, triple.object.withoutLayout⟩

/-! ### Queries -/

mutual

/-- The expression without layout. -/
def Expression.withoutLayout : Expression → Expression
  | .var name => .var name
  | .iri name => .iri name.withoutSpan
  | .literal value => .literal (value.mapIris Iri.withoutSpan)
  | .binary op left right => .binary op left.withoutLayout right.withoutLayout
  | .unary op operand => .unary op operand.withoutLayout
  | .call function arguments distinct =>
    .call (function.mapIris Iri.withoutSpan) (Expression.allWithoutLayout arguments) distinct
  | .ifElse condition positive negative =>
    .ifElse condition.withoutLayout positive.withoutLayout negative.withoutLayout
  | .coalesce arguments => .coalesce (Expression.allWithoutLayout arguments)
  | .among value choices negated =>
    .among value.withoutLayout (Expression.allWithoutLayout choices) negated
  | .existence negated pattern => .existence negated pattern.withoutLayout
  | .aggregate function none distinct separator => .aggregate function none distinct separator
  | .aggregate function (some argument) distinct separator =>
    .aggregate function (some argument.withoutLayout) distinct separator
  | .bracketed inner => inner.withoutLayout

/-- The expressions of a list without layout. -/
def Expression.allWithoutLayout : List Expression → List Expression
  | [] => []
  | expression :: rest => expression.withoutLayout :: Expression.allWithoutLayout rest

/-- The pattern without layout. -/
def Pattern.withoutLayout : Pattern → Pattern
  | .bgp triples _ => .bgp (triples.map Triple.withoutLayout) .none
  | .group elements _ => .group (Pattern.allWithoutLayout elements) .none
  | .optional pattern _ => .optional pattern.withoutLayout .none
  | .minus pattern _ => .minus pattern.withoutLayout .none
  | .union left right _ => .union left.withoutLayout right.withoutLayout .none
  | .filter condition _ => .filter condition.withoutLayout .none
  | .bind value name _ => .bind value.withoutLayout name .none
  | .values data _ => .values (data.mapIris Iri.withoutSpan) .none
  | .graph name pattern _ => .graph (name.mapIris Iri.withoutSpan) pattern.withoutLayout .none
  | .service silent endpoint pattern _ =>
    .service silent (endpoint.mapIris Iri.withoutSpan) pattern.withoutLayout .none
  | .subquery query _ => .subquery query.withoutLayout .none

/-- The elements of a group without layout. -/
def Pattern.allWithoutLayout : List Pattern → List Pattern
  | [] => []
  | pattern :: rest => pattern.withoutLayout :: Pattern.allWithoutLayout rest

/-- The SELECT query without layout. -/
def Select.withoutLayout : Select → Select
  | ⟨duplicates, projection, dataset, pattern, modifiers⟩ =>
    ⟨duplicates, projection.withoutLayout, dataset.map (Dataset.mapIris Iri.withoutSpan),
      pattern.withoutLayout, modifiers.withoutLayout⟩

/-- The projection without layout. -/
def Projection.withoutLayout : Projection → Projection
  | .all => .all
  | .items items => .items (SelectItem.allWithoutLayout items)

/-- The items of a projection without layout. -/
def SelectItem.allWithoutLayout : List SelectItem → List SelectItem
  | [] => []
  | .var name :: rest => .var name :: SelectItem.allWithoutLayout rest
  | .computed value name :: rest =>
    .computed value.withoutLayout name :: SelectItem.allWithoutLayout rest

/-- The clauses after a pattern without layout. -/
def Modifiers.withoutLayout : Modifiers → Modifiers
  | ⟨none, having, orderBy, limit, offset, values⟩ =>
    ⟨none, Expression.allWithoutLayout having, OrderKey.allWithoutLayout orderBy, limit, offset,
      values.map (InlineData.mapIris Iri.withoutSpan)⟩
  | ⟨some keys, having, orderBy, limit, offset, values⟩ =>
    ⟨some (GroupKey.allWithoutLayout keys), Expression.allWithoutLayout having,
      OrderKey.allWithoutLayout orderBy, limit, offset,
      values.map (InlineData.mapIris Iri.withoutSpan)⟩

/-- The keys of a GROUP BY clause without layout. -/
def GroupKey.allWithoutLayout : List GroupKey → List GroupKey
  | [] => []
  | .var name :: rest => .var name :: GroupKey.allWithoutLayout rest
  | .computed value name :: rest =>
    .computed value.withoutLayout name :: GroupKey.allWithoutLayout rest

/-- The keys of an ORDER BY clause without layout. -/
def OrderKey.allWithoutLayout : List OrderKey → List OrderKey
  | [] => []
  | .var name direction :: rest => .var name direction :: OrderKey.allWithoutLayout rest
  | .computed value direction :: rest =>
    .computed value.withoutLayout direction :: OrderKey.allWithoutLayout rest

end

/-- The CONSTRUCT query without layout. -/
def Construct.withoutLayout (query : Construct) : Construct :=
  ⟨query.template.map (·.map Triple.withoutLayout),
    query.dataset.map (Dataset.mapIris Iri.withoutSpan), query.pattern.withoutLayout,
    query.modifiers.withoutLayout⟩

/-- The ASK query without layout. -/
def Ask.withoutLayout (query : Ask) : Ask :=
  ⟨query.dataset.map (Dataset.mapIris Iri.withoutSpan), query.pattern.withoutLayout,
    query.modifiers.withoutLayout⟩

/-- The DESCRIBE query without layout. -/
def Describe.withoutLayout (query : Describe) : Describe :=
  ⟨query.target.mapIris Iri.withoutSpan, query.dataset.map (Dataset.mapIris Iri.withoutSpan),
    query.pattern.map Pattern.withoutLayout, query.modifiers.withoutLayout⟩

/-- The query without layout. -/
def Query.withoutLayout : Query → Query
  | .select query => .select query.withoutLayout
  | .construct query => .construct query.withoutLayout
  | .ask query => .ask query.withoutLayout
  | .describe query => .describe query.withoutLayout

/-! ### Requests -/

/-- The block of an update template without layout. -/
def QuadBlock.withoutLayout (block : QuadBlock) : QuadBlock :=
  ⟨block.graph.map (VarOrIri.mapIris Iri.withoutSpan), block.triples.map Triple.withoutLayout⟩

/-- The update of triples by a pattern without layout. -/
def Modify.withoutLayout (update : Modify) : Modify :=
  ⟨update.withGraph.map Iri.withoutSpan, update.dataset.map (Dataset.mapIris Iri.withoutSpan),
    update.delete.map (·.map QuadBlock.withoutLayout),
    update.insert.map (·.map QuadBlock.withoutLayout), update.pattern.withoutLayout, .none⟩

/-- The update without layout. -/
def Update.withoutLayout : Update → Update
  | .insertData quads _ => .insertData (quads.map QuadBlock.withoutLayout) .none
  | .deleteData quads _ => .deleteData (quads.map QuadBlock.withoutLayout) .none
  | .deleteWhere quads _ => .deleteWhere (quads.map QuadBlock.withoutLayout) .none
  | .modify change => .modify change.withoutLayout
  | .load silent source destination =>
    .load silent source.withoutSpan (destination.map Iri.withoutSpan)
  | .clear silent target => .clear silent (target.mapIris Iri.withoutSpan)
  | .drop silent target => .drop silent (target.mapIris Iri.withoutSpan)
  | .create silent graph => .create silent graph.withoutSpan
  | .transfer how silent source destination =>
    .transfer how silent (source.mapIris Iri.withoutSpan) (destination.mapIris Iri.withoutSpan)

/-- The declarations without ranges. -/
def Prologue.withoutLayout (prologue : Prologue) : Prologue :=
  ⟨prologue.base.map fun declaration => { declaration with span := .none },
    prologue.prefixes.map fun declaration => { declaration with span := .none }⟩

/-- The update and its declarations without layout. -/
def UpdateUnit.withoutLayout (unit : UpdateUnit) : UpdateUnit :=
  ⟨unit.prologue.withoutLayout, unit.update.withoutLayout⟩

/-- What a request asks for, without layout. -/
def Body.withoutLayout : Body → Body
  | .query asked => .query asked.withoutLayout
  | .update units => .update (units.map UpdateUnit.withoutLayout)

/-- The request without layout. -/
def Request.withoutLayout (request : Request) : Request :=
  ⟨request.prologue.withoutLayout, request.body.withoutLayout⟩

/-! ### What stays -/

@[simp] theorem Iri.text_withoutSpan (iri : Iri) : iri.withoutSpan.text = iri.text := rfl

theorem NegatedMember.iri_withoutSpan (member : NegatedMember) :
    member.withoutSpan.iri = member.iri.withoutSpan := by
  cases member <;> rfl

theorem NegatedMember.isInverse_withoutSpan (member : NegatedMember) :
    member.withoutSpan.isInverse = member.isInverse := by
  cases member <;> rfl

theorem Path.withoutLayout_unwrapped (path : Path) :
    path.unwrapped.withoutLayout = path.withoutLayout := by
  induction path with
  | group path span ih => exact ih
  | _ => rfl

theorem Path.unwrapped_ne_group (path inner : Path) (span : Span) :
    path.unwrapped ≠ .group inner span := by
  induction path with
  | group path span ih => exact ih
  | _ => exact Path.noConfusion

@[simp] theorem Modifiers.limit_withoutLayout (modifiers : Modifiers) :
    modifiers.withoutLayout.limit = modifiers.limit := by
  obtain ⟨_ | _, _, _, _, _, _⟩ := modifiers <;> rfl

@[simp] theorem Modifiers.offset_withoutLayout (modifiers : Modifiers) :
    modifiers.withoutLayout.offset = modifiers.offset := by
  obtain ⟨_ | _, _, _, _, _, _⟩ := modifiers <;> rfl

@[simp] theorem Modifiers.values_withoutLayout (modifiers : Modifiers) :
    modifiers.withoutLayout.values = modifiers.values.map (InlineData.mapIris Iri.withoutSpan) := by
  obtain ⟨_ | _, _, _, _, _, _⟩ := modifiers <;> rfl

theorem GraphNode.length_itemsWithoutLayout (items : List GraphNode) :
    (GraphNode.itemsWithoutLayout items).length = items.length := by
  induction items with
  | nil => rfl
  | cons item rest ih => rw [itemsWithoutLayout, List.length_cons, List.length_cons, ih]

/-- A path has no names, and neither has the IRI that it may be. -/
@[simp] theorem Verb.names_withoutLayout (verb : Verb) : verb.withoutLayout.names = verb.names := by
  cases verb with
  | simple verb => exact verb.names_mapIris
  | path route =>
    rw [Verb.withoutLayout]
    split <;> rfl

@[simp] theorem Verb.vars_withoutLayout (verb : Verb) : verb.withoutLayout.vars = verb.vars := by
  cases verb with
  | simple verb => exact verb.vars_mapIris
  | path route =>
    rw [Verb.withoutLayout]
    split <;> rfl

mutual

@[simp] theorem GraphNode.names_withoutLayout : ∀ node : GraphNode,
    node.withoutLayout.names = node.names
  | .term value => value.names_mapIris
  | .collection items => GraphNode.names_itemsWithoutLayout items
  | .properties entries => GraphNode.names_entriesWithoutLayout entries

theorem GraphNode.names_itemsWithoutLayout : ∀ items : List GraphNode,
    GraphNode.namesOfItems (GraphNode.itemsWithoutLayout items) = GraphNode.namesOfItems items
  | [] => rfl
  | item :: rest => by
    rw [itemsWithoutLayout, namesOfItems, namesOfItems, item.names_withoutLayout,
      names_itemsWithoutLayout rest]

theorem GraphNode.names_entriesWithoutLayout : ∀ entries : List (Verb × GraphNode),
    GraphNode.namesOfEntries (GraphNode.entriesWithoutLayout entries)
      = GraphNode.namesOfEntries entries
  | [] => rfl
  | (verb, object) :: rest => by
    rw [entriesWithoutLayout, namesOfEntries, namesOfEntries, verb.names_withoutLayout,
      object.names_withoutLayout, names_entriesWithoutLayout rest]

end

mutual

@[simp] theorem GraphNode.vars_withoutLayout : ∀ node : GraphNode,
    node.withoutLayout.vars = node.vars
  | .term value => value.vars_mapIris
  | .collection items => GraphNode.vars_itemsWithoutLayout items
  | .properties entries => GraphNode.vars_entriesWithoutLayout entries

theorem GraphNode.vars_itemsWithoutLayout : ∀ items : List GraphNode,
    GraphNode.varsOfItems (GraphNode.itemsWithoutLayout items) = GraphNode.varsOfItems items
  | [] => rfl
  | item :: rest => by
    rw [itemsWithoutLayout, varsOfItems, varsOfItems, item.vars_withoutLayout,
      vars_itemsWithoutLayout rest]

theorem GraphNode.vars_entriesWithoutLayout : ∀ entries : List (Verb × GraphNode),
    GraphNode.varsOfEntries (GraphNode.entriesWithoutLayout entries)
      = GraphNode.varsOfEntries entries
  | [] => rfl
  | (verb, object) :: rest => by
    rw [entriesWithoutLayout, varsOfEntries, varsOfEntries, verb.vars_withoutLayout,
      object.vars_withoutLayout, vars_entriesWithoutLayout rest]

end

@[simp] theorem Triple.names_withoutLayout (triple : Triple) :
    triple.withoutLayout.names = triple.names := by
  simp only [Triple.withoutLayout, Triple.names, GraphNode.names_withoutLayout,
    Verb.names_withoutLayout]

@[simp] theorem Triple.vars_withoutLayout (triple : Triple) :
    triple.withoutLayout.vars = triple.vars := by
  simp only [Triple.withoutLayout, Triple.vars, GraphNode.vars_withoutLayout,
    Verb.vars_withoutLayout]

mutual

@[simp] theorem Expression.names_withoutLayout : ∀ expression : Expression,
    expression.withoutLayout.names = expression.names
  | .var _ | .iri _ | .literal _ => rfl
  | .binary _ left right => by
    rw [Expression.withoutLayout, Expression.names, Expression.names, left.names_withoutLayout,
      right.names_withoutLayout]
  | .unary _ operand => operand.names_withoutLayout
  | .call _ arguments _ => Expression.names_allWithoutLayout arguments
  | .ifElse condition positive negative => by
    rw [Expression.withoutLayout, Expression.names, Expression.names,
      condition.names_withoutLayout, positive.names_withoutLayout, negative.names_withoutLayout]
  | .coalesce arguments => Expression.names_allWithoutLayout arguments
  | .among value choices _ => by
    rw [Expression.withoutLayout, Expression.names, Expression.names, value.names_withoutLayout,
      Expression.names_allWithoutLayout choices]
  | .existence _ pattern => pattern.names_withoutLayout
  | .aggregate _ none _ _ => rfl
  | .aggregate _ (some argument) _ _ => argument.names_withoutLayout
  | .bracketed inner => inner.names_withoutLayout

theorem Expression.names_allWithoutLayout : ∀ expressions : List Expression,
    Expression.namesOfAll (Expression.allWithoutLayout expressions)
      = Expression.namesOfAll expressions
  | [] => rfl
  | expression :: rest => by
    rw [Expression.allWithoutLayout, Expression.namesOfAll, Expression.namesOfAll,
      expression.names_withoutLayout, Expression.names_allWithoutLayout rest]

@[simp] theorem Pattern.names_withoutLayout : ∀ pattern : Pattern,
    pattern.withoutLayout.names = pattern.names
  | .bgp triples _ => Names.all_map Triple.names_withoutLayout triples
  | .group elements _ => Pattern.names_allWithoutLayout elements
  | .optional pattern _ | .minus pattern _ => pattern.names_withoutLayout
  | .union left right _ => by
    rw [Pattern.withoutLayout, Pattern.names, Pattern.names, left.names_withoutLayout,
      right.names_withoutLayout]
  | .filter condition _ => condition.names_withoutLayout
  | .bind value name _ => by
    rw [Pattern.withoutLayout, Pattern.names, Pattern.names, value.names_withoutLayout]
  | .values data _ => data.names_mapIris
  | .graph name pattern _ => by
    rw [Pattern.withoutLayout, Pattern.names, Pattern.names, name.names_mapIris,
      pattern.names_withoutLayout]
  | .service _ endpoint pattern _ => by
    rw [Pattern.withoutLayout, Pattern.names, Pattern.names, endpoint.names_mapIris,
      pattern.names_withoutLayout]
  | .subquery query _ => query.names_withoutLayout

theorem Pattern.names_allWithoutLayout : ∀ patterns : List Pattern,
    Pattern.namesOfAll (Pattern.allWithoutLayout patterns) = Pattern.namesOfAll patterns
  | [] => rfl
  | pattern :: rest => by
    rw [Pattern.allWithoutLayout, Pattern.namesOfAll, Pattern.namesOfAll,
      pattern.names_withoutLayout, Pattern.names_allWithoutLayout rest]

@[simp] theorem Select.names_withoutLayout : ∀ query : Select,
    query.withoutLayout.names = query.names
  | ⟨_, projection, _, pattern, modifiers⟩ => by
    rw [Select.withoutLayout, Select.names, Select.names, projection.names_withoutLayout,
      pattern.names_withoutLayout, modifiers.names_withoutLayout]

theorem Projection.names_withoutLayout : ∀ projection : Projection,
    projection.withoutLayout.names = projection.names
  | .all => rfl
  | .items items => SelectItem.names_allWithoutLayout items

theorem SelectItem.names_allWithoutLayout : ∀ items : List SelectItem,
    SelectItem.namesOfAll (SelectItem.allWithoutLayout items) = SelectItem.namesOfAll items
  | [] => rfl
  | .var _ :: rest => by
    rw [SelectItem.allWithoutLayout, SelectItem.namesOfAll, SelectItem.namesOfAll,
      SelectItem.names_allWithoutLayout rest]
  | .computed value _ :: rest => by
    rw [SelectItem.allWithoutLayout, SelectItem.namesOfAll, SelectItem.namesOfAll,
      value.names_withoutLayout, SelectItem.names_allWithoutLayout rest]

@[simp] theorem Modifiers.names_withoutLayout : ∀ modifiers : Modifiers,
    modifiers.withoutLayout.names = modifiers.names
  | ⟨none, having, orderBy, _, _, values⟩ => by
    rw [Modifiers.withoutLayout, Modifiers.names, Modifiers.names,
      Expression.names_allWithoutLayout having, OrderKey.names_allWithoutLayout orderBy,
      Names.optional_map InlineData.names_mapIris]
  | ⟨some keys, having, orderBy, _, _, values⟩ => by
    rw [Modifiers.withoutLayout, Modifiers.names, Modifiers.names,
      GroupKey.names_allWithoutLayout keys, Expression.names_allWithoutLayout having,
      OrderKey.names_allWithoutLayout orderBy, Names.optional_map InlineData.names_mapIris]

theorem GroupKey.names_allWithoutLayout : ∀ keys : List GroupKey,
    GroupKey.namesOfAll (GroupKey.allWithoutLayout keys) = GroupKey.namesOfAll keys
  | [] => rfl
  | .var _ :: rest => by
    rw [GroupKey.allWithoutLayout, GroupKey.namesOfAll, GroupKey.namesOfAll,
      GroupKey.names_allWithoutLayout rest]
  | .computed value _ :: rest => by
    rw [GroupKey.allWithoutLayout, GroupKey.namesOfAll, GroupKey.namesOfAll,
      value.names_withoutLayout, GroupKey.names_allWithoutLayout rest]

theorem OrderKey.names_allWithoutLayout : ∀ keys : List OrderKey,
    OrderKey.namesOfAll (OrderKey.allWithoutLayout keys) = OrderKey.namesOfAll keys
  | [] => rfl
  | .var _ _ :: rest => by
    rw [OrderKey.allWithoutLayout, OrderKey.namesOfAll, OrderKey.namesOfAll,
      OrderKey.names_allWithoutLayout rest]
  | .computed value _ :: rest => by
    rw [OrderKey.allWithoutLayout, OrderKey.namesOfAll, OrderKey.namesOfAll,
      value.names_withoutLayout, OrderKey.names_allWithoutLayout rest]

end

theorem SelectItem.name_allWithoutLayout (items : List SelectItem) :
    (SelectItem.allWithoutLayout items).map SelectItem.name = items.map SelectItem.name := by
  induction items with
  | nil => rfl
  | cons item rest ih => cases item <;> simp [SelectItem.allWithoutLayout, SelectItem.name, ih]

mutual

@[simp] theorem Pattern.inScope_withoutLayout : ∀ pattern : Pattern,
    pattern.withoutLayout.inScope = pattern.inScope
  | .bgp triples _ => by
    simp only [Pattern.withoutLayout, Pattern.inScope, List.flatMap_map, Triple.vars_withoutLayout]
  | .group elements _ => Pattern.inScope_allWithoutLayout elements
  | .optional pattern _ => pattern.inScope_withoutLayout
  | .minus _ _ | .filter _ _ | .bind _ _ _ | .values _ _ => rfl
  | .union left right _ => by
    rw [Pattern.withoutLayout, Pattern.inScope, Pattern.inScope, left.inScope_withoutLayout,
      right.inScope_withoutLayout]
  | .graph name pattern _ => by
    rw [Pattern.withoutLayout, Pattern.inScope, Pattern.inScope, name.vars_mapIris,
      pattern.inScope_withoutLayout]
  | .service _ endpoint pattern _ => by
    rw [Pattern.withoutLayout, Pattern.inScope, Pattern.inScope, endpoint.vars_mapIris,
      pattern.inScope_withoutLayout]
  | .subquery query _ => query.inScope_withoutLayout

theorem Select.inScope_withoutLayout : ∀ query : Select,
    query.withoutLayout.inScope = query.inScope
  | ⟨_, .all, _, pattern, _⟩ => pattern.inScope_withoutLayout
  | ⟨_, .items items, _, _, _⟩ => SelectItem.name_allWithoutLayout items

theorem Pattern.inScope_allWithoutLayout : ∀ patterns : List Pattern,
    Pattern.inScopeOfAll (Pattern.allWithoutLayout patterns) = Pattern.inScopeOfAll patterns
  | [] => rfl
  | pattern :: rest => by
    rw [Pattern.allWithoutLayout, Pattern.inScopeOfAll, Pattern.inScopeOfAll,
      pattern.inScope_withoutLayout, Pattern.inScope_allWithoutLayout rest]

end

/-- The variables of a star stay in their order. -/
@[simp] theorem starVariables_withoutLayout (pattern : Option Pattern)
    (values : Option InlineData) :
    starVariables (pattern.map Pattern.withoutLayout)
        (values.map (InlineData.mapIris Iri.withoutSpan))
      = starVariables pattern values := by
  cases pattern <;> cases values <;> simp [starVariables, InlineData.mapIris]

mutual

theorem Pattern.triples_withoutLayout : ∀ pattern : Pattern,
    pattern.withoutLayout.triples = pattern.triples.map Triple.withoutLayout
  | .bgp _ _ => rfl
  | .group elements _ => Pattern.triples_allWithoutLayout elements
  | .optional _ _ | .minus _ _ | .union _ _ _ | .filter _ _ | .bind _ _ _ | .values _ _
  | .graph _ _ _ | .service _ _ _ _ | .subquery _ _ => rfl

theorem Pattern.triples_allWithoutLayout : ∀ elements : List Pattern,
    Pattern.triples.ofElements (Pattern.allWithoutLayout elements)
      = (Pattern.triples.ofElements elements).map Triple.withoutLayout
  | [] => rfl
  | element :: rest => by
    rw [Pattern.allWithoutLayout, Pattern.triples.ofElements, Pattern.triples.ofElements,
      List.map_append, element.triples_withoutLayout, Pattern.triples_allWithoutLayout rest]

end

theorem QuadBlock.names_withoutLayout (block : QuadBlock) :
    block.withoutLayout.names = block.names := by
  simp only [QuadBlock.withoutLayout, QuadBlock.names]
  rw [Names.optional_map VarOrIri.names_mapIris, Names.all_map Triple.names_withoutLayout]

theorem Query.names_withoutLayout (query : Query) : query.withoutLayout.names = query.names := by
  cases query with
  | select query => exact query.names_withoutLayout
  | construct query =>
    simp only [Query.withoutLayout, Query.names, Construct.withoutLayout, Construct.names,
      Pattern.names_withoutLayout, Modifiers.names_withoutLayout]
    rw [Names.optional_map (Names.all_map Triple.names_withoutLayout)]
  | ask query =>
    simp only [Query.withoutLayout, Query.names, Ask.withoutLayout, Ask.names,
      Pattern.names_withoutLayout, Modifiers.names_withoutLayout]
  | describe query =>
    obtain ⟨target, dataset, pattern, modifiers⟩ := query
    simp only [Query.withoutLayout, Query.names, Describe.withoutLayout, Describe.names,
      Modifiers.names_withoutLayout]
    rw [Names.optional_map Pattern.names_withoutLayout]
    cases target with
    | all => rfl
    | resources resources =>
      simp only [DescribeTarget.mapIris, Names.all_map VarOrIri.names_mapIris]

theorem Update.names_withoutLayout (update : Update) :
    update.withoutLayout.names = update.names := by
  cases update with
  | insertData quads | deleteData quads | deleteWhere quads =>
    exact Names.all_map QuadBlock.names_withoutLayout quads
  | modify update =>
    simp only [Update.withoutLayout, Update.names, Modify.withoutLayout,
      Pattern.names_withoutLayout]
    rw [Names.optional_map (Names.all_map QuadBlock.names_withoutLayout),
      Names.optional_map (Names.all_map QuadBlock.names_withoutLayout)]
  | _ => rfl

/-- All names are written in what layout leaves. -/
theorem Request.names_withoutLayout (request : Request) :
    request.withoutLayout.names = request.names := by
  obtain ⟨prologue, body⟩ := request
  cases body with
  | query asked => exact asked.names_withoutLayout
  | update units =>
    simp only [Request.withoutLayout, Body.withoutLayout, Request.names, Body.names, Names.all,
      List.foldr_map, UpdateUnit.withoutLayout, Update.names_withoutLayout]

end QueryAlgebra.Surface
