import QueryAlgebra.Lowering.Request

/-! # Replacing the IRIs of a request

`mapIris` replaces every written IRI of a part of a request: in terms and datatypes, in property
paths, where functions are called, and where graphs, services and datasets are named. Nothing else
changes, so names, scopes, ranges and the kinds of patterns stay.
-/

namespace QueryAlgebra.Surface

variable (f : Iri → Iri)

/-! ### Terms and triples -/

/-- Replace an IRI in the place of a name. -/
def VarOrIri.mapIris : VarOrIri → VarOrIri
  | .var name => .var name
  | .iri name => .iri (f name)

/-- Replace the datatype of a literal. -/
def Literal.mapIris : Literal → Literal
  | .typed value datatype => .typed value (f datatype)
  | literal => literal

/-- Replace the IRIs of a term. -/
def Term.mapIris : Term → Term
  | .var name => .var name
  | .iri name => .iri (f name)
  | .literal value => .literal (value.mapIris f)
  | .blank label => .blank label
  | .anonymous => .anonymous
  | .quoted subject predicate object =>
    .quoted subject.mapIris (predicate.mapIris f) object.mapIris

/-- Replace the IRIs of inline data. -/
def InlineData.mapIris (data : InlineData) : InlineData :=
  ⟨data.vars, data.rows.map (·.map (·.map (Term.mapIris f)))⟩

/-- Replace the IRI of a member of a negated set. -/
def NegatedMember.mapIris : NegatedMember → NegatedMember
  | .forward iri => .forward (f iri)
  | .inverse iri => .inverse (f iri)
  | .forwardType span => .forwardType span
  | .inverseType span => .inverseType span

/-- Replace the IRIs of a property path. -/
def Path.mapIris : Path → Path
  | .iri name => .iri (f name)
  | .type span => .type span
  | .inverse path span => .inverse path.mapIris span
  | .sequence left right span => .sequence left.mapIris right.mapIris span
  | .alternative left right span => .alternative left.mapIris right.mapIris span
  | .zeroOrMore path span => .zeroOrMore path.mapIris span
  | .oneOrMore path span => .oneOrMore path.mapIris span
  | .zeroOrOne path span => .zeroOrOne path.mapIris span
  | .negated members span => .negated (members.map (NegatedMember.mapIris f)) span
  | .group path span => .group path.mapIris span

/-- Replace the IRIs of a predicate. -/
def Verb.mapIris : Verb → Verb
  | .simple verb => .simple (verb.mapIris f)
  | .path route => .path (route.mapIris f)

mutual

/-- Replace the IRIs of a subject or object. -/
def GraphNode.mapIris : GraphNode → GraphNode
  | .term value => .term (value.mapIris f)
  | .collection items => .collection (GraphNode.mapIrisOfItems items)
  | .properties entries => .properties (GraphNode.mapIrisOfEntries entries)

/-- Replace the IRIs of the items of a collection. -/
def GraphNode.mapIrisOfItems : List GraphNode → List GraphNode
  | [] => []
  | item :: rest => item.mapIris :: GraphNode.mapIrisOfItems rest

/-- Replace the IRIs of a list of properties. -/
def GraphNode.mapIrisOfEntries : List (Verb × GraphNode) → List (Verb × GraphNode)
  | [] => []
  | (verb, object) :: rest =>
    (verb.mapIris f, object.mapIris) :: GraphNode.mapIrisOfEntries rest

end

/-- Replace the IRIs of a triple. -/
def Triple.mapIris (triple : Triple) : Triple :=
  ⟨triple.subject.mapIris f, triple.verb.mapIris f, triple.object.mapIris f⟩

/-! ### Queries -/

/-- Replace the IRIs of a dataset. -/
def Dataset.mapIris (dataset : Dataset) : Dataset :=
  ⟨dataset.default.map f, dataset.named.map f⟩

/-- Replace the name of a function. -/
def Function.mapIris : Function → Function
  | .builtin function => .builtin function
  | .named iri => .named (f iri)

mutual

/-- Replace the IRIs of an expression. -/
def Expression.mapIris : Expression → Expression
  | .var name => .var name
  | .iri name => .iri (f name)
  | .literal value => .literal (value.mapIris f)
  | .binary op left right => .binary op left.mapIris right.mapIris
  | .unary op operand => .unary op operand.mapIris
  | .call function arguments distinct =>
    .call (function.mapIris f) (Expression.mapIrisOfAll arguments) distinct
  | .ifElse condition positive negative =>
    .ifElse condition.mapIris positive.mapIris negative.mapIris
  | .coalesce arguments => .coalesce (Expression.mapIrisOfAll arguments)
  | .among value choices negated => .among value.mapIris (Expression.mapIrisOfAll choices) negated
  | .existence negated pattern => .existence negated pattern.mapIris
  | .aggregate function none distinct separator => .aggregate function none distinct separator
  | .aggregate function (some argument) distinct separator =>
    .aggregate function (some argument.mapIris) distinct separator
  | .bracketed inner => .bracketed inner.mapIris

/-- Replace the IRIs of a list of expressions. -/
def Expression.mapIrisOfAll : List Expression → List Expression
  | [] => []
  | expression :: rest => expression.mapIris :: Expression.mapIrisOfAll rest

/-- Replace the IRIs of a pattern. -/
def Pattern.mapIris : Pattern → Pattern
  | .bgp triples span => .bgp (triples.map (Triple.mapIris f)) span
  | .group elements span => .group (Pattern.mapIrisOfAll elements) span
  | .optional pattern span => .optional pattern.mapIris span
  | .minus pattern span => .minus pattern.mapIris span
  | .union left right span => .union left.mapIris right.mapIris span
  | .filter condition span => .filter condition.mapIris span
  | .bind value name span => .bind value.mapIris name span
  | .values data span => .values (data.mapIris f) span
  | .graph name pattern span => .graph (name.mapIris f) pattern.mapIris span
  | .service silent endpoint pattern span =>
    .service silent (endpoint.mapIris f) pattern.mapIris span
  | .subquery query span => .subquery query.mapIris span

/-- Replace the IRIs of the elements of a group. -/
def Pattern.mapIrisOfAll : List Pattern → List Pattern
  | [] => []
  | pattern :: rest => pattern.mapIris :: Pattern.mapIrisOfAll rest

/-- Replace the IRIs of a SELECT query. -/
def Select.mapIris : Select → Select
  | ⟨duplicates, projection, dataset, pattern, modifiers⟩ =>
    ⟨duplicates, projection.mapIris, dataset.map (Dataset.mapIris f), pattern.mapIris,
      modifiers.mapIris⟩

/-- Replace the IRIs of a projection. -/
def Projection.mapIris : Projection → Projection
  | .all => .all
  | .items items => .items (SelectItem.mapIrisOfAll items)

/-- Replace the IRIs of the items of a projection. -/
def SelectItem.mapIrisOfAll : List SelectItem → List SelectItem
  | [] => []
  | .var name :: rest => .var name :: SelectItem.mapIrisOfAll rest
  | .computed value name :: rest =>
    .computed value.mapIris name :: SelectItem.mapIrisOfAll rest

/-- Replace the IRIs of the clauses after a pattern. -/
def Modifiers.mapIris : Modifiers → Modifiers
  | ⟨none, having, orderBy, limit, offset, values⟩ =>
    ⟨none, Expression.mapIrisOfAll having, OrderKey.mapIrisOfAll orderBy, limit, offset,
      values.map (InlineData.mapIris f)⟩
  | ⟨some keys, having, orderBy, limit, offset, values⟩ =>
    ⟨some (GroupKey.mapIrisOfAll keys), Expression.mapIrisOfAll having,
      OrderKey.mapIrisOfAll orderBy, limit, offset, values.map (InlineData.mapIris f)⟩

/-- Replace the IRIs of the keys of a GROUP BY clause. -/
def GroupKey.mapIrisOfAll : List GroupKey → List GroupKey
  | [] => []
  | .var name :: rest => .var name :: GroupKey.mapIrisOfAll rest
  | .computed value name :: rest => .computed value.mapIris name :: GroupKey.mapIrisOfAll rest

/-- Replace the IRIs of the keys of an ORDER BY clause. -/
def OrderKey.mapIrisOfAll : List OrderKey → List OrderKey
  | [] => []
  | .var name direction :: rest => .var name direction :: OrderKey.mapIrisOfAll rest
  | .computed value direction :: rest =>
    .computed value.mapIris direction :: OrderKey.mapIrisOfAll rest

end

/-- Replace the IRIs of a CONSTRUCT query. -/
def Construct.mapIris (query : Construct) : Construct :=
  ⟨query.template.map (·.map (Triple.mapIris f)), query.dataset.map (Dataset.mapIris f),
    query.pattern.mapIris f, query.modifiers.mapIris f⟩

/-- Replace the IRIs of an ASK query. -/
def Ask.mapIris (query : Ask) : Ask :=
  ⟨query.dataset.map (Dataset.mapIris f), query.pattern.mapIris f, query.modifiers.mapIris f⟩

/-- Replace the IRIs that a DESCRIBE query is about. -/
def DescribeTarget.mapIris : DescribeTarget → DescribeTarget
  | .all => .all
  | .resources listed => .resources (listed.map (VarOrIri.mapIris f))

/-- Replace the IRIs of a DESCRIBE query. -/
def Describe.mapIris (query : Describe) : Describe :=
  ⟨query.target.mapIris f, query.dataset.map (Dataset.mapIris f),
    query.pattern.map (Pattern.mapIris f), query.modifiers.mapIris f⟩

/-- Replace the IRIs of a query. -/
def Query.mapIris : Query → Query
  | .select query => .select (query.mapIris f)
  | .construct query => .construct (query.mapIris f)
  | .ask query => .ask (query.mapIris f)
  | .describe query => .describe (query.mapIris f)

/-! ### Updates -/

/-- Replace the IRIs of a block of an update template. -/
def QuadBlock.mapIris (block : QuadBlock) : QuadBlock :=
  ⟨block.graph.map (VarOrIri.mapIris f), block.triples.map (Triple.mapIris f)⟩

/-- Replace the IRI of a graph to be emptied. -/
def ClearTarget.mapIris : ClearTarget → ClearTarget
  | .graph iri => .graph (f iri)
  | target => target

/-- Replace the IRI of a graph. -/
def GraphOrDefault.mapIris : GraphOrDefault → GraphOrDefault
  | .default => .default
  | .graph iri => .graph (f iri)

/-- Replace the IRIs of an update of triples by a pattern. -/
def Modify.mapIris (update : Modify) : Modify :=
  ⟨update.withGraph.map f, update.dataset.map (Dataset.mapIris f),
    update.delete.map (·.map (QuadBlock.mapIris f)),
    update.insert.map (·.map (QuadBlock.mapIris f)), update.pattern.mapIris f, update.span⟩

/-- Replace the IRIs of an update. -/
def Update.mapIris : Update → Update
  | .insertData quads span => .insertData (quads.map (QuadBlock.mapIris f)) span
  | .deleteData quads span => .deleteData (quads.map (QuadBlock.mapIris f)) span
  | .deleteWhere quads span => .deleteWhere (quads.map (QuadBlock.mapIris f)) span
  | .modify change => .modify (change.mapIris f)
  | .load silent source destination => .load silent (f source) (destination.map f)
  | .clear silent target => .clear silent (target.mapIris f)
  | .drop silent target => .drop silent (target.mapIris f)
  | .create silent graph => .create silent (f graph)
  | .transfer how silent source destination =>
    .transfer how silent (source.mapIris f) (destination.mapIris f)

/-! ### What stays -/

variable {f}

theorem Path.unwrapped_mapIris (path : Path) :
    (path.mapIris f).unwrapped = path.unwrapped.mapIris f := by
  induction path with
  | group path span ih => exact ih
  | _ => rfl

theorem Dataset.isEmpty_mapIris (dataset : Dataset) :
    (dataset.mapIris f).isEmpty = dataset.isEmpty := by
  simp [Dataset.mapIris, Dataset.isEmpty]

@[simp] theorem Modifiers.limit_mapIris (modifiers : Modifiers) :
    (modifiers.mapIris f).limit = modifiers.limit := by
  obtain ⟨_ | _, _, _, _, _, _⟩ := modifiers <;> rfl

@[simp] theorem Modifiers.offset_mapIris (modifiers : Modifiers) :
    (modifiers.mapIris f).offset = modifiers.offset := by
  obtain ⟨_ | _, _, _, _, _, _⟩ := modifiers <;> rfl

@[simp] theorem Modifiers.values_mapIris (modifiers : Modifiers) :
    (modifiers.mapIris f).values = modifiers.values.map (InlineData.mapIris f) := by
  obtain ⟨_ | _, _, _, _, _, _⟩ := modifiers <;> rfl

theorem GraphNode.length_mapIrisOfItems (items : List GraphNode) :
    (GraphNode.mapIrisOfItems f items).length = items.length := by
  induction items with
  | nil => rfl
  | cons item rest ih => rw [mapIrisOfItems, List.length_cons, List.length_cons, ih]

theorem Names.all_map {α : Type} {names : α → Names} {g : α → α}
    (same : ∀ part, names (g part) = names part) (parts : List α) :
    Names.all names (parts.map g) = Names.all names parts := by
  simp only [Names.all, List.foldr_map, same]

theorem Names.optional_map {α : Type} {names : α → Names} {g : α → α}
    (same : ∀ part, names (g part) = names part) (part : Option α) :
    Names.optional names (part.map g) = Names.optional names part := by
  cases part with
  | none => rfl
  | some part => exact same part

@[simp] theorem VarOrIri.names_mapIris (name : VarOrIri) : (name.mapIris f).names = name.names := by
  cases name <;> rfl

@[simp] theorem VarOrIri.vars_mapIris (name : VarOrIri) : (name.mapIris f).vars = name.vars := by
  cases name <;> rfl

@[simp] theorem Term.names_mapIris (term : Term) : (term.mapIris f).names = term.names := by
  induction term with
  | quoted subject predicate object ofSubject ofObject =>
    simp only [Term.mapIris, Term.names, ofSubject, ofObject, VarOrIri.names_mapIris]
  | _ => rfl

@[simp] theorem Term.vars_mapIris (term : Term) : (term.mapIris f).vars = term.vars := by
  induction term with
  | quoted subject predicate object ofSubject ofObject =>
    simp only [Term.mapIris, Term.vars, ofSubject, ofObject, VarOrIri.vars_mapIris]
  | _ => rfl

@[simp] theorem InlineData.names_mapIris (data : InlineData) :
    (data.mapIris f).names = data.names := by
  simp only [InlineData.mapIris, InlineData.names]
  rw [Names.all_map (Names.all_map (Names.optional_map Term.names_mapIris))]

@[simp] theorem Verb.names_mapIris (verb : Verb) : (verb.mapIris f).names = verb.names := by
  cases verb with
  | simple verb => exact verb.names_mapIris
  | path => rfl

@[simp] theorem Verb.vars_mapIris (verb : Verb) : (verb.mapIris f).vars = verb.vars := by
  cases verb with
  | simple verb => exact verb.vars_mapIris
  | path => rfl

mutual

@[simp] theorem GraphNode.names_mapIris : ∀ node : GraphNode, (node.mapIris f).names = node.names
  | .term value => value.names_mapIris
  | .collection items => GraphNode.namesOfItems_mapIris items
  | .properties entries => GraphNode.namesOfEntries_mapIris entries

theorem GraphNode.namesOfItems_mapIris : ∀ items : List GraphNode,
    GraphNode.namesOfItems (GraphNode.mapIrisOfItems f items) = GraphNode.namesOfItems items
  | [] => rfl
  | item :: rest => by
    rw [mapIrisOfItems, namesOfItems, namesOfItems, item.names_mapIris, namesOfItems_mapIris rest]

theorem GraphNode.namesOfEntries_mapIris : ∀ entries : List (Verb × GraphNode),
    GraphNode.namesOfEntries (GraphNode.mapIrisOfEntries f entries)
      = GraphNode.namesOfEntries entries
  | [] => rfl
  | (verb, object) :: rest => by
    rw [mapIrisOfEntries, namesOfEntries, namesOfEntries, verb.names_mapIris,
      object.names_mapIris, namesOfEntries_mapIris rest]

end

mutual

@[simp] theorem GraphNode.vars_mapIris : ∀ node : GraphNode, (node.mapIris f).vars = node.vars
  | .term value => value.vars_mapIris
  | .collection items => GraphNode.varsOfItems_mapIris items
  | .properties entries => GraphNode.varsOfEntries_mapIris entries

theorem GraphNode.varsOfItems_mapIris : ∀ items : List GraphNode,
    GraphNode.varsOfItems (GraphNode.mapIrisOfItems f items) = GraphNode.varsOfItems items
  | [] => rfl
  | item :: rest => by
    rw [mapIrisOfItems, varsOfItems, varsOfItems, item.vars_mapIris, varsOfItems_mapIris rest]

theorem GraphNode.varsOfEntries_mapIris : ∀ entries : List (Verb × GraphNode),
    GraphNode.varsOfEntries (GraphNode.mapIrisOfEntries f entries)
      = GraphNode.varsOfEntries entries
  | [] => rfl
  | (verb, object) :: rest => by
    rw [mapIrisOfEntries, varsOfEntries, varsOfEntries, verb.vars_mapIris, object.vars_mapIris,
      varsOfEntries_mapIris rest]

end

@[simp] theorem Triple.names_mapIris (triple : Triple) :
    (triple.mapIris f).names = triple.names := by
  simp only [Triple.mapIris, Triple.names, GraphNode.names_mapIris, Verb.names_mapIris]

@[simp] theorem Triple.vars_mapIris (triple : Triple) : (triple.mapIris f).vars = triple.vars := by
  simp only [Triple.mapIris, Triple.vars, GraphNode.vars_mapIris, Verb.vars_mapIris]

mutual

@[simp] theorem Expression.names_mapIris : ∀ expression : Expression,
    (expression.mapIris f).names = expression.names
  | .var _ | .iri _ | .literal _ => rfl
  | .binary _ left right => by
    rw [Expression.mapIris, Expression.names, Expression.names, left.names_mapIris,
      right.names_mapIris]
  | .unary _ operand => operand.names_mapIris
  | .call _ arguments _ => Expression.namesOfAll_mapIris arguments
  | .ifElse condition positive negative => by
    rw [Expression.mapIris, Expression.names, Expression.names, condition.names_mapIris,
      positive.names_mapIris, negative.names_mapIris]
  | .coalesce arguments => Expression.namesOfAll_mapIris arguments
  | .among value choices _ => by
    rw [Expression.mapIris, Expression.names, Expression.names, value.names_mapIris,
      Expression.namesOfAll_mapIris choices]
  | .existence _ pattern => pattern.names_mapIris
  | .aggregate _ none _ _ => rfl
  | .aggregate _ (some argument) _ _ => argument.names_mapIris
  | .bracketed inner => inner.names_mapIris

theorem Expression.namesOfAll_mapIris : ∀ expressions : List Expression,
    Expression.namesOfAll (Expression.mapIrisOfAll f expressions)
      = Expression.namesOfAll expressions
  | [] => rfl
  | expression :: rest => by
    rw [Expression.mapIrisOfAll, Expression.namesOfAll, Expression.namesOfAll,
      expression.names_mapIris, Expression.namesOfAll_mapIris rest]

@[simp] theorem Pattern.names_mapIris : ∀ pattern : Pattern,
    (pattern.mapIris f).names = pattern.names
  | .bgp triples _ => Names.all_map Triple.names_mapIris triples
  | .group elements _ => Pattern.namesOfAll_mapIris elements
  | .optional pattern _ | .minus pattern _ => pattern.names_mapIris
  | .union left right _ => by
    rw [Pattern.mapIris, Pattern.names, Pattern.names, left.names_mapIris, right.names_mapIris]
  | .filter condition _ => condition.names_mapIris
  | .bind value name _ => by
    rw [Pattern.mapIris, Pattern.names, Pattern.names, value.names_mapIris]
  | .values data _ => data.names_mapIris
  | .graph name pattern _ => by
    rw [Pattern.mapIris, Pattern.names, Pattern.names, name.names_mapIris, pattern.names_mapIris]
  | .service _ endpoint pattern _ => by
    rw [Pattern.mapIris, Pattern.names, Pattern.names, endpoint.names_mapIris,
      pattern.names_mapIris]
  | .subquery query _ => query.names_mapIris

theorem Pattern.namesOfAll_mapIris : ∀ patterns : List Pattern,
    Pattern.namesOfAll (Pattern.mapIrisOfAll f patterns) = Pattern.namesOfAll patterns
  | [] => rfl
  | pattern :: rest => by
    rw [Pattern.mapIrisOfAll, Pattern.namesOfAll, Pattern.namesOfAll, pattern.names_mapIris,
      Pattern.namesOfAll_mapIris rest]

@[simp] theorem Select.names_mapIris : ∀ query : Select, (query.mapIris f).names = query.names
  | ⟨_, projection, _, pattern, modifiers⟩ => by
    rw [Select.mapIris, Select.names, Select.names, projection.names_mapIris,
      pattern.names_mapIris, modifiers.names_mapIris]

theorem Projection.names_mapIris : ∀ projection : Projection,
    (projection.mapIris f).names = projection.names
  | .all => rfl
  | .items items => SelectItem.namesOfAll_mapIris items

theorem SelectItem.namesOfAll_mapIris : ∀ items : List SelectItem,
    SelectItem.namesOfAll (SelectItem.mapIrisOfAll f items) = SelectItem.namesOfAll items
  | [] => rfl
  | .var _ :: rest => by
    rw [SelectItem.mapIrisOfAll, SelectItem.namesOfAll, SelectItem.namesOfAll,
      SelectItem.namesOfAll_mapIris rest]
  | .computed value _ :: rest => by
    rw [SelectItem.mapIrisOfAll, SelectItem.namesOfAll, SelectItem.namesOfAll,
      value.names_mapIris, SelectItem.namesOfAll_mapIris rest]

@[simp] theorem Modifiers.names_mapIris : ∀ modifiers : Modifiers,
    (modifiers.mapIris f).names = modifiers.names
  | ⟨none, having, orderBy, _, _, values⟩ => by
    rw [Modifiers.mapIris, Modifiers.names, Modifiers.names, Expression.namesOfAll_mapIris having,
      OrderKey.namesOfAll_mapIris orderBy, Names.optional_map InlineData.names_mapIris]
  | ⟨some keys, having, orderBy, _, _, values⟩ => by
    rw [Modifiers.mapIris, Modifiers.names, Modifiers.names, GroupKey.namesOfAll_mapIris keys,
      Expression.namesOfAll_mapIris having, OrderKey.namesOfAll_mapIris orderBy,
      Names.optional_map InlineData.names_mapIris]

theorem GroupKey.namesOfAll_mapIris : ∀ keys : List GroupKey,
    GroupKey.namesOfAll (GroupKey.mapIrisOfAll f keys) = GroupKey.namesOfAll keys
  | [] => rfl
  | .var _ :: rest => by
    rw [GroupKey.mapIrisOfAll, GroupKey.namesOfAll, GroupKey.namesOfAll,
      GroupKey.namesOfAll_mapIris rest]
  | .computed value _ :: rest => by
    rw [GroupKey.mapIrisOfAll, GroupKey.namesOfAll, GroupKey.namesOfAll, value.names_mapIris,
      GroupKey.namesOfAll_mapIris rest]

theorem OrderKey.namesOfAll_mapIris : ∀ keys : List OrderKey,
    OrderKey.namesOfAll (OrderKey.mapIrisOfAll f keys) = OrderKey.namesOfAll keys
  | [] => rfl
  | .var _ _ :: rest => by
    rw [OrderKey.mapIrisOfAll, OrderKey.namesOfAll, OrderKey.namesOfAll,
      OrderKey.namesOfAll_mapIris rest]
  | .computed value _ :: rest => by
    rw [OrderKey.mapIrisOfAll, OrderKey.namesOfAll, OrderKey.namesOfAll, value.names_mapIris,
      OrderKey.namesOfAll_mapIris rest]

end

theorem SelectItem.names_of_mapIris (items : List SelectItem) :
    (SelectItem.mapIrisOfAll f items).map SelectItem.name = items.map SelectItem.name := by
  induction items with
  | nil => rfl
  | cons item rest ih => cases item <;> simp [SelectItem.mapIrisOfAll, SelectItem.name, ih]

mutual

@[simp] theorem Pattern.inScope_mapIris : ∀ pattern : Pattern,
    (pattern.mapIris f).inScope = pattern.inScope
  | .bgp triples _ => by
    simp only [Pattern.mapIris, Pattern.inScope, List.flatMap_map, Triple.vars_mapIris]
  | .group elements _ => Pattern.inScopeOfAll_mapIris elements
  | .optional pattern _ => pattern.inScope_mapIris
  | .minus _ _ | .filter _ _ | .bind _ _ _ | .values _ _ => rfl
  | .union left right _ => by
    rw [Pattern.mapIris, Pattern.inScope, Pattern.inScope, left.inScope_mapIris,
      right.inScope_mapIris]
  | .graph name pattern _ => by
    rw [Pattern.mapIris, Pattern.inScope, Pattern.inScope, name.vars_mapIris,
      pattern.inScope_mapIris]
  | .service _ endpoint pattern _ => by
    rw [Pattern.mapIris, Pattern.inScope, Pattern.inScope, endpoint.vars_mapIris,
      pattern.inScope_mapIris]
  | .subquery query _ => query.inScope_mapIris

theorem Select.inScope_mapIris : ∀ query : Select, (query.mapIris f).inScope = query.inScope
  | ⟨_, .all, _, pattern, _⟩ => pattern.inScope_mapIris
  | ⟨_, .items items, _, _, _⟩ => SelectItem.names_of_mapIris items

theorem Pattern.inScopeOfAll_mapIris : ∀ patterns : List Pattern,
    Pattern.inScopeOfAll (Pattern.mapIrisOfAll f patterns) = Pattern.inScopeOfAll patterns
  | [] => rfl
  | pattern :: rest => by
    rw [Pattern.mapIrisOfAll, Pattern.inScopeOfAll, Pattern.inScopeOfAll, pattern.inScope_mapIris,
      Pattern.inScopeOfAll_mapIris rest]

end

/-- The variables of a star stay in their order. -/
@[simp] theorem starVariables_mapIris (pattern : Option Pattern) (values : Option InlineData) :
    starVariables (pattern.map (Pattern.mapIris f)) (values.map (InlineData.mapIris f))
      = starVariables pattern values := by
  cases pattern <;> cases values <;> simp [starVariables, InlineData.mapIris]

mutual

theorem Pattern.triples_mapIris : ∀ pattern : Pattern,
    (pattern.mapIris f).triples = pattern.triples.map (Triple.mapIris f)
  | .bgp _ _ => rfl
  | .group elements _ => Pattern.triplesOfElements_mapIris elements
  | .optional _ _ | .minus _ _ | .union _ _ _ | .filter _ _ | .bind _ _ _ | .values _ _
  | .graph _ _ _ | .service _ _ _ _ | .subquery _ _ => rfl

theorem Pattern.triplesOfElements_mapIris : ∀ elements : List Pattern,
    Pattern.triples.ofElements (Pattern.mapIrisOfAll f elements)
      = (Pattern.triples.ofElements elements).map (Triple.mapIris f)
  | [] => rfl
  | element :: rest => by
    rw [Pattern.mapIrisOfAll, Pattern.triples.ofElements, Pattern.triples.ofElements,
      List.map_append, element.triples_mapIris, Pattern.triplesOfElements_mapIris rest]

end

theorem QuadBlock.names_mapIris (block : QuadBlock) : (block.mapIris f).names = block.names := by
  simp only [QuadBlock.mapIris, QuadBlock.names]
  rw [Names.optional_map VarOrIri.names_mapIris, Names.all_map Triple.names_mapIris]

theorem Query.names_mapIris (query : Query) : (query.mapIris f).names = query.names := by
  cases query with
  | select query => exact query.names_mapIris
  | construct query =>
    simp only [Query.mapIris, Query.names, Construct.mapIris, Construct.names,
      Pattern.names_mapIris, Modifiers.names_mapIris]
    rw [Names.optional_map (Names.all_map Triple.names_mapIris)]
  | ask query =>
    simp only [Query.mapIris, Query.names, Ask.mapIris, Ask.names, Pattern.names_mapIris,
      Modifiers.names_mapIris]
  | describe query =>
    obtain ⟨target, dataset, pattern, modifiers⟩ := query
    simp only [Query.mapIris, Query.names, Describe.mapIris, Describe.names,
      Modifiers.names_mapIris]
    rw [Names.optional_map Pattern.names_mapIris]
    cases target with
    | all => rfl
    | resources resources =>
      simp only [DescribeTarget.mapIris, Names.all_map VarOrIri.names_mapIris]

theorem Update.names_mapIris (update : Update) : (update.mapIris f).names = update.names := by
  cases update with
  | insertData quads | deleteData quads | deleteWhere quads =>
    exact Names.all_map QuadBlock.names_mapIris quads
  | modify update =>
    simp only [Update.mapIris, Update.names, Modify.mapIris, Pattern.names_mapIris]
    rw [Names.optional_map (Names.all_map QuadBlock.names_mapIris),
      Names.optional_map (Names.all_map QuadBlock.names_mapIris)]
  | _ => rfl

end QueryAlgebra.Surface
