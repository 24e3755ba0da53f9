import QueryAlgebra.Lowering.Request

/-! # Demands on what is written

`Request.Meets` says that a request meets demands: on every IRI in it, on every call of a built-in
function, on updates of triples, and on where patterns, paths and negated sets stand, unless it may
be loose in that. Every request meets no demands: `Request.meets_nothing`.
-/

namespace QueryAlgebra.Surface

/-- What is demanded of a request. A loose one may have filters, bindings, optional and removed
patterns outside groups, empty negated sets, and paths in templates. -/
structure Demands where
  iri : Iri → Prop
  call : Builtin → Nat → Prop
  updates : Prop
  loose : Prop

/-- No demands. -/
def Demands.nothing : Demands := ⟨fun _ => True, fun _ _ => True, True, True⟩

section

variable (demands : Demands)

/-- The name of a graph, service or predicate meets demands. -/
def VarOrIri.Meets : VarOrIri → Prop
  | .var _ => True
  | .iri name => demands.iri name

/-- A literal meets demands. -/
def Literal.Meets : Literal → Prop
  | .typed _ datatype => demands.iri datatype
  | _ => True

/-- A term meets demands. -/
def Term.Meets : Term → Prop
  | .iri name => demands.iri name
  | .literal text => text.Meets demands
  | .quoted subject predicate object =>
    subject.Meets ∧ predicate.Meets demands ∧ object.Meets
  | _ => True

/-- Inline data meets demands. -/
def InlineData.Meets (data : InlineData) : Prop :=
  ∀ cells ∈ data.rows, ∀ term, some term ∈ cells → term.Meets demands

/-- A path meets demands. -/
def Path.Meets : Path → Prop
  | .iri name => demands.iri name
  | .type _ => True
  | .inverse path _ => path.Meets
  | .sequence left right _ => left.Meets ∧ right.Meets
  | .alternative left right _ => left.Meets ∧ right.Meets
  | .zeroOrMore path _ => path.Meets
  | .oneOrMore path _ => path.Meets
  | .zeroOrOne path _ => path.Meets
  | .negated members _ =>
    (members = [] → demands.loose) ∧ ∀ member ∈ members, demands.iri member.iri
  | .group path _ => path.Meets

/-- A predicate meets demands, in a template or elsewhere. -/
def Verb.Meets (template : Bool) : Verb → Prop
  | .simple name => name.Meets demands
  | .path route => (template = true → demands.loose) ∧ route.Meets demands

mutual

/-- A subject or object meets demands. -/
def GraphNode.Meets (template : Bool) : GraphNode → Prop
  | .term value => value.Meets demands
  | .collection items => GraphNode.itemsMeet template items
  | .properties entries => GraphNode.entriesMeet template entries

/-- The items of a collection meet demands. -/
def GraphNode.itemsMeet (template : Bool) : List GraphNode → Prop
  | [] => True
  | item :: rest => item.Meets template ∧ GraphNode.itemsMeet template rest

/-- A list of properties meets demands. -/
def GraphNode.entriesMeet (template : Bool) : List (Verb × GraphNode) → Prop
  | [] => True
  | (verb, object) :: rest =>
    verb.Meets demands template ∧ object.Meets template ∧ GraphNode.entriesMeet template rest

end

/-- A triple meets demands. -/
structure Triple.Meets (template : Bool) (triple : Triple) : Prop where
  subject : triple.subject.Meets demands template
  verb : triple.verb.Meets demands template
  object : triple.object.Meets demands template

/-- A dataset meets demands. -/
def Dataset.Meets (dataset : Dataset) : Prop :=
  ∀ graph ∈ dataset.default ++ dataset.named, demands.iri graph

mutual

/-- An expression meets demands. -/
def Expression.Meets : Expression → Prop
  | .var _ => True
  | .iri name => demands.iri name
  | .literal text => text.Meets demands
  | .binary _ left right => left.Meets ∧ right.Meets
  | .unary _ operand => operand.Meets
  | .call (.builtin function) arguments _ =>
    demands.call function arguments.length ∧ Expression.allMeet arguments
  | .call (.named function) arguments _ => demands.iri function ∧ Expression.allMeet arguments
  | .ifElse condition positive negative => condition.Meets ∧ positive.Meets ∧ negative.Meets
  | .coalesce arguments => Expression.allMeet arguments
  | .among value choices _ => value.Meets ∧ Expression.allMeet choices
  | .existence _ pattern => pattern.Meets false
  | .aggregate _ none _ _ => True
  | .aggregate _ (some argument) _ _ => argument.Meets
  | .bracketed inner => inner.Meets

/-- All expressions meet demands. -/
def Expression.allMeet : List Expression → Prop
  | [] => True
  | expression :: rest => expression.Meets ∧ Expression.allMeet rest

/-- A pattern meets demands, as an element of a group if `element` is true. -/
def Pattern.Meets (element : Bool) : Pattern → Prop
  | .bgp triples _ => ∀ triple ∈ triples, triple.Meets demands false
  | .group elements _ => Pattern.allMeet elements
  | .optional pattern _ => (element = false → demands.loose) ∧ pattern.Meets false
  | .minus pattern _ => (element = false → demands.loose) ∧ pattern.Meets false
  | .union left right _ => left.Meets false ∧ right.Meets false
  | .filter condition _ => (element = false → demands.loose) ∧ condition.Meets
  | .bind value _ _ => (element = false → demands.loose) ∧ value.Meets
  | .values data _ => data.Meets demands
  | .graph name pattern _ => name.Meets demands ∧ pattern.Meets false
  | .service _ endpoint pattern _ => endpoint.Meets demands ∧ pattern.Meets false
  | .subquery query _ => query.Meets

/-- The elements of a group meet demands. -/
def Pattern.allMeet : List Pattern → Prop
  | [] => True
  | pattern :: rest => pattern.Meets true ∧ Pattern.allMeet rest

/-- A SELECT query meets demands. -/
def Select.Meets : Select → Prop
  | ⟨_, projection, dataset, pattern, modifiers⟩ =>
    projection.Meets ∧ (∀ graphs ∈ dataset, graphs.Meets demands) ∧ pattern.Meets false
      ∧ modifiers.Meets

/-- A projection meets demands. -/
def Projection.Meets : Projection → Prop
  | .all => True
  | .items items => SelectItem.allMeet items

/-- The items of a projection meet demands. -/
def SelectItem.allMeet : List SelectItem → Prop
  | [] => True
  | .var _ :: rest => SelectItem.allMeet rest
  | .computed value _ :: rest => value.Meets ∧ SelectItem.allMeet rest

/-- The clauses after a pattern meet demands. -/
def Modifiers.Meets : Modifiers → Prop
  | ⟨none, having, orderBy, _, _, values⟩ =>
    Expression.allMeet having ∧ OrderKey.allMeet orderBy ∧ ∀ data ∈ values, data.Meets demands
  | ⟨some keys, having, orderBy, _, _, values⟩ =>
    GroupKey.allMeet keys ∧ Expression.allMeet having ∧ OrderKey.allMeet orderBy
      ∧ ∀ data ∈ values, data.Meets demands

/-- The keys of a GROUP BY clause meet demands. -/
def GroupKey.allMeet : List GroupKey → Prop
  | [] => True
  | .var _ :: rest => GroupKey.allMeet rest
  | .computed value _ :: rest => value.Meets ∧ GroupKey.allMeet rest

/-- The keys of an ORDER BY clause meet demands. -/
def OrderKey.allMeet : List OrderKey → Prop
  | [] => True
  | .var _ _ :: rest => OrderKey.allMeet rest
  | .computed value _ :: rest => value.Meets ∧ OrderKey.allMeet rest

end

/-- A CONSTRUCT query meets demands. -/
structure Construct.Meets (query : Construct) : Prop where
  template : ∀ triple ∈ query.template.getD query.pattern.triples, triple.Meets demands true
  dataset : ∀ graphs ∈ query.dataset, graphs.Meets demands
  pattern : query.pattern.Meets demands false
  modifiers : query.modifiers.Meets demands

/-- An ASK query meets demands. -/
structure Ask.Meets (query : Ask) : Prop where
  dataset : ∀ graphs ∈ query.dataset, graphs.Meets demands
  pattern : query.pattern.Meets demands false
  modifiers : query.modifiers.Meets demands

/-- What a DESCRIBE query is about meets demands. -/
def DescribeTarget.Meets : DescribeTarget → Prop
  | .all => True
  | .resources names => ∀ name ∈ names, name.Meets demands

/-- A DESCRIBE query meets demands. -/
structure Describe.Meets (query : Describe) : Prop where
  target : query.target.Meets demands
  dataset : ∀ graphs ∈ query.dataset, graphs.Meets demands
  pattern : ∀ pattern ∈ query.pattern, pattern.Meets demands false
  modifiers : query.modifiers.Meets demands

/-- A query meets demands. -/
def Query.Meets : Query → Prop
  | .select query => query.Meets demands
  | .construct query => query.Meets demands
  | .ask query => query.Meets demands
  | .describe query => query.Meets demands

/-- A block of an update template meets demands. -/
structure QuadBlock.Meets (block : QuadBlock) : Prop where
  graph : ∀ name ∈ block.graph, name.Meets demands
  triples : ∀ triple ∈ block.triples, triple.Meets demands true

/-- The graphs to be emptied meet demands. -/
def ClearTarget.Meets : ClearTarget → Prop
  | .graph name => demands.iri name
  | _ => True

/-- One graph meets demands. -/
def GraphOrDefault.Meets : GraphOrDefault → Prop
  | .default => True
  | .graph name => demands.iri name

/-- An update of triples by a pattern meets demands. -/
structure Modify.Meets (update : Modify) : Prop where
  updates : demands.updates
  withGraph : ∀ graph ∈ update.withGraph, demands.iri graph
  dataset : ∀ graphs ∈ update.dataset, graphs.Meets demands
  delete : ∀ block ∈ update.delete.getD [], block.Meets demands
  insert : ∀ block ∈ update.insert.getD [], block.Meets demands
  pattern : update.pattern.Meets demands false

/-- An update meets demands. -/
def Update.Meets : Update → Prop
  | .insertData quads _ => demands.updates ∧ ∀ block ∈ quads, block.Meets demands
  | .deleteData quads _ => demands.updates ∧ ∀ block ∈ quads, block.Meets demands
  | .deleteWhere quads _ => demands.updates ∧ ∀ block ∈ quads, block.Meets demands
  | .modify update => update.Meets demands
  | .load _ source destination => demands.iri source ∧ ∀ graph ∈ destination, demands.iri graph
  | .clear _ target => target.Meets demands
  | .drop _ target => target.Meets demands
  | .create _ graph => demands.iri graph
  | .transfer _ _ source destination => source.Meets demands ∧ destination.Meets demands

/-- Declarations, which are for loose requests alone. -/
def Prologue.Meets (prologue : Prologue) : Prop := prologue = .none ∨ demands.loose

/-- What a request asks for meets demands. -/
def Body.Meets : Body → Prop
  | .query asked => asked.Meets demands
  | .update units =>
    ∀ unit ∈ units, unit.prologue.Meets demands ∧ unit.update.Meets demands

/-- A request meets demands. -/
structure Request.Meets (request : Request) : Prop where
  prologue : request.prologue.Meets demands
  body : request.body.Meets demands

end

section

variable {demands : Demands}

@[simp] theorem GraphNode.itemsMeet_iff {template : Bool} {items : List GraphNode} :
    GraphNode.itemsMeet demands template items ↔ ∀ item ∈ items, item.Meets demands template := by
  induction items with
  | nil => simp [itemsMeet]
  | cons item rest ih => simp [itemsMeet, ih]

@[simp] theorem GraphNode.entriesMeet_iff {template : Bool} {entries : List (Verb × GraphNode)} :
    GraphNode.entriesMeet demands template entries
      ↔ ∀ entry ∈ entries, entry.1.Meets demands template ∧ entry.2.Meets demands template := by
  induction entries with
  | nil => simp [entriesMeet]
  | cons entry rest ih => simp [entriesMeet, ih, and_assoc]

@[simp] theorem Expression.allMeet_iff {expressions : List Expression} :
    Expression.allMeet demands expressions
      ↔ ∀ expression ∈ expressions, expression.Meets demands := by
  induction expressions with
  | nil => simp [allMeet]
  | cons expression rest ih => simp [allMeet, ih]

@[simp] theorem Pattern.allMeet_iff {patterns : List Pattern} :
    Pattern.allMeet demands patterns ↔ ∀ pattern ∈ patterns, pattern.Meets demands true := by
  induction patterns with
  | nil => simp [allMeet]
  | cons pattern rest ih => simp [allMeet, ih]

end

/-! ### Nothing demanded -/

private theorem Literal.meets_nothing (text : Literal) : text.Meets .nothing := by
  cases text <;> trivial

private theorem VarOrIri.meets_nothing (name : VarOrIri) : name.Meets .nothing := by
  cases name <;> trivial

private theorem Term.meets_nothing (term : Term) : term.Meets .nothing := by
  induction term with
  | literal text => exact text.meets_nothing
  | quoted subject predicate object ihSubject ihObject =>
    exact ⟨ihSubject, predicate.meets_nothing, ihObject⟩
  | _ => trivial

theorem InlineData.meets_nothing (data : InlineData) : data.Meets .nothing :=
  fun _ _ term _ => term.meets_nothing

private theorem Path.meets_nothing (path : Path) : path.Meets .nothing := by
  induction path with
  | iri | type => trivial
  | sequence _ _ _ ihLeft ihRight | alternative _ _ _ ihLeft ihRight => exact ⟨ihLeft, ihRight⟩
  | negated => exact ⟨fun _ => trivial, fun _ _ => trivial⟩
  | inverse _ _ ih | zeroOrMore _ _ ih | oneOrMore _ _ ih | zeroOrOne _ _ ih | group _ _ ih =>
    exact ih

private theorem Verb.meets_nothing (template : Bool) (verb : Verb) :
    verb.Meets .nothing template := by
  cases verb with
  | simple name => exact name.meets_nothing
  | path route => exact ⟨fun _ => trivial, route.meets_nothing⟩

mutual

private theorem GraphNode.meets_nothing (template : Bool) : ∀ node : GraphNode,
    node.Meets .nothing template
  | .term value => value.meets_nothing
  | .collection items => GraphNode.itemsMeet_nothing template items
  | .properties entries => GraphNode.entriesMeet_nothing template entries

private theorem GraphNode.itemsMeet_nothing (template : Bool) : ∀ items : List GraphNode,
    GraphNode.itemsMeet .nothing template items
  | [] => trivial
  | item :: rest =>
    ⟨GraphNode.meets_nothing template item, GraphNode.itemsMeet_nothing template rest⟩

private theorem GraphNode.entriesMeet_nothing (template : Bool) :
    ∀ entries : List (Verb × GraphNode), GraphNode.entriesMeet .nothing template entries
  | [] => trivial
  | (verb, object) :: rest =>
    ⟨verb.meets_nothing template, GraphNode.meets_nothing template object,
      GraphNode.entriesMeet_nothing template rest⟩

end

theorem Triple.meets_nothing (template : Bool) (triple : Triple) :
    triple.Meets .nothing template :=
  ⟨triple.subject.meets_nothing template, triple.verb.meets_nothing template,
    triple.object.meets_nothing template⟩

private theorem Dataset.meets_nothing (dataset : Dataset) : dataset.Meets .nothing :=
  fun _ _ => trivial

mutual

private theorem Expression.meets_nothing : ∀ expression : Expression, expression.Meets .nothing
  | .var _ => trivial
  | .iri _ => trivial
  | .literal text => text.meets_nothing
  | .binary _ left right => ⟨Expression.meets_nothing left, Expression.meets_nothing right⟩
  | .unary _ operand => Expression.meets_nothing operand
  | .call (.builtin _) arguments _ => ⟨trivial, Expression.allMeet_nothing arguments⟩
  | .call (.named _) arguments _ => ⟨trivial, Expression.allMeet_nothing arguments⟩
  | .ifElse condition positive negative =>
    ⟨Expression.meets_nothing condition, Expression.meets_nothing positive,
      Expression.meets_nothing negative⟩
  | .coalesce arguments => Expression.allMeet_nothing arguments
  | .among value choices _ => ⟨Expression.meets_nothing value, Expression.allMeet_nothing choices⟩
  | .existence _ pattern => Pattern.meets_nothing false pattern
  | .aggregate _ none _ _ => trivial
  | .aggregate _ (some argument) _ _ => Expression.meets_nothing argument
  | .bracketed inner => Expression.meets_nothing inner

private theorem Expression.allMeet_nothing : ∀ expressions : List Expression,
    Expression.allMeet .nothing expressions
  | [] => trivial
  | expression :: rest => ⟨Expression.meets_nothing expression, Expression.allMeet_nothing rest⟩

theorem Pattern.meets_nothing (element : Bool) : ∀ pattern : Pattern,
    pattern.Meets .nothing element
  | .bgp _ _ => fun triple _ => triple.meets_nothing false
  | .group elements _ => Pattern.allMeet_nothing elements
  | .optional pattern _ => ⟨fun _ => trivial, Pattern.meets_nothing false pattern⟩
  | .minus pattern _ => ⟨fun _ => trivial, Pattern.meets_nothing false pattern⟩
  | .union left right _ => ⟨Pattern.meets_nothing false left, Pattern.meets_nothing false right⟩
  | .filter condition _ => ⟨fun _ => trivial, Expression.meets_nothing condition⟩
  | .bind value _ _ => ⟨fun _ => trivial, Expression.meets_nothing value⟩
  | .values data _ => data.meets_nothing
  | .graph name pattern _ => ⟨name.meets_nothing, Pattern.meets_nothing false pattern⟩
  | .service _ endpoint pattern _ => ⟨endpoint.meets_nothing, Pattern.meets_nothing false pattern⟩
  | .subquery query _ => Select.meets_nothing query

private theorem Pattern.allMeet_nothing : ∀ patterns : List Pattern,
    Pattern.allMeet .nothing patterns
  | [] => trivial
  | pattern :: rest => ⟨Pattern.meets_nothing true pattern, Pattern.allMeet_nothing rest⟩

theorem Select.meets_nothing : ∀ query : Select, query.Meets .nothing
  | ⟨_, projection, _, pattern, modifiers⟩ =>
    ⟨Projection.meets_nothing projection, fun graphs _ => graphs.meets_nothing,
      Pattern.meets_nothing false pattern, Modifiers.meets_nothing modifiers⟩

private theorem Projection.meets_nothing : ∀ projection : Projection, projection.Meets .nothing
  | .all => trivial
  | .items items => SelectItem.allMeet_nothing items

private theorem SelectItem.allMeet_nothing : ∀ items : List SelectItem,
    SelectItem.allMeet .nothing items
  | [] => trivial
  | .var _ :: rest => SelectItem.allMeet_nothing rest
  | .computed value _ :: rest => ⟨Expression.meets_nothing value, SelectItem.allMeet_nothing rest⟩

private theorem Modifiers.meets_nothing : ∀ modifiers : Modifiers, modifiers.Meets .nothing
  | ⟨none, having, orderBy, _, _, _⟩ =>
    ⟨Expression.allMeet_nothing having, OrderKey.allMeet_nothing orderBy,
      fun data _ => data.meets_nothing⟩
  | ⟨some keys, having, orderBy, _, _, _⟩ =>
    ⟨GroupKey.allMeet_nothing keys, Expression.allMeet_nothing having,
      OrderKey.allMeet_nothing orderBy, fun data _ => data.meets_nothing⟩

private theorem GroupKey.allMeet_nothing : ∀ keys : List GroupKey, GroupKey.allMeet .nothing keys
  | [] => trivial
  | .var _ :: rest => GroupKey.allMeet_nothing rest
  | .computed value _ :: rest => ⟨Expression.meets_nothing value, GroupKey.allMeet_nothing rest⟩

private theorem OrderKey.allMeet_nothing : ∀ keys : List OrderKey, OrderKey.allMeet .nothing keys
  | [] => trivial
  | .var _ _ :: rest => OrderKey.allMeet_nothing rest
  | .computed value _ :: rest => ⟨Expression.meets_nothing value, OrderKey.allMeet_nothing rest⟩

end

private theorem Query.meets_nothing (query : Query) : query.Meets .nothing := by
  cases query with
  | select query => exact query.meets_nothing
  | construct query =>
    exact ⟨fun triple _ => triple.meets_nothing true, fun graphs _ => graphs.meets_nothing,
      query.pattern.meets_nothing false, query.modifiers.meets_nothing⟩
  | ask query =>
    exact ⟨fun graphs _ => graphs.meets_nothing, query.pattern.meets_nothing false,
      query.modifiers.meets_nothing⟩
  | describe query =>
    refine ⟨?_, fun graphs _ => graphs.meets_nothing, fun pattern _ => pattern.meets_nothing false,
      query.modifiers.meets_nothing⟩
    cases query.target with
    | all => trivial
    | resources => exact fun resource _ => resource.meets_nothing

private theorem QuadBlock.meets_nothing (block : QuadBlock) : block.Meets .nothing :=
  ⟨fun name _ => name.meets_nothing, fun triple _ => triple.meets_nothing true⟩

private theorem Update.meets_nothing (update : Update) : update.Meets .nothing := by
  cases update with
  | insertData | deleteData | deleteWhere => exact ⟨trivial, fun block _ => block.meets_nothing⟩
  | modify update =>
    exact ⟨trivial, fun _ _ => trivial, fun graphs _ => graphs.meets_nothing,
      fun block _ => block.meets_nothing, fun block _ => block.meets_nothing,
      update.pattern.meets_nothing false⟩
  | load => exact ⟨trivial, fun _ _ => trivial⟩
  | clear _ target | drop _ target => cases target <;> trivial
  | create => trivial
  | transfer _ _ source destination =>
    cases source <;> cases destination <;> exact ⟨trivial, trivial⟩

/-- Every request meets no demands. -/
theorem Request.meets_nothing (request : Request) : request.Meets .nothing := by
  refine ⟨.inr trivial, ?_⟩
  cases request.body with
  | query asked => exact asked.meets_nothing
  | update => exact fun unit _ => ⟨.inr trivial, unit.update.meets_nothing⟩

end QueryAlgebra.Surface
