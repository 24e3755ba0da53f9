import QueryAlgebra.Surface.Request

/-! # The names written in a request

Names that are made up for a request have to differ from all names written in it. The variables and
blank node labels are listed wherever they stand, in templates, expressions and subqueries too; IRIs
and property paths have none.
-/

namespace QueryAlgebra.Surface

/-- The names of variables and the labels of blank nodes. -/
structure Names where
  vars : List String
  labels : List String
deriving DecidableEq, Inhabited

namespace Names

/-- No names. -/
def none : Names := ⟨[], []⟩

/-- The names of two parts. -/
def and (first second : Names) : Names :=
  ⟨first.vars ++ second.vars, first.labels ++ second.labels⟩

instance : Append Names := ⟨and⟩

/-- The names of all parts. -/
def all {α : Type} (names : α → Names) (parts : List α) : Names :=
  parts.foldr (fun part rest => names part ++ rest) none

/-- The names of a part that may be absent. -/
def optional {α : Type} (names : α → Names) : Option α → Names
  | .none => none
  | .some part => names part

/-- The name of a variable. -/
def var (name : Variable) : Names := ⟨[name.name], []⟩

end Names

/-- The names in a term where only a variable or an IRI may stand. -/
def VarOrIri.names : VarOrIri → Names
  | .var name => .var name
  | .iri _ => .none

/-- The names in a term. -/
def Term.names : Term → Names
  | .var name => .var name
  | .iri _ => .none
  | .literal _ => .none
  | .blank label => ⟨[], [label]⟩
  | .anonymous => .none
  | .quoted subject predicate object => subject.names ++ predicate.names ++ object.names

/-- The names in inline data. -/
def InlineData.names (data : InlineData) : Names :=
  Names.all .var data.vars ++ Names.all (Names.all (Names.optional Term.names)) data.rows

/-- The names in a predicate. -/
def Verb.names : Verb → Names
  | .simple verb => verb.names
  | .path _ => .none

mutual

/-- The names in a subject or object. -/
def GraphNode.names : GraphNode → Names
  | .term value => value.names
  | .collection items => GraphNode.namesOfItems items
  | .properties entries => GraphNode.namesOfEntries entries

/-- The names in the items of a collection. -/
def GraphNode.namesOfItems : List GraphNode → Names
  | [] => .none
  | item :: rest => item.names ++ GraphNode.namesOfItems rest

/-- The names in a list of properties. -/
def GraphNode.namesOfEntries : List (Verb × GraphNode) → Names
  | [] => .none
  | (verb, object) :: rest => verb.names ++ object.names ++ GraphNode.namesOfEntries rest

end

/-- The names in a triple. -/
def Triple.names (triple : Triple) : Names :=
  triple.subject.names ++ triple.verb.names ++ triple.object.names

mutual

/-- The names in an expression. -/
def Expression.names : Expression → Names
  | .var name => .var name
  | .iri _ => .none
  | .literal _ => .none
  | .binary _ left right => left.names ++ right.names
  | .unary _ operand => operand.names
  | .call _ arguments _ => Expression.namesOfAll arguments
  | .ifElse condition positive negative => condition.names ++ positive.names ++ negative.names
  | .coalesce arguments => Expression.namesOfAll arguments
  | .among value choices _ => value.names ++ Expression.namesOfAll choices
  | .existence _ pattern => pattern.names
  | .aggregate _ none _ _ => .none
  | .aggregate _ (some argument) _ _ => argument.names
  | .bracketed inner => inner.names

/-- The names in a list of expressions. -/
def Expression.namesOfAll : List Expression → Names
  | [] => .none
  | expression :: rest => expression.names ++ Expression.namesOfAll rest

/-- The names in a pattern. -/
def Pattern.names : Pattern → Names
  | .bgp triples _ => Names.all Triple.names triples
  | .group elements _ => Pattern.namesOfAll elements
  | .optional pattern _ => pattern.names
  | .minus pattern _ => pattern.names
  | .union left right _ => left.names ++ right.names
  | .filter condition _ => condition.names
  | .bind value name _ => value.names ++ .var name
  | .values data _ => data.names
  | .graph name pattern _ => name.names ++ pattern.names
  | .service _ endpoint pattern _ => endpoint.names ++ pattern.names
  | .subquery query _ => query.names

/-- The names in the elements of a group. -/
def Pattern.namesOfAll : List Pattern → Names
  | [] => .none
  | pattern :: rest => pattern.names ++ Pattern.namesOfAll rest

/-- The names in a SELECT query. -/
def Select.names : Select → Names
  | ⟨_, projection, _, pattern, modifiers⟩ =>
    projection.names ++ pattern.names ++ modifiers.names

/-- The names in a projection. -/
def Projection.names : Projection → Names
  | .all => .none
  | .items items => SelectItem.namesOfAll items

/-- The names in the items of a projection. -/
def SelectItem.namesOfAll : List SelectItem → Names
  | [] => .none
  | .var name :: rest => .var name ++ SelectItem.namesOfAll rest
  | .computed value name :: rest => value.names ++ .var name ++ SelectItem.namesOfAll rest

/-- The names in the clauses after a pattern. -/
def Modifiers.names : Modifiers → Names
  | ⟨none, having, orderBy, _, _, values⟩ =>
    Expression.namesOfAll having ++ OrderKey.namesOfAll orderBy
      ++ Names.optional InlineData.names values
  | ⟨some keys, having, orderBy, _, _, values⟩ =>
    GroupKey.namesOfAll keys ++ Expression.namesOfAll having ++ OrderKey.namesOfAll orderBy
      ++ Names.optional InlineData.names values

/-- The names in the keys of a GROUP BY clause. -/
def GroupKey.namesOfAll : List GroupKey → Names
  | [] => .none
  | .var name :: rest => .var name ++ GroupKey.namesOfAll rest
  | .computed value name :: rest =>
    value.names ++ Names.optional .var name ++ GroupKey.namesOfAll rest

/-- The names in the keys of an ORDER BY clause. -/
def OrderKey.namesOfAll : List OrderKey → Names
  | [] => .none
  | .var name _ :: rest => .var name ++ OrderKey.namesOfAll rest
  | .computed value _ :: rest => value.names ++ OrderKey.namesOfAll rest

end

/-- The names in a CONSTRUCT query. -/
def Construct.names (query : Construct) : Names :=
  Names.optional (Names.all Triple.names) query.template ++ query.pattern.names
    ++ query.modifiers.names

/-- The names in an ASK query. -/
def Ask.names (query : Ask) : Names := query.pattern.names ++ query.modifiers.names

/-- The names in a DESCRIBE query. -/
def Describe.names (query : Describe) : Names :=
  (match query.target with
    | .all => Names.none
    | .resources resources => Names.all VarOrIri.names resources)
    ++ Names.optional Pattern.names query.pattern ++ query.modifiers.names

/-- The names in a block of an update template. -/
def QuadBlock.names (block : QuadBlock) : Names :=
  Names.optional VarOrIri.names block.graph ++ Names.all Triple.names block.triples

/-- The names in an update. -/
def Update.names : Update → Names
  | .insertData quads _ => Names.all QuadBlock.names quads
  | .deleteData quads _ => Names.all QuadBlock.names quads
  | .deleteWhere quads _ => Names.all QuadBlock.names quads
  | .modify update =>
    Names.optional (Names.all QuadBlock.names) update.delete
      ++ Names.optional (Names.all QuadBlock.names) update.insert ++ update.pattern.names
  | _ => .none

/-- The names in a query. -/
def Query.names : Query → Names
  | .select query => query.names
  | .construct query => query.names
  | .ask query => query.names
  | .describe query => query.names

/-- The names in what a request asks for. -/
def Body.names : Body → Names
  | .query asked => asked.names
  | .update units => Names.all (fun unit => unit.update.names) units

/-- The names in a request. -/
def Request.names (request : Request) : Names := request.body.names

end QueryAlgebra.Surface
