import QueryAlgebra.Json
import QueryAlgebra.Surface.Request

/-! # The JSON form of a request

Every part with variants becomes an object with a tag; members that may be absent are left out.
Ranges of text are not written.
-/

namespace QueryAlgebra.Surface

/-- An object with a tag. -/
def variant (tag : String) (members : List (String × Json)) : Json :=
  .object (("t", .string tag) :: members)

/-- The object of a variable. -/
def variableToJson (name : Variable) : Json := variant "var" [("name", .string name.name)]

/-- The objects of variables. -/
def variablesToJson (names : List Variable) : Json := .array (names.map variableToJson)

/-- The object of an IRI. -/
def Iri.toJson (iri : Iri) : Json :=
  match iri.text with
  | .full whole => variant "iri" [("iri", .string whole)]
  | .abbreviated label rest =>
    variant "pname" [("prefix", .string label), ("local", .string rest)]

/-- The object of a variable or IRI. -/
def VarOrIri.toJson : VarOrIri → Json
  | .var name => variableToJson name
  | .iri name => name.toJson

/-- The bits of a number as sixteen hexadecimal digits. -/
def bitsText (number : Binary64) : String :=
  let digits := Nat.toDigits 16 number.bits.toNat
  String.ofList (List.replicate (16 - digits.length) '0' ++ digits)

/-- The object of a literal. -/
def Literal.toJson : Literal → Json
  | .string value => variant "string" [("value", .string value)]
  | .tagged value language => variant "lang" [("value", .string value), ("lang", .string language)]
  | .typed value datatype =>
    variant "typed" [("value", .string value), ("datatype", datatype.toJson)]
  | .integer value => variant "integer" [("value", .number value)]
  | .decimal value => variant "decimal" [("value", .string value)]
  | .double value => variant "double" [("bits", .string (bitsText value))]
  | .boolean value => variant "boolean" [("value", .bool value)]

/-- The object of a term. -/
def Term.toJson : Term → Json
  | .var name => variableToJson name
  | .iri name => name.toJson
  | .literal text => text.toJson
  | .blank label => variant "blank" [("label", .string label)]
  | .anonymous => variant "anon" []
  | .quoted subject predicate object =>
    variant "quoted" [("s", subject.toJson), ("p", predicate.toJson), ("o", object.toJson)]

/-- The variables and rows of inline data; an undefined cell is null. -/
def InlineData.members (data : InlineData) : List (String × Json) :=
  [("vars", variablesToJson data.vars),
    ("rows", .array (data.rows.map fun cells =>
      .array (cells.map fun cell => (cell.map Term.toJson).getD .null)))]

/-- The object of a member of a negated set. -/
def NegatedMember.toJson : NegatedMember → Json
  | .forward name => variant "forward" [("iri", name.toJson)]
  | .inverse name => variant "inverse" [("iri", name.toJson)]
  | .forwardType _ => variant "forwardA" []
  | .inverseType _ => variant "inverseA" []

/-- The object of a path. -/
def Path.toJson : Path → Json
  | .iri name => name.toJson
  | .type _ => variant "a" []
  | .inverse path _ => variant "inverse" [("path", path.toJson)]
  | .zeroOrMore path _ => variant "zeroOrMore" [("path", path.toJson)]
  | .oneOrMore path _ => variant "oneOrMore" [("path", path.toJson)]
  | .zeroOrOne path _ => variant "zeroOrOne" [("path", path.toJson)]
  | .group path _ => variant "group" [("path", path.toJson)]
  | .sequence left right _ => variant "sequence" [("left", left.toJson), ("right", right.toJson)]
  | .alternative left right _ =>
    variant "alternative" [("left", left.toJson), ("right", right.toJson)]
  | .negated members _ =>
    variant "negated" [("members", .array (members.map NegatedMember.toJson))]

/-- The object of a predicate. -/
def Verb.toJson : Verb → Json
  | .simple verb => verb.toJson
  | .path route => variant "path" [("path", route.toJson)]

mutual

/-- The object of a subject or object. -/
def GraphNode.toJson : GraphNode → Json
  | .term plain => plain.toJson
  | .collection items => variant "collection" [("items", .array (GraphNode.allToJson items))]
  | .properties entries =>
    variant "properties" [("entries", .array (GraphNode.entriesToJson entries))]

/-- The objects of the items of a collection. -/
def GraphNode.allToJson : List GraphNode → List Json
  | [] => []
  | item :: rest => item.toJson :: GraphNode.allToJson rest

/-- The objects of the entries of a list of properties. -/
def GraphNode.entriesToJson : List (Verb × GraphNode) → List Json
  | [] => []
  | (verb, object) :: rest =>
    .object [("verb", verb.toJson), ("object", object.toJson)] :: GraphNode.entriesToJson rest

end

/-- The object of a triple. -/
def Triple.toJson (triple : Triple) : Json :=
  .object [("s", triple.subject.toJson), ("p", triple.verb.toJson), ("o", triple.object.toJson)]

/-- The objects of triples. -/
def triplesToJson (triples : List Triple) : Json := .array (triples.map Triple.toJson)

/-- The object of a dataset. -/
def Dataset.toJson (dataset : Dataset) : Json :=
  .object [("default", .array (dataset.default.map Iri.toJson)),
    ("named", .array (dataset.named.map Iri.toJson))]

/-- The text of a direction. -/
def Direction.toJson : Direction → Json
  | .ascending => .string "asc"
  | .descending => .string "desc"

/-- The member that tells what is done about repeated solutions. -/
def Duplicates.members : Duplicates → List (String × Json)
  | .keep => []
  | .distinct => [("modifier", .string "distinct")]
  | .reduced => [("modifier", .string "reduced")]

/-- The member of a clause with items, which is absent if it has none. -/
def clauseMember (name : String) : List Json → List (String × Json)
  | [] => []
  | items => [(name, .array items)]

mutual

/-- The object of an expression. -/
def Expression.toJson : Expression → Json
  | .var name => variableToJson name
  | .iri name => name.toJson
  | .literal text => text.toJson
  | .binary op left right =>
    variant "binary" [("op", .string op.name), ("left", left.toJson), ("right", right.toJson)]
  | .unary op operand => variant "unary" [("op", .string op.name), ("operand", operand.toJson)]
  | .call (.builtin function) arguments distinct =>
    variant "builtin" [("name", .string function.name),
      ("args", .array (Expression.allToJson arguments)), ("distinct", .bool distinct)]
  | .call (.named function) arguments distinct =>
    variant "function" [("iri", function.toJson),
      ("args", .array (Expression.allToJson arguments)), ("distinct", .bool distinct)]
  | .ifElse condition positive negative =>
    variant "if" [("cond", condition.toJson), ("then", positive.toJson), ("else", negative.toJson)]
  | .coalesce arguments => variant "coalesce" [("args", .array (Expression.allToJson arguments))]
  | .among value choices negated =>
    variant "in" [("expr", value.toJson), ("list", .array (Expression.allToJson choices)),
      ("negated", .bool negated)]
  | .existence negated pattern =>
    variant (if negated then "notExists" else "exists") [("pattern", pattern.toJson)]
  | .aggregate function argument distinct separator =>
    variant "aggregate" <|
      ("fn", .string function.name) :: ("distinct", .bool distinct)
        :: Expression.argumentMember argument
        ++ Json.optionalMember "separator" (separator.map .string)
  | .bracketed inner => variant "bracketed" [("inner", inner.toJson)]

/-- The argument of an aggregate, absent if it is about whole solutions. -/
def Expression.argumentMember : Option Expression → List (String × Json)
  | none => []
  | some argument => [("expr", argument.toJson)]

/-- The objects of expressions. -/
def Expression.allToJson : List Expression → List Json
  | [] => []
  | expression :: rest => expression.toJson :: Expression.allToJson rest

/-- The object of a pattern. -/
def Pattern.toJson : Pattern → Json
  | .bgp triples _ => variant "bgp" [("triples", triplesToJson triples)]
  | .group elements _ => variant "group" [("patterns", .array (Pattern.allToJson elements))]
  | .optional pattern _ => variant "optional" [("pattern", pattern.toJson)]
  | .minus pattern _ => variant "minus" [("pattern", pattern.toJson)]
  | .union left right _ => variant "union" [("left", left.toJson), ("right", right.toJson)]
  | .filter condition _ => variant "filter" [("expr", condition.toJson)]
  | .bind value name _ =>
    variant "bind" [("expr", value.toJson), ("var", variableToJson name)]
  | .values data _ => variant "values" data.members
  | .graph name pattern _ =>
    variant "graph" [("name", name.toJson), ("pattern", pattern.toJson)]
  | .service silent endpoint pattern _ =>
    variant "service" [("silent", .bool silent), ("endpoint", endpoint.toJson),
      ("pattern", pattern.toJson)]
  | .subquery query _ => variant "subselect" [("query", query.toJson)]

/-- The objects of patterns. -/
def Pattern.allToJson : List Pattern → List Json
  | [] => []
  | pattern :: rest => pattern.toJson :: Pattern.allToJson rest

/-- The object of a SELECT query. -/
def Select.toJson : Select → Json
  | ⟨duplicates, projection, dataset, pattern, modifiers⟩ =>
    variant "select" <|
      duplicates.members ++ Json.optionalMember "dataset" (dataset.map Dataset.toJson)
        ++ [("vars", projection.toJson), ("where", pattern.toJson), ("modifiers", modifiers.toJson)]

/-- What a SELECT query shows. -/
def Projection.toJson : Projection → Json
  | .all => .string "*"
  | .items shown => .array (SelectItem.allToJson shown)

/-- The objects of what is shown. -/
def SelectItem.allToJson : List SelectItem → List Json
  | [] => []
  | .var name :: rest => variableToJson name :: SelectItem.allToJson rest
  | .computed value name :: rest =>
    variant "as" [("expr", value.toJson), ("var", variableToJson name)] :: SelectItem.allToJson rest

/-- The object of the clauses after the pattern. -/
def Modifiers.toJson : Modifiers → Json
  | ⟨groupBy, having, orderBy, limit, offset, values⟩ =>
    .object <|
      GroupKey.clause groupBy ++ clauseMember "having" (Expression.allToJson having)
        ++ clauseMember "orderBy" (OrderKey.allToJson orderBy)
        ++ Json.optionalMember "limit" (limit.map fun count => .number count)
        ++ Json.optionalMember "offset" (offset.map fun count => .number count)
        ++ Json.optionalMember "values" (values.map fun data => .object data.members)

/-- The GROUP BY clause, which may be present without keys. -/
def GroupKey.clause : Option (List GroupKey) → List (String × Json)
  | none => []
  | some keys => [("groupBy", .array (GroupKey.allToJson keys))]

/-- The objects of the keys of groups. -/
def GroupKey.allToJson : List GroupKey → List Json
  | [] => []
  | .var name :: rest => variableToJson name :: GroupKey.allToJson rest
  | .computed value name :: rest =>
    variant "expr" (("expr", value.toJson) :: Json.optionalMember "as" (name.map variableToJson))
      :: GroupKey.allToJson rest

/-- The objects of the keys of an order. -/
def OrderKey.allToJson : List OrderKey → List Json
  | [] => []
  | .var name direction :: rest =>
    .object [("var", variableToJson name), ("dir", direction.toJson)] :: OrderKey.allToJson rest
  | .computed value direction :: rest =>
    .object [("expr", value.toJson), ("dir", direction.toJson)] :: OrderKey.allToJson rest

end

/-- The text or list of what a DESCRIBE query is about. -/
def DescribeTarget.toJson : DescribeTarget → Json
  | .all => .string "*"
  | .resources names => .array (names.map VarOrIri.toJson)

/-- The object of a query. -/
def Query.toJson : Query → Json
  | .select query => query.toJson
  | .construct query =>
    variant "construct" <|
      Json.optionalMember "template" (query.template.map triplesToJson)
        ++ Json.optionalMember "dataset" (query.dataset.map Dataset.toJson)
        ++ [("where", query.pattern.toJson), ("modifiers", query.modifiers.toJson)]
  | .ask query =>
    variant "ask" <|
      Json.optionalMember "dataset" (query.dataset.map Dataset.toJson)
        ++ [("where", query.pattern.toJson), ("modifiers", query.modifiers.toJson)]
  | .describe query =>
    variant "describe" <|
      ("targets", query.target.toJson)
        :: Json.optionalMember "dataset" (query.dataset.map Dataset.toJson)
        ++ Json.optionalMember "where" (query.pattern.map Pattern.toJson)
        ++ [("modifiers", query.modifiers.toJson)]

/-- The object of declarations. -/
def Prologue.toJson (prologue : Prologue) : Json :=
  .object <|
    Json.optionalMember "base" (prologue.base.map fun base => .object [("iri", .string base.iri)])
      ++ [("prefixes", .array (prologue.prefixes.map fun declaration =>
        .object [("prefix", .string declaration.label), ("iri", .string declaration.iri)]))]

/-- The object of a block of triples. -/
def QuadBlock.toJson (block : QuadBlock) : Json :=
  .object <|
    Json.optionalMember "graph" (block.graph.map VarOrIri.toJson)
      ++ [("triples", triplesToJson block.triples)]

/-- The objects of the blocks of a template. -/
def quadsToJson (blocks : List QuadBlock) : Json := .array (blocks.map QuadBlock.toJson)

/-- The graphs to be emptied. -/
def ClearTarget.toJson : ClearTarget → Json
  | .default => .string "DEFAULT"
  | .named => .string "NAMED"
  | .all => .string "ALL"
  | .graph name => name.toJson

/-- One graph. -/
def GraphOrDefault.toJson : GraphOrDefault → Json
  | .default => .string "DEFAULT"
  | .graph name => name.toJson

/-- The tag of a transfer between graphs. -/
def transferTag : Transfer → String
  | .add => "add"
  | .move => "move"
  | .copy => "copy"

/-- The object of an update. -/
def Update.toJson : Update → Json
  | .insertData quads _ => variant "insertData" [("quads", quadsToJson quads)]
  | .deleteData quads _ => variant "deleteData" [("quads", quadsToJson quads)]
  | .deleteWhere quads _ => variant "deleteWhere" [("quads", quadsToJson quads)]
  | .modify update =>
    variant "modify" <|
      Json.optionalMember "with" (update.withGraph.map Iri.toJson)
        ++ Json.optionalMember "using" (update.dataset.map Dataset.toJson)
        ++ Json.optionalMember "delete" (update.delete.map quadsToJson)
        ++ Json.optionalMember "insert" (update.insert.map quadsToJson)
        ++ [("where", update.pattern.toJson)]
  | .load silent source destination =>
    variant "load" <|
      [("silent", .bool silent), ("source", source.toJson)]
        ++ Json.optionalMember "destination" (destination.map Iri.toJson)
  | .clear silent target => variant "clear" [("silent", .bool silent), ("target", target.toJson)]
  | .drop silent target => variant "drop" [("silent", .bool silent), ("target", target.toJson)]
  | .create silent graph => variant "create" [("silent", .bool silent), ("graph", graph.toJson)]
  | .transfer how silent source destination =>
    variant (transferTag how) [("silent", .bool silent), ("source", source.toJson),
      ("destination", destination.toJson)]

/-- The object of an update with its declarations. -/
def UpdateUnit.toJson (unit : UpdateUnit) : Json :=
  .object [("prologue", unit.prologue.toJson), ("operation", unit.update.toJson)]

/-- The object of what a request asks for. -/
def Body.toJson : Body → Json
  | .query asked => asked.toJson
  | .update units => variant "update" [("units", .array (units.map UpdateUnit.toJson))]

/-- The object of a request. -/
def Request.toJson (request : Request) : Json :=
  .object [("prologue", request.prologue.toJson), ("body", request.body.toJson)]

end QueryAlgebra.Surface
