import QueryAlgebra.Operation

/-! # The JSON form of an operation

Every part becomes an object whose first member tells its kind; members that may be absent are left
out. Rows of inline data are objects keyed by their variables.
-/

namespace QueryAlgebra

/-- An IRI as a term. -/
def NamedNode.toJson (node : NamedNode) : Json :=
  .object [("termType", .string "NamedNode"), ("value", .string node.iri)]

/-- A variable as a term. -/
def Variable.toJson (name : Variable) : Json :=
  .object [("termType", .string "Variable"), ("value", .string name.name)]

/-- The members of the object of a literal. -/
def Literal.toJson (literal : Literal) : Json :=
  .object <| [("termType", .string "Literal"), ("value", .string literal.value)]
    ++ Json.optionalMember "language" (literal.language.map .string)
    ++ [("datatype", literal.datatype.toJson)]

/-- The object of a term. -/
def Term.toJson : Term → Json
  | .iri node => node.toJson
  | .blank node => .object [("termType", .string "BlankNode"), ("value", .string node.label)]
  | .literal text => text.toJson
  | .var name => name.toJson
  | .defaultGraph => .object [("termType", .string "DefaultGraph"), ("value", .string "")]
  | .quad subject predicate object graph =>
    .object [("termType", .string "Quad"), ("subject", subject.toJson),
      ("predicate", predicate.toJson), ("object", object.toJson), ("graph", graph.toJson)]

/-- The object of a pattern. -/
def Pattern.toJson (pattern : Pattern) : Json :=
  .object [("type", .string "pattern"), ("termType", .string "Quad"),
    ("subject", pattern.subject.toJson), ("predicate", pattern.predicate.toJson),
    ("object", pattern.object.toJson), ("graph", pattern.graph.toJson)]

/-- An array of patterns. -/
def patternsToJson (patterns : List Pattern) : Json := .array (patterns.map Pattern.toJson)

/-- The object of a row, keyed by the variables that are bound. -/
def rowToJson (row : Row) : Json :=
  .object (row.entries.map fun entry => ("?" ++ entry.1, entry.2.toJson))

mutual

/-- The object of a path. -/
def Path.toJson : Path → Json
  | .link predicate => .object [("type", .string "link"), ("iri", predicate.toJson)]
  | .inverse path => .object [("type", .string "inv"), ("path", path.toJson)]
  | .seq steps => .object [("type", .string "seq"), ("input", .array (Path.allToJson steps))]
  | .alt branches => .object [("type", .string "alt"), ("input", .array (Path.allToJson branches))]
  | .zeroOrMore path => .object [("type", .string "ZeroOrMorePath"), ("path", path.toJson)]
  | .oneOrMore path => .object [("type", .string "OneOrMorePath"), ("path", path.toJson)]
  | .zeroOrOne path => .object [("type", .string "ZeroOrOnePath"), ("path", path.toJson)]
  | .negated predicates =>
    .object [("type", .string "nps"), ("iris", .array (predicates.map NamedNode.toJson))]

/-- The objects of a list of paths. -/
def Path.allToJson : List Path → List Json
  | [] => []
  | path :: rest => path.toJson :: Path.allToJson rest

end

/-- The text or object of a target. -/
def GraphTarget.toJson : GraphTarget → Json
  | .default => .string "DEFAULT"
  | .named => .string "NAMED"
  | .all => .string "ALL"
  | .graph name => name.toJson

/-- The members of an update of whole graphs after its type. -/
def GraphAction.members : GraphAction → List (String × Json)
  | .load source destination silent =>
    [("source", source.toJson)]
      ++ Json.optionalMember "destination" (destination.map NamedNode.toJson)
      ++ [("silent", .bool silent)]
  | .clear target silent => [("source", target.toJson), ("silent", .bool silent)]
  | .drop target silent => [("source", target.toJson), ("silent", .bool silent)]
  | .create graph silent => [("source", graph.toJson), ("silent", .bool silent)]
  | .transfer _ source destination silent =>
    [("source", source.toJson), ("destination", destination.toJson), ("silent", .bool silent)]

/-- The members of a wrapper after its type and input. -/
def Wrapper.members : Wrapper → List (String × Json)
  | .project vars => [("variables", .array (vars.map Variable.toJson))]
  | .graph name => [("name", name.toJson)]
  | .service name silent => [("name", name.toJson), ("silent", .bool silent)]
  | .distinct => []
  | .reduced => []
  | .slice start length =>
    [("start", .number start)] ++ Json.optionalMember "length" (length.map fun n => .number n)
  | .dataset default named =>
    [("default", .array (default.map NamedNode.toJson)),
      ("named", .array (named.map NamedNode.toJson))]
  | .ask => []
  | .describe terms => [("terms", .array (terms.map Term.toJson))]

/-- The object of a reference. -/
def NodeReference.toJson (reference : NodeReference) : Json :=
  .object [("up", .number reference.up),
    ("down", .array (reference.down.map fun (index : Nat) => .number index))]

/-- The object of metadata, without what is empty. -/
def Metadata.toJson (metadata : Metadata) : Json :=
  .object <|
    (if metadata.data.isEmpty then [] else [("data", .object metadata.data.entries)])
    ++ if metadata.links.isEmpty then []
       else
        [("links", .object (metadata.links.entries.map fun link => (link.1, link.2.toJson)))]

mutual

/-- The object of an operation. -/
def Operation.toJson : Operation → Json
  | ⟨operator, metadata⟩ =>
    .object <| ("type", .string operator.typeName) :: operator.members
      ++ Json.optionalMember "metadata" (metadata.map Metadata.toJson)

/-- The members of an operator after its type. -/
def Operator.members : Operator → List (String × Json)
  | .bgp patterns => [("patterns", patternsToJson patterns)]
  | .values vars rows =>
    [("variables", .array (vars.map Variable.toJson)),
      ("bindings", .array (rows.map rowToJson))]
  | .nop => []
  | .path subject predicate object graph =>
    [("subject", subject.toJson), ("predicate", predicate.toJson), ("object", object.toJson),
      ("graph", graph.toJson)]
  | .manage action => action.members
  | .wrap wrapper input => ("input", input.toJson) :: wrapper.members
  | .filter input condition => [("input", input.toJson), ("expression", condition.toJson)]
  | .extend input name value =>
    [("input", input.toJson), ("variable", name.toJson), ("expression", value.toJson)]
  | .group input keys aggregates =>
    [("input", input.toJson), ("variables", .array (keys.map Variable.toJson)),
      ("aggregates", .array (BoundAggregate.allToJson aggregates))]
  | .orderBy input keys =>
    [("input", input.toJson), ("expressions", .array (Expression.allToJson keys))]
  | .construct input template =>
    [("input", input.toJson), ("template", patternsToJson template)]
  | .combine .updates inputs => [("updates", .array (Operation.allToJson inputs))]
  | .combine _ inputs => [("input", .array (Operation.allToJson inputs))]
  | .leftJoin left right none => [("left", left.toJson), ("right", right.toJson)]
  | .leftJoin left right (some condition) =>
    [("left", left.toJson), ("right", right.toJson), ("expression", condition.toJson)]
  | .minus left right => [("left", left.toJson), ("right", right.toJson)]
  | .deleteInsert delete insert none =>
    Json.optionalMember "delete" (delete.map patternsToJson)
      ++ Json.optionalMember "insert" (insert.map patternsToJson)
  | .deleteInsert delete insert (some scope) =>
    Json.optionalMember "delete" (delete.map patternsToJson)
      ++ Json.optionalMember "insert" (insert.map patternsToJson) ++ [("where", scope.toJson)]

/-- The object of an expression. -/
def Expression.toJson : Expression → Json
  | .term value => .object [("expressionType", .string "term"), ("term", value.toJson)]
  | .call (.operator name) arguments =>
    .object [("expressionType", .string "operator"), ("operator", .string name),
      ("args", .array (Expression.allToJson arguments))]
  | .call (.function name) arguments =>
    .object [("expressionType", .string "named"), ("name", name.toJson),
      ("args", .array (Expression.allToJson arguments))]
  | .aggregate name argument distinct separator =>
    .object <| [("expressionType", .string "aggregate"), ("aggregator", .string name),
        ("expression", argument.toJson), ("distinct", .bool distinct)]
      ++ Json.optionalMember "separator" (separator.map .string)
  | .existence negated input =>
    .object [("expressionType", .string "existence"), ("not", .bool negated),
      ("input", input.toJson)]
  | .wildcard => .object [("expressionType", .string "wildcard")]

/-- The objects of a list of operations. -/
def Operation.allToJson : List Operation → List Json
  | [] => []
  | operation :: rest => operation.toJson :: Operation.allToJson rest

/-- The objects of a list of expressions. -/
def Expression.allToJson : List Expression → List Json
  | [] => []
  | expression :: rest => expression.toJson :: Expression.allToJson rest

/-- The objects of a list of bound aggregates. -/
def BoundAggregate.allToJson : List BoundAggregate → List Json
  | [] => []
  | ⟨name, expression⟩ :: rest =>
    .object [("variable", name.toJson), ("expression", expression.toJson)]
      :: BoundAggregate.allToJson rest

end

end QueryAlgebra
