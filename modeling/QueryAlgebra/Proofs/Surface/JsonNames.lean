import QueryAlgebra.Operation.Canonical
import QueryAlgebra.Surface.JsonForm
import QueryAlgebra.Surface.Names

/-! # The names in the JSON form of a request

Wherever a variable or blank node is written in a request, its JSON form has an object that is
tagged as one. `Json.names` finds these objects without regard to where they stand, and
`Surface.Request.mem_names_toJson` says that the listed names of a request are all that it finds.
-/

namespace QueryAlgebra

namespace Json

/-- The text that a value is. -/
def texts : Json → List String
  | .string text => [text]
  | _ => []

/-- The name that an object with the tag of a variable or blank node has. -/
def ownNames : List (String × Json) → List LocalName
  | [] => []
  | (key, tag) :: members =>
    if key = "t" ∧ tag = .string "var" then (members.flatMap (texts ·.2)).map .var
    else if key = "t" ∧ tag = .string "blank" then (members.flatMap (texts ·.2)).map .blank
    else []

mutual

/-- The names of the variables and blank nodes in a value. -/
def names : Json → List LocalName
  | .array items => namesOfItems items
  | .object members => ownNames members ++ namesOfMembers members
  | _ => []

/-- The names in the items of an array. -/
def namesOfItems : List Json → List LocalName
  | [] => []
  | item :: rest => item.names ++ namesOfItems rest

/-- The names in the members of an object. -/
def namesOfMembers : List (String × Json) → List LocalName
  | [] => []
  | (_, value) :: rest => value.names ++ namesOfMembers rest

end

variable {name : LocalName}

@[simp] theorem namesOfItems_map {α : Type} (toJson : α → Json) (parts : List α) :
    namesOfItems (parts.map toJson) = parts.flatMap fun part => (toJson part).names := by
  induction parts with
  | nil => rfl
  | cons part rest ih => rw [List.map_cons, namesOfItems, ih, List.flatMap_cons]

@[simp] theorem namesOfMembers_append (first second : List (String × Json)) :
    namesOfMembers (first ++ second) = namesOfMembers first ++ namesOfMembers second := by
  induction first with
  | nil => rfl
  | cons member rest ih =>
    obtain ⟨key, value⟩ := member
    rw [List.cons_append, namesOfMembers, namesOfMembers, ih, List.append_assoc]

@[simp] theorem namesOfMembers_optionalMember (key : String) (value : Option Json) :
    namesOfMembers (optionalMember key value) = (value.map names).getD [] := by
  cases value with
  | none => rfl
  | some json => exact List.append_nil _

@[simp] theorem ownNames_of_ne {key : String} (other : key ≠ "t") (value : Json)
    (rest : List (String × Json)) : ownNames ((key, value) :: rest) = [] := by
  simp [ownNames, other]

/-- Members of which none is a tag. -/
def Untagged (members : List (String × Json)) : Prop := ∀ member ∈ members, member.1 ≠ "t"

theorem Untagged.append {first second : List (String × Json)} (ofFirst : Untagged first)
    (ofSecond : Untagged second) : Untagged (first ++ second) :=
  List.forall_mem_append.2 ⟨ofFirst, ofSecond⟩

theorem untagged_optionalMember {key : String} (other : key ≠ "t") (value : Option Json) :
    Untagged (optionalMember key value) := by
  cases value <;> simp [Untagged, optionalMember, other]

/-- An object without a tag has no name of its own. -/
theorem Untagged.names_eq {members : List (String × Json)} (untagged : Untagged members) :
    (object members).names = namesOfMembers members := by
  rw [names]
  cases members with
  | nil => rfl
  | cons member rest => rw [ownNames_of_ne (untagged member List.mem_cons_self), List.nil_append]

end Json

namespace Surface

/-- Whether a name is listed. -/
def Names.Lists (names : Names) : LocalName → Prop
  | .var name => name ∈ names.vars
  | .blank label => label ∈ names.labels

section

variable {name : LocalName}

@[simp] theorem Names.lists_and {first second : Names} :
    (first ++ second).Lists name ↔ first.Lists name ∨ second.Lists name := by
  cases name <;> exact List.mem_append

@[simp] theorem Names.not_lists_none : ¬ Names.none.Lists name := by
  cases name <;> exact List.not_mem_nil

@[simp] theorem Names.lists_var {written : Variable} :
    (Names.var written).Lists name ↔ name = .var written.name := by
  cases name <;> simp [Names.Lists, Names.var]

@[simp] theorem Names.lists_label {label : String} :
    Names.Lists ⟨[], [label]⟩ name ↔ name = .blank label := by
  cases name <;> simp [Names.Lists]

@[simp] theorem Names.lists_all {α : Type} {namesOf : α → Names} {parts : List α} :
    (Names.all namesOf parts).Lists name ↔ ∃ part ∈ parts, (namesOf part).Lists name := by
  induction parts with
  | nil => simp [Names.all]
  | cons part rest ih =>
    show (namesOf part ++ Names.all namesOf rest).Lists name ↔ _
    simp [ih]

@[simp] theorem Names.lists_optional {α : Type} {namesOf : α → Names} {part : Option α} :
    (Names.optional namesOf part).Lists name ↔ ∃ value ∈ part, (namesOf value).Lists name := by
  cases part <;> simp [Names.optional]

/-- An object that has neither the tag of a variable nor that of a blank node. -/
@[simp] theorem names_variant {tag : String} (notVar : tag ≠ "var") (notBlank : tag ≠ "blank")
    (members : List (String × Json)) :
    (variant tag members).names = Json.namesOfMembers members := by
  simp [variant, Json.names, Json.ownNames, Json.namesOfMembers, notVar, notBlank]

@[simp] theorem names_variableToJson (written : Variable) :
    (variableToJson written).names = [.var written.name] := by
  simp [variableToJson, variant, Json.names, Json.ownNames, Json.namesOfMembers, Json.texts]

@[simp] theorem names_iri (iri : Iri) : iri.toJson.names = [] := by
  obtain ⟨text, span⟩ := iri
  cases text <;> simp [Iri.toJson, Json.namesOfMembers, Json.names]

@[simp] theorem names_literal (literal : Literal) : literal.toJson.names = [] := by
  cases literal <;> simp [Literal.toJson, Json.namesOfMembers, Json.names]

@[simp] theorem mem_names_varOrIri {written : VarOrIri} :
    name ∈ written.toJson.names ↔ written.names.Lists name := by
  cases written <;> simp [VarOrIri.toJson, VarOrIri.names]

@[simp] theorem mem_names_term {term : Term} :
    name ∈ term.toJson.names ↔ term.names.Lists name := by
  induction term with
  | blank label =>
    simp [Term.toJson, Term.names, variant, Json.names, Json.ownNames, Json.namesOfMembers, Json.texts]
  | quoted subject predicate object ihSubject ihObject =>
    simp [Term.toJson, Term.names, Json.namesOfMembers, ihSubject, ihObject, or_assoc]
  | _ => simp [Term.toJson, Term.names, Json.namesOfMembers]

private theorem mem_names_cell {cell : Option Term} :
    name ∈ ((cell.map Term.toJson).getD .null).names
      ↔ (Names.optional Term.names cell).Lists name := by
  cases cell <;> simp [Json.names]

@[simp] theorem mem_names_inlineData {data : InlineData} :
    name ∈ Json.namesOfMembers data.members ↔ data.names.Lists name := by
  simp only [InlineData.members, InlineData.names, variablesToJson, Json.namesOfMembers, Json.names,
    Json.namesOfItems_map, List.mem_append, List.mem_flatMap, mem_names_cell, Names.lists_and,
    Names.lists_all, names_variableToJson, Names.lists_var, List.mem_singleton, List.append_nil]

@[simp] theorem names_negatedMember (member : NegatedMember) : member.toJson.names = [] := by
  cases member <;> simp [NegatedMember.toJson, Json.namesOfMembers]

@[simp] theorem names_path (path : Path) : path.toJson.names = [] := by
  induction path <;> simp_all [Path.toJson, Json.namesOfMembers, Json.names]

@[simp] theorem mem_names_verb {verb : Verb} :
    name ∈ verb.toJson.names ↔ verb.names.Lists name := by
  cases verb <;> simp [Verb.toJson, Verb.names, Json.namesOfMembers]

mutual

theorem mem_names_graphNode : ∀ node : GraphNode,
    name ∈ node.toJson.names ↔ node.names.Lists name
  | .term value => by simp [GraphNode.toJson, GraphNode.names]
  | .collection items => by
    simp [GraphNode.toJson, GraphNode.names, Json.namesOfMembers, Json.names,
      mem_names_allGraphNodes items]
  | .properties entries => by
    simp [GraphNode.toJson, GraphNode.names, Json.namesOfMembers, Json.names,
      mem_names_entries entries]

theorem mem_names_allGraphNodes : ∀ items : List GraphNode,
    name ∈ Json.namesOfItems (GraphNode.allToJson items)
      ↔ (GraphNode.namesOfItems items).Lists name
  | [] => by simp [GraphNode.allToJson, GraphNode.namesOfItems, Json.namesOfItems]
  | item :: rest => by
    simp [GraphNode.allToJson, GraphNode.namesOfItems, Json.namesOfItems, mem_names_graphNode item,
      mem_names_allGraphNodes rest]

theorem mem_names_entries : ∀ entries : List (Verb × GraphNode),
    name ∈ Json.namesOfItems (GraphNode.entriesToJson entries)
      ↔ (GraphNode.namesOfEntries entries).Lists name
  | [] => by simp [GraphNode.entriesToJson, GraphNode.namesOfEntries, Json.namesOfItems]
  | (verb, object) :: rest => by
    simp [GraphNode.entriesToJson, GraphNode.namesOfEntries, Json.namesOfItems, Json.names,
      Json.namesOfMembers, mem_names_graphNode object, mem_names_entries rest, or_assoc]

end

@[simp] theorem mem_names_triple {triple : Triple} :
    name ∈ triple.toJson.names ↔ triple.names.Lists name := by
  simp [Triple.toJson, Triple.names, Json.names, Json.namesOfMembers, mem_names_graphNode, or_assoc]

@[simp] theorem mem_names_triples {triples : List Triple} :
    name ∈ (triplesToJson triples).names ↔ (Names.all Triple.names triples).Lists name := by
  simp [triplesToJson, Json.names]

@[simp] theorem names_iris (iris : List Iri) :
    (Json.array (iris.map Iri.toJson)).names = [] := by
  simp [Json.names]

@[simp] theorem names_dataset (dataset : Dataset) : dataset.toJson.names = [] := by
  simp [Dataset.toJson, Json.names, Json.namesOfMembers]

@[simp] theorem names_clauseMember (key : String) (items : List Json) :
    Json.namesOfMembers (clauseMember key items) = Json.namesOfItems items := by
  cases items <;> simp [clauseMember, Json.namesOfMembers, Json.names, Json.namesOfItems]

private theorem untagged_clauseMember {key : String} (other : key ≠ "t") (items : List Json) :
    Json.Untagged (clauseMember key items) := by
  cases items <;> simp [Json.Untagged, clauseMember, other]

@[simp] theorem names_duplicates (duplicates : Duplicates) :
    Json.namesOfMembers duplicates.members = [] := by
  cases duplicates <;> simp [Duplicates.members, Json.namesOfMembers, Json.names]

mutual

theorem mem_names_expression : ∀ expression : Expression,
    name ∈ expression.toJson.names ↔ expression.names.Lists name
  | .var written => by simp [Expression.toJson, Expression.names]
  | .iri iri => by simp [Expression.toJson, Expression.names]
  | .literal text => by simp [Expression.toJson, Expression.names]
  | .binary op left right => by
    simp [Expression.toJson, Expression.names, Json.namesOfMembers, Json.names,
      mem_names_expression left, mem_names_expression right]
  | .unary op operand => by
    simp [Expression.toJson, Expression.names, Json.namesOfMembers, Json.names,
      mem_names_expression operand]
  | .call (.builtin function) arguments distinct => by
    simp [Expression.toJson, Expression.names, Json.namesOfMembers, Json.names,
      mem_names_expressions arguments]
  | .call (.named function) arguments distinct => by
    simp [Expression.toJson, Expression.names, Json.namesOfMembers, Json.names,
      mem_names_expressions arguments]
  | .ifElse condition positive negative => by
    simp [Expression.toJson, Expression.names, Json.namesOfMembers, mem_names_expression condition,
      mem_names_expression positive, mem_names_expression negative, or_assoc]
  | .coalesce arguments => by
    simp [Expression.toJson, Expression.names, Json.namesOfMembers, Json.names,
      mem_names_expressions arguments]
  | .among value choices negated => by
    simp [Expression.toJson, Expression.names, Json.namesOfMembers, Json.names,
      mem_names_expression value, mem_names_expressions choices]
  | .existence negated pattern => by
    have tag : ∀ kind ∈ ["var", "blank"], (if negated then "notExists" else "exists") ≠ kind := by
      cases negated <;> decide
    rw [Expression.toJson, names_variant (tag _ (by simp)) (tag _ (by simp))]
    simp [Expression.names, Json.namesOfMembers, mem_names_pattern pattern]
  | .aggregate function none distinct separator => by
    cases separator <;> simp [Expression.toJson, Expression.argumentMember, Expression.names,
      Json.namesOfMembers, Json.names]
  | .aggregate function (some argument) distinct separator => by
    cases separator <;> simp [Expression.toJson, Expression.argumentMember, Expression.names,
      Json.namesOfMembers, Json.names, mem_names_expression argument]
  | .bracketed inner => by
    simp [Expression.toJson, Expression.names, Json.namesOfMembers, mem_names_expression inner]

theorem mem_names_expressions : ∀ expressions : List Expression,
    name ∈ Json.namesOfItems (Expression.allToJson expressions)
      ↔ (Expression.namesOfAll expressions).Lists name
  | [] => by simp [Expression.allToJson, Expression.namesOfAll, Json.namesOfItems]
  | expression :: rest => by
    simp [Expression.allToJson, Expression.namesOfAll, Json.namesOfItems,
      mem_names_expression expression, mem_names_expressions rest]

theorem mem_names_pattern : ∀ pattern : Pattern,
    name ∈ pattern.toJson.names ↔ pattern.names.Lists name
  | .bgp triples _ => by simp [Pattern.toJson, Pattern.names, Json.namesOfMembers]
  | .group members _ => by
    simp [Pattern.toJson, Pattern.names, Json.namesOfMembers, Json.names, mem_names_patterns members]
  | .optional pattern _ => by
    simp [Pattern.toJson, Pattern.names, Json.namesOfMembers, mem_names_pattern pattern]
  | .minus pattern _ => by
    simp [Pattern.toJson, Pattern.names, Json.namesOfMembers, mem_names_pattern pattern]
  | .union left right _ => by
    simp [Pattern.toJson, Pattern.names, Json.namesOfMembers, mem_names_pattern left,
      mem_names_pattern right]
  | .filter condition _ => by
    simp [Pattern.toJson, Pattern.names, Json.namesOfMembers, mem_names_expression condition]
  | .bind value written _ => by
    simp [Pattern.toJson, Pattern.names, Json.namesOfMembers, mem_names_expression value]
  | .values data _ => by simp [Pattern.toJson, Pattern.names]
  | .graph written pattern _ => by
    simp [Pattern.toJson, Pattern.names, Json.namesOfMembers, mem_names_pattern pattern]
  | .service silent endpoint pattern _ => by
    simp [Pattern.toJson, Pattern.names, Json.namesOfMembers, Json.names, mem_names_pattern pattern]
  | .subquery query _ => by
    simp [Pattern.toJson, Pattern.names, Json.namesOfMembers, mem_names_select query]

theorem mem_names_patterns : ∀ patterns : List Pattern,
    name ∈ Json.namesOfItems (Pattern.allToJson patterns)
      ↔ (Pattern.namesOfAll patterns).Lists name
  | [] => by simp [Pattern.allToJson, Pattern.namesOfAll, Json.namesOfItems]
  | pattern :: rest => by
    simp [Pattern.allToJson, Pattern.namesOfAll, Json.namesOfItems, mem_names_pattern pattern,
      mem_names_patterns rest]

theorem mem_names_select : ∀ query : Select,
    name ∈ query.toJson.names ↔ query.names.Lists name
  | ⟨duplicates, projection, dataset, pattern, modifiers⟩ => by
    cases dataset <;> simp [Select.toJson, Select.names, Json.namesOfMembers,
      mem_names_projection projection, mem_names_pattern pattern, mem_names_modifiers modifiers,
      or_assoc]

theorem mem_names_projection : ∀ projection : Projection,
    name ∈ projection.toJson.names ↔ projection.names.Lists name
  | .all => by simp [Projection.toJson, Projection.names, Json.names]
  | .items items => by
    simp [Projection.toJson, Projection.names, Json.names, mem_names_selectItems items]

theorem mem_names_selectItems : ∀ items : List SelectItem,
    name ∈ Json.namesOfItems (SelectItem.allToJson items)
      ↔ (SelectItem.namesOfAll items).Lists name
  | [] => by simp [SelectItem.allToJson, SelectItem.namesOfAll, Json.namesOfItems]
  | .var written :: rest => by
    simp [SelectItem.allToJson, SelectItem.namesOfAll, Json.namesOfItems, mem_names_selectItems rest]
  | .computed value written :: rest => by
    simp [SelectItem.allToJson, SelectItem.namesOfAll, Json.namesOfItems, Json.namesOfMembers,
      mem_names_expression value, mem_names_selectItems rest, or_assoc]

theorem mem_names_modifiers : ∀ modifiers : Modifiers,
    name ∈ modifiers.toJson.names ↔ modifiers.names.Lists name
  | ⟨groupBy, having, orderBy, limit, offset, values⟩ => by
    have counts : ∀ {key : String} {count : Option Nat},
        Json.namesOfMembers (Json.optionalMember key (count.map fun count => .number (count : Int)))
          = [] := by
      intro key count
      cases count <;> simp [Json.names]
    have ofValues : name ∈ Json.namesOfMembers
          (Json.optionalMember "values" (values.map fun data => .object data.members))
        ↔ (Names.optional InlineData.names values).Lists name := by
      cases values with
      | none => simp [Json.namesOfMembers, Json.optionalMember, Names.optional]
      | some data =>
        have untagged : Json.Untagged data.members := by simp [Json.Untagged, InlineData.members]
        simp [untagged.names_eq]
    have untagged : Json.Untagged (GroupKey.clause groupBy) := by
      cases groupBy <;> simp [Json.Untagged, GroupKey.clause]
    rw [Modifiers.toJson, Json.Untagged.names_eq
      (((((untagged.append (untagged_clauseMember (by decide) _)).append
        (untagged_clauseMember (by decide) _)).append (Json.untagged_optionalMember (by decide) _)).append
          (Json.untagged_optionalMember (by decide) _)).append
            (Json.untagged_optionalMember (by decide) _))]
    simp only [Json.namesOfMembers_append, List.mem_append, counts, names_clauseMember,
      mem_names_expressions having, mem_names_orderKeys orderBy, ofValues, List.not_mem_nil, or_false]
    cases groupBy with
    | none => simp [GroupKey.clause, Modifiers.names, Json.namesOfMembers, or_assoc]
    | some keys =>
      simp [GroupKey.clause, Modifiers.names, Json.namesOfMembers, Json.names,
        mem_names_groupKeys keys, or_assoc]

theorem mem_names_groupKeys : ∀ keys : List GroupKey,
    name ∈ Json.namesOfItems (GroupKey.allToJson keys) ↔ (GroupKey.namesOfAll keys).Lists name
  | [] => by simp [GroupKey.allToJson, GroupKey.namesOfAll, Json.namesOfItems]
  | .var written :: rest => by
    simp [GroupKey.allToJson, GroupKey.namesOfAll, Json.namesOfItems, mem_names_groupKeys rest]
  | .computed value written :: rest => by
    cases written <;> simp [GroupKey.allToJson, GroupKey.namesOfAll, Json.namesOfItems,
      Json.namesOfMembers, mem_names_expression value, mem_names_groupKeys rest, or_assoc]

theorem mem_names_orderKeys : ∀ keys : List OrderKey,
    name ∈ Json.namesOfItems (OrderKey.allToJson keys) ↔ (OrderKey.namesOfAll keys).Lists name
  | [] => by simp [OrderKey.allToJson, OrderKey.namesOfAll, Json.namesOfItems]
  | .var written direction :: rest => by
    cases direction <;> simp [OrderKey.allToJson, OrderKey.namesOfAll, Json.namesOfItems,
      Json.namesOfMembers, Json.names, Direction.toJson, mem_names_orderKeys rest]
  | .computed value direction :: rest => by
    cases direction <;> simp [OrderKey.allToJson, OrderKey.namesOfAll, Json.namesOfItems,
      Json.namesOfMembers, Json.names, Direction.toJson, mem_names_expression value,
      mem_names_orderKeys rest]

end

/-- An optional member has the names of the part that it is about. -/
private theorem mem_names_optional {α : Type} {toJson : α → Json} {namesOf : α → Names}
    (same : ∀ part, name ∈ (toJson part).names ↔ (namesOf part).Lists name) {key : String}
    {part : Option α} :
    name ∈ Json.namesOfMembers (Json.optionalMember key (part.map toJson))
      ↔ (Names.optional namesOf part).Lists name := by
  cases part <;> simp [Json.optionalMember, Json.namesOfMembers, Names.optional, same]

private theorem names_optionalDataset {key : String} {dataset : Option Dataset} :
    Json.namesOfMembers (Json.optionalMember key (dataset.map Dataset.toJson)) = [] := by
  cases dataset <;> simp

theorem mem_names_query {query : Query} :
    name ∈ query.toJson.names ↔ query.names.Lists name := by
  cases query with
  | select query => exact mem_names_select query
  | construct query =>
    rw [Query.toJson, names_variant (by decide) (by decide)]
    simp only [Json.namesOfMembers_append, Json.namesOfMembers, names_optionalDataset, List.mem_append,
      mem_names_optional fun triples => mem_names_triples, mem_names_pattern, mem_names_modifiers,
      List.not_mem_nil, or_false, Query.names, Construct.names, Names.lists_and, or_assoc]
  | ask query =>
    rw [Query.toJson, names_variant (by decide) (by decide)]
    simp only [Json.namesOfMembers_append, Json.namesOfMembers, names_optionalDataset, List.mem_append,
      mem_names_pattern, mem_names_modifiers, List.not_mem_nil, or_false, false_or, Query.names,
      Ask.names, Names.lists_and]
  | describe query =>
    obtain ⟨target, dataset, pattern, modifiers⟩ := query
    rw [Query.toJson, names_variant (by decide) (by decide)]
    simp only [Json.namesOfMembers_append, Json.namesOfMembers, names_optionalDataset, List.mem_append,
      mem_names_optional mem_names_pattern, mem_names_modifiers, List.not_mem_nil, or_false,
      Query.names, Describe.names, Names.lists_and, List.cons_append, or_assoc]
    cases target <;> simp [DescribeTarget.toJson, Json.names]

@[simp] theorem mem_names_quadBlock {block : QuadBlock} :
    name ∈ block.toJson.names ↔ block.names.Lists name := by
  have untagged : Json.Untagged
      (Json.optionalMember "graph" (block.graph.map VarOrIri.toJson)
        ++ [("triples", triplesToJson block.triples)]) :=
    (Json.untagged_optionalMember (by decide) _).append (by simp [Json.Untagged])
  rw [QuadBlock.toJson, untagged.names_eq]
  simp only [Json.namesOfMembers_append, Json.namesOfMembers, List.mem_append,
    mem_names_optional fun written => mem_names_varOrIri, mem_names_triples, List.append_nil,
    QuadBlock.names, Names.lists_and]

@[simp] theorem mem_names_quads {blocks : List QuadBlock} :
    name ∈ (quadsToJson blocks).names ↔ (Names.all QuadBlock.names blocks).Lists name := by
  simp [quadsToJson, Json.names]

@[simp] theorem names_clearTarget (target : ClearTarget) : target.toJson.names = [] := by
  cases target <;> simp [ClearTarget.toJson, Json.names]

@[simp] theorem names_graphOrDefault (graph : GraphOrDefault) : graph.toJson.names = [] := by
  cases graph <;> simp [GraphOrDefault.toJson, Json.names]

private theorem names_optionalIri {key : String} {iri : Option Iri} :
    Json.namesOfMembers (Json.optionalMember key (iri.map Iri.toJson)) = [] := by
  cases iri <;> simp

theorem mem_names_update {update : Update} :
    name ∈ update.toJson.names ↔ update.names.Lists name := by
  cases update with
  | insertData | deleteData | deleteWhere => simp [Update.toJson, Update.names, Json.namesOfMembers]
  | modify update =>
    rw [Update.toJson, names_variant (by decide) (by decide)]
    simp only [Json.namesOfMembers_append, Json.namesOfMembers, names_optionalDataset,
      names_optionalIri, List.mem_append, mem_names_optional fun blocks => mem_names_quads,
      mem_names_pattern, List.not_mem_nil, or_false, false_or, Update.names, Names.lists_and]
  | load silent source destination =>
    rw [Update.toJson, names_variant (by decide) (by decide), Json.namesOfMembers_append,
      names_optionalIri]
    simp [Json.namesOfMembers, Json.names, Update.names]
  | clear | drop | create => simp [Update.toJson, Update.names, Json.namesOfMembers, Json.names]
  | transfer how silent source destination =>
    have tag : ∀ kind ∈ ["var", "blank"], transferTag how ≠ kind := by cases how <;> decide
    rw [Update.toJson, names_variant (tag _ (by simp)) (tag _ (by simp))]
    simp [Json.namesOfMembers, Json.names, Update.names]

@[simp] theorem names_prologue (prologue : Prologue) : prologue.toJson.names = [] := by
  obtain ⟨base, prefixes⟩ := prologue
  have untagged : Json.Untagged
      (Json.optionalMember "base" (base.map fun base => .object [("iri", .string base.iri)])
        ++ [("prefixes", .array (prefixes.map fun declaration =>
          .object [("prefix", .string declaration.label), ("iri", .string declaration.iri)]))]) :=
    (Json.untagged_optionalMember (by decide) _).append (by simp [Json.Untagged])
  rw [Prologue.toJson, untagged.names_eq]
  cases base <;> simp [Json.namesOfMembers, Json.names]

end

/-- The listed names of a request are all names in its JSON form. -/
theorem Request.mem_names_toJson {request : Request} {name : LocalName} :
    name ∈ request.toJson.names ↔ request.names.Lists name := by
  obtain ⟨prologue, body⟩ := request
  have ofBody : name ∈ body.toJson.names ↔ body.names.Lists name := by
    cases body with
    | query asked => exact mem_names_query
    | update units =>
      simp [Body.toJson, Body.names, UpdateUnit.toJson, Json.namesOfMembers, Json.names,
        mem_names_update]
  simp [Request.toJson, Request.names, Json.names, Json.namesOfMembers, ofBody]

end Surface

end QueryAlgebra
