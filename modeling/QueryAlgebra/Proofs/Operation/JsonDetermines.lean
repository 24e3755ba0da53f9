import QueryAlgebra.Operation.Walk
import QueryAlgebra.Proofs.Operation.JsonParts

/-! # The JSON form determines the operation

No two operations have equal JSON forms: `Operation.toJson_normal_iff`. The tag of an object tells
the kind of the operator or expression, and what is found under the keys of that kind determines the
rest, part by part. Only the order of members inside the data of metadata is not seen in the JSON
form; JSON values are equal whatever this order is, so data is compared in normal form.
-/

namespace QueryAlgebra

open Json (SameMembers)

/-! ### Kinds -/

/-- The tags of the objects of operations and expressions, with the kinds that they stand for. -/
private def kindTags : List (String × NodeKind) :=
  [("bgp", .bgp), ("values", .values), ("nop", .nop), ("project", .project), ("filter", .filter),
    ("extend", .extend), ("graph", .graph), ("service", .service), ("group", .group),
    ("orderby", .orderBy), ("distinct", .distinct), ("reduced", .reduced), ("slice", .slice),
    ("from", .dataset), ("ask", .ask), ("describe", .describe), ("construct", .construct),
    ("join", .join), ("leftjoin", .leftJoin), ("minus", .minus), ("union", .union),
    ("path", .path), ("deleteinsert", .deleteInsert), ("load", .load), ("clear", .clear),
    ("drop", .drop), ("create", .create), ("add", .add), ("move", .move), ("copy", .copy),
    ("compositeupdate", .compositeUpdate), ("term", .termExpression),
    ("operator", .operatorExpression), ("named", .namedExpression),
    ("aggregate", .aggregateExpression), ("existence", .existenceExpression),
    ("wildcard", .wildcardExpression)]

/-- The type of an operator tells its kind. -/
private theorem Operator.lookup_typeName (operator : Operator) :
    some operator.kind = kindTags.lookup operator.typeName := by
  cases operator with
  | manage action =>
    cases action with
    | transfer how => cases how <;> rfl
    | _ => rfl
  | wrap wrapper => cases wrapper <;> rfl
  | combine how => cases how <;> rfl
  | _ => rfl

/-- Which constructor makes the operators of a kind. -/
private def NodeKind.constructor : NodeKind → Nat
  | .bgp => 0
  | .values => 1
  | .nop => 2
  | .path => 3
  | .load | .clear | .drop | .create | .add | .move | .copy => 4
  | .filter => 6
  | .extend => 7
  | .group => 8
  | .orderBy => 9
  | .construct => 10
  | .join | .union | .compositeUpdate => 11
  | .leftJoin => 12
  | .minus => 13
  | .deleteInsert => 14
  | _ => 5

/-- Operators of one kind are made by one constructor. -/
private theorem Operator.ctorIdx_of_kind {first second : Operator}
    (same : first.kind = second.kind) : first.ctorIdx = second.ctorIdx := by
  have ofKind (operator : Operator) : operator.ctorIdx = operator.kind.constructor := by
    cases operator with
    | manage action =>
      cases action with
      | transfer how => cases how <;> rfl
      | _ => rfl
    | wrap wrapper => cases wrapper <;> rfl
    | combine how => cases how <;> rfl
    | _ => rfl
  rw [ofKind, ofKind, same]

/-- The members of an operator are neither its type nor metadata. -/
private theorem Operator.lookup_members (operator : Operator) :
    operator.members.lookup "type" = none ∧ operator.members.lookup "metadata" = none := by
  cases operator with
  | manage action =>
    cases action with
    | load _ destination => cases destination <;> exact ⟨rfl, rfl⟩
    | _ => exact ⟨rfl, rfl⟩
  | wrap wrapper =>
    cases wrapper with
    | slice _ length => cases length <;> exact ⟨rfl, rfl⟩
    | _ => exact ⟨rfl, rfl⟩
  | combine how => cases how <;> exact ⟨rfl, rfl⟩
  | leftJoin _ _ condition => cases condition <;> exact ⟨rfl, rfl⟩
  | deleteInsert delete insert scope =>
    cases delete <;> cases insert <;> cases scope <;> exact ⟨rfl, rfl⟩
  | _ => exact ⟨rfl, rfl⟩

/-- Operations with equal objects have operators of one kind, of the same under every key, and equal
metadata. -/
private theorem Operation.same_members {operator operator' : Operator}
    {metadata metadata' : Option Metadata}
    (same : (Operation.toJson ⟨operator, metadata⟩).normal
      = (Operation.toJson ⟨operator', metadata'⟩).normal) :
    operator.kind = operator'.kind ∧ SameMembers operator.members operator'.members
      ∧ metadata.map Metadata.normal = metadata'.map Metadata.normal := by
  rw [toJson, toJson, Json.object_normal_iff] at same
  obtain ⟨noType, noMetadata⟩ := operator.lookup_members
  obtain ⟨noType', noMetadata'⟩ := operator'.lookup_members
  have named : operator.typeName = operator'.typeName :=
    Json.string_normal (Option.some.inj (same "type"))
  refine ⟨?_, fun key => ?_, ?_⟩
  · refine Option.some.inj ?_
    rw [operator.lookup_typeName, operator'.lookup_typeName, named]
  · by_cases isType : key = "type"
    · rw [isType, noType, noType']
    · by_cases isMetadata : key = "metadata"
      · rw [isMetadata, noMetadata, noMetadata']
      · have found := same key
        simp only [List.cons_append, List.lookup_cons, beq_eq_false_iff_ne.2 isType,
          List.lookup_append, Json.lookup_optionalMember, if_neg isMetadata,
          Option.or_none] at found
        exact found
  · have found := same "metadata"
    simp only [List.cons_append, List.lookup_cons, List.lookup_append, noMetadata, noMetadata',
      Json.lookup_optionalMember, if_true, Option.none_or] at found
    cases metadata with
    | none =>
      cases metadata' with
      | none => rfl
      | some => cases found
    | some noted =>
      cases metadata' with
      | none => cases found
      | some noted' => exact congrArg some (Metadata.normal_of_toJson (Option.some.inj found))

/-- Expressions with equal objects are of one kind. -/
private theorem Expression.kind_of_toJson {first second : Expression}
    (same : first.toJson.normal = second.toJson.normal) : first.kind = second.kind := by
  have tagged (expression : Expression) : ∃ members tag, expression.toJson = .object members
      ∧ members.lookup "expressionType" = some (.string tag)
      ∧ some expression.kind = kindTags.lookup tag := by
    cases expression with
    | call callee => cases callee <;> exact ⟨_, _, by rw [toJson], rfl, rfl⟩
    | _ => exact ⟨_, _, by rw [toJson], rfl, rfl⟩
  obtain ⟨members, tag, isObject, found, ofTag⟩ := tagged first
  obtain ⟨members', tag', isObject', found', ofTag'⟩ := tagged second
  rw [isObject, isObject', Json.object_normal_iff] at same
  have tags := same "expressionType"
  rw [found, found'] at tags
  rw [Json.string_normal (Option.some.inj tags), ← ofTag'] at ofTag
  exact Option.some.inj ofTag

/-- Expressions of one kind are made by one constructor. -/
private theorem Expression.ctorIdx_of_kind {first second : Expression}
    (same : first.kind = second.kind) : first.ctorIdx = second.ctorIdx := by
  have ofKind (expression : Expression) : expression.ctorIdx
      = if expression.kind = .namedExpression then 1
        else [NodeKind.termExpression, .operatorExpression, .aggregateExpression,
          .existenceExpression, .wildcardExpression].idxOf expression.kind := by
    cases expression with
    | call callee => cases callee <;> rfl
    | _ => rfl
  rw [ofKind, ofKind, same]

/-- An aggregate has its members under four keys. -/
private theorem Expression.aggregate_of_toJson {name name' : String}
    {argument argument' : Expression} {distinct distinct' : Bool}
    {separator separator' : Option String}
    (same : (aggregate name argument distinct separator).toJson.normal
      = (aggregate name' argument' distinct' separator').toJson.normal) :
    name = name' ∧ argument.toJson.normal = argument'.toJson.normal ∧ distinct = distinct'
      ∧ separator = separator' := by
  rw [toJson, toJson, Json.object_normal_iff] at same
  refine ⟨Json.string_normal (Option.some.inj (same "aggregator")),
    Option.some.inj (same "expression"), Json.bool_normal (Option.some.inj (same "distinct")), ?_⟩
  have separators := same "separator"
  simp only [List.lookup_append, Json.lookup_optionalMember, if_true] at separators
  exact Json.optional_injective (fun _ _ => Json.string_normal) separators

/-! ### Operations -/

/-- Brings the data of metadata into normal form. -/
def Rebuild.ofData : Rebuild :=
  { Rebuild.nothing with
    operation := fun operation => ⟨operation.operator, operation.metadata.map Metadata.normal⟩ }

/-- The operation with all data of metadata in normal form. -/
def Operation.normalData (operation : Operation) : Operation := operation.rebuild .ofData

private theorem map_pattern_ofData (place : Place) (patterns : List Pattern) :
    patterns.map (Rebuild.ofData.pattern place) = patterns :=
  List.map_id patterns

private theorem optional_ofData (place : Place) (patterns : Option (List Pattern)) :
    patterns.map (·.map (Rebuild.ofData.pattern place)) = patterns := by
  cases patterns with
  | none => rfl
  | some patterns => exact congrArg some (map_pattern_ofData place patterns)

/-- The parts of an update of triples are found under three keys. -/
private theorem Operator.parts_of_deleteInsert
    {delete insert delete' insert' : Option (List Pattern)} {scope scope' : Option Operation}
    (same : SameMembers (deleteInsert delete insert scope).members
      (deleteInsert delete' insert' scope').members) :
    delete = delete' ∧ insert = insert'
      ∧ scope.map (·.toJson.normal) = scope'.map (·.toJson.normal) := by
  have found (delete insert : Option (List Pattern)) (scope : Option Operation) :
      (deleteInsert delete insert scope).members.lookup "delete" = delete.map patternsToJson
        ∧ (deleteInsert delete insert scope).members.lookup "insert" = insert.map patternsToJson
        ∧ (deleteInsert delete insert scope).members.lookup "where" = scope.map (·.toJson) := by
    cases delete <;> cases insert <;> cases scope <;> exact ⟨rfl, rfl, rfl⟩
  have deletes := same "delete"
  have inserts := same "insert"
  have scopes := same "where"
  rw [(found ..).1, (found ..).1] at deletes
  rw [(found ..).2.1, (found ..).2.1] at inserts
  rw [(found ..).2.2, (found ..).2.2, Option.map_map, Option.map_map] at scopes
  exact ⟨Json.optional_injective (fun _ _ => patternsToJson_injective) deletes,
    Json.optional_injective (fun _ _ => patternsToJson_injective) inserts, scopes⟩

/-- What a wrapper adds to its input is found under other keys. -/
private theorem Wrapper.sameMembers_of_wrap {wrapper wrapper' : Wrapper} {input input' : Operation}
    (same : SameMembers (Operator.wrap wrapper input).members
      (Operator.wrap wrapper' input').members) :
    SameMembers wrapper.members wrapper'.members := by
  have noInput (wrapper : Wrapper) : wrapper.members.lookup "input" = none := by
    cases wrapper with
    | slice _ length => cases length <;> rfl
    | _ => rfl
  intro key
  by_cases isInput : key = "input"
  · rw [isInput, noInput, noInput]
  · have found := same key
    rwa [Operator.members, Operator.members, List.lookup_cons, List.lookup_cons,
      beq_eq_false_iff_ne.2 isInput] at found

mutual

/-- Operations with equal JSON forms are equal, but for the order of members inside data. -/
theorem Operation.rebuild_of_toJson : ∀ first second : Operation,
    first.toJson.normal = second.toJson.normal →
    first.rebuild .ofData = second.rebuild .ofData
  | ⟨operator, _⟩, ⟨_, _⟩, same => by
    obtain ⟨sameKind, members, sameMetadata⟩ := Operation.same_members same
    exact (Operation.mk.injEq ..).mpr
      ⟨Operator.rebuild_of_members operator sameKind members, sameMetadata⟩
termination_by structural first => first

/-- Operators of one kind with the same under every key are equal, but for the order of members
inside data. -/
theorem Operator.rebuild_of_members : ∀ (first : Operator) {second : Operator},
    first.kind = second.kind → SameMembers first.members second.members →
    first.rebuild .ofData = second.rebuild .ofData
  | .bgp _, second, sameKind, members => by
    have sameCtor := Operator.ctorIdx_of_kind sameKind
    cases second with
    | bgp => rw [patternsToJson_injective (Option.some.inj (members "patterns"))]
    | _ => cases sameCtor
  | .values _ _, second, sameKind, members => by
    have sameCtor := Operator.ctorIdx_of_kind sameKind
    cases second with
    | values =>
      rw [Json.array_injective Variable.toJson_injective (Option.some.inj (members "variables")),
        Json.array_injective rowToJson_injective (Option.some.inj (members "bindings"))]
    | _ => cases sameCtor
  | .nop, second, sameKind, _ => by
    have sameCtor := Operator.ctorIdx_of_kind sameKind
    cases second with
    | nop => rfl
    | _ => cases sameCtor
  | .path .., second, sameKind, members => by
    have sameCtor := Operator.ctorIdx_of_kind sameKind
    cases second with
    | path =>
      rw [Term.toJson_injective _ _ (Option.some.inj (members "subject")),
        Path.toJson_injective _ _ (Option.some.inj (members "predicate")),
        Term.toJson_injective _ _ (Option.some.inj (members "object")),
        Term.toJson_injective _ _ (Option.some.inj (members "graph"))]
    | _ => cases sameCtor
  | .manage _, second, sameKind, members => by
    have sameCtor := Operator.ctorIdx_of_kind sameKind
    cases second with
    | manage =>
      rw [GraphAction.eq_of_members sameKind (GraphAction.ctorIdx_of_kind sameKind) members]
    | _ => cases sameCtor
  | .wrap _ input, second, sameKind, members => by
    have sameCtor := Operator.ctorIdx_of_kind sameKind
    cases second with
    | wrap wrapper' input' =>
      rw [Operator.rebuild, Operator.rebuild,
        Wrapper.eq_of_members sameKind (Wrapper.sameMembers_of_wrap members),
        Operation.rebuild_of_toJson input input' (Option.some.inj (members "input"))]
    | _ => cases sameCtor
  | .filter input condition, second, sameKind, members => by
    have sameCtor := Operator.ctorIdx_of_kind sameKind
    cases second with
    | filter input' condition' =>
      rw [Operator.rebuild, Operator.rebuild,
        Operation.rebuild_of_toJson input input' (Option.some.inj (members "input")),
        Expression.rebuild_of_toJson condition condition' (Option.some.inj (members "expression"))]
    | _ => cases sameCtor
  | .extend input _ value, second, sameKind, members => by
    have sameCtor := Operator.ctorIdx_of_kind sameKind
    cases second with
    | extend input' _ value' =>
      rw [Operator.rebuild, Operator.rebuild,
        Operation.rebuild_of_toJson input input' (Option.some.inj (members "input")),
        Variable.toJson_injective _ _ (Option.some.inj (members "variable")),
        Expression.rebuild_of_toJson value value' (Option.some.inj (members "expression"))]
    | _ => cases sameCtor
  | .group input _ aggregates, second, sameKind, members => by
    have sameCtor := Operator.ctorIdx_of_kind sameKind
    cases second with
    | group input' _ aggregates' =>
      rw [Operator.rebuild, Operator.rebuild,
        Operation.rebuild_of_toJson input input' (Option.some.inj (members "input")),
        Json.array_injective Variable.toJson_injective (Option.some.inj (members "variables")),
        BoundAggregate.rebuildAll_of_toJson aggregates aggregates'
          (Option.some.inj (members "aggregates"))]
    | _ => cases sameCtor
  | .orderBy input keys, second, sameKind, members => by
    have sameCtor := Operator.ctorIdx_of_kind sameKind
    cases second with
    | orderBy input' keys' =>
      rw [Operator.rebuild, Operator.rebuild,
        Operation.rebuild_of_toJson input input' (Option.some.inj (members "input")),
        Expression.rebuildAll_of_toJson keys keys' (Option.some.inj (members "expressions"))]
    | _ => cases sameCtor
  | .construct input _, second, sameKind, members => by
    have sameCtor := Operator.ctorIdx_of_kind sameKind
    cases second with
    | construct input' =>
      rw [Operator.rebuild, Operator.rebuild,
        Operation.rebuild_of_toJson input input' (Option.some.inj (members "input")),
        patternsToJson_injective (Option.some.inj (members "template"))]
    | _ => cases sameCtor
  | .combine how inputs, second, sameKind, members => by
    have sameCtor := Operator.ctorIdx_of_kind sameKind
    cases second with
    | combine how' inputs' =>
      have sameHow : how = how' := by
        cases how <;> cases how' <;> first | rfl | cases sameKind
      subst sameHow
      -- The operations of a request are listed under a key of their own.
      have sameInputs : (Json.array (Operation.allToJson inputs)).normal
          = (Json.array (Operation.allToJson inputs')).normal := by
        cases how with
        | join | union => exact Option.some.inj (members "input")
        | updates => exact Option.some.inj (members "updates")
      rw [Operator.rebuild, Operator.rebuild,
        Operation.rebuildAll_of_toJson inputs inputs' sameInputs]
    | _ => cases sameCtor
  | .leftJoin left right none, second, sameKind, members => by
    have sameCtor := Operator.ctorIdx_of_kind sameKind
    cases second with
    | leftJoin left' right' condition' =>
      cases condition' with
      | none =>
        rw [Operator.rebuild, Operator.rebuild,
          Operation.rebuild_of_toJson left left' (Option.some.inj (members "left")),
          Operation.rebuild_of_toJson right right' (Option.some.inj (members "right"))]
      | some => cases members "expression"
    | _ => cases sameCtor
  | .leftJoin left right (some condition), second, sameKind, members => by
    have sameCtor := Operator.ctorIdx_of_kind sameKind
    cases second with
    | leftJoin left' right' condition' =>
      cases condition' with
      | none => cases members "expression"
      | some condition' =>
        rw [Operator.rebuild, Operator.rebuild,
          Operation.rebuild_of_toJson left left' (Option.some.inj (members "left")),
          Operation.rebuild_of_toJson right right' (Option.some.inj (members "right")),
          Expression.rebuild_of_toJson condition condition'
            (Option.some.inj (members "expression"))]
    | _ => cases sameCtor
  | .minus left right, second, sameKind, members => by
    have sameCtor := Operator.ctorIdx_of_kind sameKind
    cases second with
    | minus left' right' =>
      rw [Operator.rebuild, Operator.rebuild,
        Operation.rebuild_of_toJson left left' (Option.some.inj (members "left")),
        Operation.rebuild_of_toJson right right' (Option.some.inj (members "right"))]
    | _ => cases sameCtor
  | .deleteInsert _ _ none, second, sameKind, members => by
    have sameCtor := Operator.ctorIdx_of_kind sameKind
    cases second with
    | deleteInsert _ _ scope' =>
      obtain ⟨sameDelete, sameInsert, sameScope⟩ := Operator.parts_of_deleteInsert members
      cases scope' with
      | none => rw [sameDelete, sameInsert]
      | some => cases sameScope
    | _ => cases sameCtor
  | .deleteInsert _ _ (some scope), second, sameKind, members => by
    have sameCtor := Operator.ctorIdx_of_kind sameKind
    cases second with
    | deleteInsert _ _ scope' =>
      obtain ⟨sameDelete, sameInsert, sameScope⟩ := Operator.parts_of_deleteInsert members
      cases scope' with
      | none => cases sameScope
      | some scope' =>
        rw [Operator.rebuild, Operator.rebuild, sameDelete, sameInsert,
          Operation.rebuild_of_toJson scope scope' (Option.some.inj sameScope)]
    | _ => cases sameCtor
termination_by structural first => first

theorem Expression.rebuild_of_toJson : ∀ first second : Expression,
    first.toJson.normal = second.toJson.normal → first.rebuild .ofData = second.rebuild .ofData
  | .term _, second, same => by
    have sameCtor := Expression.ctorIdx_of_kind (Expression.kind_of_toJson same)
    cases second with
    | term =>
      rw [Expression.toJson, Expression.toJson, Json.object_normal_iff] at same
      rw [Term.toJson_injective _ _ (Option.some.inj (same "term"))]
    | _ => cases sameCtor
  | .call callee arguments, second, same => by
    have sameKind := Expression.kind_of_toJson same
    have sameCtor := Expression.ctorIdx_of_kind sameKind
    cases second with
    | call callee' arguments' =>
      cases callee with
      | operator =>
        cases callee' with
        | operator =>
          rw [Expression.toJson, Expression.toJson, Json.object_normal_iff] at same
          rw [Expression.rebuild, Expression.rebuild,
            Json.string_normal (Option.some.inj (same "operator")),
            Expression.rebuildAll_of_toJson arguments arguments' (Option.some.inj (same "args"))]
        | function => cases sameKind
      | function =>
        cases callee' with
        | operator => cases sameKind
        | function =>
          rw [Expression.toJson, Expression.toJson, Json.object_normal_iff] at same
          rw [Expression.rebuild, Expression.rebuild,
            NamedNode.toJson_injective _ _ (Option.some.inj (same "name")),
            Expression.rebuildAll_of_toJson arguments arguments' (Option.some.inj (same "args"))]
    | _ => cases sameCtor
  | .aggregate _ argument _ _, second, same => by
    have sameCtor := Expression.ctorIdx_of_kind (Expression.kind_of_toJson same)
    cases second with
    | aggregate _ argument' _ _ =>
      obtain ⟨rfl, sameArgument, rfl, rfl⟩ := Expression.aggregate_of_toJson same
      rw [Expression.rebuild, Expression.rebuild,
        Expression.rebuild_of_toJson argument argument' sameArgument]
    | _ => cases sameCtor
  | .existence _ input, second, same => by
    have sameCtor := Expression.ctorIdx_of_kind (Expression.kind_of_toJson same)
    cases second with
    | existence _ input' =>
      rw [Expression.toJson, Expression.toJson, Json.object_normal_iff] at same
      rw [Expression.rebuild, Expression.rebuild,
        Json.bool_normal (Option.some.inj (same "not")),
        Operation.rebuild_of_toJson input input' (Option.some.inj (same "input"))]
    | _ => cases sameCtor
  | .wildcard, second, same => by
    have sameCtor := Expression.ctorIdx_of_kind (Expression.kind_of_toJson same)
    cases second with
    | wildcard => rfl
    | _ => cases sameCtor
termination_by structural first => first

theorem Operation.rebuildAll_of_toJson : ∀ first second : List Operation,
    (Json.array (Operation.allToJson first)).normal
      = (Json.array (Operation.allToJson second)).normal →
    Operation.rebuildAll .ofData first = Operation.rebuildAll .ofData second
  | [], [], _ => rfl
  | operation :: rest, operation' :: rest', same => by
    obtain ⟨head, others⟩ := Json.array_cons same
    rw [Operation.rebuildAll, Operation.rebuildAll,
      Operation.rebuild_of_toJson operation operation' head,
      Operation.rebuildAll_of_toJson rest rest' others]
termination_by structural first => first

theorem Expression.rebuildAll_of_toJson : ∀ first second : List Expression,
    (Json.array (Expression.allToJson first)).normal
      = (Json.array (Expression.allToJson second)).normal →
    Expression.rebuildAll .ofData first = Expression.rebuildAll .ofData second
  | [], [], _ => rfl
  | expression :: rest, expression' :: rest', same => by
    obtain ⟨head, others⟩ := Json.array_cons same
    rw [Expression.rebuildAll, Expression.rebuildAll,
      Expression.rebuild_of_toJson expression expression' head,
      Expression.rebuildAll_of_toJson rest rest' others]
termination_by structural first => first

theorem BoundAggregate.rebuildAll_of_toJson : ∀ first second : List BoundAggregate,
    (Json.array (BoundAggregate.allToJson first)).normal
      = (Json.array (BoundAggregate.allToJson second)).normal →
    BoundAggregate.rebuildAll .ofData first = BoundAggregate.rebuildAll .ofData second
  | [], [], _ => rfl
  | [], ⟨_, _⟩ :: _, same => by cases same
  | ⟨_, expression⟩ :: rest, ⟨_, expression'⟩ :: rest', same => by
    obtain ⟨head, others⟩ := Json.array_cons same
    have members := Json.object_normal_iff.1 head
    rw [BoundAggregate.rebuildAll, BoundAggregate.rebuildAll,
      Variable.toJson_injective _ _ (Option.some.inj (members "variable")),
      Expression.rebuild_of_toJson expression expression' (Option.some.inj (members "expression")),
      BoundAggregate.rebuildAll_of_toJson rest rest' others]
termination_by structural first => first

end

/-! ### Data in normal form -/

/-- The kind of an operator does not depend on data. -/
private theorem Operator.typeName_rebuild (operator : Operator) :
    (operator.rebuild .ofData).typeName = operator.typeName := by
  cases operator with
  | wrap wrapper => cases wrapper <;> rfl
  | combine how => cases how <;> rfl
  | leftJoin _ _ condition => cases condition <;> rfl
  | deleteInsert _ _ scope => cases scope <;> rfl
  | _ => rfl

mutual

/-- An operation has the same JSON form with its data in normal form. -/
theorem Operation.toJson_rebuild : ∀ operation : Operation,
    (operation.rebuild .ofData).toJson.normal = operation.toJson.normal
  | ⟨operator, metadata⟩ => by
    show (Operation.toJson ⟨operator.rebuild .ofData, metadata.map Metadata.normal⟩).normal = _
    rw [Operation.toJson, Operation.toJson, Json.object_normal_iff, Operator.typeName_rebuild]
    refine .append (.cons rfl (Operator.members_rebuild operator)) (.optional ?_)
    cases metadata with
    | none => rfl
    | some metadata => exact congrArg some metadata.toJson_normal

theorem Operator.members_rebuild : ∀ operator : Operator,
    SameMembers (operator.rebuild .ofData).members operator.members
  | .bgp patterns => by
    rw [Operator.rebuild, map_pattern_ofData]
    exact .refl _
  | .values .. | .nop | .path .. | .manage _ => .refl _
  | .wrap _ input => .cons (Operation.toJson_rebuild input) (.refl _)
  | .filter input condition =>
    .cons (Operation.toJson_rebuild input) (.cons (Expression.toJson_rebuild condition) (.refl _))
  | .extend input _ value =>
    .cons (Operation.toJson_rebuild input)
      (.cons rfl (.cons (Expression.toJson_rebuild value) (.refl _)))
  | .group input _ aggregates =>
    .cons (Operation.toJson_rebuild input) (.cons rfl
      (.cons (congrArg Json.array (BoundAggregate.allToJson_rebuild aggregates)) (.refl _)))
  | .orderBy input keys =>
    .cons (Operation.toJson_rebuild input)
      (.cons (congrArg Json.array (Expression.allToJson_rebuild keys)) (.refl _))
  | .construct input template => by
    rw [Operator.rebuild, map_pattern_ofData]
    exact .cons (Operation.toJson_rebuild input) (.refl _)
  | .combine .updates inputs | .combine .join inputs | .combine .union inputs =>
    .cons (congrArg Json.array (Operation.allToJson_rebuild inputs)) (.refl _)
  | .leftJoin left right none =>
    .cons (Operation.toJson_rebuild left) (.cons (Operation.toJson_rebuild right) (.refl _))
  | .leftJoin left right (some condition) =>
    .cons (Operation.toJson_rebuild left) (.cons (Operation.toJson_rebuild right)
      (.cons (Expression.toJson_rebuild condition) (.refl _)))
  | .minus left right =>
    .cons (Operation.toJson_rebuild left) (.cons (Operation.toJson_rebuild right) (.refl _))
  | .deleteInsert delete insert none => by
    rw [Operator.rebuild, optional_ofData, optional_ofData]
    exact .refl _
  | .deleteInsert delete insert (some scope) => by
    rw [Operator.rebuild, optional_ofData, optional_ofData]
    exact .append (.refl _) (.cons (Operation.toJson_rebuild scope) (.refl _))

theorem Expression.toJson_rebuild : ∀ expression : Expression,
    (expression.rebuild .ofData).toJson.normal = expression.toJson.normal
  | .term _ | .wildcard => rfl
  | .call (.operator _) arguments => by
    show (Expression.toJson (.call _ (Expression.rebuildAll .ofData arguments))).normal = _
    rw [Expression.toJson, Expression.toJson, Json.object_normal_iff]
    exact .cons rfl (.cons rfl
      (.cons (congrArg Json.array (Expression.allToJson_rebuild arguments)) (.refl _)))
  | .call (.function _) arguments => by
    show (Expression.toJson (.call _ (Expression.rebuildAll .ofData arguments))).normal = _
    rw [Expression.toJson, Expression.toJson, Json.object_normal_iff]
    exact .cons rfl (.cons rfl
      (.cons (congrArg Json.array (Expression.allToJson_rebuild arguments)) (.refl _)))
  | .aggregate name argument distinct separator => by
    show (Expression.toJson (.aggregate _ (argument.rebuild .ofData) _ _)).normal = _
    rw [Expression.toJson, Expression.toJson, Json.object_normal_iff]
    exact .cons rfl (.cons rfl (.cons (Expression.toJson_rebuild argument) (.refl _)))
  | .existence _ input => by
    show (Expression.toJson (.existence _ (input.rebuild .ofData))).normal = _
    rw [Expression.toJson, Expression.toJson, Json.object_normal_iff]
    exact .cons rfl (.cons rfl (.cons (Operation.toJson_rebuild input) (.refl _)))

theorem Operation.allToJson_rebuild : ∀ operations : List Operation,
    Json.normalItems (Operation.allToJson (Operation.rebuildAll .ofData operations))
      = Json.normalItems (Operation.allToJson operations)
  | [] => rfl
  | operation :: rest =>
    congrArg₂ List.cons (Operation.toJson_rebuild operation) (Operation.allToJson_rebuild rest)

theorem Expression.allToJson_rebuild : ∀ expressions : List Expression,
    Json.normalItems (Expression.allToJson (Expression.rebuildAll .ofData expressions))
      = Json.normalItems (Expression.allToJson expressions)
  | [] => rfl
  | expression :: rest =>
    congrArg₂ List.cons (Expression.toJson_rebuild expression) (Expression.allToJson_rebuild rest)

theorem BoundAggregate.allToJson_rebuild : ∀ aggregates : List BoundAggregate,
    Json.normalItems (BoundAggregate.allToJson (BoundAggregate.rebuildAll .ofData aggregates))
      = Json.normalItems (BoundAggregate.allToJson aggregates)
  | [] => rfl
  | ⟨_, expression⟩ :: rest =>
    congrArg₂ List.cons
      (Json.object_normal_iff.2
        (.cons rfl (.cons (Expression.toJson_rebuild expression) (.refl _))))
      (BoundAggregate.allToJson_rebuild rest)

end

/-- Two operations have equal JSON forms exactly if they are equal, where data is compared in normal
form. -/
theorem Operation.toJson_normal_iff (first second : Operation) :
    first.toJson.normal = second.toJson.normal ↔ first.normalData = second.normalData := by
  constructor
  · exact rebuild_of_toJson first second
  · intro same
    rw [← toJson_rebuild first, ← toJson_rebuild second]
    exact congrArg (·.toJson.normal) same

/-- Empty metadata is seen in the JSON form. -/
example : (Operation.toJson ⟨.nop, some ⟨.empty, .empty⟩⟩).normal
    ≠ (Operation.toJson ⟨.nop, none⟩).normal := by
  decide +kernel

end QueryAlgebra
