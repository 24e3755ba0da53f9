import QueryAlgebra.Operation.Walk
import QueryAlgebra.Proofs.Operation.WellFormedness

/-! # Well-formed operations that are rebuilt

A rebuilding that treats patterns and paths well makes well-formed operations of well-formed ones
(`Rebuild.Maps.wellFormed`). If it also keeps the forms of queries, it makes operations of queries
of such operations (`Rebuild.Maps.isQuery`). Blank nodes are replaced in this way, and graph names
are taken out of patterns.
-/

namespace QueryAlgebra

/-- Operations that are rebuilt as they are, are rebuilt so together. -/
theorem Operation.rebuildAll_eq {change : Rebuild} {operations : List Operation}
    (all : ∀ operation ∈ operations, operation.rebuild change = operation) :
    rebuildAll change operations = operations := by
  induction operations with
  | nil => rw [rebuildAll]
  | cons head rest ih =>
    rw [rebuildAll, all head (List.mem_cons_self ..),
      ih fun operation member => all operation (List.mem_cons_of_mem _ member)]

/-- Expressions that are rebuilt as they are, are rebuilt so together. -/
theorem Expression.rebuildAll_eq {change : Rebuild} {expressions : List Expression}
    (all : ∀ expression ∈ expressions, expression.rebuild change = expression) :
    rebuildAll change expressions = expressions := by
  induction expressions with
  | nil => rw [rebuildAll]
  | cons head rest ih =>
    rw [rebuildAll, all head (List.mem_cons_self ..),
      ih fun expression member => all expression (List.mem_cons_of_mem _ member)]

/-- Whether the operator itself matches patterns or a path, which may name a graph. -/
def Operator.isMatching : Operator → Bool
  | .bgp _ => true
  | .path .. => true
  | _ => false

/-- What a rebuilding makes of patterns and paths is well-formed within other bounds, and it keeps
all other operations well-formed. -/
structure Rebuild.Maps (change : Rebuild) (before after : Bounds) : Prop where
  terms : before.TermsLe after
  expression : change.expression = id
  closed : ∀ {select : Bool} {operator : Operator}, change.closed operator = true →
    operator.WellFormed before select → operator.WellFormed after select
  bgp : ∀ {patterns : List Pattern} (metadata : Option Metadata),
    (∀ pattern ∈ patterns, pattern.WellFormed before) →
    (change.operation ⟨.bgp (patterns.map (change.pattern .bgp)), metadata⟩).IsPattern after
  path : ∀ {subject : Term} {predicate : Path} {object graph : Term} (metadata : Option Metadata),
    subject.IsNode before → predicate.WellFormed before → object.IsNode before →
    graph.IsGraph before →
    (change.operation ⟨.path subject predicate object graph, metadata⟩).IsPattern after
  operation : ∀ {select : Bool} {operation : Operation}, operation.operator.isMatching = false →
    operation.WellFormed after select → (change.operation operation).WellFormed after select

namespace Rebuild.Maps

variable {change : Rebuild} {before after : Bounds}

mutual

theorem wellFormed (maps : change.Maps before after) {select : Bool} : ∀ operation : Operation,
    operation.WellFormed before select → (operation.rebuild change).WellFormed after select
  | ⟨operator, metadata⟩, isWellFormed => by
    rw [Operation.rebuild]
    split
    · rename_i isClosed
      exact maps.closed isClosed isWellFormed
    · cases matching : operator.isMatching with
      | false =>
        have others : (operator.rebuild change).isMatching = false := by
          cases operator with
          | bgp | path => cases matching
          | leftJoin _ _ condition => cases condition <;> rfl
          | deleteInsert _ _ scope => cases scope <;> rfl
          | _ => rfl
        exact maps.operation others (Rebuild.Maps.operator maps operator matching isWellFormed)
      | true =>
        cases operator with
        | bgp patterns =>
          obtain ⟨rfl, ofPatterns⟩ := isWellFormed
          exact maps.bgp metadata ofPatterns
        | path subject predicate object graph =>
          obtain ⟨rfl, ofSubject, ofPredicate, ofObject, ofGraph⟩ := isWellFormed
          exact maps.path metadata ofSubject ofPredicate ofObject ofGraph
        | _ => cases matching

/-- An operator with its parts rebuilt. -/
theorem operator (maps : change.Maps before after) {select : Bool} : ∀ operator : Operator,
    operator.isMatching = false → operator.WellFormed before select →
    (operator.rebuild change).WellFormed after select
  | .values _ _, _, ⟨group, vars, rows⟩ =>
    ⟨group, fun name member => maps.terms.name _ (vars name member),
      fun row member => maps.terms.row (rows row member)⟩
  | .wrap (.project _) _, _, ⟨vars, input⟩ =>
    ⟨fun name member => maps.terms.name _ (vars name member), Rebuild.Maps.wellFormed maps _ input⟩
  | .wrap (.graph _) _, _, ⟨group, name, input⟩ =>
    ⟨group, maps.terms.isName name, Rebuild.Maps.wellFormed maps _ input⟩
  | .wrap (.service _ _) _, _, ⟨group, name, input⟩ =>
    ⟨group, maps.terms.isName name, Rebuild.Maps.wellFormed maps _ input⟩
  | .wrap .distinct input, _, isWellFormed => Rebuild.Maps.wellFormed maps input isWellFormed
  | .wrap .reduced input, _, isWellFormed => Rebuild.Maps.wellFormed maps input isWellFormed
  | .wrap (.slice _ _) input, _, isWellFormed => Rebuild.Maps.wellFormed maps input isWellFormed
  | .wrap (.dataset _ _) _, _, ⟨nodes, input⟩ =>
    ⟨fun node member => maps.terms.isFull node (nodes node member),
      Rebuild.Maps.wellFormed maps _ input⟩
  | .filter _ _, _, ⟨group, input, condition⟩ =>
    ⟨group, Rebuild.Maps.wellFormed maps _ input, Rebuild.Maps.ofExpression maps _ condition⟩
  | .extend _ _ _, _, ⟨group, input, name, value⟩ =>
    ⟨group, Rebuild.Maps.wellFormed maps _ input, maps.terms.name _ name,
      Rebuild.Maps.ofExpression maps _ value⟩
  | .group _ _ _, _, ⟨group, input, keys, aggregates⟩ =>
    ⟨group, Rebuild.Maps.wellFormed maps _ input,
      fun name member => maps.terms.name _ (keys name member),
      Rebuild.Maps.ofAggregates maps _ aggregates⟩
  | .orderBy _ _, _, ⟨group, input, keys⟩ =>
    ⟨group, Rebuild.Maps.wellFormed maps _ input, (Rebuild.Maps.ofExpressions maps _ keys).1⟩
  | .combine .join _, _, ⟨group, inputs⟩ => ⟨group, Rebuild.Maps.ofOperations maps _ inputs⟩
  | .combine .union _, _, ⟨group, inputs⟩ => ⟨group, Rebuild.Maps.ofOperations maps _ inputs⟩
  | .leftJoin _ _ none, _, ⟨group, left, right⟩ =>
    ⟨group, Rebuild.Maps.wellFormed maps _ left, Rebuild.Maps.wellFormed maps _ right⟩
  | .leftJoin _ _ (some _), _, ⟨group, left, right, condition⟩ =>
    ⟨group, Rebuild.Maps.wellFormed maps _ left, Rebuild.Maps.wellFormed maps _ right,
      Rebuild.Maps.ofExpression maps _ condition⟩
  | .minus _ _, _, ⟨group, left, right⟩ =>
    ⟨group, Rebuild.Maps.wellFormed maps _ left, Rebuild.Maps.wellFormed maps _ right⟩

theorem ofExpression (maps : change.Maps before after) {key : Bool} : ∀ expression : Expression,
    expression.WellFormed before key → (expression.rebuild change).WellFormed after key
  | .term _, value => by
    rw [Expression.rebuild, maps.expression]
    exact maps.terms.isValue value
  | .call (.operator _) arguments, ⟨takes, ofArguments⟩ => by
    obtain ⟨rebuilt, sameLength⟩ := Rebuild.Maps.ofExpressions maps arguments ofArguments
    rw [Expression.rebuild, maps.expression]
    refine ⟨?_, rebuilt⟩
    rw [sameLength]
    exact takes.imp id fun takes strict => takes (maps.terms.strict strict)
  | .call (.function _) arguments, ⟨full, ofArguments⟩ => by
    rw [Expression.rebuild, maps.expression]
    exact ⟨maps.terms.isFull _ full, (Rebuild.Maps.ofExpressions maps arguments ofArguments).1⟩
  | .aggregate _ argument _ _, ⟨known, ofArgument⟩ => by
    rw [Expression.rebuild, maps.expression]
    refine ⟨known, ofArgument.imp (fun wildcard => ?_) (Rebuild.Maps.ofExpression maps argument)⟩
    rw [wildcard, Expression.rebuild, maps.expression]
    rfl
  | .existence _ input, isWellFormed => by
    rw [Expression.rebuild, maps.expression]
    exact Rebuild.Maps.wellFormed maps input isWellFormed

theorem ofOperations (maps : change.Maps before after) : ∀ operations : List Operation,
    Operation.allWellFormed before operations →
    Operation.allWellFormed after (Operation.rebuildAll change operations)
  | [], _ => trivial
  | _ :: _, ⟨first, rest⟩ =>
    ⟨Rebuild.Maps.wellFormed maps _ first, Rebuild.Maps.ofOperations maps _ rest⟩

theorem ofExpressions (maps : change.Maps before after) {key : Bool} :
    ∀ expressions : List Expression, Expression.allWellFormed before key expressions →
    Expression.allWellFormed after key (Expression.rebuildAll change expressions)
      ∧ (Expression.rebuildAll change expressions).length = expressions.length
  | [], _ => ⟨trivial, rfl⟩
  | _ :: _, ⟨first, rest⟩ =>
    ⟨⟨Rebuild.Maps.ofExpression maps _ first, (Rebuild.Maps.ofExpressions maps _ rest).1⟩,
      congrArg (· + 1) (Rebuild.Maps.ofExpressions maps _ rest).2⟩

theorem ofAggregates (maps : change.Maps before after) : ∀ aggregates : List BoundAggregate,
    BoundAggregate.allWellFormed before aggregates →
    BoundAggregate.allWellFormed after (BoundAggregate.rebuildAll change aggregates)
  | [], _ => trivial
  | ⟨_, _⟩ :: _, ⟨⟨name, value⟩, rest⟩ =>
    ⟨⟨maps.terms.name _ name, Rebuild.Maps.ofExpression maps _ value⟩,
      Rebuild.Maps.ofAggregates maps _ rest⟩

end

end Rebuild.Maps

/-- A rebuilding that goes below the forms of queries and keeps them. -/
structure Rebuild.KeepsForms (change : Rebuild) : Prop where
  wrap : ∀ wrapper input, change.closed (.wrap wrapper input) = false
  construct : ∀ input template, change.closed (.construct input template) = false
  template : ∀ pattern, change.pattern .template pattern = pattern
  same : ∀ operator metadata, operator.isMatching = false → operator.isGraph = false →
    change.operation ⟨operator, metadata⟩ = ⟨operator, metadata⟩

namespace Rebuild

variable {change : Rebuild} {before after : Bounds}

/-- A wrapper that is no graph block keeps its place over its input. -/
theorem KeepsForms.rebuild_wrap (keeps : change.KeepsForms) (wrapper : Wrapper)
    (other : ∀ name, wrapper ≠ .graph name) (input : Operation) (metadata : Option Metadata) :
    Operation.rebuild change ⟨.wrap wrapper input, metadata⟩
      = ⟨.wrap wrapper (input.rebuild change), metadata⟩ := by
  rw [Operation.rebuild, keeps.wrap, Operator.rebuild]
  refine keeps.same _ metadata rfl ?_
  cases wrapper <;> first | rfl | exact absurd rfl (other _)

theorem KeepsForms.rebuild_construct (keeps : change.KeepsForms) (input : Operation)
    (template : List Pattern) (metadata : Option Metadata) :
    Operation.rebuild change ⟨.construct input template, metadata⟩
      = ⟨.construct (input.rebuild change) template, metadata⟩ := by
  rw [Operation.rebuild, keeps.construct, Operator.rebuild,
    List.map_congr_left fun pattern _ => keeps.template pattern, List.map_id']
  exact keeps.same _ metadata rfl rfl

/-- The operation of a query is rebuilt below its form. -/
theorem Maps.isQuery (maps : change.Maps before after) (keeps : change.KeepsForms)
    {operation : Operation} (isQuery : operation.IsQuery before) :
    (operation.rebuild change).IsQuery after := by
  induction isQuery with
  | select wellFormed => exact .select (maps.wellFormed _ wellFormed)
  | ask metadata isPattern =>
    rw [keeps.rebuild_wrap .ask nofun]
    exact .ask metadata (maps.wellFormed _ isPattern)
  | describe metadata terms isPattern =>
    rw [keeps.rebuild_wrap (.describe _) nofun]
    exact .describe metadata (fun term member => maps.terms.isName (terms term member))
      (maps.wellFormed _ isPattern)
  | construct metadata isPattern template =>
    rw [keeps.rebuild_construct]
    have le : before.inDefault.Le after.inDefault := ⟨⟨maps.terms.name, maps.terms.strict⟩, id⟩
    exact .construct metadata (maps.wellFormed _ isPattern)
      fun pattern member => le.pattern (template pattern member)
  | slice start length metadata _ ih =>
    rw [keeps.rebuild_wrap (.slice _ _) nofun]
    exact .slice start length metadata ih
  | dataset metadata nodes _ ih =>
    rw [keeps.rebuild_wrap (.dataset _ _) nofun]
    exact .dataset metadata (fun node member => maps.terms.isFull node (nodes node member)) ih

end Rebuild

end QueryAlgebra
