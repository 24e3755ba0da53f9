import QueryAlgebra.Lifting.Collected
import QueryAlgebra.Lifting.Substitution
import QueryAlgebra.Lifting.Triples
import QueryAlgebra.Operation.Scope

/-! # The clauses of a query

Below a query form stands the pattern of the query, and what was found on the way to it becomes its
clauses. Aggregates are written where their variables stand. A value bound on the way is shown by
the form, or computes a key of the group, or else is bound at the end of the pattern. Filters that
mention the value of an aggregate are the conditions of the group.
-/

namespace QueryAlgebra

/-- Values that are bound to variables, the innermost first. -/
abbrev Extensions := List (Variable × Surface.Expression)

namespace Extensions

/-- The first value bound to a variable, and what is bound without it. -/
def take (name : Variable) : Extensions → Option Surface.Expression × Extensions
  | [] => (none, [])
  | entry :: rest =>
    if entry.1 = name then (some entry.2, rest)
    else
      let taken := take name rest
      (taken.1, entry :: taken.2)

/-- The keys of a group, computed where a value is bound to them. -/
def groupKeys : List Variable → Extensions → List Surface.GroupKey × Extensions
  | [], extensions => ([], extensions)
  | name :: names, extensions =>
    let taken := take name extensions
    let key := match taken.1 with
      | some value => .computed value (some name)
      | none => .var name
    let others := groupKeys names taken.2
    (key :: others.1, others.2)

/-- What a query shows, computed where a value is bound to a variable or an aggregate has it. -/
def selectItems (aggregates : NameMap Surface.Expression) :
    List Variable → Extensions → List Surface.SelectItem × Extensions
  | [], extensions => ([], extensions)
  | name :: names, extensions =>
    let taken := take name extensions
    let item := match taken.1.or (aggregates.find? name.name) with
      | some value => .computed value name
      | none => .var name
    let others := selectItems aggregates names taken.2
    (item :: others.1, others.2)

/-- The values bound in a pattern. -/
def binds (extensions : Extensions) : List Surface.Pattern :=
  extensions.map fun entry => .bind entry.2 entry.1 .none

end Extensions

/-- A key of an order; a variable is not computed. -/
def Surface.OrderKey.of (direction : Surface.Direction) : Surface.Expression → Surface.OrderKey
  | .var name => .var name direction
  | value => .computed value direction

namespace Found

/-- Write the aggregates. -/
def writtenAggregates :
    List (Variable × Collecting Surface.Expression) →
      Collecting (List (String × Surface.Expression))
  | [] => pure []
  | (name, value) :: rest => do
    let value ← value
    let others ← writtenAggregates rest
    pure ((name.name, value) :: others)

/-- Write the values bound on the way. -/
def writtenExtensions (aggregates : NameMap Surface.Expression) :
    List (Variable × Collecting Surface.Expression) → Collecting Extensions
  | [] => pure []
  | (name, value) :: rest => do
    let value ← value
    let others ← writtenExtensions aggregates rest
    pure ((name, value.substitute aggregates) :: others)

/-- Write the keys of an order. -/
def writtenOrder (aggregates : NameMap Surface.Expression) :
    List (Surface.Direction × Collecting Surface.Expression) → Collecting (List Surface.OrderKey)
  | [] => pure []
  | (direction, value) :: rest => do
    let value ← value
    let others ← writtenOrder aggregates rest
    pure (.of direction (value.substitute aggregates) :: others)

end Found

/-- A query before its form is added. -/
structure QueryScope where
  elements : List Surface.Pattern
  extensions : Extensions
  aggregates : NameMap Surface.Expression
  modifiers : Surface.Modifiers

namespace QueryScope

/-- The clauses of what was found on the way to the elements of a pattern. Groups and orders may
also be found in the expressions of aggregates and bound values. -/
def ofFound (elements : List Surface.Pattern) (found : List Found) :
    Except LiftingError QueryScope := do
  let (entries, inAggregates) ← (Found.writtenAggregates (Found.aggregates found)).outcome
  let aggregates := NameMap.ofList entries
  let (extensions, inExtensions) ←
    (Found.writtenExtensions aggregates (Found.extensions found).reverse).outcome
  let all := found ++ inAggregates ++ inExtensions
  let keys := Found.groupKeys all
  let groupBy := Extensions.groupKeys keys extensions
  let (orderBy, _) ← (Found.writtenOrder aggregates (Found.orderKeys all)).outcome
  pure
    { elements := Surface.Pattern.groupElements
        (Surface.Pattern.allWithoutGroupConditions aggregates elements)
      extensions := groupBy.2
      aggregates
      modifiers :=
        { Surface.Modifiers.none with
          groupBy := if keys.isEmpty then none else some groupBy.1
          having := Surface.Pattern.allGroupConditions aggregates elements
          orderBy } }

/-- Whether solutions are grouped. -/
def isGrouped (scope : QueryScope) : Bool :=
  scope.modifiers.groupBy.isSome || !scope.aggregates.isEmpty

/-- Whether neither a pattern nor a value is left to write. -/
def isEmpty (scope : QueryScope) : Bool := scope.elements.isEmpty && scope.extensions.isEmpty

/-- The pattern of the query, ending with the values that no clause took. -/
def pattern (scope : QueryScope) : Surface.Pattern :=
  Surface.Pattern.groupOf (scope.elements ++ scope.extensions.binds)

end QueryScope

/-- Whether variables are those in scope of an operation, each once. -/
def Operation.shows (input : Operation) (vars : List Variable) : Bool :=
  let inScope := input.inScope
  decide vars.Nodup && inScope.length == vars.length && inScope.all vars.contains

/-- Whether an item is computed. -/
def Surface.SelectItem.isComputed : Surface.SelectItem → Bool
  | .var _ => false
  | .computed .. => true

namespace QueryScope

/-- A query that shows variables, which are all that are in scope if `all` is true. -/
def select (scope : QueryScope) (all : Bool) (vars : List Variable) : Surface.Select :=
  let shown := scope.extensions.selectItems scope.aggregates vars
  let star := !shown.1.any (·.isComputed) && !scope.isGrouped && all
  { duplicates := .keep
    projection := if star then .all else .items shown.1
    dataset := none
    pattern := { scope with extensions := shown.2 }.pattern
    modifiers := scope.modifiers }

/-- A query for whether there is a solution. -/
def ask (scope : QueryScope) : Surface.Ask := ⟨none, scope.pattern, scope.modifiers⟩

/-- A query for the triples of a template. -/
def construct (scope : QueryScope) (template : List Surface.Triple) : Surface.Construct :=
  ⟨some template, none, scope.pattern, scope.modifiers⟩

/-- A query for what is known about resources. -/
def describe (scope : QueryScope) (target : Surface.DescribeTarget) : Surface.Describe :=
  ⟨target, none, if scope.isEmpty then none else some scope.pattern, scope.modifiers⟩

end QueryScope

/-- Write where variables or IRIs have to stand. -/
def Term.allWrittenVarOrIri : List Term → Except LiftingError (List Surface.VarOrIri)
  | [] => pure []
  | term :: rest => do
    let name ← term.writtenVarOrIri
    let names ← allWrittenVarOrIri rest
    pure (name :: names)

/-- Write what a query is about: all variables in scope, or resources. -/
def Operation.describeTarget (input : Operation) (terms : List Term) :
    Except LiftingError Surface.DescribeTarget :=
  if terms.all (·.isVariable) && input.shows (terms.filterMap Term.asVariable?) then .ok .all
  else do
    let resources ← Term.allWrittenVarOrIri terms
    pure (.resources resources)

/-- Write a template, whose patterns have to stand in the default graph. -/
def Pattern.writtenTemplate : List Pattern → Except LiftingError (List Surface.Triple)
  | [] => pure []
  | pattern :: rest => do
    if !pattern.graph.isDefaultGraph then throw (.unwritable .templateInGraph)
    let triple ← pattern.writtenTriple
    let triples ← writtenTemplate rest
    pure (triple :: triples)

end QueryAlgebra
