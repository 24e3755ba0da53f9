import QueryAlgebra.Surface.Request

/-! # The patterns in what is written

A pattern, an expression and a query are made of patterns at any depth: the members of groups, what
EXISTS asks about, and the patterns of subqueries with those in their clauses. `within` lists them
all, a pattern itself before those inside it.
-/

namespace QueryAlgebra.Surface

mutual

/-- The patterns in an expression. -/
def Expression.within : Expression → List Pattern
  | .var _ => []
  | .iri _ => []
  | .literal _ => []
  | .binary _ left right => left.within ++ right.within
  | .unary _ operand => operand.within
  | .call _ arguments _ => Expression.withinAll arguments
  | .ifElse condition positive negative => condition.within ++ positive.within ++ negative.within
  | .coalesce arguments => Expression.withinAll arguments
  | .among value choices _ => value.within ++ Expression.withinAll choices
  | .existence _ pattern => pattern.within
  | .aggregate _ none _ _ => []
  | .aggregate _ (some argument) _ _ => argument.within
  | .bracketed inner => inner.within

/-- The patterns in a list of expressions. -/
def Expression.withinAll : List Expression → List Pattern
  | [] => []
  | expression :: rest => expression.within ++ Expression.withinAll rest

/-- A pattern and the patterns inside it. -/
def Pattern.within : Pattern → List Pattern
  | .bgp triples span => [.bgp triples span]
  | .group elements span => .group elements span :: Pattern.withinAll elements
  | .optional pattern span => .optional pattern span :: pattern.within
  | .minus pattern span => .minus pattern span :: pattern.within
  | .union left right span => .union left right span :: (left.within ++ right.within)
  | .filter condition span => .filter condition span :: condition.within
  | .bind value name span => .bind value name span :: value.within
  | .values data span => [.values data span]
  | .graph name pattern span => .graph name pattern span :: pattern.within
  | .service silent endpoint pattern span =>
    .service silent endpoint pattern span :: pattern.within
  | .subquery query span => .subquery query span :: query.within

/-- The elements of a group and the patterns inside them. -/
def Pattern.withinAll : List Pattern → List Pattern
  | [] => []
  | pattern :: rest => pattern.within ++ Pattern.withinAll rest

/-- The patterns in a SELECT query. -/
def Select.within : Select → List Pattern
  | ⟨_, projection, _, pattern, modifiers⟩ =>
    projection.within ++ pattern.within ++ modifiers.within

/-- The patterns in a projection. -/
def Projection.within : Projection → List Pattern
  | .all => []
  | .items items => SelectItem.withinAll items

/-- The patterns in the items of a projection. -/
def SelectItem.withinAll : List SelectItem → List Pattern
  | [] => []
  | .var _ :: rest => SelectItem.withinAll rest
  | .computed value _ :: rest => value.within ++ SelectItem.withinAll rest

/-- The patterns in the clauses after a pattern. -/
def Modifiers.within : Modifiers → List Pattern
  | ⟨none, having, orderBy, _, _, _⟩ => Expression.withinAll having ++ OrderKey.withinAll orderBy
  | ⟨some keys, having, orderBy, _, _, _⟩ =>
    GroupKey.withinAll keys ++ (Expression.withinAll having ++ OrderKey.withinAll orderBy)

/-- The patterns in the keys of a GROUP BY clause. -/
def GroupKey.withinAll : List GroupKey → List Pattern
  | [] => []
  | .var _ :: rest => GroupKey.withinAll rest
  | .computed value _ :: rest => value.within ++ GroupKey.withinAll rest

/-- The patterns in the keys of an ORDER BY clause. -/
def OrderKey.withinAll : List OrderKey → List Pattern
  | [] => []
  | .var _ _ :: rest => OrderKey.withinAll rest
  | .computed value _ :: rest => value.within ++ OrderKey.withinAll rest

end

/-- A pattern is in itself. -/
theorem Pattern.within_ne_nil (pattern : Pattern) : pattern.within ≠ [] := by
  cases pattern <;> simp [Pattern.within]

/-- The patterns in a query. -/
def Query.within : Query → List Pattern
  | .select query => query.within
  | .construct query => query.pattern.within ++ query.modifiers.within
  | .ask query => query.pattern.within ++ query.modifiers.within
  | .describe query => (query.pattern.map Pattern.within).getD [] ++ query.modifiers.within

/-- Whether a pattern binds variables by expressions or by a subquery. -/
def Pattern.isBinding : Pattern → Bool
  | .bind .. => true
  | .subquery .. => true
  | _ => false

/-- Whether a pattern is a graph block with patterns inside that bind variables. -/
def Pattern.bindsInGraph : Pattern → Bool
  | .graph _ pattern _ => pattern.within.any isBinding
  | _ => false

/-- Whether a query has graph blocks with patterns inside that bind variables. -/
def Query.bindsInGraphs (query : Query) : Bool := query.within.any Pattern.bindsInGraph

end QueryAlgebra.Surface
