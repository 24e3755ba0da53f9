import QueryAlgebra.Surface.Operators
import QueryAlgebra.Surface.Triple

/-! # Queries as they are written

Patterns, expressions and subqueries contain each other: a pattern may be a subquery, an expression
may ask whether a pattern has a solution, and both filters and clauses of queries hold expressions.
The four forms of queries and the clauses around them follow.
-/

namespace QueryAlgebra.Surface

/-- The graphs that a query is asked of. -/
structure Dataset where
  default : List Iri
  named : List Iri
deriving DecidableEq, Inhabited

/-- Whether no graph is named. -/
def Dataset.isEmpty (dataset : Dataset) : Bool :=
  dataset.default.isEmpty && dataset.named.isEmpty

/-- What is called in an expression. -/
inductive Function where
  | builtin (function : Builtin)
  | named (iri : Iri)
deriving DecidableEq, Inhabited

/-- The direction of an order key. -/
inductive Direction where
  | ascending
  | descending
deriving DecidableEq, Inhabited

/-- What is done about repeated solutions. -/
inductive Duplicates where
  | keep
  | distinct
  | reduced
deriving DecidableEq, Inhabited

mutual

/-- An expression. -/
inductive Expression where
  | var (name : Variable)
  | iri (iri : Iri)
  | literal (literal : Literal)
  | binary (op : BinaryOp) (left right : Expression)
  | unary (op : UnaryOp) (operand : Expression)
  | call (function : Function) (arguments : List Expression) (distinct : Bool)
  | ifElse (condition positive negative : Expression)
  | coalesce (arguments : List Expression)
  | among (value : Expression) (choices : List Expression) (negated : Bool)
  | existence (negated : Bool) (pattern : Pattern)
  | aggregate (function : AggregateFunction) (argument : Option Expression) (distinct : Bool)
      (separator : Option String)
  | bracketed (inner : Expression)

/-- A graph pattern. -/
inductive Pattern where
  | bgp (triples : List Triple) (span : Span)
  | group (elements : List Pattern) (span : Span)
  | optional (pattern : Pattern) (span : Span)
  | minus (pattern : Pattern) (span : Span)
  | union (left right : Pattern) (span : Span)
  | filter (condition : Expression) (span : Span)
  | bind (value : Expression) (name : Variable) (span : Span)
  | values (data : InlineData) (span : Span)
  | graph (name : VarOrIri) (pattern : Pattern) (span : Span)
  | service (silent : Bool) (endpoint : VarOrIri) (pattern : Pattern) (span : Span)
  | subquery (query : Select) (span : Span)

/-- A SELECT query. -/
structure Select where
  duplicates : Duplicates
  projection : Projection
  dataset : Option Dataset
  pattern : Pattern
  modifiers : Modifiers

/-- What a SELECT query shows: all variables in scope, or the listed ones. -/
inductive Projection where
  | all
  | items (items : List SelectItem)

/-- A variable that is shown, perhaps with the expression that gives its value. -/
inductive SelectItem where
  | var (name : Variable)
  | computed (value : Expression) (name : Variable)

/-- The clauses after the pattern of a query. -/
structure Modifiers where
  groupBy : Option (List GroupKey)
  having : List Expression
  orderBy : List OrderKey
  limit : Option Nat
  offset : Option Nat
  values : Option InlineData

/-- A key of a GROUP BY clause. -/
inductive GroupKey where
  | var (name : Variable)
  | computed (value : Expression) (name : Option Variable)

/-- A key of an ORDER BY clause. -/
inductive OrderKey where
  | var (name : Variable) (direction : Direction)
  | computed (value : Expression) (direction : Direction)

end

namespace Modifiers

/-- No clauses. -/
def none : Modifiers := ⟨.none, [], [], .none, .none, .none⟩

end Modifiers

namespace Pattern

instance : Inhabited Pattern := ⟨.group [] .none⟩

/-- The range of a pattern. -/
def span : Pattern → Span
  | .bgp _ span => span
  | .group _ span => span
  | .optional _ span => span
  | .minus _ span => span
  | .union _ _ span => span
  | .filter _ span => span
  | .bind _ _ span => span
  | .values _ span => span
  | .graph _ _ span => span
  | .service _ _ _ span => span
  | .subquery _ span => span

/-- The name of the kind of pattern. -/
def kindName : Pattern → String
  | .bgp .. => "bgp"
  | .group .. => "group"
  | .optional .. => "optional"
  | .minus .. => "minus"
  | .union .. => "union"
  | .filter .. => "filter"
  | .bind .. => "bind"
  | .values .. => "values"
  | .graph .. => "graph"
  | .service .. => "service"
  | .subquery .. => "query"

end Pattern

/-- A CONSTRUCT query; without a template, its pattern is the template. -/
structure Construct where
  template : Option (List Triple)
  dataset : Option Dataset
  pattern : Pattern
  modifiers : Modifiers

/-- An ASK query. -/
structure Ask where
  dataset : Option Dataset
  pattern : Pattern
  modifiers : Modifiers

/-- What a DESCRIBE query is about: all variables in scope, or the listed resources. -/
inductive DescribeTarget where
  | all
  | resources (resources : List VarOrIri)
deriving DecidableEq, Inhabited

/-- A DESCRIBE query. -/
structure Describe where
  target : DescribeTarget
  dataset : Option Dataset
  pattern : Option Pattern
  modifiers : Modifiers

end QueryAlgebra.Surface
