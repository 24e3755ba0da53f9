import QueryAlgebra.NameMap
import QueryAlgebra.Surface.Query

/-! # Writing aggregates where their variables stand

A group carries the values of aggregates in variables, whereas a written query repeats the aggregate
wherever its value is used. `Expression.substitute` puts expressions in place of variables;
patterns and aggregates are not entered. A filter that mentions the value of an aggregate belongs to
the group and not to its pattern.
-/

namespace QueryAlgebra.Surface

namespace Expression

mutual

/-- Put expressions in place of variables. -/
def substitute (values : NameMap Expression) : Expression → Expression
  | .var name => (values.find? name.name).getD (.var name)
  | .iri resource => .iri resource
  | .literal text => .literal text
  | .binary op left right => .binary op (substitute values left) (substitute values right)
  | .unary op operand => .unary op (substitute values operand)
  | .call function arguments distinct =>
    .call function (substituteAll values arguments) distinct
  | .ifElse condition positive negative =>
    .ifElse (substitute values condition) (substitute values positive)
      (substitute values negative)
  | .coalesce arguments => .coalesce (substituteAll values arguments)
  | .among value choices negated =>
    .among (substitute values value) (substituteAll values choices) negated
  | .existence negated pattern => .existence negated pattern
  | .aggregate function argument distinct separator =>
    .aggregate function argument distinct separator
  | .bracketed inner => .bracketed (substitute values inner)

/-- Put expressions in place of variables in every expression of a list. -/
def substituteAll (values : NameMap Expression) : List Expression → List Expression
  | [] => []
  | value :: rest => substitute values value :: substituteAll values rest

end

mutual

/-- Whether a variable stands where an expression would be put in its place. -/
def mentions (values : NameMap Expression) : Expression → Bool
  | .var name => (values.find? name.name).isSome
  | .iri _ => false
  | .literal _ => false
  | .binary _ left right => mentions values left || mentions values right
  | .unary _ operand => mentions values operand
  | .call _ arguments _ => mentionsAny values arguments
  | .ifElse condition positive negative =>
    mentions values condition || mentions values positive || mentions values negative
  | .coalesce arguments => mentionsAny values arguments
  | .among value choices _ => mentions values value || mentionsAny values choices
  | .existence .. => false
  | .aggregate .. => false
  | .bracketed inner => mentions values inner

/-- Whether an expression of a list mentions one of the variables. -/
def mentionsAny (values : NameMap Expression) : List Expression → Bool
  | [] => false
  | value :: rest => mentions values value || mentionsAny values rest

end

end Expression

namespace Pattern

mutual

/-- The filters of a pattern, and of the groups in it, that mention the value of an aggregate, with
the aggregates written out. -/
def groupConditions (aggregates : NameMap Expression) : Pattern → List Expression
  | .filter condition _ =>
    if condition.mentions aggregates then [condition.substitute aggregates] else []
  | .group elements _ => allGroupConditions aggregates elements
  | _ => []

/-- The filters of all patterns that mention the value of an aggregate. -/
def allGroupConditions (aggregates : NameMap Expression) : List Pattern → List Expression
  | [] => []
  | pattern :: rest => groupConditions aggregates pattern ++ allGroupConditions aggregates rest

end

mutual

/-- A pattern without the filters that mention the value of an aggregate. -/
def withoutGroupConditions (aggregates : NameMap Expression) : Pattern → List Pattern
  | .filter condition span =>
    if condition.mentions aggregates then [] else [.filter condition span]
  | .group elements span => [.group (allWithoutGroupConditions aggregates elements) span]
  | other => [other]

/-- All patterns without the filters that mention the value of an aggregate. -/
def allWithoutGroupConditions (aggregates : NameMap Expression) : List Pattern → List Pattern
  | [] => []
  | pattern :: rest =>
    withoutGroupConditions aggregates pattern ++ allWithoutGroupConditions aggregates rest

end

/-- The elements of a group of patterns; the group is not written twice around a lone group. -/
def groupElements : List Pattern → List Pattern
  | [.group elements _] => elements
  | patterns => patterns

/-- Patterns as one group. -/
def groupOf (patterns : List Pattern) : Pattern := .group (groupElements patterns) .none

/-- Put a pattern before others, triples together with triples. -/
def consMerged : Pattern → List Pattern → List Pattern
  | .bgp triples span, .bgp more _ :: rest => .bgp (triples ++ more) span :: rest
  | pattern, rest => pattern :: rest

/-- Write adjacent triples together. -/
def mergeTriples : List Pattern → List Pattern
  | [] => []
  | pattern :: rest => consMerged pattern (mergeTriples rest)

end Pattern

end QueryAlgebra.Surface
