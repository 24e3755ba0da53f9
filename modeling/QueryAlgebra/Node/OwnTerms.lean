import QueryAlgebra.Node

/-! # The terms that belong to a node

Some nodes hold terms and variables of their own: the variables of a projection, the name of a
graph, the cells of inline data, the positions of a pattern. `Node.ownTerms` lists them, a variable
as the term that it is, and `Node.mapOwnTerms` replaces them in that order; where a variable is
required, a replacement by another term is ignored.
-/

namespace QueryAlgebra

/-- Replace a variable; a replacement that is no variable leaves it as it is. -/
def Variable.mapTerm (f : Term → Term) (name : Variable) : Variable :=
  match f (.var name) with
  | .var new => new
  | _ => name

/-- The columns and cells of a row. -/
def rowTerms (row : Row) : List Term :=
  row.entries.flatMap fun entry => [.var ⟨entry.1⟩, entry.2]

/-- Replace the columns and cells of a row; of two cells that come into one column, the later
counts. -/
def mapRow (f : Term → Term) (row : Row) : Row :=
  NameMap.ofList (row.entries.map fun entry =>
    ((Variable.mapTerm f ⟨entry.1⟩).name, f entry.2))

/-- The terms of a wrapper's own. -/
def Wrapper.ownTerms : Wrapper → List Term
  | .project vars => vars.map .var
  | .graph name => [name]
  | .service name _ => [name]
  | .describe terms => terms
  | _ => []

/-- Replace the terms of a wrapper's own. -/
def Wrapper.mapOwnTerms (f : Term → Term) : Wrapper → Wrapper
  | .project vars => .project (vars.map (Variable.mapTerm f))
  | .graph name => .graph (f name)
  | .service name silent => .service (f name) silent
  | .describe terms => .describe (terms.map f)
  | wrapper => wrapper

/-- The terms of an operator's own. -/
def Operator.ownTerms : Operator → List Term
  | .wrap wrapper _ => wrapper.ownTerms
  | .extend _ name _ => [.var name]
  | .group _ keys aggregates => keys.map .var ++ aggregates.map (.var ·.name)
  | .values vars rows => vars.map .var ++ rows.flatMap rowTerms
  | .path subject _ object graph => [subject, object, graph]
  | _ => []

/-- Replace the terms of an operator's own. -/
def Operator.mapOwnTerms (f : Term → Term) : Operator → Operator
  | .wrap wrapper input => .wrap (wrapper.mapOwnTerms f) input
  | .extend input name value => .extend input (name.mapTerm f) value
  | .group input keys aggregates =>
    .group input (keys.map (Variable.mapTerm f))
      (aggregates.map fun bound => ⟨bound.name.mapTerm f, bound.expression⟩)
  | .values vars rows =>
    .values (vars.map (Variable.mapTerm f)) (rows.map (mapRow f))
  | .path subject predicate object graph => .path (f subject) predicate (f object) (f graph)
  | operator => operator

/-- The terms of a pattern. -/
def Pattern.terms (pattern : Pattern) : List Term :=
  [pattern.subject, pattern.predicate, pattern.object, pattern.graph]

/-- The term that an expression is. -/
def Expression.ownTerms : Expression → List Term
  | .term value => [value]
  | _ => []

/-- Replace the term that an expression is. -/
def Expression.mapOwnTerms (f : Term → Term) : Expression → Expression
  | .term value => .term (f value)
  | expression => expression

namespace Node

/-- The terms of a node's own. -/
def ownTerms : Node → List Term
  | .operation op => op.operator.ownTerms
  | .pattern triple => triple.terms
  | .expression value => value.ownTerms
  | .path _ => []

/-- Replace the terms of a node's own. -/
def mapOwnTerms (f : Term → Term) : Node → Node
  | .operation op => .operation ⟨op.operator.mapOwnTerms f, op.metadata⟩
  | .pattern triple => .pattern (triple.mapTerms f)
  | .expression value => .expression (value.mapOwnTerms f)
  | .path way => .path way

end Node

end QueryAlgebra
