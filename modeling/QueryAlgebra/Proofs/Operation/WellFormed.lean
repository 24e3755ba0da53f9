import QueryAlgebra.Iri
import QueryAlgebra.Operation.Canonical
import QueryAlgebra.Proofs.Lifting.WrittenExpressions

/-! # Operations that requests have

The operations of requests are of a limited form: terms stand where they may, paths and negated sets
have members, operators have the arguments that they take, query forms stand at the root or, if they
show variables, below other operators, and updates stand at the root. `Operation.IsRequest` says so,
within given bounds: which names may stand in it, whether IRIs have to be absolute, and whether
patterns may name graphs.
-/

namespace QueryAlgebra

open Surface (AggregateFunction)

/-- What may stand in an operation: the names that are allowed, whether IRIs are absolute and `if`
has three arguments, and whether patterns may name graphs. -/
structure Bounds where
  name : LocalName → Prop
  strict : Prop
  graphs : Prop

/-- The bounds where patterns stand in the default graph. -/
def Bounds.inDefault (bounds : Bounds) : Bounds := { bounds with graphs := False }

/-- The bounds where patterns may name graphs. -/
def Bounds.inGraphs (bounds : Bounds) : Bounds := { bounds with graphs := True }

/-- Bounds that allow at least as much in terms. -/
structure Bounds.TermsLe (bounds wider : Bounds) : Prop where
  name : ∀ name, bounds.name name → wider.name name
  strict : wider.strict → bounds.strict

/-- Bounds that allow at least as much. -/
structure Bounds.Le (bounds wider : Bounds) : Prop extends bounds.TermsLe wider where
  graphs : bounds.graphs → wider.graphs

section

variable (bounds : Bounds)

/-- A node that is named in full if that is asked. -/
def NamedNode.IsFull (node : NamedNode) : Prop := bounds.strict → Iri.isAbsolute node.iri = true

/-- A variable whose name is allowed. -/
def Variable.IsAllowed (name : Variable) : Prop := bounds.name (.var name.name)

namespace Term

/-- A term that may be a predicate or name a graph. -/
def IsName : Term → Prop
  | .var name => name.IsAllowed bounds
  | .iri node => node.IsFull bounds
  | _ => False

/-- A term that may be a subject or object. -/
def IsNode : Term → Prop
  | .iri node => node.IsFull bounds
  | .blank node => bounds.name (.blank node.label)
  | .literal text => text.datatype.IsFull bounds
  | .var name => name.IsAllowed bounds
  | .defaultGraph => False
  | .quad subject predicate object graph =>
    subject.IsNode ∧ predicate.IsName bounds ∧ object.IsNode ∧ graph = .defaultGraph

/-- A term that may be the graph of a pattern. -/
def IsGraph (graph : Term) : Prop := graph = .defaultGraph ∨ bounds.graphs ∧ graph.IsName bounds

/-- A term that may stand in an expression. -/
def IsValue : Term → Prop
  | .iri node => node.IsFull bounds
  | .literal text => text.datatype.IsFull bounds
  | .var name => name.IsAllowed bounds
  | _ => False

end Term

/-- A pattern whose terms may stand where they do. -/
structure Pattern.WellFormed (pattern : Pattern) : Prop where
  subject : pattern.subject.IsNode bounds
  predicate : pattern.predicate.IsName bounds
  object : pattern.object.IsNode bounds
  graph : pattern.graph.IsGraph bounds

/-- A row whose columns have allowed names. -/
def Row.WellFormed (row : Row) : Prop :=
  ∀ entry ∈ row.entries, bounds.name (.var entry.1) ∧ entry.2.IsNode bounds

mutual

/-- A path in which sequences, alternatives and negated sets have members. -/
def Path.WellFormed : Path → Prop
  | .link predicate => predicate.IsFull bounds
  | .inverse path => path.WellFormed
  | .seq steps => steps ≠ [] ∧ Path.allWellFormed steps
  | .alt branches => branches ≠ [] ∧ Path.allWellFormed branches
  | .zeroOrMore path => path.WellFormed
  | .oneOrMore path => path.WellFormed
  | .zeroOrOne path => path.WellFormed
  | .negated predicates => predicates ≠ [] ∧ ∀ predicate ∈ predicates, predicate.IsFull bounds

/-- Well-formed paths. -/
def Path.allWellFormed : List Path → Prop
  | [] => True
  | path :: rest => path.WellFormed ∧ Path.allWellFormed rest

end

mutual

/-- An operation that may stand in a group, or only a query that shows variables if `select` is
true. -/
def Operation.WellFormed (select : Bool) : Operation → Prop
  | ⟨operator, _⟩ => operator.WellFormed select

/-- An operator that may stand in a group. -/
def Operator.WellFormed (select : Bool) : Operator → Prop
  | .bgp patterns => select = false ∧ ∀ pattern ∈ patterns, pattern.WellFormed bounds
  | .values vars rows =>
    select = false ∧ (∀ name ∈ vars, name.IsAllowed bounds) ∧ ∀ row ∈ rows, row.WellFormed bounds
  | .nop => False
  | .path subject predicate object graph =>
    select = false ∧ subject.IsNode bounds ∧ predicate.WellFormed bounds ∧ object.IsNode bounds
      ∧ graph.IsGraph bounds
  | .manage _ => False
  | .wrap (.project vars) input =>
    (∀ name ∈ vars, name.IsAllowed bounds) ∧ input.WellFormed false
  | .wrap (.graph name) input => select = false ∧ name.IsName bounds ∧ input.WellFormed false
  | .wrap (.service name _) input => select = false ∧ name.IsName bounds ∧ input.WellFormed false
  | .wrap .distinct input => input.WellFormed true
  | .wrap .reduced input => input.WellFormed true
  | .wrap (.slice _ _) input => input.WellFormed true
  | .wrap (.dataset default named) input =>
    (∀ node ∈ default ++ named, node.IsFull bounds) ∧ input.WellFormed true
  | .wrap .ask _ => False
  | .wrap (.describe _) _ => False
  | .filter input condition =>
    select = false ∧ input.WellFormed false ∧ condition.WellFormed false
  | .extend input name value =>
    select = false ∧ input.WellFormed false ∧ name.IsAllowed bounds ∧ value.WellFormed false
  | .group input keys aggregates =>
    select = false ∧ input.WellFormed false ∧ (∀ name ∈ keys, name.IsAllowed bounds)
      ∧ BoundAggregate.allWellFormed aggregates
  | .orderBy input keys =>
    select = false ∧ input.WellFormed false ∧ Expression.allWellFormed true keys
  | .construct _ _ => False
  | .combine .join inputs => select = false ∧ Operation.allWellFormed inputs
  | .combine .union inputs => select = false ∧ Operation.allWellFormed inputs
  | .combine .updates _ => False
  | .leftJoin left right none =>
    select = false ∧ left.WellFormed false ∧ right.WellFormed false
  | .leftJoin left right (some condition) =>
    select = false ∧ left.WellFormed false ∧ right.WellFormed false ∧ condition.WellFormed false
  | .minus left right => select = false ∧ left.WellFormed false ∧ right.WellFormed false
  | .deleteInsert .. => False

/-- An expression, which may be descending if `key` is true. -/
def Expression.WellFormed (key : Bool) : Expression → Prop
  | .term value => value.IsValue bounds
  | .call (.operator name) arguments =>
    (key = true ∧ name = "desc" ∧ arguments.length = 1
        ∨ (bounds.strict → operatorTakes name arguments.length = true))
      ∧ Expression.allWellFormed false arguments
  | .call (.function name) arguments =>
    name.IsFull bounds ∧ Expression.allWellFormed false arguments
  | .aggregate name argument _ _ =>
    (AggregateFunction.ofName? name).isSome = true
      ∧ (argument = .wildcard ∨ argument.WellFormed false)
  | .existence _ input => input.WellFormed false
  | .wildcard => False

/-- Operations that may stand in a group. -/
def Operation.allWellFormed : List Operation → Prop
  | [] => True
  | operation :: rest => operation.WellFormed false ∧ Operation.allWellFormed rest

/-- Well-formed expressions. -/
def Expression.allWellFormed (key : Bool) : List Expression → Prop
  | [] => True
  | expression :: rest => expression.WellFormed key ∧ Expression.allWellFormed key rest

/-- Well-formed aggregates with allowed names. -/
def BoundAggregate.allWellFormed : List BoundAggregate → Prop
  | [] => True
  | ⟨name, expression⟩ :: rest =>
    (name.IsAllowed bounds ∧ expression.WellFormed false) ∧ BoundAggregate.allWellFormed rest

end

/-- An aggregate with an allowed name. -/
def BoundAggregate.WellFormed (bound : BoundAggregate) : Prop :=
  bound.name.IsAllowed bounds ∧ bound.expression.WellFormed bounds false

namespace Operation

/-- An operation that may stand in a group. -/
abbrev IsPattern (operation : Operation) : Prop := operation.WellFormed bounds false

/-- The operation of a query. -/
inductive IsQuery : Operation → Prop
  | select {operation : Operation} : operation.WellFormed bounds true → IsQuery operation
  | ask {input : Operation} (metadata : Option Metadata) :
    input.IsPattern bounds → IsQuery ⟨.wrap .ask input, metadata⟩
  | describe {input : Operation} {terms : List Term} (metadata : Option Metadata) :
    (∀ term ∈ terms, term.IsName bounds) → input.IsPattern bounds →
    IsQuery ⟨.wrap (.describe terms) input, metadata⟩
  | construct {input : Operation} {template : List Pattern} (metadata : Option Metadata) :
    input.IsPattern bounds → (∀ pattern ∈ template, pattern.WellFormed bounds.inDefault) →
    IsQuery ⟨.construct input template, metadata⟩
  | slice {input : Operation} (start : Nat) (length : Option Nat) (metadata : Option Metadata) :
    IsQuery input → IsQuery ⟨.wrap (.slice start length) input, metadata⟩
  | dataset {input : Operation} {default named : List NamedNode} (metadata : Option Metadata) :
    (∀ node ∈ default ++ named, node.IsFull bounds) → IsQuery input →
    IsQuery ⟨.wrap (.dataset default named) input, metadata⟩

/-- The operation that an update takes its solutions from. -/
inductive IsScope : Operation → Prop
  | pattern {operation : Operation} : operation.IsPattern bounds → IsScope operation
  | dataset {input : Operation} {default named : List NamedNode} (metadata : Option Metadata) :
    (∀ node ∈ default ++ named, node.IsFull bounds) → input.IsPattern bounds →
    IsScope ⟨.wrap (.dataset default named) input, metadata⟩

end Operation

/-- Graphs that are named in full. -/
def GraphTarget.IsFull : GraphTarget → Prop
  | .graph name => name.IsFull bounds
  | _ => True

/-- One graph that is named in full, or the default graph. -/
def GraphTarget.IsSingle : GraphTarget → Prop
  | .default => True
  | .graph name => name.IsFull bounds
  | _ => False

/-- An update of graphs that are named in full. -/
def GraphAction.WellFormed : GraphAction → Prop
  | .load source destination _ =>
    source.IsFull bounds ∧ ∀ node ∈ destination, node.IsFull bounds
  | .clear target _ => target.IsFull bounds
  | .drop target _ => target.IsFull bounds
  | .create graph _ => graph.IsFull bounds
  | .transfer _ source destination _ => source.IsSingle bounds ∧ destination.IsSingle bounds

namespace Operation

/-- The operation of an update. Only where patterns may name graphs, triples are updated. -/
inductive IsUpdate : Operation → Prop
  | triples {delete insert : Option (List Pattern)} {scope : Option Operation}
    (metadata : Option Metadata) : bounds.graphs →
    (∀ template ∈ delete, ∀ pattern ∈ template, pattern.WellFormed bounds) →
    (∀ template ∈ insert, ∀ pattern ∈ template, pattern.WellFormed bounds) →
    (∀ operation ∈ scope, operation.IsScope bounds) →
    IsUpdate ⟨.deleteInsert delete insert scope, metadata⟩
  | graphs {action : GraphAction} (metadata : Option Metadata) :
    action.WellFormed bounds → IsUpdate ⟨.manage action, metadata⟩

/-- The operation of a request. -/
inductive IsRequest : Operation → Prop
  | nothing (metadata : Option Metadata) : IsRequest ⟨.nop, metadata⟩
  | updates {inputs : List Operation} (metadata : Option Metadata) :
    (∀ input ∈ inputs, input.IsUpdate bounds) → IsRequest ⟨.combine .updates inputs, metadata⟩
  | update {operation : Operation} : operation.IsUpdate bounds → IsRequest operation
  | query {operation : Operation} : operation.IsQuery bounds → IsRequest operation

end Operation

end

end QueryAlgebra
