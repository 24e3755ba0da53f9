import QueryAlgebra.Json
import QueryAlgebra.NameMap
import QueryAlgebra.Path

/-! # Operations of the query algebra

An operation is an operator applied to its inputs, with metadata that may be attached to it.
Operations and expressions contain each other: expressions stand in filters and bindings, and an
expression may ask whether an operation has a solution.

Operators that take one operation and some arguments of their own are one constructor with a
`Wrapper`, and those that take a list of operations are one constructor with a `Combination`, so
that whatever treats their inputs alike has one case for all of them.

`Operation.join`, `Operation.union` keep lists of inputs flat: an input of the same kind without
metadata contributes its own inputs.
-/

namespace QueryAlgebra

/-- A triple pattern and the graph that it is matched in. -/
structure Pattern where
  subject : Term
  predicate : Term
  object : Term
  graph : Term
deriving DecidableEq, Inhabited

namespace Pattern

/-- The terms of a pattern with the terms inside them. -/
def nestedTerms (pattern : Pattern) : List Term :=
  pattern.subject.nested ++ pattern.predicate.nested ++ pattern.object.nested
    ++ pattern.graph.nested

/-- Replace the four terms of a pattern. -/
def mapTerms (f : Term → Term) (pattern : Pattern) : Pattern :=
  ⟨f pattern.subject, f pattern.predicate, f pattern.object, f pattern.graph⟩

end Pattern

/-- One solution of inline data: the terms of the variables that are bound. -/
abbrev Row := NameMap Term

/-- The graphs that an update is about. -/
inductive GraphTarget where
  | default
  | named
  | all
  | graph (name : NamedNode)
deriving DecidableEq, Inhabited

/-- How one graph goes into another. -/
inductive Transfer where
  | add
  | move
  | copy
deriving DecidableEq, Inhabited

/-- An update of whole graphs. -/
inductive GraphAction where
  | load (source : NamedNode) (destination : Option NamedNode) (silent : Bool)
  | clear (target : GraphTarget) (silent : Bool)
  | drop (target : GraphTarget) (silent : Bool)
  | create (graph : NamedNode) (silent : Bool)
  | transfer (how : Transfer) (source destination : GraphTarget) (silent : Bool)
deriving DecidableEq, Inhabited

/-- An operator on one operation, with arguments that hold no operation. -/
inductive Wrapper where
  | project (vars : List Variable)
  | graph (name : Term)
  | service (name : Term) (silent : Bool)
  | distinct
  | reduced
  | slice (start : Nat) (length : Option Nat)
  | dataset (default named : List NamedNode)
  | ask
  | describe (terms : List Term)
deriving DecidableEq, Inhabited

/-- An operator on a list of operations. -/
inductive Combination where
  | join
  | union
  | updates
deriving DecidableEq, Inhabited

/-- What a call in an expression calls: a built-in operator, or a function named by an IRI. -/
inductive Callee where
  | operator (name : String)
  | function (name : NamedNode)
deriving DecidableEq, Inhabited

/-- A position relative to a node: so many ancestors up, then down by child indices. -/
structure NodeReference where
  up : Nat
  down : List Nat
deriving DecidableEq, Inhabited

/-- The absolute position meant by a reference of the node at `owner`, unless it climbs above the
root. -/
def NodeReference.absolute? (reference : NodeReference) (owner : List Nat) : Option (List Nat) :=
  if reference.up ≤ owner.length then
    some (owner.take (owner.length - reference.up) ++ reference.down)
  else none

/-- What is noted on an operation besides its meaning. -/
structure Metadata where
  data : NameMap Json
  links : NameMap NodeReference
deriving DecidableEq, Inhabited

mutual

/-- An operator applied to its inputs, and the metadata attached to it. -/
structure Operation where
  operator : Operator
  metadata : Option Metadata

/-- The operators of the algebra with their inputs. -/
inductive Operator where
  | bgp (patterns : List Pattern)
  | values (vars : List Variable) (rows : List Row)
  | nop
  | path (subject : Term) (predicate : Path) (object graph : Term)
  | manage (action : GraphAction)
  | wrap (wrapper : Wrapper) (input : Operation)
  | filter (input : Operation) (condition : Expression)
  | extend (input : Operation) (name : Variable) (value : Expression)
  | group (input : Operation) (keys : List Variable) (aggregates : List BoundAggregate)
  | orderBy (input : Operation) (keys : List Expression)
  | construct (input : Operation) (template : List Pattern)
  | combine (how : Combination) (inputs : List Operation)
  | leftJoin (left right : Operation) (condition : Option Expression)
  | minus (left right : Operation)
  | deleteInsert (delete insert : Option (List Pattern)) (scope : Option Operation)

/-- An aggregate and the variable that carries its value out of a group. -/
structure BoundAggregate where
  name : Variable
  expression : Expression

/-- An expression over the variables of a solution. -/
inductive Expression where
  | term (value : Term)
  | call (callee : Callee) (arguments : List Expression)
  | aggregate (name : String) (argument : Expression) (distinct : Bool)
      (separator : Option String)
  | existence (negated : Bool) (input : Operation)
  | wildcard

end

namespace GraphAction

/-- The name of the kind of update. -/
def typeName : GraphAction → String
  | .load .. => "load"
  | .clear .. => "clear"
  | .drop .. => "drop"
  | .create .. => "create"
  | .transfer .add .. => "add"
  | .transfer .move .. => "move"
  | .transfer .copy .. => "copy"

end GraphAction

namespace Operator

/-- The name of the kind of operator. -/
def typeName : Operator → String
  | .bgp _ => "bgp"
  | .values .. => "values"
  | .nop => "nop"
  | .path .. => "path"
  | .manage action => action.typeName
  | .wrap (.project _) _ => "project"
  | .wrap (.graph _) _ => "graph"
  | .wrap (.service ..) _ => "service"
  | .wrap .distinct _ => "distinct"
  | .wrap .reduced _ => "reduced"
  | .wrap (.slice ..) _ => "slice"
  | .wrap (.dataset ..) _ => "from"
  | .wrap .ask _ => "ask"
  | .wrap (.describe _) _ => "describe"
  | .filter .. => "filter"
  | .extend .. => "extend"
  | .group .. => "group"
  | .orderBy .. => "orderby"
  | .construct .. => "construct"
  | .combine .join _ => "join"
  | .combine .union _ => "union"
  | .combine .updates _ => "compositeupdate"
  | .leftJoin .. => "leftjoin"
  | .minus .. => "minus"
  | .deleteInsert .. => "deleteinsert"

/-- Whether the operator changes a store; doing nothing counts as a change. -/
def isUpdate : Operator → Bool
  | .deleteInsert .. => true
  | .manage _ => true
  | .combine .updates _ => true
  | .nop => true
  | _ => false

end Operator

namespace Operation

/-- An operation without metadata. -/
def of (operator : Operator) : Operation := ⟨operator, none⟩

/-- The operation that does nothing. -/
def nop : Operation := .of .nop

/-- Doing nothing stands where no operation has been put yet. -/
instance : Inhabited Operation := ⟨.nop⟩

/-- The solutions of all patterns together. -/
def bgp (patterns : List Pattern) : Operation := .of (.bgp patterns)

/-- Whether the operation is a basic graph pattern without patterns, the identity of joins. -/
def isEmptyBgp : Operation → Bool
  | ⟨.bgp [], _⟩ => true
  | _ => false

/-- The operations that an operation contributes to a combination: its own inputs if it is a
combination of the same kind without metadata, else itself. -/
def parts (how : Combination) (operation : Operation) : List Operation :=
  match operation with
  | ⟨.combine kind inputs, none⟩ => if kind = how then inputs else [operation]
  | _ => [operation]

/-- The join of all inputs, kept flat. -/
def join (inputs : List Operation) : Operation :=
  .of (.combine .join (inputs.flatMap (parts .join)))

/-- The union of all inputs, kept flat. -/
def union (inputs : List Operation) : Operation :=
  .of (.combine .union (inputs.flatMap (parts .union)))

end Operation

namespace Expression

/-- The wildcard stands where no expression has been put yet. -/
instance : Inhabited Expression := ⟨.wildcard⟩

/-- A call of a built-in operator. -/
def operator (name : String) (arguments : List Expression) : Expression :=
  .call (.operator name) arguments

/-- The value of a variable. -/
def var (name : Variable) : Expression := .term (.var name)

end Expression

end QueryAlgebra
