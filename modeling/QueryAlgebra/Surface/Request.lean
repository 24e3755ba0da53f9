import QueryAlgebra.Operation
import QueryAlgebra.Surface.Query

/-! # Updates and whole requests as they are written

A request is a query or a sequence of updates, after declarations of a base and of prefixes. Each
update may add declarations, which hold for the updates after it as well.
-/

namespace QueryAlgebra.Surface

/-- A declaration of a base. -/
structure BaseDeclaration where
  iri : String
  span : Span
deriving DecidableEq, Inhabited

/-- A declaration of a prefix. -/
structure PrefixDeclaration where
  label : String
  iri : String
  span : Span
deriving DecidableEq, Inhabited

/-- Declarations of a base and prefixes. -/
structure Prologue where
  base : Option BaseDeclaration
  prefixes : List PrefixDeclaration
deriving DecidableEq, Inhabited

/-- No declarations. -/
def Prologue.none : Prologue := ⟨.none, []⟩

/-- Triples of an update template, in a named graph or the default one. -/
structure QuadBlock where
  graph : Option VarOrIri
  triples : List Triple
deriving Inhabited

/-- The graphs to be emptied. -/
inductive ClearTarget where
  | default
  | named
  | all
  | graph (iri : Iri)
deriving DecidableEq, Inhabited

/-- One graph. -/
inductive GraphOrDefault where
  | default
  | graph (iri : Iri)
deriving DecidableEq, Inhabited

/-- An update of triples by the solutions of a pattern. -/
structure Modify where
  withGraph : Option Iri
  dataset : Option Dataset
  delete : Option (List QuadBlock)
  insert : Option (List QuadBlock)
  pattern : Pattern
  span : Span

/-- An update. -/
inductive Update where
  | insertData (quads : List QuadBlock) (span : Span)
  | deleteData (quads : List QuadBlock) (span : Span)
  | deleteWhere (quads : List QuadBlock) (span : Span)
  | modify (modify : Modify)
  | load (silent : Bool) (source : Iri) (destination : Option Iri)
  | clear (silent : Bool) (target : ClearTarget)
  | drop (silent : Bool) (target : ClearTarget)
  | create (silent : Bool) (graph : Iri)
  | transfer (how : Transfer) (silent : Bool) (source destination : GraphOrDefault)

/-- An update after declarations of its own. -/
structure UpdateUnit where
  prologue : Prologue
  update : Update

/-- A query of one of the four forms. -/
inductive Query where
  | select (query : Select)
  | construct (query : Construct)
  | ask (query : Ask)
  | describe (query : Describe)

/-- What a request asks for. -/
inductive Body where
  | query (query : Query)
  | update (units : List UpdateUnit)

/-- A query or a sequence of updates. -/
structure Request where
  prologue : Prologue
  body : Body

end QueryAlgebra.Surface
