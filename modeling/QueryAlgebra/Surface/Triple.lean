import QueryAlgebra.Decimal.Binary64
import QueryAlgebra.Term

/-! # Terms, property paths and triples as they are written

Written IRIs may be relative or abbreviated, numbers and truth values stand for literals, and a
blank node may have no label. Nodes that a message may point at carry the bytes of the text that
they were read from.

A subject or object may be a collection or a list of properties, which stand for blank nodes and
further triples; a predicate may be a property path.
-/

namespace QueryAlgebra.Surface

/-- A range of bytes of a text. -/
structure Span where
  start : Nat
  stop : Nat
deriving DecidableEq, Inhabited

namespace Span

/-- The range of nodes that were not read from a text. -/
def none : Span := ⟨0, 0⟩

/-- Whether the range belongs to no text. -/
def isNone (span : Span) : Bool := span == none

end Span

/-- How an IRI is written: in full, perhaps relative to a base, or by a prefix and the rest. -/
inductive IriText where
  | full (iri : String)
  | abbreviated (label rest : String)
deriving DecidableEq, Inhabited

/-- A written IRI. -/
structure Iri where
  text : IriText
  span : Span
deriving DecidableEq, Inhabited

/-- What may name a graph, a service or a simple predicate. -/
inductive VarOrIri where
  | var (name : Variable)
  | iri (iri : Iri)
deriving DecidableEq, Inhabited

/-- A written literal. -/
inductive Literal where
  | string (value : String)
  | tagged (value language : String)
  | typed (value : String) (datatype : Iri)
  | integer (value : Int)
  | decimal (value : String)
  | double (value : Binary64)
  | boolean (value : Bool)
deriving DecidableEq, Inhabited

/-- A written term. -/
inductive Term where
  | var (name : Variable)
  | iri (iri : Iri)
  | literal (literal : Literal)
  | blank (label : String)
  | anonymous
  | quoted (subject : Term) (predicate : VarOrIri) (object : Term)
deriving DecidableEq, Inhabited

/-- A block of inline data; a cell may be left undefined. -/
structure InlineData where
  vars : List Variable
  rows : List (List (Option Term))
deriving DecidableEq, Inhabited

/-! ### Paths and triples -/

/-- A member of a negated property set; `a` stands for the type predicate. -/
inductive NegatedMember where
  | forward (iri : Iri)
  | inverse (iri : Iri)
  | forwardType (span : Span)
  | inverseType (span : Span)
deriving DecidableEq, Inhabited

namespace NegatedMember

/-- Whether the member is followed backwards. -/
def isInverse : NegatedMember → Bool
  | .forward _ => false
  | .inverse _ => true
  | .forwardType _ => false
  | .inverseType _ => true

/-- The predicate of the member. -/
def iri : NegatedMember → Iri
  | .forward name => name
  | .inverse name => name
  | .forwardType span => ⟨.full Vocabulary.rdfType, span⟩
  | .inverseType span => ⟨.full Vocabulary.rdfType, span⟩

end NegatedMember

/-- A written property path. -/
inductive Path where
  | iri (iri : Iri)
  | type (span : Span)
  | inverse (path : Path) (span : Span)
  | sequence (left right : Path) (span : Span)
  | alternative (left right : Path) (span : Span)
  | zeroOrMore (path : Path) (span : Span)
  | oneOrMore (path : Path) (span : Span)
  | zeroOrOne (path : Path) (span : Span)
  | negated (members : List NegatedMember) (span : Span)
  | group (path : Path) (span : Span)
deriving DecidableEq, Inhabited

namespace Path

/-- The range of a path. -/
def span : Path → Span
  | .iri name => name.span
  | .type range => range
  | .inverse _ range => range
  | .sequence _ _ range => range
  | .alternative _ _ range => range
  | .zeroOrMore _ range => range
  | .oneOrMore _ range => range
  | .zeroOrOne _ range => range
  | .negated _ range => range
  | .group _ range => range

/-- The path inside all parentheses around it. -/
def unwrapped : Path → Path
  | .group path _ => path.unwrapped
  | path => path

/-- Whether the path is one predicate, perhaps in parentheses. -/
def isSimple (path : Path) : Bool :=
  match path.unwrapped with
  | .iri _ => true
  | .type _ => true
  | _ => false

end Path

/-- A predicate: a variable or IRI, or a property path. -/
inductive Verb where
  | simple (verb : VarOrIri)
  | path (path : Path)
deriving DecidableEq, Inhabited

/-- A subject or object. -/
inductive GraphNode where
  | term (term : Term)
  | collection (items : List GraphNode)
  | properties (entries : List (Verb × GraphNode))
deriving Inhabited

/-- A triple pattern. -/
structure Triple where
  subject : GraphNode
  verb : Verb
  object : GraphNode
deriving Inhabited

end QueryAlgebra.Surface
