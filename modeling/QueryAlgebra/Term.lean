/-! # Terms

The values that stand in patterns: IRIs, blank nodes, literals, variables, the name of the default
graph, and quoted triples, which carry four terms of their own.

Terms that are read from a query are made by a `TermFactory`. `Term.nested` lists a term with all
terms inside it, innermost first, and `Term.mapNested` replaces them in that order.
-/

/-! ### The RDF and XML Schema vocabularies

Only the names that queries depend on: the type and list vocabulary of RDF, and the datatypes that
literals written without a datatype receive. -/

namespace QueryAlgebra.Vocabulary

/-- The namespace of the RDF vocabulary. -/
def rdf : String := "http://www.w3.org/1999/02/22-rdf-syntax-ns#"

/-- The namespace of the XML Schema datatypes. -/
def xsd : String := "http://www.w3.org/2001/XMLSchema#"

/-- The predicate written `a` in a query. -/
def rdfType : String := rdf ++ "type"

/-- The datatype of literals with a language tag. -/
def rdfLangString : String := rdf ++ "langString"

/-- The predicate from a list cell to its member. -/
def rdfFirst : String := rdf ++ "first"

/-- The predicate from a list cell to the next one. -/
def rdfRest : String := rdf ++ "rest"

/-- The empty list. -/
def rdfNil : String := rdf ++ "nil"

/-- The datatype of plain strings. -/
def xsdString : String := xsd ++ "string"

/-- The datatype of whole numbers. -/
def xsdInteger : String := xsd ++ "integer"

/-- The datatype of numbers written with a decimal point. -/
def xsdDecimal : String := xsd ++ "decimal"

/-- The datatype of double-precision numbers. -/
def xsdDouble : String := xsd ++ "double"

/-- The datatype of truth values. -/
def xsdBoolean : String := xsd ++ "boolean"

/-- Whether a datatype is one of those that numeric literals receive. -/
def isNumericDatatype (iri : String) : Bool :=
  iri == xsdInteger || iri == xsdDecimal || iri == xsdDouble

end QueryAlgebra.Vocabulary

namespace QueryAlgebra

/-- A resource named by an IRI. -/
structure NamedNode where
  iri : String
deriving DecidableEq, Inhabited

/-- A resource known only by a label local to its document. -/
structure BlankNode where
  label : String
deriving DecidableEq, Inhabited

/-- A query variable. -/
structure Variable where
  name : String
deriving DecidableEq, Inhabited

/-- A value given by its text. Literals with a language have the datatype `rdf:langString`. -/
structure Literal where
  value : String
  language : Option String
  datatype : NamedNode
deriving DecidableEq, Inhabited

namespace Literal

/-- A plain string. -/
def plain (value : String) : Literal := ⟨value, none, ⟨Vocabulary.xsdString⟩⟩

/-- A string in a natural language. -/
def tagged (value language : String) : Literal :=
  ⟨value, some language, ⟨Vocabulary.rdfLangString⟩⟩

/-- A value of a datatype. -/
def typed (value : String) (datatype : NamedNode) : Literal := ⟨value, none, datatype⟩

/-- Whether the literal is a plain string. -/
def isPlain (literal : Literal) : Bool :=
  literal.language.isNone && literal.datatype.iri == Vocabulary.xsdString

/-- The literal as it is shown in messages; its text is not escaped. -/
def display (literal : Literal) : String :=
  let quoted := "\"" ++ literal.value ++ "\""
  match literal.language with
  | some language => quoted ++ "@" ++ language
  | none =>
    if literal.isPlain then quoted else quoted ++ "^^<" ++ literal.datatype.iri ++ ">"

end Literal

/-- A term of a pattern. -/
inductive Term where
  | iri (node : NamedNode)
  | blank (node : BlankNode)
  | literal (literal : Literal)
  | var (named : Variable)
  | defaultGraph
  | quad (subject predicate object graph : Term)
deriving DecidableEq

namespace Term

/-- The default graph stands where no term has been put yet. -/
instance : Inhabited Term := ⟨.defaultGraph⟩

/-- The name of the kind of term. -/
def typeName : Term → String
  | .iri _ => "NamedNode"
  | .blank _ => "BlankNode"
  | .literal _ => "Literal"
  | .var _ => "Variable"
  | .defaultGraph => "DefaultGraph"
  | .quad .. => "Quad"

/-- The IRI, label, text or name of the term; empty for the default graph and quoted triples. -/
def value : Term → String
  | .iri node => node.iri
  | .blank node => node.label
  | .literal text => text.value
  | .var named => named.name
  | .defaultGraph => ""
  | .quad .. => ""

/-- The term as it is shown in messages. -/
def display : Term → String
  | .iri node => "<" ++ node.iri ++ ">"
  | .blank node => "_:" ++ node.label
  | .literal text => text.display
  | .var named => "?" ++ named.name
  | .defaultGraph => "DEFAULT"
  | .quad subject predicate object graph =>
    "<< " ++ subject.display ++ " " ++ predicate.display ++ " " ++ object.display ++ " "
      ++ graph.display ++ " >>"

/-- The variable that the term is. -/
def asVariable? : Term → Option Variable
  | .var named => some named
  | _ => none

/-- The IRI that the term is. -/
def asNamedNode? : Term → Option NamedNode
  | .iri node => some node
  | _ => none

/-- Whether the term is a variable. -/
def isVariable (term : Term) : Bool := term.asVariable?.isSome

/-- Whether the term names the default graph. -/
def isDefaultGraph : Term → Bool
  | .defaultGraph => true
  | _ => false

theorem eq_defaultGraph {graph : Term} (isDefault : graph.isDefaultGraph = true) :
    graph = .defaultGraph := by
  cases graph <;> first | rfl | cases isDefault

/-- The term and the terms inside it; those inside come first. -/
def nested : Term → List Term
  | .quad subject predicate object graph =>
    subject.nested ++ predicate.nested ++ object.nested ++ graph.nested
      ++ [quad subject predicate object graph]
  | term => [term]

/-- Replace the terms inside a term, then the rebuilt term itself. -/
def mapNested (f : Term → Term) : Term → Term
  | .quad subject predicate object graph =>
    f (quad (subject.mapNested f) (predicate.mapNested f) (object.mapNested f) (graph.mapNested f))
  | term => f term

end Term

/-! ### Making terms

The default factory makes terms as they are written; a decorated one puts fixed texts before the
names that it is given. Quoted triples are put together as they are unless a factory says
otherwise. -/

/-- The ways to make the terms of a query. -/
structure TermFactory where
  namedNode : String → NamedNode
  blank : String → BlankNode
  var : String → Variable
  literal : String → Option String → Option NamedNode → Literal
  defaultGraph : Term
  quad : Term → Term → Term → Term → Term := .quad

namespace TermFactory

/-- A language tag makes a tagged literal unless it is empty; a datatype makes a typed one. -/
def plainLiteral (value : String) (language : Option String) (datatype : Option NamedNode) :
    Literal :=
  match language, datatype with
  | some "", none => .plain value
  | some "", some datatype => .typed value datatype
  | some language, _ => .tagged value language
  | none, some datatype => .typed value datatype
  | none, none => .plain value

/-- Terms as they are written. -/
def plain : TermFactory where
  namedNode iri := ⟨iri⟩
  blank label := ⟨label⟩
  var name := ⟨name⟩
  literal := plainLiteral
  defaultGraph := .defaultGraph

/-- The texts that a decorated factory puts before what it is given. -/
structure Decoration where
  iri : String
  blank : String
  var : String
  literal : String
  defaultGraph : Term
deriving DecidableEq

/-- Terms whose IRIs, labels, names and values follow fixed texts. -/
def decorated (decoration : Decoration) : TermFactory where
  namedNode iri := ⟨decoration.iri ++ iri⟩
  blank label := ⟨decoration.blank ++ label⟩
  var name := ⟨decoration.var ++ name⟩
  literal value := plainLiteral (decoration.literal ++ value)
  defaultGraph := decoration.defaultGraph

end TermFactory

end QueryAlgebra
