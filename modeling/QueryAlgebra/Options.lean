import QueryAlgebra.Json
import QueryAlgebra.Json.Scan
import QueryAlgebra.NameMap

/-! # Options of the passage to the algebra

Options say whether graph names are put into patterns, whether blank nodes become variables, and
which prefixes and base hold before those that a request declares. They are written as a JSON object
and read from one, or from an array of the fields in their order.
-/

namespace QueryAlgebra

/-- How requests become operations. -/
structure Options where
  quads : Bool := false
  blankToVariable : Bool := false
  prefixes : NameMap String := .empty
  base : Option String := none
deriving DecidableEq, Inhabited

namespace Options

/-- Put graph names into patterns, or not. -/
def withQuads (options : Options) (quads : Bool) : Options := { options with quads := quads }

/-- Turn blank nodes into variables, or not. -/
def withBlankToVariable (options : Options) (enabled : Bool) : Options :=
  { options with blankToVariable := enabled }

/-- Let a prefix stand for an IRI. -/
def withPrefix (options : Options) (label iri : String) : Options :=
  { options with prefixes := options.prefixes.insert label iri }

/-- Resolve relative IRIs against a base. -/
def withBase (options : Options) (base : String) : Options := { options with base := some base }

/-- The object of options. -/
def toJson (options : Options) : Json :=
  .object <|
    [("quads", .bool options.quads), ("blankToVariable", .bool options.blankToVariable),
      ("prefixes", .object (options.prefixes.entries.map fun entry => (entry.1, .string entry.2)))]
    ++ (options.base.map fun base => ("baseIRI", Json.string base)).toList

/-! ### Reading options -/

/-- The fields of options. -/
inductive Field where
  | quads
  | blankToVariable
  | prefixes
  | base
deriving DecidableEq

/-- The field of a name. -/
def Field.ofName? (name : String) : Option Field :=
  if name == "quads" then some .quads
  else if name == "blankToVariable" then some .blankToVariable
  else if name == "prefixes" then some .prefixes
  else if name == "baseIRI" then some .base
  else none

open Json.Scan

/-- The members of a map of strings after its opening brace or a member. -/
def readPrefixes? : Nat → NameMap String → List Char → Option (NameMap String × List Char)
  | 0, _, _ => none
  | fuel + 1, prefixes, text => do
    let (label, rest) ← string? text
    let rest ← mark? ':' rest
    let (iri, rest) ← string? rest
    let prefixes := prefixes.insert label iri
    match blanks rest with
    | ',' :: rest => readPrefixes? fuel prefixes rest
    | '\x7d' :: rest => pure (prefixes, rest)
    | _ => none

/-- Read the value of a field. -/
def readField? (options : Options) (field : Field) (text : List Char) :
    Option (Options × List Char) :=
  match field with
  | .quads => (bool? text).map fun (value, rest) => (options.withQuads value, rest)
  | .blankToVariable =>
    (bool? text).map fun (value, rest) => (options.withBlankToVariable value, rest)
  | .prefixes => do
    let rest ← mark? '\x7b' text
    match blanks rest with
    | '\x7d' :: rest => pure ({ options with prefixes := .empty }, rest)
    | rest =>
      let (prefixes, rest) ← readPrefixes? rest.length .empty rest
      pure ({ options with prefixes := prefixes }, rest)
  | .base =>
    (optionalString? text).map fun (value, rest) => ({ options with base := value }, rest)

/-- Read the members of an object after its opening brace or a member; a field may be given once. -/
def readMembers? : Nat → Options → List Field → List Char → Option (Options × List Char)
  | 0, _, _, _ => none
  | fuel + 1, options, seen, text => do
    let (name, rest) ← string? text
    let field := Field.ofName? name
    if field.any seen.contains then none
    else
      let rest ← mark? ':' rest
      let (options, rest) ←
        match field with
        | some field => readField? options field rest
        | none => (pass? rest).map fun rest => (options, rest)
      match blanks rest with
      | ',' :: rest => readMembers? fuel options (field.toList ++ seen) rest
      | '\x7d' :: rest => pure (options, rest)
      | _ => none

/-- Read the items of an array for the fields that remain; the first follows the opening bracket or
a comma. -/
def readItems? : List Field → Options → List Char → Option (Options × List Char)
  | [], _, _ => none
  | field :: fields, options, text => do
    let (options, rest) ← readField? options field text
    match blanks rest with
    | ',' :: rest => readItems? fields options rest
    | ']' :: rest => pure (options, rest)
    | _ => none

/-- Read an object or an array of fields. -/
def readOptions? (text : List Char) : Option (Options × List Char) :=
  match blanks text with
  | '\x7b' :: rest =>
    match blanks rest with
    | '\x7d' :: rest => some ({}, rest)
    | rest => readMembers? rest.length {} [] rest
  | '[' :: rest =>
    match blanks rest with
    | ']' :: rest => some ({}, rest)
    | rest => readItems? [.quads, .blankToVariable, .prefixes, .base] {} rest
  | _ => none

/-- The options that a text gives; nothing but blanks may follow them. -/
def ofText? (text : String) : Option Options := do
  let (options, rest) ← readOptions? text.toList
  if (blanks rest).isEmpty then some options else none

end Options

end QueryAlgebra
