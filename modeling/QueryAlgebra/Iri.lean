/-! # Resolving relative IRIs

An IRI is absolute if it begins with a scheme. A relative one is put behind a part of the base that
depends on how it begins; segments of dots are kept as they are.
-/

namespace QueryAlgebra.Iri

/-- Whether a character may stand in a scheme after the first. -/
def isSchemeChar (c : Char) : Bool := c.isAlphanum || c == '+' || c == '.' || c == '-'

/-- Whether a text goes on with characters of a scheme up to a colon. -/
def hasColonAfterScheme : List Char → Bool
  | [] => false
  | c :: rest => c == ':' || (isSchemeChar c && hasColonAfterScheme rest)

/-- Whether a text begins with a scheme. -/
def isAbsoluteText : List Char → Bool
  | [] => false
  | c :: rest => c.isAlpha && hasColonAfterScheme rest

/-- Whether an IRI is absolute. -/
def isAbsolute (iri : String) : Bool := isAbsoluteText iri.toList

/-- The text up to its last slash or colon, which is kept. -/
def upToLastSeparator (text : List Char) : List Char :=
  (text.reverse.dropWhile fun c => !(c == '/' || c == ':')).reverse

/-- The scheme in small letters with its colon and the slashes after it, and what follows them.
Without such a scheme, all of the text follows. -/
def splitScheme (base : List Char) : List Char × List Char :=
  let scheme := base.takeWhile Char.isLower
  match scheme, base.dropWhile Char.isLower with
  | _ :: _, ':' :: rest =>
    (scheme ++ ':' :: rest.takeWhile (· == '/'), rest.dropWhile (· == '/'))
  | _, _ => ([], base)

/-- The scheme and authority of a base. -/
def root (base : List Char) : List Char :=
  let (scheme, rest) := splitScheme base
  scheme ++ rest.takeWhile (· != '/')

/-- A relative reference behind its part of the base. -/
def resolveText (base reference : List Char) : List Char :=
  match reference with
  | [] => base
  | '#' :: _ => base ++ reference
  | '?' :: _ => base.takeWhile (· != '?') ++ reference
  | '/' :: _ => root base ++ reference
  | _ => upToLastSeparator base ++ reference

/-- The absolute form of an IRI, unless it is relative and there is no base. -/
def resolve? (base : Option String) (iri : String) : Option String :=
  if isAbsolute iri then some iri
  else base.map fun text => String.ofList (resolveText text.toList iri.toList)

end QueryAlgebra.Iri
