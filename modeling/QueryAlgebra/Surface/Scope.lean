import QueryAlgebra.Surface.Query
import QueryAlgebra.Text.Lowercase

/-! # The variables that a pattern binds

`SELECT *` shows the variables that its pattern may bind. What MINUS and FILTER mention is not
bound, and a subquery binds what it shows.

The variables that a star stands for are listed without regard to capitals; of names that differ in
capitals alone, the one with small letters comes first.
-/

namespace QueryAlgebra.Surface

/-- The variable of a term where only a variable or an IRI may stand. -/
def VarOrIri.vars : VarOrIri → List Variable
  | .var name => [name]
  | .iri _ => []

/-- The variables of a term. -/
def Term.vars : Term → List Variable
  | .var name => [name]
  | .iri _ => []
  | .literal _ => []
  | .blank _ => []
  | .anonymous => []
  | .quoted subject predicate object =>
    subject.vars ++ predicate.vars ++ object.vars

/-- The variable of a predicate; property paths have none. -/
def Verb.vars : Verb → List Variable
  | .simple verb => verb.vars
  | .path _ => []

mutual

/-- The variables of a subject or object. -/
def GraphNode.vars : GraphNode → List Variable
  | .term value => value.vars
  | .collection items => GraphNode.varsOfItems items
  | .properties entries => GraphNode.varsOfEntries entries

/-- The variables of the items of a collection. -/
def GraphNode.varsOfItems : List GraphNode → List Variable
  | [] => []
  | item :: rest => item.vars ++ GraphNode.varsOfItems rest

/-- The variables of a list of properties. -/
def GraphNode.varsOfEntries : List (Verb × GraphNode) → List Variable
  | [] => []
  | (verb, object) :: rest =>
    verb.vars ++ object.vars ++ GraphNode.varsOfEntries rest

end

/-- The variables of a triple. -/
def Triple.vars (triple : Triple) : List Variable :=
  triple.subject.vars ++ triple.verb.vars ++ triple.object.vars

/-- The variable that an item of a projection shows. -/
def SelectItem.name : SelectItem → Variable
  | .var name => name
  | .computed _ name => name

mutual

/-- The variables that a pattern may bind, as often as it mentions them. -/
def Pattern.inScope : Pattern → List Variable
  | .bgp triples _ => triples.flatMap Triple.vars
  | .group elements _ => Pattern.inScopeOfAll elements
  | .optional pattern _ => pattern.inScope
  | .minus _ _ => []
  | .union left right _ => left.inScope ++ right.inScope
  | .filter _ _ => []
  | .bind _ name _ => [name]
  | .values data _ => data.vars
  | .graph name pattern _ => name.vars ++ pattern.inScope
  | .service _ endpoint pattern _ => endpoint.vars ++ pattern.inScope
  | .subquery query _ => query.inScope

/-- The variables that a subquery shows. -/
def Select.inScope : Select → List Variable
  | ⟨_, .all, _, pattern, _⟩ => pattern.inScope
  | ⟨_, .items items, _, _, _⟩ => items.map SelectItem.name

/-- The variables that the elements of a group may bind. -/
def Pattern.inScopeOfAll : List Pattern → List Variable
  | [] => []
  | pattern :: rest => pattern.inScope ++ Pattern.inScopeOfAll rest

end

/-! ### The order of `SELECT *` -/

/-- Whether a name may come before another in the list of a star. -/
def starPrecedes (first second : String) : Bool :=
  let a := Text.lowercase first
  let b := Text.lowercase second
  if a = b then second ≤ first else a < b

/-- Put a variable into its place in a list in the order of a star. -/
def insertStar (name : Variable) : List Variable → List Variable
  | [] => [name]
  | head :: rest =>
    if starPrecedes name.name head.name then name :: head :: rest
    else head :: insertStar name rest

/-- The variables of a star over a pattern and trailing inline data. -/
def starVariables (pattern : Option Pattern) (values : Option InlineData) : List Variable :=
  let bound := (pattern.map Pattern.inScope).getD []
  let listed := (values.map (·.vars)).getD []
  (bound ++ listed).eraseDups.foldr insertStar []

end QueryAlgebra.Surface
