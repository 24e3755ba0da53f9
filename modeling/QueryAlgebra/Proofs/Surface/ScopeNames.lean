import QueryAlgebra.Surface.Names
import QueryAlgebra.Surface.Scope

/-! # Variables in scope are written

Every variable that a pattern may bind, and so every variable that a star stands for, is a name that
is written in the pattern or in trailing inline data.
-/

namespace QueryAlgebra.Surface

/-- The variables of a list are written among names. -/
def Names.Include (names : Names) (vars : List Variable) : Prop :=
  ∀ name ∈ vars, name.name ∈ names.vars

namespace Names.Include

variable {first second : Names} {vars more : List Variable}

theorem nil (names : Names) : names.Include [] := fun _ member => absurd member List.not_mem_nil

theorem var (name : Variable) : (Names.var name).Include [name] :=
  fun _ member => List.mem_singleton.1 member ▸ List.mem_singleton_self _

theorem left (includes : first.Include vars) : (first ++ second).Include vars :=
  fun name member => List.mem_append_left _ (includes name member)

theorem right (includes : second.Include vars) : (first ++ second).Include vars :=
  fun name member => List.mem_append_right _ (includes name member)

theorem append (ofFirst : first.Include vars) (ofSecond : second.Include more) :
    (first ++ second).Include (vars ++ more) :=
  fun name member => (List.mem_append.1 member).elim (ofFirst.left name) (ofSecond.right name)

theorem all {α : Type} {namesOf : α → Names} {varsOf : α → List Variable}
    (each : ∀ part, (namesOf part).Include (varsOf part)) (parts : List α) :
    (Names.all namesOf parts).Include (parts.flatMap varsOf) := by
  induction parts with
  | nil => exact .nil _
  | cons part rest ih =>
    rw [List.flatMap_cons]
    exact (each part).append ih

end Names.Include

private theorem VarOrIri.names_include (name : VarOrIri) : name.names.Include name.vars := by
  cases name with
  | var name => exact .var name
  | iri => exact .nil _

private theorem Term.names_include (term : Term) : term.names.Include term.vars := by
  induction term with
  | var name => exact .var name
  | quoted subject predicate object ofSubject ofObject =>
    exact (ofSubject.append predicate.names_include).append ofObject
  | iri | literal | blank | anonymous => exact .nil _

private theorem Verb.names_include (verb : Verb) : verb.names.Include verb.vars := by
  cases verb with
  | simple name => exact name.names_include
  | path => exact .nil _

mutual

private theorem GraphNode.names_include : ∀ node : GraphNode, node.names.Include node.vars
  | .term value => value.names_include
  | .collection items => GraphNode.namesOfItems_include items
  | .properties entries => GraphNode.namesOfEntries_include entries

private theorem GraphNode.namesOfItems_include : ∀ items : List GraphNode,
    (GraphNode.namesOfItems items).Include (GraphNode.varsOfItems items)
  | [] => .nil _
  | item :: rest =>
    (GraphNode.names_include item).append (GraphNode.namesOfItems_include rest)

private theorem GraphNode.namesOfEntries_include : ∀ entries : List (Verb × GraphNode),
    (GraphNode.namesOfEntries entries).Include (GraphNode.varsOfEntries entries)
  | [] => .nil _
  | (verb, object) :: rest =>
    (verb.names_include.append (GraphNode.names_include object)).append
      (GraphNode.namesOfEntries_include rest)

end

private theorem Triple.names_include (triple : Triple) : triple.names.Include triple.vars :=
  (triple.subject.names_include.append triple.verb.names_include).append
    triple.object.names_include

theorem InlineData.names_include (data : InlineData) : data.names.Include data.vars := by
  have header := Names.Include.all Names.Include.var data.vars
  rw [List.flatMap_singleton'] at header
  exact header.left

private theorem SelectItem.namesOfAll_include : ∀ items : List SelectItem,
    (SelectItem.namesOfAll items).Include (items.map SelectItem.name)
  | [] => .nil _
  | .var name :: rest => (Names.Include.var name).append (SelectItem.namesOfAll_include rest)
  | .computed _ name :: rest =>
    (Names.Include.var name).right.append (SelectItem.namesOfAll_include rest)

mutual

/-- The variables that a pattern may bind are written in it. -/
theorem Pattern.names_include : ∀ pattern : Pattern, pattern.names.Include pattern.inScope
  | .bgp triples _ => .all Triple.names_include triples
  | .group elements _ => Pattern.namesOfAll_include elements
  | .optional pattern _ => Pattern.names_include pattern
  | .minus _ _ => .nil _
  | .union left right _ => (Pattern.names_include left).append (Pattern.names_include right)
  | .filter _ _ => .nil _
  | .bind _ name _ => (Names.Include.var name).right
  | .values data _ => data.names_include
  | .graph name pattern _ => name.names_include.append (Pattern.names_include pattern)
  | .service _ endpoint pattern _ => endpoint.names_include.append (Pattern.names_include pattern)
  | .subquery query _ => Select.names_include query

private theorem Select.names_include : ∀ query : Select, query.names.Include query.inScope
  | ⟨_, .all, _, pattern, _⟩ => (Pattern.names_include pattern).right.left
  | ⟨_, .items items, _, _, _⟩ => (SelectItem.namesOfAll_include items).left.left

private theorem Pattern.namesOfAll_include : ∀ patterns : List Pattern,
    (Pattern.namesOfAll patterns).Include (Pattern.inScopeOfAll patterns)
  | [] => .nil _
  | pattern :: rest => (Pattern.names_include pattern).append (Pattern.namesOfAll_include rest)

end

private theorem mem_insertStar {name other : Variable} {names : List Variable} :
    other ∈ insertStar name names ↔ other = name ∨ other ∈ names := by
  induction names with
  | nil => simp [insertStar]
  | cons head rest ih =>
    rw [insertStar]
    split
    · rw [List.mem_cons]
    · rw [List.mem_cons, ih, List.mem_cons]
      exact or_left_comm

/-- The order of a star lists the same variables. -/
theorem mem_starOrder {name : Variable} {names : List Variable} :
    name ∈ names.eraseDups.foldr insertStar [] ↔ name ∈ names := by
  have sorted : ∀ distinct : List Variable,
      name ∈ distinct.foldr insertStar [] ↔ name ∈ distinct := by
    intro distinct
    induction distinct with
    | nil => rfl
    | cons head rest ih => rw [List.foldr_cons, mem_insertStar, ih, List.mem_cons]
  rw [sorted, List.mem_eraseDups]

/-- The variables of a star are written in the pattern or in trailing inline data. -/
theorem starVariables_include (pattern : Option Pattern) (values : Option InlineData) :
    (Names.optional Pattern.names pattern ++ Names.optional InlineData.names values).Include
      (starVariables pattern values) := by
  intro name member
  rw [starVariables, mem_starOrder] at member
  have ofPattern : (Names.optional Pattern.names pattern).Include
      ((pattern.map Pattern.inScope).getD []) := by
    cases pattern with
    | none => exact .nil _
    | some pattern => exact pattern.names_include
  have ofValues : (Names.optional InlineData.names values).Include
      ((values.map (·.vars)).getD []) := by
    cases values with
    | none => exact .nil _
    | some data => exact data.names_include
  exact ofPattern.append ofValues name member

end QueryAlgebra.Surface
