import QueryAlgebra.Lowering.BlankNodes
import QueryAlgebra.Proofs.Operation.Renaming

/-! # Variables in the places of blank nodes

`Operation.BlanksReplaced` tells of two operations that they are the same, but that in patterns and
paths, and in the triples quoted there, the second has variables where the first has blank nodes:
one label has one variable everywhere. Templates of constructions and updates, inline data,
expressions, names of graphs and metadata are the same.

Replacing the blank nodes of an operation does just this, provided that every label in its patterns
and paths has a variable: `Operation.blanksReplaced_replaceBlanks`.
-/

namespace QueryAlgebra

section

variable (names : String → Option Variable)

/-- Terms that are the same up to variables in the places of blank nodes. -/
inductive Term.BlanksReplaced : Term → Term → Prop where
  | iri (node : NamedNode) : BlanksReplaced (.iri node) (.iri node)
  | blank {label : String} {name : Variable} :
    names label = some name → BlanksReplaced (.blank ⟨label⟩) (.var name)
  | literal (text : Literal) : BlanksReplaced (.literal text) (.literal text)
  | var (name : Variable) : BlanksReplaced (.var name) (.var name)
  | defaultGraph : BlanksReplaced .defaultGraph .defaultGraph
  | quad {subject predicate object graph subject' predicate' object' graph' : Term} :
    BlanksReplaced subject subject' → BlanksReplaced predicate predicate' →
    BlanksReplaced object object' → BlanksReplaced graph graph' →
    BlanksReplaced (.quad subject predicate object graph) (.quad subject' predicate' object' graph')

/-- Patterns that are the same up to variables in the places of blank nodes. -/
structure Pattern.BlanksReplaced (first second : Pattern) : Prop where
  subject : first.subject.BlanksReplaced names second.subject
  predicate : first.predicate.BlanksReplaced names second.predicate
  object : first.object.BlanksReplaced names second.object
  graph : first.graph.BlanksReplaced names second.graph

mutual

/-- Operations that are the same up to variables in the places of blank nodes. -/
inductive Operation.BlanksReplaced : Operation → Operation → Prop where
  | mk {operator operator' : Operator} (metadata : Option Metadata) :
    Operator.BlanksReplaced operator operator' →
    Operation.BlanksReplaced ⟨operator, metadata⟩ ⟨operator', metadata⟩

/-- Operators that are the same up to variables in the places of blank nodes of patterns and
paths. -/
inductive Operator.BlanksReplaced : Operator → Operator → Prop where
  | bgp {patterns patterns' : List Pattern} :
    List.Forall₂ (Pattern.BlanksReplaced names) patterns patterns' →
    Operator.BlanksReplaced (.bgp patterns) (.bgp patterns')
  | values (vars : List Variable) (rows : List Row) :
    Operator.BlanksReplaced (.values vars rows) (.values vars rows)
  | nop : Operator.BlanksReplaced .nop .nop
  | path {subject object graph subject' object' graph' : Term} (predicate : Path) :
    subject.BlanksReplaced names subject' → object.BlanksReplaced names object' →
    graph.BlanksReplaced names graph' →
    Operator.BlanksReplaced (.path subject predicate object graph)
      (.path subject' predicate object' graph')
  | manage (action : GraphAction) : Operator.BlanksReplaced (.manage action) (.manage action)
  | wrap {input input' : Operation} (wrapper : Wrapper) :
    Operation.BlanksReplaced input input' →
    Operator.BlanksReplaced (.wrap wrapper input) (.wrap wrapper input')
  | filter {input input' : Operation} {condition condition' : Expression} :
    Operation.BlanksReplaced input input' → Expression.BlanksReplaced condition condition' →
    Operator.BlanksReplaced (.filter input condition) (.filter input' condition')
  | extend {input input' : Operation} {value value' : Expression} (name : Variable) :
    Operation.BlanksReplaced input input' → Expression.BlanksReplaced value value' →
    Operator.BlanksReplaced (.extend input name value) (.extend input' name value')
  | group {input input' : Operation} {aggregates aggregates' : List BoundAggregate}
    (keys : List Variable) :
    Operation.BlanksReplaced input input' →
    List.Forall₂ BoundAggregate.BlanksReplaced aggregates aggregates' →
    Operator.BlanksReplaced (.group input keys aggregates) (.group input' keys aggregates')
  | orderBy {input input' : Operation} {keys keys' : List Expression} :
    Operation.BlanksReplaced input input' → List.Forall₂ Expression.BlanksReplaced keys keys' →
    Operator.BlanksReplaced (.orderBy input keys) (.orderBy input' keys')
  | construct {input input' : Operation} (template : List Pattern) :
    Operation.BlanksReplaced input input' →
    Operator.BlanksReplaced (.construct input template) (.construct input' template)
  | combine {inputs inputs' : List Operation} (how : Combination) :
    List.Forall₂ Operation.BlanksReplaced inputs inputs' →
    Operator.BlanksReplaced (.combine how inputs) (.combine how inputs')
  | leftJoin {left right left' right' : Operation} {condition condition' : Option Expression} :
    Operation.BlanksReplaced left left' → Operation.BlanksReplaced right right' →
    Option.Rel Expression.BlanksReplaced condition condition' →
    Operator.BlanksReplaced (.leftJoin left right condition) (.leftJoin left' right' condition')
  | minus {left right left' right' : Operation} :
    Operation.BlanksReplaced left left' → Operation.BlanksReplaced right right' →
    Operator.BlanksReplaced (.minus left right) (.minus left' right')
  | deleteInsert {scope scope' : Option Operation} (delete insert : Option (List Pattern)) :
    Option.Rel Operation.BlanksReplaced scope scope' →
    Operator.BlanksReplaced (.deleteInsert delete insert scope) (.deleteInsert delete insert scope')

/-- Aggregates that are the same up to variables in the places of blank nodes. -/
inductive BoundAggregate.BlanksReplaced : BoundAggregate → BoundAggregate → Prop where
  | mk {expression expression' : Expression} (name : Variable) :
    Expression.BlanksReplaced expression expression' →
    BoundAggregate.BlanksReplaced ⟨name, expression⟩ ⟨name, expression'⟩

/-- Expressions that ask about operations that are the same up to variables in the places of blank
nodes. -/
inductive Expression.BlanksReplaced : Expression → Expression → Prop where
  | term (value : Term) : Expression.BlanksReplaced (.term value) (.term value)
  | call {arguments arguments' : List Expression} (callee : Callee) :
    List.Forall₂ Expression.BlanksReplaced arguments arguments' →
    Expression.BlanksReplaced (.call callee arguments) (.call callee arguments')
  | aggregate {argument argument' : Expression} (name : String) (distinct : Bool)
    (separator : Option String) :
    Expression.BlanksReplaced argument argument' →
    Expression.BlanksReplaced (.aggregate name argument distinct separator)
      (.aggregate name argument' distinct separator)
  | existence {input input' : Operation} (negated : Bool) :
    Operation.BlanksReplaced input input' →
    Expression.BlanksReplaced (.existence negated input) (.existence negated input')
  | wildcard : Expression.BlanksReplaced .wildcard .wildcard

end

end

/-! ### What replacing does -/

/-- How the blank nodes of an operation are replaced. -/
def Rebuild.ofBlanks (replace : String → Term) : Rebuild :=
  { Rebuild.nothing with
    pattern := fun place pattern =>
      if place = .bgp then pattern.mapTerms (Term.replaceBlanks replace) else pattern
    operation := fun op => ⟨op.operator.replacePathBlanks replace, op.metadata⟩ }

/-- The labels in the parts of an operation, outside templates. -/
def Gather.ofLabels : Gather String where
  closed _ := false
  pattern place pattern := if place = .bgp then pattern.terms.flatMap Term.labels else []
  expression _ := []
  operator := Operator.pathLabels

/-- The patterns of templates are kept. -/
theorem Rebuild.template_ofBlanks {replace : String → Term} {place : Place}
    (isTemplate : place ≠ .bgp) (patterns : List Pattern) :
    patterns.map ((Rebuild.ofBlanks replace).pattern place) = patterns := by
  have same : (Rebuild.ofBlanks replace).pattern place = id := funext fun _ => if_neg isTemplate
  rw [same, List.map_id]

theorem Rebuild.optional_ofBlanks {replace : String → Term} {place : Place}
    (isTemplate : place ≠ .bgp) (patterns : Option (List Pattern)) :
    patterns.map (·.map ((Rebuild.ofBlanks replace).pattern place)) = patterns := by
  cases patterns with
  | none => rfl
  | some patterns => exact congrArg some (template_ofBlanks isTemplate patterns)

theorem Term.labels_quad (subject predicate object graph : Term) :
    (quad subject predicate object graph).labels
      = subject.labels ++ predicate.labels ++ object.labels ++ graph.labels := by
  simp [labels, nested]

section

variable {names : String → Option Variable} {replace : String → Term}

/-- Every label of a list has a variable, and that variable replaces it. -/
def Replaces (names : String → Option Variable) (replace : String → Term)
    (labels : List String) : Prop :=
  ∀ label ∈ labels, ∃ name, names label = some name ∧ replace label = .var name

namespace Replaces

variable {labels more : List String}

theorem append (replaces : Replaces names replace (labels ++ more)) :
    Replaces names replace labels ∧ Replaces names replace more :=
  List.forall_mem_append.1 replaces

theorem of_mem_flatMap {α : Type} {members : List α} {labelsOf : α → List String}
    (replaces : Replaces names replace (members.flatMap labelsOf)) {member : α}
    (isMember : member ∈ members) : Replaces names replace (labelsOf member) :=
  fun label mem => replaces label (List.mem_flatMap_of_mem isMember mem)

end Replaces

theorem Term.blanksReplaced_replaceBlanks {term : Term}
    (replaces : Replaces names replace term.labels) :
    term.BlanksReplaced names (term.replaceBlanks replace) := by
  induction term with
  | iri node => exact .iri node
  | literal text => exact .literal text
  | var name => exact .var name
  | defaultGraph => exact .defaultGraph
  | blank node =>
    obtain ⟨name, isNamed, replaced⟩ := replaces node.label (by simp [labels, nested])
    show BlanksReplaced names (.blank node) (replace node.label)
    rw [replaced]
    exact .blank isNamed
  | quad subject predicate object graph ihSubject ihPredicate ihObject ihGraph =>
    rw [labels_quad] at replaces
    obtain ⟨replaces, ofGraph⟩ := replaces.append
    obtain ⟨replaces, ofObject⟩ := replaces.append
    obtain ⟨ofSubject, ofPredicate⟩ := replaces.append
    exact .quad (ihSubject ofSubject) (ihPredicate ofPredicate) (ihObject ofObject)
      (ihGraph ofGraph)

theorem Pattern.blanksReplaced_mapTerms {pattern : Pattern}
    (replaces : Replaces names replace (pattern.terms.flatMap Term.labels)) :
    pattern.BlanksReplaced names (pattern.mapTerms (Term.replaceBlanks replace)) :=
  ⟨Term.blanksReplaced_replaceBlanks (replaces.of_mem_flatMap (by simp [terms])),
    Term.blanksReplaced_replaceBlanks (replaces.of_mem_flatMap (by simp [terms])),
    Term.blanksReplaced_replaceBlanks (replaces.of_mem_flatMap (by simp [terms])),
    Term.blanksReplaced_replaceBlanks (replaces.of_mem_flatMap (by simp [terms]))⟩

mutual

/-- The variables are in the places of the blank nodes, and all else is the same. -/
theorem Operation.blanksReplaced_replaceBlanks : ∀ {operation : Operation},
    Replaces names replace (operation.gather .ofLabels) →
    operation.BlanksReplaced names (operation.replaceBlanks replace)
  | ⟨_, metadata⟩, replaces => .mk metadata (Operator.blanksReplaced_rebuild replaces)

theorem Operator.blanksReplaced_rebuild : ∀ {operator : Operator},
    Replaces names replace (operator.gather .ofLabels ++ operator.pathLabels) →
    operator.BlanksReplaced names
      ((operator.rebuild (.ofBlanks replace)).replacePathBlanks replace)
  | .bgp _, replaces =>
    .bgp (List.forall₂_map_right_iff.2 (List.forall₂_same.2 fun _ member =>
      Pattern.blanksReplaced_mapTerms (replaces.append.1.of_mem_flatMap member)))
  | .values vars rows, _ => .values vars rows
  | .nop, _ => .nop
  | .path _ predicate _ _, replaces => by
    obtain ⟨ofEnds, ofGraph⟩ := replaces.append.2.append
    exact .path predicate (Term.blanksReplaced_replaceBlanks ofEnds.append.1)
      (Term.blanksReplaced_replaceBlanks ofEnds.append.2)
      (Term.blanksReplaced_replaceBlanks ofGraph)
  | .manage action, _ => .manage action
  | .wrap wrapper _, replaces =>
    .wrap wrapper (Operation.blanksReplaced_replaceBlanks replaces.append.1)
  | .filter _ _, replaces => by
    obtain ⟨ofInput, ofCondition⟩ := replaces.append.1.append
    exact .filter (Operation.blanksReplaced_replaceBlanks ofInput)
      (Expression.blanksReplaced_rebuild ofCondition)
  | .extend _ name _, replaces => by
    obtain ⟨ofInput, ofValue⟩ := replaces.append.1.append
    exact .extend name (Operation.blanksReplaced_replaceBlanks ofInput)
      (Expression.blanksReplaced_rebuild ofValue)
  | .group _ keys _, replaces => by
    obtain ⟨ofInput, ofAggregates⟩ := replaces.append.1.append
    exact .group keys (Operation.blanksReplaced_replaceBlanks ofInput)
      (BoundAggregate.all_blanksReplaced_rebuild ofAggregates)
  | .orderBy _ _, replaces => by
    obtain ⟨ofInput, ofKeys⟩ := replaces.append.1.append
    exact .orderBy (Operation.blanksReplaced_replaceBlanks ofInput)
      (Expression.all_blanksReplaced_rebuild ofKeys)
  | .construct _ template, replaces => by
    rw [Operator.rebuild, Rebuild.template_ofBlanks (by decide)]
    exact .construct template
      (Operation.blanksReplaced_replaceBlanks replaces.append.1.append.1)
  | .combine how _, replaces =>
    .combine how (Operation.all_blanksReplaced_rebuild replaces.append.1)
  | .leftJoin _ _ none, replaces => by
    obtain ⟨ofLeft, ofRight⟩ := replaces.append.1.append
    exact .leftJoin (Operation.blanksReplaced_replaceBlanks ofLeft)
      (Operation.blanksReplaced_replaceBlanks ofRight) .none
  | .leftJoin _ _ (some _), replaces => by
    obtain ⟨ofSides, ofCondition⟩ := replaces.append.1.append
    exact .leftJoin (Operation.blanksReplaced_replaceBlanks ofSides.append.1)
      (Operation.blanksReplaced_replaceBlanks ofSides.append.2)
      (.some (Expression.blanksReplaced_rebuild ofCondition))
  | .minus _ _, replaces => by
    obtain ⟨ofLeft, ofRight⟩ := replaces.append.1.append
    exact .minus (Operation.blanksReplaced_replaceBlanks ofLeft)
      (Operation.blanksReplaced_replaceBlanks ofRight)
  | .deleteInsert delete insert none, _ => by
    rw [Operator.rebuild, Rebuild.optional_ofBlanks (by decide),
      Rebuild.optional_ofBlanks (by decide)]
    exact .deleteInsert delete insert .none
  | .deleteInsert delete insert (some _), replaces => by
    rw [Operator.rebuild, Rebuild.optional_ofBlanks (by decide),
      Rebuild.optional_ofBlanks (by decide)]
    exact .deleteInsert delete insert
      (.some (Operation.blanksReplaced_replaceBlanks replaces.append.1.append.2))

theorem Expression.blanksReplaced_rebuild : ∀ {expression : Expression},
    Replaces names replace (expression.gather .ofLabels) →
    expression.BlanksReplaced names (expression.rebuild (.ofBlanks replace))
  | .term value, _ => .term value
  | .call callee _, replaces =>
    .call callee (Expression.all_blanksReplaced_rebuild replaces.append.1)
  | .aggregate name _ distinct separator, replaces =>
    .aggregate name distinct separator (Expression.blanksReplaced_rebuild replaces.append.1)
  | .existence negated _, replaces =>
    .existence negated (Operation.blanksReplaced_replaceBlanks replaces.append.1)
  | .wildcard, _ => .wildcard

theorem Operation.all_blanksReplaced_rebuild : ∀ {operations : List Operation},
    Replaces names replace (Operation.gatherAll .ofLabels operations) →
    List.Forall₂ (Operation.BlanksReplaced names) operations
      (Operation.rebuildAll (.ofBlanks replace) operations)
  | [], _ => .nil
  | _ :: _, replaces =>
    .cons (Operation.blanksReplaced_replaceBlanks replaces.append.1)
      (Operation.all_blanksReplaced_rebuild replaces.append.2)

theorem Expression.all_blanksReplaced_rebuild : ∀ {expressions : List Expression},
    Replaces names replace (Expression.gatherAll .ofLabels expressions) →
    List.Forall₂ (Expression.BlanksReplaced names) expressions
      (Expression.rebuildAll (.ofBlanks replace) expressions)
  | [], _ => .nil
  | _ :: _, replaces =>
    .cons (Expression.blanksReplaced_rebuild replaces.append.1)
      (Expression.all_blanksReplaced_rebuild replaces.append.2)

theorem BoundAggregate.all_blanksReplaced_rebuild : ∀ {aggregates : List BoundAggregate},
    Replaces names replace (BoundAggregate.gatherAll .ofLabels aggregates) →
    List.Forall₂ (BoundAggregate.BlanksReplaced names) aggregates
      (BoundAggregate.rebuildAll (.ofBlanks replace) aggregates)
  | [], _ => .nil
  | ⟨name, _⟩ :: _, replaces =>
    .cons (.mk name (Expression.blanksReplaced_rebuild replaces.append.1))
      (BoundAggregate.all_blanksReplaced_rebuild replaces.append.2)

end

end

end QueryAlgebra
