import QueryAlgebra.Proofs.Operation.Renaming
import Mathlib.Data.List.Perm.Basic

/-! # Operations that differ in names alone

Two operations correspond, under a relation of names, if they are built alike from the same IRIs,
literals, paths, numbers and metadata, and related names stand in the same places. The labels of
blank nodes in construction templates are the same. A row of inline data has its cells in the order
of its columns' names, so the cells of corresponding rows may be in different orders; none is lost.

An operation corresponds to what a renaming makes of it, provided that the renaming tells its names
apart: `Operation.corresponds_renameLocal`. Operations that correspond to a third one correspond to
each other: `Operation.Corresponds.through`.
-/

namespace QueryAlgebra

/-- The name of the same kind with another text. -/
def LocalName.withText : LocalName → String → LocalName
  | .var _, text => .var text
  | .blank _, text => .blank text

/-- Names in a construction template: the labels of its blank nodes are the same. -/
inductive InTemplate (related : LocalName → LocalName → Prop) : LocalName → LocalName → Prop where
  | var {name other : String} :
    related (.var name) (.var other) → InTemplate related (.var name) (.var other)
  | blank (label : String) : InTemplate related (.blank label) (.blank label)

section

variable (related : LocalName → LocalName → Prop)

/-- Terms with related names in the same places. -/
inductive Term.Corresponds : Term → Term → Prop where
  | iri (node : NamedNode) : Corresponds (.iri node) (.iri node)
  | blank {label other : String} :
    related (.blank label) (.blank other) → Corresponds (.blank ⟨label⟩) (.blank ⟨other⟩)
  | literal (text : Literal) : Corresponds (.literal text) (.literal text)
  | var {name other : String} :
    related (.var name) (.var other) → Corresponds (.var ⟨name⟩) (.var ⟨other⟩)
  | defaultGraph : Corresponds .defaultGraph .defaultGraph
  | quad {subject predicate object graph subject' predicate' object' graph' : Term} :
    Corresponds subject subject' → Corresponds predicate predicate' →
    Corresponds object object' → Corresponds graph graph' →
    Corresponds (.quad subject predicate object graph) (.quad subject' predicate' object' graph')

/-- Variables with related names. -/
def Variable.Corresponds (first second : Variable) : Prop :=
  related (.var first.name) (.var second.name)

/-- Patterns with related names in the same places. -/
structure Pattern.Corresponds (first second : Pattern) : Prop where
  subject : first.subject.Corresponds related second.subject
  predicate : first.predicate.Corresponds related second.predicate
  object : first.object.Corresponds related second.object
  graph : first.graph.Corresponds related second.graph

/-- Cells of inline data in related columns, with related names in the same places. -/
def CellCorresponds (first second : String × Term) : Prop :=
  related (.var first.1) (.var second.1) ∧ first.2.Corresponds related second.2

/-- Rows whose cells correspond, in some order. -/
def Row.Corresponds (first second : Row) : Prop :=
  ∃ cells, List.Forall₂ (CellCorresponds related) first.entries cells
    ∧ cells.Perm second.entries

/-- Wrappers with related names in the same places. -/
inductive Wrapper.Corresponds : Wrapper → Wrapper → Prop where
  | project {vars vars' : List Variable} :
    List.Forall₂ (Variable.Corresponds related) vars vars' →
    Corresponds (.project vars) (.project vars')
  | graph {name name' : Term} :
    name.Corresponds related name' → Corresponds (.graph name) (.graph name')
  | service {name name' : Term} (silent : Bool) :
    name.Corresponds related name' → Corresponds (.service name silent) (.service name' silent)
  | distinct : Corresponds .distinct .distinct
  | reduced : Corresponds .reduced .reduced
  | slice (start : Nat) (length : Option Nat) :
    Corresponds (.slice start length) (.slice start length)
  | dataset (default named : List NamedNode) :
    Corresponds (.dataset default named) (.dataset default named)
  | ask : Corresponds .ask .ask
  | describe {terms terms' : List Term} :
    List.Forall₂ (Term.Corresponds related) terms terms' →
    Corresponds (.describe terms) (.describe terms')

mutual

/-- Operations with the same metadata and related names in the same places. -/
inductive Operation.Corresponds : Operation → Operation → Prop where
  | mk {operator operator' : Operator} (metadata : Option Metadata) :
    Operator.Corresponds operator operator' →
    Operation.Corresponds ⟨operator, metadata⟩ ⟨operator', metadata⟩

/-- Operators of one form with related names in the same places. -/
inductive Operator.Corresponds : Operator → Operator → Prop where
  | bgp {patterns patterns' : List Pattern} :
    List.Forall₂ (Pattern.Corresponds related) patterns patterns' →
    Operator.Corresponds (.bgp patterns) (.bgp patterns')
  | values {vars vars' : List Variable} {rows rows' : List Row} :
    List.Forall₂ (Variable.Corresponds related) vars vars' →
    List.Forall₂ (Row.Corresponds related) rows rows' →
    Operator.Corresponds (.values vars rows) (.values vars' rows')
  | nop : Operator.Corresponds .nop .nop
  | path {subject object graph subject' object' graph' : Term} (predicate : Path) :
    subject.Corresponds related subject' → object.Corresponds related object' →
    graph.Corresponds related graph' →
    Operator.Corresponds (.path subject predicate object graph)
      (.path subject' predicate object' graph')
  | manage (action : GraphAction) : Operator.Corresponds (.manage action) (.manage action)
  | wrap {wrapper wrapper' : Wrapper} {input input' : Operation} :
    wrapper.Corresponds related wrapper' → Operation.Corresponds input input' →
    Operator.Corresponds (.wrap wrapper input) (.wrap wrapper' input')
  | filter {input input' : Operation} {condition condition' : Expression} :
    Operation.Corresponds input input' → Expression.Corresponds condition condition' →
    Operator.Corresponds (.filter input condition) (.filter input' condition')
  | extend {input input' : Operation} {name name' : Variable} {value value' : Expression} :
    Operation.Corresponds input input' → name.Corresponds related name' →
    Expression.Corresponds value value' →
    Operator.Corresponds (.extend input name value) (.extend input' name' value')
  | group {input input' : Operation} {keys keys' : List Variable}
    {aggregates aggregates' : List BoundAggregate} :
    Operation.Corresponds input input' →
    List.Forall₂ (Variable.Corresponds related) keys keys' →
    List.Forall₂ BoundAggregate.Corresponds aggregates aggregates' →
    Operator.Corresponds (.group input keys aggregates) (.group input' keys' aggregates')
  | orderBy {input input' : Operation} {keys keys' : List Expression} :
    Operation.Corresponds input input' → List.Forall₂ Expression.Corresponds keys keys' →
    Operator.Corresponds (.orderBy input keys) (.orderBy input' keys')
  | construct {input input' : Operation} {template template' : List Pattern} :
    Operation.Corresponds input input' →
    List.Forall₂ (Pattern.Corresponds (InTemplate related)) template template' →
    Operator.Corresponds (.construct input template) (.construct input' template')
  | combine {inputs inputs' : List Operation} (how : Combination) :
    List.Forall₂ Operation.Corresponds inputs inputs' →
    Operator.Corresponds (.combine how inputs) (.combine how inputs')
  | leftJoin {left right left' right' : Operation} {condition condition' : Option Expression} :
    Operation.Corresponds left left' → Operation.Corresponds right right' →
    Option.Rel Expression.Corresponds condition condition' →
    Operator.Corresponds (.leftJoin left right condition) (.leftJoin left' right' condition')
  | minus {left right left' right' : Operation} :
    Operation.Corresponds left left' → Operation.Corresponds right right' →
    Operator.Corresponds (.minus left right) (.minus left' right')
  | deleteInsert {delete insert delete' insert' : Option (List Pattern)}
    {scope scope' : Option Operation} :
    Option.Rel (List.Forall₂ (Pattern.Corresponds related)) delete delete' →
    Option.Rel (List.Forall₂ (Pattern.Corresponds related)) insert insert' →
    Option.Rel Operation.Corresponds scope scope' →
    Operator.Corresponds (.deleteInsert delete insert scope) (.deleteInsert delete' insert' scope')

/-- Aggregates carried by related variables. -/
inductive BoundAggregate.Corresponds : BoundAggregate → BoundAggregate → Prop where
  | mk {name name' : Variable} {expression expression' : Expression} :
    name.Corresponds related name' → Expression.Corresponds expression expression' →
    BoundAggregate.Corresponds ⟨name, expression⟩ ⟨name', expression'⟩

/-- Expressions of one form with related names in the same places. -/
inductive Expression.Corresponds : Expression → Expression → Prop where
  | term {value value' : Term} :
    value.Corresponds related value' → Expression.Corresponds (.term value) (.term value')
  | call {arguments arguments' : List Expression} (callee : Callee) :
    List.Forall₂ Expression.Corresponds arguments arguments' →
    Expression.Corresponds (.call callee arguments) (.call callee arguments')
  | aggregate {argument argument' : Expression} (name : String) (distinct : Bool)
    (separator : Option String) :
    Expression.Corresponds argument argument' →
    Expression.Corresponds (.aggregate name argument distinct separator)
      (.aggregate name argument' distinct separator)
  | existence {input input' : Operation} (negated : Bool) :
    Operation.Corresponds input input' →
    Expression.Corresponds (.existence negated input) (.existence negated input')
  | wildcard : Expression.Corresponds .wildcard .wildcard

end

end

/-! ### What a renaming makes of an operation -/

/-- A renaming gives names related ones, and different names of one kind different ones. -/
structure Renames (related : LocalName → LocalName → Prop) (rename : LocalName → String)
    (names : List LocalName) : Prop where
  related : ∀ name ∈ names, related name (name.withText (rename name))
  injective : ∀ m ∈ names, ∀ n ∈ names, m.isVar = n.isVar → rename m = rename n → m = n

namespace Renames

variable {related : LocalName → LocalName → Prop} {rename : LocalName → String}
  {names more : List LocalName}

theorem mono (renames : Renames related rename names) (subset : more ⊆ names) :
    Renames related rename more :=
  ⟨fun name mem => renames.related name (subset mem),
    fun m mem n mem' => renames.injective m (subset mem) n (subset mem')⟩

theorem append (renames : Renames related rename (names ++ more)) :
    Renames related rename names ∧ Renames related rename more :=
  ⟨renames.mono (List.subset_append_left ..), renames.mono (List.subset_append_right ..)⟩

theorem of_mem_flatMap {α : Type} {members : List α} {namesOf : α → List LocalName}
    (renames : Renames related rename (members.flatMap namesOf)) {member : α}
    (isMember : member ∈ members) : Renames related rename (namesOf member) :=
  renames.mono fun _ mem => List.mem_flatMap_of_mem isMember mem

/-- The renaming of a template renames its variables alone. -/
theorem inTemplate (renames : Renames related rename (names.filter LocalName.isVar)) :
    Renames (InTemplate related) (ofTemplate rename) names where
  related name mem := by
    cases name with
    | var name => exact .var (renames.related (.var name) (List.mem_filter.2 ⟨mem, rfl⟩))
    | blank label => exact .blank label
  injective m mem n mem' kind same := by
    cases m with
    | var name =>
      cases n with
      | var other =>
        exact renames.injective _ (List.mem_filter.2 ⟨mem, rfl⟩) _ (List.mem_filter.2 ⟨mem', rfl⟩)
          rfl same
      | blank other => cases kind
    | blank label =>
      cases n with
      | var other => cases kind
      | blank other => exact congrArg LocalName.blank same

end Renames

section

variable {related : LocalName → LocalName → Prop} {rename : LocalName → String}

namespace Term

theorem corresponds_renameLocal {term : Term} (renames : Renames related rename term.localNames) :
    term.Corresponds related (term.renameLocal rename) := by
  induction term with
  | iri node => exact .iri node
  | blank node => exact .blank (renames.related (.blank node.label) (by simp [localNames, nested]))
  | literal text => exact .literal text
  | var name => exact .var (renames.related (.var name.name) (by simp [localNames, nested]))
  | defaultGraph => exact .defaultGraph
  | quad subject predicate object graph ihSubject ihPredicate ihObject ihGraph =>
    rw [localNames_quad] at renames
    obtain ⟨renames, ofGraph⟩ := renames.append
    obtain ⟨renames, ofObject⟩ := renames.append
    obtain ⟨ofSubject, ofPredicate⟩ := renames.append
    exact .quad (ihSubject ofSubject) (ihPredicate ofPredicate) (ihObject ofObject)
      (ihGraph ofGraph)

theorem all_correspond_renameLocal {terms : List Term}
    (renames : Renames related rename (terms.flatMap localNames)) :
    List.Forall₂ (Corresponds related) terms (terms.map (renameLocal rename)) :=
  List.forall₂_map_right_iff.2 (List.forall₂_same.2 fun _ member =>
    corresponds_renameLocal (renames.of_mem_flatMap member))

end Term

namespace Variable

theorem corresponds_mapTerm {name : Variable}
    (renames : Renames related rename (Term.var name).localNames) :
    name.Corresponds related (name.mapTerm (Term.renameLocal rename)) :=
  renames.related (.var name.name) (by simp [Term.localNames, Term.nested])

theorem all_correspond_mapTerm {vars : List Variable}
    (renames : Renames related rename ((vars.map Term.var).flatMap Term.localNames)) :
    List.Forall₂ (Corresponds related) vars (vars.map (mapTerm (Term.renameLocal rename))) :=
  List.forall₂_map_right_iff.2 (List.forall₂_same.2 fun _ member =>
    corresponds_mapTerm (renames.of_mem_flatMap (List.mem_map_of_mem member)))

end Variable

namespace Pattern

theorem corresponds_mapTerms {pattern : Pattern}
    (renames : Renames related rename (pattern.terms.flatMap Term.localNames)) :
    pattern.Corresponds related (pattern.mapTerms (Term.renameLocal rename)) :=
  ⟨Term.corresponds_renameLocal (renames.of_mem_flatMap (by simp [terms])),
    Term.corresponds_renameLocal (renames.of_mem_flatMap (by simp [terms])),
    Term.corresponds_renameLocal (renames.of_mem_flatMap (by simp [terms])),
    Term.corresponds_renameLocal (renames.of_mem_flatMap (by simp [terms]))⟩

theorem all_correspond_mapTerms {place : Place} (outside : place ≠ .template)
    {patterns : List Pattern}
    (renames : Renames related rename (patterns.flatMap (Gather.ofLocalNames.pattern place))) :
    List.Forall₂ (Corresponds related) patterns
      (patterns.map ((Rebuild.ofRenaming rename).pattern place)) := by
  simp only [Gather.ofLocalNames, if_neg outside] at renames
  simp only [Rebuild.ofRenaming, if_neg outside]
  exact List.forall₂_map_right_iff.2 (List.forall₂_same.2 fun _ member =>
    corresponds_mapTerms (renames.of_mem_flatMap member))

theorem template_corresponds_mapTerms {patterns : List Pattern}
    (renames : Renames related rename
      (patterns.flatMap (Gather.ofLocalNames.pattern .template))) :
    List.Forall₂ (Corresponds (InTemplate related)) patterns
      (patterns.map ((Rebuild.ofRenaming rename).pattern .template)) :=
  List.forall₂_map_right_iff.2 (List.forall₂_same.2 fun _ member =>
    corresponds_mapTerms (renames.of_mem_flatMap member).inTemplate)

theorem optional_corresponds_mapTerms {place : Place} (outside : place ≠ .template)
    {patterns : Option (List Pattern)} (renames : Renames related rename
      ((patterns.getD []).flatMap (Gather.ofLocalNames.pattern place))) :
    Option.Rel (List.Forall₂ (Corresponds related)) patterns
      (patterns.map (·.map ((Rebuild.ofRenaming rename).pattern place))) := by
  cases patterns with
  | none => exact .none
  | some patterns => exact .some (all_correspond_mapTerms outside renames)

end Pattern

/-- No cell of a row is lost if its columns have different new names. -/
theorem Row.corresponds_mapRow {row : Row}
    (renames : Renames related rename ((rowTerms row).flatMap Term.localNames)) :
    row.Corresponds related (mapRow (Term.renameLocal rename) row) := by
  have ofEntry : ∀ entry ∈ row.entries, .var entry.1 ∈ (rowTerms row).flatMap Term.localNames :=
    fun entry member => subset_names_row member (List.mem_cons_self ..)
  refine ⟨row.entries.map _, List.forall₂_map_right_iff.2 (List.forall₂_same.2 ?_),
    NameMap.perm_entries_ofList (nodup_mapRow ?_)⟩
  · intro entry member
    have ofCell := renames.mono (subset_names_row member)
    exact ⟨ofCell.related _ (List.mem_cons_self ..),
      Term.corresponds_renameLocal (ofCell.mono (List.subset_cons_self ..))⟩
  · intro entry member entry' member' same
    exact LocalName.var.inj
      (renames.injective _ (ofEntry entry member) _ (ofEntry entry' member') rfl same)

namespace Wrapper

theorem corresponds_mapOwnTerms {wrapper : Wrapper}
    (renames : Renames related rename (wrapper.ownTerms.flatMap Term.localNames)) :
    wrapper.Corresponds related (wrapper.mapOwnTerms (Term.renameLocal rename)) := by
  cases wrapper with
  | project vars => exact .project (Variable.all_correspond_mapTerm renames)
  | graph name =>
    exact .graph (Term.corresponds_renameLocal (renames.of_mem_flatMap (List.mem_singleton_self _)))
  | service name silent =>
    exact .service silent
      (Term.corresponds_renameLocal (renames.of_mem_flatMap (List.mem_singleton_self _)))
  | distinct => exact .distinct
  | reduced => exact .reduced
  | slice start length => exact .slice start length
  | dataset default named => exact .dataset default named
  | ask => exact .ask
  | describe terms => exact .describe (Term.all_correspond_renameLocal renames)

end Wrapper

mutual

/-- An operation corresponds to what a renaming makes of it. -/
theorem Operation.corresponds_renameLocal : ∀ {operation : Operation},
    Renames related rename operation.localNames →
    operation.Corresponds related (operation.renameLocal rename)
  | ⟨_, metadata⟩, renames => .mk metadata (Operator.corresponds_renameLocal renames)

theorem Operator.corresponds_renameLocal : ∀ {operator : Operator},
    Renames related rename operator.localNames →
    operator.Corresponds related (operator.renameLocal rename)
  | .bgp _, renames => .bgp (Pattern.all_correspond_mapTerms (by decide) renames.append.1)
  | .values vars rows, renames => by
    have ofTerms := renames.append.2
    rw [Operator.ownTerms, List.flatMap_append] at ofTerms
    obtain ⟨ofVars, ofRows⟩ := ofTerms.append
    rw [List.flatMap_assoc] at ofRows
    exact .values (Variable.all_correspond_mapTerm ofVars)
      (List.forall₂_map_right_iff.2 (List.forall₂_same.2 fun _ member =>
        Row.corresponds_mapRow (ofRows.of_mem_flatMap member)))
  | .nop, _ => .nop
  | .path subject predicate object graph, renames => by
    have ofTerms := renames.append.2
    exact .path predicate
      (Term.corresponds_renameLocal (ofTerms.of_mem_flatMap (by simp [Operator.ownTerms])))
      (Term.corresponds_renameLocal (ofTerms.of_mem_flatMap (by simp [Operator.ownTerms])))
      (Term.corresponds_renameLocal (ofTerms.of_mem_flatMap (by simp [Operator.ownTerms])))
  | .manage action, _ => .manage action
  | .wrap _ _, renames =>
    .wrap (Wrapper.corresponds_mapOwnTerms renames.append.2)
      (Operation.corresponds_renameLocal renames.append.1)
  | .filter _ _, renames => by
    obtain ⟨ofInput, ofCondition⟩ := renames.append.1.append
    exact .filter (Operation.corresponds_renameLocal ofInput)
      (Expression.corresponds_rebuild ofCondition)
  | .extend _ _ _, renames => by
    obtain ⟨ofInput, ofValue⟩ := renames.append.1.append
    exact .extend (Operation.corresponds_renameLocal ofInput)
      (Variable.corresponds_mapTerm (renames.append.2.of_mem_flatMap (List.mem_singleton_self _)))
      (Expression.corresponds_rebuild ofValue)
  | .group _ keys aggregates, renames => by
    obtain ⟨ofInput, ofAggregates⟩ := renames.append.1.append
    have ofNames := renames.append.2
    rw [Operator.ownTerms, List.flatMap_append] at ofNames
    exact .group (Operation.corresponds_renameLocal ofInput)
      (Variable.all_correspond_mapTerm ofNames.append.1)
      (BoundAggregate.all_correspond_rebuild ofAggregates ofNames.append.2)
  | .orderBy _ _, renames => by
    obtain ⟨ofInput, ofKeys⟩ := renames.append.1.append
    exact .orderBy (Operation.corresponds_renameLocal ofInput)
      (Expression.all_correspond_rebuild ofKeys)
  | .construct _ _, renames => by
    obtain ⟨ofInput, ofTemplate⟩ := renames.append.1.append
    exact .construct (Operation.corresponds_renameLocal ofInput)
      (Pattern.template_corresponds_mapTerms ofTemplate)
  | .combine how _, renames =>
    .combine how (Operation.all_correspond_renameLocal renames.append.1)
  | .leftJoin _ _ none, renames => by
    obtain ⟨ofLeft, ofRight⟩ := renames.append.1.append
    exact .leftJoin (Operation.corresponds_renameLocal ofLeft)
      (Operation.corresponds_renameLocal ofRight) .none
  | .leftJoin _ _ (some _), renames => by
    obtain ⟨ofSides, ofCondition⟩ := renames.append.1.append
    obtain ⟨ofLeft, ofRight⟩ := ofSides.append
    exact .leftJoin (Operation.corresponds_renameLocal ofLeft)
      (Operation.corresponds_renameLocal ofRight)
      (.some (Expression.corresponds_rebuild ofCondition))
  | .minus _ _, renames => by
    obtain ⟨ofLeft, ofRight⟩ := renames.append.1.append
    exact .minus (Operation.corresponds_renameLocal ofLeft)
      (Operation.corresponds_renameLocal ofRight)
  | .deleteInsert _ _ none, renames => by
    obtain ⟨ofDelete, ofInsert⟩ := renames.append.1.append
    exact .deleteInsert (Pattern.optional_corresponds_mapTerms (by decide) ofDelete)
      (Pattern.optional_corresponds_mapTerms (by decide) ofInsert) .none
  | .deleteInsert _ _ (some _), renames => by
    obtain ⟨ofTemplates, ofScope⟩ := renames.append.1.append
    obtain ⟨ofDelete, ofInsert⟩ := ofTemplates.append
    exact .deleteInsert (Pattern.optional_corresponds_mapTerms (by decide) ofDelete)
      (Pattern.optional_corresponds_mapTerms (by decide) ofInsert)
      (.some (Operation.corresponds_renameLocal ofScope))

theorem Expression.corresponds_rebuild : ∀ {expression : Expression},
    Renames related rename (expression.gather .ofLocalNames) →
    expression.Corresponds related (expression.rebuild (.ofRenaming rename))
  | .term _, renames =>
    .term (Term.corresponds_renameLocal (renames.of_mem_flatMap (List.mem_singleton_self _)))
  | .call callee _, renames =>
    .call callee (Expression.all_correspond_rebuild renames.append.1)
  | .aggregate name _ distinct separator, renames =>
    .aggregate name distinct separator (Expression.corresponds_rebuild renames.append.1)
  | .existence negated _, renames =>
    .existence negated (Operation.corresponds_renameLocal renames.append.1)
  | .wildcard, _ => .wildcard

theorem Operation.all_correspond_renameLocal : ∀ {operations : List Operation},
    Renames related rename (Operation.gatherAll .ofLocalNames operations) →
    List.Forall₂ (Operation.Corresponds related) operations
      (Operation.rebuildAll (.ofRenaming rename) operations)
  | [], _ => .nil
  | _ :: _, renames =>
    .cons (Operation.corresponds_renameLocal renames.append.1)
      (Operation.all_correspond_renameLocal renames.append.2)

theorem Expression.all_correspond_rebuild : ∀ {expressions : List Expression},
    Renames related rename (Expression.gatherAll .ofLocalNames expressions) →
    List.Forall₂ (Expression.Corresponds related) expressions
      (Expression.rebuildAll (.ofRenaming rename) expressions)
  | [], _ => .nil
  | _ :: _, renames =>
    .cons (Expression.corresponds_rebuild renames.append.1)
      (Expression.all_correspond_rebuild renames.append.2)

theorem BoundAggregate.all_correspond_rebuild : ∀ {aggregates : List BoundAggregate},
    Renames related rename (BoundAggregate.gatherAll .ofLocalNames aggregates) →
    Renames related rename ((aggregates.map (Term.var ·.name)).flatMap Term.localNames) →
    List.Forall₂ (BoundAggregate.Corresponds related) aggregates
      ((BoundAggregate.rebuildAll (.ofRenaming rename) aggregates).map fun bound =>
        ⟨bound.name.mapTerm (Term.renameLocal rename), bound.expression⟩)
  | [], _, _ => .nil
  | ⟨_, _⟩ :: _, renames, ofNames => by
    obtain ⟨ofHead, ofRest⟩ := renames.append
    rw [List.map_cons, List.flatMap_cons] at ofNames
    exact .cons (.mk (Variable.corresponds_mapTerm ofNames.append.1)
      (Expression.corresponds_rebuild ofHead))
      (BoundAggregate.all_correspond_rebuild ofRest ofNames.append.2)

end

end

/-! ### Operations that correspond to a third -/

private theorem forall₂_through {α β γ : Type} {P : α → γ → Prop} {Q : β → γ → Prop}
    {R : α → β → Prop} (joins : ∀ x y z, P x z → Q y z → R x y) {xs : List α} {ys : List β}
    {zs : List γ} (first : List.Forall₂ P xs zs) (second : List.Forall₂ Q ys zs) :
    List.Forall₂ R xs ys := by
  induction first generalizing ys with
  | nil =>
    cases second
    exact .nil
  | cons head _ ih =>
    cases second with
    | cons head' rest' => exact .cons (joins _ _ _ head head') (ih rest')

section

variable {P Q R : LocalName → LocalName → Prop}

theorem InTemplate.through (joins : ∀ m n k, P m k → Q n k → R m n) :
    ∀ m n k, InTemplate P m k → InTemplate Q n k → InTemplate R m n
  | _, _, _, .var first, .var second => .var (joins _ _ _ first second)
  | _, _, _, .blank label, .blank _ => .blank label

theorem Term.Corresponds.through (joins : ∀ m n k, P m k → Q n k → R m n) :
    ∀ first second third : Term, first.Corresponds P third → second.Corresponds Q third →
      first.Corresponds R second
  | _, _, _, .iri node, .iri _ => .iri node
  | _, _, _, .blank first, .blank second => .blank (joins _ _ _ first second)
  | _, _, _, .literal text, .literal _ => .literal text
  | _, _, _, .var first, .var second => .var (joins _ _ _ first second)
  | _, _, _, .defaultGraph, .defaultGraph => .defaultGraph
  | _, _, _, .quad subject predicate object graph, .quad subject' predicate' object' graph' =>
    .quad (through joins _ _ _ subject subject') (through joins _ _ _ predicate predicate')
      (through joins _ _ _ object object') (through joins _ _ _ graph graph')

theorem Variable.Corresponds.through (joins : ∀ m n k, P m k → Q n k → R m n)
    (first second third : Variable) (ofFirst : first.Corresponds P third)
    (ofSecond : second.Corresponds Q third) : first.Corresponds R second :=
  joins _ _ _ ofFirst ofSecond

theorem Pattern.Corresponds.through (joins : ∀ m n k, P m k → Q n k → R m n)
    (first second third : Pattern) (ofFirst : first.Corresponds P third)
    (ofSecond : second.Corresponds Q third) : first.Corresponds R second :=
  ⟨.through joins _ _ _ ofFirst.subject ofSecond.subject,
    .through joins _ _ _ ofFirst.predicate ofSecond.predicate,
    .through joins _ _ _ ofFirst.object ofSecond.object,
    .through joins _ _ _ ofFirst.graph ofSecond.graph⟩

private theorem Pattern.Corresponds.optional_through (joins : ∀ m n k, P m k → Q n k → R m n)
    {first second third : Option (List Pattern)}
    (ofFirst : Option.Rel (List.Forall₂ (Pattern.Corresponds P)) first third)
    (ofSecond : Option.Rel (List.Forall₂ (Pattern.Corresponds Q)) second third) :
    Option.Rel (List.Forall₂ (Pattern.Corresponds R)) first second := by
  cases ofFirst with
  | none =>
    cases ofSecond
    exact .none
  | some ofFirst =>
    cases ofSecond with
    | some ofSecond =>
      exact .some (forall₂_through (Pattern.Corresponds.through joins) ofFirst ofSecond)

theorem Row.Corresponds.through (joins : ∀ m n k, P m k → Q n k → R m n)
    (first second third : Row) (ofFirst : first.Corresponds P third)
    (ofSecond : second.Corresponds Q third) : first.Corresponds R second := by
  obtain ⟨cells, ofFirst, perm⟩ := ofFirst
  obtain ⟨cells', ofSecond, perm'⟩ := ofSecond
  -- The cells of the second row in the order that those of the first have in the third.
  obtain ⟨cells'', ofSecond, perm''⟩ :=
    List.perm_comp_forall₂ (perm.trans perm'.symm) (List.Forall₂.flip ofSecond)
  exact ⟨cells'', forall₂_through (fun _ _ _ first second =>
    ⟨joins _ _ _ first.1 second.1, .through joins _ _ _ first.2 second.2⟩) ofFirst
    (List.Forall₂.flip ofSecond), perm''⟩

theorem Wrapper.Corresponds.through (joins : ∀ m n k, P m k → Q n k → R m n) :
    ∀ first second third : Wrapper, first.Corresponds P third → second.Corresponds Q third →
      first.Corresponds R second
  | _, _, _, .project first, .project second =>
    .project (forall₂_through (Variable.Corresponds.through joins) first second)
  | _, _, _, .graph first, .graph second => .graph (.through joins _ _ _ first second)
  | _, _, _, .service silent first, .service _ second =>
    .service silent (.through joins _ _ _ first second)
  | _, _, _, .distinct, .distinct => .distinct
  | _, _, _, .reduced, .reduced => .reduced
  | _, _, _, .slice start length, .slice _ _ => .slice start length
  | _, _, _, .dataset default named, .dataset _ _ => .dataset default named
  | _, _, _, .ask, .ask => .ask
  | _, _, _, .describe first, .describe second =>
    .describe (forall₂_through (Term.Corresponds.through joins) first second)

mutual

theorem Operation.Corresponds.through (joins : ∀ m n k, P m k → Q n k → R m n) :
    ∀ {first second third : Operation}, first.Corresponds P third → second.Corresponds Q third →
      first.Corresponds R second
  | ⟨_, _⟩, ⟨_, _⟩, ⟨_, _⟩, .mk metadata first, .mk _ second =>
    .mk metadata (Operator.Corresponds.through joins first second)
termination_by structural first => first

theorem Operator.Corresponds.through (joins : ∀ m n k, P m k → Q n k → R m n) :
    ∀ {first second third : Operator}, first.Corresponds P third → second.Corresponds Q third →
      first.Corresponds R second
  | .bgp _, _, _, .bgp first, .bgp second =>
    .bgp (forall₂_through (Pattern.Corresponds.through joins) first second)
  | .values _ _, _, _, .values first rows, .values second rows' =>
    .values (forall₂_through (Variable.Corresponds.through joins) first second)
      (forall₂_through (Row.Corresponds.through joins) rows rows')
  | .nop, _, _, .nop, .nop => .nop
  | .path _ _ _ _, _, _, .path predicate subject object graph, .path _ subject' object' graph' =>
    .path predicate (.through joins _ _ _ subject subject') (.through joins _ _ _ object object')
      (.through joins _ _ _ graph graph')
  | .manage _, _, _, .manage action, .manage _ => .manage action
  | .wrap _ _, _, _, .wrap wrapper input, .wrap wrapper' input' =>
    .wrap (.through joins _ _ _ wrapper wrapper')
      (Operation.Corresponds.through joins input input')
  | .filter _ _, _, _, .filter input condition, .filter input' condition' =>
    .filter (Operation.Corresponds.through joins input input')
      (Expression.Corresponds.through joins condition condition')
  | .extend _ _ _, _, _, .extend input name value, .extend input' name' value' =>
    .extend (Operation.Corresponds.through joins input input') (joins _ _ _ name name')
      (Expression.Corresponds.through joins value value')
  | .group _ _ _, _, _, .group input keys aggregates, .group input' keys' aggregates' =>
    .group (Operation.Corresponds.through joins input input')
      (forall₂_through (Variable.Corresponds.through joins) keys keys')
      (BoundAggregate.Corresponds.all_through joins aggregates aggregates')
  | .orderBy _ _, _, _, .orderBy input keys, .orderBy input' keys' =>
    .orderBy (Operation.Corresponds.through joins input input')
      (Expression.Corresponds.all_through joins keys keys')
  | .construct _ _, _, _, .construct input template, .construct input' template' =>
    .construct (Operation.Corresponds.through joins input input')
      (forall₂_through (Pattern.Corresponds.through (InTemplate.through joins)) template template')
  | .combine _ _, _, _, .combine how inputs, .combine _ inputs' =>
    .combine how (Operation.Corresponds.all_through joins inputs inputs')
  | .leftJoin _ _ _, _, _, .leftJoin left right .none, .leftJoin left' right' .none =>
    .leftJoin (Operation.Corresponds.through joins left left')
      (Operation.Corresponds.through joins right right') .none
  | .leftJoin _ _ _, _, _, .leftJoin left right (.some condition),
      .leftJoin left' right' (.some condition') =>
    .leftJoin (Operation.Corresponds.through joins left left')
      (Operation.Corresponds.through joins right right')
      (.some (Expression.Corresponds.through joins condition condition'))
  | .minus _ _, _, _, .minus left right, .minus left' right' =>
    .minus (Operation.Corresponds.through joins left left')
      (Operation.Corresponds.through joins right right')
  | .deleteInsert _ _ _, _, _, .deleteInsert delete insert .none,
      .deleteInsert delete' insert' .none =>
    .deleteInsert (Pattern.Corresponds.optional_through joins delete delete')
      (Pattern.Corresponds.optional_through joins insert insert') .none
  | .deleteInsert _ _ _, _, _, .deleteInsert delete insert (.some scope),
      .deleteInsert delete' insert' (.some scope') =>
    .deleteInsert (Pattern.Corresponds.optional_through joins delete delete')
      (Pattern.Corresponds.optional_through joins insert insert')
      (.some (Operation.Corresponds.through joins scope scope'))
termination_by structural first => first

theorem Expression.Corresponds.through (joins : ∀ m n k, P m k → Q n k → R m n) :
    ∀ {first second third : Expression}, first.Corresponds P third → second.Corresponds Q third →
      first.Corresponds R second
  | .term _, _, _, .term first, .term second => .term (.through joins _ _ _ first second)
  | .call _ _, _, _, .call callee arguments, .call _ arguments' =>
    .call callee (Expression.Corresponds.all_through joins arguments arguments')
  | .aggregate .., _, _, .aggregate name distinct separator argument, .aggregate _ _ _ argument' =>
    .aggregate name distinct separator (Expression.Corresponds.through joins argument argument')
  | .existence _ _, _, _, .existence negated input, .existence _ input' =>
    .existence negated (Operation.Corresponds.through joins input input')
  | .wildcard, _, _, .wildcard, .wildcard => .wildcard
termination_by structural first => first

theorem Operation.Corresponds.all_through (joins : ∀ m n k, P m k → Q n k → R m n) :
    ∀ {first second third : List Operation},
      List.Forall₂ (Operation.Corresponds P) first third →
      List.Forall₂ (Operation.Corresponds Q) second third →
      List.Forall₂ (Operation.Corresponds R) first second
  | [], _, _, .nil, .nil => .nil
  | _ :: _, _, _, .cons first firsts, .cons second seconds =>
    .cons (Operation.Corresponds.through joins first second)
      (Operation.Corresponds.all_through joins firsts seconds)
termination_by structural first => first

theorem Expression.Corresponds.all_through (joins : ∀ m n k, P m k → Q n k → R m n) :
    ∀ {first second third : List Expression},
      List.Forall₂ (Expression.Corresponds P) first third →
      List.Forall₂ (Expression.Corresponds Q) second third →
      List.Forall₂ (Expression.Corresponds R) first second
  | [], _, _, .nil, .nil => .nil
  | _ :: _, _, _, .cons first firsts, .cons second seconds =>
    .cons (Expression.Corresponds.through joins first second)
      (Expression.Corresponds.all_through joins firsts seconds)
termination_by structural first => first

theorem BoundAggregate.Corresponds.all_through (joins : ∀ m n k, P m k → Q n k → R m n) :
    ∀ {first second third : List BoundAggregate},
      List.Forall₂ (BoundAggregate.Corresponds P) first third →
      List.Forall₂ (BoundAggregate.Corresponds Q) second third →
      List.Forall₂ (BoundAggregate.Corresponds R) first second
  | [], _, _, .nil, .nil => .nil
  | ⟨_, _⟩ :: _, _, _, .cons (.mk name first) firsts, .cons (.mk name' second) seconds =>
    .cons (.mk (joins _ _ _ name name') (Expression.Corresponds.through joins first second))
      (BoundAggregate.Corresponds.all_through joins firsts seconds)
termination_by structural first => first

end

end

end QueryAlgebra
