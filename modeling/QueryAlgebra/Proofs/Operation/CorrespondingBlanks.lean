import QueryAlgebra.Proofs.Operation.BlankReplacement
import QueryAlgebra.Proofs.Operation.CorrespondingNames

/-! # Blank nodes of corresponding operations

If related labels are the same, corresponding operations have the same labels in their patterns and
paths, `Operation.Corresponds.labels`. They still correspond after the labels have been replaced,
each by terms that correspond: `Operation.Corresponds.replaceBlanks`.
-/

namespace QueryAlgebra

variable {related : LocalName → LocalName → Prop} {replace replace' : String → Term}

/-- Related labels of blank nodes are the same. -/
def SameLabels (related : LocalName → LocalName → Prop) : Prop :=
  ∀ label other, related (.blank label) (.blank other) → label = other

/-! ### Labels -/

theorem Term.Corresponds.labels (same : SameLabels related) {first second : Term}
    (correspond : first.Corresponds related second) : first.labels = second.labels := by
  induction correspond with
  | iri | literal | var | defaultGraph => rfl
  | blank isRelated => rw [same _ _ isRelated]
  | quad _ _ _ _ ofSubject ofPredicate ofObject ofGraph =>
    rw [labels_quad, labels_quad, ofSubject, ofPredicate, ofObject, ofGraph]

theorem Pattern.Corresponds.labels (same : SameLabels related) {first second : Pattern}
    (correspond : first.Corresponds related second) :
    first.terms.flatMap Term.labels = second.terms.flatMap Term.labels := by
  simp only [terms, List.flatMap_cons, List.flatMap_nil, correspond.subject.labels same,
    correspond.predicate.labels same, correspond.object.labels same, correspond.graph.labels same]

private theorem flatMap_labels (same : SameLabels related) {first second : List Pattern}
    (correspond : List.Forall₂ (Pattern.Corresponds related) first second) :
    first.flatMap (Gather.ofLabels.pattern .bgp)
      = second.flatMap (Gather.ofLabels.pattern .bgp) := by
  induction correspond with
  | nil => rfl
  | cons head _ ih => exact congrArg₂ (· ++ ·) (head.labels same) ih

/-- Templates have no labels that are replaced. -/
private theorem flatMap_template {place : Place} (isTemplate : place ≠ .bgp)
    (patterns : List Pattern) : patterns.flatMap (Gather.ofLabels.pattern place) = [] :=
  List.flatMap_eq_nil_iff.2 fun _ _ => if_neg isTemplate

theorem Operator.Corresponds.pathLabels (same : SameLabels related) {first second : Operator}
    (correspond : first.Corresponds related second) : first.pathLabels = second.pathLabels := by
  cases correspond with
  | path predicate subject object graph =>
    rw [Operator.pathLabels, Operator.pathLabels, subject.labels same, object.labels same,
      graph.labels same]
  | _ => rfl

mutual

theorem Operation.Corresponds.gather_labels (same : SameLabels related) :
    ∀ {first second : Operation}, first.Corresponds related second →
    first.gather .ofLabels = second.gather .ofLabels
  | ⟨_, _⟩, _, .mk _ operators =>
    congrArg₂ (· ++ ·) (Operator.Corresponds.gather_labels same operators)
      (operators.pathLabels same)
termination_by structural first => first

theorem Operator.Corresponds.gather_labels (same : SameLabels related) :
    ∀ {first second : Operator}, first.Corresponds related second →
    first.gather .ofLabels = second.gather .ofLabels
  | .bgp _, _, .bgp patterns => flatMap_labels same patterns
  | .values _ _, _, .values _ _ => rfl
  | .nop, _, .nop => rfl
  | .path .., _, .path _ _ _ _ => rfl
  | .manage _, _, .manage _ => rfl
  | .wrap _ _, _, .wrap _ input => Operation.Corresponds.gather_labels same input
  | .filter _ _, _, .filter input condition =>
    congrArg₂ (· ++ ·) (Operation.Corresponds.gather_labels same input)
      (Expression.Corresponds.gather_labels same condition)
  | .extend _ _ _, _, .extend input _ value =>
    congrArg₂ (· ++ ·) (Operation.Corresponds.gather_labels same input)
      (Expression.Corresponds.gather_labels same value)
  | .group _ _ _, _, .group input _ aggregates =>
    congrArg₂ (· ++ ·) (Operation.Corresponds.gather_labels same input)
      (BoundAggregate.Corresponds.all_gather_labels same aggregates)
  | .orderBy _ _, _, .orderBy input keys =>
    congrArg₂ (· ++ ·) (Operation.Corresponds.gather_labels same input)
      (Expression.Corresponds.all_gather_labels same keys)
  | .construct _ _, _, .construct input _ => by
    rw [Operator.gather, Operator.gather, flatMap_template (by decide),
      flatMap_template (by decide),
      Operation.Corresponds.gather_labels same input]
  | .combine _ _, _, .combine _ inputs => Operation.Corresponds.all_gather_labels same inputs
  | .leftJoin _ _ _, _, .leftJoin left right .none =>
    congrArg₂ (· ++ ·) (Operation.Corresponds.gather_labels same left)
      (Operation.Corresponds.gather_labels same right)
  | .leftJoin _ _ _, _, .leftJoin left right (.some condition) =>
    congrArg₂ (· ++ ·)
      (congrArg₂ (· ++ ·) (Operation.Corresponds.gather_labels same left)
        (Operation.Corresponds.gather_labels same right))
      (Expression.Corresponds.gather_labels same condition)
  | .minus _ _, _, .minus left right =>
    congrArg₂ (· ++ ·) (Operation.Corresponds.gather_labels same left)
      (Operation.Corresponds.gather_labels same right)
  | .deleteInsert _ _ _, _, .deleteInsert _ _ .none => by
    simp only [Operator.gather, flatMap_template (by decide : Place.delete ≠ .bgp),
      flatMap_template (by decide : Place.insert ≠ .bgp)]
  | .deleteInsert _ _ _, _, .deleteInsert _ _ (.some scope) => by
    simp only [Operator.gather, flatMap_template (by decide : Place.delete ≠ .bgp),
      flatMap_template (by decide : Place.insert ≠ .bgp),
      Operation.Corresponds.gather_labels same scope]
termination_by structural first => first

theorem Expression.Corresponds.gather_labels (same : SameLabels related) :
    ∀ {first second : Expression}, first.Corresponds related second →
    first.gather .ofLabels = second.gather .ofLabels
  | .term _, _, .term _ => rfl
  | .call _ _, _, .call _ arguments =>
    congrArg (· ++ []) (Expression.Corresponds.all_gather_labels same arguments)
  | .aggregate .., _, .aggregate _ _ _ argument =>
    congrArg (· ++ []) (Expression.Corresponds.gather_labels same argument)
  | .existence _ _, _, .existence _ input =>
    congrArg (· ++ []) (Operation.Corresponds.gather_labels same input)
  | .wildcard, _, .wildcard => rfl
termination_by structural first => first

theorem Operation.Corresponds.all_gather_labels (same : SameLabels related) :
    ∀ {first second : List Operation},
    List.Forall₂ (Operation.Corresponds related) first second →
    Operation.gatherAll .ofLabels first = Operation.gatherAll .ofLabels second
  | [], _, .nil => rfl
  | _ :: _, _, .cons head rest =>
    congrArg₂ (· ++ ·) (Operation.Corresponds.gather_labels same head)
      (Operation.Corresponds.all_gather_labels same rest)
termination_by structural first => first

theorem Expression.Corresponds.all_gather_labels (same : SameLabels related) :
    ∀ {first second : List Expression},
    List.Forall₂ (Expression.Corresponds related) first second →
    Expression.gatherAll .ofLabels first = Expression.gatherAll .ofLabels second
  | [], _, .nil => rfl
  | _ :: _, _, .cons head rest =>
    congrArg₂ (· ++ ·) (Expression.Corresponds.gather_labels same head)
      (Expression.Corresponds.all_gather_labels same rest)
termination_by structural first => first

theorem BoundAggregate.Corresponds.all_gather_labels (same : SameLabels related) :
    ∀ {first second : List BoundAggregate},
    List.Forall₂ (BoundAggregate.Corresponds related) first second →
    BoundAggregate.gatherAll .ofLabels first = BoundAggregate.gatherAll .ofLabels second
  | [], _, .nil => rfl
  | ⟨_, _⟩ :: _, _, .cons (.mk _ expression) rest =>
    congrArg₂ (· ++ ·) (Expression.Corresponds.gather_labels same expression)
      (BoundAggregate.Corresponds.all_gather_labels same rest)
termination_by structural first => first

end

/-- Corresponding operations have the same labels, if related labels are the same. -/
theorem Operation.Corresponds.labels (same : SameLabels related) {first second : Operation}
    (correspond : first.Corresponds related second) : first.labels = second.labels :=
  congrArg firstSeen (correspond.gather_labels same)

/-! ### Labels replaced -/

/-- Related labels are the same, and each is replaced by terms that correspond. -/
structure ReplacedAlike (related : LocalName → LocalName → Prop)
    (replace replace' : String → Term) : Prop where
  same : SameLabels related
  terms (label : String) : (replace label).Corresponds related (replace' label)

theorem Term.Corresponds.replaceBlanks (alike : ReplacedAlike related replace replace')
    {first second : Term} (correspond : first.Corresponds related second) :
    (first.replaceBlanks replace).Corresponds related (second.replaceBlanks replace') := by
  induction correspond with
  | iri node => exact .iri node
  | literal text => exact .literal text
  | var isRelated => exact .var isRelated
  | defaultGraph => exact .defaultGraph
  | @blank label _ isRelated =>
    obtain rfl := alike.same _ _ isRelated
    exact alike.terms label
  | quad _ _ _ _ ofSubject ofPredicate ofObject ofGraph =>
    exact .quad ofSubject ofPredicate ofObject ofGraph

private theorem patterns_replaceBlanks (alike : ReplacedAlike related replace replace')
    {first second : List Pattern}
    (correspond : List.Forall₂ (Pattern.Corresponds related) first second) :
    List.Forall₂ (Pattern.Corresponds related)
      (first.map ((Rebuild.ofBlanks replace).pattern .bgp))
      (second.map ((Rebuild.ofBlanks replace').pattern .bgp)) :=
  List.forall₂_map_left_iff.2 <| List.forall₂_map_right_iff.2 <| correspond.imp fun _ _ pattern =>
    ⟨pattern.subject.replaceBlanks alike, pattern.predicate.replaceBlanks alike,
      pattern.object.replaceBlanks alike, pattern.graph.replaceBlanks alike⟩

theorem Operator.Corresponds.replacePathBlanks (alike : ReplacedAlike related replace replace')
    {first second : Operator} (correspond : first.Corresponds related second) :
    (first.replacePathBlanks replace).Corresponds related (second.replacePathBlanks replace') := by
  cases correspond with
  | path predicate subject object graph =>
    exact .path predicate (subject.replaceBlanks alike) (object.replaceBlanks alike)
      (graph.replaceBlanks alike)
  | bgp patterns => exact .bgp patterns
  | values vars rows => exact .values vars rows
  | nop => exact .nop
  | manage action => exact .manage action
  | wrap wrapper input => exact .wrap wrapper input
  | filter input condition => exact .filter input condition
  | extend input name value => exact .extend input name value
  | group input keys aggregates => exact .group input keys aggregates
  | orderBy input keys => exact .orderBy input keys
  | construct input template => exact .construct input template
  | combine how inputs => exact .combine how inputs
  | leftJoin left right condition => exact .leftJoin left right condition
  | minus left right => exact .minus left right
  | deleteInsert delete insert scope => exact .deleteInsert delete insert scope

mutual

/-- Operations still correspond after their labels have been replaced by terms that correspond. -/
theorem Operation.Corresponds.replaceBlanks (alike : ReplacedAlike related replace replace') :
    ∀ {first second : Operation},
    first.Corresponds related second →
    (first.rebuild (.ofBlanks replace)).Corresponds related (second.rebuild (.ofBlanks replace'))
  | ⟨_, _⟩, _, .mk metadata operators =>
    .mk metadata ((Operator.Corresponds.rebuild_ofBlanks alike operators).replacePathBlanks alike)
termination_by structural first => first

theorem Operator.Corresponds.rebuild_ofBlanks
    (alike : ReplacedAlike related replace replace') :
    ∀ {first second : Operator},
    first.Corresponds related second →
    (first.rebuild (.ofBlanks replace)).Corresponds related (second.rebuild (.ofBlanks replace'))
  | .bgp _, _, .bgp patterns => .bgp (patterns_replaceBlanks alike patterns)
  | .values _ _, _, .values vars rows => .values vars rows
  | .nop, _, .nop => .nop
  | .path .., _, .path predicate subject object graph => .path predicate subject object graph
  | .manage _, _, .manage action => .manage action
  | .wrap _ _, _, .wrap wrapper input =>
    .wrap wrapper (Operation.Corresponds.replaceBlanks alike input)
  | .filter _ _, _, .filter input condition =>
    .filter (Operation.Corresponds.replaceBlanks alike input)
      (Expression.Corresponds.rebuild_ofBlanks alike condition)
  | .extend _ _ _, _, .extend input name value =>
    .extend (Operation.Corresponds.replaceBlanks alike input) name
      (Expression.Corresponds.rebuild_ofBlanks alike value)
  | .group _ _ _, _, .group input keys aggregates =>
    .group (Operation.Corresponds.replaceBlanks alike input) keys
      (BoundAggregate.Corresponds.all_rebuild_ofBlanks alike aggregates)
  | .orderBy _ _, _, .orderBy input keys =>
    .orderBy (Operation.Corresponds.replaceBlanks alike input)
      (Expression.Corresponds.all_rebuild_ofBlanks alike keys)
  | .construct _ _, _, .construct input template => by
    rw [Operator.rebuild, Operator.rebuild, Rebuild.template_ofBlanks (by decide),
      Rebuild.template_ofBlanks (by decide)]
    exact .construct (Operation.Corresponds.replaceBlanks alike input) template
  | .combine _ _, _, .combine how inputs =>
    .combine how (Operation.Corresponds.all_rebuild_ofBlanks alike inputs)
  | .leftJoin _ _ _, _, .leftJoin left right .none =>
    .leftJoin (Operation.Corresponds.replaceBlanks alike left)
      (Operation.Corresponds.replaceBlanks alike right)
      .none
  | .leftJoin _ _ _, _, .leftJoin left right (.some condition) =>
    .leftJoin (Operation.Corresponds.replaceBlanks alike left)
      (Operation.Corresponds.replaceBlanks alike right)
      (.some (Expression.Corresponds.rebuild_ofBlanks alike condition))
  | .minus _ _, _, .minus left right =>
    .minus (Operation.Corresponds.replaceBlanks alike left)
      (Operation.Corresponds.replaceBlanks alike right)
  | .deleteInsert _ _ _, _, .deleteInsert delete insert .none => by
    rw [Operator.rebuild, Operator.rebuild, Rebuild.optional_ofBlanks (by decide),
      Rebuild.optional_ofBlanks (by decide), Rebuild.optional_ofBlanks (by decide),
      Rebuild.optional_ofBlanks (by decide)]
    exact .deleteInsert delete insert .none
  | .deleteInsert _ _ _, _, .deleteInsert delete insert (.some scope) => by
    rw [Operator.rebuild, Operator.rebuild, Rebuild.optional_ofBlanks (by decide),
      Rebuild.optional_ofBlanks (by decide), Rebuild.optional_ofBlanks (by decide),
      Rebuild.optional_ofBlanks (by decide)]
    exact .deleteInsert delete insert (.some (Operation.Corresponds.replaceBlanks alike scope))
termination_by structural first => first

theorem Expression.Corresponds.rebuild_ofBlanks
    (alike : ReplacedAlike related replace replace') :
    ∀ {first second : Expression},
    first.Corresponds related second →
    (first.rebuild (.ofBlanks replace)).Corresponds related (second.rebuild (.ofBlanks replace'))
  | .term _, _, .term value => .term value
  | .call _ _, _, .call callee arguments =>
    .call callee (Expression.Corresponds.all_rebuild_ofBlanks alike arguments)
  | .aggregate .., _, .aggregate name distinct separator argument =>
    .aggregate name distinct separator (Expression.Corresponds.rebuild_ofBlanks alike argument)
  | .existence _ _, _, .existence negated input =>
    .existence negated (Operation.Corresponds.replaceBlanks alike input)
  | .wildcard, _, .wildcard => .wildcard
termination_by structural first => first

theorem Operation.Corresponds.all_rebuild_ofBlanks
    (alike : ReplacedAlike related replace replace') :
    ∀ {first second : List Operation},
    List.Forall₂ (Operation.Corresponds related) first second →
    List.Forall₂ (Operation.Corresponds related) (Operation.rebuildAll (.ofBlanks replace) first)
      (Operation.rebuildAll (.ofBlanks replace') second)
  | [], _, .nil => .nil
  | _ :: _, _, .cons head rest =>
    .cons (Operation.Corresponds.replaceBlanks alike head)
      (Operation.Corresponds.all_rebuild_ofBlanks alike rest)
termination_by structural first => first

theorem Expression.Corresponds.all_rebuild_ofBlanks
    (alike : ReplacedAlike related replace replace') :
    ∀ {first second : List Expression},
    List.Forall₂ (Expression.Corresponds related) first second →
    List.Forall₂ (Expression.Corresponds related) (Expression.rebuildAll (.ofBlanks replace) first)
      (Expression.rebuildAll (.ofBlanks replace') second)
  | [], _, .nil => .nil
  | _ :: _, _, .cons head rest =>
    .cons (Expression.Corresponds.rebuild_ofBlanks alike head)
      (Expression.Corresponds.all_rebuild_ofBlanks alike rest)
termination_by structural first => first

theorem BoundAggregate.Corresponds.all_rebuild_ofBlanks
    (alike : ReplacedAlike related replace replace') :
    ∀ {first second : List BoundAggregate},
    List.Forall₂ (BoundAggregate.Corresponds related) first second →
    List.Forall₂ (BoundAggregate.Corresponds related)
      (BoundAggregate.rebuildAll (.ofBlanks replace) first)
      (BoundAggregate.rebuildAll (.ofBlanks replace') second)
  | [], _, .nil => .nil
  | ⟨_, _⟩ :: _, _, .cons (.mk name expression) rest =>
    .cons (.mk name (Expression.Corresponds.rebuild_ofBlanks alike expression))
      (BoundAggregate.Corresponds.all_rebuild_ofBlanks alike rest)
termination_by structural first => first

end

/-! ### Inline data -/

private theorem ownTables_replacePathBlanks (replace : String → Term) (operator : Operator) :
    (operator.replacePathBlanks replace).ownTables = operator.ownTables := by
  cases operator with
  | _ => rfl

private theorem flatMap_ofTables (place place' : Place) (patterns patterns' : List Pattern) :
    patterns.flatMap (Gather.ofTables.pattern place)
      = patterns'.flatMap (Gather.ofTables.pattern place') := by
  have none : ∀ (place : Place) (patterns : List Pattern),
      patterns.flatMap (Gather.ofTables.pattern place) = [] :=
    fun _ _ => List.flatMap_eq_nil_iff.2 fun _ _ => rfl
  rw [none, none]

mutual

/-- Inline data stays as it is when labels are replaced. -/
theorem Operation.tables_replaceBlanks (replace : String → Term) : ∀ operation : Operation,
    (operation.rebuild (.ofBlanks replace)).gather .ofTables = operation.gather .ofTables
  | ⟨operator, metadata⟩ => by
    have parts : ((operator.rebuild (.ofBlanks replace)).replacePathBlanks replace).gather .ofTables
        = (operator.rebuild (.ofBlanks replace)).gather .ofTables := by
      cases operator.rebuild (.ofBlanks replace) with
      | _ => rfl
    have own : (operator.rebuild (.ofBlanks replace)).ownTables = operator.ownTables := by
      cases operator with
      | leftJoin _ _ condition => cases condition with
        | _ => rfl
      | deleteInsert _ _ scope => cases scope with
        | _ => rfl
      | _ => rfl
    calc
      _ = ((operator.rebuild (.ofBlanks replace)).replacePathBlanks replace).gather .ofTables
            ++ ((operator.rebuild (.ofBlanks replace)).replacePathBlanks replace).ownTables := rfl
      _ = operator.gather .ofTables ++ operator.ownTables := by
        rw [parts, ownTables_replacePathBlanks, own, Operator.tables_rebuild replace operator]

theorem Operator.tables_rebuild (replace : String → Term) : ∀ operator : Operator,
    (operator.rebuild (.ofBlanks replace)).gather .ofTables = operator.gather .ofTables
  | .bgp _ => flatMap_ofTables _ _ _ _
  | .values .. | .nop | .path .. | .manage _ => rfl
  | .wrap _ input => Operation.tables_replaceBlanks replace input
  | .filter input condition =>
    congrArg₂ (· ++ ·) (Operation.tables_replaceBlanks replace input)
      (Expression.tables_rebuild replace condition)
  | .extend input _ value =>
    congrArg₂ (· ++ ·) (Operation.tables_replaceBlanks replace input)
      (Expression.tables_rebuild replace value)
  | .group input _ aggregates =>
    congrArg₂ (· ++ ·) (Operation.tables_replaceBlanks replace input)
      (BoundAggregate.tables_rebuildAll replace aggregates)
  | .orderBy input keys =>
    congrArg₂ (· ++ ·) (Operation.tables_replaceBlanks replace input)
      (Expression.tables_rebuildAll replace keys)
  | .construct input _ =>
    congrArg₂ (· ++ ·) (Operation.tables_replaceBlanks replace input) (flatMap_ofTables _ _ _ _)
  | .combine _ inputs => Operation.tables_rebuildAll replace inputs
  | .leftJoin left right none =>
    congrArg₂ (· ++ ·) (Operation.tables_replaceBlanks replace left)
      (Operation.tables_replaceBlanks replace right)
  | .leftJoin left right (some condition) =>
    congrArg₂ (· ++ ·)
      (congrArg₂ (· ++ ·) (Operation.tables_replaceBlanks replace left)
        (Operation.tables_replaceBlanks replace right))
      (Expression.tables_rebuild replace condition)
  | .minus left right =>
    congrArg₂ (· ++ ·) (Operation.tables_replaceBlanks replace left)
      (Operation.tables_replaceBlanks replace right)
  | .deleteInsert _ _ none =>
    congrArg₂ (· ++ ·) (flatMap_ofTables _ _ _ _) (flatMap_ofTables _ _ _ _)
  | .deleteInsert _ _ (some scope) =>
    congrArg₂ (· ++ ·)
      (congrArg₂ (· ++ ·) (flatMap_ofTables _ _ _ _) (flatMap_ofTables _ _ _ _))
      (Operation.tables_replaceBlanks replace scope)

theorem Expression.tables_rebuild (replace : String → Term) : ∀ expression : Expression,
    (expression.rebuild (.ofBlanks replace)).gather .ofTables = expression.gather .ofTables
  | .term _ | .wildcard => rfl
  | .call _ arguments =>
    congrArg (· ++ []) (Expression.tables_rebuildAll replace arguments)
  | .aggregate _ argument _ _ => congrArg (· ++ []) (Expression.tables_rebuild replace argument)
  | .existence _ input => congrArg (· ++ []) (Operation.tables_replaceBlanks replace input)

theorem Operation.tables_rebuildAll (replace : String → Term) : ∀ operations : List Operation,
    Operation.gatherAll .ofTables (Operation.rebuildAll (.ofBlanks replace) operations)
      = Operation.gatherAll .ofTables operations
  | [] => rfl
  | operation :: rest =>
    congrArg₂ (· ++ ·) (Operation.tables_replaceBlanks replace operation)
      (Operation.tables_rebuildAll replace rest)

theorem Expression.tables_rebuildAll (replace : String → Term) : ∀ expressions : List Expression,
    Expression.gatherAll .ofTables (Expression.rebuildAll (.ofBlanks replace) expressions)
      = Expression.gatherAll .ofTables expressions
  | [] => rfl
  | expression :: rest =>
    congrArg₂ (· ++ ·) (Expression.tables_rebuild replace expression)
      (Expression.tables_rebuildAll replace rest)

theorem BoundAggregate.tables_rebuildAll (replace : String → Term) :
    ∀ aggregates : List BoundAggregate,
    BoundAggregate.gatherAll .ofTables (BoundAggregate.rebuildAll (.ofBlanks replace) aggregates)
      = BoundAggregate.gatherAll .ofTables aggregates
  | [] => rfl
  | ⟨_, expression⟩ :: rest =>
    congrArg₂ (· ++ ·) (Expression.tables_rebuild replace expression)
      (BoundAggregate.tables_rebuildAll replace rest)

end

end QueryAlgebra
