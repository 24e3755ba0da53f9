import QueryAlgebra.Proofs.Lifting.MeetingTerms

/-! # Queries that meet demands

What lifting does with patterns and expressions once they are written keeps them meeting demands:
grouping them, writing aggregates where their variables stand, and making clauses of queries out of
what was found.
-/

namespace QueryAlgebra

open Surface (Demands)

namespace Surface

variable {demands : Demands}

/-! ### Aggregates in place of their variables -/

namespace Expression

variable {values : NameMap Expression}

mutual

theorem meets_substitute (allMeet : ∀ entry ∈ values.entries, entry.2.Meets demands) :
    ∀ expression : Expression, expression.Meets demands →
      (expression.substitute values).Meets demands
  | .var name, _ => by
    rw [substitute]
    cases found : values.find? name.name with
    | none => exact trivial
    | some value => exact allMeet _ (NameMap.find?_eq_some_iff.1 found)
  | .iri _, meets => meets
  | .literal _, meets => meets
  | .binary _ left right, meets =>
    ⟨meets_substitute allMeet left meets.1, meets_substitute allMeet right meets.2⟩
  | .unary _ operand, meets => meets_substitute allMeet operand meets
  | .call (.builtin function) arguments _, meets => by
    obtain ⟨ofArguments, sameLength⟩ := meets_substituteAll allMeet arguments meets.2
    refine ⟨?_, ofArguments⟩
    rw [sameLength]
    exact meets.1
  | .call (.named _) arguments _, meets =>
    ⟨meets.1, (meets_substituteAll allMeet arguments meets.2).1⟩
  | .ifElse condition positive negative, meets =>
    ⟨meets_substitute allMeet condition meets.1, meets_substitute allMeet positive meets.2.1,
      meets_substitute allMeet negative meets.2.2⟩
  | .coalesce arguments, meets => (meets_substituteAll allMeet arguments meets).1
  | .among value choices _, meets =>
    ⟨meets_substitute allMeet value meets.1, (meets_substituteAll allMeet choices meets.2).1⟩
  | .existence _ _, meets => meets
  | .aggregate .., meets => meets
  | .bracketed inner, meets => meets_substitute allMeet inner meets

theorem meets_substituteAll (allMeet : ∀ entry ∈ values.entries, entry.2.Meets demands) :
    ∀ expressions : List Expression, Expression.allMeet demands expressions →
      Expression.allMeet demands (substituteAll values expressions)
        ∧ (substituteAll values expressions).length = expressions.length
  | [], _ => ⟨trivial, rfl⟩
  | first :: rest, meet =>
    have others := meets_substituteAll allMeet rest meet.2
    ⟨⟨meets_substitute allMeet first meet.1, others.1⟩, congrArg (· + 1) others.2⟩

end

end Expression

namespace Pattern

variable {aggregates : NameMap Expression}

mutual

theorem meet_groupConditions (ofAggregates : ∀ entry ∈ aggregates.entries, entry.2.Meets demands) :
    ∀ pattern : Pattern, pattern.Meets demands true →
      ∀ condition ∈ groupConditions aggregates pattern, condition.Meets demands
  | .filter condition _, meets => by
    rw [groupConditions]
    split
    · exact List.forall_mem_singleton.2 (condition.meets_substitute ofAggregates meets.2)
    · exact List.forall_mem_nil _
  | .group elements _, meets => meet_allGroupConditions ofAggregates elements meets
  | .bgp .., _ | .optional .., _ | .minus .., _ | .union .., _ | .bind .., _ | .values .., _
  | .graph .., _ | .service .., _ | .subquery .., _ => List.forall_mem_nil _

theorem meet_allGroupConditions
    (ofAggregates : ∀ entry ∈ aggregates.entries, entry.2.Meets demands) :
    ∀ patterns : List Pattern, Pattern.allMeet demands patterns →
      ∀ condition ∈ allGroupConditions aggregates patterns, condition.Meets demands
  | [], _ => List.forall_mem_nil _
  | pattern :: rest, meet => List.forall_mem_append.2
    ⟨meet_groupConditions ofAggregates pattern meet.1,
      meet_allGroupConditions ofAggregates rest meet.2⟩

end

mutual

theorem meet_withoutGroupConditions : ∀ pattern : Pattern, pattern.Meets demands true →
    ∀ other ∈ withoutGroupConditions aggregates pattern, other.Meets demands true
  | .filter condition span, meets => by
    rw [withoutGroupConditions]
    split
    · exact List.forall_mem_nil _
    · exact List.forall_mem_singleton.2 meets
  | .group elements span, meets => by
    rw [withoutGroupConditions]
    exact List.forall_mem_singleton.2
      (Pattern.allMeet_iff.2 (meet_allWithoutGroupConditions elements meets))
  | .bgp .., meets | .optional .., meets | .minus .., meets | .union .., meets | .bind .., meets
  | .values .., meets | .graph .., meets | .service .., meets | .subquery .., meets =>
    List.forall_mem_singleton.2 meets

theorem meet_allWithoutGroupConditions : ∀ patterns : List Pattern,
    Pattern.allMeet demands patterns →
    ∀ other ∈ allWithoutGroupConditions aggregates patterns, other.Meets demands true
  | [], _ => List.forall_mem_nil _
  | pattern :: rest, meet => List.forall_mem_append.2
    ⟨meet_withoutGroupConditions pattern meet.1, meet_allWithoutGroupConditions rest meet.2⟩

end

/-! ### Groups and unions -/

variable {patterns : List Pattern}

theorem meet_groupElements (meet : ∀ pattern ∈ patterns, pattern.Meets demands true) :
    ∀ element ∈ groupElements patterns, element.Meets demands true := by
  unfold groupElements
  split
  · exact Pattern.allMeet_iff.1 (meet _ (List.mem_singleton_self _))
  · exact meet

theorem meets_groupOf (meet : ∀ pattern ∈ patterns, pattern.Meets demands true) (element : Bool) :
    (groupOf patterns).Meets demands element :=
  Pattern.allMeet_iff.2 (meet_groupElements meet)

private theorem meet_consMerged {pattern : Pattern} (meets : pattern.Meets demands true)
    (ofRest : ∀ other ∈ patterns, other.Meets demands true) :
    ∀ other ∈ consMerged pattern patterns, other.Meets demands true := by
  unfold consMerged
  split
  · rw [List.forall_mem_cons] at ofRest
    exact List.forall_mem_cons.2 ⟨List.forall_mem_append.2 ⟨meets, ofRest.1⟩, ofRest.2⟩
  · exact List.forall_mem_cons.2 ⟨meets, ofRest⟩

theorem meet_mergeTriples (meet : ∀ pattern ∈ patterns, pattern.Meets demands true) :
    ∀ pattern ∈ mergeTriples patterns, pattern.Meets demands true := by
  induction patterns with
  | nil => exact meet
  | cons pattern rest ih =>
    rw [List.forall_mem_cons] at meet
    exact meet_consMerged meet.1 (ih meet.2)

theorem meet_unionOf (meet : ∀ pattern ∈ patterns, ∀ element, pattern.Meets demands element) :
    ∀ pattern ∈ unionOf patterns, pattern.Meets demands true := by
  cases patterns with
  | nil => exact List.forall_mem_nil _
  | cons first rest =>
    rw [List.forall_mem_cons] at meet
    refine List.forall_mem_singleton.2 ?_
    have all : ∀ element,
        (rest.foldl (fun left right => .union left right .none) first).Meets demands element :=
      List.foldlRecOn (motive := fun union => ∀ element, Pattern.Meets demands element union) rest _
        meet.1 fun left ofLeft right isRight _ => ⟨ofLeft false, meet.2 right isRight false⟩
    exact all true

end Pattern

end Surface

/-! ### Clauses -/

variable {demands : Demands}

/-- Values that meet demands. -/
def Extensions.Meet (demands : Demands) (extensions : Extensions) : Prop :=
  ∀ entry ∈ extensions, entry.2.Meets demands

/-- Aggregates that meet demands. -/
abbrev AggregatesMeet (demands : Demands) (aggregates : NameMap Surface.Expression) : Prop :=
  ∀ entry ∈ aggregates.entries, entry.2.Meets demands

namespace Extensions

theorem Meet.take {extensions : Extensions} (meet : extensions.Meet demands) (name : Variable) :
    (∀ value ∈ (take name extensions).1, value.Meets demands)
      ∧ (take name extensions).2.Meet demands := by
  induction extensions with
  | nil => exact ⟨fun _ absent => absurd absent (Option.not_mem_none _), meet⟩
  | cons entry rest ih =>
    obtain ⟨first, others⟩ := List.forall_mem_cons.1 meet
    rw [Extensions.take]
    split
    · exact ⟨fun value same => Option.some.inj same ▸ first, others⟩
    · exact ⟨(ih others).1, List.forall_mem_cons.2 ⟨first, (ih others).2⟩⟩

theorem Meet.groupKeys {extensions : Extensions} (meet : extensions.Meet demands)
    (names : List Variable) :
    Surface.GroupKey.allMeet demands (groupKeys names extensions).1
      ∧ (groupKeys names extensions).2.Meet demands := by
  induction names generalizing extensions with
  | nil => exact ⟨trivial, meet⟩
  | cons name names ih =>
    obtain ⟨ofValue, ofOthers⟩ := meet.take name
    obtain ⟨ofKeys, left⟩ := ih ofOthers
    rw [Extensions.groupKeys]
    refine ⟨?_, left⟩
    cases taken : (Extensions.take name extensions).1 with
    | none => exact ofKeys
    | some value => exact ⟨ofValue value taken, ofKeys⟩

theorem Meet.selectItems {extensions : Extensions} (meet : extensions.Meet demands)
    {aggregates : NameMap Surface.Expression} (ofAggregates : AggregatesMeet demands aggregates)
    (names : List Variable) :
    Surface.SelectItem.allMeet demands (selectItems aggregates names extensions).1
      ∧ (selectItems aggregates names extensions).2.Meet demands := by
  induction names generalizing extensions with
  | nil => exact ⟨trivial, meet⟩
  | cons name names ih =>
    obtain ⟨ofValue, ofOthers⟩ := meet.take name
    obtain ⟨ofItems, left⟩ := ih ofOthers
    rw [Extensions.selectItems]
    refine ⟨?_, left⟩
    cases shown : (Extensions.take name extensions).1.or (aggregates.find? name.name) with
    | none => exact ofItems
    | some value =>
      refine ⟨?_, ofItems⟩
      rcases Option.or_eq_some_iff.1 shown with isTaken | ⟨_, isAggregate⟩
      · exact ofValue value isTaken
      · exact ofAggregates _ (NameMap.find?_eq_some_iff.1 isAggregate)

theorem Meet.binds {extensions : Extensions} (meet : extensions.Meet demands) :
    ∀ pattern ∈ extensions.binds, pattern.Meets demands true := by
  intro pattern member
  obtain ⟨entry, isEntry, rfl⟩ := List.mem_map.1 member
  exact ⟨nofun, meet entry isEntry⟩

end Extensions

theorem Surface.OrderKey.meets_of (direction : Surface.Direction) {value : Surface.Expression}
    (meets : value.Meets demands) {keys : List Surface.OrderKey}
    (others : Surface.OrderKey.allMeet demands keys) :
    Surface.OrderKey.allMeet demands (.of direction value :: keys) := by
  unfold Surface.OrderKey.of
  split
  · exact others
  · exact ⟨meets, others⟩

namespace Found

theorem finds_writtenAggregates {values : List (Variable × Collecting Surface.Expression)}
    (allFind : ∀ entry ∈ values, entry.2.Finds demands fun value => value.Meets demands) :
    (writtenAggregates values).Finds demands
      fun entries => ∀ entry ∈ entries, entry.2.Meets demands := by
  induction values with
  | nil => exact .pure (List.forall_mem_nil _)
  | cons entry rest ih =>
    rw [List.forall_mem_cons] at allFind
    exact allFind.1.bind fun value meets => (ih allFind.2).bind fun others ofOthers =>
      .pure (List.forall_mem_cons.2 ⟨meets, ofOthers⟩)

theorem finds_writtenExtensions {aggregates : NameMap Surface.Expression}
    (ofAggregates : AggregatesMeet demands aggregates)
    {values : List (Variable × Collecting Surface.Expression)}
    (allFind : ∀ entry ∈ values, entry.2.Finds demands fun value => value.Meets demands) :
    (writtenExtensions aggregates values).Finds demands (Extensions.Meet demands) := by
  induction values with
  | nil => exact .pure (List.forall_mem_nil _)
  | cons entry rest ih =>
    rw [List.forall_mem_cons] at allFind
    exact allFind.1.bind fun value meets => (ih allFind.2).bind fun others ofOthers =>
      .pure (List.forall_mem_cons.2 ⟨value.meets_substitute ofAggregates meets, ofOthers⟩)

theorem finds_writtenOrder {aggregates : NameMap Surface.Expression}
    (ofAggregates : AggregatesMeet demands aggregates)
    {values : List (Surface.Direction × Collecting Surface.Expression)}
    (allFind : ∀ entry ∈ values, entry.2.Finds demands fun value => value.Meets demands) :
    (writtenOrder aggregates values).Finds demands (Surface.OrderKey.allMeet demands) := by
  induction values with
  | nil => exact .pure trivial
  | cons entry rest ih =>
    rw [List.forall_mem_cons] at allFind
    exact allFind.1.bind fun value meets => (ih allFind.2).bind fun others ofOthers =>
      .pure (Surface.OrderKey.meets_of entry.1 (value.meets_substitute ofAggregates meets) ofOthers)

variable {found : List Found}

theorem mem_extensions {entry : Variable × Collecting Surface.Expression} :
    entry ∈ extensions found ↔ .extension entry.1 entry.2.outcome ∈ found := by
  obtain ⟨name, ⟨value⟩⟩ := entry
  induction found with
  | nil => simp [extensions]
  | cons first rest ih => cases first <;> simp [extensions, ih]

theorem mem_aggregates {entry : Variable × Collecting Surface.Expression} :
    entry ∈ aggregates found ↔ .aggregate entry.1 entry.2.outcome ∈ found := by
  obtain ⟨name, ⟨value⟩⟩ := entry
  induction found with
  | nil => simp [aggregates]
  | cons first rest ih => cases first <;> simp [aggregates, ih]

theorem mem_groupKeys {name : Variable} :
    name ∈ groupKeys found ↔ .groupKey name ∈ found := by
  induction found with
  | nil => simp [groupKeys]
  | cons first rest ih => cases first <;> simp [groupKeys, ih]

theorem mem_orderKeys {found : List Found}
    {entry : Surface.Direction × Collecting Surface.Expression} :
    entry ∈ orderKeys found ↔ .orderKey entry.1 entry.2.outcome ∈ found := by
  obtain ⟨direction, ⟨value⟩⟩ := entry
  induction found with
  | nil => simp [orderKeys]
  | cons first rest ih => cases first <;> simp [orderKeys, ih]

theorem extensions_find (meet : ∀ entry ∈ found, entry.Meets demands) :
    ∀ entry ∈ extensions found, entry.2.Finds demands fun value => value.Meets demands := by
  rintro ⟨name, ⟨value⟩⟩ member
  cases meet _ (mem_extensions.1 member) with
  | extension _ ofValue inside => exact ⟨ofValue, inside⟩

theorem aggregates_find (meet : ∀ entry ∈ found, entry.Meets demands) :
    ∀ entry ∈ aggregates found, entry.2.Finds demands fun value => value.Meets demands := by
  rintro ⟨name, ⟨value⟩⟩ member
  cases meet _ (mem_aggregates.1 member) with
  | aggregate _ ofValue inside => exact ⟨ofValue, inside⟩

theorem orderKeys_find (meet : ∀ entry ∈ found, entry.Meets demands) :
    ∀ entry ∈ orderKeys found, entry.2.Finds demands fun value => value.Meets demands := by
  rintro ⟨direction, ⟨value⟩⟩ member
  cases meet _ (mem_orderKeys.1 member) with
  | orderKey _ ofValue inside => exact ⟨ofValue, inside⟩

end Found

/-! ### Queries -/

namespace QueryScope

/-- A query before its form is added meets demands. -/
structure Meets (demands : Demands) (scope : QueryScope) : Prop where
  elements : ∀ pattern ∈ scope.elements, pattern.Meets demands true
  extensions : scope.extensions.Meet demands
  aggregates : AggregatesMeet demands scope.aggregates
  modifiers : scope.modifiers.Meets demands

/-- Clauses meet demands that are made of what meets them. -/
theorem Meets.of_clauses {elements : List Surface.Pattern} {extensions : Extensions}
    {aggregates : NameMap Surface.Expression} {orderBy : List Surface.OrderKey}
    (ofElements : ∀ pattern ∈ elements, pattern.Meets demands true)
    (ofExtensions : extensions.Meet demands) (ofAggregates : AggregatesMeet demands aggregates)
    (ofOrder : Surface.OrderKey.allMeet demands orderBy) (keys : List Variable) :
    Meets demands
      { elements := Surface.Pattern.groupElements
          (Surface.Pattern.allWithoutGroupConditions aggregates elements)
        extensions := (extensions.groupKeys keys).2
        aggregates
        modifiers :=
          { Surface.Modifiers.none with
            groupBy := if keys.isEmpty then none else some (extensions.groupKeys keys).1
            having := Surface.Pattern.allGroupConditions aggregates elements
            orderBy } } := by
  have allMeet := Surface.Pattern.allMeet_iff.2 ofElements
  obtain ⟨ofKeys, left⟩ := ofExtensions.groupKeys keys
  have having := Surface.Expression.allMeet_iff.2
    (Surface.Pattern.meet_allGroupConditions ofAggregates elements allMeet)
  refine ⟨Surface.Pattern.meet_groupElements
    (Surface.Pattern.meet_allWithoutGroupConditions elements allMeet), left, ofAggregates, ?_⟩
  have noValues : ∀ data ∈ (none : Option Surface.InlineData), data.Meets demands :=
    fun _ absent => absurd absent (Option.not_mem_none _)
  dsimp only
  split
  · exact ⟨having, ofOrder, noValues⟩
  · exact ⟨ofKeys, having, ofOrder, noValues⟩

/-- What was found has clauses. -/
theorem succeeds_ofFound {elements : List Surface.Pattern} {found : List Found}
    (ofElements : ∀ pattern ∈ elements, pattern.Meets demands true)
    (ofFound : ∀ entry ∈ found, entry.Meets demands) :
    Succeeds (Meets demands) (QueryScope.ofFound elements found) := by
  rw [QueryScope.ofFound]
  refine Succeeds.bind (Found.finds_writtenAggregates (Found.aggregates_find ofFound))
    fun (entries, inAggregates) ⟨ofEntries, ofInAggregates⟩ => ?_
  have ofAggregates : AggregatesMeet demands (NameMap.ofList entries) := fun entry member =>
    ofEntries entry (NameMap.mem_of_mem_ofList member)
  refine Succeeds.bind (Found.finds_writtenExtensions ofAggregates fun entry member =>
    Found.extensions_find ofFound entry (List.mem_reverse.1 member))
    fun (extensions, inExtensions) ⟨ofExtensions, ofInExtensions⟩ => ?_
  have ofAll := List.forall_mem_append.2
    ⟨List.forall_mem_append.2 ⟨ofFound, ofInAggregates⟩, ofInExtensions⟩
  refine Succeeds.bind (Found.finds_writtenOrder ofAggregates (Found.orderKeys_find ofAll))
    fun (orderBy, _) ⟨ofOrder, _⟩ => ?_
  exact Meets.of_clauses ofElements ofExtensions ofAggregates ofOrder _

variable {scope : QueryScope}

theorem Meets.pattern (meets : scope.Meets demands) (element : Bool) :
    scope.pattern.Meets demands element :=
  Surface.Pattern.meets_groupOf
    (List.forall_mem_append.2 ⟨meets.elements, meets.extensions.binds⟩) element

theorem Meets.select (meets : scope.Meets demands) (all : Bool) (vars : List Variable) :
    (scope.select all vars).Meets demands := by
  obtain ⟨ofItems, left⟩ := meets.extensions.selectItems meets.aggregates vars
  have shown : QueryScope.Meets demands
      { scope with extensions := (scope.extensions.selectItems scope.aggregates vars).2 } :=
    { meets with extensions := left }
  refine ⟨?_, fun _ absent => absurd absent (Option.not_mem_none _), shown.pattern false,
    meets.modifiers⟩
  split
  · exact trivial
  · exact ofItems

theorem Meets.ask (meets : scope.Meets demands) : scope.ask.Meets demands where
  dataset _ absent := absurd absent (Option.not_mem_none _)
  pattern := meets.pattern false
  modifiers := meets.modifiers

theorem Meets.construct (meets : scope.Meets demands) {template : List Surface.Triple}
    (ofTemplate : ∀ triple ∈ template, triple.Meets demands true) :
    (scope.construct template).Meets demands where
  template := ofTemplate
  dataset _ absent := absurd absent (Option.not_mem_none _)
  pattern := meets.pattern false
  modifiers := meets.modifiers

theorem Meets.describe (meets : scope.Meets demands) {target : Surface.DescribeTarget}
    (ofTarget : target.Meets demands) : (scope.describe target).Meets demands where
  target := ofTarget
  dataset _ absent := absurd absent (Option.not_mem_none _)
  pattern pattern member := by
    unfold QueryScope.describe at member
    split at member
    · cases member
    · exact Option.some.inj member ▸ meets.pattern false
  modifiers := meets.modifiers

end QueryScope

namespace Surface

theorem Modifiers.Meets.sliced {modifiers : Modifiers} (meets : modifiers.Meets demands)
    (start : Nat) (length : Option Nat) : (modifiers.sliced start length).Meets demands := by
  obtain ⟨groupBy, having, orderBy, limit, offset, values⟩ := modifiers
  cases groupBy <;> exact meets

namespace Query

variable {query : Query}

theorem Meets.sliced (meets : query.Meets demands) (start : Nat) (length : Option Nat) :
    (query.mapModifiers (.sliced start length)).Meets demands := by
  cases query with
  | select query =>
    obtain ⟨duplicates, projection, dataset, pattern, modifiers⟩ := query
    exact ⟨meets.1, meets.2.1, meets.2.2.1, Modifiers.Meets.sliced meets.2.2.2 start length⟩
  | construct query =>
    exact { meets with modifiers := Modifiers.Meets.sliced meets.modifiers start length }
  | ask query => exact { meets with modifiers := Modifiers.Meets.sliced meets.modifiers start length }
  | describe query =>
    exact { meets with modifiers := Modifiers.Meets.sliced meets.modifiers start length }

theorem Meets.withDataset (meets : query.Meets demands) {dataset : Dataset}
    (ofDataset : dataset.Meets demands) : (query.withDataset dataset).Meets demands := by
  have ofOnly : ∀ graphs ∈ some dataset, graphs.Meets demands := fun graphs same =>
    Option.some.inj same ▸ ofDataset
  cases query with
  | select query =>
    obtain ⟨duplicates, projection, others, pattern, modifiers⟩ := query
    exact ⟨meets.1, ofOnly, meets.2.2⟩
  | construct query => exact { meets with dataset := ofOnly }
  | ask query => exact { meets with dataset := ofOnly }
  | describe query => exact { meets with dataset := ofOnly }

end Query

end Surface

end QueryAlgebra
