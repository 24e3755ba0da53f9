import QueryAlgebra.Proofs.Lifting.GrantedTerms
import QueryAlgebra.Proofs.Lifting.MeetingQueries
import QueryAlgebra.Proofs.Lifting.WrittenQueries

/-! # What is granted of queries

What was found on the way to a pattern is granted to meet demands if each of its values does that
can be written. Then the clauses meet demands that are made of it: `QueryScope.grants_ofFound`. If a
query is written as a star nothing was found but the keys of its order: `QueryScope.of_star`.
-/

namespace QueryAlgebra

open Surface (Demands)

variable {demands : Demands}

/-! ### What is found -/

/-- What is found meets demands as far as it can be written, and so does what is found in it. -/
inductive Found.Granted (demands : Demands) : Found → Prop
  | extension (name : Variable) {value : Except LiftingError (Surface.Expression × List Found)} :
    Grants (fun written => written.1.Meets demands) value →
    (∀ written, value = .ok written → ∀ found ∈ written.2, Granted demands found) →
    Granted demands (.extension name value)
  | groupKey (name : Variable) : Granted demands (.groupKey name)
  | aggregate (name : Variable) {value : Except LiftingError (Surface.Expression × List Found)} :
    Grants (fun written => written.1.Meets demands) value →
    (∀ written, value = .ok written → ∀ found ∈ written.2, Granted demands found) →
    Granted demands (.aggregate name value)
  | orderKey (direction : Surface.Direction)
    {value : Except LiftingError (Surface.Expression × List Found)} :
    Grants (fun written => written.1.Meets demands) value →
    (∀ written, value = .ok written → ∀ found ∈ written.2, Granted demands found) →
    Granted demands (.orderKey direction value)

/-- The variable that a contribution is about. -/
def Found.name? : Found → Option Variable
  | .extension name _ => some name
  | .groupKey name => some name
  | .aggregate name _ => some name
  | .orderKey .. => none

/-- The variables that contributions are about. -/
def Found.names (found : List Found) : List Variable := found.filterMap Found.name?

/-- What is found is granted to meet demands, and values are bound on the way to the given variables
only. -/
structure Found.AllGranted (demands : Demands) (bound : List Variable) (found : List Found) :
    Prop where
  granted : ∀ entry ∈ found, entry.Granted demands
  bound : ∀ name value, Found.extension name value ∈ found → name ∈ bound

namespace Found

namespace AllGranted

variable {bound wider : List Variable} {found more : List Found}

theorem nil : AllGranted demands bound [] :=
  ⟨List.forall_mem_nil _, fun _ _ absent => absurd absent List.not_mem_nil⟩

theorem append (first : AllGranted demands bound found) (second : AllGranted demands bound more) :
    AllGranted demands bound (found ++ more) where
  granted := List.forall_mem_append.2 ⟨first.granted, second.granted⟩
  bound name value member :=
    (List.mem_append.1 member).elim (first.bound name value) (second.bound name value)

theorem mono (all : AllGranted demands bound found) (wide : bound ⊆ wider) :
    AllGranted demands wider found :=
  ⟨all.granted, fun name value member => wide (all.bound name value member)⟩

/-- Where no values are bound on the way, they are bound to any variables. -/
theorem of_nil (all : AllGranted demands [] found) : AllGranted demands bound found :=
  all.mono (List.nil_subset _)

end AllGranted

end Found

/-- An expression is written so that it meets demands, and all that is found in it is granted to,
with no values bound on the way. -/
def Surface.Expression.Granted (demands : Demands) (value : Surface.Expression)
    (found : List Found) : Prop :=
  value.Meets demands ∧ Found.AllGranted demands [] found

namespace Collecting

variable {α β : Type} {R S : α → List Found → Prop} {T : β → List Found → Prop}
  {step : Collecting α}

/-- A result has a property together with all that is found, if there is one. -/
def Grants (R : α → List Found → Prop) (step : Collecting α) : Prop :=
  QueryAlgebra.Grants (fun written => R written.1 written.2) step.outcome

namespace Grants

theorem pure {value : α} (holds : R value []) : Grants R (pure value : Collecting α) := holds

theorem bind {next : α → Collecting β} (first : Grants R step)
    (goesOn : ∀ value found, R value found →
      Grants (fun result more => T result (found ++ more)) (next value)) :
    Grants T (step >>= next) := by
  unfold Grants at first ⊢
  show QueryAlgebra.Grants _ (andThen next step.outcome).outcome
  cases outcome : step.outcome with
  | error => trivial
  | ok written =>
    obtain ⟨value, found⟩ := written
    rw [outcome] at first
    have last := goesOn value found first
    unfold Grants at last
    rw [andThen]
    cases outcome' : (next value).outcome with
    | error => trivial
    | ok => rwa [outcome'] at last

theorem bind_any {next : α → Collecting β}
    (goesOn : ∀ value found, Grants (fun result more => T result (found ++ more)) (next value)) :
    Grants T (step >>= next) :=
  bind (R := fun _ _ => True) .any fun value found _ => goesOn value found

theorem imp (first : Grants R step) (weaker : ∀ value found, R value found → S value found) :
    Grants S step := by
  unfold Grants at first ⊢
  cases outcome : step.outcome with
  | error => trivial
  | ok written =>
    rw [outcome] at first
    exact weaker written.1 written.2 first

/-- What is written directly finds nothing. -/
theorem bindLift {P : α → Prop} {result : Except LiftingError α} {next : α → Collecting β}
    (first : QueryAlgebra.Grants P result) (goesOn : ∀ value, P value → Grants T (next value)) :
    Grants T (liftM result >>= next) := by
  cases result with
  | error => trivial
  | ok value =>
    rw [lift_ok, pure_bind]
    exact goesOn value first

theorem lift {P : α → Prop} {result : Except LiftingError α} (first : QueryAlgebra.Grants P result)
    (holds : ∀ value, P value → R value []) : Grants R (liftM result : Collecting α) := by
  cases result with
  | error => trivial
  | ok value => exact holds value first

theorem note {found : List Found} {next : Unit → Collecting α}
    (goesOn : Grants (fun result more => R result (found ++ more)) (next ())) :
    Grants R (Collecting.note found >>= next) :=
  bind (R := fun _ noted => noted = found) (show Grants _ (Collecting.note found) from rfl)
    fun _ _ same => same ▸ goesOn

theorem of_ok (grants : Grants R step) {value : α} {found : List Found}
    (success : step.outcome = .ok (value, found)) : R value found :=
  QueryAlgebra.Grants.of_ok (P := fun written : α × List Found => R written.1 written.2) grants
    success

end Grants

end Collecting

/-! ### Clauses -/

namespace Found

/-- What is left of several values that are written: they meet demands, and what is found in them is
granted to. -/
private abbrev Left {α : Type} (P : α → Prop) (demands : Demands) (values : α)
    (found : List Found) : Prop :=
  P values ∧ ∀ entry ∈ found, entry.Granted demands

private abbrev ValueLeft (demands : Demands) (step : Collecting Surface.Expression) : Prop :=
  step.Grants (Left (fun value => value.Meets demands) demands)

private theorem grants_writtenAggregates {values : List (Variable × Collecting Surface.Expression)}
    (all : ∀ entry ∈ values, ValueLeft demands entry.2) :
    (writtenAggregates values).Grants
      (Left (fun entries => ∀ entry ∈ entries, entry.2.Meets demands) demands) := by
  induction values with
  | nil => exact .pure ⟨List.forall_mem_nil _, List.forall_mem_nil _⟩
  | cons entry rest ih =>
    rw [List.forall_mem_cons] at all
    refine all.1.bind fun value found ⟨meets, ofFound⟩ => ?_
    refine (ih all.2).bind fun others more ⟨ofOthers, ofMore⟩ => .pure ?_
    rw [List.append_nil]
    exact ⟨List.forall_mem_cons.2 ⟨meets, ofOthers⟩, List.forall_mem_append.2 ⟨ofFound, ofMore⟩⟩

private theorem grants_writtenExtensions {aggregates : NameMap Surface.Expression}
    (ofAggregates : AggregatesMeet demands aggregates)
    {values : List (Variable × Collecting Surface.Expression)}
    (all : ∀ entry ∈ values, ValueLeft demands entry.2) :
    (writtenExtensions aggregates values).Grants (Left (Extensions.Meet demands) demands) := by
  induction values with
  | nil => exact .pure ⟨List.forall_mem_nil _, List.forall_mem_nil _⟩
  | cons entry rest ih =>
    rw [List.forall_mem_cons] at all
    refine all.1.bind fun value found ⟨meets, ofFound⟩ => ?_
    refine (ih all.2).bind fun others more ⟨ofOthers, ofMore⟩ => .pure ?_
    rw [List.append_nil]
    exact ⟨List.forall_mem_cons.2 ⟨value.meets_substitute ofAggregates meets, ofOthers⟩,
      List.forall_mem_append.2 ⟨ofFound, ofMore⟩⟩

private theorem grants_writtenOrder {aggregates : NameMap Surface.Expression}
    (ofAggregates : AggregatesMeet demands aggregates)
    {values : List (Surface.Direction × Collecting Surface.Expression)}
    (all : ∀ entry ∈ values, ValueLeft demands entry.2) :
    (writtenOrder aggregates values).Grants
      (Left (Surface.OrderKey.allMeet demands) demands) := by
  induction values with
  | nil => exact .pure ⟨trivial, List.forall_mem_nil _⟩
  | cons entry rest ih =>
    rw [List.forall_mem_cons] at all
    refine all.1.bind fun value found ⟨meets, ofFound⟩ => ?_
    refine (ih all.2).bind fun others more ⟨ofOthers, ofMore⟩ => .pure ?_
    rw [List.append_nil]
    exact ⟨Surface.OrderKey.meets_of entry.1 (value.meets_substitute ofAggregates meets) ofOthers,
      List.forall_mem_append.2 ⟨ofFound, ofMore⟩⟩

private theorem valueLeft {outcome : Except LiftingError (Surface.Expression × List Found)}
    (meets : QueryAlgebra.Grants (fun written => written.1.Meets demands) outcome)
    (inside : ∀ written, outcome = .ok written → ∀ found ∈ written.2, Granted demands found) :
    ValueLeft demands ⟨outcome⟩ := by
  cases outcome with
  | error => trivial
  | ok written => exact ⟨meets, inside written rfl⟩

end Found

namespace QueryScope

/-- The clauses of what was found meet demands. -/
theorem grants_ofFound {elements : List Surface.Pattern} {found : List Found}
    (ofElements : ∀ pattern ∈ elements, pattern.Meets demands true)
    (ofFound : ∀ entry ∈ found, entry.Granted demands) :
    Grants (Meets demands) (QueryScope.ofFound elements found) := by
  have aggregates : ∀ entry ∈ Found.aggregates found, Found.ValueLeft demands entry.2 := by
    rintro entry member
    cases ofFound _ (Found.mem_aggregates.1 member) with
    | aggregate _ meets inside => exact Found.valueLeft meets inside
  have extensions : ∀ entry ∈ (Found.extensions found).reverse,
      Found.ValueLeft demands entry.2 := by
    rintro entry member
    cases ofFound _ (Found.mem_extensions.1 (List.mem_reverse.1 member)) with
    | extension _ meets inside => exact Found.valueLeft meets inside
  rw [QueryScope.ofFound]
  refine Grants.bind (Found.grants_writtenAggregates aggregates) ?_
  rintro ⟨entries, inAggregates⟩ ⟨ofEntries, ofInAggregates⟩
  have ofAggregates : AggregatesMeet demands (NameMap.ofList entries) := fun entry member =>
    ofEntries entry (NameMap.mem_of_mem_ofList member)
  refine Grants.bind (Found.grants_writtenExtensions ofAggregates extensions) ?_
  rintro ⟨written, inExtensions⟩ ⟨ofExtensions, ofInExtensions⟩
  have orderKeys : ∀ entry ∈ Found.orderKeys (found ++ inAggregates ++ inExtensions),
      Found.ValueLeft demands entry.2 := by
    rintro entry member
    have ofAll := List.forall_mem_append.2
      ⟨List.forall_mem_append.2 ⟨ofFound, ofInAggregates⟩, ofInExtensions⟩
    cases ofAll _ (Found.mem_orderKeys.1 member) with
    | orderKey _ meets inside => exact Found.valueLeft meets inside
  refine Grants.bind (Found.grants_writtenOrder ofAggregates orderKeys) ?_
  rintro ⟨orderBy, _⟩ ⟨ofOrder, _⟩
  exact Meets.of_clauses ofElements ofExtensions ofAggregates ofOrder _

end QueryScope

/-! ### Stars -/

namespace Extensions

private theorem take_of_none {name : Variable} {extensions : Extensions}
    (none : (take name extensions).1 = none) :
    (take name extensions).2 = extensions ∧ ∀ entry ∈ extensions, entry.1 ≠ name := by
  induction extensions with
  | nil => exact ⟨rfl, List.forall_mem_nil _⟩
  | cons entry rest ih =>
    rw [take] at none ⊢
    split at none
    · cases none
    · rename_i other
      obtain ⟨same, others⟩ := ih none
      rw [if_neg other]
      exact ⟨congrArg (entry :: ·) same, List.forall_mem_cons.2 ⟨other, others⟩⟩

/-- If no item is computed, no value is bound to what is shown. -/
private theorem selectItems_plain {aggregates : NameMap Surface.Expression} {vars : List Variable}
    {extensions : Extensions}
    (plain : (extensions.selectItems aggregates vars).1.any (·.isComputed) = false) :
    (extensions.selectItems aggregates vars).2 = extensions
      ∧ ∀ entry ∈ extensions, entry.1 ∉ vars := by
  induction vars generalizing extensions with
  | nil => exact ⟨rfl, fun _ _ => List.not_mem_nil⟩
  | cons name names ih =>
    rw [selectItems, List.any_cons, Bool.or_eq_false_iff] at plain
    have nothing : (take name extensions).1 = none := by
      cases taken : (take name extensions).1 with
      | none => rfl
      | some value =>
        have computed := plain.1
        rw [taken] at computed
        cases computed
    obtain ⟨same, others⟩ := take_of_none nothing
    rw [same] at plain
    obtain ⟨left, unbound⟩ := ih plain.2
    rw [selectItems, same]
    exact ⟨left, fun entry member isShown => (List.mem_cons.1 isShown).elim (others entry member)
      (unbound entry member)⟩

end Extensions

namespace Found

theorem names_writtenExtensions {aggregates : NameMap Surface.Expression}
    {values : List (Variable × Collecting Surface.Expression)} {extensions : Extensions}
    {found : List Found}
    (success : (writtenExtensions aggregates values).outcome = .ok (extensions, found)) :
    extensions.map (·.1) = values.map (·.1) := by
  have names : (writtenExtensions aggregates values).Grants
      fun extensions _ => extensions.map (·.1) = values.map (·.1) := by
    clear success
    induction values with
    | nil => exact .pure rfl
    | cons entry rest ih =>
      refine Collecting.Grants.bind_any fun value _ => ?_
      exact ih.bind fun others _ same => .pure (congrArg (entry.1 :: ·) same)
  exact names.of_ok success

private theorem length_writtenAggregates
    {values : List (Variable × Collecting Surface.Expression)}
    {entries : List (String × Surface.Expression)} {found : List Found}
    (success : (writtenAggregates values).outcome = .ok (entries, found)) :
    entries.length = values.length := by
  have lengths : (writtenAggregates values).Grants
      fun entries _ => entries.length = values.length := by
    clear success
    induction values with
    | nil => exact .pure rfl
    | cons entry rest ih =>
      refine Collecting.Grants.bind_any fun value _ => ?_
      exact ih.bind fun others _ same => .pure (congrArg (· + 1) same)
  exact lengths.of_ok success

end Found

private theorem NameMap.eq_nil_of_isEmpty_ofList {α : Type} {entries : List (String × α)}
    (empty : (ofList entries).isEmpty = true) : entries = [] := by
  have inserted : ∀ (key : String) (value : α) (entries : List (String × α)),
      insertEntry key value entries ≠ [] := by
    intro key value entries
    unfold insertEntry
    split
    · exact List.cons_ne_nil _ _
    · split
      · exact List.cons_ne_nil _ _
      · split <;> exact List.cons_ne_nil _ _
  rcases List.eq_nil_or_concat' entries with none | ⟨first, last, rfl⟩
  · exact none
  · rw [ofList, List.foldl_append, List.foldl_cons, List.foldl_nil] at empty
    exact absurd (List.isEmpty_iff.1 empty) (inserted _ _ _)

namespace QueryScope

private theorem select_all {scope : QueryScope} {all : Bool} {vars : List Variable}
    (star : (scope.select all vars).projection = .all) :
    all = true ∧ scope.isGrouped = false ∧ (∀ entry ∈ scope.extensions, entry.1 ∉ vars)
      ∧ scope.select all vars = ⟨.keep, .all, none, scope.pattern, scope.modifiers⟩ := by
  rw [select] at star ⊢
  dsimp only at star ⊢
  split at star
  · rename_i isStar
    rw [if_pos isStar]
    simp only [Bool.and_eq_true, Bool.not_eq_true'] at isStar
    obtain ⟨⟨plain, ungrouped⟩, isAll⟩ := isStar
    obtain ⟨left, unbound⟩ := Extensions.selectItems_plain plain
    rw [left]
    exact ⟨isAll, ungrouped, unbound, rfl⟩
  · cases star

/-- A query is written as a star only if all variables in scope are shown and nothing was found on
the way to its pattern but the keys of an order. -/
theorem of_star {elements : List Surface.Pattern} {found : List Found} {scope : QueryScope}
    {all : Bool} {vars : List Variable} (made : ofFound elements found = .ok scope)
    (bound : ∀ name value, Found.extension name value ∈ found → name ∈ vars)
    (star : (scope.select all vars).projection = .all) :
    all = true ∧ Found.names found = [] ∧ ∃ orderBy, scope.select all vars
      = ⟨.keep, .all, none,
        Surface.Pattern.groupOf (Surface.Pattern.groupElements elements ++ []),
        { Surface.Modifiers.none with orderBy }⟩ := by
  obtain ⟨isAll, ungrouped, unbound, query⟩ := select_all star
  obtain ⟨⟨entries, inAggregates⟩, ofAggregates, made⟩ := ok_of_bind made
  obtain ⟨⟨extensions, inExtensions⟩, ofExtensions, made⟩ := ok_of_bind made
  obtain ⟨⟨orderBy, _⟩, _, made⟩ := ok_of_bind made
  cases made
  rw [isGrouped, Bool.or_eq_false_iff] at ungrouped
  obtain ⟨noGroup, noAggregates⟩ := ungrouped
  have noKeys : Found.groupKeys (found ++ inAggregates ++ inExtensions) = [] := by
    by_contra keys
    rw [if_neg (by simpa using keys)] at noGroup
    cases noGroup
  obtain rfl := NameMap.eq_nil_of_isEmpty_ofList (by simpa using noAggregates)
  have noAggregates : Found.aggregates found = [] :=
    List.eq_nil_of_length_eq_zero (Found.length_writtenAggregates ofAggregates).symm
  -- A value bound on the way would be bound to a variable that is shown, which computes an item.
  have names := Found.names_writtenExtensions ofExtensions
  have noExtensions : Found.extensions found = [] := by
    refine List.eq_nil_iff_forall_not_mem.2 fun entry member => ?_
    have isName : entry.1 ∈ extensions.map (·.1) :=
      names ▸ List.mem_map_of_mem (List.mem_reverse.2 member)
    obtain ⟨written, isWritten, same⟩ := List.mem_map.1 isName
    rw [noKeys] at unbound
    exact unbound written isWritten (same ▸ bound _ _ (Found.mem_extensions.1 member))
  have noneLeft : extensions = [] := by
    rw [noExtensions] at names
    exact List.map_eq_nil_iff.1 names
  refine ⟨isAll, List.filterMap_eq_nil_iff.2 fun entry member => ?_, orderBy, ?_⟩
  · have absent : ∀ {α : Type} {list : List α} {value : α}, list = [] → value ∉ list :=
      fun none member => absurd (none ▸ member) List.not_mem_nil
    cases entry with
    | extension name value =>
      have isBound : (name, ⟨value⟩) ∈ Found.extensions found := Found.mem_extensions.2 member
      exact absurd isBound (absent noExtensions)
    | aggregate name value =>
      have isBound : (name, ⟨value⟩) ∈ Found.aggregates found := Found.mem_aggregates.2 member
      exact absurd isBound (absent noAggregates)
    | groupKey name =>
      exact absurd (Found.mem_groupKeys.2 (List.mem_append_left _ (List.mem_append_left _ member)))
        (absent noKeys)
    | orderKey => rfl
  · rw [query, noKeys, noneLeft]
    have empty : (NameMap.ofList [] : NameMap Surface.Expression) = .empty := rfl
    simp only [pattern, empty, Surface.Pattern.allWithoutGroupConditions_empty,
      Surface.Pattern.allGroupConditions_empty]
    rfl

end QueryScope

end QueryAlgebra
