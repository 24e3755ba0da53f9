import QueryAlgebra.Proofs.Lifting.BindingOrder
import QueryAlgebra.Proofs.Lifting.OuterFilters

/-! # Writing grouped solutions

The clauses of a query group the solutions of its pattern, keep groups by conditions, join them with
a table, bind computed values and order what they come to. `GroupedSolutions.operation` is the
operation of all that, and `GroupedSolutions.exists_clauses` says what it is written as: the
conditions that mention the value of an aggregate are taken out of the elements, and everything else
that stands over the group is left among the elements below it.
-/

namespace QueryAlgebra

open Surface.Pattern (mergeTriples)

/-! ### What is written and found -/

namespace Collecting

variable {α β : Type} {step : Collecting α} {value : α} {found : List Found}

/-- What a step results in, and what it finds on the way. -/
def Collects (step : Collecting α) (value : α) (found : List Found) : Prop :=
  step.outcome = .ok (value, found)

theorem Collects.writes (collects : step.Collects value found) : step.Writes value :=
  ⟨found, collects⟩

theorem FindsNothing.eq_nil (nothing : step.FindsNothing) (collects : step.Collects value found) :
    found = [] :=
  nothing.of_ok collects

theorem collects_pure {other : α} :
    (pure other : Collecting α).Collects value found ↔ other = value ∧ found = [] := by
  constructor
  · intro same
    cases same
    exact ⟨rfl, rfl⟩
  · rintro ⟨rfl, rfl⟩
    rfl

theorem collects_lift {outcome : Except LiftingError α} :
    (liftM outcome : Collecting α).Collects value found ↔ outcome = .ok value ∧ found = [] := by
  cases outcome with
  | error error => exact ⟨fun same => (by cases same), fun ⟨same, _⟩ => (by cases same)⟩
  | ok other =>
    rw [lift_ok, collects_pure]
    exact and_congr_left fun _ => ⟨congrArg Except.ok, fun same => (by cases same; rfl)⟩

theorem collects_note {noted : List Found} {value : Unit} :
    (note noted).Collects value found ↔ found = noted := by
  constructor
  · intro same
    cases same
    rfl
  · rintro rfl
    rfl

/-- What two steps find comes one after the other. -/
theorem collects_bind {next : α → Collecting β} {result : β} :
    (step >>= next).Collects result found
      ↔ ∃ value first rest, step.Collects value first ∧ (next value).Collects result rest
        ∧ first ++ rest = found := by
  obtain ⟨outcome⟩ := step
  constructor
  · intro success
    rcases outcome with error | ⟨value, first⟩
    · cases success
    · change (after first (next value).outcome).outcome = _ at success
      rcases outcome : (next value).outcome with error | ⟨last, rest⟩
      · rw [outcome] at success
        cases success
      · rw [outcome] at success
        cases success
        exact ⟨value, first, rest, rfl, outcome, rfl⟩
  · rintro ⟨value, first, rest, same, success, rfl⟩
    cases same
    change (after first (next value).outcome).outcome = _
    rw [success]
    rfl

theorem collects_asElements {lifted : Collecting Lifted} {elements : List Surface.Pattern} :
    lifted.asElements.Collects elements found
      ↔ ∃ result, lifted.Collects result found ∧ result.asElements = .ok elements := by
  simp only [asElements, collects_bind, collects_lift]
  constructor
  · rintro ⟨result, first, _, ofLifted, ⟨isElements, rfl⟩, rfl⟩
    exact ⟨result, (List.append_nil first).symm ▸ ofLifted, isElements⟩
  · rintro ⟨result, ofLifted, isElements⟩
    exact ⟨result, found, [], ofLifted, ⟨isElements, rfl⟩, List.append_nil found⟩

end Collecting

open Collecting (FindsNothing)

/-! ### Grouped solutions -/

/-- Whether an expression mentions the value of an aggregate outside of aggregates and patterns. -/
def Expression.uses (aggregates : List BoundAggregate) (expression : Expression) : Bool :=
  expression.ownVariables.any fun name => aggregates.any (·.name = name)

/-- The direction of a key of an order uses nothing. -/
theorem Expression.uses_keyValue (aggregates : List BoundAggregate) (key : Expression) :
    key.keyValue.uses aggregates = key.uses aggregates := by
  have same : key.keyValue.ownVariables = key.ownVariables := by
    unfold keyValue
    split
    · exact (List.append_nil _).symm
    · rfl
  rw [uses, uses, same]

/-- Whether an expression is an aggregate. -/
def Expression.isAggregate : Expression → Bool
  | .aggregate .. => true
  | _ => false

/-- Solutions of a pattern in groups, of which those are kept that meet conditions, the innermost
first. They are joined with a table, given computed values and ordered. -/
structure GroupedSolutions where
  input : Operation
  keys : List Variable
  aggregates : List BoundAggregate
  conditions : List Expression
  table : Option (List Variable × List Row)
  bindings : Bindings
  order : List Expression

namespace Operation

/-- Solutions that meet conditions, the innermost first. -/
def kept (conditions : List Expression) (operation : Operation) : Operation :=
  conditions.foldl (fun operation condition => .of (.filter operation condition)) operation

/-- Solutions joined with a table, if there is one. -/
def joinedWith (table : Option (List Variable × List Row)) (operation : Operation) : Operation :=
  match table with
  | none => operation
  | some (vars, rows) => .of (.combine .join [operation, .of (.values vars rows)])

/-- Solutions in the order of keys, if there are any. -/
def orderedBy (order : List Expression) (operation : Operation) : Operation :=
  if order.isEmpty then operation else .of (.orderBy operation order)

end Operation

namespace GroupedSolutions

/-- The groups. -/
def groups (grouped : GroupedSolutions) : Operation :=
  .of (.group grouped.input grouped.keys grouped.aggregates)

/-- The operation of grouped solutions. -/
def operation (grouped : GroupedSolutions) : Operation :=
  .orderedBy grouped.order
    (grouped.bindings.extend (.joinedWith grouped.table (.kept grouped.conditions grouped.groups)))

/-- The solutions that are grouped, but only those that meet the conditions that mention no
aggregate. -/
def below (grouped : GroupedSolutions) : Operation :=
  .kept (grouped.conditions.filter fun condition => !condition.uses grouped.aggregates)
    grouped.input

/-- The expressions that may mention values of aggregates. -/
def values (grouped : GroupedSolutions) : List Expression :=
  grouped.bindings.map (·.2) ++ (grouped.conditions ++ grouped.order)

/-- Grouped solutions as the clauses of a query make them, of which variables are shown: those of
computed values are shown in their order, aggregates are bound to different new variables, and
groups are made for keys or for aggregates that are used. -/
structure IsMade (grouped : GroupedSolutions) (vars : List Variable) : Prop where
  shown : (grouped.bindings.map (·.1)).Sublist vars
  aggregates : ∀ bound ∈ grouped.aggregates, bound.expression.isAggregate = true
  distinct : (grouped.aggregates.map (·.name)).Nodup
  fresh : ∀ bound ∈ grouped.aggregates,
    bound.name ∉ grouped.input.outerVariables ∧ bound.name ∉ vars
  used : grouped.keys ≠ [] ∨ ∃ value ∈ grouped.values, value.uses grouped.aggregates = true

/-- Solutions are grouped and ordered only here, apart from query forms. -/
structure Clauseless (grouped : GroupedSolutions) : Prop where
  input : grouped.input.Clauseless
  aggregates : ∀ bound ∈ grouped.aggregates, bound.expression.Clauseless
  conditions : ∀ condition ∈ grouped.conditions, condition.Clauseless
  bindings : ∀ entry ∈ grouped.bindings, entry.2.Clauseless
  order : ∀ key ∈ grouped.order, key.Clauseless

end GroupedSolutions

/-! ### Elements -/

namespace Surface.Pattern

/-- Elements with filters over them, the innermost first. -/
def kept (conditions : List Expression) (elements : List Pattern) : List Pattern :=
  conditions.foldl
    (fun elements condition => [.group (elements ++ [.filter condition .none]) .none]) elements

/-- Elements followed by inline data, if there is any. -/
def joinedWith (data : Option InlineData) (elements : List Pattern) : List Pattern :=
  match data with
  | none => elements
  | some data => mergeTriples (elements ++ [.values data .none])

end Surface.Pattern

/-- A table is written as inline data. -/
def Row.TableWrites : Option (List Variable × List Row) → Option Surface.InlineData → Prop
  | none, data => data = none
  | some (vars, rows), data =>
    ∃ cells, Row.allWritten vars rows = .ok cells ∧ data = some ⟨vars, cells⟩

/-- Expressions are written one by one. -/
abbrev Expression.AllWrite : List Expression → List Surface.Expression → Prop :=
  List.Forall₂ fun expression written => expression.written.Writes written

namespace Operation

variable {elements : List Surface.Pattern} {found : List Found}

/-- Filters are written over the elements of what they keep, and nothing is found in them. -/
theorem kept_collects {conditions : List Expression} {operation : Operation}
    (clauseless : ∀ condition ∈ conditions, condition.Clauseless)
    (collects : ((operation.kept conditions).written false).asElements.Collects elements found) :
    ∃ inner written, (operation.written false).asElements.Collects inner found
      ∧ Expression.AllWrite conditions written
      ∧ elements = Surface.Pattern.kept written inner := by
  induction conditions generalizing operation with
  | nil => exact ⟨elements, [], collects, .nil, rfl⟩
  | cons condition rest ih =>
    obtain ⟨first, others⟩ := List.forall_mem_cons.1 clauseless
    obtain ⟨_, written, ofFilter, ofRest, rfl⟩ := ih others collects
    obtain ⟨_, ofFilter, isElements⟩ := Collecting.collects_asElements.1 ofFilter
    simp only [Operation.of, Operation.written, Operator.written, Collecting.collects_bind,
      Collecting.collects_pure] at ofFilter
    obtain ⟨inner, before, _, ofInput, ⟨text, _, _, ofCondition, ⟨rfl, rfl⟩, rfl⟩, rfl⟩ := ofFilter
    cases isElements
    have nothing := first.findsNothing.eq_nil ofCondition
    rw [nothing, List.append_nil, List.append_nil]
    exact ⟨inner, text :: written, ofInput, .cons ofCondition.writes ofRest, rfl⟩

/-- Filters that can be written are written over elements. -/
theorem kept_writes {conditions : List Expression} {operation : Operation}
    {written : List Surface.Expression} {inner : List Surface.Pattern}
    (ofOperation : (operation.written false).asElements.Writes inner)
    (ofConditions : Expression.AllWrite conditions written) :
    ((operation.kept conditions).written false).asElements.Writes
      (Surface.Pattern.kept written inner) := by
  induction ofConditions generalizing operation inner with
  | nil => exact ofOperation
  | @cons condition text rest texts first _ ih =>
    refine ih (Collecting.writes_asElements.2
      ⟨.elements [.group (inner ++ [.filter text .none]) .none], ?_, rfl⟩)
    simp only [Operation.of, Operation.written, Operator.written, Collecting.writes_bind,
      Collecting.writes_pure]
    exact ⟨inner, ofOperation, text, first, rfl⟩

private theorem values_collects {vars : List Variable} {rows : List Row}
    (collects : ((Operation.of (.values vars rows)).written false).asElements.Collects
      elements found) :
    ∃ cells, Row.allWritten vars rows = .ok cells ∧ elements = [.values ⟨vars, cells⟩ .none]
      ∧ found = [] := by
  obtain ⟨_, ofValues, isElements⟩ := Collecting.collects_asElements.1 collects
  simp only [Operation.of, Operation.written, Operator.written, Collecting.collects_bind,
    Collecting.collects_lift, Collecting.collects_pure] at ofValues
  obtain ⟨cells, _, _, ⟨ofRows, rfl⟩, ⟨rfl, rfl⟩, rfl⟩ := ofValues
  cases isElements
  exact ⟨cells, ofRows, rfl, rfl⟩

/-- A table is written after the elements of what it is joined with. -/
theorem joinedWith_collects {table : Option (List Variable × List Row)} {operation : Operation}
    (collects : ((operation.joinedWith table).written false).asElements.Collects elements found) :
    ∃ inner data, (operation.written false).asElements.Collects inner found
      ∧ Row.TableWrites table data ∧ elements = Surface.Pattern.joinedWith data inner := by
  match table with
  | none => exact ⟨elements, none, collects, rfl, rfl⟩
  | some (vars, rows) =>
    obtain ⟨_, ofJoin, isElements⟩ := Collecting.collects_asElements.1 collects
    simp only [joinedWith, Operation.of, Operation.written, Operator.written, Operation.allElements,
      Collecting.collects_bind, Collecting.collects_pure] at ofJoin
    obtain ⟨_, _, _, ⟨inner, before, _, ofInput, ⟨_, _, _, ⟨_, _, _, ofValues, ⟨_, _, _, ⟨rfl, rfl⟩,
      ⟨rfl, rfl⟩, rfl⟩, rfl⟩, ⟨rfl, rfl⟩, rfl⟩, rfl⟩, ⟨rfl, rfl⟩, rfl⟩ := ofJoin
    obtain ⟨cells, ofRows, rfl, rfl⟩ := values_collects ofValues
    cases isElements
    refine ⟨inner, some ⟨vars, cells⟩, ?_, ⟨cells, ofRows, rfl⟩, ?_⟩
    · simpa only [List.append_nil] using ofInput
    · simp [Surface.Pattern.joinedWith]

/-- The keys and aggregates of a group are found before anything below it. -/
theorem group_collects {input : Operation} {keys : List Variable} {aggregates : List BoundAggregate}
    (collects : ((Operation.of (.group input keys aggregates)).written false).asElements.Collects
      elements found) :
    ∃ rest, (input.written false).asElements.Collects elements rest
      ∧ found = keys.map .groupKey ++ BoundAggregate.allFound aggregates ++ rest := by
  obtain ⟨_, ofGroup, isElements⟩ := Collecting.collects_asElements.1 collects
  simp only [Operation.of, Operation.written, Operator.written, Collecting.collects_bind,
    Collecting.collects_note] at ofGroup
  obtain ⟨_, _, rest, rfl, ofInput, rfl⟩ := ofGroup
  exact ⟨rest, Collecting.collects_asElements.2 ⟨_, ofInput, isElements⟩, rfl⟩

/-- Values below a query form are found, the outermost first. -/
theorem extend_collects {bindings : Bindings} {operation : Operation}
    (collects : ((bindings.extend operation).written true).asElements.Collects elements found) :
    ∃ rest, (operation.written true).asElements.Collects elements rest
      ∧ found = Found.ofBindings bindings ++ rest := by
  induction bindings generalizing operation with
  | nil => exact ⟨found, collects, rfl⟩
  | cons entry rest ih =>
    obtain ⟨_, ofExtend, rfl⟩ := ih collects
    obtain ⟨_, ofExtend, isElements⟩ := Collecting.collects_asElements.1 ofExtend
    simp only [Operation.of, Operation.written, Operator.written, if_true, Collecting.collects_bind,
      Collecting.collects_note] at ofExtend
    obtain ⟨_, _, last, rfl, ofInput, rfl⟩ := ofExtend
    refine ⟨last, Collecting.collects_asElements.2 ⟨_, ofInput, isElements⟩, ?_⟩
    simp [Found.ofBindings]

/-- The keys of an order below a query form are found. -/
theorem orderedBy_collects {order : List Expression} {operation : Operation}
    (collects : ((operation.orderedBy order).written true).asElements.Collects elements found) :
    ∃ rest, (operation.written true).asElements.Collects elements rest
      ∧ found = Expression.allOrderKeys order ++ rest := by
  rw [orderedBy] at collects
  split at collects
  · rename_i isEmpty
    rw [List.isEmpty_iff.1 isEmpty, Expression.allOrderKeys]
    exact ⟨found, collects, rfl⟩
  · obtain ⟨_, ofOrder, isElements⟩ := Collecting.collects_asElements.1 collects
    simp only [Operation.of, Operation.written, Operator.written, Collecting.collects_bind,
      Collecting.collects_note] at ofOrder
    obtain ⟨_, _, rest, rfl, ofInput, rfl⟩ := ofOrder
    exact ⟨rest, Collecting.collects_asElements.2 ⟨_, ofInput, isElements⟩, rfl⟩

theorem written_inForm {operation : Operation} (closed : operation.operator.seesThrough = false) :
    operation.written true = operation.written false := by
  obtain ⟨operator, metadata⟩ := operation
  rw [Operation.written, Operation.written, Operator.written_inForm closed]

/-- A query form around kept groups reaches nothing below them. -/
theorem seesThrough_joinedWith (table : Option (List Variable × List Row))
    (conditions : List Expression) {operation : Operation}
    (closed : operation.operator.seesThrough = false) :
    ((operation.kept conditions).joinedWith table).operator.seesThrough = false := by
  match table with
  | some _ => rfl
  | none =>
    rw [joinedWith]
    induction conditions generalizing operation with
    | nil => exact closed
    | cons condition rest ih => exact ih rfl

end Operation

namespace GroupedSolutions

variable {grouped : GroupedSolutions} {elements : List Surface.Pattern} {found : List Found}

/-- Grouped solutions are written as the elements of their pattern with the conditions and the table
over them, and the other clauses are found. -/
theorem operation_collects (clauseless : grouped.Clauseless)
    (collects : (grouped.operation.written true).asElements.Collects elements found) :
    ∃ inner written data, (grouped.input.written false).asElements.Writes inner
      ∧ Expression.AllWrite grouped.conditions written
      ∧ Row.TableWrites grouped.table data
      ∧ elements = Surface.Pattern.joinedWith data (Surface.Pattern.kept written inner)
      ∧ found = Expression.allOrderKeys grouped.order ++ (Found.ofBindings grouped.bindings
        ++ (grouped.keys.map .groupKey ++ BoundAggregate.allFound grouped.aggregates)) := by
  obtain ⟨_, ofBindings, rfl⟩ := Operation.orderedBy_collects collects
  obtain ⟨_, ofTable, rfl⟩ := Operation.extend_collects ofBindings
  have closed : grouped.groups.operator.seesThrough = false := rfl
  rw [Operation.written_inForm
    (Operation.seesThrough_joinedWith grouped.table grouped.conditions closed)] at ofTable
  obtain ⟨_, data, ofKept, ofData, rfl⟩ := Operation.joinedWith_collects ofTable
  obtain ⟨inner, written, ofGroups, ofConditions, rfl⟩ :=
    Operation.kept_collects clauseless.conditions ofKept
  obtain ⟨rest, ofInput, rfl⟩ := Operation.group_collects ofGroups
  obtain rfl : rest = [] := clauseless.input.findsNothing.asElements.eq_nil ofInput
  rw [List.append_nil]
  exact ⟨inner, written, data, ofInput.writes, ofConditions, ofData, rfl, rfl⟩

end GroupedSolutions

/-! ### What is found -/

namespace Found

theorem extensions_append (first second : List Found) :
    extensions (first ++ second) = extensions first ++ extensions second := by
  induction first with
  | nil => rfl
  | cons head rest ih => cases head <;> simp [extensions, ih]

theorem groupKeys_append (first second : List Found) :
    groupKeys (first ++ second) = groupKeys first ++ groupKeys second := by
  induction first with
  | nil => rfl
  | cons head rest ih => cases head <;> simp [groupKeys, ih]

theorem aggregates_append (first second : List Found) :
    aggregates (first ++ second) = aggregates first ++ aggregates second := by
  induction first with
  | nil => rfl
  | cons head rest ih => cases head <;> simp [aggregates, ih]

theorem orderKeys_append (first second : List Found) :
    orderKeys (first ++ second) = orderKeys first ++ orderKeys second := by
  induction first with
  | nil => rfl
  | cons head rest ih => cases head <;> simp [orderKeys, ih]

/-- Keys of an order are found as such. -/
theorem clauses_allOrderKeys (order : List Expression) :
    extensions (Expression.allOrderKeys order) = []
      ∧ groupKeys (Expression.allOrderKeys order) = []
      ∧ aggregates (Expression.allOrderKeys order) = []
      ∧ List.Forall₂ (fun key entry => entry.2 = key.keyValue.written) order
        (orderKeys (Expression.allOrderKeys order)) := by
  induction order with
  | nil =>
    rw [Expression.allOrderKeys]
    exact ⟨rfl, rfl, rfl, .nil⟩
  | cons key rest ih =>
    obtain ⟨values, keys, groups, same⟩ := ih
    obtain ⟨direction, first⟩ := Expression.allOrderKeys_cons key rest
    rw [first]
    exact ⟨values, keys, groups, .cons rfl same⟩

/-- Keys of groups are found as such. -/
theorem clauses_groupKeys (keys : List Variable) :
    extensions (keys.map .groupKey) = [] ∧ groupKeys (keys.map .groupKey) = keys
      ∧ aggregates (keys.map .groupKey) = [] ∧ orderKeys (keys.map .groupKey) = [] := by
  induction keys with
  | nil => exact ⟨rfl, rfl, rfl, rfl⟩
  | cons key rest ih =>
    obtain ⟨values, keys, others⟩ := ih
    exact ⟨values, congrArg (key :: ·) keys, others⟩

theorem clauses_allFound (bound : List BoundAggregate) :
    extensions (BoundAggregate.allFound bound) = []
      ∧ groupKeys (BoundAggregate.allFound bound) = []
      ∧ orderKeys (BoundAggregate.allFound bound) = [] := by
  induction bound with
  | nil => exact ⟨rfl, rfl, rfl⟩
  | cons head rest ih =>
    obtain ⟨name, expression⟩ := head
    exact ih

theorem findsNothing_writtenAggregates {values : List (Variable × Collecting Surface.Expression)}
    (nothing : ∀ entry ∈ values, entry.2.FindsNothing) :
    (writtenAggregates values).FindsNothing := by
  induction values with
  | nil => exact .pure []
  | cons entry rest ih =>
    obtain ⟨first, others⟩ := List.forall_mem_cons.1 nothing
    exact first.bind fun value => (ih others).bind fun entries => .pure _

end Found

/-! ### Written clauses -/

/-- An expression is written with values in place of variables. -/
def Expression.WritesWith (values : NameMap Surface.Expression) (expression : Expression)
    (result : Surface.Expression) : Prop :=
  ∃ written, expression.written.Writes written ∧ result = written.substitute values

namespace GroupedSolutions

/-- The clauses that grouped solutions are written as. -/
structure Clauses (grouped : GroupedSolutions) (inner : List Surface.Pattern)
    (conditions : List Surface.Expression) (data : Option Surface.InlineData)
    (values : NameMap Surface.Expression) (extensions : Extensions)
    (order : List Surface.OrderKey) : Prop where
  input : (grouped.input.written false).asElements.Writes inner
  conditions : Expression.AllWrite grouped.conditions conditions
  table : Row.TableWrites grouped.table data
  liftable : ∀ bound ∈ grouped.aggregates, bound.expression.IsLiftable
  found : ∀ name written, values.find? name = some written
    ↔ ∃ bound ∈ grouped.aggregates, bound.name.name = name
      ∧ bound.expression.written.Writes written
  extensions : List.Forall₂ (fun entry extension => extension.1 = entry.1
    ∧ entry.2.WritesWith values extension.2) grouped.bindings extensions
  order : List.Forall₂ (fun key written => ∃ direction value, written = .of direction value
    ∧ key.keyValue.WritesWith values value) grouped.order order

/-- What is found on the way to the pattern of grouped solutions. -/
def found (grouped : GroupedSolutions) : List Found :=
  Expression.allOrderKeys grouped.order ++ (Found.ofBindings grouped.bindings
    ++ (grouped.keys.map .groupKey ++ BoundAggregate.allFound grouped.aggregates))

theorem clauses_found (grouped : GroupedSolutions) :
    Found.extensions grouped.found
        = grouped.bindings.reverse.map (fun entry => (entry.1, entry.2.written))
      ∧ Found.groupKeys grouped.found = grouped.keys
      ∧ Found.aggregates grouped.found
        = grouped.aggregates.map (fun bound => (bound.name, bound.expression.written))
      ∧ List.Forall₂ (fun key entry => entry.2 = key.keyValue.written) grouped.order
        (Found.orderKeys grouped.found) := by
  obtain ⟨orderValues, orderGroups, orderAggregates, order⟩ :=
    Found.clauses_allOrderKeys grouped.order
  obtain ⟨bindingKeys, bindings, bindingAggregates, bindingGroups⟩ :=
    Found.clauses_found [] grouped.bindings
  obtain ⟨keyValues, keys, keyAggregates, keyOrder⟩ := Found.clauses_groupKeys grouped.keys
  obtain ⟨boundValues, boundKeys, boundOrder⟩ := Found.clauses_allFound grouped.aggregates
  have none : Found.ofOrder [] ++ Found.ofBindings grouped.bindings
    = Found.ofBindings grouped.bindings := rfl
  have noKeys : Found.orderKeys (Found.ofBindings grouped.bindings) = [] := bindingKeys
  rw [none] at bindings bindingAggregates bindingGroups
  simp only [found, Found.extensions_append, Found.groupKeys_append, Found.aggregates_append,
    Found.orderKeys_append, orderValues, orderGroups, orderAggregates, noKeys, bindings,
    bindingAggregates, bindingGroups, keyValues, keys, keyAggregates, keyOrder, boundValues,
    boundKeys, boundOrder, Found.aggregates_allFound, List.nil_append, List.append_nil]
  exact ⟨trivial, trivial, trivial, order⟩

end GroupedSolutions

namespace Found

private theorem forall₂_writtenExtensions {values : NameMap Surface.Expression}
    {bindings : Bindings} {extensions : Extensions}
    (writes : (writtenExtensions values
      (bindings.map fun entry => (entry.1, entry.2.written))).Writes extensions) :
    List.Forall₂ (fun entry extension => extension.1 = entry.1
      ∧ Expression.WritesWith values entry.2 extension.2) bindings extensions := by
  induction bindings generalizing extensions with
  | nil =>
    cases Collecting.writes_pure.1 writes
    exact .nil
  | cons entry rest ih =>
    simp only [List.map_cons, writtenExtensions, Collecting.writes_bind] at writes
    obtain ⟨value, ofValue, others, ofRest, writes⟩ := writes
    cases Collecting.writes_pure.1 writes
    exact .cons ⟨rfl, value, ofValue, rfl⟩ (ih ofRest)

private theorem forall₂_writtenOrder {values : NameMap Surface.Expression} {keys : List Expression}
    {found : List (Surface.Direction × Collecting Surface.Expression)}
    {order : List Surface.OrderKey}
    (same : List.Forall₂ (fun key entry => entry.2 = key.keyValue.written) keys found)
    (writes : (writtenOrder values found).Writes order) :
    List.Forall₂ (fun key written => ∃ direction value, written = .of direction value
      ∧ key.keyValue.WritesWith values value) keys order := by
  induction same generalizing order with
  | nil =>
    cases Collecting.writes_pure.1 writes
    exact .nil
  | @cons key entry keys found first _ ih =>
    obtain ⟨direction, value⟩ := entry
    simp only [writtenOrder, Collecting.writes_bind] at writes
    obtain ⟨text, ofValue, others, ofRest, writes⟩ := writes
    cases Collecting.writes_pure.1 writes
    exact .cons ⟨direction, _, rfl, text, first ▸ ofValue, rfl⟩ (ih ofRest)

private theorem mem_writtenAggregates {found : List BoundAggregate}
    {entries : List (String × Surface.Expression)}
    (writes : (writtenAggregates
      (found.map fun bound => (bound.name, bound.expression.written))).Writes entries) :
    entries.map (·.1) = found.map (·.name.name)
      ∧ (∀ bound ∈ found, bound.expression.IsLiftable)
      ∧ ∀ name written, (name, written) ∈ entries
        ↔ ∃ bound ∈ found, bound.name.name = name ∧ bound.expression.written.Writes written := by
  induction found generalizing entries with
  | nil =>
    cases Collecting.writes_pure.1 writes
    exact ⟨rfl, List.forall_mem_nil _, by simp⟩
  | cons bound rest ih =>
    simp only [List.map_cons, writtenAggregates, Collecting.writes_bind] at writes
    obtain ⟨value, ofValue, others, ofRest, writes⟩ := writes
    cases Collecting.writes_pure.1 writes
    obtain ⟨names, liftable, members⟩ := ih ofRest
    refine ⟨congrArg (bound.name.name :: ·) names,
      List.forall_mem_cons.2 ⟨⟨value, ofValue⟩, liftable⟩, fun name written => ?_⟩
    rw [List.mem_cons, members]
    constructor
    · rintro (same | ⟨other, member, found⟩)
      · cases same
        exact ⟨bound, List.mem_cons_self, rfl, ofValue⟩
      · exact ⟨other, List.mem_cons_of_mem _ member, found⟩
    · rintro ⟨other, member, rfl, ofOther⟩
      rcases List.mem_cons.1 member with rfl | inRest
      · exact .inl (congrArg _ (ofOther.unique ofValue))
      · exact .inr ⟨other, inRest, rfl, ofOther⟩

end Found

namespace GroupedSolutions

variable {grouped : GroupedSolutions}

/-- A query of such clauses, before its form is added. -/
def scope (grouped : GroupedSolutions) (inner : List Surface.Pattern)
    (conditions : List Surface.Expression) (data : Option Surface.InlineData)
    (values : NameMap Surface.Expression) (extensions : Extensions)
    (order : List Surface.OrderKey) : QueryScope :=
  let elements := Surface.Pattern.joinedWith data (Surface.Pattern.kept conditions inner)
  let groupBy := extensions.groupKeys grouped.keys
  { elements := Surface.Pattern.groupElements
      (Surface.Pattern.allWithoutGroupConditions values elements)
    extensions := groupBy.2
    aggregates := values
    modifiers := { Surface.Modifiers.none with
      groupBy := if grouped.keys.isEmpty then none else some groupBy.1
      having := Surface.Pattern.allGroupConditions values elements
      orderBy := order } }

/-- Grouped solutions are written as a query of their clauses. -/
theorem exists_clauses (clauseless : grouped.Clauseless)
    (distinct : (grouped.aggregates.map (·.name)).Nodup) {scope : QueryScope}
    (made : (grouped.operation.written true).asScope = .ok scope) :
    ∃ inner conditions data values extensions order,
      grouped.Clauses inner conditions data values extensions order
      ∧ scope = grouped.scope inner conditions data values extensions order := by
  obtain ⟨⟨elements, found⟩, outcome, made⟩ := ok_of_bind made
  obtain ⟨inner, conditions, data, ofInput, ofConditions, ofTable, rfl, isFound⟩ :=
    operation_collects clauseless outcome
  obtain rfl : found = grouped.found := isFound
  obtain ⟨ofExtensions, ofKeys, ofAggregates, ofOrder⟩ := grouped.clauses_found
  have ofClauses : QueryScope.ofFound _ grouped.found = .ok scope := made
  obtain ⟨⟨entries, inAggregates⟩, aggregates, made⟩ := ok_of_bind ofClauses
  rw [ofAggregates] at aggregates
  have nothing : (Found.writtenAggregates (grouped.aggregates.map fun bound =>
      (bound.name, bound.expression.written))).FindsNothing := by
    refine Found.findsNothing_writtenAggregates fun entry member => ?_
    obtain ⟨bound, isBound, rfl⟩ := List.mem_map.1 member
    exact (clauseless.aggregates bound isBound).findsNothing
  obtain rfl : inAggregates = [] := nothing.eq_nil aggregates
  obtain ⟨⟨extensions, inExtensions⟩, values, made⟩ := ok_of_bind made
  rw [ofExtensions, List.map_reverse, List.reverse_reverse] at values
  have nothing : (Found.writtenExtensions (.ofList entries) (grouped.bindings.map fun entry =>
      (entry.1, entry.2.written))).FindsNothing := by
    refine Found.findsNothing_writtenExtensions _ fun entry member => ?_
    obtain ⟨binding, isBinding, rfl⟩ := List.mem_map.1 member
    exact (clauseless.bindings binding isBinding).findsNothing
  obtain rfl : inExtensions = [] := nothing.eq_nil values
  obtain ⟨⟨order, inOrder⟩, keys, made⟩ := ok_of_bind made
  simp only [List.append_nil] at keys made
  rw [ofKeys] at made
  obtain ⟨names, liftable, members⟩ := Found.mem_writtenAggregates ⟨_, aggregates⟩
  have distinctEntries : (entries.map (·.1)).Nodup := by
    have injective : Function.Injective Variable.name := fun ⟨_⟩ ⟨_⟩ same => congrArg _ same
    have texts := distinct.map injective
    rw [List.map_map] at texts
    rw [names]
    exact texts
  refine ⟨inner, conditions, data, .ofList entries, extensions, order, ?_, ?_⟩
  · refine ⟨ofInput, ofConditions, ofTable, liftable, fun name written => ?_,
      Found.forall₂_writtenExtensions ⟨_, values⟩, Found.forall₂_writtenOrder ofOrder ⟨_, keys⟩⟩
    rw [NameMap.find?_ofList distinctEntries, members]
  · exact (Except.ok.inj made).symm

end GroupedSolutions

/-! ### Graph names -/

namespace GroupedSolutions

/-- The grouped solutions with no graph named in patterns. -/
def withoutEmbeddedGraphs (grouped : GroupedSolutions) : GroupedSolutions where
  input := grouped.input.withoutEmbeddedGraphs
  keys := grouped.keys
  aggregates := grouped.aggregates.map fun bound =>
    ⟨bound.name, bound.expression.withoutEmbeddedGraphs⟩
  conditions := grouped.conditions.map (·.withoutEmbeddedGraphs)
  table := grouped.table
  bindings := grouped.bindings.map fun entry => (entry.1, entry.2.withoutEmbeddedGraphs)
  order := grouped.order.map (·.withoutEmbeddedGraphs)

end GroupedSolutions

namespace Operation

theorem withoutEmbeddedGraphs_kept (conditions : List Expression) (operation : Operation) :
    (operation.kept conditions).withoutEmbeddedGraphs
      = operation.withoutEmbeddedGraphs.kept (conditions.map (·.withoutEmbeddedGraphs)) := by
  induction conditions generalizing operation with
  | nil => rfl
  | cons condition rest ih => exact ih _

theorem withoutEmbeddedGraphs_extend (bindings : Bindings) (operation : Operation) :
    (bindings.extend operation).withoutEmbeddedGraphs
      = Bindings.extend (bindings.map fun entry => (entry.1, entry.2.withoutEmbeddedGraphs))
        operation.withoutEmbeddedGraphs := by
  induction bindings generalizing operation with
  | nil => rfl
  | cons entry rest ih => exact ih _

theorem withoutEmbeddedGraphs_joinedWith (table : Option (List Variable × List Row))
    (operation : Operation) :
    (operation.joinedWith table).withoutEmbeddedGraphs
      = operation.withoutEmbeddedGraphs.joinedWith table := by
  cases table <;> rfl

theorem withoutEmbeddedGraphs_orderedBy (order : List Expression) (operation : Operation) :
    (operation.orderedBy order).withoutEmbeddedGraphs
      = operation.withoutEmbeddedGraphs.orderedBy (order.map (·.withoutEmbeddedGraphs)) := by
  cases order with
  | nil => rfl
  | cons key rest =>
    show Operation.of (.orderBy _ (Expression.rebuildAll wrapping
      (Expression.rebuildAll clearingBlocks (key :: rest)))) = _
    rw [Expression.rebuildAll_eq_map, Expression.rebuildAll_eq_map, List.map_map]
    rfl

end Operation

namespace GroupedSolutions

variable {grouped : GroupedSolutions}

/-- Taking out graph names goes through the clauses. -/
theorem withoutEmbeddedGraphs_operation (grouped : GroupedSolutions) :
    grouped.operation.withoutEmbeddedGraphs = grouped.withoutEmbeddedGraphs.operation := by
  have ofGroups : grouped.groups.withoutEmbeddedGraphs = grouped.withoutEmbeddedGraphs.groups := by
    show Operation.of (.group _ _ (BoundAggregate.rebuildAll Operation.wrapping
      (BoundAggregate.rebuildAll Operation.clearingBlocks grouped.aggregates))) = _
    rw [BoundAggregate.rebuildAll_eq_map, BoundAggregate.rebuildAll_eq_map, List.map_map]
    rfl
  rw [operation, Operation.withoutEmbeddedGraphs_orderedBy, Operation.withoutEmbeddedGraphs_extend,
    Operation.withoutEmbeddedGraphs_joinedWith, Operation.withoutEmbeddedGraphs_kept, ofGroups]
  rfl

theorem Clauseless.withoutEmbeddedGraphs (clauseless : grouped.Clauseless) :
    grouped.withoutEmbeddedGraphs.Clauseless where
  input := clauseless.input.withoutEmbeddedGraphs
  aggregates := List.forall_mem_map.2 fun bound member =>
    (clauseless.aggregates bound member).withoutEmbeddedGraphs
  conditions := List.forall_mem_map.2 fun condition member =>
    (clauseless.conditions condition member).withoutEmbeddedGraphs
  bindings := List.forall_mem_map.2 fun entry member =>
    (clauseless.bindings entry member).withoutEmbeddedGraphs
  order := List.forall_mem_map.2 fun key member =>
    (clauseless.order key member).withoutEmbeddedGraphs

theorem uses_withoutEmbeddedGraphs (expression : Expression) :
    expression.withoutEmbeddedGraphs.uses grouped.withoutEmbeddedGraphs.aggregates
      = expression.uses grouped.aggregates := by
  rw [Expression.uses, Expression.uses, Operation.ownVariables_withoutEmbeddedGraphs]
  refine congrArg _ (funext fun name => ?_)
  rw [withoutEmbeddedGraphs, List.any_map]
  rfl

theorem IsMade.withoutEmbeddedGraphs {vars : List Variable} (made : grouped.IsMade vars) :
    grouped.withoutEmbeddedGraphs.IsMade vars where
  shown := by
    have names : grouped.withoutEmbeddedGraphs.bindings.map (·.1) = grouped.bindings.map (·.1) := by
      rw [GroupedSolutions.withoutEmbeddedGraphs, List.map_map]
      rfl
    exact names ▸ made.shown
  aggregates := List.forall_mem_map.2 fun bound member => by
    have isAggregate := made.aggregates bound member
    cases expression : bound.expression with
    | aggregate => rfl
    | _ => rw [expression] at isAggregate; cases isAggregate
  distinct := by
    rw [GroupedSolutions.withoutEmbeddedGraphs, List.map_map]
    exact made.distinct
  fresh := List.forall_mem_map.2 fun bound member => by
    rw [GroupedSolutions.withoutEmbeddedGraphs, Operation.outerVariables_withoutEmbeddedGraphs]
    exact made.fresh bound member
  used := by
    refine made.used.imp id fun ⟨value, member, uses⟩ => ⟨value.withoutEmbeddedGraphs, ?_, ?_⟩
    · have values : grouped.withoutEmbeddedGraphs.values
          = grouped.values.map (·.withoutEmbeddedGraphs) := by
        simp [GroupedSolutions.values, GroupedSolutions.withoutEmbeddedGraphs]
      rw [values]
      exact List.mem_map_of_mem member
    · rw [uses_withoutEmbeddedGraphs, uses]

end GroupedSolutions

end QueryAlgebra
