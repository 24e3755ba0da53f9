import QueryAlgebra.Proofs.Lifting.GroupedRereading
import QueryAlgebra.Proofs.Lifting.SettledForm

/-! # Settled queries as they are written

The clauses of a settled query are found on the way to its pattern, and its aggregates are written
where their variables stand. So each clause is written with the text of its expression as it was
before aggregates were taken out of it: `GroupedQuery.exists_scope`.
-/

namespace QueryAlgebra

open BoundAggregate (Holds)
open Collecting (FindsNothing)
open Surface.Pattern (groupElements)

/-! ### Texts of expressions -/

namespace Expression

/-- The text of an expression that can be written. -/
def text (expression : Expression) : Surface.Expression :=
  match expression.written.outcome with
  | .ok (written, _) => written
  | .error _ => .coalesce []

/-- An expression is written, and nothing is found in it. -/
def IsSpelled (expression : Expression) : Prop := ∃ text, expression.written = pure text

variable {expression : Expression}

theorem text_eq {text : Surface.Expression} (isWritten : expression.written = pure text) :
    expression.text = text := by
  rw [Expression.text, isWritten]
  rfl

theorem IsSpelled.written (spelled : expression.IsSpelled) :
    expression.written = pure expression.text := by
  obtain ⟨text, isWritten⟩ := spelled
  rw [text_eq isWritten, isWritten]

private theorem collects_nil {α : Type} {step : Collecting α} {value : α}
    (isPure : step = pure value) : step.Collects value [] := by
  rw [isPure]
  rfl

private theorem pure_of_collects {α : Type} {step : Collecting α} {value : α}
    (collects : step.Collects value []) : step = pure value := by
  obtain ⟨outcome⟩ := step
  exact congrArg Collecting.mk collects

/-- If nothing is found in two steps, then nothing is found in the first one. -/
private theorem pure_of_bind {α β : Type} {step : Collecting α} {next : α → Collecting β}
    {result : β} (isPure : (step >>= next) = pure result) : ∃ value, step = pure value := by
  obtain ⟨value, first, rest, collects, -, none⟩ :=
    Collecting.collects_bind.1 (collects_nil isPure)
  obtain rfl := (List.append_eq_nil_iff.1 none).1
  exact ⟨value, pure_of_collects collects⟩

private theorem allWritten_cons {rest : List Expression} {texts : List Surface.Expression}
    (isWritten : Expression.allWritten (expression :: rest) = pure texts) :
    expression.IsSpelled ∧ ∃ others, Expression.allWritten rest = pure others := by
  rw [Expression.allWritten] at isWritten
  obtain ⟨text, first⟩ := pure_of_bind isWritten
  rw [first, pure_bind] at isWritten
  exact ⟨⟨text, first⟩, pure_of_bind isWritten⟩

mutual

/-- The aggregates of an expression are spelled with it. -/
theorem ownAggregates_isSpelled : ∀ {expression : Expression}, expression.IsSpelled →
    ∀ aggregate ∈ expression.ownAggregates, aggregate.IsSpelled
  | .term _, _ => List.forall_mem_nil _
  | .call _ arguments, ⟨text, isWritten⟩ => by
    rw [Expression.written] at isWritten
    obtain ⟨texts, ofArguments⟩ := pure_of_bind isWritten
    exact allOwnAggregates_isSpelled ofArguments
  | .aggregate .., spelled => List.forall_mem_singleton.2 spelled
  | .existence .., _ => List.forall_mem_nil _
  | .wildcard, _ => List.forall_mem_nil _

theorem allOwnAggregates_isSpelled : ∀ {expressions : List Expression}
    {texts : List Surface.Expression}, Expression.allWritten expressions = pure texts →
    ∀ aggregate ∈ allOwnAggregates expressions, aggregate.IsSpelled
  | [], _, _ => List.forall_mem_nil _
  | _ :: _, _, isWritten =>
    have ⟨first, _, others⟩ := allWritten_cons isWritten
    List.forall_mem_append.2 ⟨ownAggregates_isSpelled first, allOwnAggregates_isSpelled others⟩

end

private theorem IsSpelled.findsNothing (spelled : expression.IsSpelled) :
    expression.written.FindsNothing := by
  rw [spelled.written]
  exact .pure _

private theorem findsNothing_orVariable (found : List BoundAggregate)
    (spelled : expression.IsSpelled) : (expression.orVariable found).written.FindsNothing := by
  rw [orVariable]
  split
  · exact .lift _
  · exact spelled.findsNothing

mutual

/-- Nothing is found in what is left of an expression. -/
private theorem findsNothing_grouped (found : List BoundAggregate) :
    ∀ {expression : Expression}, expression.IsSpelled →
    (expression.grouped found).written.FindsNothing
  | .term _, spelled => spelled.findsNothing
  | .call callee arguments, ⟨text, isWritten⟩ => by
    rw [Expression.written] at isWritten
    obtain ⟨texts, ofArguments⟩ := pure_of_bind isWritten
    rw [grouped, Expression.written]
    refine (findsNothing_allGrouped found ofArguments).bind fun texts => ?_
    cases callee with
    | operator name => exact .lift _
    | function name => exact .pure _
  | .aggregate .., spelled => findsNothing_orVariable found spelled
  | .existence .., spelled => spelled.findsNothing
  | .wildcard, spelled => spelled.findsNothing

private theorem findsNothing_allGrouped (found : List BoundAggregate) :
    ∀ {expressions : List Expression} {texts : List Surface.Expression},
    Expression.allWritten expressions = pure texts →
    (Expression.allWritten (allGrouped found expressions)).FindsNothing
  | [], _, _ => by
    rw [allGrouped, Expression.allWritten]
    exact .pure _
  | _ :: _, _, isWritten => by
    obtain ⟨first, _, others⟩ := allWritten_cons isWritten
    rw [allGrouped, Expression.allWritten]
    exact (findsNothing_grouped found first).bind fun _ =>
      (findsNothing_allGrouped found others).bind fun _ => .pure _

end

/-- What is left of an expression is spelled, and with the aggregates in place of their variables it
is the text of the expression. -/
theorem IsSpelled.grouped {values : NameMap Surface.Expression} {found : List BoundAggregate}
    (spelled : expression.IsSpelled) (restores : Restores values found)
    (held : ∀ aggregate ∈ expression.ownAggregates, Holds found aggregate)
    (apart : ∀ name ∈ expression.ownVariables, values.find? name.name = none) :
    (expression.grouped found).IsSpelled
      ∧ (expression.grouped found).text.substitute values = expression.text := by
  have writes : expression.written.Writes expression.text := ⟨[], collects_nil spelled.written⟩
  obtain ⟨result, ⟨inside, outcome⟩, same⟩ := grouped_writes restores held apart writes
  obtain rfl : inside = [] := (findsNothing_grouped found spelled).eq_nil outcome
  have isWritten := pure_of_collects outcome
  exact ⟨⟨result, isWritten⟩, by rw [text_eq isWritten, same]⟩

end Expression

/-! ### What is found -/

namespace Operation

variable {operation : Operation} {elements : List Surface.Pattern} {found : List Found}

/-- What is noted before an operation is found with its elements. -/
private theorem collects_noted {lifted : Collecting Lifted} (notes : List Found)
    (collects : lifted.asElements.Collects elements found) :
    Collecting.Collects (Collecting.asElements (do
      Collecting.note notes
      lifted)) elements (notes ++ found) := by
  rw [Collecting.asElements, bind_assoc]
  exact Collecting.collects_bind.2 ⟨(), notes, found, rfl, collects, rfl⟩

/-- Filters are written over elements, and nothing is found in them. -/
theorem collects_kept {conditions : List Expression}
    (collects : (operation.written false).asElements.Collects elements found)
    (spelled : ∀ condition ∈ conditions, condition.IsSpelled) :
    ((operation.kept conditions).written false).asElements.Collects
      (Surface.Pattern.kept (conditions.map (·.text)) elements) found := by
  induction conditions generalizing operation elements with
  | nil => exact collects
  | cons condition rest ih =>
    obtain ⟨first, others⟩ := List.forall_mem_cons.1 spelled
    have filtered : ((Operation.of (.filter operation condition)).written false).asElements.Collects
        [.group (elements ++ [.filter condition.text .none]) .none] found := by
      rw [Operation.of, Operation.written, Operator.written, first.written]
      refine Collecting.collects_asElements.2 ⟨.elements _, ?_, rfl⟩
      exact Collecting.collects_bind.2 ⟨elements, found, [], collects, rfl, List.append_nil found⟩
    exact ih filtered others

/-- Values are found below a query form, the outermost first. -/
theorem collects_extend (bindings : Bindings)
    (collects : (operation.written true).asElements.Collects elements found) :
    ((bindings.extend operation).written true).asElements.Collects elements
      (Found.ofBindings bindings ++ found) := by
  induction bindings using List.reverseRecOn with
  | nil => exact collects
  | append_singleton before last ih =>
    have extended : Bindings.extend (before ++ [last]) operation
        = .of (.extend (Bindings.extend before operation) last.1 last.2) := List.foldl_concat ..
    have all : Found.ofBindings (before ++ [last])
        = [.extension last.1 last.2.written.outcome] ++ Found.ofBindings before := by
      simp [Found.ofBindings]
    rw [extended, Operation.of, Operation.written, Operator.written, if_pos rfl, all,
      List.append_assoc]
    exact collects_noted _ ih

private theorem not_isSpelled_desc (argument : Expression) :
    ¬ (Expression.call (.operator "desc") [argument]).IsSpelled := by
  rintro ⟨text, isWritten⟩
  rw [Expression.written] at isWritten
  obtain ⟨texts, ofArguments⟩ := Expression.pure_of_bind isWritten
  rw [ofArguments, pure_bind] at isWritten
  cases congrArg Collecting.outcome isWritten

private theorem allOrderKeys_spelled {order : List (Surface.Direction × Expression)}
    (spelled : ∀ key ∈ order, key.2.IsSpelled) :
    Expression.allOrderKeys (order.map fun key => Context.orderKey key.1 key.2)
      = Found.ofOrder order := by
  induction order with
  | nil => rw [List.map_nil, Expression.allOrderKeys]; rfl
  | cons key rest ih =>
    obtain ⟨first, others⟩ := List.forall_mem_cons.1 spelled
    obtain ⟨direction, value⟩ := key
    rw [List.map_cons, Found.ofOrder, List.map_cons]
    cases direction with
    | descending =>
      rw [Context.orderKey, Expression.operator, Expression.allOrderKeys, ih others]
      rfl
    | ascending =>
      rw [Context.orderKey, Expression.allOrderKeys, ih others]
      · rfl
      · rintro argument rfl
        exact not_isSpelled_desc argument first

/-- The keys of an order are found, none of which is written as a descending one. -/
theorem collects_ordered {order : List (Surface.Direction × Expression)}
    (collects : (operation.written true).asElements.Collects elements found)
    (spelled : ∀ key ∈ order, key.2.IsSpelled) :
    ((PlainQuery.ordered order operation).written true).asElements.Collects elements
      (Found.ofOrder order ++ found) := by
  rw [PlainQuery.ordered]
  split
  · rename_i isEmpty
    rw [List.isEmpty_iff.1 isEmpty]
    exact collects
  · rw [Operation.of, Operation.written, Operator.written]
    rw [allOrderKeys_spelled spelled]
    exact collects_noted _ collects

end Operation

namespace Found

/-- Clauses are found as such. -/
theorem clauses_all (order : List (Surface.Direction × Expression)) (bindings : Bindings)
    (keys : List Variable) (bound : List BoundAggregate) :
    let found := ofOrder order
      ++ (ofBindings bindings ++ (keys.map .groupKey ++ BoundAggregate.allFound bound))
    extensions found = bindings.reverse.map (fun entry => (entry.1, entry.2.written))
      ∧ groupKeys found = keys
      ∧ aggregates found = bound.map (fun bound => (bound.name, bound.expression.written))
      ∧ orderKeys found = order.map (fun key => (key.1, key.2.written)) := by
  obtain ⟨order, values, noAggregates, noKeys⟩ := clauses_found order bindings
  obtain ⟨keyValues, keys, keyAggregates, keyOrder⟩ := clauses_groupKeys keys
  obtain ⟨boundValues, boundKeys, boundOrder⟩ := clauses_allFound bound
  rw [← List.append_assoc]
  refine ⟨?_, ?_, ?_, ?_⟩
  · rw [extensions_append, values, extensions_append, keyValues, boundValues, List.append_nil,
      List.append_nil]
  · rw [groupKeys_append, noKeys, groupKeys_append, keys, boundKeys, List.append_nil,
      List.nil_append]
  · rw [aggregates_append, noAggregates, aggregates_append, keyAggregates, aggregates_allFound,
      List.nil_append, List.nil_append]
  · rw [orderKeys_append, order, orderKeys_append, keyOrder, boundOrder, List.append_nil,
      List.append_nil]

/-- Aggregates are written, each under its variable. -/
private theorem writtenAggregates_spelled {aggregates : List BoundAggregate}
    (spelled : ∀ bound ∈ aggregates, bound.expression.IsSpelled) :
    writtenAggregates (aggregates.map fun bound => (bound.name, bound.expression.written))
      = pure (aggregates.map fun bound => (bound.name.name, bound.expression.text)) := by
  induction aggregates with
  | nil => rfl
  | cons bound rest ih =>
    obtain ⟨first, others⟩ := List.forall_mem_cons.1 spelled
    rw [List.map_cons, writtenAggregates, first.written, ih others]
    rfl

/-- What an expression is written as if its aggregates are put in place of their variables. -/
private abbrev Whole (values : NameMap Surface.Expression) (left expression : Expression) : Prop :=
  left.IsSpelled ∧ left.text.substitute values = expression.text

private theorem writtenExtensions_spelled {values : NameMap Surface.Expression}
    {left : Expression → Expression} {bindings : Bindings}
    (whole : ∀ entry ∈ bindings, Whole values (left entry.2) entry.2) :
    writtenExtensions values (bindings.map fun entry => (entry.1, (left entry.2).written))
      = pure (bindings.map fun entry => (entry.1, entry.2.text)) := by
  induction bindings with
  | nil => rfl
  | cons entry rest ih =>
    obtain ⟨⟨spelled, same⟩, others⟩ := List.forall_mem_cons.1 whole
    rw [List.map_cons, writtenExtensions, spelled.written, ih others, pure_bind, pure_bind, same]
    rfl

private theorem writtenOrder_spelled {values : NameMap Surface.Expression}
    {left : Expression → Expression} {order : List (Surface.Direction × Expression)}
    (whole : ∀ key ∈ order, Whole values (left key.2) key.2) :
    writtenOrder values (order.map fun key => (key.1, (left key.2).written))
      = pure (order.map fun key => .of key.1 key.2.text) := by
  induction order with
  | nil => rfl
  | cons key rest ih =>
    obtain ⟨⟨spelled, same⟩, others⟩ := List.forall_mem_cons.1 whole
    rw [List.map_cons, writtenOrder, spelled.written, ih others, pure_bind, pure_bind, same]
    rfl

end Found

/-! ### Clauses of settled queries -/

private theorem Extensions.take_of_absent {name : Variable} {extensions : Extensions}
    (absent : ∀ entry ∈ extensions, entry.1 ≠ name) :
    extensions.take name = (none, extensions) := by
  induction extensions with
  | nil => rfl
  | cons entry rest ih =>
    obtain ⟨first, others⟩ := List.forall_mem_cons.1 absent
    rw [take, if_neg first, ih others]

/-- Keys that have no values are written as variables. -/
theorem Extensions.groupKeys_of_free {keys : List Variable} {extensions : Extensions}
    (free : ∀ entry ∈ extensions, entry.1 ∉ keys) :
    extensions.groupKeys keys = (keys.map .var, extensions) := by
  induction keys with
  | nil => rfl
  | cons name names ih =>
    have absent : extensions.take name = (none, extensions) :=
      take_of_absent fun entry member same => free entry member (same ▸ List.mem_cons_self)
    have others := ih fun entry member isKey => free entry member (List.mem_cons_of_mem _ isKey)
    rw [groupKeys, absent, others]
    rfl

namespace GroupedQuery

variable {query : GroupedQuery} {inner : List Surface.Pattern}

/-- The pattern and the expressions of a query are written, and nothing is found in them. -/
structure IsSpelled (query : GroupedQuery) (inner : List Surface.Pattern) : Prop where
  core : (query.core.written false).asElements = pure inner
  inForm : query.isGrouped = false → query.core.written true = query.core.written false
  expressions : ∀ expression ∈ query.expressions, expression.IsSpelled

/-- The texts of the aggregates under their variables. -/
def values (query : GroupedQuery) : NameMap Surface.Expression :=
  .ofList (query.aggregates.map fun bound => (bound.name.name, bound.expression.text))

/-- The written values. -/
def extensions (query : GroupedQuery) : Extensions :=
  query.bindings.map fun entry => (entry.1, entry.2.text)

/-- The written clauses after the pattern, without a slice. -/
def modifiers (query : GroupedQuery) : Surface.Modifiers :=
  { Surface.Modifiers.none with
    groupBy := if query.keys.isEmpty then none else some (query.keys.map .var)
    having := query.conditions.map (·.text)
    orderBy := query.order.map fun key => .of key.1 key.2.text }

/-- Aggregates of a settled query stand in its clauses. -/
theorem IsSettled.holds (settled : query.IsSettled) {expression : Expression}
    (member : expression ∈ query.expressions) :
    ∀ aggregate ∈ expression.ownAggregates, Holds query.aggregates aggregate := by
  intro aggregate isOwn
  rw [Holds, settled.aggregates, List.mem_eraseDups]
  exact List.mem_flatMap.2 ⟨expression, member, isOwn⟩

theorem IsSettled.aggregates_spelled (settled : query.IsSettled)
    (spelled : ∀ expression ∈ query.expressions, expression.IsSpelled) :
    ∀ bound ∈ query.aggregates, bound.expression.IsSpelled := by
  intro bound member
  have isOwn : bound.expression ∈ query.aggregates.map (·.expression) := List.mem_map_of_mem member
  rw [settled.aggregates, List.mem_eraseDups] at isOwn
  obtain ⟨expression, isExpression, isOwn⟩ := List.mem_flatMap.1 isOwn
  exact Expression.ownAggregates_isSpelled (spelled expression isExpression) _ isOwn

/-- The aggregates have different names. -/
theorem nodup_texts (distinct : (query.aggregates.map (·.name)).Nodup) :
    ((query.aggregates.map fun bound =>
      (bound.name.name, bound.expression.text)).map (·.1)).Nodup := by
  have injective : Function.Injective Variable.name := fun ⟨_⟩ ⟨_⟩ same => congrArg _ same
  have texts := distinct.map injective
  rw [List.map_map] at texts ⊢
  exact texts

private theorem find?_values (distinct : (query.aggregates.map (·.name)).Nodup) {name : Variable}
    {text : Surface.Expression} : query.values.find? name.name = some text
      ↔ ∃ bound ∈ query.aggregates, bound.name = name ∧ bound.expression.text = text := by
  rw [values, NameMap.find?_ofList (nodup_texts distinct), List.mem_map]
  refine exists_congr fun bound => and_congr_right fun _ => ?_
  rw [Prod.mk.injEq]
  exact and_congr_left fun _ => ⟨congrArg Variable.mk, congrArg Variable.name⟩

/-- Only the variables of aggregates have values. -/
theorem find?_values_eq_none (distinct : (query.aggregates.map (·.name)).Nodup) {name : Variable}
    (other : ∀ bound ∈ query.aggregates, bound.name ≠ name) :
    query.values.find? name.name = none := by
  rw [Option.eq_none_iff_forall_ne_some]
  intro text found
  obtain ⟨bound, member, same, -⟩ := (find?_values distinct).1 found
  exact other bound member same

private theorem restores_values (distinct : (query.aggregates.map (·.name)).Nodup)
    (spelled : ∀ bound ∈ query.aggregates, bound.expression.IsSpelled) :
    Expression.Restores query.values query.aggregates := by
  intro bound member written writes
  refine (find?_values distinct).2 ⟨bound, member, rfl, ?_⟩
  exact Collecting.Writes.unique ⟨[], Expression.collects_nil (spelled bound member).written⟩ writes

private theorem IsSettled.whole (settled : query.IsSettled)
    (spelled : ∀ expression ∈ query.expressions, expression.IsSpelled) {expression : Expression}
    (member : expression ∈ query.expressions) :
    Found.Whole query.values (expression.grouped query.aggregates) expression := by
  refine (spelled expression member).grouped
    (restores_values settled.distinct (settled.aggregates_spelled spelled))
    (settled.holds member) fun name isOwn => find?_values_eq_none settled.distinct ?_
  rintro bound isBound rfl
  exact (settled.fresh bound isBound).2.2 expression member isOwn

end GroupedQuery

namespace Expression

variable {found : List BoundAggregate}

mutual

/-- What is left of an expression with aggregates mentions their variables. -/
theorem exists_ownVariable_grouped : ∀ {expression : Expression}, expression.ownAggregates ≠ [] →
    (∀ aggregate ∈ expression.ownAggregates, Holds found aggregate) →
    ∃ bound ∈ found, bound.name ∈ (expression.grouped found).ownVariables
  | .term _, nonempty, _ => absurd rfl nonempty
  | .call _ _, nonempty, held => exists_ownVariable_allGrouped nonempty held
  | .aggregate name argument distinct separator, _, held => by
    obtain ⟨bound, member, -, isFound⟩ := (held _ (List.mem_singleton_self _)).exists_find?
    refine ⟨bound, member, ?_⟩
    rw [grouped, orVariable, isFound]
    exact List.mem_singleton_self bound.name
  | .existence .., nonempty, _ => absurd rfl nonempty
  | .wildcard, nonempty, _ => absurd rfl nonempty

theorem exists_ownVariable_allGrouped : ∀ {expressions : List Expression},
    allOwnAggregates expressions ≠ [] →
    (∀ aggregate ∈ allOwnAggregates expressions, Holds found aggregate) →
    ∃ bound ∈ found, bound.name ∈ allOwnVariables (allGrouped found expressions)
  | [], nonempty, _ => absurd rfl nonempty
  | expression :: rest, nonempty, held => by
    obtain ⟨ofFirst, ofRest⟩ := List.forall_mem_append.1 held
    by_cases none : expression.ownAggregates = []
    · have others : allOwnAggregates rest ≠ [] := by
        rwa [allOwnAggregates, none, List.nil_append] at nonempty
      obtain ⟨bound, member, isOwn⟩ := exists_ownVariable_allGrouped others ofRest
      exact ⟨bound, member, List.mem_append_right _ isOwn⟩
    · obtain ⟨bound, member, isOwn⟩ := exists_ownVariable_grouped none ofFirst
      exact ⟨bound, member, List.mem_append_left _ isOwn⟩

end

end Expression

namespace GroupedQuery

variable {query : GroupedQuery} {inner : List Surface.Pattern}

theorem mem_expressions_of_condition {condition : Expression}
    (member : condition ∈ query.conditions) : condition ∈ query.expressions :=
  List.mem_append_right _ (List.mem_append_left _ member)

theorem mem_expressions_of_key {key : Surface.Direction × Expression}
    (member : key ∈ query.order) : key.2 ∈ query.expressions :=
  List.mem_append_right _ (List.mem_append_right _ (List.mem_map_of_mem member))

theorem mem_expressions_of_value {entry : Variable × Expression}
    (member : entry ∈ query.bindings) : entry.2 ∈ query.expressions :=
  List.mem_append_left _ (List.mem_map_of_mem member)

/-- A condition on groups is written so that it mentions the value of an aggregate. -/
private theorem IsSettled.mentions (settled : query.IsSettled)
    (spelled : ∀ expression ∈ query.expressions, expression.IsSpelled) {condition : Expression}
    (member : condition ∈ query.conditions) :
    (condition.grouped query.aggregates).text.mentions query.values = true := by
  have isExpression := mem_expressions_of_condition member
  obtain ⟨bound, isBound, isOwn⟩ := Expression.exists_ownVariable_grouped
    (settled.conditions condition member) (settled.holds isExpression)
  have ofLeft := (settled.whole spelled isExpression).1
  rw [Expression.mentions_written ⟨[], Expression.collects_nil ofLeft.written⟩, List.any_eq_true]
  refine ⟨bound.name, isOwn, Option.isSome_iff_exists.2 ⟨bound.expression.text, ?_⟩⟩
  exact (find?_values settled.distinct).2 ⟨bound, isBound, rfl, rfl⟩

/-- Without aggregates there are no conditions on groups. -/
theorem IsSettled.conditions_eq_nil (settled : query.IsSettled)
    (ungrouped : query.isGrouped = false) :
    query.aggregates = [] ∧ query.keys = [] ∧ query.conditions = [] := by
  have none : query.keys = [] ∧ query.aggregates = [] := by
    simpa [isGrouped] using ungrouped
  refine ⟨none.2, none.1, List.eq_nil_iff_forall_not_mem.2 fun condition member => ?_⟩
  obtain ⟨aggregate, isOwn⟩ := List.exists_mem_of_ne_nil _ (settled.conditions condition member)
  have held := settled.holds (mem_expressions_of_condition member) aggregate isOwn
  rw [Holds, none.2] at held
  cases held

/-- The groups of a query are written as its pattern. -/
private theorem collects_groups (spelled : query.IsSpelled inner) (inForm : Bool) :
    ((query.core.groupedBy query.keys query.aggregates).written inForm).asElements.Collects inner
      (query.keys.map .groupKey ++ BoundAggregate.allFound query.aggregates) := by
  rw [Operation.groupedBy]
  split
  · rename_i none
    obtain ⟨noKeys, noAggregates⟩ := Bool.and_eq_true_iff.1 none
    rw [List.isEmpty_iff.1 noKeys, List.isEmpty_iff.1 noAggregates]
    have ungrouped : query.isGrouped = false := by rw [isGrouped, none]; rfl
    cases inForm with
    | false => exact Expression.collects_nil spelled.core
    | true => exact Expression.collects_nil (spelled.inForm ungrouped ▸ spelled.core)
  · rw [Operation.of, Operation.written, Operator.written]
    have noted := Operation.collects_noted
      (query.keys.map .groupKey ++ BoundAggregate.allFound query.aggregates)
      (Expression.collects_nil spelled.core)
    rwa [List.append_nil] at noted

/-- The conditions of groups over the elements of a pattern. -/
def keptElements (query : GroupedQuery) (inner : List Surface.Pattern) : List Surface.Pattern :=
  Surface.Pattern.kept (query.conditions.map fun condition =>
    (condition.grouped query.aggregates).text) inner

/-- An operation with conditions over it is written in one way, in a query form or not. -/
private theorem written_kept {conditions : List Expression} (nonempty : conditions ≠ [])
    (operation : Operation) :
    (operation.kept conditions).written true = (operation.kept conditions).written false := by
  obtain ⟨before, last, rfl⟩ := (List.eq_nil_or_concat conditions).resolve_left nonempty
  refine Operation.written_inForm ?_
  rw [List.concat_eq_append, Operation.kept, List.foldl_concat]
  rfl

private theorem collects_core (settled : query.IsSettled) (spelled : query.IsSpelled inner) :
    (query.flat.core.written true).asElements.Collects (query.keptElements inner)
      (query.keys.map .groupKey ++ BoundAggregate.allFound query.aggregates) := by
  by_cases none : query.conditions = []
  · have whole := collects_groups spelled true
    simp only [flat, keptElements, none, List.map_nil]
    exact whole
  · have kept := Operation.collects_kept (collects_groups spelled false)
      (List.forall_mem_map.2 fun condition member =>
        (settled.whole spelled.expressions (mem_expressions_of_condition member)).1)
    rw [List.map_map] at kept
    rw [flat, written_kept (by simpa using none)]
    exact kept

/-- What was found becomes the clauses of a query if all of it is written and no key of a group has
a value. -/
private theorem ofFound_spelled {elements : List Surface.Pattern} {found : List Found}
    (entries : List (String × Surface.Expression)) (extensions : Extensions)
    (order : List Surface.OrderKey) {keys : List Variable}
    (ofAggregates : Found.writtenAggregates (Found.aggregates found) = pure entries)
    (ofValues : Found.writtenExtensions (.ofList entries) (Found.extensions found).reverse
      = pure extensions)
    (ofKeys : Found.groupKeys found = keys)
    (ofOrder : Found.writtenOrder (.ofList entries) (Found.orderKeys found) = pure order)
    (free : ∀ entry ∈ extensions, entry.1 ∉ keys) :
    QueryScope.ofFound elements found = .ok
      ⟨groupElements (Surface.Pattern.allWithoutGroupConditions (.ofList entries) elements),
        extensions, .ofList entries,
        { Surface.Modifiers.none with
          groupBy := if keys.isEmpty then none else some (keys.map .var)
          having := Surface.Pattern.allGroupConditions (.ofList entries) elements
          orderBy := order }⟩ := by
  simp only [QueryScope.ofFound, ofAggregates, bind, Except.bind, ofValues, pure, List.append_nil,
    ofKeys, ofOrder, Extensions.groupKeys_of_free free, Except.pure]

/-- The clauses of a settled query and its pattern, around which groups may be left of its
conditions. -/
theorem exists_scope (settled : query.IsSettled) (spelled : query.IsSpelled inner) :
    ∃ elements, (query.flat.solutions.written true).asScope
        = .ok ⟨groupElements elements, query.extensions, query.values, query.modifiers⟩
      ∧ (query.isGrouped = false → elements = inner)
      ∧ ∀ context : Context, context.pattern (.group elements .none)
        = context.pattern (.group inner .none) := by
  have whole {expression : Expression} : expression ∈ query.expressions →
      Found.Whole query.values (expression.grouped query.aggregates) expression :=
    settled.whole spelled.expressions
  -- What is found on the way to the pattern.
  have ofSolutions : (query.flat.solutions.written true).asElements.Collects
      (query.keptElements inner) _ :=
    Operation.collects_ordered (Operation.collects_extend _ (collects_core settled spelled))
      (List.forall_mem_map.2 fun key member => (whole (mem_expressions_of_key member)).1)
  obtain ⟨values, keys, aggregates, order⟩ := Found.clauses_all query.flat.order
    query.flat.bindings query.keys query.aggregates
  -- No condition stands in the pattern, and all of them stand over it.
  have writes : (query.core.written false).asElements.Writes inner :=
    ⟨[], Expression.collects_nil spelled.core⟩
  have stands := Operation.stands query.values query.core false writes
  have free : Surface.Pattern.allGroupConditions query.values inner = [] :=
    stands.conditions fun name member => find?_values_eq_none settled.distinct fun bound isBound
      same => (settled.fresh bound isBound).1 (same ▸ member)
  have mentioned : ∀ text ∈ query.conditions.map fun condition =>
      (condition.grouped query.aggregates).text, text.mentions query.values = true :=
    List.forall_mem_map.2 fun condition => settled.mentions spelled.expressions
  refine ⟨Surface.Pattern.allWithoutGroupConditions query.values (query.keptElements inner), ?_, ?_,
    fun context => ?_⟩
  · have having : Surface.Pattern.allGroupConditions query.values (query.keptElements inner)
        = query.conditions.map (·.text) := by
      rw [keptElements, Surface.Pattern.allGroupConditions_kept, free, List.nil_append,
        List.filter_eq_self.2 mentioned, List.map_map]
      exact List.map_congr_left fun condition member =>
        (whole (mem_expressions_of_condition member)).2
    rw [Collecting.asScope, ofSolutions]
    refine (ofFound_spelled (query.aggregates.map fun bound =>
      (bound.name.name, bound.expression.text)) query.extensions query.modifiers.orderBy
      ?_ ?_ keys ?_ ?_).trans ?_
    · rw [aggregates, Found.writtenAggregates_spelled
        (settled.aggregates_spelled spelled.expressions)]
    · rw [values, ← List.map_reverse, List.reverse_reverse, flat, List.map_map]
      exact Found.writtenExtensions_spelled fun entry member =>
        whole (mem_expressions_of_value member)
    · rw [order, flat, List.map_map]
      exact Found.writtenOrder_spelled fun key member => whole (mem_expressions_of_key member)
    · exact List.forall_mem_map.2 settled.computed
    · have named : NameMap.ofList (query.aggregates.map fun bound =>
          (bound.name.name, bound.expression.text)) = query.values := rfl
      rw [named, having]
      rfl
  · intro ungrouped
    rw [keptElements, (settled.conditions_eq_nil ungrouped).2.2]
    exact Surface.Pattern.allWithoutGroupConditions_of_none free
  · obtain ⟨-, -, asInner⟩ := Context.pattern_kept context stands.unfiltered free
      (query.conditions.map fun condition => (condition.grouped query.aggregates).text)
    have others : (query.conditions.map fun condition =>
        (condition.grouped query.aggregates).text).filter (fun text => !text.mentions query.values)
        = [] := by
      rw [List.filter_eq_nil_iff]
      exact fun text member => by simp [mentioned text member]
    rw [keptElements, asInner, others]
    rfl

end GroupedQuery

end QueryAlgebra
