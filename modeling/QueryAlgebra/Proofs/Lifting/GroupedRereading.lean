import QueryAlgebra.Proofs.Lifting.GroupedSolutions
import QueryAlgebra.Proofs.Lifting.ReadClauses

/-! # Reading grouped solutions again

Grouped solutions below a projection are written as the clauses of a query, and nothing says any
more where the groups were made. `Operation.relowered_grouped` says what is read from that: of what
stood over the groups, conditions without aggregates and tables are written among the elements of
the pattern, and so they are applied to the solutions before these are grouped. Everything else
stands over the groups again, and nothing of the pattern does.
-/

namespace QueryAlgebra

open Surface (SelectItem)
open Surface.Pattern (groupElements groupOf)

/-! ### Elements without filters -/

namespace Context

variable {context : Context}

/-- Elements that are no filters leave the filters that were there. -/
theorem elements_of_unfiltered {elements : List Surface.Pattern}
    (unfiltered : ∀ element ∈ elements, element.isFilter = false) (before : Operation)
    (filters : List Expression) :
    context.elements elements before filters = (do
      let result ← context.elements elements before []
      pure (result.1, filters)) := by
  induction elements generalizing before with
  | nil => simp only [Context.elements, pure_bind]
  | cons element rest ih =>
    obtain ⟨first, others⟩ := List.forall_mem_cons.1 unfiltered
    by_cases member : element.isMember = true
    · simp only [elements_member context member, bind_assoc]
      exact bind_congr fun right => ih others _
    · cases element with
      | filter => cases first
      | optional | minus | bind =>
        simp only [Context.elements, bind_assoc]
        exact bind_congr fun right => ih others _
      | _ => exact absurd rfl member

/-- What comes after elements without filters is read after the group of these. -/
theorem elements_append_of_unfiltered {elements : List Surface.Pattern}
    (unfiltered : ∀ element ∈ elements, element.isFilter = false) (after : List Surface.Pattern) :
    context.elements (elements ++ after) (.bgp []) [] = (do
      let operation ← context.pattern (.group elements .none)
      context.elements after operation []) := by
  rw [elements_append, Context.pattern, elements_of_unfiltered unfiltered (.bgp []) []]
  simp only [bind_assoc, pure_bind]
  rfl

end Context

/-! ### The conditions of a group -/

namespace Surface.Pattern

variable {values : NameMap Expression} {inner : List Pattern}

theorem kept_concat (conditions : List Expression) (last : Expression) (elements : List Pattern) :
    kept (conditions ++ [last]) elements
      = [.group (kept conditions elements ++ [.filter last .none]) .none] :=
  List.foldl_concat ..

/-- The filters over elements that mention a value are conditions of the group. -/
theorem allGroupConditions_kept (conditions : List Expression) (elements : List Pattern) :
    allGroupConditions values (kept conditions elements)
      = allGroupConditions values elements
        ++ (conditions.filter (·.mentions values)).map (·.substitute values) := by
  induction conditions using List.reverseRecOn with
  | nil => exact (List.append_nil _).symm
  | append_singleton before last ih =>
    rw [kept_concat, allGroupConditions, groupConditions, allGroupConditions_append, ih,
      List.filter_append, List.map_append, List.append_assoc]
    cases mentioned : last.mentions values <;>
      simp [allGroupConditions, groupConditions, mentioned]

theorem apart_kept (conditions : List Expression) (apart : Apart inner) :
    Apart (kept conditions inner) := by
  induction conditions using List.reverseRecOn with
  | nil => exact apart
  | append_singleton before last _ =>
    rw [kept_concat]
    exact .singleton _

/-- Inline data after elements whose triples are apart is not merged with anything. -/
theorem joinedWith_some (apart : Apart inner) (data : InlineData) :
    joinedWith (some data) inner = inner ++ [.values data .none] :=
  (apart.snoc rfl).mergeTriples_eq

end Surface.Pattern

namespace Context

variable {context : Context} {values : NameMap Surface.Expression} {inner : List Surface.Pattern}

/-- Without the conditions of a group, filters over elements are read as the other filters over
them. -/
theorem pattern_kept (context : Context) (unfiltered : ∀ element ∈ inner, element.isFilter = false)
    (free : Surface.Pattern.allGroupConditions values inner = [])
    (conditions : List Surface.Expression) :
    (∀ element ∈ Surface.Pattern.allWithoutGroupConditions values
        (Surface.Pattern.kept conditions inner), element.isFilter = false)
      ∧ (∀ element ∈ Surface.Pattern.kept (conditions.filter fun condition =>
        !condition.mentions values) inner, element.isFilter = false)
      ∧ context.pattern (.group (Surface.Pattern.allWithoutGroupConditions values
          (Surface.Pattern.kept conditions inner)) .none)
        = context.pattern (.group (Surface.Pattern.kept (conditions.filter fun condition =>
          !condition.mentions values) inner) .none) := by
  induction conditions using List.reverseRecOn with
  | nil =>
    show (∀ element ∈ Surface.Pattern.allWithoutGroupConditions values inner, _) ∧ _ ∧ _
    rw [Surface.Pattern.allWithoutGroupConditions_of_none free]
    exact ⟨unfiltered, unfiltered, congrArg _ (congrArg (Surface.Pattern.group · _)
      (Surface.Pattern.allWithoutGroupConditions_of_none free))⟩
  | append_singleton before last ih =>
    obtain ⟨without, others, same⟩ := ih
    rw [Surface.Pattern.kept_concat, Surface.Pattern.allWithoutGroupConditions,
      Surface.Pattern.withoutGroupConditions, Surface.Pattern.allWithoutGroupConditions_append,
      List.filter_append]
    cases mentioned : last.mentions values with
    | true =>
      refine ⟨List.forall_mem_singleton.2 rfl, ?_, ?_⟩
      · simpa [mentioned] using others
      · simp only [Surface.Pattern.allWithoutGroupConditions,
          Surface.Pattern.withoutGroupConditions, mentioned, if_true, List.append_nil,
          List.filter_cons, List.filter_nil, Bool.not_true, if_false, Bool.false_eq_true]
        rw [pattern_group_group]
        exact same
    | false =>
      have kept : [last].filter (fun condition => !condition.mentions values) = [last] := by
        simp [mentioned]
      rw [kept, Surface.Pattern.kept_concat]
      refine ⟨List.forall_mem_singleton.2 rfl, List.forall_mem_singleton.2 rfl, ?_⟩
      simp only [Surface.Pattern.allWithoutGroupConditions, Surface.Pattern.withoutGroupConditions,
        mentioned, if_false, Bool.false_eq_true, List.append_nil]
      rw [pattern_group_group, pattern_group_group, Context.pattern, Context.pattern,
        elements_append_of_unfiltered without, elements_append_of_unfiltered others, same]

/-- An operation is joined with what inline data is read as, if there is any. -/
def JoinsData (context : Context) (data : Option Surface.InlineData)
    (operation joined : Operation) : Prop :=
  match data with
  | none => joined = operation
  | some data => ∃ table, (context.inlineData data : Lowering Operation).MayYield table
    ∧ joined = simplifiedJoin operation table

/-- What the pattern of grouped solutions is read as. -/
theorem mayYield_pattern_joinedWith (unfiltered : ∀ element ∈ inner, element.isFilter = false)
    (apart : Surface.Pattern.Apart inner)
    (free : Surface.Pattern.allGroupConditions values inner = [])
    (conditions : List Surface.Expression) (data : Option Surface.InlineData) {result : Operation}
    (reads : (context.pattern (groupOf (Surface.Pattern.allWithoutGroupConditions values
      (Surface.Pattern.joinedWith data
        (Surface.Pattern.kept conditions inner))))).MayYield result) :
    ∃ input, (context.pattern (groupOf (Surface.Pattern.kept (conditions.filter fun condition =>
        !condition.mentions values) inner))).MayYield input
      ∧ context.JoinsData data input result := by
  obtain ⟨without, others, same⟩ := pattern_kept context unfiltered free conditions
  rw [pattern_groupOf] at reads ⊢
  cases data with
  | none => exact ⟨result, same ▸ reads, rfl⟩
  | some data =>
    rw [Surface.Pattern.joinedWith_some (Surface.Pattern.apart_kept conditions apart),
      Surface.Pattern.allWithoutGroupConditions_append, Context.pattern,
      elements_append_of_unfiltered without, same] at reads
    obtain ⟨⟨whole, filters⟩, reads, last⟩ := Lowering.mayYield_of_bind reads
    obtain ⟨input, ofInput, reads⟩ := Lowering.mayYield_of_bind reads
    have isMember : (Surface.Pattern.values data .none).isMember = true := rfl
    have single : Surface.Pattern.allWithoutGroupConditions values [.values data .none]
      = [.values data .none] := rfl
    rw [single, elements_member context isMember, Context.pattern] at reads
    obtain ⟨table, ofTable, reads⟩ := Lowering.mayYield_of_bind reads
    rw [Context.elements] at reads
    cases Lowering.mayYield_of_pure reads
    refine ⟨input, ofInput, table, ofTable, ?_⟩
    exact (Lowering.mayYield_of_pure last).symm

end Context

/-! ### Clauses over groups -/

/-- The clauses of a query group solutions if there are keys or aggregates. -/
theorem Context.of_solutions {context : Context} {selected : List (Variable × Option Expression)}
    {aggregates : List BoundAggregate} {input solutions : Operation}
    {written : List Surface.GroupKey} {having : List Surface.Expression}
    {order : List Surface.OrderKey}
    (reads : (context.solutions selected aggregates input
      { Surface.Modifiers.none with
        groupBy := if written.isEmpty then none else some written
        having := having
        orderBy := order }).MayYield solutions)
    (grouped : written ≠ [] ∨ aggregates ≠ []
      ∨ (∃ condition ∈ having, context.Aggregates condition)
      ∨ ∃ value direction, Surface.OrderKey.computed value direction ∈ order
        ∧ context.Aggregates value) :
    ∃ below keys conditions sorted later, (context.groupKeys written input).MayYield (below, keys)
      ∧ List.Forall₂ context.ReadsClause having conditions
      ∧ sorted.length = order.length
      ∧ solutions = GroupedSolutions.operation
        ⟨below, keys, later, conditions, none, .ofItems selected, sorted⟩ := by
  have reads : (context.solutions selected aggregates input
    ⟨if written.isEmpty then none else some written, having, order, none, none,
      none⟩).MayYield solutions := reads
  rw [Context.solutions] at reads
  obtain ⟨⟨conditions, between⟩, ⟨_, _, ofConditions⟩, reads⟩ := Lowering.mayYield_of_bind reads
  obtain ⟨⟨sorted, later⟩, ⟨_, _, ofOrder⟩, reads⟩ := Lowering.mayYield_of_bind reads
  obtain ⟨readsAll, first, hasConditions⟩ := run_conditions ofConditions
  obtain ⟨length, second, hasOrder⟩ := run_orderKeys ofOrder
  -- What is laid over the groups once they are made.
  have overGroups {below : Operation} {keys : List Variable} (made : (do
      let joined ← context.joinedWith none
        (Operation.kept conditions (.of (.group below keys later)))
      let extended := computed selected joined
      if sorted.isEmpty then pure extended
        else pure (.of (.orderBy extended sorted)) : Lowering Operation).MayYield solutions) :
      solutions = GroupedSolutions.operation
        ⟨below, keys, later, conditions, none, .ofItems selected, sorted⟩ := by
    simp only [joinedWith, pure_bind, computed_eq] at made
    rw [GroupedSolutions.operation, Operation.orderedBy]
    split at made
    · rename_i empty
      rw [if_pos empty]
      exact (Lowering.mayYield_of_pure made).symm
    · rename_i some
      rw [if_neg some]
      exact (Lowering.mayYield_of_pure made).symm
  cases written with
  | nil =>
    have nonempty : later ≠ [] := by
      rcases grouped with some | some | ⟨condition, member, has⟩ | ⟨value, direction, member, has⟩
      · exact absurd rfl some
      · exact second.ne_nil (first.ne_nil some)
      · exact second.ne_nil (hasConditions condition member has)
      · exact hasOrder value direction member has
    have notEmpty : later.isEmpty = false := by simpa using nonempty
    simp only [List.isEmpty_nil, if_true, notEmpty, Bool.false_eq_true, if_false,
      pure_bind] at reads
    refine ⟨input, [], conditions, sorted, later, ?_, readsAll, length, overGroups reads⟩
    rw [groupKeys]
    exact ⟨default, default, rfl⟩
  | cons key rest =>
    simp only [List.isEmpty_cons, Bool.false_eq_true, if_false] at reads
    obtain ⟨⟨below, keys⟩, ofKeys, reads⟩ := Lowering.mayYield_of_bind reads
    exact ⟨below, keys, conditions, sorted, later, ofKeys, readsAll, length, overGroups reads⟩

/-! ### Grouped solutions of queries -/

/-- What is related to a member of a list. -/
private theorem exists_of_mem {α β : Type} {R : α → β → Prop} {first : List α} {second : List β}
    (all : List.Forall₂ R first second) {member : α} (isMember : member ∈ first) :
    ∃ other ∈ second, R member other := by
  induction all with
  | nil => cases isMember
  | cons related _ ih =>
    rcases List.mem_cons.1 isMember with rfl | inRest
    · exact ⟨_, List.mem_cons_self, related⟩
    · obtain ⟨other, isOther, related⟩ := ih inRest
      exact ⟨other, List.mem_cons_of_mem _ isOther, related⟩

namespace GroupedSolutions.Clauses

variable {grouped : GroupedSolutions} {inner : List Surface.Pattern}
  {conditions : List Surface.Expression} {data : Option Surface.InlineData}
  {values : NameMap Surface.Expression} {extensions : Extensions} {order : List Surface.OrderKey}

/-- The variables with values are those of the aggregates. -/
theorem find?_isSome (clauses : grouped.Clauses inner conditions data values extensions order)
    (name : Variable) :
    (values.find? name.name).isSome = grouped.aggregates.any (·.name = name) := by
  rw [Bool.eq_iff_iff, Option.isSome_iff_exists, List.any_eq_true]
  constructor
  · rintro ⟨written, found⟩
    obtain ⟨bound, member, same, _⟩ := (clauses.found name.name written).1 found
    exact ⟨bound, member, decide_eq_true (congrArg Variable.mk same)⟩
  · rintro ⟨bound, member, same⟩
    obtain ⟨written, writes⟩ := clauses.liftable bound member
    have sameName := congrArg Variable.name (of_decide_eq_true same)
    exact ⟨written, (clauses.found name.name written).2 ⟨bound, member, sameName, writes⟩⟩

/-- An expression is written so that it mentions values if it uses aggregates. -/
theorem mentions_eq_uses (clauses : grouped.Clauses inner conditions data values extensions order)
    {expression : Expression} {written : Surface.Expression}
    (writes : expression.written.Writes written) :
    written.mentions values = expression.uses grouped.aggregates := by
  rw [Expression.mentions_written writes, Expression.uses]
  exact congrArg _ (funext clauses.find?_isSome)

/-- The pattern holds no condition of the groups. -/
theorem stand (clauses : grouped.Clauses inner conditions data values extensions order)
    (fresh : ∀ bound ∈ grouped.aggregates, bound.name ∉ grouped.input.outerVariables) :
    (∀ element ∈ inner, element.isFilter = false) ∧ Surface.Pattern.Apart inner
      ∧ Surface.Pattern.allGroupConditions values inner = [] := by
  have stands := Operation.stands values grouped.input false clauses.input
  refine ⟨stands.unfiltered, stands.apart, stands.conditions fun name member => ?_⟩
  rw [← Option.not_isSome_iff_eq_none, clauses.find?_isSome, List.any_eq_true]
  rintro ⟨bound, isBound, same⟩
  exact fresh bound isBound (of_decide_eq_true same ▸ member)

theorem names (clauses : grouped.Clauses inner conditions data values extensions order) :
    extensions.map (·.1) = grouped.bindings.map (·.1) := by
  have all := clauses.extensions
  generalize grouped.bindings = bindings at all ⊢
  clear clauses
  induction all with
  | nil => rfl
  | cons first _ ih => rw [List.map_cons, List.map_cons, first.1, ih]

/-- The conditions of the groups are the filters over the pattern that mention values. -/
theorem allGroupConditions (clauses : grouped.Clauses inner conditions data values extensions order)
    (fresh : ∀ bound ∈ grouped.aggregates, bound.name ∉ grouped.input.outerVariables) :
    Surface.Pattern.allGroupConditions values
        (Surface.Pattern.joinedWith data (Surface.Pattern.kept conditions inner))
      = (conditions.filter (·.mentions values)).map (·.substitute values) := by
  obtain ⟨_, apart, free⟩ := clauses.stand fresh
  have ofKept : Surface.Pattern.allGroupConditions values (Surface.Pattern.kept conditions inner)
      = (conditions.filter (·.mentions values)).map (·.substitute values) := by
    rw [Surface.Pattern.allGroupConditions_kept, free, List.nil_append]
  cases data with
  | none => exact ofKept
  | some data =>
    rw [Surface.Pattern.joinedWith_some (Surface.Pattern.apart_kept conditions apart),
      Surface.Pattern.allGroupConditions_append, ofKept]
    exact List.append_nil _

/-- What is used makes groups. -/
theorem isGrouped {vars : List Variable} (made : grouped.IsMade vars)
    (clauses : grouped.Clauses inner conditions data values extensions order)
    (written : List Surface.GroupKey) :
    ((if grouped.keys.isEmpty then none else some written).isSome || !values.isEmpty) = true := by
  rw [Bool.or_eq_true]
  refine made.used.imp (fun some => ?_) fun ⟨value, _, uses⟩ => ?_
  · rw [if_neg (by simpa using some)]
    rfl
  · obtain ⟨name, _, isBound⟩ := List.any_eq_true.1 uses
    rw [← clauses.find?_isSome] at isBound
    obtain ⟨written, found⟩ := Option.isSome_iff_exists.1 isBound
    have nonempty := List.ne_nil_of_mem (NameMap.find?_eq_some_iff.1 found)
    simpa [NameMap.isEmpty] using nonempty

/-- No shown variable has a value. -/
theorem hidden {vars : List Variable} (made : grouped.IsMade vars)
    (clauses : grouped.Clauses inner conditions data values extensions order) :
    ∀ name ∈ vars, values.find? name.name = none := by
  intro name isShown
  rw [← Option.not_isSome_iff_eq_none, clauses.find?_isSome, List.any_eq_true]
  rintro ⟨bound, isBound, same⟩
  exact (made.fresh bound isBound).2 (of_decide_eq_true same ▸ isShown)

/-- The conditions that use aggregates are written as those that mention values, and the others as
those that do not. -/
theorem allWrite_filter (clauses : grouped.Clauses inner conditions data values extensions order) :
    Expression.AllWrite (grouped.conditions.filter (·.uses grouped.aggregates))
        (conditions.filter (·.mentions values))
      ∧ Expression.AllWrite
        (grouped.conditions.filter fun condition => !condition.uses grouped.aggregates)
        (conditions.filter fun condition => !condition.mentions values) := by
  constructor
  · refine List.rel_filter (fun expression written writes => ?_) clauses.conditions
    show expression.uses _ = true ↔ written.mentions values = true
    rw [clauses.mentions_eq_uses writes]
  · refine List.rel_filter (fun expression written writes => ?_) clauses.conditions
    show (!expression.uses _) = true ↔ (!written.mentions values) = true
    rw [clauses.mentions_eq_uses writes]

theorem allAggregates (clauses : grouped.Clauses inner conditions data values extensions order)
    (aggregates : ∀ bound ∈ grouped.aggregates, bound.expression.isAggregate = true) :
    values.AllAggregates := by
  intro name written found
  obtain ⟨bound, member, _, writes⟩ := (clauses.found name written).1 found
  have isAggregate := aggregates bound member
  cases expression : bound.expression with
  | aggregate function argument distinct separator =>
    rw [expression, Expression.written, Collecting.writes_bind] at writes
    obtain ⟨function, _, writes⟩ := writes
    split at writes
    · cases Collecting.writes_pure.1 writes
      rfl
    · obtain ⟨text, _, writes⟩ := Collecting.writes_bind.1 writes
      cases Collecting.writes_pure.1 writes
      rfl
  | _ => rw [expression] at isAggregate; cases isAggregate

/-- An expression that uses aggregates is read as one in which aggregates stand. -/
theorem aggregates_of_uses {context : Context}
    (clauses : grouped.Clauses inner conditions data values extensions order)
    (aggregates : ∀ bound ∈ grouped.aggregates, bound.expression.isAggregate = true)
    {expression : Expression} {written : Surface.Expression}
    (writes : expression.WritesWith values written)
    (uses : expression.uses grouped.aggregates = true) :
    context.Aggregates written := by
  obtain ⟨text, ofExpression, rfl⟩ := writes
  refine Context.aggregates_substitute (clauses.allAggregates aggregates) ?_
  rwa [clauses.mentions_eq_uses ofExpression]

end GroupedSolutions.Clauses

namespace Context

variable {context : Context} {grouped again : GroupedSolutions}

/-- A condition is written with values in place of variables and read as another one. -/
def RereadsCondition (context : Context) (values : NameMap Surface.Expression)
    (condition again : Expression) : Prop :=
  ∃ written, condition.WritesWith values written ∧ context.ReadsClause written again

/-- Grouped solutions are written, and read as other ones. Of the conditions only those stand over
the groups again that use aggregates, and of the computed values only those of variables that are no
keys. The others and the table stand below the groups, over what the pattern is read as, and nothing
else does. -/
structure Regroups (context : Context) (grouped again : GroupedSolutions) : Prop where
  keys : again.keys = grouped.keys
  conditions : ∃ values : NameMap Surface.Expression,
    (∀ name written, values.find? name = some written ↔ ∃ bound ∈ grouped.aggregates,
      bound.name.name = name ∧ bound.expression.written.Writes written)
    ∧ List.Forall₂ (context.RereadsCondition values)
      (grouped.conditions.filter (·.uses grouped.aggregates)) again.conditions
  table : again.table = none
  bindings : (again.bindings.map (·.1)).Perm ((grouped.bindings.map (·.1)).diff grouped.keys)
  order : again.order.length = grouped.order.length
  input : ∃ elements data read joined computed,
    (grouped.below.written false).asElements.Writes elements
    ∧ Row.TableWrites grouped.table data
    ∧ (context.pattern (groupOf elements)).MayYield read
    ∧ context.JoinsData data read joined
    ∧ computed.map (·.1) = grouped.keys.bagInter (grouped.bindings.map (·.1))
    ∧ again.input = Bindings.extend computed joined

end Context

namespace GroupedSolutions

/-- As many conditions, tables and computed values stand over some groups as over others. -/
def SameClauses (grouped again : GroupedSolutions) : Prop :=
  again.conditions.length = grouped.conditions.length
    ∧ again.table.isSome = grouped.table.isSome
    ∧ again.bindings.length = grouped.bindings.length

/-- All conditions use aggregates, there is no table, and no value is computed for a key. -/
structure Stays (grouped : GroupedSolutions) : Prop where
  conditions : ∀ condition ∈ grouped.conditions, condition.uses grouped.aggregates = true
  table : grouped.table = none
  bindings : ∀ entry ∈ grouped.bindings, entry.1 ∉ grouped.keys

private theorem length_diff_eq_iff {names keys : List Variable} :
    (names.diff keys).length = names.length ↔ ∀ name ∈ names, name ∉ keys := by
  constructor
  · intro length name member isKey
    have same := (List.diff_sublist names keys).eq_of_length length
    have count := List.count_diff name names keys
    rw [same] at count
    have inNames := List.count_pos_iff.2 member
    have inKeys := List.count_pos_iff.2 isKey
    omega
  · intro apart
    induction keys with
    | nil => rfl
    | cons key rest ih =>
      have absent : key ∉ names := fun member => apart key member List.mem_cons_self
      rw [List.diff_cons, List.erase_of_not_mem absent]
      exact ih fun name member inRest => apart name member (List.mem_cons_of_mem _ inRest)

/-- Everything over groups stands over them again just if nothing of it is written below them. -/
theorem sameClauses_iff {context : Context} {grouped again : GroupedSolutions}
    (regroups : context.Regroups grouped again) : grouped.SameClauses again ↔ grouped.Stays := by
  obtain ⟨values, -, conditions⟩ := regroups.conditions
  have kept : again.conditions.length = grouped.conditions.length
      ↔ ∀ condition ∈ grouped.conditions, condition.uses grouped.aggregates = true := by
    rw [← conditions.length_eq, List.length_filter_eq_length_iff]
  have joined : again.table.isSome = grouped.table.isSome ↔ grouped.table = none := by
    rw [regroups.table, Option.isSome_none, eq_comm, Option.isSome_eq_false_iff,
      Option.isNone_iff_eq_none]
  have bound : again.bindings.length = grouped.bindings.length
      ↔ ∀ entry ∈ grouped.bindings, entry.1 ∉ grouped.keys := by
    have lengths := regroups.bindings.length_eq
    rw [List.length_map] at lengths
    have names : (grouped.bindings.map (·.1)).length = grouped.bindings.length := List.length_map _
    rw [lengths, ← names, length_diff_eq_iff, List.forall_mem_map]
  exact ⟨fun ⟨first, second, third⟩ => ⟨kept.1 first, joined.1 second, bound.1 third⟩,
    fun stays => ⟨kept.2 stays.conditions, joined.2 stays.table, bound.2 stays.bindings⟩⟩

/-- The pattern of grouped solutions is read again by itself if nothing over the groups is written
below them. -/
theorem input_of_stays {context : Context} {grouped again : GroupedSolutions}
    (regroups : context.Regroups grouped again) (stays : grouped.Stays) :
    ∃ elements, (grouped.input.written false).asElements.Writes elements
      ∧ (context.pattern (groupOf elements)).MayYield again.input := by
  obtain ⟨elements, data, read, joined, computed, writes, table, reads, joins, names, same⟩ :=
    regroups.input
  have noCondition : (grouped.conditions.filter fun condition =>
      !condition.uses grouped.aggregates) = [] := by
    simpa using stays.conditions
  rw [below, noCondition] at writes
  rw [stays.table] at table
  obtain rfl : data = none := table
  obtain rfl : joined = read := joins
  have noKey : grouped.keys.bagInter (grouped.bindings.map (·.1)) = [] := by
    rw [List.bagInter_nil_iff_inter_nil, List.eq_nil_iff_forall_not_mem]
    intro name member
    obtain ⟨isKey, isBound⟩ := List.mem_inter_iff.1 member
    obtain ⟨entry, isEntry, rfl⟩ := List.mem_map.1 isBound
    exact stays.bindings entry isEntry isKey
  obtain rfl : computed = [] := List.map_eq_nil_iff.1 (names.trans noKey)
  exact ⟨elements, writes, same ▸ reads⟩

theorem stays_withoutEmbeddedGraphs {grouped : GroupedSolutions} :
    grouped.withoutEmbeddedGraphs.Stays ↔ grouped.Stays := by
  have conditions : (∀ condition ∈ grouped.withoutEmbeddedGraphs.conditions,
      condition.uses grouped.withoutEmbeddedGraphs.aggregates = true)
      ↔ ∀ condition ∈ grouped.conditions, condition.uses grouped.aggregates = true := by
    refine List.forall_mem_map.trans (forall₂_congr fun condition _ => ?_)
    rw [uses_withoutEmbeddedGraphs]
  have bindings : (∀ entry ∈ grouped.withoutEmbeddedGraphs.bindings, entry.1 ∉ grouped.keys)
      ↔ ∀ entry ∈ grouped.bindings, entry.1 ∉ grouped.keys := List.forall_mem_map
  exact ⟨fun stays => ⟨conditions.1 stays.conditions, stays.table, bindings.1 stays.bindings⟩,
    fun stays => ⟨conditions.2 stays.conditions, stays.table, bindings.2 stays.bindings⟩⟩

end GroupedSolutions

namespace Context

variable {context : Context} {grouped again : GroupedSolutions}

theorem not_aggregates_var (name : Variable) : ¬ context.Aggregates (.var name) := by
  intro has
  unfold Aggregates at has
  rw [expression] at has
  exact has default _ default rfl rfl

/-- What is used in a clause makes groups. -/
theorem exists_aggregates {vars : List Variable} (made : grouped.IsMade vars)
    {inner : List Surface.Pattern} {conditions : List Surface.Expression}
    {data : Option Surface.InlineData} {values : NameMap Surface.Expression}
    {extensions : Extensions} {order : List Surface.OrderKey}
    (clauses : grouped.Clauses inner conditions data values extensions order) :
    grouped.keys ≠ []
      ∨ (∃ entry ∈ (extensions.groupKeys grouped.keys).2, context.Aggregates entry.2)
      ∨ (∃ condition ∈ (conditions.filter (·.mentions values)).map (·.substitute values),
        context.Aggregates condition)
      ∨ ∃ value direction, Surface.OrderKey.computed value direction ∈ order
        ∧ context.Aggregates value := by
  rcases made.used with some | ⟨value, member, uses⟩
  · exact .inl some
  rcases List.mem_append.1 member with isBound | isOther
  · obtain ⟨entry, isEntry, rfl⟩ := List.mem_map.1 isBound
    obtain ⟨extension, isExtension, _, writes⟩ := exists_of_mem clauses.extensions isEntry
    refine (Extensions.mem_groupKeys grouped.keys isExtension).symm.imp List.ne_nil_of_mem ?_
    exact fun left =>
      .inl ⟨extension, left, clauses.aggregates_of_uses made.aggregates writes uses⟩
  · rcases List.mem_append.1 isOther with isCondition | isKey
    · obtain ⟨written, isWritten, writes⟩ := exists_of_mem clauses.conditions isCondition
      refine .inr (.inr (.inl ⟨written.substitute values, ?_,
        clauses.aggregates_of_uses made.aggregates ⟨written, writes, rfl⟩ uses⟩))
      have mentions : written.mentions values = true := clauses.mentions_eq_uses writes ▸ uses
      exact List.mem_map_of_mem (List.mem_filter.2 ⟨isWritten, mentions⟩)
    · obtain ⟨written, isWritten, direction, text, rfl, writes⟩ :=
        exists_of_mem clauses.order isKey
      have usesValue : value.keyValue.uses grouped.aggregates = true := by
        rwa [Expression.uses_keyValue]
      have has : context.Aggregates text :=
        clauses.aggregates_of_uses made.aggregates writes usesValue
      refine .inr (.inr (.inr ⟨text, direction, ?_, has⟩))
      cases text with
      | var name => exact absurd has (not_aggregates_var name)
      | _ => exact isWritten

private theorem rereads_conditions {values : NameMap Surface.Expression}
    {expressions conditions : List Expression} {written : List Surface.Expression}
    (writes : Expression.AllWrite expressions written)
    (reads : List.Forall₂ context.ReadsClause (written.map (·.substitute values)) conditions) :
    List.Forall₂ (context.RereadsCondition values) expressions conditions := by
  induction writes generalizing conditions with
  | nil =>
    cases reads
    exact .nil
  | cons first _ ih =>
    cases reads with
    | cons read others => exact .cons ⟨_, ⟨_, first, rfl⟩, read⟩ (ih others)

/-- A query with clauses is read as a projection of solutions. -/
theorem of_select {items : List SelectItem} {pattern : Surface.Pattern}
    {groupBy : Option (List Surface.GroupKey)} {having : List Surface.Expression}
    {orderBy : List Surface.OrderKey} {result : Operation}
    (reads : (context.select ⟨.keep, .items items, none, pattern,
      { Surface.Modifiers.none with groupBy, having, orderBy }⟩).MayYield result) :
    ∃ input selected aggregates solutions supply after,
      (context.pattern pattern).MayYield input
      ∧ (context.selectItems items).run [] supply = .ok (selected, aggregates) after
      ∧ (context.solutions selected aggregates input
        { Surface.Modifiers.none with groupBy, having, orderBy }).MayYield solutions
      ∧ result = .of (.wrap (.project (selected.map (·.1))) solutions) := by
  rw [Context.select] at reads
  obtain ⟨input, ofPattern, reads⟩ := Lowering.mayYield_of_bind reads
  obtain ⟨⟨selected, aggregates⟩, ⟨supply, after, ofItems⟩, reads⟩ :=
    Lowering.mayYield_of_bind reads
  obtain ⟨solutions, ofSolutions, reads⟩ := Lowering.mayYield_of_bind reads
  rw [Context.projection] at ofItems
  exact ⟨input, selected, aggregates, solutions, supply, after, ofPattern, ofItems, ofSolutions,
    (Lowering.mayYield_of_pure reads).symm⟩

private theorem pattern_groupElements (elements : List Surface.Pattern) :
    context.pattern (groupOf (groupElements elements ++ Extensions.binds []))
      = context.pattern (groupOf elements) := by
  rw [Extensions.binds, List.map_nil, List.append_nil, pattern_groupOf]
  rfl

/-- The query of grouped solutions is read as a projection of grouped solutions. -/
theorem of_groupedSelect (plain : context.MakesPlain) {vars : List Variable}
    (made : grouped.IsMade vars) {inner : List Surface.Pattern}
    {conditions : List Surface.Expression} {data : Option Surface.InlineData}
    {values : NameMap Surface.Expression} {extensions : Extensions} {order : List Surface.OrderKey}
    (clauses : grouped.Clauses inner conditions data values extensions order) {all : Bool}
    {result : Operation}
    (reads : (context.select ((grouped.scope inner conditions data values extensions order).select
      all vars)).MayYield result) :
    ∃ again, result = .of (.wrap (.project vars) (again : GroupedSolutions).operation)
      ∧ context.Regroups grouped again := by
  have fresh := fun bound member => (made.fresh bound member).1
  obtain ⟨unfiltered, apart, free⟩ := clauses.stand fresh
  have isEmpty : (extensions.groupKeys grouped.keys).1.isEmpty = grouped.keys.isEmpty := by
    cases grouped.keys <;> rfl
  have names : (extensions.groupKeys grouped.keys).2.map (·.1)
      = (grouped.bindings.map (·.1)).diff grouped.keys := by
    rw [Extensions.left_groupKeys, clauses.names]
  have left : ((extensions.groupKeys grouped.keys).2.selectItems values vars).2 = [] :=
    Extensions.left_selectItems values (names ▸ (List.diff_sublist _ _).trans made.shown)
  rw [GroupedSolutions.scope] at reads
  simp only [clauses.allGroupConditions fresh] at reads
  simp only [QueryScope.select, QueryScope.isGrouped, clauses.isGrouped made, Bool.not_true,
    Bool.and_false, Bool.false_and, left, Bool.false_eq_true, if_false] at reads
  obtain ⟨input, selected, aggregates, solutions, _, _, ofPattern, ofItems, ofSolutions, rfl⟩ :=
    of_select reads
  obtain ⟨-, hasItems⟩ := run_selectItems ofItems
  have shown := names_selectItems plain _ _ _ _ _ ofItems
  have computed := yields_selectItems plain _ _ _ _ _ ofItems
  rw [Extensions.names_selectItems] at shown
  rw [← isEmpty] at ofSolutions
  obtain ⟨below, keys, conditions', sorted, later, ofKeys, readsConditions, length, rfl⟩ :=
    of_solutions ofSolutions (by
      refine (exists_aggregates made clauses).imp (fun some => ?_) (Or.imp_left ?_)
      · rwa [← List.isEmpty_eq_false_iff, isEmpty, List.isEmpty_eq_false_iff]
      · rintro ⟨entry, member, has⟩
        have isItem := (Extensions.mem_selectItems values member).resolve_left
          (left ▸ List.not_mem_nil)
        exact hasItems entry.2 entry.1 isItem has)
  obtain ⟨rfl, bound, boundNames, rfl⟩ := of_groupKeys plain ofKeys
  refine ⟨⟨bound.extend input, grouped.keys, later, conditions', none, .ofItems selected, sorted⟩,
    by rw [shown], ⟨rfl, ⟨values, clauses.found, ?kept⟩, rfl, ?bound, ?sorted, ?read⟩⟩
  case kept => exact rereads_conditions clauses.allWrite_filter.1 readsConditions
  case bound =>
    have perm := Extensions.perm_selectItems (clauses.hidden made)
      (extensions.groupKeys grouped.keys).2
    rw [left, List.map_nil, List.append_nil, names] at perm
    rwa [computed]
  case sorted => exact length.trans clauses.order.length_eq.symm
  case read =>
    have ofPattern : (context.pattern (groupOf (_ ++ Extensions.binds []))).MayYield input :=
      ofPattern
    rw [pattern_groupElements] at ofPattern
    obtain ⟨read, ofRead, joined⟩ :=
      mayYield_pattern_joinedWith unfiltered apart free conditions data ofPattern
    exact ⟨_, data, read, input, bound,
      Operation.kept_writes clauses.input clauses.allWrite_filter.2, clauses.table, ofRead, joined,
      clauses.names ▸ boundNames, rfl⟩

end Context

namespace Operation

/-- Grouped solutions below a projection come back when it is written and read again, unless the
stack is too small. Only those conditions stand over the groups again that use aggregates; the
others, and the table, are applied to the solutions before they are grouped, and so are values that
are computed for keys. If there are none of these, the pattern is grouped as it is read. -/
theorem relowered_grouped {options : Options} {vars : List Variable} {grouped : GroupedSolutions}
    {metadata : Option Metadata} {request : Surface.Request} (made : grouped.IsMade vars)
    (clauseless : grouped.Clauseless)
    (absolute : AllAbsolute (Operation.iris ⟨.wrap (.project vars) grouped.operation, metadata⟩))
    (lifts : lift ⟨.wrap (.project vars) grouped.operation, metadata⟩ = .ok request) :
    (∃ limit, request.lower options = .error (.traversal (.stackOverflow limit)))
      ∨ ∃ result again, request.lower options = .ok result
        ∧ (result = .of (.wrap (.project vars) (again : GroupedSolutions).operation)
          ∨ ∃ replace, result
            = (Operation.of (.wrap (.project vars) again.operation)).replaceBlanks replace)
        ∧ (Context.ofOptions .plain options).Regroups grouped.withoutEmbeddedGraphs again
        ∧ (grouped.SameClauses again ↔ grouped.Stays)
        ∧ (grouped.Stays → ∃ elements,
          (grouped.input.withoutEmbeddedGraphs.written false).asElements.Writes elements
          ∧ ((Context.ofOptions .plain options).pattern (groupOf elements)).MayYield
            again.input) := by
  obtain ⟨scope, source, relowers⟩ := @relowers_project options _ _ _ _ absolute lifts
  refine relowers.imp id fun ⟨result, read, supply, after, lowers, reads, same⟩ => ?_
  rw [GroupedSolutions.withoutEmbeddedGraphs_operation] at source
  obtain ⟨inner, conditions, data, values, extensions, order, clauses, rfl⟩ :=
    GroupedSolutions.exists_clauses clauseless.withoutEmbeddedGraphs
      made.withoutEmbeddedGraphs.distinct source
  have plain : (Context.ofOptions .plain options).MakesPlain := rfl
  obtain ⟨again, rfl, regroups⟩ :=
    Context.of_groupedSelect plain made.withoutEmbeddedGraphs clauses ⟨supply, after, reads⟩
  have stays : grouped.withoutEmbeddedGraphs.Stays ↔ grouped.Stays :=
    GroupedSolutions.stays_withoutEmbeddedGraphs
  refine ⟨result, again, lowers, same, regroups, ?_, fun asBefore =>
    GroupedSolutions.input_of_stays regroups (stays.2 asBefore)⟩
  rw [← stays, ← GroupedSolutions.sameClauses_iff regroups]
  simp only [GroupedSolutions.SameClauses, GroupedSolutions.withoutEmbeddedGraphs,
    List.length_map]

/-- A query over pairs that groups by their subjects. -/
def groupingQuery (items : List SelectItem) (elements : List Surface.Pattern)
    (having : List Surface.Expression) (values : Option Surface.InlineData) : Surface.Request :=
  ⟨.none, .query (.select ⟨.keep, .items items, none,
    .group (connectedPair ⟨"s"⟩ ⟨"o"⟩ :: elements) .none,
    { Surface.Modifiers.none with groupBy := some [.var ⟨"s"⟩], having, values }⟩)⟩

/-- The number of objects. -/
def objectCount : Surface.Expression := .aggregate .count (some (.var ⟨"o"⟩)) false none

/-- Subjects that their numbers of objects are greater than, with these numbers. -/
def counted : GroupedSolutions :=
  ⟨linked, [⟨"s"⟩], [⟨⟨"var0"⟩, .aggregate "count" (.var ⟨"o"⟩) false none⟩],
    [.operator ">" [.var ⟨"var0"⟩, .var ⟨"s"⟩]], none, [(⟨"c"⟩, .var ⟨"var0"⟩)], []⟩

/-- The query for such subjects. -/
def countedQuery : Surface.Request :=
  groupingQuery [.var ⟨"s"⟩, .computed objectCount ⟨"c"⟩] []
    [.binary .gt objectCount (.var ⟨"s"⟩)] none

/-- The condition mentions the number, and stands over the groups again. -/
theorem relowered_grouped_counted :
    counted.IsMade [⟨"s"⟩, ⟨"c"⟩]
      ∧ lift (.of (.wrap (.project [⟨"s"⟩, ⟨"c"⟩]) counted.operation)) = .ok countedQuery
      ∧ ((∃ limit, countedQuery.lower {} = .error (.traversal (.stackOverflow limit)))
        ∨ ∃ result again, countedQuery.lower {} = .ok result
          ∧ (result = .of (.wrap (.project [⟨"s"⟩, ⟨"c"⟩]) (again : GroupedSolutions).operation)
            ∨ ∃ replace, result = (Operation.of
              (.wrap (.project [⟨"s"⟩, ⟨"c"⟩]) again.operation)).replaceBlanks replace)
          ∧ again.conditions.length = 1) := by
  have made : counted.IsMade [⟨"s"⟩, ⟨"c"⟩] :=
    ⟨by decide, by decide, by decide, by decide +kernel, .inl (by decide)⟩
  have clauseless : counted.Clauseless :=
    ⟨by decide +kernel, by decide +kernel, by decide +kernel, by decide +kernel, by decide +kernel⟩
  have absolute : AllAbsolute
      (Operation.of (.wrap (.project [⟨"s"⟩, ⟨"c"⟩]) counted.operation)).iris := by
    unfold AllAbsolute
    decide +kernel
  have lifts : lift (.of (.wrap (.project [⟨"s"⟩, ⟨"c"⟩]) counted.operation))
      = .ok countedQuery := by
    rw [lift, withoutGraphs_of_fits (by decide +kernel)]
    rfl
  have stays : counted.Stays := ⟨by decide +kernel, rfl, by decide⟩
  refine ⟨made, lifts,
    (@relowered_grouped {} _ _ _ _ made clauseless absolute lifts).imp id ?_⟩
  rintro ⟨result, again, lowers, same, -, clauses, -⟩
  exact ⟨result, again, lowers, same, (clauses.2 stays).1⟩

/-- A condition on the subject. -/
def subjectEqual : Surface.Expression := .binary .eq (.var ⟨"s"⟩) (.var ⟨"s"⟩)

/-- Inline data with one subject. -/
def oneSubject : Surface.InlineData :=
  ⟨[⟨"s"⟩], [[some (.iri ⟨.full "http://example.org/a", .none⟩)]]⟩

/-- An operation whose solutions meet that condition. -/
def withSubjectEqual (input : Operation) : Operation :=
  .of (.filter input (.operator "=" [.var ⟨"s"⟩, .var ⟨"s"⟩]))

/-- An operation joined with that subject. -/
def withOneSubject (input : Operation) : Operation :=
  input.joinedWith (some ([⟨"s"⟩], [.ofList [("s", .iri ⟨"http://example.org/a"⟩)]]))

/-- The groups of the subjects of an operation. -/
def bySubject (input : Operation) : Operation := .of (.group input [⟨"s"⟩] [])

/-- A condition that queries state over groups, but that mentions only their key, comes to stand
below them, and so does a table that queries end with. -/
theorem not_relowered_grouped_keys :
    (groupingQuery [.var ⟨"s"⟩] [] [subjectEqual] none).lower {}
        = .ok (.of (.wrap (.project [⟨"s"⟩]) linked.bySubject.withSubjectEqual))
      ∧ lift (.of (.wrap (.project [⟨"s"⟩]) linked.bySubject.withSubjectEqual))
        = .ok (groupingQuery [.var ⟨"s"⟩] [.filter subjectEqual .none] [] none)
      ∧ (groupingQuery [.var ⟨"s"⟩] [.filter subjectEqual .none] [] none).lower {}
        = .ok (.of (.wrap (.project [⟨"s"⟩]) linked.withSubjectEqual.bySubject))
      ∧ (groupingQuery [.var ⟨"s"⟩] [] [] (some oneSubject)).lower {}
        = .ok (.of (.wrap (.project [⟨"s"⟩]) linked.bySubject.withOneSubject))
      ∧ lift (.of (.wrap (.project [⟨"s"⟩]) linked.bySubject.withOneSubject))
        = .ok (groupingQuery [.var ⟨"s"⟩] [.values oneSubject .none] [] none)
      ∧ (groupingQuery [.var ⟨"s"⟩] [.values oneSubject .none] [] none).lower {}
        = .ok (.of (.wrap (.project [⟨"s"⟩]) linked.withOneSubject.bySubject)) := by
  refine ⟨by decide +kernel, ?_, by decide +kernel, by decide +kernel, ?_, by decide +kernel⟩
  · rw [lift, withoutGraphs_of_fits (by decide +kernel)]
    rfl
  · rw [lift, withoutGraphs_of_fits (by decide +kernel)]
    rfl

end Operation

end QueryAlgebra
