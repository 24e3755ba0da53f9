import QueryAlgebra.Proofs.Lifting.RetoldClauses
import QueryAlgebra.Proofs.Lifting.SpelledQueries
import QueryAlgebra.Proofs.Lifting.StarProjections
import Mathlib.Data.List.Sort
import Mathlib.Data.String.Basic

/-! # Settled queries that are read again

A settled query is written as one that is read as the query, with new variables for its aggregates,
if its pattern and its expressions are: `GroupedQuery.Restores.solutions` says so of its solutions.
-/

namespace QueryAlgebra

open Lowering (Renews)
open Surface.Pattern (groupElements groupOf inScopeOfAll)

/-! ### Stars -/

namespace Surface

/-- Whether a variable may come before another in the list of a star. -/
private abbrev Precedes (first second : Variable) : Prop :=
  starPrecedes first.name second.name = true

private theorem precedes_iff {first second : Variable} : Precedes first second
    ↔ Text.lowercase first.name < Text.lowercase second.name
      ∨ Text.lowercase first.name = Text.lowercase second.name ∧ second.name ≤ first.name := by
  unfold Precedes starPrecedes
  dsimp only
  split
  · rename_i same
    simp [same]
  · rename_i other
    simp [other]

private instance : Std.Total Precedes where
  total first second := by
    simp only [precedes_iff]
    rcases lt_trichotomy (Text.lowercase first.name) (Text.lowercase second.name) with
      less | same | more
    · exact .inl (.inl less)
    · exact (le_total second.name first.name).imp (fun le => .inr ⟨same, le⟩)
        fun le => .inr ⟨same.symm, le⟩
    · exact .inr (.inl more)

private instance : IsTrans Variable Precedes where
  trans first second third := by
    simp only [precedes_iff]
    rintro (less | ⟨same, le⟩) (less' | ⟨same', le'⟩)
    · exact .inl (less.trans less')
    · exact .inl (same' ▸ less)
    · exact .inl (same ▸ less')
    · exact .inr ⟨same.trans same', le'.trans le⟩

private instance : Std.Antisymm Precedes where
  antisymm first second := by
    simp only [precedes_iff]
    rintro (less | ⟨same, le⟩) (less' | ⟨same', le'⟩)
    · exact absurd less' less.asymm
    · exact absurd same' less.ne'
    · exact absurd same less'.ne'
    · exact congrArg Variable.mk (le_antisymm le' le)

private theorem insertStar_eq (name : Variable) (names : List Variable) :
    insertStar name names = names.orderedInsert Precedes name := by
  induction names with
  | nil => rfl
  | cons head rest ih => rw [insertStar, List.orderedInsert, ih]

/-- Lists of the same variables are in the order of a star in one way. -/
theorem starOrder_congr {first second : List Variable}
    (same : ∀ name, name ∈ first ↔ name ∈ second) :
    first.eraseDups.foldr insertStar [] = second.eraseDups.foldr insertStar [] := by
  have sorted : ∀ names : List Variable,
      names.foldr insertStar [] = names.insertionSort Precedes := fun names =>
    congrArg (fun insert => names.foldr insert [])
      (funext fun name => funext fun others => insertStar_eq name others)
  have perm : first.eraseDups.Perm second.eraseDups := by
    refine (List.perm_ext_iff_of_nodup (nodup_firstSeen _) (nodup_firstSeen _)).2 fun name => ?_
    exact List.mem_eraseDups.trans ((same name).trans List.mem_eraseDups.symm)
  rw [sorted, sorted]
  exact List.Perm.eq_of_pairwise' (List.pairwise_insertionSort _ _)
    (List.pairwise_insertionSort _ _) (((List.perm_insertionSort _ _).trans perm).trans
      (List.perm_insertionSort _ _).symm)

end Surface

/-! ### Aggregates -/

namespace Context.Retold

variable {context : Context} {sure : Prop} {known : Variable → Prop} {names : List Variable}
  {expression : Expression}

theorem isSpelled (retold : context.Retold sure known expression names) : expression.IsSpelled :=
  have ⟨written, isWritten, _⟩ := retold
  ⟨written, isWritten⟩

/-- The text of an expression is read as it. -/
theorem reads (retold : context.Retold sure known expression names) :
    Renews sure known names (fun related value => expression.Corresponds related value)
      (context.expression expression.text) := by
  obtain ⟨written, isWritten, reads⟩ := retold
  rwa [Expression.text_eq isWritten]

theorem aggregate {name : String} {argument : Expression} {distinct : Bool}
    {separator : Option String}
    (function : (Surface.AggregateFunction.ofName? name).isSome = true)
    (retold : context.Retold sure known argument names) :
    context.Retold sure known (.aggregate name argument distinct separator) names := by
  obtain ⟨found, isFound⟩ := Option.isSome_iff_exists.1 function
  obtain ⟨written, isWritten, reads⟩ := retold
  have isArgument : argument.isWildcard = false := by
    cases argument with
    | wildcard => cases congrArg Collecting.outcome isWritten
    | _ => rfl
  refine ⟨.aggregate found (some written) distinct separator, ?_, ?_⟩
  · rw [Expression.written, aggregateOf, isFound, isArgument, isWritten]
    rfl
  · rw [Context.expression, AggregateFunction.name_of_ofName? isFound]
    exact reads.map fun related value correspond => .aggregate name distinct separator correspond

theorem aggregateOfAll {name : String} {distinct : Bool} {separator : Option String}
    (function : (Surface.AggregateFunction.ofName? name).isSome = true) :
    context.Retold sure known (.aggregate name .wildcard distinct separator) [] := by
  obtain ⟨found, isFound⟩ := Option.isSome_iff_exists.1 function
  refine ⟨.aggregate found none distinct separator, ?_, ?_⟩
  · rw [Expression.written, aggregateOf, isFound]
    rfl
  · rw [Context.expression, AggregateFunction.name_of_ofName? isFound]
    exact .pure fun _ _ => .aggregate name distinct separator .wildcard

end Context.Retold

/-! ### Clauses over a pattern -/

section

variable {related : LocalName → LocalName → Prop} {operation operation' : Operation}

namespace Operation.Corresponds

/-- Groups correspond if their keys and aggregates do. -/
theorem groupedBy {keys keys' : List Variable} {aggregates aggregates' : List BoundAggregate}
    (ofOperation : operation.Corresponds related operation')
    (ofKeys : List.Forall₂ (Variable.Corresponds related) keys keys')
    (alike : List.Forall₂ (BoundAggregate.Corresponds related) aggregates aggregates') :
    (operation.groupedBy keys aggregates).Corresponds related
      (operation'.groupedBy keys' aggregates') := by
  have whole : (Operation.of (.group operation keys aggregates)).Corresponds related
      (.of (.group operation' keys' aggregates')) := .mk none (.group ofOperation ofKeys alike)
  cases ofKeys with
  | nil =>
    cases alike with
    | nil => exact ofOperation
    | cons => exact whole
  | cons => exact whole

theorem kept {conditions conditions' : List Expression}
    (ofConditions : List.Forall₂ (Expression.Corresponds related) conditions conditions')
    (ofOperation : operation.Corresponds related operation') :
    (operation.kept conditions).Corresponds related (operation'.kept conditions') := by
  induction ofConditions generalizing operation operation' with
  | nil => exact ofOperation
  | cons first _ ih => exact ih (.mk none (.filter ofOperation first))

theorem extend {bindings bindings' : Bindings}
    (ofBindings : List.Forall₂ (fun entry entry' => entry.1.Corresponds related entry'.1
      ∧ entry.2.Corresponds related entry'.2) bindings bindings')
    (ofOperation : operation.Corresponds related operation') :
    (bindings.extend operation).Corresponds related (bindings'.extend operation') := by
  induction ofBindings generalizing operation operation' with
  | nil => exact ofOperation
  | cons first _ ih => exact ih (.mk none (.extend ofOperation first.1 first.2))

theorem orderedBy {order order' : List Expression}
    (ofOrder : List.Forall₂ (Expression.Corresponds related) order order')
    (ofOperation : operation.Corresponds related operation') :
    (operation.orderedBy order).Corresponds related (operation'.orderedBy order') := by
  cases ofOrder with
  | nil => exact ofOperation
  | cons first rest => exact .mk none (.orderBy ofOperation (.cons first rest))

end Operation.Corresponds

end

/-- Solutions of a pattern under the clauses of a query. -/
def Operation.underClauses (keys : List Variable) (aggregates : List BoundAggregate)
    (items : List (Variable × Option Expression)) (conditions order : List Expression)
    (pattern : Operation) : Operation :=
  .orderedBy order ((Bindings.ofItems items).extend
    (.kept conditions (pattern.groupedBy keys aggregates)))

namespace Expression

mutual

theorem grouped_nil : ∀ expression : Expression, expression.grouped [] = expression
  | .term _ => rfl
  | .call callee arguments => congrArg (Expression.call callee) (allGrouped_nil arguments)
  | .aggregate .. => rfl
  | .existence .. => rfl
  | .wildcard => rfl

theorem allGrouped_nil : ∀ expressions : List Expression, allGrouped [] expressions = expressions
  | [] => rfl
  | expression :: rest => congrArg₂ List.cons (grouped_nil expression) (allGrouped_nil rest)

end

end Expression

namespace GroupedQuery

variable {query : GroupedQuery}

private theorem ordered_eq (order : List (Surface.Direction × Expression)) (operation : Operation) :
    PlainQuery.ordered order operation
      = .orderedBy (order.map fun key => Context.orderKey key.1 key.2) operation := by
  cases order <;> rfl

/-- The values of the items with variables in place of aggregates. -/
private theorem ofItems_grouped (items : List (Variable × Option Expression))
    (aggregates : List BoundAggregate) :
    Bindings.ofItems (items.map fun item => (item.1, item.2.map (·.grouped aggregates)))
      = (Bindings.ofItems items).map fun entry => (entry.1, entry.2.grouped aggregates) := by
  induction items with
  | nil => rfl
  | cons item rest ih =>
    obtain ⟨name, _ | value⟩ := item
    · exact ih
    · exact congrArg ((name, value.grouped aggregates) :: ·) ih

variable {items : List (Variable × Option Expression)}

/-- The values that a settled query does not show are bound in its pattern. -/
theorem IsSettled.solutions_eq (settled : query.IsSettled)
    (shown : Bindings.ofItems items = query.shown) :
    query.flat.solutions = .underClauses query.keys query.aggregates
      (items.map fun item => (item.1, item.2.map (·.grouped query.aggregates)))
      (query.conditions.map (·.grouped query.aggregates))
      (query.order.map fun key => Context.orderKey key.1 (key.2.grouped query.aggregates))
      (query.left.extend query.core) := by
  have order : query.flat.order.map (fun key => Context.orderKey key.1 key.2)
      = query.order.map fun key => Context.orderKey key.1 (key.2.grouped query.aggregates) := by
    rw [flat, List.map_map]
    rfl
  have bindings : query.flat.bindings
      = (query.left.map fun entry => (entry.1, entry.2.grouped query.aggregates))
        ++ query.shown.map fun entry => (entry.1, entry.2.grouped query.aggregates) := by
    rw [flat, ← List.map_append, settled.values]
  rw [PlainQuery.solutions, ordered_eq, order, bindings, Bindings.extend, List.foldl_append,
    Operation.underClauses, ofItems_grouped, shown]
  refine congrArg (fun pattern => Operation.orderedBy _ (Bindings.extend _ pattern)) ?_
  rcases settled.inside with none | ⟨ungrouped, -⟩
  · rw [none]
    rfl
  · obtain ⟨noAggregates, noKeys, noConditions⟩ := settled.conditions_eq_nil ungrouped
    have same : (query.left.map fun entry => (entry.1, entry.2)) = query.left := List.map_id' _
    simp only [flat, noAggregates, noKeys, noConditions, Expression.grouped_nil, same]
    rfl

private theorem forall₂_ofItems {left : Expression → Expression → Prop}
    {items read : List (Variable × Option Expression)}
    (areItems : List.Forall₂ (IsItemOf left) items read) :
    List.Forall₂ (fun entry entry' => entry'.1 = entry.1 ∧ left entry.2 entry'.2)
      (Bindings.ofItems items) (Bindings.ofItems read) := by
  induction areItems with
  | nil => exact .nil
  | @cons item item' _ _ isItem _ ih =>
    obtain ⟨name, value⟩ := item
    obtain ⟨name', value'⟩ := item'
    obtain ⟨same, values⟩ := isItem
    cases values with
    | none => exact ih
    | some isLeft => exact .cons ⟨same, isLeft⟩ ih

private theorem names_of_items {left : Expression → Expression → Prop}
    {items read : List (Variable × Option Expression)}
    (areItems : List.Forall₂ (IsItemOf left) items read) :
    read.map (·.1) = items.map (·.1) := by
  induction areItems with
  | nil => rfl
  | cons first _ ih => rw [List.map_cons, List.map_cons, first.1, ih]

/-- What is read under the clauses of a settled query corresponds to its solutions if the pattern,
the aggregates and what is left of the clauses do. -/
theorem IsSettled.corresponds (settled : query.IsSettled)
    (shown : Bindings.ofItems items = query.shown) {known : Variable → Prop}
    (ofKeys : ∀ name ∈ query.keys, known name) (ofValues : ∀ entry ∈ query.bindings, known entry.1)
    {related : LocalName → LocalName → Prop} (keep : Renewals.Keep related known [])
    {pattern : Operation} (ofPattern : (query.left.extend query.core).Corresponds related pattern)
    {aggregates : List BoundAggregate}
    (alike : List.Forall₂ (BoundAggregate.Corresponds related) query.aggregates aggregates)
    {read : List (Variable × Option Expression) × List Expression × List Expression}
    (clauses : Context.AreClausesOf (fun expression left =>
        (expression.grouped query.aggregates).Corresponds related left)
      items query.conditions query.order read) :
    query.flat.solutions.Corresponds related
      (pattern.underClauses query.keys aggregates read.1 read.2.1 read.2.2) := by
  rw [settled.solutions_eq shown]
  refine .orderedBy ?order (.extend ?values (.kept ?conditions (.groupedBy ofPattern ?keys alike)))
  case order =>
    refine List.forall₂_map_left_iff.2 (clauses.order.imp ?_)
    rintro ⟨direction, value⟩ _ ⟨left, isLeft, rfl⟩
    cases direction with
    | ascending => exact isLeft
    | descending => exact .call _ (.cons isLeft .nil)
  case conditions => exact List.forall₂_map_left_iff.2 clauses.conditions
  case keys =>
    exact List.forall₂_same.2 fun name member => keep.known name (ofKeys name member)
  case values =>
    rw [ofItems_grouped, List.forall₂_map_left_iff]
    have isKnown : ∀ entry ∈ Bindings.ofItems items, known entry.1 := fun entry member =>
      ofValues entry (Bindings.mem_of_shown (shown ▸ member))
    refine ((List.forall₂_and_left _ _).2 ⟨isKnown, forall₂_ofItems clauses.items⟩).imp ?_
    rintro ⟨name, value⟩ ⟨_, left⟩ ⟨ofName, rfl, isLeft⟩
    exact ⟨keep.known _ ofName, isLeft⟩

end GroupedQuery

/-! ### What is read of a query -/

namespace Context

open Extracting (Renews)

variable {context : Context} {known : Variable → Prop} {names : List Variable}
  {namesOf : Expression → List Variable}

private theorem groupKeys_vars (plain : context.MakesPlain) (keys : List Variable)
    (operation : Operation) :
    context.groupKeys (keys.map .var) operation = pure (operation, keys) := by
  induction keys with
  | nil => rw [List.map_nil, groupKeys]
  | cons key rest ih => rw [List.map_cons, groupKeys, ih, pure_bind, var_eq plain]

/-- The clauses of a query without trailing inline data are laid over its pattern once their
expressions are read. -/
private theorem solutions_eq (plain : context.MakesPlain) (keys : List Variable)
    (having : List Surface.Expression) (orderBy : List Surface.OrderKey) (limit offset : Option Nat)
    (selected : List (Variable × Option Expression)) (aggregates : List BoundAggregate)
    (pattern : Operation) :
    context.solutions selected aggregates pattern
        ⟨if keys.isEmpty then none else some (keys.map .var), having, orderBy, limit, offset, none⟩
      = (do
        let (conditions, aggregates) ← (context.conditions having).run aggregates
        let (order, aggregates) ← (context.orderKeys orderBy).run aggregates
        pure (pattern.underClauses keys aggregates selected conditions order)) := by
  rw [solutions]
  refine bind_congr fun (conditions, aggregates) => bind_congr fun (order, aggregates) => ?_
  have ordered : ∀ grouped : Operation, (do
      let joined ← context.joinedWith none (Operation.kept conditions grouped)
      let extended := computed selected joined
      if order.isEmpty then pure extended else pure (.of (.orderBy extended order)) :
        Lowering Operation)
      = pure (.orderedBy order
        ((Bindings.ofItems selected).extend (.kept conditions grouped))) := by
    intro grouped
    simp only [joinedWith, pure_bind, computed_eq]
    cases order <;> rfl
  dsimp only
  cases keys with
  | nil =>
    cases aggregates with
    | nil => exact ordered pattern
    | cons => exact ordered _
  | cons key rest =>
    simp only [List.isEmpty_cons, Bool.false_eq_true, if_false, groupKeys_vars plain, pure_bind]
    exact ordered _

/-- The expressions of the clauses are read one after another, before all clauses are laid over the
pattern. -/
private theorem bind_solutions (plain : context.MakesPlain) (projection : Surface.Projection)
    (keys : List Variable) (having : List Surface.Expression) (orderBy : List Surface.OrderKey)
    (limit offset : Option Nat) (pattern : Operation) {α : Type}
    (goesOn : List (Variable × Option Expression) → Operation → Lowering α) :
    (do
      let (selected, aggregates) ← (context.projection projection).run []
      let solutions ← context.solutions selected aggregates pattern
        ⟨if keys.isEmpty then none else some (keys.map .var), having, orderBy, limit, offset, none⟩
      goesOn selected solutions)
    = (do
      let (read, aggregates) ← (context.clauses projection having orderBy).run []
      goesOn read.1 (pattern.underClauses keys aggregates read.1 read.2.1 read.2.2)) := by
  rw [clauses, StateT.run_bind, bind_assoc]
  refine bind_congr fun (selected, aggregates) => ?_
  dsimp only
  rw [solutions_eq plain, StateT.run_bind, bind_assoc, bind_assoc]
  refine bind_congr fun (conditions, aggregates) => ?_
  dsimp only
  rw [StateT.run_bind, bind_assoc, bind_assoc]
  exact bind_congr fun (order, aggregates) => rfl

end Context

/-! ### The pattern of a query -/

namespace GroupedQuery

/-- The pattern and the expressions of a settled query are written and read again. -/
structure Restores (context : Context) (known : Variable → Prop) (query : GroupedQuery)
    (inner : List Surface.Pattern) (names : List Variable)
    (namesOf : Expression → List Variable) : Prop where
  settled : query.IsSettled
  ofForm : AllKnown known query.form.localNames
  ofKeys : ∀ name ∈ query.keys, known name
  ofValues : ∀ entry ∈ query.bindings, known entry.1
  core : context.Restores False known query.core inner names
  inForm : query.isGrouped = false → query.core.written true = query.core.written false
  expressions : ∀ expression ∈ query.expressions,
    context.Retold False known expression (namesOf expression)

/-- The texts of values. -/
def textsOf (bindings : Bindings) : Extensions :=
  bindings.map fun entry => (entry.1, entry.2.text)

/-- The pattern of a query, with the values that are not shown bound at its end. -/
def written (query : GroupedQuery) (elements : List Surface.Pattern) : Surface.Pattern :=
  groupOf (groupElements elements ++ (textsOf query.left).binds)

end GroupedQuery

namespace Context

variable {context : Context} {known : Variable → Prop} {names : List Variable}
  {namesOf : Expression → List Variable}

/-- Values that are bound after elements are read. -/
private theorem renews_binds (plain : context.MakesPlain) {bindings : Bindings}
    (ofNames : ∀ entry ∈ bindings, known entry.1)
    (tells : context.Tells known Expression.text namesOf (bindings.map (·.2)))
    (before : Operation) (filters : List Expression) :
    Renews False known ((bindings.map (·.2)).flatMap namesOf)
      (fun related result => ∀ input : Operation, input.Corresponds related before →
        (bindings.extend input).Corresponds related result.1 ∧ result.2 = filters)
      (context.elements (GroupedQuery.textsOf bindings).binds before filters) := by
  induction bindings generalizing before with
  | nil =>
    show Renews False known [] _ (context.elements [] before filters)
    rw [elements]
    exact .pure fun _ _ input correspond => ⟨correspond, rfl⟩
  | cons entry rest ih =>
    obtain ⟨ofName, others⟩ := List.forall_mem_cons.1 ofNames
    show Renews False known (namesOf entry.2 ++ (rest.map (·.2)).flatMap namesOf) _
      (context.elements (.bind entry.2.text entry.1 .none :: (GroupedQuery.textsOf rest).binds)
        before filters)
    rw [elements, var_eq plain]
    refine (tells entry.2 List.mem_cons_self).bind fun value => ?_
    refine (ih others (fun other member => tells other (List.mem_cons_of_mem _ member))
      _).imp_of_keep fun related keep result holds ofValue input correspond => ?_
    exact holds _ (.mk none (.extend correspond (keep.known entry.1 ofName) ofValue))

end Context

namespace GroupedQuery.Restores

variable {context : Context} {known : Variable → Prop} {query : GroupedQuery}
  {inner elements : List Surface.Pattern} {names : List Variable}
  {namesOf : Expression → List Variable}

theorem spelled (restores : query.Restores context known inner names namesOf) :
    query.IsSpelled inner :=
  ⟨restores.core.written, restores.inForm, fun expression member =>
    (restores.expressions expression member).isSpelled⟩

theorem tells (restores : query.Restores context known inner names namesOf) :
    context.Tells known Expression.text namesOf query.expressions := fun expression member =>
  (restores.expressions expression member).reads

/-- The elements of a pattern that is neither grouped nor a filter are not those of a group. -/
private theorem groupElements_eq (restores : query.Restores context known inner names namesOf)
    (other : query.core.isFilter = false) : groupElements inner = inner := by
  unfold groupElements
  split
  · rename_i elements span
    have alone := restores.core.alone other _ rfl
    cases alone
  · rfl

/-- The pattern of a query is read with the values that are bound at its end. -/
theorem pattern (plain : context.MakesPlain)
    (restores : query.Restores context known inner names namesOf)
    (ungrouped : query.isGrouped = false → elements = inner)
    (asInner : context.pattern (.group elements .none) = context.pattern (.group inner .none)) :
    Renews False known (names ++ (query.left.map (·.2)).flatMap namesOf)
      (fun related result => (query.left.extend query.core).Corresponds related result)
      (context.pattern (query.written elements)) := by
  rw [GroupedQuery.written, Context.pattern_groupOf]
  rcases restores.settled.inside with none | ⟨noGroups, other⟩
  · have same : context.pattern (.group (groupElements elements) .none)
        = context.pattern (.group elements .none) := Context.pattern_groupOf elements
    have noBinds : (textsOf []).binds = [] := rfl
    rw [none, noBinds, List.append_nil, same, asInner, List.map_nil, List.flatMap_nil,
      List.append_nil]
    exact restores.core.read
  · have ofLeft : ∀ entry ∈ query.left, entry ∈ query.bindings := fun entry =>
      Bindings.mem_of_left
    rw [ungrouped noGroups, restores.groupElements_eq other, Context.pattern,
      Context.elements_append, bind_assoc]
    refine restores.core.reads.bind fun result => (Context.renews_binds plain
      (fun entry member => restores.ofValues entry (ofLeft entry member)) (fun value member => ?_)
      result.1 result.2).map fun related last holds correspond => ?_
    · obtain ⟨entry, isEntry, rfl⟩ := List.mem_map.1 member
      exact restores.tells entry.2 (mem_expressions_of_value (ofLeft entry isEntry))
    · obtain ⟨ofLast, none⟩ := holds _ correspond.1
      rw [none, correspond.2]
      exact ofLast

end GroupedQuery.Restores

/-! ### The solutions of a query -/

/-- The clauses of a query after its pattern, with a slice. -/
def GroupedQuery.slicedModifiers (query : GroupedQuery) (limit offset : Option Nat) :
    Surface.Modifiers :=
  { query.modifiers with limit, offset }

/-- The solutions that are read of a pattern and clauses, with the items that are shown. -/
def Context.solutionsOf (context : Context) (pattern : Surface.Pattern)
    (projection : Surface.Projection) (modifiers : Surface.Modifiers) :
    Lowering (List (Variable × Option Expression) × Operation) := do
  let input ← context.pattern pattern
  let (selected, aggregates) ← (context.projection projection).run []
  let solutions ← context.solutions selected aggregates input modifiers
  pure (selected, solutions)

/-- The expressions of a query are read after its pattern, and then its clauses are laid over it. -/
theorem Context.solutionsOf_eq {context : Context} (plain : context.MakesPlain)
    (query : GroupedQuery) (pattern : Surface.Pattern) (projection : Surface.Projection)
    (limit offset : Option Nat) :
    context.solutionsOf pattern projection (query.slicedModifiers limit offset) = (do
      let input ← context.pattern pattern
      let (read, aggregates) ← (context.clauses projection (query.conditions.map (·.text))
        (query.order.map fun key => .of key.1 key.2.text)).run []
      pure (read.1, input.underClauses query.keys aggregates read.1 read.2.1 read.2.2)) :=
  bind_congr fun input => bind_solutions plain projection query.keys query.modifiers.having
    query.modifiers.orderBy limit offset input fun selected solutions => pure (selected, solutions)

namespace GroupedQuery.Restores

variable {context : Context} {known : Variable → Prop} {query : GroupedQuery}
  {inner elements : List Surface.Pattern} {names : List Variable}
  {namesOf : Expression → List Variable}

/-- The variables that are taken anew for a query. -/
abbrev newNames (query : GroupedQuery) (names : List Variable)
    (namesOf : Expression → List Variable) : List Variable :=
  names ++ (query.expressions.flatMap namesOf ++ query.aggregates.map (·.name))

/-- The expressions of the clauses that are not read with the pattern. -/
private abbrev later (query : GroupedQuery) : List Expression :=
  query.shown.map (·.2) ++ (query.conditions ++ query.order.map (·.2))

private theorem expressions_eq (settled : query.IsSettled) :
    query.expressions = query.left.map (·.2) ++ later query := by
  rw [GroupedQuery.expressions, ← settled.values, List.map_append, List.append_assoc]

/-- No aggregate stands in a value that is bound in the pattern. -/
private theorem aggregates_later (settled : query.IsSettled) :
    query.aggregates.map (·.expression)
      = ((later query).flatMap (·.ownAggregates)).eraseDups := by
  have all := settled.aggregates
  rw [expressions_eq settled, List.flatMap_append] at all
  rcases settled.inside with none | ⟨ungrouped, -⟩
  · rwa [none] at all
  · rw [(settled.conditions_eq_nil ungrouped).1, List.map_nil] at all ⊢
    refine (List.eq_nil_iff_forall_not_mem.2 fun aggregate member => ?_).symm
    have inAll : aggregate ∈ (query.left.map (·.2)).flatMap (·.ownAggregates)
        ++ (later query).flatMap (·.ownAggregates) :=
      List.mem_append_right _ (List.mem_eraseDups.1 member)
    rw [← List.mem_eraseDups, ← all] at inAll
    cases inAll

/-- The solutions of a settled query are read as such, and the items of its projection show the
same variables. -/
theorem solutions (plain : context.MakesPlain)
    (restores : query.Restores context known inner names namesOf)
    (ungrouped : query.isGrouped = false → elements = inner)
    (asInner : context.pattern (.group elements .none) = context.pattern (.group inner .none))
    {items : List (Variable × Option Expression)} (shown : Bindings.ofItems items = query.shown)
    {projection : Surface.Projection}
    (shows : projection = .items (items.map (Context.itemOf Expression.text))
      ∨ projection = .all ∧ items = []) (limit offset : Option Nat) :
    Renews False known (newNames query names namesOf)
      (fun related result => result.1.map (·.1) = items.map (·.1)
        ∧ query.flat.solutions.Corresponds related result.2)
      (context.solutionsOf (query.written elements) projection
        (query.slicedModifiers limit offset)) := by
  have settled := restores.settled
  have tells := restores.tells
  rw [expressions_eq settled] at tells
  have tellsLater : context.Tells known Expression.text namesOf
      ((Bindings.ofItems items).map (·.2) ++ (query.conditions ++ query.order.map (·.2))) := by
    rw [shown]
    exact fun expression member => tells expression (List.mem_append_right _ member)
  have all : query.aggregates.map (·.expression) = (((Bindings.ofItems items).map (·.2)
      ++ (query.conditions ++ query.order.map (·.2))).flatMap (·.ownAggregates)).eraseDups := by
    rw [shown]
    exact aggregates_later settled
  have readClauses :=
    (Context.renews_clauses plain shows tellsLater).run all Context.AreClausesOf.mono
  rw [shown] at readClauses
  rw [newNames, expressions_eq settled, List.flatMap_append, List.append_assoc,
    ← List.append_assoc, Context.solutionsOf_eq plain]
  refine (restores.pattern plain ungrouped asInner).bind fun input => readClauses.map_of_keep
    fun related keep (read, aggregates) ⟨alike, clauses⟩ ofInput => ⟨?_, ?_⟩
  · exact names_of_items clauses.items
  · exact settled.corresponds shown restores.ofKeys restores.ofValues keep ofInput alike clauses

end GroupedQuery.Restores

end QueryAlgebra
