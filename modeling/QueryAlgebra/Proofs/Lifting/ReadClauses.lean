import QueryAlgebra.Proofs.Lifting.BindingOrder
import QueryAlgebra.Proofs.Lowering.BoundPatterns
import QueryAlgebra.Proofs.Lowering.ExtractedAggregates

/-! # Reading the clauses of a query

The items of a projection, the conditions of its groups and the keys of its order are read one by
one, and the aggregates in them are bound on the way. `Context.aggregates_substitute` says that
aggregates stand in whatever is read from an expression in which they have taken the places of
variables, so that a query with such an expression makes groups. Values that are bound to keys of
the groups are computed with the keys, and those of shown variables with the items.
-/

namespace QueryAlgebra

open Lowering (Yields)
open Surface (SelectItem)

/-! ### Results of steps -/

/-- A step may have a value as its result. -/
def Lowering.MayYield {α : Type} (step : Lowering α) (value : α) : Prop :=
  ∃ supply after, step supply = .ok value after

namespace Lowering

variable {α β : Type} {step : Lowering α} {next : α → Lowering β}

theorem mayYield_of_bind {result : β} (may : (step >>= next).MayYield result) :
    ∃ value, step.MayYield value ∧ (next value).MayYield result := by
  obtain ⟨supply, last, success⟩ := may
  obtain ⟨value, after, first, second⟩ := of_bind_ok success
  exact ⟨value, ⟨supply, after, first⟩, after, last, second⟩

theorem mayYield_of_pure {value result : α} (may : (pure value : Lowering α).MayYield result) :
    value = result := by
  obtain ⟨supply, after, success⟩ := may
  exact (of_pure_ok success).1

end Lowering

/-! ### Values with aggregates -/

/-- Whether an expression is an aggregate. -/
def Surface.Expression.isAggregate : Surface.Expression → Bool
  | .aggregate .. => true
  | _ => false

/-- All values are aggregates. -/
def NameMap.AllAggregates (values : NameMap Surface.Expression) : Prop :=
  ∀ name value, values.find? name = some value → value.isAggregate = true

namespace Context

variable {context : Context}

/-- Whatever an expression is read as, aggregates stand in it. -/
def Aggregates (context : Context) (written : Surface.Expression) : Prop :=
  Yields (fun read => read.ownAggregates ≠ []) (context.expression written)

/-- Whatever expressions are read as, aggregates stand in them. -/
def AnyAggregates (context : Context) (written : List Surface.Expression) : Prop :=
  Yields (fun read => Expression.allOwnAggregates read ≠ []) (context.expressions written)

private theorem anyAggregates_cons {first : Surface.Expression} {rest : List Surface.Expression}
    (either : context.Aggregates first ∨ context.AnyAggregates rest) :
    context.AnyAggregates (first :: rest) := by
  unfold AnyAggregates
  rw [expressions]
  rcases either with ofFirst | ofRest
  · refine Yields.bind ofFirst fun read has => .bind_any fun others => .pure ?_
    exact fun none => has (List.append_eq_nil_iff.1 none).1
  · refine .bind_any fun read => Yields.bind ofRest fun others has => .pure ?_
    exact fun none => has (List.append_eq_nil_iff.1 none).2

/-- A form of an expression that is read as a call of what its arguments are read as. -/
private theorem aggregates_of_any {written : Surface.Expression}
    {arguments : List Surface.Expression} (callee : Lowering Callee)
    (has : context.AnyAggregates arguments)
    (reads : context.expression written = (do
      let read ← context.expressions arguments
      let callee ← callee
      pure (.call callee read))) : context.Aggregates written := by
  unfold Aggregates
  rw [reads]
  exact Yields.bind has fun read nonempty => .bind_any fun callee => .pure nonempty

variable {values : NameMap Surface.Expression}

mutual

/-- Aggregates stand where the variables of aggregates stood. -/
theorem aggregates_substitute (all : values.AllAggregates) : ∀ {written : Surface.Expression},
    written.mentions values = true → context.Aggregates (written.substitute values)
  | .var name, mentioned => by
    obtain ⟨value, found⟩ := Option.isSome_iff_exists.1 mentioned
    have isAggregate := all _ _ found
    rw [Surface.Expression.substitute, found, Option.getD_some]
    unfold Aggregates
    cases value with
    | aggregate function argument distinct separator =>
      cases argument with
      | none =>
        rw [expression]
        exact .pure (List.cons_ne_nil _ _)
      | some argument =>
        rw [expression]
        exact .bind_any fun read => .pure (List.cons_ne_nil _ _)
    | _ => cases isAggregate
  | .binary op left right, mentioned => by
    rw [Surface.Expression.mentions, Bool.or_eq_true] at mentioned
    have has : context.AnyAggregates [left.substitute values, right.substitute values] := by
      refine anyAggregates_cons (mentioned.imp (aggregates_substitute all) fun ofRight => ?_)
      exact anyAggregates_cons (.inl (aggregates_substitute all ofRight))
    refine aggregates_of_any (pure (.operator op.name)) has ?_
    rw [Surface.Expression.substitute]
    simp only [expression, expressions, bind_assoc, pure_bind]
    rfl
  | .unary op operand, mentioned => by
    have has : context.AnyAggregates [operand.substitute values] :=
      anyAggregates_cons (.inl (aggregates_substitute all mentioned))
    refine aggregates_of_any (pure (.operator op.name)) has ?_
    rw [Surface.Expression.substitute]
    simp only [expression, expressions, bind_assoc, pure_bind]
    rfl
  | .call function arguments distinct, mentioned =>
    aggregates_of_any (context.callee function) (anyAggregates_substitute all mentioned)
      (by rw [Surface.Expression.substitute, expression])
  | .ifElse condition positive negative, mentioned => by
    rw [Surface.Expression.mentions, Bool.or_eq_true, Bool.or_eq_true, or_assoc] at mentioned
    have has : context.AnyAggregates [condition.substitute values, positive.substitute values,
        negative.substitute values] := by
      refine anyAggregates_cons (mentioned.imp (aggregates_substitute all) fun others => ?_)
      refine anyAggregates_cons (others.imp (aggregates_substitute all) fun ofNegative => ?_)
      exact anyAggregates_cons (.inl (aggregates_substitute all ofNegative))
    refine aggregates_of_any (pure (.operator "if")) has ?_
    rw [Surface.Expression.substitute]
    simp only [expression, expressions, bind_assoc, pure_bind]
    rfl
  | .coalesce arguments, mentioned =>
    aggregates_of_any (pure (.operator "coalesce")) (anyAggregates_substitute all mentioned) (by
        rw [Surface.Expression.substitute, expression]
        simp only [pure_bind]
        rfl)
  | .among value choices negated, mentioned => by
    rw [Surface.Expression.mentions, Bool.or_eq_true] at mentioned
    have has : context.AnyAggregates (value.substitute values
        :: Surface.Expression.substituteAll values choices) :=
      anyAggregates_cons (mentioned.imp (aggregates_substitute all) (anyAggregates_substitute all))
    refine aggregates_of_any (pure (.operator (membershipName negated))) has ?_
    rw [Surface.Expression.substitute]
    simp only [expression, expressions, bind_assoc, pure_bind]
    rfl
  | .bracketed inner, mentioned => by
    have has : context.Aggregates (inner.substitute values) := aggregates_substitute all mentioned
    unfold Aggregates at has ⊢
    rwa [Surface.Expression.substitute, expression]

theorem anyAggregates_substitute (all : values.AllAggregates) :
    ∀ {written : List Surface.Expression},
    Surface.Expression.mentionsAny values written = true →
    context.AnyAggregates (Surface.Expression.substituteAll values written)
  | first :: rest, mentioned => by
    rw [Surface.Expression.mentionsAny, Bool.or_eq_true] at mentioned
    refine anyAggregates_cons (mentioned.imp (aggregates_substitute all) fun ofRest => ?_)
    exact anyAggregates_substitute all ofRest

end

/-! ### Clauses -/

/-- What is left of an expression that is read, after its aggregates are taken out. -/
def ReadsClause (context : Context) (written : Surface.Expression) (again : Expression) : Prop :=
  ∃ read found later, (context.expression written).MayYield read
    ∧ ((context.extractAggregates read).run found).MayYield (again, later)

/-- The bound aggregates after a clause begin with those before it, and there are some if aggregates
stand in the clause. -/
private theorem of_clause_run {α : Type} {written : Surface.Expression}
    {next : Expression → Extracting α} {result : α} {supply after : NameSupply}
    {found later : List BoundAggregate}
    (run : (do
      let value ← context.expression written
      let value ← context.extractAggregates value
      next value : Extracting α).run found supply = .ok (result, later) after) :
    ∃ again middle between, context.ReadsClause written again ∧ found <+: middle
      ∧ (context.Aggregates written → middle ≠ [])
      ∧ (next again).run middle between = .ok (result, later) after := by
  rw [StateT.run_bind] at run
  obtain ⟨⟨read, _⟩, before, isRead, run⟩ := Lowering.of_bind_ok run
  obtain ⟨_, _, isRead, same⟩ := Lowering.of_bind_ok isRead
  cases same
  rw [StateT.run_bind] at run
  obtain ⟨⟨again, middle⟩, between, extracted, run⟩ := Lowering.of_bind_ok run
  obtain ⟨_, binds⟩ := run_extractAggregates extracted
  refine ⟨again, middle, between, ⟨read, found, middle, ⟨_, _, isRead⟩, _, _, extracted⟩,
    binds.isEarlier, fun has none => ?_, run⟩
  obtain ⟨aggregate, rest, own⟩ := List.exists_cons_of_ne_nil (has _ _ _ isRead)
  have held := binds.holds aggregate (own ▸ List.mem_cons_self)
  rw [none] at held
  cases held

/-- The items of a projection are read one by one. -/
theorem run_selectItems {after : NameSupply} {later : List BoundAggregate} :
    ∀ {items : List SelectItem} {supply : NameSupply} {found : List BoundAggregate}
      {selected : List (Variable × Option Expression)},
    (context.selectItems items).run found supply = .ok (selected, later) after →
    found <+: later ∧ ∀ value name, SelectItem.computed value name ∈ items →
      context.Aggregates value → later ≠ []
  | [], _, _, _, run => by
    cases run
    exact ⟨List.prefix_rfl, fun _ _ member => by cases member⟩
  | .var name :: rest, _, _, _, run => by
    rw [selectItems, StateT.run_bind] at run
    obtain ⟨⟨others, _⟩, _, ofRest, run⟩ := Lowering.of_bind_ok run
    cases run
    obtain ⟨earlier, has⟩ := run_selectItems ofRest
    refine ⟨earlier, fun value other member => has value other ?_⟩
    simpa using member
  | .computed value name :: rest, _, _, _, run => by
    rw [selectItems] at run
    obtain ⟨again, middle, _, _, first, ofFirst, run⟩ := of_clause_run run
    rw [StateT.run_bind] at run
    obtain ⟨⟨others, _⟩, _, ofRest, run⟩ := Lowering.of_bind_ok run
    cases run
    obtain ⟨earlier, has⟩ := run_selectItems ofRest
    refine ⟨first.trans earlier, fun other otherName member aggregates => ?_⟩
    rcases List.mem_cons.1 member with isFirst | inRest
    · cases isFirst
      exact earlier.ne_nil (ofFirst aggregates)
    · exact has other otherName inRest aggregates

/-- The conditions of a group are read one by one. -/
theorem run_conditions {after : NameSupply} {later : List BoundAggregate} :
    ∀ {written : List Surface.Expression} {supply : NameSupply}
      {found : List BoundAggregate} {conditions : List Expression},
    (context.conditions written).run found supply = .ok (conditions, later) after →
    List.Forall₂ context.ReadsClause written conditions ∧ found <+: later
      ∧ ∀ condition ∈ written, context.Aggregates condition → later ≠ []
  | [], _, _, _, run => by
    cases run
    exact ⟨.nil, List.prefix_rfl, List.forall_mem_nil _⟩
  | condition :: rest, _, _, _, run => by
    rw [Context.conditions] at run
    obtain ⟨again, middle, _, reads, first, ofFirst, run⟩ := of_clause_run run
    rw [StateT.run_bind] at run
    obtain ⟨⟨others, _⟩, _, ofRest, run⟩ := Lowering.of_bind_ok run
    cases run
    obtain ⟨readsRest, earlier, has⟩ := run_conditions ofRest
    refine ⟨.cons reads readsRest, first.trans earlier, List.forall_mem_cons.2 ⟨?_, has⟩⟩
    exact fun aggregates => earlier.ne_nil (ofFirst aggregates)

/-- The keys of an order are read one by one. -/
theorem run_orderKeys {after : NameSupply} {later : List BoundAggregate} :
    ∀ {written : List Surface.OrderKey} {supply : NameSupply}
      {found : List BoundAggregate} {keys : List Expression},
    (context.orderKeys written).run found supply = .ok (keys, later) after →
    keys.length = written.length ∧ found <+: later
      ∧ ∀ value direction, Surface.OrderKey.computed value direction ∈ written →
        context.Aggregates value → later ≠ []
  | [], _, _, _, run => by
    cases run
    exact ⟨rfl, List.prefix_rfl, fun _ _ member => by cases member⟩
  | .var name direction :: rest, _, _, _, run => by
    rw [orderKeys, StateT.run_bind] at run
    obtain ⟨⟨others, _⟩, _, ofRest, run⟩ := Lowering.of_bind_ok run
    cases run
    obtain ⟨length, earlier, has⟩ := run_orderKeys ofRest
    refine ⟨congrArg (· + 1) length, earlier, fun value other member => has value other ?_⟩
    simpa using member
  | .computed value direction :: rest, _, _, _, run => by
    rw [orderKeys] at run
    obtain ⟨again, middle, _, _, first, ofFirst, run⟩ := of_clause_run run
    rw [StateT.run_bind] at run
    obtain ⟨⟨others, _⟩, _, ofRest, run⟩ := Lowering.of_bind_ok run
    cases run
    obtain ⟨length, earlier, has⟩ := run_orderKeys ofRest
    refine ⟨congrArg (· + 1) length, first.trans earlier, fun other otherDirection member => ?_⟩
    intro aggregates
    rcases List.mem_cons.1 member with isFirst | inRest
    · cases isFirst
      exact earlier.ne_nil (ofFirst aggregates)
    · exact has other otherDirection inRest aggregates

end Context

/-! ### Computed values -/

namespace Extensions

variable {extensions : Extensions}

/-- A value that is not left is taken. -/
theorem mem_take (name : Variable) {entry : Variable × Surface.Expression}
    (member : entry ∈ extensions) :
    entry ∈ (extensions.take name).2
      ∨ entry.1 = name ∧ (extensions.take name).1 = some entry.2 := by
  induction extensions with
  | nil => cases member
  | cons head rest ih =>
    rw [take]
    by_cases same : head.1 = name
    · rw [if_pos same]
      rcases List.mem_cons.1 member with rfl | inRest
      · exact .inr ⟨same, rfl⟩
      · exact .inl inRest
    · rw [if_neg same]
      rcases List.mem_cons.1 member with rfl | inRest
      · exact .inl List.mem_cons_self
      · exact (ih inRest).imp (List.mem_cons_of_mem _) id

/-- A value that the keys do not leave is bound to one of them. -/
theorem mem_groupKeys (keys : List Variable) {entry : Variable × Surface.Expression}
    (member : entry ∈ extensions) : entry ∈ (extensions.groupKeys keys).2 ∨ entry.1 ∈ keys := by
  induction keys generalizing extensions with
  | nil => exact .inl member
  | cons key rest ih =>
    rcases mem_take key member with left | ⟨rfl, _⟩
    · exact (ih left).imp id (List.mem_cons_of_mem _)
    · exact .inr List.mem_cons_self

/-- The keys take a value for each of them, while there is one, and leave the others. -/
theorem left_groupKeys (keys : List Variable) (extensions : Extensions) :
    (extensions.groupKeys keys).2.map (·.1) = (extensions.map (·.1)).diff keys := by
  induction keys generalizing extensions with
  | nil => rfl
  | cons key rest ih =>
    rw [List.diff_cons, ← (take_names key extensions).2]
    exact ih _

/-- Nothing is left of values whose variables are shown in their order. -/
theorem left_selectItems (values : NameMap Surface.Expression) {vars : List Variable}
    (shown : (extensions.map (·.1)).Sublist vars) :
    (extensions.selectItems values vars).2 = [] := by
  induction vars generalizing extensions with
  | nil =>
    rw [selectItems]
    exact List.map_eq_nil_iff.1 (List.sublist_nil.1 shown)
  | cons name names ih =>
    refine @ih (extensions.take name).2 ?_
    rw [(take_names name extensions).2]
    exact List.erase_cons_head name names ▸ shown.erase name

/-- Values that are not left are computed by items. -/
theorem mem_selectItems (values : NameMap Surface.Expression) {vars : List Variable}
    {entry : Variable × Surface.Expression} (member : entry ∈ extensions) :
    entry ∈ (extensions.selectItems values vars).2
      ∨ SelectItem.computed entry.2 entry.1 ∈ (extensions.selectItems values vars).1 := by
  induction vars generalizing extensions with
  | nil => exact .inl member
  | cons name names ih =>
    rw [selectItems]
    rcases mem_take name member with left | ⟨rfl, taken⟩
    · exact (ih left).imp id (List.mem_cons_of_mem _)
    · rw [taken]
      exact .inr List.mem_cons_self

/-- Where no shown variable is that of an aggregate, the items compute the values that are not
left. -/
theorem perm_selectItems {values : NameMap Surface.Expression} {vars : List Variable}
    (hidden : ∀ name ∈ vars, values.find? name.name = none) (extensions : Extensions) :
    ((extensions.selectItems values vars).1.filterMap SelectItem.computed?
      ++ (extensions.selectItems values vars).2.map (·.1)).Perm (extensions.map (·.1)) := by
  induction vars generalizing extensions with
  | nil => exact .refl _
  | cons name names ih =>
    obtain ⟨first, others⟩ := List.forall_mem_cons.1 hidden
    obtain ⟨found, rest⟩ := take_names name extensions
    have taken := ih others (extensions.take name).2
    rw [rest] at taken
    rw [selectItems, first, Option.or_none]
    cases value : (extensions.take name).1 with
    | none =>
      have absent : name ∉ extensions.map (·.1) := fun member => by
        rw [← found, value] at member
        cases member
      rwa [List.erase_of_not_mem absent] at taken
    | some written =>
      have present : name ∈ extensions.map (·.1) := found.1 (by rw [value]; rfl)
      exact (taken.cons name).trans (List.perm_cons_erase present).symm

end Extensions

/-- Keys of groups are read as variables, and those that a value is bound to are computed first. -/
theorem Context.of_groupKeys {context : Context} (plain : context.MakesPlain) {keys : List Variable}
    {extensions : Extensions} {input below : Operation} {vars : List Variable}
    (reads : (context.groupKeys (extensions.groupKeys keys).1 input).MayYield (below, vars)) :
    vars = keys ∧ ∃ computed : Bindings,
      computed.map (·.1) = keys.bagInter (extensions.map (·.1))
      ∧ below = computed.extend input := by
  induction keys generalizing extensions input vars with
  | nil =>
    rw [Extensions.groupKeys, groupKeys] at reads
    cases Lowering.mayYield_of_pure reads
    exact ⟨rfl, [], rfl, rfl⟩
  | cons key rest ih =>
    obtain ⟨found, left⟩ := Extensions.take_names key extensions
    rw [Extensions.groupKeys] at reads
    cases value : (extensions.take key).1 with
    | none =>
      have absent : key ∉ extensions.map (·.1) := fun member => by
        rw [← found, value] at member
        cases member
      rw [value, groupKeys] at reads
      obtain ⟨⟨operation, others⟩, ofRest, reads⟩ := Lowering.mayYield_of_bind reads
      cases Lowering.mayYield_of_pure reads
      obtain ⟨rfl, computed, names, same⟩ := ih ofRest
      rw [left, List.erase_of_not_mem absent] at names
      rw [var_eq plain, List.cons_bagInter_of_not_mem _ absent]
      exact ⟨rfl, computed, names, same⟩
    | some written =>
      have present : key ∈ extensions.map (·.1) := found.1 (by rw [value]; rfl)
      rw [value, groupKeys] at reads
      obtain ⟨read, _, reads⟩ := Lowering.mayYield_of_bind reads
      simp only [pure_bind, var_eq plain] at reads
      obtain ⟨⟨operation, others⟩, ofRest, reads⟩ := Lowering.mayYield_of_bind reads
      cases Lowering.mayYield_of_pure reads
      obtain ⟨rfl, computed, names, same⟩ := ih ofRest
      rw [left] at names
      rw [List.cons_bagInter_of_mem _ present]
      exact ⟨rfl, (key, read) :: computed, congrArg (key :: ·) names, same⟩

end QueryAlgebra
