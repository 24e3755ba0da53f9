import QueryAlgebra.Proofs.Lifting.PlainQueries
import QueryAlgebra.Proofs.Lowering.WellFormedPatterns

/-! # Aggregates that are taken out of expressions

The aggregates of expressions are bound one after another, each to a new variable unless an equal
one is bound already: `Context.Binds`. What is left of an expression depends on the list of bound
aggregates alone, `Expression.grouped`, and a longer list leaves the same
(`Context.run_replaceAggregates`).

`Context.Extracts` is a sequence of expressions that go through the extraction with one list, as the
values, conditions and order keys of a query do: `Context.extracts_selectItems`,
`Context.extracts_conditions`, `Context.extracts_orderKeys`. All of it is one run of `Binds`
(`Context.Extracts.binds`).
-/

namespace QueryAlgebra

/-! ### The aggregates of an expression -/

namespace Expression

mutual

/-- The aggregates of an expression that stand neither in an aggregate nor in a pattern. -/
def ownAggregates : Expression → List Expression
  | .call _ arguments => allOwnAggregates arguments
  | .aggregate name argument distinct separator => [.aggregate name argument distinct separator]
  | _ => []

/-- The aggregates of expressions that stand neither in an aggregate nor in a pattern. -/
def allOwnAggregates : List Expression → List Expression
  | [] => []
  | expression :: rest => expression.ownAggregates ++ allOwnAggregates rest

end

/-- The variable that an aggregate is bound to, or else the aggregate. -/
def orVariable (found : List BoundAggregate) (aggregate : Expression) : Expression :=
  match found.find? (·.expression == aggregate) with
  | some bound => .var bound.name
  | none => aggregate

mutual

/-- An expression with variables in place of the aggregates that are bound. -/
def grouped (found : List BoundAggregate) : Expression → Expression
  | .call callee arguments => .call callee (allGrouped found arguments)
  | .aggregate name argument distinct separator =>
    orVariable found (.aggregate name argument distinct separator)
  | other => other

/-- Expressions with variables in place of the aggregates that are bound. -/
def allGrouped (found : List BoundAggregate) : List Expression → List Expression
  | [] => []
  | expression :: rest => expression.grouped found :: allGrouped found rest

end

/-- Whether an expression fits on the stack of the traversal that takes its aggregates out. -/
def FitsExtraction (expression : Expression) : Prop :=
  (Node.expression expression).checkFits (fun kind =>
    if kind = .aggregateExpression ∨ kind = .existenceExpression then .leave else .descend) = .ok ()

end Expression

/-- Whether an aggregate is bound. -/
def BoundAggregate.Holds (found : List BoundAggregate) (aggregate : Expression) : Prop :=
  aggregate ∈ found.map (·.expression)

open BoundAggregate (Holds)

section

variable {found later : List BoundAggregate} {aggregate : Expression}

theorem BoundAggregate.Holds.mono (earlier : found <+: later) (holds : Holds found aggregate) :
    Holds later aggregate :=
  (earlier.map (·.expression)).subset holds

/-- What is bound is found under an equal expression. -/
theorem BoundAggregate.Holds.exists_find? (holds : Holds found aggregate) :
    ∃ bound ∈ found, bound.expression = aggregate
      ∧ found.find? (·.expression == aggregate) = some bound := by
  obtain ⟨bound, member, same⟩ := List.mem_map.1 holds
  have isFound : (found.find? (·.expression == aggregate)).isSome :=
    List.find?_isSome.2 ⟨bound, member, beq_iff_eq.2 same⟩
  obtain ⟨first, isFirst⟩ := Option.isSome_iff_exists.1 isFound
  have equal : first.expression = aggregate := by simpa using List.find?_some isFirst
  exact ⟨first, List.mem_of_find?_eq_some isFirst, equal, isFirst⟩

theorem find?_eq_none_of_not_holds (absent : ¬ Holds found aggregate) :
    found.find? (·.expression == aggregate) = none :=
  List.find?_eq_none.2 fun bound member same =>
    absent (List.mem_map.2 ⟨bound, member, beq_iff_eq.1 same⟩)

theorem Expression.orVariable_of_prefix (earlier : found <+: later)
    (holds : Holds found aggregate) :
    aggregate.orVariable found = aggregate.orVariable later := by
  obtain ⟨more, rfl⟩ := earlier
  obtain ⟨bound, _, _, isFound⟩ := holds.exists_find?
  rw [orVariable, orVariable, List.find?_append, isFound]
  rfl

namespace Expression

mutual

/-- A longer list of bound aggregates leaves the same of an expression whose aggregates are bound
already. -/
theorem grouped_mono (earlier : found <+: later) : ∀ expression : Expression,
    (∀ aggregate ∈ expression.ownAggregates, Holds found aggregate) →
    expression.grouped found = expression.grouped later
  | .term _, _ => rfl
  | .call callee arguments, held =>
    congrArg (Expression.call callee) (allGrouped_mono earlier arguments held)
  | .aggregate .., held => orVariable_of_prefix earlier (held _ (List.mem_singleton_self _))
  | .existence .., _ => rfl
  | .wildcard, _ => rfl

theorem allGrouped_mono (earlier : found <+: later) : ∀ expressions : List Expression,
    (∀ aggregate ∈ allOwnAggregates expressions, Holds found aggregate) →
    allGrouped found expressions = allGrouped later expressions
  | [], _ => rfl
  | expression :: rest, held => by
    obtain ⟨first, others⟩ := List.forall_mem_append.1 held
    rw [allGrouped, allGrouped, grouped_mono earlier expression first,
      allGrouped_mono earlier rest others]

end

mutual

/-- No aggregate is left once all are bound. -/
theorem isRowwise_grouped : ∀ expression : Expression,
    (∀ aggregate ∈ expression.ownAggregates, Holds found aggregate) →
    (expression.grouped found).isRowwise = true
  | .term _, _ => rfl
  | .call _ arguments, held => allRowwise_allGrouped arguments held
  | .aggregate name argument distinct separator, held => by
    obtain ⟨bound, _, _, isFound⟩ := (held _ (List.mem_singleton_self _)).exists_find?
    rw [grouped, orVariable, isFound]
    rfl
  | .existence .., _ => rfl
  | .wildcard, _ => rfl

theorem allRowwise_allGrouped : ∀ expressions : List Expression,
    (∀ aggregate ∈ allOwnAggregates expressions, Holds found aggregate) →
    allRowwise (allGrouped found expressions) = true
  | [], _ => rfl
  | expression :: rest, held => by
    obtain ⟨first, others⟩ := List.forall_mem_append.1 held
    rw [allGrouped, allRowwise, isRowwise_grouped expression first,
      allRowwise_allGrouped rest others]
    rfl

end

end Expression

end

namespace Context

variable {context : Context} {supply between after : NameSupply}
  {found middle later : List BoundAggregate} {aggregate expression result : Expression}
  {aggregates more : List Expression}

/-! ### Binding aggregates one after another -/

/-- Aggregates are bound one after another, each to a new variable unless it is bound already. Other
names may be taken from the supply in between. -/
inductive Binds (context : Context) : NameSupply → List BoundAggregate → List Expression →
    NameSupply → List BoundAggregate → Prop
  | done (supply : NameSupply) (found : List BoundAggregate) :
    Binds context supply found [] supply found
  | take {supply between after : NameSupply} {found later : List BoundAggregate}
      {aggregates : List Expression} {name : LocalName} :
    supply.Takes name between → Binds context between found aggregates after later →
    Binds context supply found aggregates after later
  | known {supply after : NameSupply} {found later : List BoundAggregate} {aggregate : Expression}
      {aggregates : List Expression} :
    Holds found aggregate → Binds context supply found aggregates after later →
    Binds context supply found (aggregate :: aggregates) after later
  | new {supply after : NameSupply} {found later : List BoundAggregate} {aggregate : Expression}
      {aggregates : List Expression} :
    ¬ Holds found aggregate →
    Binds context supply.takeVariable.2
      (found ++ [⟨context.factory.var supply.takeVariable.1, aggregate⟩]) aggregates after later →
    Binds context supply found (aggregate :: aggregates) after later

namespace Binds

theorem append (first : context.Binds supply found aggregates between middle)
    (second : context.Binds between middle more after later) :
    context.Binds supply found (aggregates ++ more) after later := by
  induction first with
  | done => exact second
  | take takes _ ih => exact .take takes (ih second)
  | known holds _ ih => exact .known holds (ih second)
  | new absent _ ih => exact .new absent (ih second)

theorem of_gives (gives : supply.Gives after) : context.Binds supply found [] after found := by
  obtain ⟨names, mints⟩ := gives
  induction mints with
  | none supply => exact .done supply found
  | next takes _ ih => exact .take takes ih

/-- Names are only taken. -/
theorem gives (binds : context.Binds supply found aggregates after later) :
    supply.Gives after := by
  induction binds with
  | done supply => exact .refl supply
  | take takes _ ih => exact .trans (.of_takes takes) ih
  | known _ _ ih => exact ih
  | new _ _ ih => exact .trans (.of_takes (.numbered _)) ih

/-- What is bound stays bound as it is. -/
theorem isEarlier (binds : context.Binds supply found aggregates after later) :
    found <+: later := by
  induction binds with
  | done => exact List.prefix_rfl
  | take _ _ ih => exact ih
  | known _ _ ih => exact ih
  | new _ _ ih => exact (List.prefix_append _ _).trans ih

/-- All aggregates are bound in the end. -/
theorem holds (binds : context.Binds supply found aggregates after later) :
    ∀ aggregate ∈ aggregates, Holds later aggregate := by
  induction binds with
  | done => exact List.forall_mem_nil _
  | take _ _ ih => exact ih
  | known holds binds ih => exact List.forall_mem_cons.2 ⟨holds.mono binds.isEarlier, ih⟩
  | new _ binds ih =>
    refine List.forall_mem_cons.2 ⟨.mono binds.isEarlier ?_, ih⟩
    simp [Holds]

/-- Nothing else is bound. -/
theorem mem_or_mem (binds : context.Binds supply found aggregates after later) :
    ∀ bound ∈ later, bound ∈ found ∨ bound.expression ∈ aggregates := by
  induction binds with
  | done => exact fun _ member => .inl member
  | take _ _ ih => exact ih
  | known _ _ ih =>
    exact fun bound member => (ih bound member).imp id (List.mem_cons_of_mem _)
  | new _ _ ih =>
    intro bound member
    rcases ih bound member with inFound | inRest
    · rcases List.mem_append.1 inFound with inFound | isNew
      · exact .inl inFound
      · rw [List.mem_singleton.1 isNew]
        exact .inr List.mem_cons_self
    · exact .inr (List.mem_cons_of_mem _ inRest)

/-- No two aggregates that are bound are equal. -/
theorem nodup_expressions (binds : context.Binds supply found aggregates after later)
    (different : (found.map (·.expression)).Nodup) : (later.map (·.expression)).Nodup := by
  induction binds with
  | done => exact different
  | take _ _ ih => exact ih different
  | known _ _ ih => exact ih different
  | new absent _ ih =>
    refine ih ?_
    rw [List.map_append, List.map_singleton]
    refine List.nodup_append.2 ⟨different, List.nodup_singleton _, ?_⟩
    intro known member last isLast same
    rw [List.mem_singleton] at isLast
    rw [same, isLast] at member
    exact absent member

/-- The variables that are bound now stand for names that were not in use. -/
theorem fresh (binds : context.Binds supply found aggregates after later) :
    ∀ bound ∈ later, bound ∈ found
      ∨ ∃ name, ¬ supply.Has (.var name) ∧ context.factory.var name = bound.name := by
  induction binds with
  | done => exact fun _ member => .inl member
  | take takes _ ih =>
    intro bound member
    refine (ih bound member).imp id fun ⟨name, free, same⟩ => ⟨name, fun isUsed => free ?_, same⟩
    exact (takes.has_iff _).2 (.inr isUsed)
  | known _ _ ih => exact ih
  | @new supply _ _ _ _ _ _ _ ih =>
    have takes := NameSupply.Takes.numbered supply
    intro bound member
    rcases ih bound member with inFound | ⟨name, free, same⟩
    · rcases List.mem_append.1 inFound with inFound | isNew
      · exact .inl inFound
      · rw [List.mem_singleton.1 isNew]
        exact .inr ⟨_, takes.fresh, rfl⟩
    · exact .inr ⟨name, fun isUsed => free ((takes.has_iff _).2 (.inr isUsed)), same⟩

/-- No two aggregates are bound to one variable. -/
theorem nodup_names (oneToOne : Function.Injective context.factory.var)
    (binds : context.Binds supply found aggregates after later)
    (inUse : ∀ bound ∈ found,
      ∃ name, supply.Has (.var name) ∧ context.factory.var name = bound.name)
    (different : (found.map (·.name)).Nodup) : (later.map (·.name)).Nodup := by
  induction binds with
  | done => exact different
  | take takes _ ih =>
    refine ih (fun bound member => ?_) different
    obtain ⟨name, isUsed, same⟩ := inUse bound member
    exact ⟨name, (takes.has_iff _).2 (.inr isUsed), same⟩
  | known _ _ ih => exact ih inUse different
  | @new supply _ _ _ _ _ _ _ ih =>
    have takes := NameSupply.Takes.numbered supply
    refine ih (List.forall_mem_append.2 ⟨fun bound member => ?_, ?_⟩) ?_
    · obtain ⟨name, isUsed, same⟩ := inUse bound member
      exact ⟨name, (takes.has_iff _).2 (.inr isUsed), same⟩
    · exact List.forall_mem_singleton.2 ⟨_, (takes.has_iff _).2 (.inl rfl), rfl⟩
    · rw [List.map_append, List.map_singleton]
      refine List.nodup_append.2
        ⟨different, List.nodup_singleton _, fun known member last isLast same => ?_⟩
      -- The variable of a name that was free is not one of a name in use.
      rw [List.mem_singleton] at isLast
      obtain ⟨bound, member, isBound⟩ := List.mem_map.1 member
      obtain ⟨name, isUsed, isName⟩ := inUse bound member
      rw [isBound, same, isLast] at isName
      rw [oneToOne isName] at isUsed
      exact takes.fresh isUsed

end Binds

/-! ### The extraction -/

theorem run_bindAggregate (context : Context) (aggregate : Expression)
    (found : List BoundAggregate) (supply : NameSupply) :
    ∃ after later,
      (context.bindAggregate aggregate).run found supply
        = .ok (aggregate.orVariable later, later) after
      ∧ context.Binds supply found [aggregate] after later := by
  by_cases holds : Holds found aggregate
  · obtain ⟨bound, _, _, isFound⟩ := holds.exists_find?
    refine ⟨supply, found, ?_, .known holds (.done _ _)⟩
    rw [bindAggregate, StateT.run_bind, StateT.run_get, pure_bind]
    simp only [Expression.orVariable, isFound]
    rfl
  · have isFound := find?_eq_none_of_not_holds holds
    refine ⟨_, _, ?_, .new holds (.done _ _)⟩
    rw [bindAggregate, StateT.run_bind, StateT.run_get, pure_bind]
    simp only [Expression.orVariable, List.find?_append, isFound]
    simp
    rfl

mutual

/-- Taking the aggregates out of an expression binds them and leaves the expression with their
variables. -/
theorem run_replaceAggregates (context : Context) : ∀ (expression : Expression)
    (found : List BoundAggregate) (supply : NameSupply), ∃ after later,
    (context.replaceAggregates expression).run found supply
      = .ok (expression.grouped later, later) after
    ∧ context.Binds supply found expression.ownAggregates after later
  | .term _, found, supply => ⟨supply, found, rfl, .done _ _⟩
  | .call callee arguments, found, supply => by
    obtain ⟨after, later, run, binds⟩ := run_replaceAllAggregates context arguments found supply
    refine ⟨after, later, ?_, binds⟩
    rw [replaceAggregates, StateT.run_bind, Lowering.bind_ok run]
    rfl
  | .aggregate name argument distinct separator, found, supply =>
    run_bindAggregate context (.aggregate name argument distinct separator) found supply
  | .existence .., found, supply => ⟨supply, found, rfl, .done _ _⟩
  | .wildcard, found, supply => ⟨supply, found, rfl, .done _ _⟩

theorem run_replaceAllAggregates (context : Context) : ∀ (expressions : List Expression)
    (found : List BoundAggregate) (supply : NameSupply), ∃ after later,
    (context.replaceAllAggregates expressions).run found supply
      = .ok (Expression.allGrouped later expressions, later) after
    ∧ context.Binds supply found (Expression.allOwnAggregates expressions) after later
  | [], found, supply => ⟨supply, found, rfl, .done _ _⟩
  | expression :: rest, found, supply => by
    obtain ⟨between, middle, first, binds⟩ := run_replaceAggregates context expression found supply
    obtain ⟨after, later, others, bindsRest⟩ := run_replaceAllAggregates context rest middle between
    refine ⟨after, later, ?_, binds.append bindsRest⟩
    rw [replaceAllAggregates, StateT.run_bind, Lowering.bind_ok first, StateT.run_bind,
      Lowering.bind_ok others, Expression.allGrouped,
      Expression.grouped_mono bindsRest.isEarlier expression binds.holds]
    rfl

end

theorem extractAggregates_of_fits (context : Context) (fits : expression.FitsExtraction) :
    context.extractAggregates expression = context.replaceAggregates expression := by
  rw [extractAggregates, fits]
  rfl

/-- The aggregates of an expression that fits are taken out. -/
theorem exists_run_extractAggregates (context : Context) (fits : expression.FitsExtraction)
    (found : List BoundAggregate) (supply : NameSupply) : ∃ after later,
    (context.extractAggregates expression).run found supply
      = .ok (expression.grouped later, later) after := by
  obtain ⟨after, later, run, _⟩ := run_replaceAggregates context expression found supply
  rw [extractAggregates_of_fits context fits]
  exact ⟨after, later, run⟩

/-- What the extraction does when it succeeds. -/
theorem run_extractAggregates
    (run : (context.extractAggregates expression).run found supply = .ok (result, later) after) :
    result = expression.grouped later
      ∧ context.Binds supply found expression.ownAggregates after later := by
  obtain ⟨last, found', replaced, binds⟩ := run_replaceAggregates context expression found supply
  cases fits : (Node.expression expression).checkFits fun kind =>
    if kind = .aggregateExpression ∨ kind = .existenceExpression then .leave else .descend with
  | ok =>
    rw [extractAggregates, fits] at run
    cases run.symm.trans replaced
    exact ⟨rfl, binds⟩
  | error error =>
    rw [extractAggregates, fits] at run
    cases run

/-! ### Expressions that go through the extraction one after another -/

/-- Expressions go through the extraction one after another with one list of bound aggregates.
Other names may be taken from the supply before each. -/
inductive Extracts (context : Context) : NameSupply → List BoundAggregate →
    List (Expression × Expression) → NameSupply → List BoundAggregate → Prop
  | done {supply after : NameSupply} (found : List BoundAggregate) :
    supply.Gives after → Extracts context supply found [] after found
  | next {supply before between after : NameSupply} {found middle later : List BoundAggregate}
      {expression result : Expression} {pairs : List (Expression × Expression)} :
    supply.Gives before →
    (context.extractAggregates expression).run found before = .ok (result, middle) between →
    Extracts context between middle pairs after later →
    Extracts context supply found ((expression, result) :: pairs) after later

namespace Extracts

variable {pairs rest : List (Expression × Expression)}

/-- Going through the extraction binds the aggregates of all expressions, and the final list of
bound aggregates tells what is left of each. -/
theorem binds (extracts : context.Extracts supply found pairs after later) :
    context.Binds supply found (pairs.flatMap (·.1.ownAggregates)) after later
      ∧ ∀ pair ∈ pairs, pair.2 = pair.1.grouped later := by
  induction extracts with
  | done found gives => exact ⟨.of_gives gives, List.forall_mem_nil _⟩
  | next gives run _ ih =>
    obtain ⟨bindsRest, ofRest⟩ := ih
    obtain ⟨isLeft, binds⟩ := run_extractAggregates run
    refine ⟨(Binds.of_gives gives).append (binds.append bindsRest), ?_⟩
    refine List.forall_mem_cons.2 ⟨?_, ofRest⟩
    exact isLeft.trans (Expression.grouped_mono bindsRest.isEarlier _ binds.holds)

theorem of_gives (gives : supply.Gives between)
    (extracts : context.Extracts between found pairs after later) :
    context.Extracts supply found pairs after later := by
  cases extracts with
  | done found more => exact .done found (gives.trans more)
  | next more run extracts => exact .next (gives.trans more) run extracts

theorem append (first : context.Extracts supply found pairs between middle)
    (second : context.Extracts between middle rest after later) :
    context.Extracts supply found (pairs ++ rest) after later := by
  induction first with
  | done found gives => exact .of_gives gives second
  | next gives run _ ih => exact .next gives run (ih second)

/-- What goes through the extraction first does so on its own. -/
theorem of_append (extracts : context.Extracts supply found (pairs ++ rest) after later) :
    ∃ between middle, context.Extracts supply found pairs between middle
      ∧ context.Extracts between middle rest after later := by
  induction pairs generalizing supply found with
  | nil => exact ⟨supply, found, .done found (.refl supply), extracts⟩
  | cons pair others ih =>
    cases extracts with
    | next gives run extracts =>
      obtain ⟨between, middle, first, second⟩ := ih extracts
      exact ⟨between, middle, .next gives run first, second⟩

end Extracts

/-- Expressions that fit can go through the extraction. -/
theorem exists_extracts (context : Context) {expressions : List Expression}
    (fit : ∀ expression ∈ expressions, expression.FitsExtraction) (found : List BoundAggregate)
    (supply : NameSupply) : ∃ pairs after later,
    pairs.map (·.1) = expressions ∧ context.Extracts supply found pairs after later := by
  induction expressions generalizing found supply with
  | nil => exact ⟨[], supply, found, rfl, .done found (.refl supply)⟩
  | cons expression rest ih =>
    obtain ⟨fits, others⟩ := List.forall_mem_cons.1 fit
    obtain ⟨between, middle, run⟩ := exists_run_extractAggregates context fits found supply
    obtain ⟨pairs, after, later, same, extracts⟩ := ih others middle between
    exact ⟨(expression, _) :: pairs, after, later, congrArg (expression :: ·) same,
      .next (.refl supply) run extracts⟩

/-! ### The clauses of a query -/

section

variable {guarantee : Guarantee} {α : Type} {value : α}

/-- An expression is read, and its aggregates are taken out, before a clause goes on. -/
private theorem of_clause (suits : context.Suits guarantee) {written : Surface.Expression}
    (covers : supply.Covers written.names) (meets : written.Meets guarantee.demands)
    {next : Expression → Extracting α}
    (run : (do
      let value ← context.expression written
      let value ← context.extractAggregates value
      next value : Extracting α).run found supply = .ok (value, later) after) :
    ∃ expression before result between middle, supply.Gives between ∧ supply.Gives before
      ∧ (context.extractAggregates expression).run found before = .ok (result, middle) between
      ∧ (next result).run middle between = .ok (value, later) after := by
  have behaves := behaves_expression suits written covers meets
  rw [StateT.run_bind] at run
  obtain ⟨⟨expression, _⟩, before, isRead, run⟩ := Lowering.of_bind_ok run
  obtain ⟨_, _, read, same⟩ := Lowering.of_bind_ok isRead
  cases same
  have read : context.expression written supply = .ok expression before := read
  unfold Lowering.Behaves at behaves
  rw [read] at behaves
  rw [StateT.run_bind] at run
  obtain ⟨⟨result, middle⟩, between, extracted, run⟩ := Lowering.of_bind_ok run
  have more := (run_extractAggregates extracted).2.gives
  exact ⟨expression, before, result, between, middle, behaves.1.trans more, behaves.1, extracted, run⟩

/-- The values of a projection go through the extraction. -/
theorem extracts_selectItems (suits : context.Suits guarantee) {after : NameSupply}
    {later : List BoundAggregate} :
    ∀ {items : List Surface.SelectItem} {supply : NameSupply} {found : List BoundAggregate}
      {selected : List (Variable × Option Expression)},
    supply.Covers (Surface.SelectItem.namesOfAll items) →
    Surface.SelectItem.allMeet guarantee.demands items →
    (context.selectItems items).run found supply = .ok (selected, later) after →
    ∃ pairs, context.Extracts supply found pairs after later
      ∧ selected.filterMap (·.2) = pairs.map (·.2)
  | [], supply, found, selected, _, _, run => by
    cases run
    exact ⟨[], .done _ (.refl _), rfl⟩
  | .var name :: rest, supply, found, selected, covers, meets, run => by
    simp only [Surface.SelectItem.namesOfAll, NameSupply.covers_and] at covers
    rw [selectItems, StateT.run_bind] at run
    obtain ⟨⟨others, _⟩, _, ofRest, run⟩ := Lowering.of_bind_ok run
    cases run
    obtain ⟨pairs, extracts, same⟩ := extracts_selectItems suits covers.2 meets ofRest
    exact ⟨pairs, extracts, same⟩
  | .computed written name :: rest, supply, found, selected, covers, meets, run => by
    simp only [Surface.SelectItem.namesOfAll, NameSupply.covers_and] at covers
    rw [selectItems] at run
    obtain ⟨expression, before, result, between, middle, gives, first, extracted, run⟩ :=
      of_clause suits covers.1.1 meets.1 run
    rw [StateT.run_bind] at run
    obtain ⟨⟨others, _⟩, _, ofRest, run⟩ := Lowering.of_bind_ok run
    cases run
    obtain ⟨pairs, extracts, same⟩ :=
      extracts_selectItems suits (covers.2.mono gives) meets.2 ofRest
    exact ⟨(expression, result) :: pairs, .next first extracted extracts,
      congrArg (result :: ·) same⟩

/-- The conditions of a HAVING clause go through the extraction. -/
theorem extracts_conditions (suits : context.Suits guarantee) {after : NameSupply}
    {later : List BoundAggregate} :
    ∀ {written : List Surface.Expression} {supply : NameSupply} {found : List BoundAggregate}
      {conditions : List Expression},
    supply.Covers (Surface.Expression.namesOfAll written) →
    Surface.Expression.allMeet guarantee.demands written →
    (context.conditions written).run found supply = .ok (conditions, later) after →
    ∃ pairs, context.Extracts supply found pairs after later ∧ conditions = pairs.map (·.2)
  | [], supply, found, conditions, _, _, run => by
    cases run
    exact ⟨[], .done _ (.refl _), rfl⟩
  | written :: rest, supply, found, conditions, covers, meets, run => by
    simp only [Surface.Expression.namesOfAll, NameSupply.covers_and] at covers
    rw [Context.conditions] at run
    obtain ⟨expression, before, result, between, middle, gives, first, extracted, run⟩ :=
      of_clause suits covers.1 meets.1 run
    rw [StateT.run_bind] at run
    obtain ⟨⟨others, _⟩, _, ofRest, run⟩ := Lowering.of_bind_ok run
    cases run
    obtain ⟨pairs, extracts, same⟩ :=
      extracts_conditions suits (covers.2.mono gives) meets.2 ofRest
    exact ⟨(expression, result) :: pairs, .next first extracted extracts,
      congrArg (result :: ·) same⟩

/-- The computed keys of an order go through the extraction. -/
theorem extracts_orderKeys (suits : context.Suits guarantee) {after : NameSupply}
    {later : List BoundAggregate} :
    ∀ {written : List Surface.OrderKey} {supply : NameSupply} {found : List BoundAggregate}
      {keys : List Expression},
    supply.Covers (Surface.OrderKey.namesOfAll written) →
    Surface.OrderKey.allMeet guarantee.demands written →
    (context.orderKeys written).run found supply = .ok (keys, later) after →
    ∃ pairs, context.Extracts supply found pairs after later
      ∧ ∀ key ∈ keys, ∃ direction, (∃ name, key = orderKey direction (.var name))
        ∨ ∃ pair ∈ pairs, key = orderKey direction pair.2
  | [], supply, found, keys, _, _, run => by
    cases run
    exact ⟨[], .done _ (.refl _), List.forall_mem_nil _⟩
  | .var name direction :: rest, supply, found, keys, covers, meets, run => by
    simp only [Surface.OrderKey.namesOfAll, NameSupply.covers_and] at covers
    rw [orderKeys, StateT.run_bind] at run
    obtain ⟨⟨others, _⟩, _, ofRest, run⟩ := Lowering.of_bind_ok run
    cases run
    obtain ⟨pairs, extracts, ofOthers⟩ := extracts_orderKeys suits covers.2 meets ofRest
    exact ⟨pairs, extracts, List.forall_mem_cons.2 ⟨⟨direction, .inl ⟨_, rfl⟩⟩, ofOthers⟩⟩
  | .computed written direction :: rest, supply, found, keys, covers, meets, run => by
    simp only [Surface.OrderKey.namesOfAll, NameSupply.covers_and] at covers
    rw [orderKeys] at run
    obtain ⟨expression, before, result, between, middle, gives, first, extracted, run⟩ :=
      of_clause suits covers.1 meets.1 run
    rw [StateT.run_bind] at run
    obtain ⟨⟨others, _⟩, _, ofRest, run⟩ := Lowering.of_bind_ok run
    cases run
    obtain ⟨pairs, extracts, ofOthers⟩ :=
      extracts_orderKeys suits (covers.2.mono gives) meets.2 ofRest
    refine ⟨(expression, result) :: pairs, .next first extracted extracts, ?_⟩
    refine List.forall_mem_cons.2 ⟨⟨direction, .inr ⟨_, List.mem_cons_self, rfl⟩⟩, ?_⟩
    intro key member
    obtain ⟨direction, isVar | ⟨pair, isPair, same⟩⟩ := ofOthers key member
    · exact ⟨direction, .inl isVar⟩
    · exact ⟨direction, .inr ⟨pair, List.mem_cons_of_mem _ isPair, same⟩⟩

end

end Context

end QueryAlgebra
