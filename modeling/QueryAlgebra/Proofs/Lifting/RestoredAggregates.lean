import QueryAlgebra.Lifting.Operation
import QueryAlgebra.Proofs.Lowering.ExtractedAggregates
import QueryAlgebra.Proofs.NameMap

/-! # Aggregates that are taken out and written back

The variables that stand for aggregates are written as variables, and putting the written aggregates
in their place gives what is written for the expression before its aggregates were taken out
(`Expression.grouped_writes`). For a whole run of the extraction, `Context.Extracts.restores` says
that nothing gets lost on the way and back.
-/

namespace QueryAlgebra

open BoundAggregate (Holds)

/-! ### What is written, whatever is found -/

namespace Collecting

variable {α β : Type} {step : Collecting α} {value : α} {next : α → Collecting β} {result : β}

/-- What a step results in, whatever is found on the way. -/
def Writes (step : Collecting α) (value : α) : Prop := ∃ found, step.outcome = .ok (value, found)

theorem Writes.unique {other : α} (first : step.Writes value) (second : step.Writes other) :
    value = other := by
  obtain ⟨found, first⟩ := first
  obtain ⟨more, second⟩ := second
  cases first.symm.trans second
  rfl

@[simp] theorem writes_pure {other : α} : (pure other : Collecting α).Writes value ↔ other = value := by
  constructor
  · rintro ⟨_, same⟩
    cases same
    rfl
  · rintro rfl
    exact ⟨[], rfl⟩

@[simp] theorem writes_lift {outcome : Except LiftingError α} :
    (liftM outcome : Collecting α).Writes value ↔ outcome = .ok value := by
  cases outcome with
  | ok other =>
    constructor
    · rintro ⟨_, same⟩
      cases same
      rfl
    · intro same
      cases same
      exact ⟨[], rfl⟩
  | error error => exact ⟨fun ⟨_, same⟩ => (by cases same), fun same => (by cases same)⟩

@[simp] theorem writes_bind :
    (step >>= next).Writes result ↔ ∃ value, step.Writes value ∧ (next value).Writes result := by
  obtain ⟨outcome⟩ := step
  constructor
  · rintro ⟨found, success⟩
    rcases outcome with error | ⟨value, first⟩
    · cases success
    · refine ⟨value, ⟨first, rfl⟩, ?_⟩
      change (after first (next value).outcome).outcome = _ at success
      rcases outcome : (next value).outcome with error | ⟨last, rest⟩
      · rw [outcome] at success
        cases success
      · rw [outcome] at success
        cases success
        exact ⟨rest, outcome⟩
  · rintro ⟨value, ⟨first, same⟩, ⟨rest, success⟩⟩
    cases same
    refine ⟨first ++ rest, ?_⟩
    change (after first (next value).outcome).outcome = _
    rw [success]
    rfl

end Collecting

/-! ### Values in place of variables -/

namespace Surface.Expression

variable (values : NameMap Expression)

private theorem ofSpecial_substituteAll (name : String) (arguments : List Expression) :
    ofSpecial name (substituteAll values arguments)
      = (ofSpecial name arguments).map (substitute values) := by
  unfold ofSpecial
  split
  · rcases arguments with _ | ⟨_, _ | ⟨_, _ | ⟨_, _ | _⟩⟩⟩ <;> rfl
  · split
    · rfl
    · split
      · cases arguments <;> rfl
      · split
        · rfl
        · cases Builtin.ofAnyCase? name <;> rfl

/-- Putting values in place of variables does not change which form of expression an operator is
written as. -/
theorem ofOperator_substituteAll (name : String) (arguments : List Expression) :
    ofOperator name (substituteAll values arguments)
      = (ofOperator name arguments).map (substitute values) := by
  unfold ofOperator
  cases BinaryOp.ofName? name with
  | some op => rcases arguments with _ | ⟨_, _ | ⟨_, _ | _⟩⟩ <;> rfl
  | none =>
    cases UnaryOp.ofName? name with
    | some op => rcases arguments with _ | ⟨_, _ | _⟩ <;> rfl
    | none => exact ofSpecial_substituteAll values name arguments

end Surface.Expression

/-! ### One expression -/

namespace Expression

mutual

/-- The variables of an expression that stand neither in an aggregate nor in a pattern. -/
def ownVariables : Expression → List Variable
  | .term (.var name) => [name]
  | .call _ arguments => allOwnVariables arguments
  | _ => []

/-- The variables of expressions that stand neither in an aggregate nor in a pattern. -/
def allOwnVariables : List Expression → List Variable
  | [] => []
  | expression :: rest => expression.ownVariables ++ allOwnVariables rest

end

/-- Whether an expression can be written. -/
def IsLiftable (expression : Expression) : Prop := ∃ written, expression.written.Writes written

mutual

/-- The aggregates of an expression that can be written can be written themselves. -/
theorem ownAggregates_isLiftable : ∀ {expression : Expression}, expression.IsLiftable →
    ∀ aggregate ∈ expression.ownAggregates, aggregate.IsLiftable
  | .term _, _ => List.forall_mem_nil _
  | .call _ arguments, ⟨written, writes⟩ => by
    rw [Expression.written, Collecting.writes_bind] at writes
    obtain ⟨values, ofArguments, _⟩ := writes
    exact allOwnAggregates_isLiftable ⟨values, ofArguments⟩
  | .aggregate .., liftable => List.forall_mem_singleton.2 liftable
  | .existence .., _ => List.forall_mem_nil _
  | .wildcard, _ => List.forall_mem_nil _

theorem allOwnAggregates_isLiftable : ∀ {expressions : List Expression},
    (∃ written, (Expression.allWritten expressions).Writes written) →
    ∀ aggregate ∈ allOwnAggregates expressions, aggregate.IsLiftable
  | [], _ => List.forall_mem_nil _
  | expression :: rest, ⟨written, writes⟩ => by
    simp only [Expression.allWritten, Collecting.writes_bind] at writes
    obtain ⟨first, ofFirst, others, ofOthers, _⟩ := writes
    exact List.forall_mem_append.2 ⟨ownAggregates_isLiftable ⟨first, ofFirst⟩,
      allOwnAggregates_isLiftable ⟨others, ofOthers⟩⟩

end

/-- Whether values are the written aggregates of a list under their variables. -/
def Restores (values : NameMap Surface.Expression) (found : List BoundAggregate) : Prop :=
  ∀ bound ∈ found, ∀ written, bound.expression.written.Writes written →
    values.find? bound.name.name = some written

section

variable {values : NameMap Surface.Expression} {found : List BoundAggregate}

mutual

/-- What is left of an expression is written so that the aggregates in place of their variables give
the whole expression. -/
theorem grouped_writes (restores : Restores values found) : ∀ {expression : Expression},
    (∀ aggregate ∈ expression.ownAggregates, Holds found aggregate) →
    (∀ name ∈ expression.ownVariables, values.find? name.name = none) →
    ∀ {written}, expression.written.Writes written →
      ∃ result, (expression.grouped found).written.Writes result
        ∧ result.substitute values = written
  | .term value, _, apart, written, writes => by
    refine ⟨written, writes, ?_⟩
    rw [Expression.written, Collecting.writes_lift] at writes
    cases value with
    | var name =>
      cases writes
      rw [Surface.Expression.substitute, apart name (List.mem_singleton_self _)]
      rfl
    | iri | literal => cases writes; rfl
    | blank | defaultGraph | quad => cases writes
  | .call callee arguments, held, apart, written, writes => by
    rw [Expression.written, Collecting.writes_bind] at writes
    obtain ⟨texts, ofArguments, writes⟩ := writes
    obtain ⟨results, ofResults, same⟩ := allGrouped_write restores held apart ofArguments
    simp only [grouped, Expression.written, Collecting.writes_bind]
    cases callee with
    | function name =>
      cases Collecting.writes_pure.1 writes
      exact ⟨_, ⟨results, ofResults, Collecting.writes_pure.2 rfl⟩,
        congrArg (Surface.Expression.call _ · false) same⟩
    | operator name =>
      have isForm := Collecting.writes_lift.1 writes
      rw [← same, Surface.Expression.ofOperator_substituteAll] at isForm
      cases form : Surface.Expression.ofOperator name results with
      | error error => rw [form] at isForm; cases isForm
      | ok result =>
        rw [form] at isForm
        cases isForm
        exact ⟨result, ⟨results, ofResults, Collecting.writes_lift.2 form⟩, rfl⟩
  | .aggregate name argument distinct separator, held, _, written, writes => by
    obtain ⟨bound, member, same, isFound⟩ := (held _ (List.mem_singleton_self _)).exists_find?
    refine ⟨.var bound.name, ?_, ?_⟩
    · rw [grouped, orVariable, isFound]
      exact ⟨[], rfl⟩
    · rw [Surface.Expression.substitute, restores bound member written (same ▸ writes)]
      rfl
  | .existence negated input, _, _, written, writes => by
    refine ⟨written, writes, ?_⟩
    rw [Expression.written, Collecting.writes_bind] at writes
    obtain ⟨elements, _, writes⟩ := writes
    cases Collecting.writes_pure.1 writes
    rfl
  | .wildcard, _, _, _, writes => by
    obtain ⟨_, failure⟩ := writes
    cases failure

theorem allGrouped_write (restores : Restores values found) : ∀ {expressions : List Expression},
    (∀ aggregate ∈ allOwnAggregates expressions, Holds found aggregate) →
    (∀ name ∈ allOwnVariables expressions, values.find? name.name = none) →
    ∀ {written}, (Expression.allWritten expressions).Writes written →
      ∃ results, (Expression.allWritten (allGrouped found expressions)).Writes results
        ∧ Surface.Expression.substituteAll values results = written
  | [], _, _, written, writes => by
    cases Collecting.writes_pure.1 writes
    exact ⟨[], Collecting.writes_pure.2 rfl, rfl⟩
  | expression :: rest, held, apart, written, writes => by
    simp only [Expression.allWritten, Collecting.writes_bind] at writes
    obtain ⟨first, ofFirst, others, ofOthers, writes⟩ := writes
    cases Collecting.writes_pure.1 writes
    obtain ⟨heldFirst, heldRest⟩ := List.forall_mem_append.1 held
    obtain ⟨apartFirst, apartRest⟩ := List.forall_mem_append.1 apart
    obtain ⟨result, ofResult, same⟩ := grouped_writes restores heldFirst apartFirst ofFirst
    obtain ⟨results, ofResults, sameRest⟩ := allGrouped_write restores heldRest apartRest ofOthers
    refine ⟨result :: results, ?_, ?_⟩
    · simp only [allGrouped, Expression.allWritten, Collecting.writes_bind]
      exact ⟨result, ofResult, results, ofResults, Collecting.writes_pure.2 rfl⟩
    · rw [Surface.Expression.substituteAll, same, sameRest]

end

end

end Expression

/-! ### The written aggregates -/

theorem Found.aggregates_allFound (found : List BoundAggregate) :
    Found.aggregates (BoundAggregate.allFound found)
      = found.map fun bound => (bound.name, bound.expression.written) := by
  induction found with
  | nil => rfl
  | cons bound rest ih =>
    obtain ⟨name, expression⟩ := bound
    exact congrArg ((name, expression.written) :: ·) ih

/-- Aggregates that can be written are written, each under its variable. -/
theorem Found.exists_writtenAggregates {found : List BoundAggregate}
    (liftable : ∀ bound ∈ found, bound.expression.IsLiftable) :
    ∃ entries,
      (Found.writtenAggregates (Found.aggregates (BoundAggregate.allFound found))).Writes entries
      ∧ entries.map (·.1) = found.map (·.name.name)
      ∧ ∀ bound ∈ found, ∀ written, bound.expression.written.Writes written →
        (bound.name.name, written) ∈ entries := by
  rw [Found.aggregates_allFound]
  induction found with
  | nil => exact ⟨[], Collecting.writes_pure.2 rfl, rfl, List.forall_mem_nil _⟩
  | cons bound rest ih =>
    obtain ⟨⟨value, ofValue⟩, others⟩ := List.forall_mem_cons.1 liftable
    obtain ⟨entries, ofEntries, names, members⟩ := ih others
    refine ⟨(bound.name.name, value) :: entries, ?_, congrArg (bound.name.name :: ·) names, ?_⟩
    · simp only [List.map_cons, Found.writtenAggregates, Collecting.writes_bind]
      exact ⟨value, ofValue, entries, ofEntries, Collecting.writes_pure.2 rfl⟩
    · refine List.forall_mem_cons.2 ⟨fun written writes => ?_, fun other member written writes =>
        List.mem_cons_of_mem _ (members other member written writes)⟩
      rw [writes.unique ofValue]
      exact List.mem_cons_self

/-! ### A run of the extraction -/

namespace Context.Extracts

variable {context : Context} {supply after : NameSupply} {found : List BoundAggregate}
  {pairs : List (Expression × Expression)}

/-- Expressions go through the extraction with one list of bound aggregates, in a context in which
the names of their variables are in use; those in aggregates and patterns do not matter.

No aggregate is left in what becomes of them, except in what EXISTS asks about. No two bound
aggregates are equal or share a variable, and their variables stand for names that were not in use.
Whatever fits goes through next, and what is bound stays bound as it is. When the aggregates are
written in place of their variables, each expression is written as it was to begin with. -/
theorem restores (oneToOne : Function.Injective context.factory.var)
    (extracts : context.Extracts supply [] pairs after found)
    (inUse : ∀ pair ∈ pairs, ∀ name ∈ pair.1.ownVariables,
      ∃ used, supply.Has (.var used) ∧ context.factory.var used = name)
    (liftable : ∀ pair ∈ pairs, pair.1.IsLiftable) :
    (∀ pair ∈ pairs, pair.2.isRowwise = true)
      ∧ (found.map (·.expression)).Nodup ∧ (found.map (·.name)).Nodup
      ∧ (∀ bound ∈ found, ∀ used, supply.Has (.var used) → context.factory.var used ≠ bound.name)
      ∧ (∀ expression, expression.FitsExtraction → ∃ result last later,
        (context.extractAggregates expression).run found after = .ok (result, later) last)
      ∧ (∀ more last later, context.Extracts after found more last later → found <+: later)
      ∧ ∃ entries,
        (Found.writtenAggregates (Found.aggregates (BoundAggregate.allFound found))).Writes entries
        ∧ ∀ pair ∈ pairs, ∀ written, pair.1.written.Writes written →
          ∃ result, pair.2.written.Writes result
            ∧ result.substitute (.ofList entries) = written := by
  obtain ⟨binds, isLeft⟩ := extracts.binds
  have held : ∀ pair ∈ pairs, ∀ aggregate ∈ pair.1.ownAggregates, Holds found aggregate :=
    fun pair member aggregate isOwn =>
      binds.holds aggregate (List.mem_flatMap.2 ⟨pair, member, isOwn⟩)
  have names : (found.map (·.name)).Nodup :=
    binds.nodup_names oneToOne (List.forall_mem_nil _) List.nodup_nil
  have fresh : ∀ bound ∈ found, ∀ used, supply.Has (.var used) →
      context.factory.var used ≠ bound.name := by
    intro bound member used isUsed same
    obtain ⟨name, free, isName⟩ := (binds.fresh bound member).resolve_left List.not_mem_nil
    exact free (oneToOne (isName.trans same.symm) ▸ isUsed)
  refine ⟨fun pair member => ?_, binds.nodup_expressions List.nodup_nil, names, fresh, ?_, ?_, ?_⟩
  · rw [isLeft pair member]
    exact Expression.isRowwise_grouped pair.1 (held pair member)
  · intro expression fits
    obtain ⟨last, later, run⟩ := exists_run_extractAggregates context fits found after
    exact ⟨_, last, later, run⟩
  · exact fun _ _ _ further => further.binds.1.isEarlier
  · have ofFound : ∀ bound ∈ found, bound.expression.IsLiftable := by
      intro bound member
      have isOwn := (binds.mem_or_mem bound member).resolve_left List.not_mem_nil
      obtain ⟨pair, isPair, isOwn⟩ := List.mem_flatMap.1 isOwn
      exact Expression.ownAggregates_isLiftable (liftable pair isPair) _ isOwn
    obtain ⟨entries, ofEntries, keys, members⟩ := Found.exists_writtenAggregates ofFound
    have distinct : (entries.map (·.1)).Nodup := by
      have injective : Function.Injective Variable.name := fun ⟨_⟩ ⟨_⟩ same => congrArg _ same
      have texts := names.map injective
      rw [List.map_map] at texts
      rw [keys]
      exact texts
    refine ⟨entries, ofEntries, fun pair member written writes => ?_⟩
    rw [isLeft pair member]
    refine Expression.grouped_writes ?_ (held pair member) ?_ writes
    · intro bound isBound text ofText
      exact (NameMap.find?_ofList distinct _ _).2 (members bound isBound text ofText)
    · intro name isOwn
      obtain ⟨used, isUsed, same⟩ := inUse pair member name isOwn
      by_contra found?
      obtain ⟨value, isFound⟩ := Option.ne_none_iff_exists'.1 found?
      have isKey : name.name ∈ entries.map (·.1) :=
        List.mem_map.2 ⟨_, (NameMap.find?_ofList distinct _ _).1 isFound, rfl⟩
      rw [keys] at isKey
      obtain ⟨bound, isBound, sameName⟩ := List.mem_map.1 isKey
      exact fresh bound isBound used isUsed (same.trans (congrArg Variable.mk sameName).symm)

/-- `COUNT(*)` and then `COUNT(*) > ?x`, with the first numbered variable in use. -/
theorem restores_sharedCount :
    let context : Context := ⟨.plain, false, .empty, none⟩
    let supply : NameSupply := ⟨["x", "var0"], [], 0, 0⟩
    let count : Expression := .aggregate "count" .wildcard false none
    let found : List BoundAggregate := [⟨⟨"var1"⟩, count⟩]
    let pairs : List (Expression × Expression) :=
      [(count, .var ⟨"var1"⟩),
        (.operator ">" [count, .var ⟨"x"⟩], .operator ">" [.var ⟨"var1"⟩, .var ⟨"x"⟩])]
    (∃ after, context.Extracts supply [] pairs after found)
      ∧ ∃ entries,
        (Found.writtenAggregates (Found.aggregates (BoundAggregate.allFound found))).Writes entries
        ∧ ∀ pair ∈ pairs, ∀ written, pair.1.written.Writes written →
          ∃ result, pair.2.written.Writes result
            ∧ result.substitute (.ofList entries) = written := by
  intro context supply count found pairs
  let after : NameSupply := ⟨["var1", "x", "var0"], [], 2, 0⟩
  have taken : supply.takeVariable = ("var1", after) := by
    rw [NameSupply.takeVariable, firstFree, if_pos (by decide), firstFree, if_neg (by decide)]
    decide
  have ofCount : (context.extractAggregates count).run [] supply
      = .ok (.var ⟨"var1"⟩, found) after := by
    rw [extractAggregates_of_fits context (if_pos (by decide +kernel))]
    change EStateM.Result.ok (Expression.var ⟨supply.takeVariable.1⟩,
      ([⟨⟨supply.takeVariable.1⟩, count⟩] : List BoundAggregate)) supply.takeVariable.2 = _
    rw [taken]
  have ofComparison : (context.extractAggregates (.operator ">" [count, .var ⟨"x"⟩])).run found after
      = .ok (.operator ">" [.var ⟨"var1"⟩, .var ⟨"x"⟩], found) after := by
    rw [extractAggregates_of_fits context (if_pos (by decide +kernel))]
    have isFound : found.find? (·.expression == count) = some ⟨⟨"var1"⟩, count⟩ :=
      List.find?_cons_of_pos (beq_self_eq_true count)
    simp only [Expression.operator, replaceAggregates, replaceAllAggregates, bindAggregate,
      StateT.run_bind, StateT.run_get, pure_bind, bind_assoc, count, isFound]
    rfl
  have extracts : context.Extracts supply [] pairs after found :=
    .next (.refl _) ofCount (.next (.refl _) ofComparison (.done _ (.refl _)))
  have inUse : ∀ pair ∈ pairs, ∀ name ∈ pair.1.ownVariables,
      ∃ used, supply.Has (.var used) ∧ context.factory.var used = name := by
    simp only [pairs, List.forall_mem_cons]
    refine ⟨List.forall_mem_nil _, ?_, List.forall_mem_nil _⟩
    exact List.forall_mem_singleton.2 ⟨"x", List.mem_cons_self, rfl⟩
  have liftable : ∀ pair ∈ pairs, pair.1.IsLiftable := by
    simp only [pairs, List.forall_mem_cons]
    exact ⟨⟨_, [], rfl⟩, ⟨_, [], rfl⟩, List.forall_mem_nil _⟩
  have oneToOne : Function.Injective context.factory.var := fun _ _ => congrArg Variable.name
  obtain ⟨_, _, _, _, _, _, comesBack⟩ := restores oneToOne extracts inUse liftable
  exact ⟨⟨after, extracts⟩, comesBack⟩

end Context.Extracts

end QueryAlgebra
