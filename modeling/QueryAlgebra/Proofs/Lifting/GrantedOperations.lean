import QueryAlgebra.Proofs.Lifting.AccountedVariables

/-! # What is granted of operations

An operation whose IRIs meet demands is written as what meets demands, if it can be written at all,
and what it is written as accounts for the variables that it binds: `Operation.grants_written`. The
induction is over operations and expressions together; the key of an order counts as its value.
-/

namespace QueryAlgebra

open Surface (Demands)
open Surface.Pattern (groupOf inScopeOfAll)

variable {demands : Demands}

theorem Surface.Demands.Admit.operation {operator : Operator} {metadata : Option Metadata} :
    demands.Admit (Operation.iris ⟨operator, metadata⟩)
      ↔ demands.Admit (operator.gather .allIris) ∧ demands.Admit operator.ownIris := append

mutual

theorem Operation.grants_written (calls : ∀ function count, demands.call function count)
    (inForm : Bool) (onWay : List Variable) : ∀ operation : Operation,
    demands.Admit operation.iris → (inForm = true → operation.bound ⊆ onWay) →
    (operation.written inForm).Grants (Lifted.Fits demands onWay operation.bound)
  | ⟨operator, _⟩, admits, binds =>
    have ⟨ofParts, own⟩ := Demands.Admit.operation.1 admits
    Operator.grants_written calls inForm onWay operator ofParts own binds

theorem Operator.grants_written (calls : ∀ function count, demands.call function count)
    (inForm : Bool) (onWay : List Variable) : ∀ operator : Operator,
    demands.Admit (operator.gather .allIris) → demands.Admit operator.ownIris →
    (inForm = true → operator.bound ⊆ onWay) →
    (operator.written inForm).Grants (Lifted.Fits demands onWay operator.bound)
  | .bgp [], _, _, _ => .pure ⟨List.forall_mem_nil _, .own []⟩
  | .bgp (first :: rest), admits, _, _ => by
    rw [Operator.written]
    · refine .bindLift (Pattern.grants_allWritten (Demands.Admit.flatMap.1 admits)).with_source
        fun triples ⟨meet, written⟩ => .pure ⟨List.forall_mem_singleton.2 meet, ?_⟩
      have scope : inScopeOfAll [.bgp triples .none]
          = (first :: rest).flatMap Pattern.listed := by
        rw [inScopeOfAll, inScopeOfAll, List.append_nil, Surface.Pattern.inScope,
          Pattern.vars_allWritten written]
      rw [Lifted.scope, scope]
      exact .own _
    · exact nofun
  | .values vars rows, _, own, _ => by
    rw [Operator.written]
    refine .bindLift (Row.grants_allWritten vars (Row.admit_entries own))
      fun lines meets => .pure ⟨List.forall_mem_singleton.2 meets, ?_⟩
    have scope : inScopeOfAll [.values ⟨vars, lines⟩ .none] = vars := List.append_nil vars
    rw [Lifted.scope, scope]
    exact .own vars
  | .nop, _, _, _ => .pure ⟨List.forall_mem_nil _, .own []⟩
  | .path subject predicate object graph, _, own, _ => by
    obtain ⟨ofPredicate, ofTerms⟩ := Demands.Admit.append.1 own
    rw [Demands.Admit.flatMap, List.forall_mem_cons, List.forall_mem_cons] at ofTerms
    rw [Operator.written]
    split
    · refine .bindLift (Term.grants_written ofTerms.1).with_source
        fun first ⟨meets₁, written₁⟩ => ?_
      refine .bindLift (Path.grants_written predicate ofPredicate) fun verb meets₂ => ?_
      refine .bindLift (Term.grants_written ofTerms.2.1).with_source
        fun last ⟨meets₃, written₃⟩ => .pure ⟨List.forall_mem_singleton.2 ?_, ?_⟩
      · exact List.forall_mem_singleton.2 ⟨meets₁, ⟨nofun, meets₂⟩, meets₃⟩
      · have scope : inScopeOfAll [.bgp [⟨.term first, .path verb, .term last⟩] .none]
            = subject.vars ++ object.vars := by
          rw [← Term.vars_written written₁, ← Term.vars_written written₃]
          simp [inScopeOfAll, Surface.Pattern.inScope, Surface.Triple.vars, Surface.GraphNode.vars,
            Surface.Verb.vars]
        rw [Lifted.scope, scope]
        exact .own _
    · trivial
  | .manage _, _, _, _ => trivial
  | .wrap (.project vars) input, ofInput, _, _ => by
    rw [Operator.written]
    refine .bindLift (Operation.grants_written calls true input.bound input ofInput
      fun _ => List.Subset.refl _).asScope.with_source fun scope ⟨granted, source⟩ => ?_
    obtain ⟨meets, elements, found, made, fit⟩ := granted
    exact .pure ⟨meets.select _ vars, scope.accounts_select source made fit.2 onWay⟩
  | .wrap (.graph name) input, ofInput, own, binds => by
    rw [Operator.written]
    refine .bindLift (Term.grants_writtenVarOrIri
      (Demands.Admit.flatMap.1 own name (List.mem_singleton_self name))).with_source
      fun written ⟨nameMeets, source⟩ => ?_
    refine (Operation.grants_written calls inForm onWay input ofInput fun isForm =>
      (List.append_subset.1 (binds isForm)).2).asElements.map fun elements found fit => ?_
    refine ⟨List.forall_mem_singleton.2
      ⟨nameMeets, Surface.Pattern.meets_groupOf fit.1 false⟩, ?_⟩
    have scope : inScopeOfAll [.graph written (groupOf elements) .none]
        = name.vars ++ inScopeOfAll elements := by
      rw [inScopeOfAll, inScopeOfAll, List.append_nil, Surface.Pattern.inScope,
        Context.inScope_groupOf, Term.vars_writtenVarOrIri source]
    rw [Lifted.scope, scope]
    exact (Found.Accounts.own name.vars).append fit.2
  | .wrap (.service name silent) input, ofInput, own, _ => by
    rw [Operator.written]
    refine .bindLift (Term.grants_writtenVarOrIri
      (Demands.Admit.flatMap.1 own name (List.mem_singleton_self name))).with_source
      fun written ⟨nameMeets, source⟩ => ?_
    refine (Operation.grants_written calls false onWay input ofInput nofun).asElements.map
      fun elements found fit => ?_
    refine ⟨List.forall_mem_singleton.2
      ⟨nameMeets, Surface.Pattern.meets_groupOf fit.1 false⟩, ?_⟩
    have scope : inScopeOfAll [.service silent written (groupOf elements) .none]
        = name.vars ++ inScopeOfAll elements := by
      rw [inScopeOfAll, inScopeOfAll, List.append_nil, Surface.Pattern.inScope,
        Context.inScope_groupOf, Term.vars_writtenVarOrIri source]
    rw [Lifted.scope, scope]
    exact (Found.Accounts.own name.vars).append fit.2
  | .wrap .distinct input, ofInput, _, _ => by
    rw [Operator.written]
    have asked := Operation.grants_written calls false onWay input ofInput nofun
    exact (asked.asQuery "distinct").withDuplicates .distinct "distinct"
  | .wrap .reduced input, ofInput, _, _ => by
    rw [Operator.written]
    have asked := Operation.grants_written calls false onWay input ofInput nofun
    exact (asked.asQuery "reduced").withDuplicates .reduced "reduced"
  | .wrap (.slice start length) input, ofInput, _, _ => by
    rw [Operator.written]
    refine ((Operation.grants_written calls false onWay input ofInput nofun).asQuery "slice").map
      fun asked found fits => ⟨Surface.Query.Meets.sliced fits.1 start length, ?_⟩
    rw [Lifted.scope_mapModifiers]
    exact fits.2
  | .wrap (.dataset default named) input, ofInput, own, _ => by
    rw [Operator.written]
    refine ((Operation.grants_written calls false onWay input ofInput nofun).asQuery "from").map
      fun asked found fits => ⟨Surface.Query.Meets.withDataset fits.1
        (Surface.Dataset.meets_of_admit own), ?_⟩
    rw [Lifted.scope_withDataset]
    exact fits.2
  | .wrap .ask input, ofInput, _, _ => by
    rw [Operator.written]
    exact .bindLift (Operation.grants_written calls true input.bound input ofInput
      fun _ => List.Subset.refl _).asScope fun scope granted => .pure ⟨granted.1.ask, .own []⟩
  | .wrap (.describe terms) input, ofInput, own, _ => by
    rw [Operator.written]
    refine .bindLift (Operation.grants_written calls true input.bound input ofInput
      fun _ => List.Subset.refl _).asScope fun scope granted => ?_
    exact .bindLift (Operation.grants_describeTarget input (Demands.Admit.flatMap.1 own))
      fun target ofTarget => .pure ⟨granted.1.describe ofTarget, .own []⟩
  | .filter input condition, admits, _, _ => by
    obtain ⟨ofInput, ofCondition⟩ := Demands.Admit.append.1 admits
    rw [Operator.written]
    refine (Operation.grants_written calls false onWay input ofInput nofun).asElements.bind
      fun elements found fit => ?_
    refine (Expression.grants_written calls condition ofCondition).1.map
      fun condition more granted => ⟨List.forall_mem_singleton.2 ?_, ?_⟩
    · exact Surface.Pattern.allMeet_iff.2
        (List.forall_mem_append.2 ⟨fit.1, List.forall_mem_singleton.2 ⟨nofun, granted.1⟩⟩)
    · have scope : inScopeOfAll [.group (elements ++ [.filter condition .none]) .none]
          = inScopeOfAll elements := by
        simp [inScopeOfAll, Surface.Pattern.inScope, Context.inScopeOfAll_append]
      rw [Lifted.scope, scope]
      exact fit.2.besides granted.2.of_nil
  | .extend input name value, admits, _, binds => by
    obtain ⟨ofInput, ofValue⟩ := Demands.Admit.append.1 admits
    have ofValue := (Expression.grants_written calls value ofValue).1
    rw [Operator.written]
    cases inForm with
    | true =>
      obtain ⟨wide, last⟩ := List.append_subset.1 (binds rfl)
      obtain ⟨meets, inside⟩ := ofValue.stored
      rw [if_pos rfl]
      refine .note ((Operation.grants_written calls true onWay input ofInput fun _ => wide).imp
        fun lifted found fits => ⟨fits.1, ?_⟩)
      refine fits.2.noted ⟨List.forall_mem_singleton.2 (.extension name meets inside), ?_⟩
      intro other value member
      cases List.mem_singleton.1 member
      exact last (List.mem_singleton_self name)
    | false =>
      refine (Operation.grants_written calls false onWay input ofInput nofun).asElements.bind
        fun elements found fit => ?_
      refine ofValue.map fun value more granted =>
        ⟨List.forall_mem_append.2 ⟨fit.1, List.forall_mem_singleton.2 ⟨nofun, granted.1⟩⟩, ?_⟩
      have scope : inScopeOfAll (elements ++ [.bind value name .none])
          = inScopeOfAll elements ++ [name] := by
        simp [inScopeOfAll, Surface.Pattern.inScope, Context.inScopeOfAll_append]
      rw [Lifted.scope, scope]
      exact (fit.2.and_own [name]).besides granted.2.of_nil
  | .group input keys aggregates, admits, _, _ => by
    obtain ⟨ofInput, ofAggregates⟩ := Demands.Admit.append.1 admits
    obtain ⟨values, names⟩ := Found.granted_allFound
      (BoundAggregate.allGrant calls aggregates ofAggregates)
    rw [Operator.written]
    refine .note ((Operation.grants_written calls false onWay input ofInput nofun).imp
      fun lifted found fits => ⟨fits.1, ?_⟩)
    have ofKeys : Found.AllGranted demands [] (keys.map Found.groupKey)
        ∧ Found.names (keys.map Found.groupKey) = keys := Found.granted_groupKeys keys
    have accounts := fits.2.noted (ofKeys.1.append values).of_nil
    rwa [Found.names_append, ofKeys.2, names] at accounts
  | .orderBy input keys, admits, _, binds => by
    obtain ⟨ofInput, ofKeys⟩ := Demands.Admit.append.1 admits
    rw [Operator.written]
    refine .note ((Operation.grants_written calls inForm onWay input ofInput binds).imp
      fun lifted found fits => ⟨fits.1, fits.2.preceded ?_⟩)
    exact (Found.granted_allOrderKeys fun key member =>
      (Expression.allGrant calls keys ofKeys key member).2).of_nil
  | .construct input template, admits, _, _ => by
    obtain ⟨ofInput, ofTemplate⟩ := Demands.Admit.append.1 admits
    rw [Operator.written]
    refine .bindLift (Operation.grants_written calls true input.bound input ofInput
      fun _ => List.Subset.refl _).asScope fun scope granted => ?_
    exact .bindLift (Pattern.grants_writtenTemplate (Demands.Admit.flatMap.1 ofTemplate))
      fun triples meet => .pure ⟨granted.1.construct meet, .own []⟩
  | .combine .join inputs, admits, _, _ => by
    rw [Operator.written]
    refine (Operation.grants_allElements calls onWay inputs admits).map
      fun parts found ⟨meet, accounts⟩ => ⟨Surface.Pattern.meet_mergeTriples ?_, ?_⟩
    · intro pattern member
      obtain ⟨part, isPart, inPart⟩ := List.mem_flatten.1 member
      exact meet part isPart pattern inPart
    · rw [Lifted.scope, Context.inScopeOfAll_mergeTriples, Surface.Pattern.inScopeOfAll_flatten]
      exact accounts
  | .combine .union inputs, admits, _, _ => by
    rw [Operator.written]
    refine (Operation.grants_allElements calls onWay inputs admits).map
      fun parts found ⟨meet, accounts⟩ => ⟨Surface.Pattern.meet_unionOf ?_, ?_⟩
    · intro pattern member
      obtain ⟨part, isPart, rfl⟩ := List.mem_map.1 member
      exact Surface.Pattern.meets_groupOf (meet part isPart)
    · rw [Lifted.scope, Surface.Pattern.inScopeOfAll_unionOf,
        Surface.Pattern.inScopeOfAll_map_groupOf]
      exact accounts
  | .combine .updates _, _, _, _ => trivial
  | .leftJoin left right none, admits, _, _ => by
    obtain ⟨ofLeft, ofRight⟩ := Demands.Admit.append.1 admits
    rw [Operator.written, Expression.optionalFilter]
    exact .leftJoin (Operation.grants_written calls false onWay left ofLeft nofun).asElements
      (Operation.grants_written calls false onWay right ofRight nofun).asElements
      (.pure ⟨List.forall_mem_nil _, rfl, .nil⟩)
  | .leftJoin left right (some condition), admits, _, _ => by
    obtain ⟨ofSides, ofCondition⟩ := Demands.Admit.append.1 admits
    obtain ⟨ofLeft, ofRight⟩ := Demands.Admit.append.1 ofSides
    rw [Operator.written, Expression.optionalFilter]
    exact .leftJoin (Operation.grants_written calls false onWay left ofLeft nofun).asElements
      (Operation.grants_written calls false onWay right ofRight nofun).asElements
      ((Expression.grants_written calls condition ofCondition).1.map fun condition more granted =>
        ⟨List.forall_mem_singleton.2 ⟨nofun, granted.1⟩, rfl, granted.2⟩)
  | .minus left right, admits, _, _ => by
    obtain ⟨ofLeft, ofRight⟩ := Demands.Admit.append.1 admits
    rw [Operator.written]
    refine (Operation.grants_written calls false onWay left ofLeft nofun).asElements.bind
      fun elements found fit => ?_
    refine (Operation.grants_written calls false onWay right ofRight nofun).asElements.map
      fun removed more fit' => ⟨List.forall_mem_append.2 ⟨fit.1, List.forall_mem_singleton.2
        ⟨nofun, Surface.Pattern.meets_groupOf fit'.1 false⟩⟩, ?_⟩
    have scope : inScopeOfAll (elements ++ [.minus (groupOf removed) .none])
        = inScopeOfAll elements := by
      simp [inScopeOfAll, Surface.Pattern.inScope, Context.inScopeOfAll_append]
    rw [Lifted.scope, scope]
    exact fit.2.besides fit'.2.granted
  | .deleteInsert .., _, _, _ => trivial

theorem Operation.grants_allElements (calls : ∀ function count, demands.call function count)
    (onWay : List Variable) : ∀ operations : List Operation,
    demands.Admit (Operation.gatherAll .allIris operations) →
    (Operation.allElements operations).Grants fun parts found =>
      (∀ part ∈ parts, ∀ pattern ∈ part, pattern.Meets demands true)
        ∧ Found.Accounts demands onWay (Operation.allBound operations)
          (parts.flatMap inScopeOfAll) found
  | [], _ => .pure ⟨List.forall_mem_nil _, .own []⟩
  | operation :: rest, admits => by
    obtain ⟨first, others⟩ := Demands.Admit.append.1 admits
    rw [Operation.allElements]
    refine (Operation.grants_written calls false onWay operation first nofun).asElements.bind
      fun elements found fit => ?_
    exact (Operation.grants_allElements calls onWay rest others).map
      fun parts more ⟨meet, accounts⟩ => ⟨List.forall_mem_cons.2 ⟨fit.1, meet⟩, fit.2.append accounts⟩

theorem Expression.grants_written (calls : ∀ function count, demands.call function count) :
    ∀ expression : Expression, demands.Admit expression.iris →
    expression.written.Grants (Surface.Expression.Granted demands)
      ∧ expression.keyValue.written.Grants (Surface.Expression.Granted demands)
  | .term value, admits => by
    have own : (Expression.term value).written.Grants (Surface.Expression.Granted demands) := by
      rw [Expression.written]
      exact .lift (Term.grants_writtenExpression admits) fun _ meets => ⟨meets, .nil⟩
    exact ⟨own, by rwa [Expression.keyValue]; exact nofun⟩
  | .call callee arguments, admits => by
    obtain ⟨ofArguments, ofCallee⟩ := Demands.Admit.append.1 admits
    have allGrant := Expression.allGrant calls arguments ofArguments
    have own : (Expression.call callee arguments).written.Grants
        (Surface.Expression.Granted demands) := by
      rw [Expression.written]
      refine (Expression.grants_allWritten fun argument member => (allGrant argument member).1).bind
        fun values found ⟨meet, granted⟩ => ?_
      cases callee with
      | operator name =>
        refine .lift (Surface.Expression.grants_ofOperator calls name meet) fun value meets => ?_
        rw [List.append_nil]
        exact ⟨meets, granted⟩
      | function name =>
        refine .pure ?_
        rw [List.append_nil]
        exact ⟨⟨ofCallee name (List.mem_singleton_self name),
          Surface.Expression.allMeet_iff.2 meet⟩, granted⟩
    refine ⟨own, ?_⟩
    unfold Expression.keyValue
    split
    · rename_i argument same
      cases same
      exact (allGrant argument (List.mem_singleton_self argument)).1
    · exact own
  | .aggregate name argument distinct separator, admits => by
    obtain ⟨ofArgument, _⟩ := Demands.Admit.append.1 admits
    have own : (Expression.aggregate name argument distinct separator).written.Grants
        (Surface.Expression.Granted demands) := by
      rw [Expression.written]
      refine .bindLift .any fun function _ => ?_
      split
      · exact .pure ⟨trivial, .nil⟩
      · exact (Expression.grants_written calls argument ofArgument).1.map fun _ _ granted => granted
    exact ⟨own, by rwa [Expression.keyValue]; exact nofun⟩
  | .existence negated input, admits => by
    obtain ⟨ofInput, _⟩ := Demands.Admit.append.1 admits
    have own : (Expression.existence negated input).written.Grants
        (Surface.Expression.Granted demands) := by
      rw [Expression.written]
      exact (Operation.grants_written calls false [] input ofInput nofun).asElements.map
        fun elements found fit =>
          ⟨Surface.Pattern.meets_groupOf fit.1 false, fit.2.granted⟩
    exact ⟨own, by rwa [Expression.keyValue]; exact nofun⟩
  | .wildcard, _ => ⟨trivial, trivial⟩

theorem Expression.allGrant (calls : ∀ function count, demands.call function count) :
    ∀ expressions : List Expression, demands.Admit (Expression.gatherAll .allIris expressions) →
    ∀ expression ∈ expressions,
      expression.written.Grants (Surface.Expression.Granted demands)
        ∧ expression.keyValue.written.Grants (Surface.Expression.Granted demands)
  | [], _ => List.forall_mem_nil _
  | expression :: rest, admits =>
    have ⟨first, others⟩ := Demands.Admit.append.1 admits
    List.forall_mem_cons.2 ⟨Expression.grants_written calls expression first,
      Expression.allGrant calls rest others⟩

theorem BoundAggregate.allGrant (calls : ∀ function count, demands.call function count) :
    ∀ aggregates : List BoundAggregate,
    demands.Admit (BoundAggregate.gatherAll .allIris aggregates) →
    ∀ bound ∈ aggregates, bound.expression.written.Grants (Surface.Expression.Granted demands)
  | [], _ => List.forall_mem_nil _
  | ⟨_, expression⟩ :: rest, admits =>
    have ⟨first, others⟩ := Demands.Admit.append.1 admits
    List.forall_mem_cons.2 ⟨(Expression.grants_written calls expression first).1,
      BoundAggregate.allGrant calls rest others⟩

end

end QueryAlgebra
