import QueryAlgebra.Lowering.Aggregates
import QueryAlgebra.Proofs.Lowering.AbsoluteTerms
import QueryAlgebra.Proofs.Lowering.BlankVariables
import QueryAlgebra.Proofs.Lowering.WellFormedBlocks

/-! # IRIs in passes over operations

Putting the name of a graph block into an operation brings no IRI but those of the name, and taking
aggregates out of expressions and turning blank nodes into variables bring none: if all IRIs are
absolute before, they are afterwards.
-/

namespace QueryAlgebra

open Lowering (Yields)

/-! ### Graph blocks -/

namespace Embedding

variable {embedding : Embedding}

theorem absolute_substitute (embedding : Embedding) {term : Term}
    (absolute : AllAbsolute term.iris) : AllAbsolute (embedding.substitute term).iris := by
  unfold substitute
  split
  · split
    · exact .var _
    · exact absolute
  · exact absolute

theorem absolute_graph (named : AllAbsolute embedding.name.iris) {graph : Term}
    (absolute : AllAbsolute graph.iris) : AllAbsolute (embedding.graph graph).iris := by
  unfold Embedding.graph
  split
  · exact named
  · exact embedding.absolute_substitute absolute

theorem absolute_pattern (named : AllAbsolute embedding.name.iris) {pattern : Pattern}
    (absolute : AllAbsolute pattern.iris) : AllAbsolute (embedding.pattern pattern).iris := by
  obtain ⟨ofSubject, ofPredicate, ofObject, ofGraph⟩ := AllAbsolute.pattern.1 absolute
  exact AllAbsolute.pattern.2 ⟨embedding.absolute_substitute ofSubject,
    embedding.absolute_substitute ofPredicate, embedding.absolute_substitute ofObject,
    absolute_graph named ofGraph⟩

theorem absolute_patterns (named : AllAbsolute embedding.name.iris) {patterns : List Pattern}
    (absolute : AllAbsolute (patterns.flatMap Pattern.iris)) :
    AllAbsolute ((patterns.map embedding.pattern).flatMap Pattern.iris) :=
  AllAbsolute.flatMap.2 (List.forall_mem_map.2 fun pattern member =>
    absolute_pattern named (AllAbsolute.flatMap.1 absolute pattern member))

theorem absolute_optional (named : AllAbsolute embedding.name.iris)
    {patterns : Option (List Pattern)}
    (absolute : AllAbsolute ((patterns.getD []).flatMap Pattern.iris)) :
    AllAbsolute (((patterns.map (·.map embedding.pattern)).getD []).flatMap Pattern.iris) := by
  cases patterns with
  | none => exact .nil
  | some patterns => exact absolute_patterns named absolute

private theorem absolute_vars {names : List Variable} :
    AllAbsolute ((names.map Term.var).flatMap Term.iris) :=
  AllAbsolute.flatMap.2 (List.forall_mem_map.2 fun name _ => .var name)

theorem absolute_wrapper (embedding : Embedding) {wrapper : Wrapper} {input input' : Operation}
    (absolute : AllAbsolute (Operator.wrap wrapper input).ownIris) :
    AllAbsolute (Operator.wrap (embedding.wrapper wrapper) input').ownIris := by
  rw [wrapper_eq]
  cases wrapper with
  | project vars => exact absolute_vars
  | graph name | service name =>
    refine AllAbsolute.flatMap.2 (List.forall_mem_singleton.2 ?_)
    exact embedding.absolute_substitute (AllAbsolute.flatMap.1 absolute name List.mem_cons_self)
  | describe terms =>
    exact AllAbsolute.flatMap.2 (List.forall_mem_map.2 fun term member =>
      embedding.absolute_substitute (AllAbsolute.flatMap.1 absolute term member))
  | dataset => exact absolute
  | distinct | reduced | slice | ask => exact .nil

private theorem absolute_entries {vars : List Variable} {rows : List Row}
    (absolute : AllAbsolute (Operator.values vars rows).ownIris) :
    ∀ row ∈ rows, ∀ entry ∈ row.entries, AllAbsolute entry.2.iris := by
  intro row isRow entry isEntry
  refine AllAbsolute.flatMap.1 absolute entry.2 (List.mem_append_right _ ?_)
  exact List.mem_flatMap.2 ⟨row, isRow, List.mem_flatMap.2
    ⟨entry, isEntry, List.mem_cons_of_mem _ (List.mem_singleton_self _)⟩⟩

theorem absolute_table (embedding : Embedding) {vars : List Variable} {rows : List Row}
    (absolute : AllAbsolute (Operator.values vars rows).ownIris) :
    AllAbsolute
      (Operator.values (vars.map embedding.var) (rows.map embedding.row)).ownIris := by
  refine Context.absolute_values (List.forall_mem_map.2 fun row isRow => ?_)
  have ofRow := absolute_entries absolute row isRow
  unfold Embedding.row
  split
  · intro entry member
    obtain ⟨old, isOld, rfl⟩ := List.mem_map.1 (NameMap.mem_of_mem_ofList member)
    exact embedding.absolute_substitute (ofRow old isOld)
  · exact ofRow

end Embedding

namespace Context

variable {context : Context}

theorem shadow_name (embedding : Embedding) (hidden : Bool) :
    Yields (fun below : Embedding => below.name = embedding.name)
      (context.shadow embedding hidden) := by
  unfold shadow
  split
  · exact .bind_any fun _ => .pure rfl
  · exact .pure rfl

mutual

/-- The IRIs of an operation with a name put into it are its own and those of the name. -/
theorem absolute_embed : ∀ (operation : Operation) {embedding : Embedding},
    AllAbsolute embedding.name.iris → AllAbsolute operation.iris →
    Yields (fun operation : Operation => AllAbsolute operation.iris)
      (context.embed embedding operation)
  | ⟨operator, metadata⟩, embedding, named, absolute => by
    rw [embed]
    split
    · exact .pure absolute
    · have named : AllAbsolute (embedding.inside operator.setsGraph).name.iris := named
      exact (absolute_embedOperator operator named absolute).bind fun _ absolute =>
        .pure (absolute metadata)

theorem absolute_embedOperator : ∀ (operator : Operator) {embedding : Embedding},
    AllAbsolute embedding.name.iris → AllAbsolute (Operation.of operator).iris →
    Yields (fun operator : Operator =>
        ∀ metadata, AllAbsolute (Operation.iris ⟨operator, metadata⟩))
      (context.embedOperator embedding operator)
  | .bgp patterns, _, named, absolute =>
    .pure fun _ => AllAbsolute.operation.2
      ⟨Embedding.absolute_patterns named (AllAbsolute.operation.1 absolute).1, .nil⟩
  | .values .., embedding, _, absolute =>
    .pure fun _ => AllAbsolute.operation.2
      ⟨.nil, embedding.absolute_table (AllAbsolute.operation.1 absolute).2⟩
  | .nop, _, _, _ => .pure fun _ => .nil
  | .path subject predicate object graph, embedding, named, absolute => by
    obtain ⟨ofPredicate, ofTerms⟩ :=
      AllAbsolute.append.1 (AllAbsolute.operation.1 absolute).2
    rw [AllAbsolute.flatMap, List.forall_mem_cons, List.forall_mem_cons,
      List.forall_mem_singleton] at ofTerms
    refine .pure fun _ => AllAbsolute.operation.2
      ⟨.nil, AllAbsolute.append.2 ⟨ofPredicate, AllAbsolute.flatMap.2 ?_⟩⟩
    rw [List.forall_mem_cons, List.forall_mem_cons, List.forall_mem_singleton]
    exact ⟨embedding.absolute_substitute ofTerms.1, embedding.absolute_substitute ofTerms.2.1,
      Embedding.absolute_graph named ofTerms.2.2⟩
  | .manage _, _, _, absolute => .pure fun _ => absolute
  | .wrap wrapper input, embedding, named, absolute => by
    obtain ⟨ofInput, own⟩ := AllAbsolute.operation.1 absolute
    have finish : ∀ input' : Operation, AllAbsolute input'.iris →
        Yields (fun operator : Operator =>
            ∀ metadata, AllAbsolute (Operation.iris ⟨operator, metadata⟩))
          (pure (.wrap (embedding.wrapper wrapper) input')) := fun _ ofInput =>
      .pure fun _ => AllAbsolute.operation.2 ⟨ofInput, embedding.absolute_wrapper own⟩
    cases wrapper with
    | project vars =>
      rw [embedOperator]
      exact (shadow_name embedding _).bind fun below sameName =>
        (absolute_embed input (sameName ▸ named) ofInput).bind finish
    | graph | service | distinct | reduced | slice | dataset | ask | describe =>
      exact (absolute_embed input named ofInput).bind finish
  | .filter input condition, _, named, absolute => by
    obtain ⟨ofInput, ofCondition⟩ := AllAbsolute.append.1 (AllAbsolute.operation.1 absolute).1
    rw [embedOperator]
    exact (absolute_embed input named ofInput).bind fun _ ofInput =>
      (absolute_embedExpression condition named ofCondition).bind fun _ ofCondition =>
        .pure fun _ => AllAbsolute.filter ofInput ofCondition
  | .extend input name value, embedding, named, absolute => by
    obtain ⟨ofInput, ofValue⟩ := AllAbsolute.append.1 (AllAbsolute.operation.1 absolute).1
    rw [embedOperator]
    refine (shadow_name embedding _).bind fun below sameName =>
      (absolute_embed input (sameName ▸ named) ofInput).bind fun input ofInput => ?_
    split
    · exact .pure fun _ => AllAbsolute.extend ofInput _ ofValue
    · exact (absolute_embedExpression value named ofValue).bind fun _ ofValue =>
        .pure fun _ => AllAbsolute.extend ofInput _ ofValue
  | .group input keys aggregates, _, named, absolute => by
    obtain ⟨ofInput, ofAggregates⟩ := AllAbsolute.append.1 (AllAbsolute.operation.1 absolute).1
    rw [embedOperator]
    exact (absolute_embed input named ofInput).bind fun _ ofInput =>
      (absolute_embedAggregates aggregates named ofAggregates).bind fun _ ofAggregates =>
        .pure fun _ => AllAbsolute.group ofInput _ (AllAbsolute.aggregates.1 ofAggregates)
  | .orderBy input keys, _, named, absolute => by
    obtain ⟨ofInput, ofKeys⟩ := AllAbsolute.append.1 (AllAbsolute.operation.1 absolute).1
    rw [embedOperator]
    exact (absolute_embed input named ofInput).bind fun _ ofInput =>
      (absolute_embedExpressions keys named ofKeys).bind fun _ ofKeys =>
        .pure fun _ => AllAbsolute.orderBy ofInput (AllAbsolute.expressions.1 ofKeys)
  | .construct input template, _, named, absolute => by
    obtain ⟨ofInput, ofTemplate⟩ := AllAbsolute.append.1 (AllAbsolute.operation.1 absolute).1
    rw [embedOperator]
    exact (absolute_embed input named ofInput).bind fun _ ofInput =>
      .pure fun _ => AllAbsolute.construct ofInput
        (AllAbsolute.flatMap.1 (Embedding.absolute_patterns named ofTemplate))
  | .combine how inputs, _, named, absolute => by
    rw [embedOperator]
    exact (absolute_embedAll inputs named (AllAbsolute.operation.1 absolute).1).bind
      fun _ ofInputs => .pure fun _ => AllAbsolute.combine (AllAbsolute.operations.1 ofInputs)
  | .leftJoin left right none, _, named, absolute => by
    obtain ⟨ofLeft, ofRight⟩ := AllAbsolute.append.1 (AllAbsolute.operation.1 absolute).1
    rw [embedOperator]
    exact (absolute_embed left named ofLeft).bind fun _ ofLeft =>
      (absolute_embed right named ofRight).bind fun _ ofRight =>
        .pure fun _ => AllAbsolute.operation.2 ⟨AllAbsolute.append.2 ⟨ofLeft, ofRight⟩, .nil⟩
  | .leftJoin left right (some condition), _, named, absolute => by
    obtain ⟨ofSides, ofCondition⟩ := AllAbsolute.append.1 (AllAbsolute.operation.1 absolute).1
    obtain ⟨ofLeft, ofRight⟩ := AllAbsolute.append.1 ofSides
    rw [embedOperator]
    exact (absolute_embed left named ofLeft).bind fun _ ofLeft =>
      (absolute_embed right named ofRight).bind fun _ ofRight =>
      (absolute_embedExpression condition named ofCondition).bind fun _ ofCondition =>
        .pure fun _ => AllAbsolute.operation.2
          ⟨AllAbsolute.append.2 ⟨AllAbsolute.append.2 ⟨ofLeft, ofRight⟩, ofCondition⟩, .nil⟩
  | .minus left right, _, named, absolute => by
    obtain ⟨ofLeft, ofRight⟩ := AllAbsolute.append.1 (AllAbsolute.operation.1 absolute).1
    rw [embedOperator]
    exact (absolute_embed left named ofLeft).bind fun _ ofLeft =>
      (absolute_embed right named ofRight).bind fun _ ofRight =>
        .pure fun _ => AllAbsolute.minus ofLeft ofRight
  | .deleteInsert delete insert none, _, named, absolute => by
    obtain ⟨ofDelete, ofInsert⟩ := AllAbsolute.append.1 (AllAbsolute.operation.1 absolute).1
    exact .pure fun _ => AllAbsolute.operation.2
      ⟨AllAbsolute.append.2 ⟨Embedding.absolute_optional named ofDelete,
        Embedding.absolute_optional named ofInsert⟩, .nil⟩
  | .deleteInsert delete insert (some scope), _, named, absolute => by
    obtain ⟨ofTemplates, ofScope⟩ := AllAbsolute.append.1 (AllAbsolute.operation.1 absolute).1
    obtain ⟨ofDelete, ofInsert⟩ := AllAbsolute.append.1 ofTemplates
    rw [embedOperator]
    exact (absolute_embed scope named ofScope).bind fun _ ofScope =>
      .pure fun _ => AllAbsolute.operation.2
        ⟨AllAbsolute.append.2 ⟨AllAbsolute.append.2 ⟨Embedding.absolute_optional named ofDelete,
          Embedding.absolute_optional named ofInsert⟩, ofScope⟩, .nil⟩

theorem absolute_embedExpression : ∀ (expression : Expression) {embedding : Embedding},
    AllAbsolute embedding.name.iris → AllAbsolute expression.iris →
    Yields (fun expression : Expression => AllAbsolute expression.iris)
      (context.embedExpression embedding expression)
  | .term value, embedding, _, absolute => .pure (embedding.absolute_substitute absolute)
  | .call callee arguments, _, named, absolute => by
    obtain ⟨ofArguments, ofCallee⟩ := AllAbsolute.append.1 absolute
    rw [embedExpression]
    exact (absolute_embedExpressions arguments named ofArguments).bind fun _ ofArguments =>
      .pure (AllAbsolute.append.2 ⟨ofArguments, by cases callee <;> exact ofCallee⟩)
  | .aggregate name argument distinct separator, _, named, absolute => by
    rw [embedExpression]
    exact (absolute_embedExpression argument named (AllAbsolute.append.1 absolute).1).bind
      fun _ ofArgument => .pure (AllAbsolute.append.2 ⟨ofArgument, .nil⟩)
  | .existence negated input, _, named, absolute => by
    rw [embedExpression]
    exact (absolute_embed input named (AllAbsolute.append.1 absolute).1).bind
      fun _ ofInput => .pure (AllAbsolute.append.2 ⟨ofInput, .nil⟩)
  | .wildcard, _, _, _ => .pure .nil

theorem absolute_embedAll : ∀ (operations : List Operation) {embedding : Embedding},
    AllAbsolute embedding.name.iris → AllAbsolute (Operation.gatherAll .allIris operations) →
    Yields (fun operations => AllAbsolute (Operation.gatherAll .allIris operations))
      (context.embedAll embedding operations)
  | [], _, _, _ => .pure .nil
  | operation :: rest, _, named, absolute => by
    obtain ⟨ofFirst, ofRest⟩ := AllAbsolute.append.1 absolute
    rw [embedAll]
    exact (absolute_embed operation named ofFirst).bind fun _ ofFirst =>
      (absolute_embedAll rest named ofRest).bind fun _ ofRest =>
        .pure (AllAbsolute.append.2 ⟨ofFirst, ofRest⟩)

theorem absolute_embedExpressions : ∀ (expressions : List Expression) {embedding : Embedding},
    AllAbsolute embedding.name.iris → AllAbsolute (Expression.gatherAll .allIris expressions) →
    Yields (fun expressions => AllAbsolute (Expression.gatherAll .allIris expressions))
      (context.embedExpressions embedding expressions)
  | [], _, _, _ => .pure .nil
  | expression :: rest, _, named, absolute => by
    obtain ⟨ofFirst, ofRest⟩ := AllAbsolute.append.1 absolute
    rw [embedExpressions]
    exact (absolute_embedExpression expression named ofFirst).bind fun _ ofFirst =>
      (absolute_embedExpressions rest named ofRest).bind fun _ ofRest =>
        .pure (AllAbsolute.append.2 ⟨ofFirst, ofRest⟩)

theorem absolute_embedAggregates : ∀ (aggregates : List BoundAggregate) {embedding : Embedding},
    AllAbsolute embedding.name.iris → AllAbsolute (BoundAggregate.gatherAll .allIris aggregates) →
    Yields (fun aggregates => AllAbsolute (BoundAggregate.gatherAll .allIris aggregates))
      (context.embedAggregates embedding aggregates)
  | [], _, _, _ => .pure .nil
  | ⟨name, expression⟩ :: rest, _, named, absolute => by
    obtain ⟨ofFirst, ofRest⟩ := AllAbsolute.append.1 absolute
    rw [embedAggregates]
    exact (absolute_embedExpression expression named ofFirst).bind fun _ ofFirst =>
      (absolute_embedAggregates rest named ofRest).bind fun _ ofRest =>
        .pure (AllAbsolute.append.2 ⟨ofFirst, ofRest⟩)

end

end Context

/-! ### Aggregates -/

namespace Extracting

variable {α β : Type} {P : α → Prop} {Q : β → Prop}

/-- Results of a property, whichever aggregates of absolute IRIs were found before; those found
afterwards are of absolute IRIs too. -/
def Yields (P : α → Prop) (step : Extracting α) : Prop :=
  ∀ found : List BoundAggregate, (∀ bound ∈ found, AllAbsolute bound.expression.iris) →
    Lowering.Yields
      (fun result => P result.1 ∧ ∀ bound ∈ result.2, AllAbsolute bound.expression.iris)
      (step.run found)

theorem Yields.pure {value : α} (holds : P value) : Yields P (pure value : Extracting α) :=
  fun _ ofFound => .pure ⟨holds, ofFound⟩

theorem Yields.bind {step : Extracting α} {next : α → Extracting β} (yields : Yields P step)
    (goesOn : ∀ value, P value → Yields Q (next value)) : Yields Q (step >>= next) :=
  fun found ofFound => by
    rw [StateT.run_bind]
    exact (yields found ofFound).bind fun result ⟨holds, ofResult⟩ =>
      goesOn result.1 holds result.2 ofResult

/-- A step that finds no aggregates. -/
theorem Yields.lift {step : Lowering α} (yields : Lowering.Yields P step) :
    Yields P (liftM step : Extracting α) := fun _ ofFound =>
  Lowering.Yields.bind yields fun _ holds => .pure ⟨holds, ofFound⟩

end Extracting

namespace Context

variable {context : Context}

theorem absolute_bindAggregate {aggregate : Expression} (absolute : AllAbsolute aggregate.iris) :
    Extracting.Yields (fun value : Expression => AllAbsolute value.iris)
      (context.bindAggregate aggregate) := by
  intro found ofFound
  rw [bindAggregate, StateT.run_bind, StateT.run_get, pure_bind]
  dsimp only
  split
  · exact .pure ⟨.varExpression _, ofFound⟩
  · simp only [StateT.run_bind, liftM, monadLift, MonadLift.monadLift, StateT.run_lift,
      StateT.run_set, StateT.run_pure, bind_assoc, pure_bind]
    exact .bind_any fun name => .pure
      ⟨.varExpression _, List.forall_mem_append.2 ⟨ofFound, List.forall_mem_singleton.2 absolute⟩⟩

mutual

theorem absolute_replaceAggregates : ∀ expression : Expression, AllAbsolute expression.iris →
    Extracting.Yields (fun value : Expression => AllAbsolute value.iris)
      (context.replaceAggregates expression)
  | .term _, absolute => .pure absolute
  | .call callee arguments, absolute => by
    obtain ⟨ofArguments, ofCallee⟩ := AllAbsolute.call.1 absolute
    rw [replaceAggregates]
    exact (absolute_replaceAllAggregates arguments ofArguments).bind fun _ ofArguments =>
      .pure (AllAbsolute.call.2 ⟨ofArguments, ofCallee⟩)
  | .aggregate _ _ _ _, absolute => by
    rw [replaceAggregates]
    exact absolute_bindAggregate absolute
  | .existence _ _, absolute => .pure absolute
  | .wildcard, absolute => .pure absolute

theorem absolute_replaceAllAggregates : ∀ expressions : List Expression,
    (∀ expression ∈ expressions, AllAbsolute expression.iris) →
    Extracting.Yields (fun values : List Expression => ∀ value ∈ values, AllAbsolute value.iris)
      (context.replaceAllAggregates expressions)
  | [], _ => .pure (List.forall_mem_nil _)
  | expression :: rest, absolute => by
    rw [List.forall_mem_cons] at absolute
    rw [replaceAllAggregates]
    exact (absolute_replaceAggregates expression absolute.1).bind fun _ ofFirst =>
      (absolute_replaceAllAggregates rest absolute.2).bind fun _ ofRest =>
        .pure (List.forall_mem_cons.2 ⟨ofFirst, ofRest⟩)

end

theorem absolute_extractAggregates {expression : Expression}
    (absolute : AllAbsolute expression.iris) :
    Extracting.Yields (fun value : Expression => AllAbsolute value.iris)
      (context.extractAggregates expression) :=
  .bind (P := fun _ => True) (.lift fun _ _ _ _ => trivial) fun _ _ =>
    absolute_replaceAggregates expression absolute

end Context

/-! ### Blank nodes -/

section

variable {replace : String → Term}

private theorem Term.iris_replaceBlanks (noIris : ∀ label, (replace label).iris = [])
    (term : Term) : (term.replaceBlanks replace).iris = term.iris := by
  have ofQuad (subject predicate object graph : Term) :
      (quad subject predicate object graph).iris
        = subject.iris ++ predicate.iris ++ object.iris ++ graph.iris := by
    simp [iris, nested, ownIris]
  induction term with
  | iri | literal | var | defaultGraph => rfl
  | blank node => exact noIris node.label
  | quad subject predicate object graph ofSubject ofPredicate ofObject ofGraph =>
    show (quad (subject.replaceBlanks replace) (predicate.replaceBlanks replace)
      (object.replaceBlanks replace) (graph.replaceBlanks replace)).iris = _
    rw [ofQuad, ofQuad, ofSubject, ofPredicate, ofObject, ofGraph]

private theorem Pattern.iris_replaceBlanks (noIris : ∀ label, (replace label).iris = [])
    (patterns : List Pattern) :
    (patterns.map ((Rebuild.ofBlanks replace).pattern .bgp)).flatMap iris
      = patterns.flatMap iris := by
  rw [List.flatMap_map]
  refine congrArg (patterns.flatMap ·) (funext fun pattern => ?_)
  show ((pattern.mapTerms (Term.replaceBlanks replace)).terms).flatMap Term.iris = _
  simp only [iris, mapTerms, terms, List.flatMap_cons, Term.iris_replaceBlanks noIris]

private theorem Operator.ownIris_group (input : Operation) (keys : List Variable)
    (aggregates : List BoundAggregate) :
    (Operator.group input keys aggregates).ownIris = [] := by
  show (keys.map Term.var ++ aggregates.map (Term.var ·.name)).flatMap Term.iris = []
  simp [List.flatMap_map, Term.iris, Term.nested, Term.ownIris]

mutual

/-- Blank nodes and variables have no IRIs, so those of an operation stay. -/
theorem Operation.iris_rebuild (noIris : ∀ label, (replace label).iris = []) :
    ∀ operation : Operation, (operation.rebuild (.ofBlanks replace)).iris = operation.iris
  | ⟨operator, _⟩ => Operator.iris_rebuild noIris operator

theorem Operator.iris_rebuild (noIris : ∀ label, (replace label).iris = []) :
    ∀ operator : Operator,
    ((operator.rebuild (.ofBlanks replace)).replacePathBlanks replace).gather .allIris
        ++ ((operator.rebuild (.ofBlanks replace)).replacePathBlanks replace).ownIris
      = operator.gather .allIris ++ operator.ownIris
  | .bgp patterns => congrArg (· ++ _) (Pattern.iris_replaceBlanks noIris patterns)
  | .values _ _ | .nop | .manage _ => rfl
  | .path subject predicate object graph => by
    simp only [Operator.rebuild, Operator.replacePathBlanks, Operator.gather, Operator.ownIris,
      List.flatMap_cons, Term.iris_replaceBlanks noIris]
  | .wrap wrapper input => by
    refine congrArg₂ (· ++ ·) (Operation.iris_rebuild noIris input) ?_
    cases wrapper <;> rfl
  | .filter input condition | .extend input _ condition =>
    congrArg (· ++ _) (congrArg₂ (· ++ ·) (Operation.iris_rebuild noIris input)
      (Expression.iris_rebuild noIris condition))
  | .group input keys aggregates =>
    congrArg₂ (· ++ ·)
      (congrArg₂ (· ++ ·) (Operation.iris_rebuild noIris input)
        (BoundAggregate.irisOfAll_rebuild noIris aggregates))
      ((Operator.ownIris_group _ keys _).trans (Operator.ownIris_group _ keys _).symm)
  | .orderBy input keys =>
    congrArg (· ++ _) (congrArg₂ (· ++ ·) (Operation.iris_rebuild noIris input)
      (Expression.irisOfAll_rebuild noIris keys))
  | .construct input template => by
    rw [Operator.rebuild, Rebuild.template_ofBlanks (by decide)]
    exact congrArg (· ++ _) (congrArg (· ++ _) (Operation.iris_rebuild noIris input))
  | .combine how inputs => congrArg (· ++ _) (Operation.irisOfAll_rebuild noIris inputs)
  | .leftJoin left right none | .minus left right =>
    congrArg (· ++ _) (congrArg₂ (· ++ ·) (Operation.iris_rebuild noIris left)
      (Operation.iris_rebuild noIris right))
  | .leftJoin left right (some condition) =>
    congrArg (· ++ _) (congrArg₂ (· ++ ·)
      (congrArg₂ (· ++ ·) (Operation.iris_rebuild noIris left)
        (Operation.iris_rebuild noIris right))
      (Expression.iris_rebuild noIris condition))
  | .deleteInsert delete insert none => by
    rw [Operator.rebuild, Rebuild.optional_ofBlanks (by decide),
      Rebuild.optional_ofBlanks (by decide)]
    rfl
  | .deleteInsert delete insert (some scope) => by
    rw [Operator.rebuild, Rebuild.optional_ofBlanks (by decide),
      Rebuild.optional_ofBlanks (by decide)]
    exact congrArg (· ++ _) (congrArg (_ ++ ·) (Operation.iris_rebuild noIris scope))

theorem Expression.iris_rebuild (noIris : ∀ label, (replace label).iris = []) :
    ∀ expression : Expression, (expression.rebuild (.ofBlanks replace)).iris = expression.iris
  | .term _ | .wildcard => rfl
  | .call callee arguments => by
    refine congrArg₂ (· ++ ·) (Expression.irisOfAll_rebuild noIris arguments) ?_
    cases callee <;> rfl
  | .aggregate _ argument _ _ => congrArg (· ++ _) (Expression.iris_rebuild noIris argument)
  | .existence _ input => congrArg (· ++ _) (Operation.iris_rebuild noIris input)

theorem Operation.irisOfAll_rebuild (noIris : ∀ label, (replace label).iris = []) :
    ∀ operations : List Operation,
    Operation.gatherAll .allIris (Operation.rebuildAll (.ofBlanks replace) operations)
      = Operation.gatherAll .allIris operations
  | [] => rfl
  | operation :: rest => congrArg₂ (· ++ ·) (Operation.iris_rebuild noIris operation)
      (Operation.irisOfAll_rebuild noIris rest)

theorem Expression.irisOfAll_rebuild (noIris : ∀ label, (replace label).iris = []) :
    ∀ expressions : List Expression,
    Expression.gatherAll .allIris (Expression.rebuildAll (.ofBlanks replace) expressions)
      = Expression.gatherAll .allIris expressions
  | [] => rfl
  | expression :: rest => congrArg₂ (· ++ ·) (Expression.iris_rebuild noIris expression)
      (Expression.irisOfAll_rebuild noIris rest)

theorem BoundAggregate.irisOfAll_rebuild (noIris : ∀ label, (replace label).iris = []) :
    ∀ aggregates : List BoundAggregate,
    BoundAggregate.gatherAll .allIris (BoundAggregate.rebuildAll (.ofBlanks replace) aggregates)
      = BoundAggregate.gatherAll .allIris aggregates
  | [] => rfl
  | ⟨_, expression⟩ :: rest => congrArg₂ (· ++ ·) (Expression.iris_rebuild noIris expression)
      (BoundAggregate.irisOfAll_rebuild noIris rest)

end

end

namespace Context

variable {context : Context}

theorem absolute_blanksToVariables (plain : context.MakesPlain) {operation : Operation}
    (absolute : AllAbsolute operation.iris) :
    Yields (fun operation : Operation => AllAbsolute operation.iris)
      (context.blanksToVariables operation) := by
  intro supply replaced after success
  cases fits : operation.fitsReplacing with
  | false =>
    rw [blanksToVariables_of_not_fits fits] at success
    cases success
  | true =>
    obtain ⟨vars, _, made, -⟩ := blanksToVariables_mints plain fits supply
    rw [made] at success
    cases success
    have noIris : ∀ label, (labelTerm vars label).iris = [] := by
      intro label
      unfold labelTerm
      split <;> rfl
    exact (Operation.iris_rebuild noIris operation).symm ▸ absolute

end Context

end QueryAlgebra
