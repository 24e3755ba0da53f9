import QueryAlgebra.Lowering.Request
import QueryAlgebra.Proofs.Lowering.Segments
import QueryAlgebra.Proofs.Lowering.Translation
import QueryAlgebra.Proofs.Operation.SimplifiedForm

/-! # What requests become is simplified

Members of a group, branches of a union and steps of a path are put together by constructors that
flatten one level. So it is kept that everything put together so far is simplified and carries no
metadata, and taking names of graph blocks in, taking aggregates out and turning blank nodes into
variables leave the shape of operations as it is. `Surface.Request.lower_isSimplified` says that the
operation of every request is simplified.
-/

namespace QueryAlgebra

open Lowering (Yields)
open Node (IsSimplified SameShape)

/-! ### Passes that keep shapes -/

private theorem patterns_mapShape (change : Pattern → Pattern) (patterns : List Pattern) :
    List.Forall₂ SameShape (patterns.map .pattern) ((patterns.map change).map .pattern) := by
  induction patterns with
  | nil => exact .nil
  | cons pattern rest ih => exact .cons (.mk rfl .nil) ih

private theorem templates_mapShape (change : Pattern → Pattern)
    (templates : Option (List Pattern)) :
    List.Forall₂ SameShape ((templates.getD []).map .pattern)
      (((templates.map (·.map change)).getD []).map .pattern) := by
  cases templates with
  | none => exact .nil
  | some patterns => exact patterns_mapShape change patterns

/-- Operations and expressions are replaced by those of the same shape. -/
structure Rebuild.KeepsShape (change : Rebuild) : Prop where
  operation (operation : Operation) :
    SameShape (.operation operation) (.operation (change.operation operation))
  expression (expression : Expression) :
    SameShape (.expression expression) (.expression (change.expression expression))

section

variable {change : Rebuild}

mutual

theorem Operation.sameShape_rebuild (keeps : change.KeepsShape) : ∀ operation : Operation,
    SameShape (.operation operation) (.operation (operation.rebuild change))
  | ⟨operator, metadata⟩ => by
    rw [Operation.rebuild]
    split
    · exact .refl _
    · obtain ⟨kind, children⟩ := Operator.sameShape_rebuild keeps operator
      have parts : SameShape (.operation ⟨operator, metadata⟩)
          (.operation ⟨operator.rebuild change, metadata⟩) := .mk kind children
      exact parts.trans (keeps.operation _)

theorem Operator.sameShape_rebuild (keeps : change.KeepsShape) : ∀ operator : Operator,
    operator.kind = (operator.rebuild change).kind
      ∧ List.Forall₂ SameShape operator.children (operator.rebuild change).children
  | .bgp patterns => ⟨rfl, patterns_mapShape _ patterns⟩
  | .values .. | .nop | .manage _ => ⟨rfl, .nil⟩
  | .path .. => ⟨rfl, .cons (.refl _) .nil⟩
  | .wrap _ input => ⟨rfl, .cons (Operation.sameShape_rebuild keeps input) .nil⟩
  | .filter input condition =>
    ⟨rfl, .cons (Operation.sameShape_rebuild keeps input)
      (.cons (Expression.sameShape_rebuild keeps condition) .nil)⟩
  | .extend input _ value =>
    ⟨rfl, .cons (Operation.sameShape_rebuild keeps input)
      (.cons (Expression.sameShape_rebuild keeps value) .nil)⟩
  | .group input _ aggregates =>
    ⟨rfl, .cons (Operation.sameShape_rebuild keeps input)
      (BoundAggregate.sameShape_rebuildAll keeps aggregates)⟩
  | .orderBy input keys =>
    ⟨rfl, .cons (Operation.sameShape_rebuild keeps input)
      (Expression.sameShape_rebuildAll keeps keys)⟩
  | .construct input template =>
    ⟨rfl, .cons (Operation.sameShape_rebuild keeps input) (patterns_mapShape _ template)⟩
  | .combine _ inputs => ⟨rfl, Operation.sameShape_rebuildAll keeps inputs⟩
  | .leftJoin left right none =>
    ⟨rfl, .cons (Operation.sameShape_rebuild keeps left)
      (.cons (Operation.sameShape_rebuild keeps right) .nil)⟩
  | .leftJoin left right (some condition) =>
    ⟨rfl, .cons (Operation.sameShape_rebuild keeps left)
      (.cons (Operation.sameShape_rebuild keeps right)
        (.cons (Expression.sameShape_rebuild keeps condition) .nil))⟩
  | .minus left right =>
    ⟨rfl, .cons (Operation.sameShape_rebuild keeps left)
      (.cons (Operation.sameShape_rebuild keeps right) .nil)⟩
  | .deleteInsert delete insert none =>
    ⟨rfl, List.rel_append
      (List.rel_append (templates_mapShape _ delete) (templates_mapShape _ insert)) .nil⟩
  | .deleteInsert delete insert (some scope) =>
    ⟨rfl, List.rel_append
      (List.rel_append (templates_mapShape _ delete) (templates_mapShape _ insert))
      (.cons (Operation.sameShape_rebuild keeps scope) .nil)⟩

theorem Expression.sameShape_rebuild (keeps : change.KeepsShape) : ∀ expression : Expression,
    SameShape (.expression expression) (.expression (expression.rebuild change))
  | .term value => keeps.expression (.term value)
  | .call callee arguments => by
    have parts : SameShape (.expression (.call callee arguments))
        (.expression (.call callee (Expression.rebuildAll change arguments))) :=
      .mk (by cases callee <;> rfl) (Expression.sameShape_rebuildAll keeps arguments)
    exact parts.trans (keeps.expression _)
  | .aggregate name argument distinct separator => by
    have parts : SameShape (.expression (.aggregate name argument distinct separator))
        (.expression (.aggregate name (argument.rebuild change) distinct separator)) :=
      .mk rfl (.cons (Expression.sameShape_rebuild keeps argument) .nil)
    exact parts.trans (keeps.expression _)
  | .existence negated input => by
    have parts : SameShape (.expression (.existence negated input))
        (.expression (.existence negated (input.rebuild change))) :=
      .mk rfl (.cons (Operation.sameShape_rebuild keeps input) .nil)
    exact parts.trans (keeps.expression _)
  | .wildcard => keeps.expression .wildcard

theorem Operation.sameShape_rebuildAll (keeps : change.KeepsShape) : ∀ operations : List Operation,
    List.Forall₂ SameShape (operations.map .operation)
      ((Operation.rebuildAll change operations).map .operation)
  | [] => .nil
  | operation :: rest =>
    .cons (Operation.sameShape_rebuild keeps operation) (Operation.sameShape_rebuildAll keeps rest)

theorem Expression.sameShape_rebuildAll (keeps : change.KeepsShape) :
    ∀ expressions : List Expression,
    List.Forall₂ SameShape (expressions.map .expression)
      ((Expression.rebuildAll change expressions).map .expression)
  | [] => .nil
  | expression :: rest =>
    .cons (Expression.sameShape_rebuild keeps expression)
      (Expression.sameShape_rebuildAll keeps rest)

theorem BoundAggregate.sameShape_rebuildAll (keeps : change.KeepsShape) :
    ∀ aggregates : List BoundAggregate,
    List.Forall₂ SameShape (aggregates.map (.expression ·.expression))
      ((BoundAggregate.rebuildAll change aggregates).map (.expression ·.expression))
  | [] => .nil
  | ⟨_, expression⟩ :: rest =>
    .cons (Expression.sameShape_rebuild keeps expression)
      (BoundAggregate.sameShape_rebuildAll keeps rest)

end

end

/-- Turning blank nodes into other terms keeps the shape. -/
theorem Operation.sameShape_replaceBlanks (replace : String → Term) (operation : Operation) :
    SameShape (.operation operation) (.operation (operation.replaceBlanks replace)) := by
  refine Operation.sameShape_rebuild ⟨fun ⟨operator, metadata⟩ => ?_, fun _ => .refl _⟩ operation
  cases operator with
  | path subject predicate object graph => exact .mk rfl (.cons (.refl _) .nil)
  | _ => exact .refl _

namespace Context

variable (context : Context)

mutual

/-- Putting the name of a graph block into an operation keeps its shape and its metadata. -/
theorem sameShape_embed : ∀ (operation : Operation) (embedding : Embedding),
    Yields (fun result => result.metadata = operation.metadata ∧
        SameShape (.operation operation) (.operation result))
      (context.embed embedding operation)
  | ⟨operator, metadata⟩, embedding => by
    rw [embed]
    split
    · exact .pure ⟨rfl, .refl _⟩
    · exact (sameShape_embedOperator operator _).bind fun _ same => .pure ⟨rfl, .mk same.1 same.2⟩

theorem sameShape_embedOperator : ∀ (operator : Operator) (embedding : Embedding),
    Yields (fun result => operator.kind = result.kind ∧
        List.Forall₂ SameShape operator.children result.children)
      (context.embedOperator embedding operator)
  | .bgp patterns, _ => .pure ⟨rfl, patterns_mapShape _ patterns⟩
  | .values .., _ => .pure ⟨rfl, .nil⟩
  | .nop, _ => .pure ⟨rfl, .nil⟩
  | .path .., _ => .pure ⟨rfl, .cons (.refl _) .nil⟩
  | .manage _, _ => .pure ⟨rfl, .nil⟩
  | .wrap wrapper input, embedding => by
    have kind : wrapper.kind = (embedding.wrapper wrapper).kind := by
      unfold Embedding.wrapper
      split
      · cases wrapper <;> rfl
      · rfl
    have finish : ∀ input' : Operation, SameShape (.operation input) (.operation input') →
        Yields (fun result : Operator => (Operator.wrap wrapper input).kind = result.kind ∧
            List.Forall₂ SameShape (Operator.wrap wrapper input).children result.children)
          (pure (.wrap (embedding.wrapper wrapper) input')) := fun _ same =>
      .pure ⟨kind, .cons same .nil⟩
    cases wrapper with
    | project vars =>
      rw [embedOperator]
      exact .bind_any fun below => (sameShape_embed input below).bind fun _ same => finish _ same.2
    | graph | service | distinct | reduced | slice | dataset | ask | describe =>
      exact (sameShape_embed input embedding).bind fun _ same => finish _ same.2
  | .filter input condition, embedding => by
    rw [embedOperator]
    exact (sameShape_embed input embedding).bind fun _ ofInput =>
      (sameShape_embedExpression condition embedding).bind fun _ ofCondition =>
        .pure ⟨rfl, .cons ofInput.2 (.cons ofCondition .nil)⟩
  | .extend input name value, embedding => by
    rw [embedOperator]
    refine .bind_any fun below => (sameShape_embed input below).bind fun _ ofInput => ?_
    split
    · exact .pure ⟨rfl, .cons ofInput.2 (.cons (.refl _) .nil)⟩
    · exact (sameShape_embedExpression value embedding).bind fun _ ofValue =>
        .pure ⟨rfl, .cons ofInput.2 (.cons ofValue .nil)⟩
  | .group input keys aggregates, embedding => by
    rw [embedOperator]
    exact (sameShape_embed input embedding).bind fun _ ofInput =>
      (sameShape_embedAggregates aggregates embedding).bind fun _ ofAggregates =>
        .pure ⟨rfl, .cons ofInput.2 ofAggregates⟩
  | .orderBy input keys, embedding => by
    rw [embedOperator]
    exact (sameShape_embed input embedding).bind fun _ ofInput =>
      (sameShape_embedExpressions keys embedding).bind fun _ ofKeys =>
        .pure ⟨rfl, .cons ofInput.2 ofKeys⟩
  | .construct input template, embedding => by
    rw [embedOperator]
    exact (sameShape_embed input embedding).bind fun _ ofInput =>
      .pure ⟨rfl, .cons ofInput.2 (patterns_mapShape _ template)⟩
  | .combine how inputs, embedding => by
    rw [embedOperator]
    exact (sameShape_embedAll inputs embedding).bind fun _ ofInputs => .pure ⟨rfl, ofInputs⟩
  | .leftJoin left right none, embedding => by
    rw [embedOperator]
    exact (sameShape_embed left embedding).bind fun _ ofLeft =>
      (sameShape_embed right embedding).bind fun _ ofRight =>
        .pure ⟨rfl, .cons ofLeft.2 (.cons ofRight.2 .nil)⟩
  | .leftJoin left right (some condition), embedding => by
    rw [embedOperator]
    exact (sameShape_embed left embedding).bind fun _ ofLeft =>
      (sameShape_embed right embedding).bind fun _ ofRight =>
      (sameShape_embedExpression condition embedding).bind fun _ ofCondition =>
        .pure ⟨rfl, .cons ofLeft.2 (.cons ofRight.2 (.cons ofCondition .nil))⟩
  | .minus left right, embedding => by
    rw [embedOperator]
    exact (sameShape_embed left embedding).bind fun _ ofLeft =>
      (sameShape_embed right embedding).bind fun _ ofRight =>
        .pure ⟨rfl, .cons ofLeft.2 (.cons ofRight.2 .nil)⟩
  | .deleteInsert delete insert none, _ =>
    .pure ⟨rfl, List.rel_append
      (List.rel_append (templates_mapShape _ delete) (templates_mapShape _ insert)) .nil⟩
  | .deleteInsert delete insert (some scope), embedding => by
    rw [embedOperator]
    exact (sameShape_embed scope embedding).bind fun _ ofScope =>
      .pure ⟨rfl, List.rel_append
        (List.rel_append (templates_mapShape _ delete) (templates_mapShape _ insert))
        (.cons ofScope.2 .nil)⟩

theorem sameShape_embedExpression : ∀ (expression : Expression) (embedding : Embedding),
    Yields (fun result => SameShape (.expression expression) (.expression result))
      (context.embedExpression embedding expression)
  | .term _, _ => .pure (.mk rfl .nil)
  | .call callee arguments, embedding => by
    rw [embedExpression]
    exact (sameShape_embedExpressions arguments embedding).bind fun _ ofArguments =>
      .pure (.mk (by cases callee <;> rfl) ofArguments)
  | .aggregate name argument distinct separator, embedding => by
    rw [embedExpression]
    exact (sameShape_embedExpression argument embedding).bind fun _ ofArgument =>
      .pure (.mk rfl (.cons ofArgument .nil))
  | .existence negated input, embedding => by
    rw [embedExpression]
    exact (sameShape_embed input embedding).bind fun _ ofInput =>
      .pure (.mk rfl (.cons ofInput.2 .nil))
  | .wildcard, _ => .pure (.refl _)

theorem sameShape_embedAll : ∀ (operations : List Operation) (embedding : Embedding),
    Yields (fun results =>
        List.Forall₂ SameShape (operations.map .operation) (results.map .operation))
      (context.embedAll embedding operations)
  | [], _ => .pure .nil
  | operation :: rest, embedding => by
    rw [embedAll]
    exact (sameShape_embed operation embedding).bind fun _ ofFirst =>
      (sameShape_embedAll rest embedding).bind fun _ ofRest => .pure (.cons ofFirst.2 ofRest)

theorem sameShape_embedExpressions : ∀ (expressions : List Expression) (embedding : Embedding),
    Yields (fun results =>
        List.Forall₂ SameShape (expressions.map .expression) (results.map .expression))
      (context.embedExpressions embedding expressions)
  | [], _ => .pure .nil
  | expression :: rest, embedding => by
    rw [embedExpressions]
    exact (sameShape_embedExpression expression embedding).bind fun _ ofFirst =>
      (sameShape_embedExpressions rest embedding).bind fun _ ofRest => .pure (.cons ofFirst ofRest)

theorem sameShape_embedAggregates : ∀ (aggregates : List BoundAggregate) (embedding : Embedding),
    Yields (fun results => List.Forall₂ SameShape (aggregates.map (.expression ·.expression))
        (results.map (.expression ·.expression)))
      (context.embedAggregates embedding aggregates)
  | [], _ => .pure .nil
  | ⟨_, expression⟩ :: rest, embedding => by
    rw [embedAggregates]
    exact (sameShape_embedExpression expression embedding).bind fun _ ofFirst =>
      (sameShape_embedAggregates rest embedding).bind fun _ ofRest => .pure (.cons ofFirst ofRest)

end

/-- A tidy operation is tidy with the name of its graph block in it. -/
theorem isTidy_embedGraph (name : Term) {operation : Operation} (tidy : operation.IsTidy) :
    Yields Operation.IsTidy (context.embedGraph name operation) :=
  fun supply result after success => by
    obtain ⟨metadata, same⟩ := context.sameShape_embed operation _ supply result after success
    exact ⟨metadata.trans tidy.plain, same.isSimplified tidy.simplified⟩

end Context

/-! ### Aggregates -/

/-- All expressions of aggregates are simplified. -/
def AggregatesSimplified (aggregates : List BoundAggregate) : Prop :=
  ∀ bound ∈ aggregates, IsSimplified false (.expression bound.expression)

namespace Extracting

variable {α β : Type} {P : α → Prop} {Q : β → Prop}

/-- Results of a property, whichever simplified aggregates were found before; those found
afterwards are simplified too. -/
def Simplifies (P : α → Prop) (step : Extracting α) : Prop :=
  ∀ found, AggregatesSimplified found →
    Lowering.Yields (fun result => P result.1 ∧ AggregatesSimplified result.2) (step.run found)

namespace Simplifies

theorem pure {value : α} (holds : P value) : Simplifies P (pure value : Extracting α) :=
  fun _ ofFound => .pure ⟨holds, ofFound⟩

theorem bind {step : Extracting α} {next : α → Extracting β} (first : Simplifies P step)
    (goesOn : ∀ value, P value → Simplifies Q (next value)) : Simplifies Q (step >>= next) :=
  fun found ofFound => by
    rw [StateT.run_bind]
    exact (first found ofFound).bind fun result ⟨holds, ofResult⟩ =>
      goesOn result.1 holds result.2 ofResult

/-- A step that finds no aggregates. -/
theorem lift {step : Lowering α} (yields : Lowering.Yields P step) :
    Simplifies P (liftM step : Extracting α) := fun _ ofFound =>
  yields.bind fun _ holds => .pure ⟨holds, ofFound⟩

end Simplifies

end Extracting

namespace Context

variable (context : Context)

private theorem isSimplified_term (value : Term) : IsSimplified false (.expression (.term value)) :=
  .of_parts rfl nofun (List.forall_mem_nil _)

private theorem isSimplified_call (callee : Callee) {arguments : List Expression}
    (simplified : ∀ argument ∈ arguments, IsSimplified false (.expression argument)) :
    IsSimplified false (.expression (.call callee arguments)) :=
  .of_parts (by cases callee <;> rfl) (by cases callee <;> nofun)
    (List.forall_mem_map.2 simplified)

private theorem simplifies_bindAggregate {aggregate : Expression}
    (simplified : IsSimplified false (.expression aggregate)) :
    Extracting.Simplifies (fun value => IsSimplified false (.expression value))
      (context.bindAggregate aggregate) := by
  intro found ofFound
  rw [bindAggregate, StateT.run_bind, StateT.run_get, pure_bind]
  dsimp only
  split
  · exact .pure ⟨isSimplified_term _, ofFound⟩
  · simp only [StateT.run_bind, liftM, monadLift, MonadLift.monadLift, StateT.run_lift,
      StateT.run_set, StateT.run_pure, bind_assoc, pure_bind]
    exact .bind_any fun name => .pure ⟨isSimplified_term _,
      List.forall_mem_append.2 ⟨ofFound, List.forall_mem_singleton.2 simplified⟩⟩

mutual

private theorem simplifies_replaceAggregates : ∀ expression : Expression,
    IsSimplified false (.expression expression) →
    Extracting.Simplifies (fun value => IsSimplified false (.expression value))
      (context.replaceAggregates expression)
  | .term _, simplified => .pure simplified
  | .call callee arguments, simplified => by
    rw [replaceAggregates]
    have ofArguments : ∀ argument ∈ arguments, IsSimplified false (.expression argument) := by
      have ofChildren := simplified.child
      cases callee <;> exact List.forall_mem_map.1 ofChildren
    exact (simplifies_replaceAllAggregates arguments ofArguments).bind fun _ ofArguments =>
      .pure (isSimplified_call callee ofArguments)
  | .aggregate _ _ _ _, simplified => by
    rw [replaceAggregates]
    exact context.simplifies_bindAggregate simplified
  | .existence _ _, simplified => .pure simplified
  | .wildcard, simplified => .pure simplified

private theorem simplifies_replaceAllAggregates : ∀ expressions : List Expression,
    (∀ expression ∈ expressions, IsSimplified false (.expression expression)) →
    Extracting.Simplifies
      (fun values => ∀ value ∈ values, IsSimplified false (.expression value))
      (context.replaceAllAggregates expressions)
  | [], _ => .pure (List.forall_mem_nil _)
  | expression :: rest, simplified => by
    rw [List.forall_mem_cons] at simplified
    rw [replaceAllAggregates]
    exact (simplifies_replaceAggregates expression simplified.1).bind fun _ ofFirst =>
      (simplifies_replaceAllAggregates rest simplified.2).bind fun _ ofRest =>
        .pure (List.forall_mem_cons.2 ⟨ofFirst, ofRest⟩)

end

private theorem simplifies_extractAggregates {expression : Expression}
    (simplified : IsSimplified false (.expression expression)) :
    Extracting.Simplifies (fun value => IsSimplified false (.expression value))
      (context.extractAggregates expression) :=
  .bind (P := fun _ => True) (.lift fun _ _ _ _ => trivial) fun _ _ =>
    context.simplifies_replaceAggregates expression simplified

/-! ### Paths and triples -/

theorem isSimplified_negatedPath (forward inverse : List NamedNode) :
    IsSimplified false (.path (negatedPath forward inverse)) := by
  have negated : ∀ predicates, IsSimplified false (.path (.negated predicates)) := fun _ =>
    .of_parts rfl nofun (List.forall_mem_nil _)
  have backwards : IsSimplified false (.path (.inverse (.negated inverse))) :=
    .of_parts rfl nofun (List.forall_mem_singleton.2 (negated inverse))
  unfold negatedPath
  split
  · exact negated _
  · exact backwards
  · exact Path.isSimplified_alternative (Nat.le_refl 2)
      (List.forall_mem_cons.2 ⟨negated forward, List.forall_mem_singleton.2 backwards⟩)

/-- The path that is written is simplified. -/
theorem isSimplified_path {written : Surface.Path} {path : Path}
    (success : context.path written = .ok path) : IsSimplified false (.path path) := by
  induction written generalizing path with
  | iri iri =>
    rw [Context.path] at success
    obtain ⟨node, -, success⟩ := ok_of_bind success
    cases success
    exact Path.isSimplified_leaf rfl rfl
  | type =>
    cases success
    exact Path.isSimplified_leaf rfl rfl
  | group written span ih => exact ih success
  | inverse written span ih | zeroOrMore written span ih | oneOrMore written span ih
  | zeroOrOne written span ih =>
    rw [Context.path] at success
    obtain ⟨inner, isInner, success⟩ := ok_of_bind success
    cases success
    exact Path.isSimplified_of_parts rfl (List.forall_mem_singleton.2 (ih isInner))
  | sequence left right span ofLeft ofRight =>
    rw [Context.path] at success
    obtain ⟨first, isFirst, success⟩ := ok_of_bind success
    obtain ⟨second, isSecond, success⟩ := ok_of_bind success
    cases success
    exact Path.isSimplified_sequence (Nat.le_refl 2)
      (List.forall_mem_cons.2 ⟨ofLeft isFirst, List.forall_mem_singleton.2 (ofRight isSecond)⟩)
  | alternative left right span ofLeft ofRight =>
    rw [Context.path] at success
    obtain ⟨first, isFirst, success⟩ := ok_of_bind success
    obtain ⟨second, isSecond, success⟩ := ok_of_bind success
    cases success
    exact Path.isSimplified_alternative (Nat.le_refl 2)
      (List.forall_mem_cons.2 ⟨ofLeft isFirst, List.forall_mem_singleton.2 (ofRight isSecond)⟩)
  | negated members span =>
    rw [Context.path] at success
    split at success
    · cases success
    · obtain ⟨⟨forward, inverse⟩, -, success⟩ := ok_of_bind success
      cases success
      exact isSimplified_negatedPath forward inverse

end Context

/-- The path of a piece is simplified. -/
def Fragment.IsSimplified : Fragment → Prop
  | .pattern _ => True
  | .path _ predicate _ _ => Node.IsSimplified false (.path predicate)

namespace Context

variable (context : Context)

mutual

theorem isSimplified_fragments : ∀ (path : Path) (subject object : Term),
    IsSimplified false (.path path) →
    Yields (fun pieces => ∀ piece ∈ pieces, piece.IsSimplified)
      (context.fragments subject path object)
  | .link _, _, _, _ => by
    rw [fragments]
    exact .pure (List.forall_mem_singleton.2 trivial)
  | .inverse path, subject, object, simplified => by
    rw [fragments]
    exact isSimplified_fragments path object subject (List.forall_mem_singleton.1 simplified.child)
  | .seq steps, subject, object, simplified => by
    rw [fragments]
    refine isSimplified_stepFragments steps subject object ?_
      (List.forall_mem_map.1 simplified.child)
    have several : 2 ≤ (steps.map Node.path).length := simplified.at_node.several rfl
    rintro rfl
    exact absurd several (by decide)
  | .alt _, _, _, simplified | .zeroOrMore _, _, _, simplified | .oneOrMore _, _, _, simplified
  | .zeroOrOne _, _, _, simplified | .negated _, _, _, simplified => by
    simp only [fragments]
    exact .pure (List.forall_mem_singleton.2 simplified)

theorem isSimplified_stepFragments : ∀ (steps : List Path) (subject object : Term), steps ≠ [] →
    (∀ step ∈ steps, IsSimplified false (.path step)) →
    Yields (fun pieces => ∀ piece ∈ pieces, piece.IsSimplified)
      (context.stepFragments subject steps object)
  | [], _, _, nonempty, _ => absurd rfl nonempty
  | [step], subject, object, _, simplified => by
    rw [stepFragments]
    exact isSimplified_fragments step subject object
      (simplified step (List.mem_singleton_self step))
  | step :: next :: steps, subject, object, _, simplified => by
    obtain ⟨ofStep, ofRest⟩ := List.forall_mem_cons.1 simplified
    rw [stepFragments]
    exact .bind_any fun between => (isSimplified_fragments step subject _ ofStep).bind
      fun first ofFirst => (isSimplified_stepFragments (next :: steps) _ object
        (List.cons_ne_nil _ _) ofRest).bind fun rest ofRest =>
          .pure (List.forall_mem_append.2 ⟨ofFirst, ofRest⟩)

end

theorem isSimplified_allFragments (triples : List FlatTriple) :
    Yields (fun pieces => ∀ piece ∈ pieces, piece.IsSimplified) (context.allFragments triples) := by
  induction triples with
  | nil => exact .pure (List.forall_mem_nil _)
  | cons triple rest ih =>
    have first : Yields (fun pieces => ∀ piece ∈ pieces, piece.IsSimplified)
        (context.tripleFragments triple) := by
      rw [tripleFragments]
      split
      · exact .pure (List.forall_mem_singleton.2 trivial)
      · exact .bind (.lift fun path => context.isSimplified_path) fun path simplified =>
          context.isSimplified_fragments path _ _ simplified
    rw [allFragments]
    exact first.bind fun pieces ofPieces => ih.bind fun others ofOthers =>
      .pure (List.forall_mem_append.2 ⟨ofPieces, ofOthers⟩)

end Context

/-- The pieces of triples are put together into a tidy operation. -/
theorem Operation.isTidy_ofFragments {fragments : List Fragment}
    (simplified : ∀ fragment ∈ fragments, fragment.IsSimplified) :
    (Operation.ofFragments fragments).IsTidy := by
  refine ofFragments_cases (Q := fun member => member.IsTidy ∧ member.isEmptyBgp = false)
    (fun patterns filled _ => ⟨isTidy_bgp patterns, ?_⟩)
    (fun subject _ object graph given =>
      ⟨isTidy_path subject object graph (simplified _ given), rfl⟩)
    (isTidy_bgp []) (fun _ => And.left) fun members several flat ofMembers => ?_
  · obtain ⟨pattern, rest, rfl⟩ := List.exists_cons_of_ne_nil filled
    rfl
  · rw [← flat]
    exact isTidy_combine rfl several (fun member isMember => (ofMembers member isMember).1)
      fun _ member isMember => (ofMembers member isMember).2

namespace Context

variable (context : Context)

theorem isTidy_basicGraphPattern (written : List Surface.Triple) :
    Yields Operation.IsTidy (context.basicGraphPattern written) := by
  rw [basicGraphPattern]
  exact .bind_any fun flat => (context.isSimplified_allFragments flat).bind
    fun _ simplified => .pure (Operation.isTidy_ofFragments simplified)

/-! ### Clauses -/

private theorem isTidy_inlineData (data : Surface.InlineData) :
    Yields Operation.IsTidy (context.inlineData data) := by
  rw [inlineData]
  exact .bind_any fun rows => .pure (Operation.isTidy_values _ rows)

private theorem isTidy_filtered {operation : Operation} (tidy : operation.IsTidy)
    {filters : List Expression}
    (simplified : ∀ filter ∈ filters, IsSimplified false (.expression filter)) :
    (filtered operation filters).IsTidy := by
  have joined : ∀ (rest : List Expression) (first : Expression),
      IsSimplified false (.expression first) →
      (∀ filter ∈ rest, IsSimplified false (.expression filter)) →
      IsSimplified false
        (.expression (rest.foldl (fun all next => .operator "&&" [all, next]) first)) := by
    intro rest
    induction rest with
    | nil => exact fun _ ofFirst _ => ofFirst
    | cons next rest ih =>
      intro first ofFirst ofRest
      obtain ⟨ofNext, ofRest⟩ := List.forall_mem_cons.1 ofRest
      exact ih _ (isSimplified_call _
        (List.forall_mem_cons.2 ⟨ofFirst, List.forall_mem_singleton.2 ofNext⟩)) ofRest
  cases filters with
  | nil => exact tidy
  | cons first rest =>
    obtain ⟨ofFirst, ofRest⟩ := List.forall_mem_cons.1 simplified
    exact tidy.filter (joined rest first ofFirst ofRest)

private theorem isTidy_overDataset (dataset : Option Surface.Dataset) {operation result : Operation}
    (tidy : operation.IsTidy) (success : context.overDataset dataset operation = .ok result) :
    result.IsTidy := by
  cases dataset with
  | none => cases success; exact tidy
  | some dataset =>
    rw [overDataset] at success
    split at success
    · cases success; exact tidy
    · obtain ⟨default, -, success⟩ := ok_of_bind success
      obtain ⟨named, -, success⟩ := ok_of_bind success
      cases success
      exact .of_parts rfl nofun (List.forall_mem_singleton.2 tidy.simplified)

private theorem isTidy_sliced (limit offset : Option Nat) {operation : Operation}
    (tidy : operation.IsTidy) : (sliced limit offset operation).IsTidy := by
  unfold sliced
  split
  · exact tidy
  · exact .of_parts rfl nofun (List.forall_mem_singleton.2 tidy.simplified)

private theorem isTidy_withDuplicates (duplicates : Surface.Duplicates) {operation : Operation}
    (tidy : operation.IsTidy) : (withDuplicates duplicates operation).IsTidy := by
  cases duplicates with
  | keep => exact tidy
  | distinct | reduced => exact .of_parts rfl nofun (List.forall_mem_singleton.2 tidy.simplified)

/-- The values of a projection are simplified. -/
def ItemsSimplified (selected : List (Variable × Option Expression)) : Prop :=
  ∀ item ∈ selected, ∀ value ∈ item.2, IsSimplified false (.expression value)

private theorem isSimplified_computed {selected : List (Variable × Option Expression)}
    (ofSelected : ItemsSimplified selected) {operation : Operation}
    (simplified : IsSimplified true (.operation operation)) :
    IsSimplified true (.operation (computed selected operation)) := by
  induction selected generalizing operation with
  | nil => exact simplified
  | cons item rest ih =>
    obtain ⟨ofItem, ofRest⟩ := List.forall_mem_cons.1 ofSelected
    refine ih ofRest ?_
    obtain ⟨name, _ | value⟩ := item
    · exact simplified
    · exact .mk (.of_kind rfl nofun) (List.forall_mem_cons.2
        ⟨simplified, List.forall_mem_singleton.2 (ofItem value rfl).anywhere⟩)

private theorem isTidy_conditions {conditions : List Expression}
    (simplified : ∀ condition ∈ conditions, IsSimplified false (.expression condition))
    {operation : Operation} (tidy : operation.IsTidy) :
    (conditions.foldl (fun operation condition => .of (.filter operation condition))
      operation).IsTidy := by
  induction conditions generalizing operation with
  | nil => exact tidy
  | cons condition rest ih =>
    obtain ⟨ofCondition, ofRest⟩ := List.forall_mem_cons.1 simplified
    exact ih ofRest (tidy.filter ofCondition)

private theorem isSimplified_joinedWith (values : Option Surface.InlineData)
    {operation : Operation} (tidy : operation.IsTidy) :
    Yields (fun result => IsSimplified true (.operation result))
      (context.joinedWith values operation) := by
  cases values with
  | none => exact .pure tidy.simplified.anywhere
  | some data =>
    rw [joinedWith, inlineData]
    exact .bind (P := fun table => ∃ vars rows, table = .of (.values vars rows))
      (.bind_any fun rows => .pure ⟨_, rows, rfl⟩)
      fun _ ⟨vars, rows, same⟩ => .pure (same ▸ tidy.joinTable vars rows)

private theorem isTidy_group {input : Operation} (tidy : input.IsTidy) (keys : List Variable)
    {aggregates : List BoundAggregate} (simplified : AggregatesSimplified aggregates) :
    (Operation.of (.group input keys aggregates)).IsTidy :=
  .of_parts rfl nofun
    (List.forall_mem_cons.2 ⟨tidy.simplified, List.forall_mem_map.2 simplified⟩)

private theorem isSimplified_orderKey (direction : Surface.Direction) {key : Expression}
    (simplified : IsSimplified false (.expression key)) :
    IsSimplified false (.expression (orderKey direction key)) := by
  cases direction with
  | ascending => exact simplified
  | descending => exact isSimplified_call _ (List.forall_mem_singleton.2 simplified)

/-- A query form over solutions that end with inline data. -/
private theorem isTidy_form {wrapper : Wrapper} (isForm : wrapper.kind.holdsTrailing false = true)
    {solutions : Operation} (simplified : IsSimplified true (.operation solutions)) :
    (Operation.of (.wrap wrapper solutions)).IsTidy := by
  refine ⟨rfl, .mk (.of_kind ?_ ?_) (List.forall_mem_singleton.2 ?_)⟩
  · cases wrapper <;> rfl
  · cases wrapper <;> nofun
  · change IsSimplified (wrapper.kind.holdsTrailing false) _
    rwa [isForm]

/-! ### Patterns, expressions and subqueries -/

/-- What the elements of a group have come to is simplified. -/
def GroupSimplified (result : Operation × List Expression) : Prop :=
  result.1.IsTidy ∧ ∀ filter ∈ result.2, IsSimplified false (.expression filter)

mutual

theorem isSimplified_expression : ∀ expression : Surface.Expression,
    Yields (fun value => IsSimplified false (.expression value)) (context.expression expression)
  | .var _ => .pure (isSimplified_term _)
  | .iri _ => by
    rw [expression]
    exact .bind_any fun _ => .pure (isSimplified_term _)
  | .literal _ => by
    rw [expression]
    exact .bind_any fun _ => .pure (isSimplified_term _)
  | .binary _ left right => by
    rw [expression]
    exact (isSimplified_expression left).bind fun _ ofLeft =>
      (isSimplified_expression right).bind fun _ ofRight => .pure (isSimplified_call _
        (List.forall_mem_cons.2 ⟨ofLeft, List.forall_mem_singleton.2 ofRight⟩))
  | .unary _ operand => by
    rw [expression]
    exact (isSimplified_expression operand).bind fun _ ofOperand =>
      .pure (isSimplified_call _ (List.forall_mem_singleton.2 ofOperand))
  | .call function arguments _ => by
    rw [expression]
    exact (isSimplified_expressions arguments).bind fun _ ofArguments =>
      .bind_any fun callee => .pure (isSimplified_call callee ofArguments)
  | .ifElse condition positive negative => by
    rw [expression]
    exact (isSimplified_expression condition).bind fun _ ofCondition =>
      (isSimplified_expression positive).bind fun _ ofPositive =>
      (isSimplified_expression negative).bind fun _ ofNegative =>
        .pure (isSimplified_call _ (List.forall_mem_cons.2 ⟨ofCondition,
          List.forall_mem_cons.2 ⟨ofPositive, List.forall_mem_singleton.2 ofNegative⟩⟩))
  | .coalesce arguments => by
    rw [expression]
    exact (isSimplified_expressions arguments).bind fun _ ofArguments =>
      .pure (isSimplified_call _ ofArguments)
  | .among value choices negated => by
    rw [expression]
    exact (isSimplified_expression value).bind fun _ ofValue =>
      (isSimplified_expressions choices).bind fun _ ofChoices =>
        .pure (isSimplified_call _ (List.forall_mem_cons.2 ⟨ofValue, ofChoices⟩))
  | .existence negated pattern => by
    rw [expression]
    exact (isTidy_pattern pattern).bind fun _ ofInput =>
      .pure (.of_parts rfl nofun (List.forall_mem_singleton.2 ofInput.simplified))
  | .aggregate _ none _ _ =>
    .pure (.of_parts rfl nofun
      (List.forall_mem_singleton.2 (.of_parts rfl nofun (List.forall_mem_nil _))))
  | .aggregate _ (some argument) _ _ => by
    rw [expression]
    exact (isSimplified_expression argument).bind fun _ ofArgument =>
      .pure (.of_parts rfl nofun (List.forall_mem_singleton.2 ofArgument))
  | .bracketed inner => isSimplified_expression inner

theorem isSimplified_expressions : ∀ expressions : List Surface.Expression,
    Yields (fun values => ∀ value ∈ values, IsSimplified false (.expression value))
      (context.expressions expressions)
  | [] => .pure (List.forall_mem_nil _)
  | first :: rest => by
    rw [expressions]
    exact (isSimplified_expression first).bind fun _ ofFirst =>
      (isSimplified_expressions rest).bind fun _ ofRest =>
        .pure (List.forall_mem_cons.2 ⟨ofFirst, ofRest⟩)

theorem isTidy_pattern : ∀ pattern : Surface.Pattern,
    Yields Operation.IsTidy (context.pattern pattern)
  | .bgp triples _ => context.isTidy_basicGraphPattern triples
  | .group elements _ => by
    rw [pattern]
    exact (isTidy_elements elements (Operation.isTidy_bgp []) (List.forall_mem_nil _)).bind
      fun _ simplified => .pure (isTidy_filtered simplified.1 simplified.2)
  | .union left right _ => by
    rw [pattern]
    exact (isTidy_pattern left).bind fun _ ofLeft =>
      (isTidy_pattern right).bind fun _ ofRight => .pure (ofLeft.union ofRight)
  | .graph name inner _ => by
    rw [pattern]
    have finish : ∀ (name : Term) (input : Operation), input.IsTidy →
        Yields Operation.IsTidy (pure (input.graph name)) := fun name input tidy =>
      .pure (.of_parts rfl nofun (List.forall_mem_singleton.2 tidy.simplified))
    refine (isTidy_pattern inner).bind fun input ofInput => .bind_any fun name => ?_
    split
    · exact (context.isTidy_embedGraph name ofInput).bind (finish name)
    · exact finish name input ofInput
  | .service silent endpoint inner _ => by
    rw [pattern]
    exact (isTidy_pattern inner).bind fun input ofInput => .bind_any fun name =>
      .pure (.of_parts rfl nofun (List.forall_mem_singleton.2 ofInput.simplified))
  | .values data _ => context.isTidy_inlineData data
  | .subquery query _ => isTidy_select query
  | .optional _ _ | .minus _ _ | .filter _ _ | .bind _ _ _ => .throw _

theorem isTidy_elements : ∀ (elements : List Surface.Pattern) {operation : Operation}
    {filters : List Expression}, operation.IsTidy →
    (∀ filter ∈ filters, IsSimplified false (.expression filter)) →
    Yields GroupSimplified (context.elements elements operation filters)
  | [], _, _, ofOperation, ofFilters => .pure ⟨ofOperation, ofFilters⟩
  | element :: rest, operation, filters, ofOperation, ofFilters => by
    have asMember (isMember : element.isMember = true) :
        Yields GroupSimplified (context.elements (element :: rest) operation filters) := by
      rw [elements_member context isMember]
      exact (isTidy_pattern element).bind fun _ ofRight =>
        isTidy_elements rest (ofOperation.simplifiedJoin ofRight) ofFilters
    cases element with
    | filter condition span =>
      rw [elements]
      exact (isSimplified_expression condition).bind fun _ ofCondition =>
        isTidy_elements rest ofOperation
          (List.forall_mem_append.2 ⟨ofFilters, List.forall_mem_singleton.2 ofCondition⟩)
    | optional pattern span =>
      rw [elements]
      exact (isTidy_pattern pattern).bind fun _ ofRight =>
        isTidy_elements rest (ofOperation.leftJoinOf ofRight) ofFilters
    | minus pattern span =>
      rw [elements]
      exact (isTidy_pattern pattern).bind fun _ ofRight =>
        isTidy_elements rest (ofOperation.minus ofRight) ofFilters
    | bind value name span =>
      rw [elements]
      exact (isSimplified_expression value).bind fun _ ofValue =>
        isTidy_elements rest (ofOperation.extend _ ofValue) ofFilters
    | bgp | group | union | values | graph | service | subquery => exact asMember rfl

theorem isTidy_select : ∀ query : Surface.Select,
    Yields Operation.IsTidy (context.select query)
  | ⟨duplicates, projection, dataset, inner, modifiers⟩ => by
    rw [select]
    refine (isTidy_pattern inner).bind fun input ofInput => ?_
    refine (simplifies_projection projection [] (List.forall_mem_nil _)).bind
      fun ⟨selected, aggregates⟩ ⟨ofSelected, ofAggregates⟩ => ?_
    refine (isSimplified_solutions modifiers ofSelected ofAggregates ofInput).bind
      fun solutions ofSolutions => .lift fun result => context.isTidy_overDataset dataset ?_
    exact isTidy_sliced _ _ (isTidy_withDuplicates _ (isTidy_form rfl ofSolutions))

theorem simplifies_projection : ∀ projection : Surface.Projection,
    Extracting.Simplifies ItemsSimplified (context.projection projection)
  | .all => .pure (List.forall_mem_nil _)
  | .items items => simplifies_selectItems items

theorem simplifies_selectItems : ∀ items : List Surface.SelectItem,
    Extracting.Simplifies ItemsSimplified (context.selectItems items)
  | [] => .pure (List.forall_mem_nil _)
  | .var name :: rest => by
    rw [selectItems]
    exact (simplifies_selectItems rest).bind fun _ ofRest =>
      .pure (List.forall_mem_cons.2 ⟨nofun, ofRest⟩)
  | .computed value name :: rest => by
    rw [selectItems]
    exact .bind (.lift (isSimplified_expression value)) fun _ ofValue =>
      (context.simplifies_extractAggregates ofValue).bind fun _ ofValue =>
      (simplifies_selectItems rest).bind fun _ ofRest =>
        .pure (List.forall_mem_cons.2 ⟨fun _ isValue => Option.some.inj isValue ▸ ofValue, ofRest⟩)

theorem isSimplified_solutions : ∀ (modifiers : Surface.Modifiers)
    {selected : List (Variable × Option Expression)} {aggregates : List BoundAggregate}
    {input : Operation}, ItemsSimplified selected → AggregatesSimplified aggregates →
    input.IsTidy →
    Yields (fun result => IsSimplified true (.operation result))
      (context.solutions selected aggregates input modifiers)
  | ⟨groupBy, having, orderBy, _, _, values⟩, selected, aggregates, input, ofSelected,
      ofAggregates, ofInput => by
    -- What is done after grouping does not depend on whether there are keys.
    have finish : ∀ {having order : List Expression} {grouped : Operation},
        (∀ condition ∈ having, IsSimplified false (.expression condition)) →
        (∀ key ∈ order, IsSimplified false (.expression key)) → grouped.IsTidy →
        Yields (fun result => IsSimplified true (.operation result))
          (do
            let filtered :=
              having.foldl (fun operation condition => .of (.filter operation condition)) grouped
            let joined ← context.joinedWith values filtered
            let extended := computed selected joined
            if order.isEmpty then pure extended else pure (.of (.orderBy extended order))) := by
      intro having order grouped ofHaving ofOrder ofGrouped
      refine (context.isSimplified_joinedWith values (isTidy_conditions ofHaving ofGrouped)).bind
        fun joined ofJoined => ?_
      have ofExtended := isSimplified_computed ofSelected ofJoined
      dsimp only
      split
      · exact .pure ofExtended
      · exact .pure (.mk (.of_kind rfl nofun) (List.forall_mem_cons.2
          ⟨ofExtended, List.forall_mem_map.2 fun key member => (ofOrder key member).anywhere⟩))
    rw [solutions]
    refine (simplifies_conditions having _ ofAggregates).bind
      fun ⟨having, aggregates⟩ ⟨ofHaving, ofAggregates⟩ => ?_
    refine (simplifies_orderKeys orderBy _ ofAggregates).bind
      fun ⟨order, aggregates⟩ ⟨ofOrder, ofAggregates⟩ => ?_
    cases groupBy with
    | some keys =>
      exact (isTidy_groupKeys keys ofInput).bind fun ⟨input, vars⟩ ofInput =>
        finish ofHaving ofOrder (isTidy_group ofInput vars ofAggregates)
    | none =>
      dsimp only
      split
      · exact finish ofHaving ofOrder ofInput
      · exact finish ofHaving ofOrder (isTidy_group ofInput [] ofAggregates)

theorem simplifies_conditions : ∀ conditions : List Surface.Expression,
    Extracting.Simplifies
      (fun values => ∀ value ∈ values, IsSimplified false (.expression value))
      (context.conditions conditions)
  | [] => .pure (List.forall_mem_nil _)
  | condition :: rest => by
    rw [conditions]
    exact .bind (.lift (isSimplified_expression condition)) fun _ ofCondition =>
      (context.simplifies_extractAggregates ofCondition).bind fun _ ofCondition =>
      (simplifies_conditions rest).bind fun _ ofRest =>
        .pure (List.forall_mem_cons.2 ⟨ofCondition, ofRest⟩)

theorem simplifies_orderKeys : ∀ keys : List Surface.OrderKey,
    Extracting.Simplifies
      (fun values => ∀ value ∈ values, IsSimplified false (.expression value))
      (context.orderKeys keys)
  | [] => .pure (List.forall_mem_nil _)
  | .var name direction :: rest => by
    rw [orderKeys]
    exact (simplifies_orderKeys rest).bind fun _ ofRest => .pure (List.forall_mem_cons.2
      ⟨isSimplified_orderKey direction (isSimplified_term _), ofRest⟩)
  | .computed value direction :: rest => by
    rw [orderKeys]
    exact .bind (.lift (isSimplified_expression value)) fun _ ofValue =>
      (context.simplifies_extractAggregates ofValue).bind fun _ ofValue =>
      (simplifies_orderKeys rest).bind fun _ ofRest =>
        .pure (List.forall_mem_cons.2 ⟨isSimplified_orderKey direction ofValue, ofRest⟩)

theorem isTidy_groupKeys : ∀ (keys : List Surface.GroupKey) {operation : Operation},
    operation.IsTidy →
    Yields (fun result => result.1.IsTidy) (context.groupKeys keys operation)
  | [], _, tidy => .pure tidy
  | .var name :: rest, _, tidy => by
    rw [groupKeys]
    exact (isTidy_groupKeys rest tidy).bind fun _ tidy => .pure tidy
  | .computed value name :: rest, operation, tidy => by
    rw [groupKeys]
    refine (isSimplified_expression value).bind fun value ofValue => ?_
    have finish : ∀ name : Variable,
        Yields (fun result => result.1.IsTidy)
          (do
            let (operation, vars) ← context.groupKeys rest (.of (.extend operation name value))
            pure (operation, name :: vars)) := fun name =>
      (isTidy_groupKeys rest (tidy.extend name ofValue)).bind fun _ tidy => .pure tidy
    cases name with
    | some name => exact finish (context.var name)
    | none => exact .bind_any finish

end

/-! ### Requests -/

private theorem noItems : ItemsSimplified [] := List.forall_mem_nil _

private theorem noAggregates : AggregatesSimplified [] := List.forall_mem_nil _

theorem isTidy_query (query : Surface.Query) : Yields Operation.IsTidy (context.query query) := by
  cases query with
  | select query => exact context.isTidy_select query
  | construct query =>
    rw [Context.query, construct]
    refine (context.isTidy_pattern query.pattern).bind fun input ofInput =>
      (context.isSimplified_solutions query.modifiers noItems noAggregates ofInput).bind
        fun solutions ofSolutions => .bind_any fun template =>
      .lift fun result => context.isTidy_overDataset query.dataset (isTidy_sliced _ _ ?_)
    exact ⟨rfl, .mk (.of_kind rfl nofun) (List.forall_mem_cons.2
      ⟨ofSolutions, List.forall_mem_map.2 fun pattern _ => .pattern pattern⟩)⟩
  | ask query =>
    rw [Context.query, ask]
    exact (context.isTidy_pattern query.pattern).bind fun input ofInput =>
      (context.isSimplified_solutions query.modifiers noItems noAggregates ofInput).bind
        fun solutions ofSolutions => .lift fun result =>
      context.isTidy_overDataset query.dataset (isTidy_sliced _ _ (isTidy_form rfl ofSolutions))
  | describe query =>
    have finish : ∀ input : Operation, input.IsTidy →
        Yields Operation.IsTidy
          (do
            let solutions ← context.solutions [] [] input query.modifiers
            let terms ← context.described query
            context.overDataset query.dataset
              (sliced query.modifiers.limit query.modifiers.offset
                (.of (.wrap (.describe terms) solutions)))) := fun input ofInput =>
      (context.isSimplified_solutions query.modifiers noItems noAggregates ofInput).bind
        fun solutions ofSolutions => .bind_any fun terms => .lift fun result =>
      context.isTidy_overDataset query.dataset (isTidy_sliced _ _ (isTidy_form rfl ofSolutions))
    rw [Context.query, describe]
    split
    · exact (context.isTidy_pattern _).bind finish
    · exact finish _ (Operation.isTidy_bgp [])

private theorem isTidy_deleteInsert (delete insert : Option (List Pattern))
    {scope : Option Operation} (tidy : ∀ operation ∈ scope, operation.IsTidy) :
    (Operation.of (.deleteInsert delete insert scope)).IsTidy := by
  refine .of_parts rfl nofun (List.forall_mem_append.2 ⟨List.forall_mem_append.2
    ⟨List.forall_mem_map.2 fun pattern _ => .pattern pattern,
      List.forall_mem_map.2 fun pattern _ => .pattern pattern⟩, ?_⟩)
  cases scope with
  | none => exact List.forall_mem_nil _
  | some operation => exact List.forall_mem_singleton.2 (tidy operation rfl).simplified

private theorem isTidy_manage (action : GraphAction) : (Operation.of (.manage action)).IsTidy := by
  refine .of_parts ?_ ?_ (List.forall_mem_nil _) <;>
    rcases action with _ | _ | _ | _ | ⟨_ | _ | _, _, _, _⟩ <;> first | rfl | nofun

private theorem isTidy_scopeOf (dataset : Option Surface.Dataset) (graph : Option Term)
    {operation : Operation} (tidy : operation.IsTidy) :
    Yields Operation.IsTidy (context.scopeOf dataset graph operation) := by
  unfold scopeOf
  split
  · exact .lift fun result => context.isTidy_overDataset _ tidy
  · exact context.isTidy_embedGraph _ tidy
  · exact .pure tidy

theorem isTidy_modify (update : Surface.Modify) :
    Yields Operation.IsTidy (context.modify update) := by
  rw [modify]
  refine .bind_any fun _ => .bind_any fun node => .bind_any fun delete => .bind_any fun insert => ?_
  split
  · exact .pure (isTidy_deleteInsert _ _ nofun)
  · exact (context.isTidy_pattern update.pattern).bind fun operation ofOperation =>
      (context.isTidy_scopeOf update.dataset _ ofOperation).bind fun scope ofScope =>
        .pure (isTidy_deleteInsert _ _ fun _ isScope => Option.some.inj isScope ▸ ofScope)

theorem isTidy_update (update : Surface.Update) :
    Yields Operation.IsTidy (context.update update) := by
  cases update with
  | insertData | deleteData =>
    exact .bind_any fun _ => .bind_any fun _ => .pure (isTidy_deleteInsert _ _ nofun)
  | deleteWhere quads =>
    exact .bind_any fun _ => .bind_any fun delete => .pure (isTidy_deleteInsert _ _
      fun _ isScope => Option.some.inj isScope ▸ Operation.isTidy_bgp delete)
  | modify change => exact context.isTidy_modify change
  | load | transfer => exact .bind_any fun _ => .bind_any fun _ => .pure (isTidy_manage _)
  | clear | drop | create => exact .bind_any fun _ => .pure (isTidy_manage _)

theorem isTidy_updates (units : List Surface.UpdateUnit) : ∀ context : Context,
    Yields (fun operations => ∀ operation ∈ operations, operation.IsTidy)
      (context.updates units) := by
  induction units with
  | nil => exact fun _ => .pure (List.forall_mem_nil _)
  | cons unit rest ih =>
    intro context
    rw [updates]
    exact .bind_any fun declared => (declared.isTidy_update unit.update).bind
      fun operation ofOperation => (ih declared).bind fun operations ofOperations =>
        .pure (List.forall_mem_cons.2 ⟨ofOperation, ofOperations⟩)

private theorem isTidy_updateSequence {operations : List Operation}
    (tidy : ∀ operation ∈ operations, operation.IsTidy) : (updateSequence operations).IsTidy := by
  unfold updateSequence
  split
  · exact .of_parts rfl nofun (List.forall_mem_nil _)
  · exact tidy _ List.mem_cons_self
  · exact .of_parts rfl nofun (List.forall_mem_map.2 fun operation member =>
      (tidy operation member).simplified)

theorem isTidy_body (body : Surface.Body) : Yields Operation.IsTidy (context.body body) := by
  cases body with
  | query asked => exact context.isTidy_query asked
  | update units =>
    exact (isTidy_updates units context).bind fun operations ofOperations =>
      .pure (isTidy_updateSequence ofOperations)

/-- The operation of what is asked for is simplified, with blank nodes or variables for them. -/
theorem isSimplified_request (blankToVariable : Bool) (request : Surface.Request) :
    Yields (fun operation => IsSimplified false (.operation operation))
      (context.request blankToVariable request) := by
  rw [Context.request]
  refine .bind_any fun declared => (declared.isTidy_body request.body).bind
    fun operation ofOperation => ?_
  split
  · rw [blanksToVariables]
    exact .bind_any fun _ => .bind_any fun vars => .pure
      ((operation.sameShape_replaceBlanks _).isSimplified ofOperation.simplified)
  · exact .pure ofOperation.simplified

end Context

/-- The operation of every request is simplified, whatever the options: joins, unions, sequences
and alternatives are flat lists of at least two members, no join contains an empty basic graph
pattern but where inline data at the end of a query is joined to one, and a left join without a
condition has no filter on its right. That holds in subqueries and in what EXISTS asks about too. -/
theorem Surface.Request.lower_isSimplified {options : Options} {request : Surface.Request}
    {operation : Operation} (success : request.lower options = .ok operation) :
    IsSimplified false (.operation operation) := by
  obtain ⟨after, success⟩ := Surface.Request.lower_ok_iff.1 success
  exact (Context.ofOptions .plain options).isSimplified_request options.blankToVariable request _
    operation after success

/-- What is known of a given thing, if it is linked to anything: `SELECT ?x WHERE
{ { SELECT ?x WHERE {} VALUES ?x { <ex:a> } } OPTIONAL { ?x <ex:name> ?y FILTER EXISTS
{ { ?x <ex:p> ?y } UNION { { ?y <ex:p> ?x } UNION { ?x (<ex:p>/<ex:q>/<ex:r>)* ?y } } } } }`. -/
private def knownIfLinked : Surface.Request :=
  ⟨.none, .query (.select ⟨.keep, .items [.var ⟨"x"⟩], none, .group [
    .subquery ⟨.keep, .items [.var ⟨"x"⟩], none, .group [] .none,
      ⟨none, [], [], none, none, some ⟨[⟨"x"⟩], [[some (.iri ⟨.full "ex:a", .none⟩)]]⟩⟩⟩ .none,
    .optional (.group [
      linked "x" (.simple (.iri ⟨.full "ex:name", .none⟩)) "y",
      .filter (.existence false (.union (linked "x" (.simple (.iri ⟨.full "ex:p", .none⟩)) "y")
        (.union (linked "y" (.simple (.iri ⟨.full "ex:p", .none⟩)) "x")
          (linked "x" (.path (.zeroOrMore (.sequence (.sequence (.iri ⟨.full "ex:p", .none⟩)
            (.iri ⟨.full "ex:q", .none⟩) .none) (.iri ⟨.full "ex:r", .none⟩) .none) .none)) "y")
          .none) .none)) .none] .none) .none] .none, .none⟩)⟩
where
  /-- A triple pattern between two variables. -/
  linked (subject : String) (verb : Surface.Verb) (object : String) : Surface.Pattern :=
    .bgp [⟨.term (.var ⟨subject⟩), verb, .term (.var ⟨object⟩)⟩] .none

/-- The operation of the request. -/
private def knownOptionally : Operation :=
  .of (.wrap (.project [⟨"x"⟩]) (.of (.leftJoin
    (.of (.wrap (.project [⟨"x"⟩]) (.of (.combine .join [.bgp [],
      .of (.values [⟨"x"⟩] [.ofList [("x", .iri ⟨"ex:a"⟩)]])]))))
    (.bgp [⟨.var ⟨"x"⟩, .iri ⟨"ex:name"⟩, .var ⟨"y"⟩, .defaultGraph⟩])
    (some (.existence false (.of (.combine .union [
      .bgp [⟨.var ⟨"x"⟩, .iri ⟨"ex:p"⟩, .var ⟨"y"⟩, .defaultGraph⟩],
      .bgp [⟨.var ⟨"y"⟩, .iri ⟨"ex:p"⟩, .var ⟨"x"⟩, .defaultGraph⟩],
      .of (.path (.var ⟨"x"⟩) (.zeroOrMore (.seq [.link ⟨"ex:p"⟩, .link ⟨"ex:q"⟩, .link ⟨"ex:r"⟩]))
        (.var ⟨"y"⟩) .defaultGraph)])))))))

/-- The only empty basic graph pattern in a join is the one with inline data after it. -/
theorem Surface.Request.lower_isSimplified_knownIfLinked :
    knownIfLinked.lower {} = .ok knownOptionally ∧
      IsSimplified false (.operation knownOptionally) := by
  have lowers : knownIfLinked.lower {} = .ok knownOptionally := rfl
  exact ⟨lowers, lower_isSimplified lowers⟩

end QueryAlgebra
