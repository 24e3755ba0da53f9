import QueryAlgebra.Proofs.Lowering.MarkedTerms
import QueryAlgebra.Proofs.Lowering.WellFormedBlocks

/-! # Graph blocks under marked names

Putting the name of a graph block into an operation compares terms that were made by the factory.
Different terms are different under marks, so the same names are replaced, the same projections and
bindings hide the name, and an operation under marks becomes what the operation becomes, under
marks: `Context.embedGraph_marked`.
-/

namespace QueryAlgebra

namespace Embedding

/-- The embedding with marks before its names. -/
def marked (marks : NameMarks) (embedding : Embedding) : Embedding :=
  ⟨embedding.name.marked marks, embedding.replacement.map (Variable.marked marks), embedding.fills⟩

variable (marks : NameMarks) (embedding : Embedding)

theorem substitute_marked (term : Term) :
    (embedding.marked marks).substitute (term.marked marks)
      = (embedding.substitute term).marked marks := by
  obtain ⟨name, replacement, fills⟩ := embedding
  cases replacement with
  | none => rfl
  | some new =>
    simp only [substitute, marked, Option.map_some, Term.marked_injective.eq_iff]
    split <;> rfl

theorem graph_marked (graph : Term) :
    (embedding.marked marks).graph (graph.marked marks) = (embedding.graph graph).marked marks := by
  simp only [Embedding.graph, Term.isDefaultGraph_marked, substitute_marked]
  change (if embedding.fills && _ then _ else _) = _
  split <;> rfl

theorem pattern_marked (pattern : Pattern) :
    (embedding.marked marks).pattern (pattern.marked marks)
      = (embedding.pattern pattern).marked marks := by
  simp only [Embedding.pattern, Pattern.marked, Pattern.mapTerms, substitute_marked, graph_marked]

/-- A variable is replaced by a variable or not at all. -/
private theorem mapTerm_substitute (name : Variable) :
    (name.marked marks).mapTerm (embedding.marked marks).substitute
      = (name.mapTerm embedding.substitute).marked marks := by
  have ofTerm := embedding.substitute_marked marks (.var name)
  rw [Term.marked] at ofTerm
  rw [Variable.mapTerm, Variable.mapTerm, ofTerm]
  cases embedding.substitute (.var name) <;> rfl

theorem var_marked (name : Variable) :
    (embedding.marked marks).var (name.marked marks) = (embedding.var name).marked marks := by
  have replaced := embedding.mapTerm_substitute marks name
  obtain ⟨of, replacement, fills⟩ := embedding
  cases replacement with
  | none => rfl
  | some new => exact replaced

theorem row_marked (row : Row) :
    (embedding.marked marks).row (Row.marked marks row) = Row.marked marks (embedding.row row) := by
  have ofCell : ∀ cell : String × Term,
      ((Variable.mapTerm (embedding.marked marks).substitute
          ⟨(Row.markedCell marks cell).1⟩).name,
        (embedding.marked marks).substitute (Row.markedCell marks cell).2)
        = Row.markedCell marks
          ((Variable.mapTerm embedding.substitute ⟨cell.1⟩).name, embedding.substitute cell.2) :=
    fun (name, value) => Prod.ext
      (congrArg Variable.name (embedding.mapTerm_substitute marks ⟨name⟩))
      (embedding.substitute_marked marks value)
  have replaced : mapRow (embedding.marked marks).substitute (Row.marked marks row)
      = Row.marked marks (mapRow embedding.substitute row) := by
    conv_rhs => rw [mapRow, Row.marked_ofList, List.map_map]
    rw [mapRow, Row.entries_marked, List.map_map]
    exact congrArg NameMap.ofList (List.map_congr_left fun cell _ => ofCell cell)
  obtain ⟨name, replacement, fills⟩ := embedding
  cases replacement with
  | none => rfl
  | some new => exact replaced

theorem wrapper_marked (wrapper : Wrapper) :
    (wrapper.marked marks).mapOwnTerms (embedding.marked marks).substitute
      = (wrapper.mapOwnTerms embedding.substitute).marked marks := by
  cases wrapper with
  | project vars =>
    simp only [Wrapper.marked_project, Wrapper.mapOwnTerms, List.map_map, Function.comp_def,
      mapTerm_substitute]
  | graph name => exact congrArg Wrapper.graph (embedding.substitute_marked marks name)
  | service name silent =>
    exact congrArg (Wrapper.service · silent) (embedding.substitute_marked marks name)
  | describe terms =>
    simp only [Wrapper.marked, Wrapper.mapOwnTerms, List.map_map, Function.comp_def,
      substitute_marked]
  | distinct | reduced | slice | dataset | ask => rfl

theorem isNone_marked :
    (embedding.marked marks).replacement.isNone = embedding.replacement.isNone :=
  Option.isNone_map

theorem isIdle_marked (nested : Bool) :
    (embedding.marked marks).isIdle nested = embedding.isIdle nested := by
  rw [isIdle, isNone_marked]
  rfl

end Embedding

theorem Operator.setsGraph_marked (marks : NameMarks) (operator : Operator) :
    (operator.marked marks).setsGraph = operator.setsGraph := by
  cases operator with
  | wrap wrapper input => cases wrapper <;> rfl
  | leftJoin left right condition => cases condition <;> rfl
  | deleteInsert delete insert scope => cases scope <;> rfl
  | _ => rfl

namespace Context

variable {context : Context} {marks : NameMarks}

theorem shadow_marked (plain : context.MakesPlain) (embedding : Embedding) (hidden : Bool) :
    (context.marked marks).shadow (embedding.marked marks) hidden
      = Embedding.marked marks <$> context.shadow embedding hidden := by
  obtain ⟨name, replacement, fills⟩ := embedding
  cases replacement with
  | some new => simp [shadow, Embedding.marked]
  | none =>
    cases hidden with
    | false => simp [shadow, Embedding.marked]
    | true =>
      simp only [shadow, Embedding.marked, newVariable_marked plain, Option.map_none,
        Option.isNone_none, Bool.and_self, if_true, map_bind, bind_map_left, map_pure,
        Option.map_some]

private theorem isName_marked (embedding : Embedding) (name : Variable) :
    (Term.var (name.marked marks) == (embedding.marked marks).name)
      = (Term.var name == embedding.name) :=
  Term.marked_beq (.var name) embedding.name

mutual

theorem embed_marked (plain : context.MakesPlain) : ∀ (operation : Operation)
    (embedding : Embedding),
    (context.marked marks).embed (embedding.marked marks) (operation.marked marks)
      = Operation.marked marks <$> context.embed embedding operation
  | ⟨operator, metadata⟩, embedding => by
    have ofOperator : (context.marked marks).embedOperator
          ((embedding.marked marks).inside operator.setsGraph) (operator.marked marks)
        = Operator.marked marks
          <$> context.embedOperator (embedding.inside operator.setsGraph) operator :=
      embedOperator_marked plain operator (embedding.inside operator.setsGraph)
    rw [Operation.marked_mk, embed, embed, Operator.setsGraph_marked, Embedding.isIdle_marked]
    split
    · rfl
    · simp only [ofOperator, bind_map_left, map_bind, map_pure, Operation.marked_mk]

theorem embedOperator_marked (plain : context.MakesPlain) : ∀ (operator : Operator)
    (embedding : Embedding),
    (context.marked marks).embedOperator (embedding.marked marks) (operator.marked marks)
      = Operator.marked marks <$> context.embedOperator embedding operator
  | .bgp patterns, embedding => by
    simp [embedOperator, Function.comp_def, Embedding.pattern_marked]
  | .values vars rows, embedding => by
    simp [embedOperator, Function.comp_def, Embedding.var_marked, Embedding.row_marked]
  | .nop, _ | .manage _, _ => by simp [embedOperator]
  | .path subject predicate object graph, embedding => by
    simp [embedOperator, Embedding.substitute_marked, Embedding.graph_marked]
  | .wrap wrapper input, embedding => by
    have ofWrapper := embedding.wrapper_marked marks wrapper
    have ofInput := fun below => embed_marked plain input below
    cases wrapper with
    | project vars =>
      rw [Wrapper.marked_project] at ofWrapper
      simp only [Operator.marked_wrap, Wrapper.marked_project, embedOperator,
        Embedding.wrapper_eq, List.any_map, Function.comp_def, isName_marked,
        shadow_marked plain, ofInput, ofWrapper, bind_map_left, map_bind, map_pure]
    | graph | service | distinct | reduced | slice | dataset | ask | describe =>
      rw [Operator.marked_wrap, embedOperator_wrap, embedOperator_wrap, ofWrapper]
      · simp only [ofInput, bind_map_left, map_bind, map_pure, Operator.marked_wrap]
      · nofun
      · nofun
  | .filter input condition, embedding => by
    simp [embedOperator, embed_marked plain input, embedExpression_marked plain condition]
  | .extend input name value, embedding => by
    cases isNone : embedding.replacement.isNone <;>
      simp [embedOperator, isName_marked, shadow_marked plain, embed_marked plain input,
        embedExpression_marked plain value, Embedding.var_marked, Embedding.isNone_marked, isNone]
  | .group input keys aggregates, embedding => by
    simp [embedOperator, Function.comp_def, embed_marked plain input,
      embedAggregates_marked plain aggregates, Embedding.var_marked]
  | .orderBy input keys, embedding => by
    simp [embedOperator, embed_marked plain input, embedExpressions_marked plain keys]
  | .construct input template, embedding => by
    simp [embedOperator, Function.comp_def, embed_marked plain input, Embedding.pattern_marked]
  | .combine how inputs, embedding => by
    simp [embedOperator, embedAll_marked plain inputs]
  | .leftJoin left right none, embedding => by
    simp [embedOperator, embed_marked plain left, embed_marked plain right]
  | .leftJoin left right (some condition), embedding => by
    simp [embedOperator, embed_marked plain left, embed_marked plain right,
      embedExpression_marked plain condition]
  | .minus left right, embedding => by
    simp [embedOperator, embed_marked plain left, embed_marked plain right]
  | .deleteInsert delete insert none, embedding => by
    simp [embedOperator, Function.comp_def, Embedding.pattern_marked]
  | .deleteInsert delete insert (some scope), embedding => by
    simp [embedOperator, Function.comp_def, embed_marked plain scope, Embedding.pattern_marked]

theorem embedExpression_marked (plain : context.MakesPlain) : ∀ (expression : Expression)
    (embedding : Embedding),
    (context.marked marks).embedExpression (embedding.marked marks) (expression.marked marks)
      = Expression.marked marks <$> context.embedExpression embedding expression
  | .term value, embedding => by simp [embedExpression, Embedding.substitute_marked]
  | .call callee arguments, embedding => by
    simp [embedExpression, embedExpressions_marked plain arguments]
  | .aggregate name argument distinct separator, embedding => by
    simp [embedExpression, embedExpression_marked plain argument]
  | .existence negated input, embedding => by simp [embedExpression, embed_marked plain input]
  | .wildcard, embedding => by simp [embedExpression]

theorem embedAll_marked (plain : context.MakesPlain) : ∀ (operations : List Operation)
    (embedding : Embedding),
    (context.marked marks).embedAll (embedding.marked marks)
        (operations.map (Operation.marked marks))
      = List.map (Operation.marked marks) <$> context.embedAll embedding operations
  | [], _ => by simp [embedAll]
  | operation :: rest, embedding => by
    simp [embedAll, embed_marked plain operation, embedAll_marked plain rest]

theorem embedExpressions_marked (plain : context.MakesPlain) : ∀ (expressions : List Expression)
    (embedding : Embedding),
    (context.marked marks).embedExpressions (embedding.marked marks)
        (expressions.map (Expression.marked marks))
      = List.map (Expression.marked marks) <$> context.embedExpressions embedding expressions
  | [], _ => by simp [embedExpressions]
  | expression :: rest, embedding => by
    simp [embedExpressions, embedExpression_marked plain expression,
      embedExpressions_marked plain rest]

theorem embedAggregates_marked (plain : context.MakesPlain) :
    ∀ (aggregates : List BoundAggregate) (embedding : Embedding),
    (context.marked marks).embedAggregates (embedding.marked marks)
        (aggregates.map (BoundAggregate.marked marks))
      = List.map (BoundAggregate.marked marks) <$> context.embedAggregates embedding aggregates
  | [], _ => by simp [embedAggregates]
  | ⟨name, expression⟩ :: rest, embedding => by
    simp [embedAggregates, BoundAggregate.marked, embedExpression_marked plain expression,
      embedAggregates_marked plain rest, Embedding.var_marked]

end

/-- Putting a name into an operation goes on under marks as without them. -/
theorem embedGraph_marked (plain : context.MakesPlain) (name : Term) (operation : Operation) :
    (context.marked marks).embedGraph (name.marked marks) (operation.marked marks)
      = Operation.marked marks <$> context.embedGraph name operation :=
  embed_marked plain operation ⟨name, none, true⟩

end Context

end QueryAlgebra
