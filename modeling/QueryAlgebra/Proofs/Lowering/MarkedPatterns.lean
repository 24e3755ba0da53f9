import QueryAlgebra.Proofs.Lowering.MarkedBlocks
import QueryAlgebra.Proofs.Lowering.Translation
import QueryAlgebra.Proofs.Traversal.Fitting

/-! # Patterns and subqueries under marked names

Patterns, expressions and subqueries become what they become without marks, under marks. Members of
groups keep their form, so they are put together alike. Aggregates that were found before are found
again, as different expressions are different under marks.
-/

namespace QueryAlgebra

open Surface (GroupKey OrderKey SelectItem)

variable {marks : NameMarks}

/-! ### Members of groups -/

theorem marked_filtered (operation : Operation) (filters : List Expression) :
    (filtered operation filters).marked marks
      = filtered (operation.marked marks) (filters.map (Expression.marked marks)) := by
  have ofRest : ∀ (rest : List Expression) (all : Expression),
      (rest.foldl (fun all next => .operator "&&" [all, next]) all).marked marks
        = (rest.map (Expression.marked marks)).foldl
          (fun all next => .operator "&&" [all, next]) (all.marked marks) := by
    intro rest
    induction rest with
    | nil => exact fun _ => rfl
    | cons next rest ih =>
      intro all
      rw [List.foldl_cons, ih, Expression.marked_operator]
      rfl
  cases filters with
  | nil => rfl
  | cons first rest =>
    simp only [filtered, conjunction?, List.map_cons, Operation.marked_of, Operator.marked_filter,
      ofRest]

/-! ### Clauses -/

/-- The item of a projection with marks before its names. -/
def markedItem (marks : NameMarks) (item : Variable × Option Expression) :
    Variable × Option Expression :=
  (item.1.marked marks, item.2.map (Expression.marked marks))

namespace Context

variable {context : Context}

theorem marked_orderKey (direction : Surface.Direction) (key : Expression) :
    (orderKey direction key).marked marks = orderKey direction (key.marked marks) := by
  cases direction with
  | ascending => rfl
  | descending => exact Expression.marked_operator "desc" [key]

theorem marked_sliced (limit offset : Option Nat) (operation : Operation) :
    (sliced limit offset operation).marked marks
      = sliced limit offset (operation.marked marks) := by
  unfold sliced
  split <;> rfl

theorem marked_withDuplicates (duplicates : Surface.Duplicates) (operation : Operation) :
    (withDuplicates duplicates operation).marked marks
      = withDuplicates duplicates (operation.marked marks) := by
  cases duplicates <;> rfl

theorem marked_computed (selected : List (Variable × Option Expression)) (operation : Operation) :
    (computed selected operation).marked marks
      = computed (selected.map (markedItem marks)) (operation.marked marks) := by
  unfold computed
  induction selected generalizing operation with
  | nil => rfl
  | cons item rest ih =>
    obtain ⟨name, value⟩ := item
    rw [List.foldl_cons, ih]
    cases value <;> rfl

theorem marked_conditions (conditions : List Expression) (operation : Operation) :
    (conditions.foldl (fun operation condition => .of (.filter operation condition))
        operation).marked marks
      = (conditions.map (Expression.marked marks)).foldl
        (fun operation condition => .of (.filter operation condition))
        (operation.marked marks) := by
  induction conditions generalizing operation with
  | nil => rfl
  | cons condition rest ih =>
    rw [List.foldl_cons, ih]
    rfl

theorem quads_marked : (context.marked marks).quads = context.quads := rfl

theorem callee_marked (plain : context.MakesPlain) (function : Surface.Function) :
    (context.marked marks).callee function = context.callee function := by
  cases function with
  | builtin function => rfl
  | named iri => simp only [callee, namedNode_marked plain]

theorem overDataset_marked (plain : context.MakesPlain) (dataset : Option Surface.Dataset)
    (operation : Operation) :
    (context.marked marks).overDataset dataset (operation.marked marks)
      = Operation.marked marks <$> context.overDataset dataset operation := by
  cases dataset with
  | none => rfl
  | some dataset =>
    simp only [overDataset]
    split
    · rfl
    · simp only [namedNodes_marked plain, map_bind, map_pure]
      rfl

theorem joinedWith_marked (plain : context.MakesPlain) (values : Option Surface.InlineData)
    (operation : Operation) :
    (context.marked marks).joinedWith values (operation.marked marks)
      = Operation.marked marks <$> context.joinedWith values operation := by
  cases values with
  | none => rfl
  | some data =>
    simp only [joinedWith, inlineData_marked plain, map_bind, bind_map_left, map_pure,
      Operation.marked_join, List.map_cons, List.map_nil]

private theorem map_var_marked (plain : context.MakesPlain) (names : List Variable) :
    names.map (context.marked marks).var
      = (names.map context.var).map (Variable.marked marks) := by
  rw [List.map_map]
  exact List.map_congr_left fun name _ => var_marked plain name

theorem shown_marked (plain : context.MakesPlain) (projection : Surface.Projection)
    (pattern : Surface.Pattern) (values : Option Surface.InlineData)
    (selected : List (Variable × Option Expression)) :
    (context.marked marks).shown projection pattern values (selected.map (markedItem marks))
      = (context.shown projection pattern values selected).map (Variable.marked marks) := by
  cases projection with
  | all => exact map_var_marked plain _
  | items items =>
    simp only [shown, List.map_map]
    rfl

end Context

/-! ### Aggregates -/

namespace Extracting

variable {α β γ δ : Type}

/-- The step that finds aggregates goes on under marks as another does without them. -/
def Follows (marks : NameMarks) (mark : α → β) (step : Extracting β) (plain : Extracting α) :
    Prop :=
  ∀ found, step.run (found.map (BoundAggregate.marked marks))
    = (fun result => (mark result.1, result.2.map (BoundAggregate.marked marks)))
      <$> plain.run found

namespace Follows

variable {mark : α → β} {mark' : γ → δ}

theorem run {step : Extracting β} {plain : Extracting α} (follows : Follows marks mark step plain)
    (found : List BoundAggregate) :
    step.run (found.map (BoundAggregate.marked marks))
      = (fun result => (mark result.1, result.2.map (BoundAggregate.marked marks)))
        <$> plain.run found := follows found

theorem run_nil {step : Extracting β} {plain : Extracting α}
    (follows : Follows marks mark step plain) :
    step.run [] = (fun result => (mark result.1, result.2.map (BoundAggregate.marked marks)))
      <$> plain.run [] := follows []

theorem pure (value : α) : Follows marks mark (pure (mark value)) (pure value) := fun _ => rfl

theorem bind {step : Extracting β} {plain : Extracting α} {next : β → Extracting δ}
    {next' : α → Extracting γ} (follows : Follows marks mark step plain)
    (goesOn : ∀ value, Follows marks mark' (next (mark value)) (next' value)) :
    Follows marks mark' (step >>= next) (plain >>= next') := by
  intro found
  rw [StateT.run_bind, StateT.run_bind, follows found, map_bind, bind_map_left]
  exact bind_congr fun result => goesOn result.1 result.2

/-- Steps that find no aggregates. -/
theorem lift {step : Lowering β} {plain : Lowering α} (follows : step = mark <$> plain) :
    Follows marks mark (liftM step) (liftM plain) := by
  intro found
  subst follows
  simp only [liftM, monadLift, MonadLift.monadLift, StateT.run_lift, bind_map_left, map_bind,
    map_pure]

end Follows

end Extracting

namespace Context

open Extracting (Follows)

variable {context : Context}

private theorem find?_marked (found : List BoundAggregate) (aggregate : Expression) :
    (found.map (BoundAggregate.marked marks)).find? (·.expression == aggregate.marked marks)
      = (found.find? (·.expression == aggregate)).map (BoundAggregate.marked marks) := by
  rw [List.find?_map]
  refine congrArg (Option.map _) (congrArg (List.find? · found) (funext fun bound => ?_))
  rw [Function.comp_apply, Bool.eq_iff_iff, beq_iff_eq, beq_iff_eq]
  exact Expression.marked_injective.eq_iff

private theorem bindAggregate_marked (plain : context.MakesPlain) (aggregate : Expression) :
    Follows marks (Expression.marked marks)
      ((context.marked marks).bindAggregate (aggregate.marked marks))
      (context.bindAggregate aggregate) := by
  intro found
  simp only [bindAggregate, StateT.run_bind, StateT.run_get, pure_bind, find?_marked]
  cases found.find? (·.expression == aggregate) with
  | some bound => rfl
  | none =>
    simp only [Option.map_none, newVariable_marked plain, StateT.run_bind, liftM, monadLift,
      MonadLift.monadLift, StateT.run_lift, StateT.run_set, StateT.run_pure, bind_assoc, pure_bind,
      bind_map_left, map_bind, map_pure, List.map_append]
    rfl

/-- What happens below a node while aggregates are taken out. -/
private abbrev belowAggregates (kind : NodeKind) : Below :=
  if kind = .aggregateExpression ∨ kind = .existenceExpression then .leave else .descend

mutual

private theorem fits_marked : ∀ (expression : Expression) (held : Nat),
    (Node.expression (expression.marked marks)).fits Traversal.defaultLimit belowAggregates held
      = (Node.expression expression).fits Traversal.defaultLimit belowAggregates held
  | .term _, _ | .wildcard, _ | .aggregate .., _ | .existence .., _ => by
    rw [Node.fits_eq, Node.fits_eq]
    rfl
  | .call callee arguments, held => by
    have kinds : ∀ arguments : List Expression,
        belowAggregates (Node.expression (.call callee arguments)).kind = .descend := by
      intro arguments
      cases callee <;> rfl
    rw [Expression.marked_call, Node.fits_eq, Node.fits_eq, kinds, kinds]
    simp only [Node.children, Expression.children, List.length_map, allFit_marked arguments]

private theorem allFit_marked : ∀ (expressions : List Expression) (held : Nat),
    (((expressions.map (Expression.marked marks)).map Node.expression).all fun node =>
        node.fits Traversal.defaultLimit belowAggregates held)
      = (expressions.map Node.expression).all fun node =>
        node.fits Traversal.defaultLimit belowAggregates held
  | [], _ => rfl
  | expression :: rest, held => by
    simp only [List.map_cons, List.all_cons, fits_marked expression, allFit_marked rest]

end

mutual

theorem replaceAggregates_marked (plain : context.MakesPlain) : ∀ expression : Expression,
    Follows marks (Expression.marked marks)
      ((context.marked marks).replaceAggregates (expression.marked marks))
      (context.replaceAggregates expression)
  | .term value => .pure (Expression.term value)
  | .call callee arguments => by
    rw [Expression.marked_call, replaceAggregates, replaceAggregates]
    refine (replaceAllAggregates_marked plain arguments).bind fun arguments => ?_
    rw [← Expression.marked_call]
    exact .pure _
  | .aggregate name argument distinct separator =>
    bindAggregate_marked plain (.aggregate name argument distinct separator)
  | .existence negated input => .pure (Expression.existence negated input)
  | .wildcard => .pure Expression.wildcard

theorem replaceAllAggregates_marked (plain : context.MakesPlain) :
    ∀ expressions : List Expression,
    Follows marks (List.map (Expression.marked marks))
      ((context.marked marks).replaceAllAggregates (expressions.map (Expression.marked marks)))
      (context.replaceAllAggregates expressions)
  | [] => .pure []
  | expression :: rest => by
    rw [List.map_cons, replaceAllAggregates, replaceAllAggregates]
    exact (replaceAggregates_marked plain expression).bind fun first =>
      (replaceAllAggregates_marked plain rest).bind fun rest => .pure (first :: rest)

end

theorem extractAggregates_marked (plain : context.MakesPlain) (expression : Expression) :
    Follows marks (Expression.marked marks)
      ((context.marked marks).extractAggregates (expression.marked marks))
      (context.extractAggregates expression) := by
  have fitsAlike : (Node.expression (expression.marked marks)).checkFits belowAggregates
      = (Node.expression expression).checkFits belowAggregates := by
    rw [Node.checkFits, Node.checkFits, fits_marked]
  have checked : Follows marks id
      (liftM (Lowering.ofTraversal ((Node.expression expression).checkFits belowAggregates)))
      (liftM (Lowering.ofTraversal ((Node.expression expression).checkFits belowAggregates))) :=
    .lift (id_map _).symm
  rw [extractAggregates, extractAggregates, fitsAlike]
  exact checked.bind fun _ => replaceAggregates_marked plain expression

/-! ### Patterns, expressions and subqueries -/

mutual

theorem expression_marked (plain : context.MakesPlain) : ∀ expression : Surface.Expression,
    (context.marked marks).expression expression
      = Expression.marked marks <$> context.expression expression
  | .var name => by
    simp only [expression, var_marked plain, map_pure]
    rfl
  | .iri iri => by
    simp only [expression, namedNode_marked plain, map_bind, map_pure]
    rfl
  | .literal literal => by
    simp only [expression, literal_marked plain, map_bind, map_pure]
    rfl
  | .binary op left right => by
    simp only [expression, expression_marked plain left, expression_marked plain right, map_bind,
      bind_map_left, map_pure, Expression.marked_operator, List.map_cons, List.map_nil]
  | .unary op operand => by
    simp only [expression, expression_marked plain operand, map_bind, bind_map_left, map_pure,
      Expression.marked_operator, List.map_cons, List.map_nil]
  | .call function arguments _ => by
    simp only [expression, expressions_marked plain arguments, callee_marked plain, map_bind,
      bind_map_left, map_pure, Expression.marked_call]
  | .ifElse condition positive negative => by
    simp only [expression, expression_marked plain condition, expression_marked plain positive,
      expression_marked plain negative, map_bind, bind_map_left, map_pure,
      Expression.marked_operator, List.map_cons, List.map_nil]
  | .coalesce arguments => by
    simp only [expression, expressions_marked plain arguments, map_bind, bind_map_left, map_pure,
      Expression.marked_operator]
  | .among value choices negated => by
    simp only [expression, expression_marked plain value, expressions_marked plain choices,
      map_bind, bind_map_left, map_pure, Expression.marked_operator, List.map_cons]
  | .existence negated pattern => by
    simp only [expression, pattern_marked plain pattern, map_bind, bind_map_left, map_pure,
      Expression.marked_existence]
  | .aggregate _ none _ _ => by
    simp only [expression, map_pure]
    rfl
  | .aggregate _ (some argument) _ _ => by
    simp only [expression, expression_marked plain argument, map_bind, bind_map_left, map_pure,
      Expression.marked_aggregate]
  | .bracketed inner => by
    simp only [expression, expression_marked plain inner]

theorem expressions_marked (plain : context.MakesPlain) :
    ∀ expressions : List Surface.Expression,
    (context.marked marks).expressions expressions
      = List.map (Expression.marked marks) <$> context.expressions expressions
  | [] => rfl
  | first :: rest => by
    simp only [expressions, expression_marked plain first, expressions_marked plain rest, map_bind,
      bind_map_left, map_pure, List.map_cons]

theorem pattern_marked (plain : context.MakesPlain) : ∀ pattern : Surface.Pattern,
    (context.marked marks).pattern pattern = Operation.marked marks <$> context.pattern pattern
  | .bgp triples _ => basicGraphPattern_marked plain triples
  | .group elements _ => by
    have ofElements : (context.marked marks).elements elements (.bgp []) []
        = (fun result => (result.1.marked marks, result.2.map (Expression.marked marks)))
          <$> context.elements elements (.bgp []) [] :=
      elements_marked plain elements (.bgp []) []
    simp only [pattern, ofElements, map_bind, bind_map_left, map_pure, marked_filtered]
  | .union left right _ => by
    simp only [pattern, pattern_marked plain left, pattern_marked plain right, map_bind,
      bind_map_left, map_pure, Operation.marked_union, List.map_cons, List.map_nil]
  | .graph name inner _ => by
    simp only [pattern, pattern_marked plain inner, varOrIri_marked plain, Lowering.lift_map,
      quads_marked, embedGraph_marked plain, Lowering.map_ite, map_bind, bind_map_left, map_pure,
      pure_bind]
    rfl
  | .service silent endpoint inner _ => by
    simp only [pattern, pattern_marked plain inner, varOrIri_marked plain, Lowering.lift_map,
      map_bind, bind_map_left, map_pure]
    rfl
  | .values data _ => inlineData_marked plain data
  | .subquery query _ => select_marked plain query
  | .optional _ _ | .minus _ _ | .filter _ _ | .bind _ _ _ => rfl

theorem elements_marked (plain : context.MakesPlain) : ∀ (elements : List Surface.Pattern)
    (operation : Operation) (filters : List Expression),
    (context.marked marks).elements elements (operation.marked marks)
        (filters.map (Expression.marked marks))
      = (fun result => (result.1.marked marks, result.2.map (Expression.marked marks)))
        <$> context.elements elements operation filters
  | [], operation, filters => by
    simp only [elements, map_pure]
  | element :: rest, operation, filters => by
    have asMember (isMember : element.isMember = true) :
        (context.marked marks).elements (element :: rest) (operation.marked marks)
            (filters.map (Expression.marked marks))
          = (fun result => (result.1.marked marks, result.2.map (Expression.marked marks)))
            <$> context.elements (element :: rest) operation filters := by
      simp only [elements_member _ isMember, pattern_marked plain element, map_bind, bind_map_left,
        ← Operation.keepsForms_marked.simplifiedJoin, elements_marked plain rest]
    cases element with
    | filter condition span =>
      have ofFilters : ∀ condition : Expression,
          filters.map (Expression.marked marks) ++ [condition.marked marks]
            = (filters ++ [condition]).map (Expression.marked marks) := fun condition => by
        rw [List.map_append]
        rfl
      simp only [elements, expression_marked plain condition, map_bind, bind_map_left, ofFilters,
        elements_marked plain rest]
    | optional inner span =>
      simp only [elements, pattern_marked plain inner, map_bind, bind_map_left,
        ← Operation.keepsForms_marked.leftJoinOf, elements_marked plain rest]
    | minus inner span =>
      simp only [elements, pattern_marked plain inner, map_bind, bind_map_left,
        ← Operator.marked_minus, ← Operation.marked_of, elements_marked plain rest]
    | bind value name span =>
      simp only [elements, expression_marked plain value, var_marked plain, map_bind,
        bind_map_left, ← Operator.marked_extend, ← Operation.marked_of,
        elements_marked plain rest]
    | bgp | group | union | values | graph | service | subquery => exact asMember rfl

theorem select_marked (plain : context.MakesPlain) : ∀ query : Surface.Select,
    (context.marked marks).select query = Operation.marked marks <$> context.select query
  | ⟨duplicates, projection, dataset, inner, modifiers⟩ => by
    simp only [select, pattern_marked plain inner, (projection_marked plain projection).run_nil,
      solutions_marked plain modifiers, shown_marked plain, ← Wrapper.marked_project,
      ← Operator.marked_wrap,
      ← Operation.marked_of, ← marked_withDuplicates, ← marked_sliced, overDataset_marked plain,
      Lowering.lift_map, map_bind, bind_map_left]

theorem projection_marked (plain : context.MakesPlain) : ∀ projection : Surface.Projection,
    Follows marks (List.map (markedItem marks)) ((context.marked marks).projection projection)
      (context.projection projection)
  | .all => .pure []
  | .items items => selectItems_marked plain items

theorem selectItems_marked (plain : context.MakesPlain) : ∀ items : List SelectItem,
    Follows marks (List.map (markedItem marks)) ((context.marked marks).selectItems items)
      (context.selectItems items)
  | [] => .pure []
  | .var name :: rest => by
    simp only [selectItems, var_marked plain]
    exact (selectItems_marked plain rest).bind fun others =>
      .pure ((context.var name, none) :: others)
  | .computed value name :: rest => by
    simp only [selectItems, var_marked plain]
    exact (Follows.lift (expression_marked plain value)).bind fun value =>
      (extractAggregates_marked plain value).bind fun value =>
        (selectItems_marked plain rest).bind fun others =>
          .pure ((context.var name, some value) :: others)

theorem solutions_marked (plain : context.MakesPlain) : ∀ (modifiers : Surface.Modifiers)
    (selected : List (Variable × Option Expression)) (aggregates : List BoundAggregate)
    (input : Operation),
    (context.marked marks).solutions (selected.map (markedItem marks))
        (aggregates.map (BoundAggregate.marked marks)) (input.marked marks) modifiers
      = Operation.marked marks <$> context.solutions selected aggregates input modifiers
  | ⟨groupBy, having, orderBy, _, _, values⟩, selected, aggregates, input => by
    cases groupBy with
    | none =>
      have ofAll : ∀ aggregates : List BoundAggregate,
          Operator.group (input.marked marks) [] (aggregates.map (BoundAggregate.marked marks))
            = (Operator.group input [] aggregates).marked marks :=
        fun aggregates => (Operator.marked_group input [] aggregates).symm
      simp only [solutions, (conditions_marked plain having).run,
        (orderKeys_marked plain orderBy).run, List.isEmpty_map, Lowering.map_ite, ofAll,
        ← Operator.marked_orderBy, ← Operation.marked_of, ← marked_conditions,
        joinedWith_marked plain, ← marked_computed, map_bind, bind_map_left, map_pure, pure_bind]
    | some keys =>
      simp only [solutions, (conditions_marked plain having).run,
        (orderKeys_marked plain orderBy).run, groupKeys_marked plain keys, List.isEmpty_map,
        Lowering.map_ite, ← Operator.marked_group, ← Operator.marked_orderBy,
        ← Operation.marked_of, ← marked_conditions, joinedWith_marked plain, ← marked_computed,
        map_bind, bind_map_left, map_pure, pure_bind]

theorem conditions_marked (plain : context.MakesPlain) :
    ∀ conditions : List Surface.Expression,
    Follows marks (List.map (Expression.marked marks))
      ((context.marked marks).conditions conditions) (context.conditions conditions)
  | [] => .pure []
  | condition :: rest => by
    rw [conditions, conditions]
    exact (Follows.lift (expression_marked plain condition)).bind fun condition =>
      (extractAggregates_marked plain condition).bind fun condition =>
        (conditions_marked plain rest).bind fun others => .pure (condition :: others)

theorem orderKeys_marked (plain : context.MakesPlain) : ∀ keys : List OrderKey,
    Follows marks (List.map (Expression.marked marks)) ((context.marked marks).orderKeys keys)
      (context.orderKeys keys)
  | [] => .pure []
  | .var name direction :: rest => by
    simp only [orderKeys, var_marked plain]
    refine (orderKeys_marked plain rest).bind fun others => ?_
    have ofKey : orderKey direction (.var ((context.var name).marked marks))
        = (orderKey direction (.var (context.var name))).marked marks :=
      (marked_orderKey direction (.var (context.var name))).symm
    rw [ofKey]
    exact .pure (orderKey direction (.term (.var (context.var name))) :: others)
  | .computed value direction :: rest => by
    rw [orderKeys, orderKeys]
    refine (Follows.lift (expression_marked plain value)).bind fun value =>
      (extractAggregates_marked plain value).bind fun value =>
        (orderKeys_marked plain rest).bind fun others => ?_
    rw [← marked_orderKey]
    exact .pure (orderKey direction value :: others)

theorem groupKeys_marked (plain : context.MakesPlain) : ∀ (keys : List GroupKey)
    (operation : Operation),
    (context.marked marks).groupKeys keys (operation.marked marks)
      = (fun result => (result.1.marked marks, result.2.map (Variable.marked marks)))
        <$> context.groupKeys keys operation
  | [], operation => by simp only [groupKeys, map_pure, List.map_nil]
  | .var name :: rest, operation => by
    simp only [groupKeys, groupKeys_marked plain rest, var_marked plain, map_bind, bind_map_left,
      map_pure, List.map_cons]
  | .computed value (some name) :: rest, operation => by
    simp only [groupKeys, expression_marked plain value, var_marked plain, map_bind, bind_map_left,
      pure_bind, ← Operator.marked_extend, ← Operation.marked_of, groupKeys_marked plain rest,
      map_pure, List.map_cons]
  | .computed value none :: rest, operation => by
    simp only [groupKeys, expression_marked plain value, newVariable_marked plain, map_bind,
      bind_map_left, ← Operator.marked_extend, ← Operation.marked_of, groupKeys_marked plain rest,
      map_pure, List.map_cons]

end

end Context

end QueryAlgebra
