import QueryAlgebra.Lowering.Request
import QueryAlgebra.Proofs.Lifting.WrittenQueries

/-! # Reading plain queries again

Each clause of a written plain query is read as what it was. Values that the form does not take up
are bound at the end of the pattern, before the filters of a lone group are applied. So every form
is written as a query that is read as the form of `PlainQuery.reread`: `PlainQuery.exists_asks`.
-/

namespace QueryAlgebra

open Surface.Pattern (groupElements groupOf inScopeOfAll)

/-- A step that succeeds has one result. -/
private theorem pure_inj {α : Type} {first second : α}
    (same : (pure first : Lowering α) = pure second) : first = second := by
  have results := congrFun same default
  cases results
  rfl

namespace Context

variable {context : Context}

/-! ### The pattern -/

private theorem elements_binds (plain : context.MakesPlain) {extensions : Extensions}
    {bindings : Bindings} (reads : List.Forall₂ context.ReadsValue extensions bindings)
    (before : Operation) (filters : List Expression) :
    context.elements extensions.binds before filters = pure (bindings.extend before, filters) := by
  induction reads generalizing before with
  | nil => rw [Extensions.binds, List.map_nil, elements]; rfl
  | @cons written entry extensions bindings first _ ih =>
    obtain ⟨names, value⟩ := first
    rw [Extensions.binds, List.map_cons, elements, value, pure_bind, var_eq plain, names]
    exact ih _

/-- The pattern of a query is read as what the pieces of its core come to, with the values that are
left bound before the filters of a lone group are applied. -/
theorem pattern_written (plain : context.MakesPlain) {elements : List Surface.Pattern}
    {pieces : List Piece} (writes : context.AllWrite elements pieces) {extensions : Extensions}
    {left : Bindings} (reads : List.Forall₂ context.ReadsValue extensions left) :
    context.pattern (groupOf (groupElements elements ++ extensions.binds))
      = pure (filtered (left.extend (Piece.opened pieces).1) (Piece.opened pieces).2) := by
  rw [pattern_groupOf, Context.pattern, elements_append, elements_groupElements plain writes,
    pure_bind]
  obtain ⟨inside, filters⟩ := Piece.opened pieces
  dsimp only
  rw [elements_binds plain reads, pure_bind]

/-- The variables that the pattern of a query binds. -/
theorem inScope_written {elements : List Surface.Pattern} {extensions : Extensions}
    {left : Bindings}
    (reads : List.Forall₂ context.ReadsValue extensions left) :
    (groupOf (groupElements elements ++ extensions.binds)).inScope
      = inScopeOfAll elements ++ left.map (·.1) := by
  have binds : inScopeOfAll extensions.binds = left.map (·.1) := by
    induction reads with
    | nil => rfl
    | @cons written entry extensions bindings first _ ih =>
      rw [Extensions.binds, List.map_cons, inScopeOfAll, Surface.Pattern.inScope, first.1,
        List.map_cons]
      exact congrArg (entry.1 :: ·) ih
  rw [inScope_groupOf, inScopeOfAll_append, binds, ← inScope_groupOf elements, groupOf,
    Surface.Pattern.inScope]

/-! ### Clauses with expressions -/

mutual

private theorem replaceAggregates_rowwise : ∀ {expression : Expression},
    expression.isRowwise = true → context.replaceAggregates expression = pure expression
  | .term value, _ => by rw [replaceAggregates]
  | .call callee arguments, rowwise => by
    rw [replaceAggregates, replaceAllAggregates_rowwise rowwise, pure_bind]
  | .existence negated input, _ => by rw [replaceAggregates]
  | .wildcard, _ => by rw [replaceAggregates]

private theorem replaceAllAggregates_rowwise : ∀ {expressions : List Expression},
    Expression.allRowwise expressions = true →
    context.replaceAllAggregates expressions = pure expressions
  | [], _ => by rw [replaceAllAggregates]
  | expression :: rest, rowwise => by
    obtain ⟨ofFirst, ofRest⟩ := Bool.and_eq_true_iff.1 rowwise
    rw [replaceAllAggregates, replaceAggregates_rowwise ofFirst,
      replaceAllAggregates_rowwise ofRest, pure_bind, pure_bind]

end

/-- An expression without aggregates that can be held by a traversal. -/
def IsHeld (expression : Expression) : Prop :=
  expression.isClause = true
    ∧ (Node.expression expression).fits Traversal.defaultLimit (fun _ => .descend) 1 = true

private theorem extractAggregates_held {expression : Expression} (held : IsHeld expression) :
    context.extractAggregates expression = pure expression := by
  rw [extractAggregates, Node.checkFits_of_descend _ held.2,
    replaceAggregates_rowwise (Bool.and_eq_true_iff.1 held.1).2]
  rfl

/-- The keys of an order are read as they were. -/
theorem orderKeys_written {keys : List Surface.OrderKey}
    {order : List (Surface.Direction × Expression)}
    (reads : List.Forall₂ context.ReadsKey keys order) (held : ∀ key ∈ order, IsHeld key.2) :
    context.orderKeys keys = pure (order.map fun key => orderKey key.1 key.2) := by
  induction reads with
  | nil => rw [orderKeys, List.map_nil]
  | @cons written key keys order first _ ih =>
    have others := ih fun other member => held other (List.mem_cons_of_mem _ member)
    obtain ⟨value, rfl, read⟩ := first
    have computed : context.orderKeys (.computed value key.1 :: keys)
        = pure ((key :: order).map fun key => orderKey key.1 key.2) := by
      rw [orderKeys, read, others]
      have lifted : (liftM (pure key.2 : Lowering Expression) : Extracting Expression)
          = pure key.2 := rfl
      rw [lifted, pure_bind, extractAggregates_held (held key (List.mem_cons_self ..)), pure_bind,
        pure_bind, List.map_cons]
    cases value with
    | var name =>
      have same : Expression.var (context.var name) = key.2 := by
        rw [expression] at read
        exact pure_inj read
      rw [Surface.OrderKey.of, orderKeys, others, same]
      rfl
    | _ => exact computed

/-! ### What is shown -/

private theorem take_written {extensions : Extensions} {bindings : Bindings}
    (reads : List.Forall₂ context.ReadsValue extensions bindings) (name : Variable) :
    Option.Rel (fun value entry => context.expression value = pure entry)
        (extensions.take name).1 ((bindings.find? (·.1 = name)).map (·.2))
      ∧ List.Forall₂ context.ReadsValue (extensions.take name).2
        (bindings.eraseP (·.1 = name)) := by
  induction reads with
  | nil => exact ⟨.none, .nil⟩
  | @cons written entry extensions bindings first others ih =>
    rw [Extensions.take]
    by_cases same : entry.1 = name
    · rw [if_pos (first.1.trans same), List.find?_cons_of_pos (by simpa using same),
        List.eraseP_cons_of_pos (by simpa using same)]
      exact ⟨.some first.2, others⟩
    · have other : ¬written.1 = name := fun equal => same (first.1.symm.trans equal)
      rw [if_neg other, List.find?_cons_of_neg (by simpa using same),
        List.eraseP_cons_of_neg (by simpa using same)]
      exact ⟨ih.1, .cons first ih.2⟩

/-- The items of a projection are read as the variables with the values that they take, and the
values that are left are read as such. -/
theorem selectItems_written (plain : context.MakesPlain) {extensions : Extensions}
    {bindings : Bindings} (reads : List.Forall₂ context.ReadsValue extensions bindings)
    (held : ∀ entry ∈ bindings, IsHeld entry.2) (vars : List Variable) :
    context.selectItems (extensions.selectItems .empty vars).1 = pure (bindings.take vars).1
      ∧ List.Forall₂ context.ReadsValue (extensions.selectItems .empty vars).2
        (bindings.take vars).2
      ∧ (extensions.selectItems .empty vars).1.any (·.isComputed)
        = !(Bindings.ofItems (bindings.take vars).1).isEmpty := by
  induction vars generalizing extensions bindings with
  | nil => exact ⟨by rw [Extensions.selectItems, selectItems]; rfl, reads, rfl⟩
  | cons name names ih =>
    obtain ⟨taken, others⟩ := take_written reads name
    obtain ⟨items, left, computed⟩ := ih others fun entry member =>
      held entry (List.mem_of_mem_eraseP member)
    have nothing : (NameMap.empty : NameMap Surface.Expression).find? name.name = none := rfl
    rw [Extensions.selectItems, Bindings.take, nothing, Option.or_none]
    cases found : bindings.find? (·.1 = name) with
    | none =>
      rw [found, Option.map_none] at taken
      generalize (extensions.take name).1 = value at taken ⊢
      cases taken
      refine ⟨?_, left, computed⟩
      rw [selectItems, items, var_eq plain]
      rfl
    | some entry =>
      have ofEntry := held entry (List.mem_of_find?_eq_some found)
      rw [found, Option.map_some] at taken
      generalize (extensions.take name).1 = value at taken ⊢
      cases taken with
      | @some value _ read =>
        refine ⟨?_, left, rfl⟩
        have lifted : (liftM (pure entry.2 : Lowering Expression) : Extracting Expression)
            = pure entry.2 := rfl
        rw [selectItems, read, items, var_eq plain, lifted, pure_bind,
          extractAggregates_held ofEntry, pure_bind, pure_bind]
        rfl

theorem computed_eq (items : List (Variable × Option Expression)) (operation : Operation) :
    computed items operation = (Bindings.ofItems items).extend operation := by
  induction items generalizing operation with
  | nil => rfl
  | cons item rest ih =>
    obtain ⟨name, value⟩ := item
    cases value with
    | none => exact ih operation
    | some value => exact ih _

/-- The solutions of a query without groups, conditions or trailing inline data. -/
theorem solutions_written {keys : List Surface.OrderKey}
    {order : List (Surface.Direction × Expression)}
    (reads : List.Forall₂ context.ReadsKey keys order) (held : ∀ key ∈ order, IsHeld key.2)
    (items : List (Variable × Option Expression)) (input : Operation) (limit offset : Option Nat) :
    context.solutions items [] input
        { Surface.Modifiers.none with orderBy := keys, limit := limit, offset := offset }
      = pure (PlainQuery.ordered order ((Bindings.ofItems items).extend input)) := by
  show context.solutions items [] input ⟨none, [], keys, limit, offset, none⟩ = _
  rw [solutions, conditions, orderKeys_written reads held, ← computed_eq, PlainQuery.ordered]
  cases order <;> rfl

/-! ### The four forms -/

/-- An operation is written as a query that is read as another operation, whatever slice and dataset
are added to it. -/
structure Asks (context : Context) (operation again : Operation)
    (asked : Option Nat → Option Nat → Option Surface.Dataset → Surface.Query) : Prop where
  written : operation.written false = pure (.query (asked none none none))
  slice : ∀ start length, (asked none none none).mapModifiers (.sliced start length)
    = asked length (if start = 0 then none else some start) none
  dataset : ∀ limit offset dataset,
    (asked limit offset none).withDataset dataset = asked limit offset (some dataset)
  reads : ∀ limit offset dataset, context.query (asked limit offset dataset)
    = liftM (context.overDataset dataset (sliced limit offset again))

end Context

namespace PlainQuery

variable {context : Context} {query : PlainQuery} {elements : List Surface.Pattern}
  {extensions : Extensions} {keys : List Surface.OrderKey}

/-- All clauses of a query can be held by a traversal. -/
structure HasHeldClauses (query : PlainQuery) : Prop where
  values : ∀ entry ∈ query.bindings, Context.IsHeld entry.2
  keys : ∀ key ∈ query.order, Context.IsHeld key.2

/-- The variables of a star over the written pattern. -/
private theorem starVariables_written (plain : context.MakesPlain)
    (clauses : query.Clauses context elements extensions keys) {left : Extensions}
    (reads : List.Forall₂ context.ReadsValue left query.left) :
    (Surface.starVariables (some (groupOf (groupElements elements ++ left.binds)))
      Surface.Modifiers.none.values).map context.var = query.starred := by
  have same : ∀ names : List Variable, names.map context.var = names := fun names => by
    rw [List.map_congr_left fun name _ => Context.var_eq plain name, List.map_id']
  rw [same, Surface.starVariables, Option.map_some, Option.getD_some, Context.inScope_written reads,
    clauses.listed, starred]
  simp [Surface.Modifiers.none]

private theorem projection_written {duplicates : Surface.Duplicates} {vars : List Variable}
    (clauses : query.Clauses context elements extensions keys)
    (form : query.form = .select duplicates vars)
    (computed : (extensions.selectItems .empty vars).1.any (·.isComputed) = !query.shown.isEmpty) :
    (Operation.of (.wrap (.project vars) query.solutions)).written false
      = pure (.query (.select
        { duplicates := .keep
          projection :=
            if query.hasStar then .all else .items (extensions.selectItems .empty vars).1
          dataset := none
          pattern := groupOf
            (groupElements elements ++ (extensions.selectItems .empty vars).2.binds)
          modifiers := { Surface.Modifiers.none with orderBy := keys } })) := by
  have star : query.hasStar
      = (!(extensions.selectItems .empty vars).1.any (·.isComputed)
        && query.solutions.shows vars) := by
    rw [hasStar, computed, Bool.not_not, form]
    rfl
  rw [Operation.of, Operation.written, Operator.written, clauses.written, Collecting.lift_ok,
    pure_bind, star]
  have ungrouped : QueryScope.isGrouped ⟨groupElements elements, extensions, .empty,
      { Surface.Modifiers.none with orderBy := keys }⟩ = false := rfl
  simp only [QueryScope.select, ungrouped, Bool.not_false, Bool.and_true]
  rfl

private theorem asks_select (plain : context.MakesPlain)
    (clauses : query.Clauses context elements extensions keys) (held : query.HasHeldClauses)
    {duplicates : Surface.Duplicates} {vars : List Variable}
    (form : query.form = .select duplicates vars) :
    ∃ asked, context.Asks (query.form.apply query.solutions)
      (query.reread.form.apply query.reread.solutions) asked := by
  obtain ⟨items, left, computed⟩ :=
    Context.selectItems_written plain clauses.values held.values vars
  have formVars : query.form.vars = vars := by rw [form]; rfl
  rw [← formVars] at items left computed
  have projected := projection_written clauses form (formVars ▸ computed)
  rw [formVars] at items left
  have reads :
      List.Forall₂ context.ReadsValue (extensions.selectItems .empty vars).2 query.left := by
    rw [PlainQuery.left, formVars]
    exact left
  have star := starVariables_written plain clauses reads
  refine ⟨fun limit offset dataset => .select
    { duplicates
      projection := if query.hasStar then .all else .items (extensions.selectItems .empty vars).1
      dataset
      pattern := groupOf (groupElements elements ++ (extensions.selectItems .empty vars).2.binds)
      modifiers := { Surface.Modifiers.none with orderBy := keys, limit, offset } }, ?_, ?_, ?_, ?_⟩
  · rw [form, QueryForm.apply]
    cases duplicates with
    | keep => exact projected
    | distinct | reduced =>
      rw [Context.withDuplicates, Operation.of, Operation.written, Operator.written,
        Collecting.asQuery, projected]
      rfl
  · intro start length
    cases length <;> rfl
  · intro limit offset dataset
    rfl
  · intro limit offset dataset
    have ofSolutions := Context.solutions_written clauses.order held.keys
    have again : query.reread.solutions = ordered query.order (query.shown.extend
        (filtered ((Bindings.take vars query.bindings).2.extend (Piece.opened query.core.pieces).1)
          (Piece.opened query.core.pieces).2)) := by
      rw [← formVars]
      rfl
    rw [Context.query, Context.select, Context.pattern_written plain clauses.writes left, pure_bind,
      again]
    by_cases isStar : query.hasStar = true
    · have form' : query.reread.form = .select duplicates query.starred := by
        rw [reread, if_pos isStar, form]
        rfl
      have none : query.shown = [] := List.isEmpty_iff.1 (Bool.and_eq_true_iff.1 isStar).1
      have read : (context.projection .all).run [] = pure ([], []) := by
        rw [Context.projection]
        rfl
      rw [if_pos isStar, read, pure_bind]
      simp only [ofSolutions, pure_bind]
      rw [Context.shown, star, form', none]
      rfl
    · have form' : query.reread.form = .select duplicates vars := by
        rw [reread, if_neg isStar, form]
      have read : (context.projection (.items (extensions.selectItems .empty vars).1)).run []
          = pure ((Bindings.take vars query.bindings).1, []) := by
        rw [Context.projection, items]
        rfl
      have shown : query.shown = Bindings.ofItems (Bindings.take vars query.bindings).1 := by
        rw [PlainQuery.shown, formVars]
      rw [if_neg isStar, read, pure_bind]
      simp only [ofSolutions, pure_bind]
      rw [Context.shown, Bindings.names_take, form', shown]
      rfl

/-- The pattern of a form that takes up no values is read as the core of the query that is read
again. -/
private theorem pattern_reread (plain : context.MakesPlain)
    (clauses : query.Clauses context elements extensions keys) (none : query.form.vars = []) :
    context.pattern (groupOf (groupElements elements ++ extensions.binds))
      = pure query.reread.core := by
  have left : query.left = query.bindings := by
    rw [PlainQuery.left, none]
    rfl
  rw [Context.pattern_written plain clauses.writes clauses.values, ← left]
  rfl

private theorem solutions_reread
    (clauses : query.Clauses context elements extensions keys) (held : query.HasHeldClauses)
    (none : query.form.vars = []) (limit offset : Option Nat) :
    context.solutions [] [] query.reread.core
        { Surface.Modifiers.none with orderBy := keys, limit := limit, offset := offset }
      = pure query.reread.solutions := by
  have shown : query.reread.bindings = [] := by
    show Bindings.ofItems (Bindings.take query.form.vars query.bindings).1 = []
    rw [none]
    rfl
  rw [Context.solutions_written clauses.order held.keys, solutions, shown]
  rfl

private theorem asks_ask (plain : context.MakesPlain)
    (clauses : query.Clauses context elements extensions keys) (held : query.HasHeldClauses)
    (form : query.form = .ask) :
    ∃ asked, context.Asks (query.form.apply query.solutions)
      (query.reread.form.apply query.reread.solutions) asked := by
  have none : query.form.vars = [] := by rw [form]; rfl
  have form' : query.reread.form = .ask := by
    rw [reread, form]
    exact ite_self _
  refine ⟨fun limit offset dataset => .ask
    { dataset
      pattern := groupOf (groupElements elements ++ extensions.binds)
      modifiers := { Surface.Modifiers.none with orderBy := keys, limit, offset } }, ?_, ?_, ?_, ?_⟩
  · rw [form, QueryForm.apply, Operation.of, Operation.written, Operator.written, clauses.written]
    rfl
  · intro start length
    cases length <;> rfl
  · intro limit offset dataset
    rfl
  · intro limit offset dataset
    rw [Context.query, Context.ask, pattern_reread plain clauses none, pure_bind,
      solutions_reread clauses held none, pure_bind, form']
    rfl

private theorem asks_construct (plain : context.MakesPlain)
    (clauses : query.Clauses context elements extensions keys) (held : query.HasHeldClauses)
    {template : List Pattern} (form : query.form = .construct template)
    (writable : template.all Pattern.isWritable = true) :
    ∃ asked, context.Asks (query.form.apply query.solutions)
      (query.reread.form.apply query.reread.solutions) asked := by
  have none : query.form.vars = [] := by rw [form]; rfl
  have form' : query.reread.form = .construct template := by
    rw [reread, form]
    exact ite_self _
  obtain ⟨triples, written, read⟩ := Context.template_written plain writable
  refine ⟨fun limit offset dataset => .construct
    { template := some triples
      dataset
      pattern := groupOf (groupElements elements ++ extensions.binds)
      modifiers := { Surface.Modifiers.none with orderBy := keys, limit, offset } }, ?_, ?_, ?_, ?_⟩
  · rw [form, QueryForm.apply, Operation.of, Operation.written, Operator.written, clauses.written,
      written]
    rfl
  · intro start length
    cases length <;> rfl
  · intro limit offset dataset
    rfl
  · intro limit offset dataset
    rw [Context.query, Context.construct, pattern_reread plain clauses none, pure_bind,
      solutions_reread clauses held none, pure_bind, Option.getD_some, read, pure_bind, form']
    rfl

/-! #### What is described -/

theorem resources_written (plain : context.MakesPlain) {terms : List Term}
    (writable : terms.all Term.isWritableName = true) :
    ∃ resources, Term.allWrittenVarOrIri terms = .ok resources
      ∧ context.resources resources = .ok terms := by
  induction terms with
  | nil => exact ⟨[], rfl, rfl⟩
  | cons term rest ih =>
    obtain ⟨ofTerm, ofRest⟩ := Bool.and_eq_true_iff.1 writable
    obtain ⟨name, written, read⟩ := Context.varOrIri_written plain ofTerm
    obtain ⟨names, writtenRest, readRest⟩ := ih ofRest
    refine ⟨name :: names, ?_, ?_⟩
    · rw [Term.allWrittenVarOrIri, written, writtenRest]
      rfl
    · rw [Context.resources, read, readRest]
      rfl

/-- A pattern that may be absent is read as an operation. -/
private def ReadsOptional (context : Context) (pattern : Option Surface.Pattern)
    (operation : Operation) : Prop :=
  pattern = none ∧ operation = .bgp []
    ∨ ∃ given, pattern = some given ∧ context.pattern given = pure operation

private theorem describe_eq {asked : Surface.Describe} {input : Operation}
    (reads : ReadsOptional context asked.pattern input) :
    context.describe asked = (do
      let solutions ← context.solutions [] [] input asked.modifiers
      let terms ← context.described asked
      context.overDataset asked.dataset (Context.sliced asked.modifiers.limit asked.modifiers.offset
        (.of (.wrap (.describe terms) solutions)))) := by
  obtain ⟨target, dataset, pattern, modifiers⟩ := asked
  rcases reads with ⟨absent, rfl⟩ | ⟨given, present, read⟩
  · subst absent
    rfl
  · subst present
    rw [Context.describe]
    simp only [read, pure_bind]

/-- Leaving out a pattern without elements changes neither the solutions nor what a star stands
for. -/
private theorem optional_pattern (plain : context.MakesPlain)
    (clauses : query.Clauses context elements extensions keys) (none : query.form.vars = []) :
    ReadsOptional context
        (if (groupElements elements).isEmpty && extensions.isEmpty then Option.none
          else some (groupOf (groupElements elements ++ extensions.binds)))
        query.reread.core
      ∧ (Surface.starVariables
          (if (groupElements elements).isEmpty && extensions.isEmpty then Option.none
            else some (groupOf (groupElements elements ++ extensions.binds)))
          Surface.Modifiers.none.values).map context.var = query.starred := by
  have left : query.left = query.bindings := by
    rw [PlainQuery.left, none]
    rfl
  have read := pattern_reread plain clauses none
  have star := starVariables_written plain clauses (left ▸ clauses.values)
  by_cases empty : ((groupElements elements).isEmpty && extensions.isEmpty) = true
  · rw [if_pos empty]
    obtain ⟨noElements, noValues⟩ := Bool.and_eq_true_iff.1 empty
    rw [List.isEmpty_iff.1 noElements, List.isEmpty_iff.1 noValues] at read star
    have nothing : context.pattern (groupOf ([] ++ Extensions.binds [])) = pure (.bgp []) := by
      show context.pattern (.group [] .none) = _
      rw [Context.pattern, Context.elements, pure_bind]
      rfl
    exact ⟨.inl ⟨rfl, pure_inj (read.symm.trans nothing)⟩, star ▸ rfl⟩
  · rw [if_neg empty]
    exact ⟨.inr ⟨_, rfl, read⟩, star⟩

private theorem asks_describe (plain : context.MakesPlain)
    (clauses : query.Clauses context elements extensions keys) (held : query.HasHeldClauses)
    {terms : List Term} (form : query.form = .describe terms)
    (writable : terms.all Term.isWritableName = true) :
    ∃ asked, context.Asks (query.form.apply query.solutions)
      (query.reread.form.apply query.reread.solutions) asked := by
  have none : query.form.vars = [] := by rw [form]; rfl
  obtain ⟨resources, written, read⟩ := resources_written plain writable
  have star : query.hasStar
      = (terms.all (·.isVariable) && query.solutions.shows (terms.filterMap Term.asVariable?)) := by
    rw [hasStar, shown, none, form]
    rfl
  have target : query.solutions.describeTarget terms
      = .ok (if query.hasStar then .all else .resources resources) := by
    rw [Operation.describeTarget, ← star, written]
    split <;> rfl
  obtain ⟨ofPattern, ofStar⟩ := optional_pattern plain clauses none
  refine ⟨fun limit offset dataset => .describe
    { target := if query.hasStar then .all else .resources resources
      dataset
      pattern := if (groupElements elements).isEmpty && extensions.isEmpty then Option.none
        else some (groupOf (groupElements elements ++ extensions.binds))
      modifiers := { Surface.Modifiers.none with orderBy := keys, limit, offset } }, ?_, ?_, ?_, ?_⟩
  · rw [form, QueryForm.apply, Operation.of, Operation.written, Operator.written, clauses.written,
      Collecting.lift_ok, pure_bind, target]
    rfl
  · intro start length
    cases length <;> rfl
  · intro limit offset dataset
    rfl
  · intro limit offset dataset
    rw [Context.query, describe_eq ofPattern, solutions_reread clauses held none, pure_bind,
      Context.described]
    by_cases isStar : query.hasStar = true
    · have form' : query.reread.form = .describe (query.starred.map .var) := by
        rw [reread, if_pos isStar, form]
        rfl
      rw [form', if_pos isStar, ← ofStar, List.map_map]
      rfl
    · have form' : query.reread.form = .describe terms := by
        rw [reread, if_neg isStar, form]
      rw [form', if_neg isStar]
      dsimp only
      rw [read]
      rfl

/-- Every form of a plain query is written as a query that is read as the form over the solutions
that are read again. -/
theorem exists_asks (plain : context.MakesPlain)
    (clauses : query.Clauses context elements extensions keys) (held : query.HasHeldClauses)
    (writable : query.form.isWritable = true) :
    ∃ asked, context.Asks (query.form.apply query.solutions)
      (query.reread.form.apply query.reread.solutions) asked := by
  cases form : query.form with
  | select duplicates vars => exact form ▸ asks_select plain clauses held form
  | ask => exact form ▸ asks_ask plain clauses held form
  | describe terms =>
    rw [form] at writable
    exact form ▸ asks_describe plain clauses held form writable
  | construct template =>
    rw [form] at writable
    exact form ▸ asks_construct plain clauses held form writable

end PlainQuery

end QueryAlgebra
