import QueryAlgebra.Proofs.Lifting.PlainQueries

/-! # Plain queries as they are written

Without aggregates nothing is put in place of variables and no filter becomes a condition of a
group. What is found on the way to the core of a plain query are the keys of its order and its
values, and `PlainQuery.exists_clauses` says which clauses they become.
-/

namespace QueryAlgebra

/-! ### Without aggregates -/

namespace Surface

namespace Expression

mutual

theorem substitute_empty : ∀ expression : Expression, expression.substitute .empty = expression
  | .var name => rfl
  | .iri resource => rfl
  | .literal text => rfl
  | .binary op left right => by rw [substitute, substitute_empty left, substitute_empty right]
  | .unary op operand => by rw [substitute, substitute_empty operand]
  | .call function arguments distinct => by rw [substitute, substituteAll_empty arguments]
  | .ifElse condition positive negative => by
    rw [substitute, substitute_empty condition, substitute_empty positive,
      substitute_empty negative]
  | .coalesce arguments => by rw [substitute, substituteAll_empty arguments]
  | .among value choices negated => by
    rw [substitute, substitute_empty value, substituteAll_empty choices]
  | .existence negated pattern => rfl
  | .aggregate function argument distinct separator => rfl
  | .bracketed inner => by rw [substitute, substitute_empty inner]

theorem substituteAll_empty : ∀ expressions : List Expression,
    substituteAll .empty expressions = expressions
  | [] => rfl
  | expression :: rest => by
    rw [substituteAll, substitute_empty expression, substituteAll_empty rest]

end

mutual

theorem mentions_empty : ∀ expression : Expression, expression.mentions .empty = false
  | .var name => rfl
  | .iri resource => rfl
  | .literal text => rfl
  | .binary op left right => by rw [mentions, mentions_empty left, mentions_empty right]; rfl
  | .unary op operand => by rw [mentions, mentions_empty operand]
  | .call function arguments distinct => by rw [mentions, mentionsAny_empty arguments]
  | .ifElse condition positive negative => by
    rw [mentions, mentions_empty condition, mentions_empty positive, mentions_empty negative]; rfl
  | .coalesce arguments => by rw [mentions, mentionsAny_empty arguments]
  | .among value choices negated => by
    rw [mentions, mentions_empty value, mentionsAny_empty choices]; rfl
  | .existence negated pattern => rfl
  | .aggregate function argument distinct separator => rfl
  | .bracketed inner => by rw [mentions, mentions_empty inner]

theorem mentionsAny_empty : ∀ expressions : List Expression,
    mentionsAny .empty expressions = false
  | [] => rfl
  | expression :: rest => by
    rw [mentionsAny, mentions_empty expression, mentionsAny_empty rest]; rfl

end

end Expression

namespace Pattern

mutual

theorem groupConditions_empty : ∀ pattern : Pattern, pattern.groupConditions .empty = []
  | .filter condition span => by rw [groupConditions, Expression.mentions_empty]; rfl
  | .group elements span => by rw [groupConditions, allGroupConditions_empty elements]
  | .bgp .. | .optional .. | .minus .. | .union .. | .bind .. | .values .. | .graph ..
  | .service .. | .subquery .. => rfl

theorem allGroupConditions_empty : ∀ patterns : List Pattern,
    allGroupConditions .empty patterns = []
  | [] => rfl
  | pattern :: rest => by
    rw [allGroupConditions, groupConditions_empty pattern, allGroupConditions_empty rest]; rfl

end

mutual

theorem withoutGroupConditions_empty : ∀ pattern : Pattern,
    pattern.withoutGroupConditions .empty = [pattern]
  | .filter condition span => by rw [withoutGroupConditions, Expression.mentions_empty]; rfl
  | .group elements span => by
    rw [withoutGroupConditions, allWithoutGroupConditions_empty elements]
  | .bgp .. | .optional .. | .minus .. | .union .. | .bind .. | .values .. | .graph ..
  | .service .. | .subquery .. => rfl

theorem allWithoutGroupConditions_empty : ∀ patterns : List Pattern,
    allWithoutGroupConditions .empty patterns = patterns
  | [] => rfl
  | pattern :: rest => by
    rw [allWithoutGroupConditions, withoutGroupConditions_empty pattern,
      allWithoutGroupConditions_empty rest]; rfl

end

end Pattern

end Surface

/-! ### What is found -/

/-- What is found at keys of an order. -/
def Found.ofOrder (order : List (Surface.Direction × Expression)) : List Found :=
  order.map fun key => .orderKey key.1 key.2.written.outcome

/-- What is found at bound values, the outermost first. -/
def Found.ofBindings (bindings : Bindings) : List Found :=
  bindings.reverse.map fun entry => .extension entry.1 entry.2.written.outcome

namespace Found

/-- Keys of an order and bound values are found as such, and no groups with them. -/
theorem clauses_found (order : List (Surface.Direction × Expression)) (bindings : Bindings) :
    orderKeys (ofOrder order ++ ofBindings bindings) = order.map (fun key => (key.1, key.2.written))
      ∧ extensions (ofOrder order ++ ofBindings bindings)
        = bindings.reverse.map (fun entry => (entry.1, entry.2.written))
      ∧ aggregates (ofOrder order ++ ofBindings bindings) = []
      ∧ groupKeys (ofOrder order ++ ofBindings bindings) = [] := by
  induction order with
  | nil =>
    rw [ofBindings]
    induction bindings.reverse with
    | nil => exact ⟨rfl, rfl, rfl, rfl⟩
    | cons entry rest ih =>
      obtain ⟨keys, values, others⟩ := ih
      exact ⟨keys, congrArg ((entry.1, entry.2.written) :: ·) values, others⟩
  | cons key rest ih =>
    obtain ⟨keys, others⟩ := ih
    exact ⟨congrArg ((key.1, key.2.written) :: ·) keys, others⟩

end Found

/-! ### The clauses of plain queries -/

/-- A clause of an order is read as a key. -/
def Context.ReadsKey (context : Context) (written : Surface.OrderKey)
    (key : Surface.Direction × Expression) : Prop :=
  ∃ value, written = .of key.1 value ∧ context.expression value = pure key.2

/-- A bound value is read as a value of the same variable. -/
def Context.ReadsValue (context : Context) (written : Variable × Surface.Expression)
    (entry : Variable × Expression) : Prop :=
  written.1 = entry.1 ∧ context.expression written.2 = pure entry.2

namespace Context

variable {context : Context}

private theorem order_written (plain : context.MakesPlain)
    {order : List (Surface.Direction × Expression)}
    (clauses : ∀ key ∈ order, key.2.isClause = true) :
    ∃ keys, Found.writtenOrder .empty (order.map fun key => (key.1, key.2.written)) = pure keys
      ∧ List.Forall₂ context.ReadsKey keys order := by
  induction order with
  | nil => exact ⟨[], rfl, .nil⟩
  | cons key rest ih =>
    obtain ⟨value, written, reads⟩ := expression_written plain
      (PlainQuery.isWritable_of_isClause (clauses key (List.mem_cons_self ..)))
    obtain ⟨keys, writtenRest, readsRest⟩ :=
      ih fun other member => clauses other (List.mem_cons_of_mem _ member)
    refine ⟨.of key.1 value :: keys, ?_, .cons ⟨value, rfl, reads⟩ readsRest⟩
    rw [List.map_cons, Found.writtenOrder, written, writtenRest, pure_bind, pure_bind,
      Surface.Expression.substitute_empty]

private theorem bindings_written (plain : context.MakesPlain) {bindings : Bindings}
    (clauses : ∀ entry ∈ bindings, entry.2.isClause = true) :
    ∃ extensions,
      Found.writtenExtensions .empty (bindings.map fun entry => (entry.1, entry.2.written))
        = pure extensions
      ∧ List.Forall₂ context.ReadsValue extensions bindings := by
  induction bindings with
  | nil => exact ⟨[], rfl, .nil⟩
  | cons entry rest ih =>
    obtain ⟨value, written, reads⟩ := expression_written plain
      (PlainQuery.isWritable_of_isClause (clauses entry (List.mem_cons_self ..)))
    obtain ⟨extensions, writtenRest, readsRest⟩ :=
      ih fun other member => clauses other (List.mem_cons_of_mem _ member)
    refine ⟨(entry.1, value) :: extensions, ?_, .cons ⟨rfl, reads⟩ readsRest⟩
    rw [List.map_cons, Found.writtenExtensions, written, writtenRest, pure_bind, pure_bind,
      Surface.Expression.substitute_empty]

end Context

namespace PlainQuery

private theorem written_of_core {operation : Operation} (plain : operation.isPlain = true)
    (base : operation.isExtend = false) : operation.written true = operation.written false := by
  obtain ⟨operator, metadata⟩ := operation
  cases operator with
  | extend => cases base
  | bgp patterns =>
    cases patterns <;> rw [Operation.written, Operation.written, Operator.written, Operator.written]
      <;> simp
  | combine how inputs => cases how <;> first | cases plain | rfl
  | nop | path | manage | wrap | group | orderBy | construct | deleteInsert => cases plain
  | _ => rfl

private theorem written_extend {core : Operation} {elements : List Surface.Pattern}
    (ofCore : core.written true = pure (.elements elements)) (bindings : Bindings) :
    (bindings.extend core).written true
      = ⟨.ok (.elements elements, Found.ofBindings bindings)⟩ := by
  induction bindings using List.reverseRecOn with
  | nil => exact ofCore
  | append_singleton before entry ih =>
    have last : Bindings.extend (before ++ [entry]) core
        = .of (.extend (Bindings.extend before core) entry.1 entry.2) := List.foldl_concat ..
    have found : Found.ofBindings (before ++ [entry])
        = .extension entry.1 entry.2.written.outcome :: Found.ofBindings before := by
      simp [Found.ofBindings]
    rw [last, Operation.of, Operation.written, Operator.written, if_pos rfl, ih, found]
    rfl

private theorem allOrderKeys_found {order : List (Surface.Direction × Expression)}
    (clauses : ∀ key ∈ order, key.2.isClause = true) :
    Expression.allOrderKeys (order.map fun key => Context.orderKey key.1 key.2)
      = Found.ofOrder order := by
  induction order with
  | nil => rw [List.map_nil, Expression.allOrderKeys]; rfl
  | cons key rest ih =>
    have writable := isWritable_of_isClause (clauses key (List.mem_cons_self ..))
    have others := ih fun other member => clauses other (List.mem_cons_of_mem _ member)
    obtain ⟨direction, value⟩ := key
    rw [List.map_cons, Found.ofOrder, List.map_cons]
    cases direction with
    | descending =>
      rw [Context.orderKey, Expression.operator, Expression.allOrderKeys, others]
      rfl
    | ascending =>
      rw [Context.orderKey, Expression.allOrderKeys, others]
      · rfl
      · rintro argument rfl
        have takes : operatorTakes "desc" 1 = false := by decide
        rw [Expression.isWritable] at writable
        simp [takes] at writable

private theorem written_ordered {operation : Operation} {elements : List Surface.Pattern}
    {found : List Found} (ofOperation : operation.written true = ⟨.ok (.elements elements, found)⟩)
    {order : List (Surface.Direction × Expression)}
    (clauses : ∀ key ∈ order, key.2.isClause = true) :
    (ordered order operation).written true
      = ⟨.ok (.elements elements, Found.ofOrder order ++ found)⟩ := by
  rw [ordered]
  split
  · rename_i empty
    rw [List.isEmpty_iff.1 empty, ofOperation]
    rfl
  · rw [Operation.of, Operation.written, Operator.written, ofOperation, allOrderKeys_found clauses]
    rfl

theorem ofFound_ungrouped {elements : List Surface.Pattern} {found : List Found}
    {extensions : Extensions} {keys : List Surface.OrderKey}
    (noAggregates : Found.aggregates found = []) (noKeys : Found.groupKeys found = [])
    (values : Found.writtenExtensions .empty (Found.extensions found).reverse = pure extensions)
    (order : Found.writtenOrder .empty (Found.orderKeys found) = pure keys) :
    QueryScope.ofFound elements found = .ok
      ⟨Surface.Pattern.groupElements elements, extensions, .empty,
        { Surface.Modifiers.none with orderBy := keys }⟩ := by
  have none : NameMap.ofList ([] : List (String × Surface.Expression)) = .empty := rfl
  have ofAggregates : (Found.writtenAggregates []).outcome = .ok ([], []) := rfl
  simp only [QueryScope.ofFound, noAggregates, ofAggregates, bind, Except.bind, none, values, pure,
    Except.pure, List.append_nil, noKeys, order, Extensions.groupKeys,
    Surface.Pattern.allWithoutGroupConditions_empty, Surface.Pattern.allGroupConditions_empty]
  rfl

/-- The pattern and the clauses that a plain query is written with, before its form is added. -/
structure Clauses (query : PlainQuery) (context : Context) (elements : List Surface.Pattern)
    (extensions : Extensions) (keys : List Surface.OrderKey) : Prop where
  writes : context.AllWrite elements query.core.pieces
  listed : Surface.Pattern.inScopeOfAll elements = query.core.listed
  values : List.Forall₂ context.ReadsValue extensions query.bindings
  order : List.Forall₂ context.ReadsKey keys query.order
  written : (query.solutions.written true).asScope = .ok
    ⟨Surface.Pattern.groupElements elements, extensions, .empty,
      { Surface.Modifiers.none with orderBy := keys }⟩

/-- What is found on the way to the core of a plain query becomes its clauses. -/
theorem exists_clauses {context : Context} (makesPlain : context.MakesPlain) {query : PlainQuery}
    (plain : query.IsPlain) (base : query.core.isExtend = false) :
    ∃ elements extensions keys, query.Clauses context elements extensions keys := by
  obtain ⟨elements, ofCore, writes, scope⟩ := Context.rereads makesPlain plain.core
  obtain ⟨extensions, writtenValues, readsValues⟩ := Context.bindings_written makesPlain plain.values
  obtain ⟨keys, writtenKeys, readsKeys⟩ := Context.order_written makesPlain plain.keys
  refine ⟨elements, extensions, keys, writes, scope, readsValues, readsKeys, ?_⟩
  rw [← written_of_core plain.core base] at ofCore
  have ofSolutions := written_ordered (written_extend ofCore query.bindings) plain.keys
  obtain ⟨ofKeys, ofValues, noAggregates, noGroups⟩ :=
    Found.clauses_found query.order query.bindings
  have values : Found.writtenExtensions .empty (Found.extensions
      (Found.ofOrder query.order ++ Found.ofBindings query.bindings)).reverse
        = pure extensions := by
    rw [ofValues, ← List.map_reverse, List.reverse_reverse, writtenValues]
  have order : Found.writtenOrder .empty (Found.orderKeys
      (Found.ofOrder query.order ++ Found.ofBindings query.bindings)) = pure keys := by
    rw [ofKeys, writtenKeys]
  rw [solutions, Collecting.asScope, Collecting.asElements, ofSolutions]
  show QueryScope.ofFound elements (_ ++ []) = _
  rw [List.append_nil]
  exact ofFound_ungrouped noAggregates noGroups values order

end PlainQuery

end QueryAlgebra
