import QueryAlgebra.Operation.Equality
import QueryAlgebra.Operation.Walk
import QueryAlgebra.Node.OwnTerms
import QueryAlgebra.Proofs.NameMap
import QueryAlgebra.Proofs.Operation.KeptForms
import Mathlib.Data.List.Lex
import Mathlib.Data.String.Basic

/-! # Operations under marked names

Marks are fixed texts, one that is put before the name of every variable and one that is put before
the label of every blank node. They can be taken away again, so different operations and expressions
are different under marks: `Expression.marked_injective`. As the names of variables all begin alike
under marks, they keep their order, and the cells of inline data stay where they are:
`Row.entries_marked`.
-/

namespace QueryAlgebra

/-- The texts before the names of variables and before the labels of blank nodes. -/
structure NameMarks where
  var : String
  blank : String
deriving DecidableEq

/-- Replaces all terms, in templates too. -/
def Rebuild.ofTerms (f : Term → Term) : Rebuild where
  closed _ := false
  pattern _ := Pattern.mapTerms f
  expression := Expression.mapOwnTerms f
  operation op := ⟨op.operator.mapOwnTerms f, op.metadata⟩

section

variable (marks : NameMarks)

/-- The variable with its mark. -/
def Variable.marked (name : Variable) : Variable := ⟨marks.var ++ name.name⟩

/-- The term with marks before its names. -/
def Term.marked : Term → Term
  | .iri node => .iri node
  | .blank node => .blank ⟨marks.blank ++ node.label⟩
  | .literal text => .literal text
  | .var name => .var (name.marked marks)
  | .defaultGraph => .defaultGraph
  | .quad subject predicate object graph =>
    .quad subject.marked predicate.marked object.marked graph.marked

/-- The term without the marks before its names. -/
def Term.unmarked : Term → Term
  | .iri node => .iri node
  | .blank node => .blank ⟨.ofList (node.label.toList.drop marks.blank.length)⟩
  | .literal text => .literal text
  | .var name => .var ⟨.ofList (name.name.toList.drop marks.var.length)⟩
  | .defaultGraph => .defaultGraph
  | .quad subject predicate object graph =>
    .quad subject.unmarked predicate.unmarked object.unmarked graph.unmarked

/-- The pattern with marks before its names. -/
def Pattern.marked (pattern : Pattern) : Pattern := pattern.mapTerms (Term.marked marks)

/-- The row with marks before its names, those of its columns among them. -/
def Row.marked (row : Row) : Row := mapRow (Term.marked marks) row

/-- The wrapper with marks before its names. -/
def Wrapper.marked (wrapper : Wrapper) : Wrapper := wrapper.mapOwnTerms (Term.marked marks)

/-- The operation with marks before all of its names. -/
def Operation.marked (operation : Operation) : Operation :=
  operation.rebuild (.ofTerms (Term.marked marks))

/-- The operator with marks before all of its names. -/
def Operator.marked (operator : Operator) : Operator :=
  (operator.rebuild (.ofTerms (Term.marked marks))).mapOwnTerms (Term.marked marks)

/-- The expression with marks before all of its names. -/
def Expression.marked (expression : Expression) : Expression :=
  expression.rebuild (.ofTerms (Term.marked marks))

/-- The aggregate with marks before its name and those of its expression. -/
def BoundAggregate.marked (bound : BoundAggregate) : BoundAggregate :=
  ⟨bound.name.marked marks, bound.expression.marked marks⟩

end

variable {marks : NameMarks}

/-! ### Taking marks away -/

namespace Term

theorem unmarked_marked (term : Term) : (term.marked marks).unmarked marks = term := by
  have dropped : ∀ mark text : String,
      String.ofList ((mark ++ text).toList.drop mark.length) = text := by
    intro mark text
    rw [String.toList_append, ← String.length_toList, List.drop_left, String.ofList_toList]
  induction term with
  | iri | literal | defaultGraph => rfl
  | blank node => rw [marked, unmarked, dropped]
  | var name => rw [marked, unmarked, Variable.marked, dropped]
  | quad subject predicate object graph ofSubject ofPredicate ofObject ofGraph =>
    rw [marked, unmarked, ofSubject, ofPredicate, ofObject, ofGraph]

theorem marked_injective : Function.Injective (marked marks) :=
  Function.LeftInverse.injective unmarked_marked

theorem marked_beq (first second : Term) :
    (first.marked marks == second.marked marks) = (first == second) := by
  rw [Bool.eq_iff_iff, beq_iff_eq, beq_iff_eq, marked_injective.eq_iff]

theorem isDefaultGraph_marked (term : Term) :
    (term.marked marks).isDefaultGraph = term.isDefaultGraph := by
  cases term <;> rfl

end Term

theorem Variable.unmarked_marked (name : Variable) :
    (name.marked marks).mapTerm (Term.unmarked marks) = name := by
  have asTerm : (Term.var (name.marked marks)).unmarked marks = .var name :=
    Term.unmarked_marked (.var name)
  rw [mapTerm, asTerm]

theorem Pattern.unmarked_marked (pattern : Pattern) :
    (pattern.marked marks).mapTerms (Term.unmarked marks) = pattern := by
  simp only [marked, mapTerms, Term.unmarked_marked]

/-! ### Rows -/

/-- Names that begin alike are in the order of what follows. -/
theorem strictMono_mark (mark : String) : StrictMono (mark ++ ·) := by
  intro first second less
  rw [String.lt_iff_toList_lt, String.toList_append, String.toList_append]
  exact List.Lex.append_left _ less mark.toList

namespace Row

/-- The cell with marks before its names. -/
def markedCell (marks : NameMarks) (cell : String × Term) : String × Term :=
  (marks.var ++ cell.1, cell.2.marked marks)

/-- The cells of a row stay in their order. -/
theorem entries_marked (row : Row) :
    (Row.marked marks row).entries = row.entries.map (markedCell marks) := by
  have sorted : (row.entries.map (markedCell marks)).Pairwise fun a b => a.1 < b.1 :=
    List.pairwise_map.2 (row.sorted.imp fun less => strictMono_mark marks.var less)
  have distinct : ((row.entries.map (markedCell marks)).map (·.1)).Nodup :=
    List.nodup_iff_pairwise_ne.2 (List.pairwise_map.2 (sorted.imp fun less => ne_of_lt less))
  exact (NameMap.eq_entries_of_perm sorted (NameMap.perm_entries_ofList distinct)).symm

theorem unmarked_marked (row : Row) :
    mapRow (Term.unmarked marks) (Row.marked marks row) = row := by
  have ofCell : ∀ cell : String × Term,
      ((Variable.mapTerm (Term.unmarked marks) ⟨(markedCell marks cell).1⟩).name,
        (markedCell marks cell).2.unmarked marks) = cell := fun (name, value) =>
    Prod.ext (congrArg Variable.name (Variable.unmarked_marked ⟨name⟩))
      (Term.unmarked_marked value)
  rw [mapRow, entries_marked, List.map_map]
  exact (congrArg NameMap.ofList (List.map_id'' ofCell _)).trans (NameMap.ofList_entries row)

private theorem map_insertEntry (name : String) (value : Term) (cells : List (String × Term)) :
    (NameMap.insertEntry name value cells).map (markedCell marks)
      = NameMap.insertEntry (marks.var ++ name) (value.marked marks)
        (cells.map (markedCell marks)) := by
  have ordered := strictMono_mark marks.var
  induction cells with
  | nil => rfl
  | cons cell rest ih =>
    rw [List.map_cons, NameMap.insertEntry, NameMap.insertEntry]
    simp only [markedCell, ordered.lt_iff_lt, ordered.injective.eq_iff]
    split
    · rfl
    · split
      · rfl
      · rw [List.map_cons, ih]
        rfl

/-- A cell is put into the same place. -/
theorem marked_insert (row : Row) (name : String) (value : Term) :
    Row.marked marks (row.insert name value)
      = (Row.marked marks row).insert (marks.var ++ name) (value.marked marks) := by
  apply NameMap.ext
  rw [entries_marked]
  simp only [NameMap.insert, map_insertEntry, entries_marked]

/-- Cells are put into a row in the same order. -/
theorem marked_ofList (cells : List (String × Term)) :
    Row.marked marks (NameMap.ofList cells) = NameMap.ofList (cells.map (markedCell marks)) := by
  have ofFold : ∀ before : Row,
      Row.marked marks (cells.foldl (fun row cell => row.insert cell.1 cell.2) before)
        = (cells.map (markedCell marks)).foldl (fun row cell => row.insert cell.1 cell.2)
          (Row.marked marks before) := by
    induction cells with
    | nil => exact fun _ => rfl
    | cons cell rest ih =>
      intro before
      rw [List.foldl_cons, ih, marked_insert]
      rfl
  exact ofFold .empty

end Row

/-! ### Operations -/

private theorem vars_unmarked_marked (vars : List Variable) :
    (vars.map (Variable.marked marks)).map (Variable.mapTerm (Term.unmarked marks)) = vars :=
  Function.LeftInverse.list_map Variable.unmarked_marked vars

theorem Wrapper.unmarked_marked (wrapper : Wrapper) :
    (wrapper.marked marks).mapOwnTerms (Term.unmarked marks) = wrapper := by
  cases wrapper with
  | project vars => exact congrArg project (vars_unmarked_marked vars)
  | graph name => exact congrArg graph (Term.unmarked_marked name)
  | service name silent => exact congrArg (service · silent) (Term.unmarked_marked name)
  | describe terms =>
    exact congrArg describe (Function.LeftInverse.list_map Term.unmarked_marked terms)
  | distinct | reduced | slice | dataset | ask => rfl

private theorem patterns_unmarked_marked (patterns : List Pattern) :
    (patterns.map (Pattern.marked marks)).map (Pattern.mapTerms (Term.unmarked marks))
      = patterns :=
  Function.LeftInverse.list_map Pattern.unmarked_marked patterns

private theorem optional_unmarked_marked (template : Option (List Pattern)) :
    (template.map (·.map (Pattern.marked marks))).map
      (·.map (Pattern.mapTerms (Term.unmarked marks))) = template := by
  cases template with
  | none => rfl
  | some patterns => exact congrArg some (patterns_unmarked_marked patterns)

mutual

/-- Marks before the names of an operation can be taken away again. -/
theorem Operation.unmarked_marked : ∀ operation : Operation,
    (operation.marked marks).rebuild (.ofTerms (Term.unmarked marks)) = operation
  | ⟨operator, metadata⟩ =>
    congrArg (Operation.mk · metadata) (Operator.unmarked_marked operator)

theorem Operator.unmarked_marked : ∀ operator : Operator,
    ((operator.marked marks).rebuild (.ofTerms (Term.unmarked marks))).mapOwnTerms
      (Term.unmarked marks) = operator
  | .bgp patterns => congrArg Operator.bgp (patterns_unmarked_marked patterns)
  | .values vars rows =>
    congrArg₂ Operator.values (vars_unmarked_marked vars)
      (Function.LeftInverse.list_map Row.unmarked_marked rows)
  | .nop | .manage _ => rfl
  | .path subject predicate object graph =>
    congr (congrArg₂ (Operator.path · predicate ·) (Term.unmarked_marked subject)
      (Term.unmarked_marked object)) (Term.unmarked_marked graph)
  | .wrap wrapper input =>
    congrArg₂ Operator.wrap (Wrapper.unmarked_marked wrapper) (Operation.unmarked_marked input)
  | .filter input condition =>
    congrArg₂ Operator.filter (Operation.unmarked_marked input)
      (Expression.unmarked_marked condition)
  | .extend input name value =>
    congr (congrArg₂ Operator.extend (Operation.unmarked_marked input)
      (Variable.unmarked_marked name)) (Expression.unmarked_marked value)
  | .group input keys aggregates =>
    congr (congrArg₂ Operator.group (Operation.unmarked_marked input) (vars_unmarked_marked keys))
      (BoundAggregate.all_unmarked_marked aggregates)
  | .orderBy input keys =>
    congrArg₂ Operator.orderBy (Operation.unmarked_marked input)
      (Expression.all_unmarked_marked keys)
  | .construct input template =>
    congrArg₂ Operator.construct (Operation.unmarked_marked input)
      (patterns_unmarked_marked template)
  | .combine how inputs => congrArg (Operator.combine how) (Operation.all_unmarked_marked inputs)
  | .leftJoin left right none =>
    congrArg₂ (Operator.leftJoin · · none) (Operation.unmarked_marked left)
      (Operation.unmarked_marked right)
  | .leftJoin left right (some condition) =>
    congr (congrArg₂ Operator.leftJoin (Operation.unmarked_marked left)
      (Operation.unmarked_marked right)) (congrArg some (Expression.unmarked_marked condition))
  | .minus left right =>
    congrArg₂ Operator.minus (Operation.unmarked_marked left) (Operation.unmarked_marked right)
  | .deleteInsert delete insert none =>
    congrArg₂ (Operator.deleteInsert · · none) (optional_unmarked_marked delete)
      (optional_unmarked_marked insert)
  | .deleteInsert delete insert (some scope) =>
    congr (congrArg₂ Operator.deleteInsert (optional_unmarked_marked delete)
      (optional_unmarked_marked insert)) (congrArg some (Operation.unmarked_marked scope))

theorem Expression.unmarked_marked : ∀ expression : Expression,
    (expression.marked marks).rebuild (.ofTerms (Term.unmarked marks)) = expression
  | .term value => congrArg Expression.term (Term.unmarked_marked value)
  | .call callee arguments =>
    congrArg (Expression.call callee) (Expression.all_unmarked_marked arguments)
  | .aggregate name argument distinct separator =>
    congrArg (Expression.aggregate name · distinct separator)
      (Expression.unmarked_marked argument)
  | .existence negated input =>
    congrArg (Expression.existence negated) (Operation.unmarked_marked input)
  | .wildcard => rfl

theorem Operation.all_unmarked_marked : ∀ operations : List Operation,
    Operation.rebuildAll (.ofTerms (Term.unmarked marks))
      (Operation.rebuildAll (.ofTerms (Term.marked marks)) operations) = operations
  | [] => rfl
  | operation :: rest =>
    congrArg₂ List.cons (Operation.unmarked_marked operation)
      (Operation.all_unmarked_marked rest)

theorem Expression.all_unmarked_marked : ∀ expressions : List Expression,
    Expression.rebuildAll (.ofTerms (Term.unmarked marks))
      (Expression.rebuildAll (.ofTerms (Term.marked marks)) expressions) = expressions
  | [] => rfl
  | expression :: rest =>
    congrArg₂ List.cons (Expression.unmarked_marked expression)
      (Expression.all_unmarked_marked rest)

theorem BoundAggregate.all_unmarked_marked : ∀ aggregates : List BoundAggregate,
    (BoundAggregate.rebuildAll (.ofTerms (Term.unmarked marks))
      ((BoundAggregate.rebuildAll (.ofTerms (Term.marked marks)) aggregates).map fun bound =>
        ⟨bound.name.marked marks, bound.expression⟩)).map
      (fun bound => (⟨bound.name.mapTerm (Term.unmarked marks), bound.expression⟩
        : BoundAggregate)) = aggregates
  | [] => rfl
  | ⟨name, expression⟩ :: rest =>
    congrArg₂ List.cons
      (congrArg₂ BoundAggregate.mk (Variable.unmarked_marked name)
        (Expression.unmarked_marked expression))
      (BoundAggregate.all_unmarked_marked rest)

end

/-- Expressions that are the same under marks are the same. -/
theorem Expression.marked_injective : Function.Injective (Expression.marked marks) :=
  Function.LeftInverse.injective Expression.unmarked_marked

/-! ### The parts of an operation under marks -/

namespace Expression

@[simp] theorem marked_term (value : Term) :
    (term value).marked marks = term (value.marked marks) := rfl

@[simp] theorem marked_call (callee : Callee) (arguments : List Expression) :
    (call callee arguments).marked marks = call callee (arguments.map (marked marks)) :=
  congrArg (call callee) (rebuildAll_eq_map _ arguments)

@[simp] theorem marked_operator (name : String) (arguments : List Expression) :
    (operator name arguments).marked marks = operator name (arguments.map (marked marks)) :=
  marked_call (.operator name) arguments

@[simp] theorem marked_aggregate (name : String) (argument : Expression) (distinct : Bool)
    (separator : Option String) :
    (aggregate name argument distinct separator).marked marks
      = aggregate name (argument.marked marks) distinct separator := rfl

@[simp] theorem marked_existence (negated : Bool) (input : Operation) :
    (existence negated input).marked marks = existence negated (input.marked marks) := rfl

@[simp] theorem marked_wildcard : wildcard.marked marks = wildcard := rfl

end Expression

theorem Wrapper.marked_project (vars : List Variable) :
    (project vars).marked marks = project (vars.map (Variable.marked marks)) := rfl

namespace Operator

@[simp] theorem marked_bgp (patterns : List Pattern) :
    (bgp patterns).marked marks = bgp (patterns.map (Pattern.marked marks)) := rfl

@[simp] theorem marked_values (vars : List Variable) (rows : List Row) :
    (values vars rows).marked marks
      = values (vars.map (Variable.marked marks)) (rows.map (Row.marked marks)) := rfl

@[simp] theorem marked_nop : nop.marked marks = nop := rfl

@[simp] theorem marked_path (subject : Term) (predicate : Path) (object graph : Term) :
    (path subject predicate object graph).marked marks
      = path (subject.marked marks) predicate (object.marked marks) (graph.marked marks) := rfl

@[simp] theorem marked_manage (action : GraphAction) :
    (manage action).marked marks = manage action := rfl

@[simp] theorem marked_wrap (wrapper : Wrapper) (input : Operation) :
    (wrap wrapper input).marked marks = wrap (wrapper.marked marks) (input.marked marks) := rfl

@[simp] theorem marked_filter (input : Operation) (condition : Expression) :
    (filter input condition).marked marks
      = filter (input.marked marks) (condition.marked marks) := rfl

@[simp] theorem marked_extend (input : Operation) (name : Variable) (value : Expression) :
    (extend input name value).marked marks
      = extend (input.marked marks) (name.marked marks) (value.marked marks) := rfl

@[simp] theorem marked_group (input : Operation) (keys : List Variable)
    (aggregates : List BoundAggregate) :
    (group input keys aggregates).marked marks
      = group (input.marked marks) (keys.map (Variable.marked marks))
        (aggregates.map (BoundAggregate.marked marks)) := by
  have ofAggregates : (BoundAggregate.rebuildAll (.ofTerms (Term.marked marks)) aggregates).map
        (fun bound => ⟨bound.name.mapTerm (Term.marked marks), bound.expression⟩)
      = aggregates.map (BoundAggregate.marked marks) := by
    rw [BoundAggregate.rebuildAll_eq_map, List.map_map]
    rfl
  exact congrArg (group _ _) ofAggregates

@[simp] theorem marked_orderBy (input : Operation) (keys : List Expression) :
    (orderBy input keys).marked marks
      = orderBy (input.marked marks) (keys.map (Expression.marked marks)) :=
  congrArg (orderBy _) (Expression.rebuildAll_eq_map _ keys)

@[simp] theorem marked_construct (input : Operation) (template : List Pattern) :
    (construct input template).marked marks
      = construct (input.marked marks) (template.map (Pattern.marked marks)) := rfl

@[simp] theorem marked_combine (how : Combination) (inputs : List Operation) :
    (combine how inputs).marked marks = combine how (inputs.map (Operation.marked marks)) :=
  congrArg (combine how) (Operation.rebuildAll_eq_map _ inputs)

@[simp] theorem marked_leftJoin (left right : Operation) (condition : Option Expression) :
    (leftJoin left right condition).marked marks
      = leftJoin (left.marked marks) (right.marked marks)
        (condition.map (Expression.marked marks)) := by
  cases condition <;> rfl

@[simp] theorem marked_minus (left right : Operation) :
    (minus left right).marked marks = minus (left.marked marks) (right.marked marks) := rfl

@[simp] theorem marked_deleteInsert (delete insert : Option (List Pattern))
    (scope : Option Operation) :
    (deleteInsert delete insert scope).marked marks
      = deleteInsert (delete.map (·.map (Pattern.marked marks)))
        (insert.map (·.map (Pattern.marked marks))) (scope.map (Operation.marked marks)) := by
  cases scope <;> rfl

end Operator

namespace Operation

@[simp] theorem marked_mk (operator : Operator) (metadata : Option Metadata) :
    (mk operator metadata).marked marks = ⟨operator.marked marks, metadata⟩ := rfl

@[simp] theorem marked_of (operator : Operator) :
    (of operator).marked marks = of (operator.marked marks) := rfl

theorem keepsForms_marked :
    KeepsForms (marked marks) (Pattern.marked marks) (Expression.marked marks) where
  form operation := by
    obtain ⟨operator, metadata⟩ := operation
    cases operator with
    | leftJoin left right condition => cases condition <;> rfl
    | deleteInsert delete insert scope => cases scope <;> rfl
    | _ => rfl
  metadata operation := by
    obtain ⟨operator, metadata⟩ := operation
    rfl
  bgp _ _ := rfl
  filter _ _ _ := rfl
  combine _ _ _ := by rw [marked_mk, Operator.marked_combine]
  leftJoin _ _ _ _ := by rw [marked_mk, Operator.marked_leftJoin]

theorem marked_join (inputs : List Operation) :
    (join inputs).marked marks = join (inputs.map (marked marks)) :=
  keepsForms_marked.join inputs

theorem marked_union (inputs : List Operation) :
    (union inputs).marked marks = union (inputs.map (marked marks)) :=
  keepsForms_marked.union inputs

end Operation

end QueryAlgebra
