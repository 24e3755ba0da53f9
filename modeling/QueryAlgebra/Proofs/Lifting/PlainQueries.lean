import QueryAlgebra.Proofs.Lifting.Bindings
import QueryAlgebra.Proofs.Lifting.PlainLift
import QueryAlgebra.Proofs.Lifting.PieceNames
import QueryAlgebra.Proofs.Lifting.PlainPieces
import QueryAlgebra.Proofs.Traversal.Fitting

/-! # Plain queries

A plain query has one of the four forms over a plain operation. Between the two stand values bound
to variables and the keys of an order; a slice and a dataset may stand around the form. Nothing is
grouped.

`PlainQuery.reread` is the query that is read when a plain query is written. A form takes up the
values of the variables that it shows, in the order in which it shows them, and the other values end
up in the pattern. A form that shows all variables is written with a star.
-/

namespace QueryAlgebra

/-- The form of a query. -/
inductive QueryForm where
  | select (duplicates : Surface.Duplicates) (vars : List Variable)
  | ask
  | describe (terms : List Term)
  | construct (template : List Pattern)

namespace QueryForm

/-- The operation of a form over solutions. -/
def apply (solutions : Operation) : QueryForm → Operation
  | .select duplicates vars =>
    Context.withDuplicates duplicates (.of (.wrap (.project vars) solutions))
  | .ask => .of (.wrap .ask solutions)
  | .describe terms => .of (.wrap (.describe terms) solutions)
  | .construct template => .of (.construct solutions template)

/-- The variables whose values a form takes up. -/
def vars : QueryForm → List Variable
  | .select _ vars => vars
  | _ => []

/-- Whether a form shows exactly the variables in scope of solutions. -/
def showsAll (solutions : Operation) : QueryForm → Bool
  | .select _ vars => solutions.shows vars
  | .describe terms =>
    terms.all (·.isVariable) && solutions.shows (terms.filterMap Term.asVariable?)
  | _ => false

/-- The form with other variables shown. -/
def showing (vars : List Variable) : QueryForm → QueryForm
  | .select duplicates _ => .select duplicates vars
  | .describe _ => .describe (vars.map .var)
  | form => form

/-- Whether the terms of a form can be written and read again. -/
def isWritable : QueryForm → Bool
  | .select .. => true
  | .ask => true
  | .describe terms => terms.all Term.isWritableName
  | .construct template => template.all Pattern.isWritable

end QueryForm

/-- A query that does not group. -/
structure PlainQuery where
  form : QueryForm
  core : Operation
  bindings : Bindings
  order : List (Surface.Direction × Expression)
  slice : Option (Nat × Option Nat)
  dataset : Option (List NamedNode × List NamedNode)

mutual

/-- Whether no aggregate stands in an expression. -/
def Expression.isRowwise : Expression → Bool
  | .call _ arguments => Expression.allRowwise arguments
  | .aggregate .. => false
  | _ => true

/-- Whether no aggregate stands in any expression of a list. -/
def Expression.allRowwise : List Expression → Bool
  | [] => true
  | expression :: rest => expression.isRowwise && Expression.allRowwise rest

end

/-- Whether a clause of a query can be made of an expression, and the expression of the clause. -/
def Expression.isClause (expression : Expression) : Bool :=
  expression.isWritable && expression.isRowwise

/-- Whether the operation binds a value last. -/
def Operation.isExtend : Operation → Bool
  | ⟨.extend .., _⟩ => true
  | _ => false

/-- Whether everything in an operation can be held by a traversal. -/
def Operation.fits (operation : Operation) : Bool :=
  (Node.operation operation).fits Traversal.defaultLimit (fun _ => .descend) 1

namespace PlainQuery

/-- Solutions in the order of keys, if there are any. -/
def ordered (order : List (Surface.Direction × Expression)) (operation : Operation) : Operation :=
  if order.isEmpty then operation
  else .of (.orderBy operation (order.map fun key => Context.orderKey key.1 key.2))

/-- What the form of a query is laid over. -/
def solutions (query : PlainQuery) : Operation :=
  ordered query.order (query.bindings.extend query.core)

/-- The operation cut to a slice, if one is given. -/
def cut (slice : Option (Nat × Option Nat)) (operation : Operation) : Operation :=
  match slice with
  | none => operation
  | some (start, length) => .of (.wrap (.slice start length) operation)

/-- The operation asked of a dataset, if one is given. -/
def askedOf (dataset : Option (List NamedNode × List NamedNode)) (operation : Operation) :
    Operation :=
  match dataset with
  | none => operation
  | some (default, named) => .of (.wrap (.dataset default named) operation)

/-- The operation of a query. -/
def operation (query : PlainQuery) : Operation :=
  askedOf query.dataset (cut query.slice (query.form.apply query.solutions))

/-- A query that can be written and read again. Its dataset is not empty, as a dataset that is read
never is. -/
structure IsPlain (query : PlainQuery) : Prop where
  core : query.core.isPlain = true
  values : ∀ entry ∈ query.bindings, entry.2.isClause = true
  keys : ∀ key ∈ query.order, key.2.isClause = true
  form : query.form.isWritable = true
  graphs : ∀ graphs ∈ query.dataset, (graphs.1 ++ graphs.2).all NamedNode.isWritable = true
  nonempty : ∀ graphs ∈ query.dataset, graphs.1 ++ graphs.2 ≠ []

/-! ### The query that is read again -/

/-- The values that the form takes up. -/
def shown (query : PlainQuery) : Bindings :=
  Bindings.ofItems (Bindings.take query.form.vars query.bindings).1

/-- The values that the form does not take up. -/
def left (query : PlainQuery) : Bindings := (Bindings.take query.form.vars query.bindings).2

/-- The variables that a star stands for in the written query. -/
def starred (query : PlainQuery) : List Variable :=
  (query.core.listed ++ query.left.map (·.1)).eraseDups.foldr Surface.insertStar []

/-- Whether the form is written with a star. -/
def hasStar (query : PlainQuery) : Bool :=
  query.shown.isEmpty && query.form.showsAll query.solutions

/-- The query that is read when a query is written. -/
def reread (query : PlainQuery) : PlainQuery where
  form := if query.hasStar then query.form.showing query.starred else query.form
  core :=
    filtered (query.left.extend (Piece.opened query.core.pieces).1)
      (Piece.opened query.core.pieces).2
  bindings := query.shown
  order := query.order
  slice := query.slice.filter (· ≠ (0, none))
  dataset := query.dataset

/-! ### Plain queries stay plain -/

theorem isWritable_of_isClause {expression : Expression} (clause : expression.isClause = true) :
    expression.isWritable = true :=
  (Bool.and_eq_true_iff.1 clause).1

theorem isPlain_extend {bindings : Bindings} {operation : Operation}
    (plain : operation.isPlain = true) (values : ∀ entry ∈ bindings, entry.2.isClause = true) :
    (bindings.extend operation).isPlain = true := by
  induction bindings generalizing operation with
  | nil => exact plain
  | cons entry rest ih =>
    refine ih ?_ fun other member => values other (List.mem_cons_of_mem _ member)
    exact Bool.and_eq_true_iff.2
      ⟨plain, isWritable_of_isClause (values entry (List.mem_cons_self ..))⟩

variable {query : PlainQuery}

theorem IsPlain.reread (plain : query.IsPlain) : query.reread.IsPlain where
  core := by
    obtain ⟨inside, filters⟩ := Piece.isPlain_opened (Operation.isPlain_pieces plain.core)
    refine Operation.isPlain_filtered (isPlain_extend inside fun entry member => ?_) filters
    exact plain.values entry (Bindings.mem_of_left member)
  values entry member := plain.values entry (Bindings.mem_of_shown member)
  keys := plain.keys
  form := by
    have writable := plain.form
    rw [PlainQuery.reread]
    split
    · cases form : query.form with
      | describe terms => simp [QueryForm.showing, QueryForm.isWritable, Term.isWritableName]
      | _ => rw [form] at writable; exact writable
    · exact writable
  graphs := plain.graphs
  nonempty := plain.nonempty

/-- The operation of a plain query is rebuilt as it is. -/
theorem rebuild_operation {change : Rebuild} (keeps : change.Keeps) (plain : query.IsPlain) :
    query.operation.rebuild change = query.operation := by
  have ofBody := Operation.rebuild_plain keeps (isPlain_extend plain.core plain.values)
  have ofKeys : ∀ keys : List (Surface.Direction × Expression),
      (∀ key ∈ keys, key.2.isClause = true) →
      Expression.rebuildAll change (keys.map fun key => Context.orderKey key.1 key.2)
        = keys.map fun key => Context.orderKey key.1 key.2 := by
    intro keys clauses
    induction keys with
    | nil => rw [List.map_nil, Expression.rebuildAll]
    | cons key rest ih =>
      have ofKey := Expression.rebuild_writable keeps
        (isWritable_of_isClause (clauses key (List.mem_cons_self ..)))
      have whole : (Context.orderKey key.1 key.2).rebuild change
          = Context.orderKey key.1 key.2 := by
        cases key.1 with
        | ascending => exact ofKey
        | descending =>
          rw [Context.orderKey, Expression.operator, Expression.rebuild, Expression.rebuildAll,
            ofKey, Expression.rebuildAll, keeps.expression]
      rw [List.map_cons, Expression.rebuildAll, whole,
        ih fun other member => clauses other (List.mem_cons_of_mem _ member)]
  have ofSolutions : query.solutions.rebuild change = query.solutions := by
    rw [solutions, ordered]
    split
    · exact ofBody
    · exact Operation.rebuild_ordinary keeps rfl
        (by rw [Operator.rebuild, ofBody, ofKeys _ plain.keys])
  have ofForm : (query.form.apply query.solutions).rebuild change
      = query.form.apply query.solutions := by
    have writable := plain.form
    generalize query.form = form at writable ⊢
    cases form with
    | select duplicates vars =>
      have projected : (Operation.of (.wrap (.project vars) query.solutions)).rebuild change
          = .of (.wrap (.project vars) query.solutions) :=
        Operation.rebuild_ordinary keeps rfl (by rw [Operator.rebuild, ofSolutions])
      cases duplicates with
      | keep => exact projected
      | distinct | reduced =>
        exact Operation.rebuild_ordinary keeps rfl (by rw [Operator.rebuild, projected])
    | ask | describe terms =>
      exact Operation.rebuild_ordinary keeps rfl (by rw [Operator.rebuild, ofSolutions])
    | construct template =>
      exact Operation.rebuild_ordinary keeps rfl (by
        rw [Operator.rebuild, ofSolutions, Operation.rebuild_patterns keeps .template writable])
  have ofCut : (cut query.slice (query.form.apply query.solutions)).rebuild change
      = cut query.slice (query.form.apply query.solutions) := by
    cases query.slice with
    | none => exact ofForm
    | some slice => exact Operation.rebuild_ordinary keeps rfl (by rw [Operator.rebuild, ofForm])
  rw [operation]
  cases query.dataset with
  | none => exact ofCut
  | some graphs => exact Operation.rebuild_ordinary keeps rfl (by rw [Operator.rebuild, ofCut])

end PlainQuery

end QueryAlgebra
