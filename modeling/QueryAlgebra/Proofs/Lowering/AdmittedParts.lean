import QueryAlgebra.Proofs.Lowering.Likeness
import QueryAlgebra.Proofs.Lowering.MatchedPieces

/-! # What holds of the operators of an operation

Where something is gathered from the operators of an operation alone, and it holds of everything that
is gathered from the operators of patterns and queries, it holds of what these make of operations of
which it holds. So it is a likeness, which relates such operations to themselves:
`Likeness.admitting_closed`.
-/

namespace QueryAlgebra

variable {α : Type} {what : Gather α} {P : α → Prop} {binds : Prop}

/-- What is gathered from operators alone, and holds for those of patterns, other than tables and
graph blocks. If expressions are bound to variables, it holds for those of queries as well. -/
structure Gather.Admits (what : Gather α) (P : α → Prop) (binds : Prop) : Prop where
  closed (operator : Operator) : what.closed operator = false
  pattern (place : Place) (pattern : Pattern) : what.pattern place pattern = []
  expression (expression : Expression) : what.expression expression = []
  bgp (patterns : List Pattern) : ∀ found ∈ what.operator (.bgp patterns), P found
  path (subject : Term) (predicate : Path) (object graph : Term) :
    ∀ found ∈ what.operator (.path subject predicate object graph), P found
  combine (how : Combination) (inputs : List Operation) :
    ∀ found ∈ what.operator (.combine how inputs), P found
  leftJoin (left right : Operation) (condition : Option Expression) :
    ∀ found ∈ what.operator (.leftJoin left right condition), P found
  minus (left right : Operation) : ∀ found ∈ what.operator (.minus left right), P found
  filter (input : Operation) (condition : Expression) :
    ∀ found ∈ what.operator (.filter input condition), P found
  service (name : Term) (silent : Bool) (input : Operation) :
    ∀ found ∈ what.operator (.wrap (.service name silent) input), P found
  extend (binding : binds) (input : Operation) (name : Variable) (value : Expression) :
    ∀ found ∈ what.operator (.extend input name value), P found
  wrap (binding : binds) (wrapper : Wrapper) (input : Operation) :
    ∀ found ∈ what.operator (.wrap wrapper input), P found
  group (binding : binds) (input : Operation) (keys : List Variable)
    (aggregates : List BoundAggregate) :
    ∀ found ∈ what.operator (.group input keys aggregates), P found
  orderBy (binding : binds) (input : Operation) (keys : List Expression) :
    ∀ found ∈ what.operator (.orderBy input keys), P found
  construct (binding : binds) (input : Operation) (template : List Pattern) :
    ∀ found ∈ what.operator (.construct input template), P found

/-- It holds of all that is gathered from the operation. -/
def Operation.AllHave (what : Gather α) (P : α → Prop) (operation : Operation) : Prop :=
  ∀ found ∈ operation.gather what, P found

/-- It holds of all that is gathered from the expression. -/
def Expression.AllHave (what : Gather α) (P : α → Prop) (expression : Expression) : Prop :=
  ∀ found ∈ expression.gather what, P found

section

variable {operations : List Operation} {expressions : List Expression}

theorem Operation.allHave_gatherAll :
    (∀ found ∈ Operation.gatherAll what operations, P found)
      ↔ ∀ operation ∈ operations, operation.AllHave what P := by
  induction operations with
  | nil => simp [gatherAll]
  | cons operation rest ih =>
    rw [gatherAll, List.forall_mem_append, ih, List.forall_mem_cons, AllHave]

theorem Expression.allHave_gatherAll :
    (∀ found ∈ Expression.gatherAll what expressions, P found)
      ↔ ∀ expression ∈ expressions, expression.AllHave what P := by
  induction expressions with
  | nil => simp [gatherAll]
  | cons expression rest ih =>
    rw [gatherAll, List.forall_mem_append, ih, List.forall_mem_cons, AllHave]

end

namespace Gather.Admits

variable (admits : what.Admits P binds) {left right input : Operation}

include admits

theorem operation_iff {operator : Operator} {metadata : Option Metadata} :
    Operation.AllHave what P ⟨operator, metadata⟩
      ↔ (∀ found ∈ operator.gather what, P found) ∧ ∀ found ∈ what.operator operator, P found := by
  rw [Operation.AllHave, Operation.gather, admits.closed, if_neg Bool.false_ne_true,
    List.forall_mem_append]

/-- What is gathered from expressions is gathered from their parts. -/
theorem nothing_after (expression : Expression) {found : List α} :
    (∀ value ∈ found ++ what.expression expression, P value) ↔ ∀ value ∈ found, P value := by
  rw [admits.expression, List.append_nil]

theorem patterns (place : Place) (patterns : List Pattern) :
    patterns.flatMap (what.pattern place) = [] :=
  List.flatMap_eq_nil_iff.2 fun pattern _ => admits.pattern place pattern

theorem part {operation part : Operation} {how : Combination} (allHave : operation.AllHave what P)
    (isPart : part ∈ operation.parts how) : part.AllHave what P := by
  unfold Operation.parts at isPart
  split at isPart
  · split at isPart
    · exact Operation.allHave_gatherAll.1 (admits.operation_iff.1 allHave).1 part isPart
    · exact List.mem_singleton.1 isPart ▸ allHave
  · exact List.mem_singleton.1 isPart ▸ allHave

theorem combined {how : Combination} {inputs : List Operation}
    (allHave : ∀ input ∈ inputs, input.AllHave what P) :
    (Operation.of (.combine how inputs)).AllHave what P :=
  admits.operation_iff.2 ⟨Operation.allHave_gatherAll.2 allHave, admits.combine how inputs⟩

private theorem parts {how : Combination} (ofLeft : left.AllHave what P)
    (ofRight : right.AllHave what P) :
    ∀ part ∈ [left, right].flatMap (Operation.parts how), part.AllHave what P := by
  intro part isIn
  obtain ⟨operation, isMember, isPart⟩ := List.mem_flatMap.1 isIn
  rcases List.mem_pair.1 isMember with rfl | rfl
  · exact admits.part ofLeft isPart
  · exact admits.part ofRight isPart

theorem join (ofLeft : left.AllHave what P) (ofRight : right.AllHave what P) :
    (Operation.join [left, right]).AllHave what P :=
  admits.combined (admits.parts ofLeft ofRight)

theorem union (ofLeft : left.AllHave what P) (ofRight : right.AllHave what P) :
    (Operation.union [left, right]).AllHave what P :=
  admits.combined (admits.parts ofLeft ofRight)

theorem ofBgp (patterns : List Pattern) : (Operation.bgp patterns).AllHave what P := by
  refine admits.operation_iff.2 ⟨?_, admits.bgp patterns⟩
  rw [Operator.gather, admits.patterns]
  exact List.forall_mem_nil _

/-- It holds of triples that are matched. -/
theorem ofPieces {graph : Term} {operation : Operation} (pieces : operation.MatchedPieces graph) :
    operation.AllHave what P := by
  have ofPiece {input : Operation} (piece : input.MatchedPiece graph) : input.AllHave what P := by
    cases piece with
    | bgp => exact admits.ofBgp _
    | path =>
      exact admits.operation_iff.2 ⟨List.forall_mem_nil _, admits.path _ _ _ _⟩
  cases pieces with
  | piece piece => exact ofPiece piece
  | join arePieces => exact admits.combined fun input member => ofPiece (arePieces input member)

theorem filtered {condition : Expression} (ofInput : input.AllHave what P)
    (ofCondition : condition.AllHave what P) :
    (Operation.of (.filter input condition)).AllHave what P :=
  admits.operation_iff.2
    ⟨List.forall_mem_append.2 ⟨ofInput, ofCondition⟩, admits.filter input condition⟩

theorem simplifiedJoin (ofLeft : left.AllHave what P) (ofRight : right.AllHave what P) :
    (simplifiedJoin left right).AllHave what P := by
  unfold QueryAlgebra.simplifiedJoin
  split
  · exact admits.ofBgp _
  · split
    · exact ofRight
    · split
      · exact ofLeft
      · exact admits.join ofLeft ofRight

theorem leftJoinOf (ofLeft : left.AllHave what P) (ofRight : right.AllHave what P) :
    (leftJoinOf left right).AllHave what P := by
  unfold QueryAlgebra.leftJoinOf
  split
  · obtain ⟨ofInput, ofCondition⟩ := List.forall_mem_append.1 (admits.operation_iff.1 ofRight).1
    exact admits.operation_iff.2
      ⟨List.forall_mem_append.2 ⟨List.forall_mem_append.2 ⟨ofLeft, ofInput⟩, ofCondition⟩,
        admits.leftJoin _ _ _⟩
  · exact admits.operation_iff.2
      ⟨List.forall_mem_append.2 ⟨ofLeft, ofRight⟩, admits.leftJoin _ _ _⟩

end Gather.Admits

/-! ### As a likeness -/

/-- What it holds for, related to itself. -/
def Likeness.admitting (what : Gather α) (P : α → Prop) : Likeness where
  operations first second := first.AllHave what P ∧ first = second
  expressions first second := first.AllHave what P ∧ first = second

namespace Likeness

private theorem admitting_expressions {first second : List Expression} :
    List.Forall₂ (admitting what P).expressions first second
      ↔ (∀ found ∈ Expression.gatherAll what first, P found) ∧ first = second := by
  simp only [admitting, List.forall₂_and_left, List.forall₂_eq_eq_eq, Expression.allHave_gatherAll]

private theorem admitting_aggregates {first second : List BoundAggregate}
    (alike : List.Forall₂ (admitting what P).Aggregates first second) :
    (∀ found ∈ BoundAggregate.gatherAll what first, P found) ∧ first = second := by
  induction alike with
  | nil => exact ⟨List.forall_mem_nil _, rfl⟩
  | @cons bound bound' _ _ ofBound _ ih =>
    obtain ⟨name, expression⟩ := bound
    obtain ⟨name', expression'⟩ := bound'
    obtain ⟨rfl, allHave, rfl⟩ := ofBound
    obtain ⟨ofRest, rfl⟩ := ih
    exact ⟨List.forall_mem_append.2 ⟨allHave, ofRest⟩, rfl⟩

/-- The operators of patterns keep what holds for them, and if expressions are bound to variables,
those of queries do. -/
theorem admitting_closed (admits : what.Admits P binds) : (admitting what P).Closed binds where
  term value := by
    refine ⟨?_, rfl⟩
    rw [Expression.AllHave, Expression.gather, admits.expression]
    exact List.forall_mem_nil _
  wildcard := by
    refine ⟨?_, rfl⟩
    rw [Expression.AllHave, Expression.gather, admits.expression]
    exact List.forall_mem_nil _
  call _ _ _ alike := by
    obtain ⟨allHave, rfl⟩ := admitting_expressions.1 alike
    exact ⟨(admits.nothing_after _).2 allHave, rfl⟩
  aggregate _ _ _ := by
    rintro _ _ ⟨allHave, rfl⟩
    exact ⟨(admits.nothing_after _).2 allHave, rfl⟩
  existence _ := by
    rintro _ _ ⟨allHave, rfl⟩
    exact ⟨(admits.nothing_after _).2 allHave, rfl⟩
  empty := ⟨admits.ofBgp [], rfl⟩
  simplifiedJoin := by
    rintro _ _ _ _ ⟨ofLeft, rfl⟩ ⟨ofRight, rfl⟩
    exact ⟨admits.simplifiedJoin ofLeft ofRight, rfl⟩
  join := by
    rintro _ _ _ _ ⟨ofLeft, rfl⟩ ⟨ofRight, rfl⟩
    exact ⟨admits.join ofLeft ofRight, rfl⟩
  union := by
    rintro _ _ _ _ ⟨ofLeft, rfl⟩ ⟨ofRight, rfl⟩
    exact ⟨admits.union ofLeft ofRight, rfl⟩
  leftJoinOf := by
    rintro _ _ _ _ ⟨ofLeft, rfl⟩ ⟨ofRight, rfl⟩
    exact ⟨admits.leftJoinOf ofLeft ofRight, rfl⟩
  minus := by
    rintro _ _ _ _ ⟨ofLeft, rfl⟩ ⟨ofRight, rfl⟩
    exact ⟨admits.operation_iff.2 ⟨List.forall_mem_append.2 ⟨ofLeft, ofRight⟩, admits.minus _ _⟩, rfl⟩
  filter := by
    rintro _ _ _ _ ⟨ofInput, rfl⟩ ⟨ofCondition, rfl⟩
    exact ⟨admits.filtered ofInput ofCondition, rfl⟩
  service name silent := by
    rintro _ _ ⟨allHave, rfl⟩
    exact ⟨admits.operation_iff.2 ⟨allHave, admits.service _ _ _⟩, rfl⟩
  extend binding name := by
    rintro _ _ _ _ ⟨ofInput, rfl⟩ ⟨ofValue, rfl⟩
    exact ⟨admits.operation_iff.2
      ⟨List.forall_mem_append.2 ⟨ofInput, ofValue⟩, admits.extend binding _ _ _⟩, rfl⟩
  wrap binding _ _ _ _ := by
    rintro ⟨allHave, rfl⟩
    exact ⟨admits.operation_iff.2 ⟨allHave, admits.wrap binding _ _⟩, rfl⟩
  group binding keys := by
    rintro _ _ _ _ ⟨ofInput, rfl⟩ alike
    obtain ⟨ofAggregates, rfl⟩ := admitting_aggregates alike
    exact ⟨admits.operation_iff.2
      ⟨List.forall_mem_append.2 ⟨ofInput, ofAggregates⟩, admits.group binding _ _ _⟩, rfl⟩
  orderBy binding := by
    rintro _ _ _ _ ⟨ofInput, rfl⟩ alike
    obtain ⟨ofKeys, rfl⟩ := admitting_expressions.1 alike
    exact ⟨admits.operation_iff.2
      ⟨List.forall_mem_append.2 ⟨ofInput, ofKeys⟩, admits.orderBy binding _ _⟩, rfl⟩
  construct binding _ _ _ _ := by
    rintro ⟨ofInput, rfl⟩
    refine ⟨admits.operation_iff.2 ⟨?_, admits.construct binding _ _⟩, rfl⟩
    rw [Operator.gather, admits.patterns, List.append_nil]
    exact ofInput
  forms {first _} := by
    rintro ⟨allHave, rfl⟩
    cases first with
    | call callee arguments =>
      exact .call callee (admitting_expressions.2 ⟨(admits.nothing_after _).1 allHave, rfl⟩)
    | _ => constructor
  shape := by
    rintro _ _ ⟨-, rfl⟩
    exact .refl _
  same := by
    rintro _ _ _ _ ⟨-, rfl⟩ ⟨-, rfl⟩
    rfl

end Likeness

end QueryAlgebra
