import QueryAlgebra.Lowering.Pattern
import QueryAlgebra.Operation.Scope
import QueryAlgebra.Proofs.Lowering.Segments

/-! # What is in scope of an operation that is put together

A variable is in scope of an operation if it is among the variables that are gathered from it
(`Operation.mem_inScope`), and what is gathered from a join, a left join, a filter or the pieces of
a basic graph pattern is gathered from what they are put together from.
-/

namespace QueryAlgebra

/-- Gathers the variables in scope. -/
def Gather.ofScope : Gather Variable where
  closed := Operator.isProject
  pattern := fun _ pattern => pattern.terms.flatMap Term.vars
  expression := fun _ => []
  operator := Operator.scopeVariables

/-- The variables in scope of an operation, as often as they are met. -/
def Operation.met (operation : Operation) : List Variable := operation.gather .ofScope

/-- The variables that an expression brings into scope by what it asks about. -/
def Expression.met (expression : Expression) : List Variable := expression.gather .ofScope

namespace Operation

theorem mem_inScope {operation : Operation} {name : Variable} :
    name ∈ operation.inScope ↔ name ∈ operation.met := List.mem_eraseDups

/-- The variables of all operations. -/
theorem gatherAll_ofScope (operations : List Operation) :
    gatherAll .ofScope operations = operations.flatMap met := by
  induction operations with
  | nil => rfl
  | cons operation rest ih =>
    rw [gatherAll, ih, List.flatMap_cons]
    rfl

end Operation

/-! ### Terms and patterns -/

namespace Term

@[simp] theorem vars_var (name : Variable) : (var name).vars = [name] := rfl

@[simp] theorem vars_iri (node : NamedNode) : (iri node).vars = [] := rfl

@[simp] theorem vars_blank (node : BlankNode) : (blank node).vars = [] := rfl

@[simp] theorem vars_literal (text : Literal) : (literal text).vars = [] := rfl

@[simp] theorem vars_defaultGraph : defaultGraph.vars = [] := rfl

@[simp] theorem vars_quad (subject predicate object graph : Term) :
    (quad subject predicate object graph).vars
      = subject.vars ++ predicate.vars ++ object.vars ++ graph.vars := by
  simp [vars, nested, asVariable?]

end Term

/-- The variables of a pattern. -/
def Pattern.vars (pattern : Pattern) : List Variable := pattern.terms.flatMap Term.vars

@[simp] theorem Pattern.vars_mk (subject predicate object graph : Term) :
    (Pattern.mk subject predicate object graph).vars
      = subject.vars ++ predicate.vars ++ object.vars ++ graph.vars := by
  simp [vars, terms]

/-- The variables of a piece of a basic graph pattern. -/
def Fragment.vars : Fragment → List Variable
  | .pattern triple => triple.vars
  | .path subject _ object graph => subject.vars ++ object.vars ++ graph.vars

/-! ### Operators -/

namespace Operation

@[simp] theorem met_bgp (patterns : List Pattern) :
    (bgp patterns).met = patterns.flatMap Pattern.vars := by
  simp only [met, bgp, of, gather, Operator.gather, Gather.ofScope, Operator.isProject,
    Operator.scopeVariables, List.append_nil, Bool.false_eq_true, if_false]
  rfl

@[simp] theorem met_path (subject : Term) (predicate : Path) (object graph : Term) :
    (of (.path subject predicate object graph)).met
      = subject.vars ++ object.vars ++ graph.vars := rfl

@[simp] theorem met_values (vars : List Variable) (rows : List Row) :
    (of (.values vars rows)).met = vars := rfl

@[simp] theorem met_project (vars : List Variable) (input : Operation) :
    (of (.wrap (.project vars) input)).met = vars := rfl

@[simp] theorem met_graph (name : Term) (input : Operation) :
    (of (.wrap (.graph name) input)).met = input.met ++ name.vars := rfl

@[simp] theorem met_service (name : Term) (silent : Bool) (input : Operation) :
    (of (.wrap (.service name silent) input)).met = input.met ++ name.vars := rfl

@[simp] theorem met_distinct (input : Operation) :
    (of (.wrap .distinct input)).met = input.met := List.append_nil _

@[simp] theorem met_reduced (input : Operation) :
    (of (.wrap .reduced input)).met = input.met := List.append_nil _

@[simp] theorem met_slice (start : Nat) (length : Option Nat) (input : Operation) :
    (of (.wrap (.slice start length) input)).met = input.met := List.append_nil _

@[simp] theorem met_dataset (default named : List NamedNode) (input : Operation) :
    (of (.wrap (.dataset default named) input)).met = input.met := List.append_nil _

@[simp] theorem met_filter (input : Operation) (condition : Expression)
    (metadata : Option Metadata) :
    (Operation.mk (.filter input condition) metadata).met = input.met ++ condition.met :=
  List.append_nil _

@[simp] theorem met_extend (input : Operation) (name : Variable) (value : Expression) :
    (of (.extend input name value)).met = input.met ++ value.met ++ [name] := rfl

@[simp] theorem met_leftJoin_none (left right : Operation) :
    (of (.leftJoin left right none)).met = left.met ++ right.met := List.append_nil _

@[simp] theorem met_leftJoin_some (left right : Operation) (condition : Expression) :
    (of (.leftJoin left right (some condition))).met
      = left.met ++ right.met ++ condition.met := List.append_nil _

@[simp] theorem met_combine (how : Combination) (inputs : List Operation)
    (metadata : Option Metadata) :
    (Operation.mk (.combine how inputs) metadata).met = inputs.flatMap met := by
  rw [← gatherAll_ofScope]
  exact List.append_nil _

/-! ### Operations that are kept flat -/

/-- The parts of an operation bring the same variables as the operation. -/
theorem met_parts (how : Combination) (operation : Operation) :
    (operation.parts how).flatMap met = operation.met := by
  have itself : [operation].flatMap met = operation.met := by simp
  unfold parts
  split
  · split
    · rw [met_combine]
    · exact itself
  · exact itself

theorem met_flattened (how : Combination) (inputs : List Operation) :
    (of (.combine how (inputs.flatMap (parts how)))).met = inputs.flatMap met := by
  rw [of, met_combine, List.flatMap_assoc]
  simp only [met_parts]

@[simp] theorem met_join (inputs : List Operation) : (join inputs).met = inputs.flatMap met :=
  met_flattened .join inputs

@[simp] theorem met_union (inputs : List Operation) : (union inputs).met = inputs.flatMap met :=
  met_flattened .union inputs

theorem met_of_isEmptyBgp {operation : Operation} (empty : operation.isEmptyBgp = true) :
    operation.met = [] := by
  unfold isEmptyBgp at empty
  split at empty
  · rfl
  · cases empty

theorem met_simplifiedJoin (left right : Operation) :
    (simplifiedJoin left right).met = left.met ++ right.met := by
  unfold simplifiedJoin
  split
  · rename_i first second
    show (bgp (first ++ second)).met = (bgp first).met ++ (bgp second).met
    simp only [met_bgp, List.flatMap_append]
  · split
    · rename_i empty
      rw [met_of_isEmptyBgp empty, List.nil_append]
    · split
      · rename_i empty
        rw [met_of_isEmptyBgp empty, List.append_nil]
      · simp

/-- A left join takes the filter of its right side for its condition. -/
theorem met_leftJoinOf (left right : Operation) :
    (leftJoinOf left right).met = left.met ++ right.met := by
  unfold leftJoinOf
  split
  · rw [met_leftJoin_some, met_filter, List.append_assoc]
  · exact met_leftJoin_none left right

private theorem met_segments (fragments : List Fragment) :
    ((Segment.ofFragments fragments).map Segment.toOperation).flatMap met
      = fragments.flatMap Fragment.vars := by
  have ofSegment (segment : Segment) :
      segment.toOperation.met = segment.pieces.flatMap Fragment.vars := by
    cases segment <;> simp [Segment.toOperation, Segment.pieces, Fragment.vars, List.flatMap_map]
  conv_rhs => rw [← Segment.flatMap_pieces_ofFragments fragments]
  rw [List.flatMap_map, List.flatMap_assoc]
  exact List.flatMap_congr fun segment _ => ofSegment segment

theorem met_ofFragments (fragments : List Fragment) :
    (ofFragments fragments).met = fragments.flatMap Fragment.vars := by
  rw [← met_segments, ofFragments]
  split
  · rename_i none
    rw [none]
    rfl
  · rename_i segment only
    rw [only]
    simp
  · exact met_join _

end Operation

/-! ### Conditions -/

@[simp] theorem Expression.met_var (name : Variable) : (Expression.var name).met = [] := rfl

@[simp] theorem Expression.met_term (value : Term) : (Expression.term value).met = [] := rfl

theorem Expression.gatherAll_ofScope {expressions : List Expression} :
    gatherAll .ofScope expressions = [] ↔ ∀ expression ∈ expressions, expression.met = [] := by
  induction expressions with
  | nil => simp [gatherAll]
  | cons expression rest ih =>
    rw [gatherAll, List.append_eq_nil_iff, ih, List.forall_mem_cons]
    rfl

theorem Expression.met_call {callee : Callee} {arguments : List Expression}
    (bare : ∀ argument ∈ arguments, argument.met = []) :
    (Expression.call callee arguments).met = [] :=
  List.append_eq_nil_iff.2 ⟨gatherAll_ofScope.2 bare, rfl⟩

theorem Expression.met_aggregate {argument : Expression} (bare : argument.met = [])
    (name : String) (distinct : Bool) (separator : Option String) :
    (Expression.aggregate name argument distinct separator).met = [] :=
  List.append_eq_nil_iff.2 ⟨bare, rfl⟩

/-- Filters that ask about no patterns bring nothing into scope. -/
theorem Operation.met_filtered {filters : List Expression}
    (bare : ∀ filter ∈ filters, filter.met = []) (operation : Operation) :
    (filtered operation filters).met = operation.met := by
  have conjunction : ∀ (rest : List Expression) (all : Expression), all.met = [] →
      (∀ filter ∈ rest, filter.met = []) →
      (rest.foldl (fun all next => .operator "&&" [all, next]) all).met = [] := by
    intro rest
    induction rest with
    | nil => exact fun all ofAll _ => ofAll
    | cons next rest ih =>
      intro all ofAll ofRest
      rw [List.forall_mem_cons] at ofRest
      refine ih _ (Expression.met_call ?_) ofRest.2
      exact List.forall_mem_cons.2 ⟨ofAll, List.forall_mem_singleton.2 ofRest.1⟩
  cases filters with
  | nil => rfl
  | cons first rest =>
    rw [List.forall_mem_cons] at bare
    exact (met_filter _ _ _).trans (by rw [conjunction rest first bare.1 bare.2, List.append_nil])

end QueryAlgebra
