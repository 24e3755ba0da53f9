import QueryAlgebra.Lowering.Pattern
import QueryAlgebra.Proofs.Semantics.Solutions
import Mathlib.Data.Finset.Basic

/-! # What operations mean

An interpretation is a finite set of quads to match patterns in, with a way to evaluate expressions.
`Operation.solutions` is the multiset of solutions of an operation. It depends on the operation and
not on the metadata, on whether joins and unions are kept flat, or on whether neighbouring basic
graph patterns are merged.
-/

namespace QueryAlgebra

namespace Term

/-- The bindings under which a term becomes a given one, added to those of a row. -/
def matching? : Term → Term → Row → Option Row
  | .var name, value, row =>
    match row.find? name.name with
    | none => some (row.insert name.name value)
    | some present => if present = value then some row else none
  | .quad subject predicate object graph, .quad subject' predicate' object' graph', row => do
    let row ← subject.matching? subject' row
    let row ← predicate.matching? predicate' row
    let row ← object.matching? object' row
    graph.matching? graph' row
  | term, value, row => if term = value then some row else none

end Term

/-- The bindings under which a pattern becomes a given quad. -/
def Pattern.matching? (pattern quad : Pattern) : Option Row := do
  let row ← pattern.subject.matching? quad.subject .empty
  let row ← pattern.predicate.matching? quad.predicate row
  let row ← pattern.object.matching? quad.object row
  pattern.graph.matching? quad.graph row

/-- A finite set of quads, the evaluation of expressions, and the solutions of the operators that
are not about graph patterns. -/
structure Interpretation where
  quads : Finset Pattern
  holds : Expression → Row → Bool
  value : Expression → Row → Option Term
  elsewhere : Operator → Solutions

namespace Interpretation

/-- The solutions of a single pattern. -/
def instances (I : Interpretation) (pattern : Pattern) : Solutions :=
  I.quads.val.filterMap pattern.matching?

/-- The solutions of a basic graph pattern. -/
def bgp (I : Interpretation) (patterns : List Pattern) : Solutions :=
  Solutions.joinAll (patterns.map I.instances)

/-- Whether a condition holds, which it does if there is none. -/
def holdsIf (I : Interpretation) (condition : Option Expression) (row : Row) : Bool :=
  condition.all (I.holds · row)

end Interpretation

mutual

/-- The solutions of an operation. -/
def Operation.solutions (I : Interpretation) : Operation → Solutions
  | ⟨operator, _⟩ => operator.solutions I

/-- The solutions of an operator with its inputs. -/
def Operator.solutions (I : Interpretation) : Operator → Solutions
  | .bgp patterns => I.bgp patterns
  | .values _ rows => rows
  | .filter input condition => (input.solutions I).filter (I.holds condition ·)
  | .extend input name value => Solutions.extend name (I.value value) (input.solutions I)
  | .combine .join inputs => Solutions.joinAll (Operation.allSolutions I inputs)
  | .combine .union inputs => (Operation.allSolutions I inputs).sum
  | .leftJoin left right condition =>
    Solutions.leftJoin (I.holdsIf condition) (left.solutions I) (right.solutions I)
  | .minus left right => Solutions.minus (left.solutions I) (right.solutions I)
  | other => I.elsewhere other

/-- The solutions of each operation. -/
def Operation.allSolutions (I : Interpretation) : List Operation → List Solutions
  | [] => []
  | operation :: rest => operation.solutions I :: Operation.allSolutions I rest

end

variable (I : Interpretation)

namespace Operator

@[simp] theorem solutions_bgp (patterns : List Pattern) :
    (bgp patterns).solutions I = I.bgp patterns := rfl

@[simp] theorem solutions_filter (input : Operation) (condition : Expression) :
    (filter input condition).solutions I = (input.solutions I).filter (I.holds condition ·) := rfl

@[simp] theorem solutions_extend (input : Operation) (name : Variable) (value : Expression) :
    (extend input name value).solutions I
      = Solutions.extend name (I.value value) (input.solutions I) := rfl

@[simp] theorem solutions_join (inputs : List Operation) :
    (combine .join inputs).solutions I
      = Solutions.joinAll (Operation.allSolutions I inputs) := rfl

@[simp] theorem solutions_union (inputs : List Operation) :
    (combine .union inputs).solutions I = (Operation.allSolutions I inputs).sum := rfl

@[simp] theorem solutions_leftJoin (left right : Operation) (condition : Option Expression) :
    (leftJoin left right condition).solutions I
      = Solutions.leftJoin (I.holdsIf condition) (left.solutions I) (right.solutions I) := rfl

@[simp] theorem solutions_minus (left right : Operation) :
    (minus left right).solutions I
      = Solutions.minus (left.solutions I) (right.solutions I) := rfl

end Operator

namespace Operation

@[simp] theorem solutions_mk (operator : Operator) (metadata : Option Metadata) :
    (⟨operator, metadata⟩ : Operation).solutions I = operator.solutions I := rfl

@[simp] theorem solutions_of (operator : Operator) :
    (of operator).solutions I = operator.solutions I := rfl

@[simp] theorem allSolutions_nil : allSolutions I [] = [] := rfl

@[simp] theorem allSolutions_cons (operation : Operation) (rest : List Operation) :
    allSolutions I (operation :: rest) = operation.solutions I :: allSolutions I rest := rfl

theorem allSolutions_append (first second : List Operation) :
    allSolutions I (first ++ second) = allSolutions I first ++ allSolutions I second := by
  induction first with
  | nil => simp
  | cons head rest ih => simp [ih]

@[simp] theorem solutions_bgp (patterns : List Pattern) :
    (bgp patterns).solutions I = I.bgp patterns := rfl

/-- Merged basic graph patterns have the solutions of their join. -/
theorem bgp_append (first second : List Pattern) :
    I.bgp (first ++ second) = Solutions.join (I.bgp first) (I.bgp second) := by
  rw [Interpretation.bgp, List.map_append, Solutions.joinAll_append]
  rfl

theorem solutions_of_isEmptyBgp {operation : Operation} (empty : operation.isEmptyBgp = true) :
    operation.solutions I = Solutions.unit := by
  match operation, empty with
  | ⟨.bgp [], _⟩, _ => rfl

/-- The parts that an operation contributes to a join have its solutions together. -/
theorem joinAll_parts (operation : Operation) :
    Solutions.joinAll (allSolutions I (operation.parts .join)) = operation.solutions I := by
  unfold parts
  split
  · split
    · rename_i inputs kind same
      subst same
      rfl
    · simp
  · simp

/-- The parts that an operation contributes to a union have its solutions together. -/
theorem sum_parts (operation : Operation) :
    (allSolutions I (operation.parts .union)).sum = operation.solutions I := by
  unfold parts
  split
  · split
    · rename_i inputs kind same
      subst same
      rfl
    · simp
  · simp

/-- Keeping joins flat does not change their solutions. -/
theorem solutions_join (inputs : List Operation) :
    (join inputs).solutions I = Solutions.joinAll (allSolutions I inputs) := by
  rw [join, solutions_of, Operator.solutions_join]
  induction inputs with
  | nil => rfl
  | cons head rest ih =>
    rw [List.flatMap_cons, allSolutions_append, Solutions.joinAll_append, joinAll_parts, ih,
      allSolutions_cons, Solutions.joinAll_cons]

/-- Keeping unions flat does not change their solutions. -/
theorem solutions_union (inputs : List Operation) :
    (union inputs).solutions I = (allSolutions I inputs).sum := by
  rw [union, solutions_of, Operator.solutions_union]
  induction inputs with
  | nil => rfl
  | cons head rest ih =>
    rw [List.flatMap_cons, allSolutions_append, List.sum_append, sum_parts, ih,
      allSolutions_cons, List.sum_cons]

/-- The simplified join of two members has the solutions of their join. -/
theorem solutions_simplifiedJoin (left right : Operation) :
    (simplifiedJoin left right).solutions I
      = Solutions.join (left.solutions I) (right.solutions I) := by
  unfold simplifiedJoin
  split
  · rw [solutions_bgp, bgp_append]
    simp
  · split
    · rename_i empty
      rw [solutions_of_isEmptyBgp I empty, Solutions.unit_join]
    · split
      · rename_i empty
        rw [solutions_of_isEmptyBgp I empty, Solutions.join_unit]
      · rw [solutions_join]
        simp

/-- The solutions of a group with filters depend on the group only through its solutions. -/
theorem solutions_filtered (operation : Operation) (filters : List Expression) :
    (filtered operation filters).solutions I
      = (operation.solutions I).filter (I.holdsIf (conjunction? filters) ·) := by
  unfold filtered
  split
  · rename_i condition found
    rw [solutions_of, Operator.solutions_filter, found]
    rfl
  · rename_i found
    rw [found]
    simp [Interpretation.holdsIf]

theorem solutions_filter (input : Operation) (condition : Expression) :
    (of (.filter input condition)).solutions I
      = (input.solutions I).filter (I.holds condition ·) := rfl

theorem solutions_leftJoin (left right : Operation) (condition : Option Expression) :
    (of (.leftJoin left right condition)).solutions I
      = Solutions.leftJoin (I.holdsIf condition) (left.solutions I) (right.solutions I) := rfl

theorem solutions_minus (left right : Operation) :
    (of (.minus left right)).solutions I
      = Solutions.minus (left.solutions I) (right.solutions I) := rfl

theorem solutions_extend (input : Operation) (name : Variable) (value : Expression) :
    (of (.extend input name value)).solutions I
      = Solutions.extend name (I.value value) (input.solutions I) := rfl

end Operation

end QueryAlgebra
