import QueryAlgebra.Proofs.Lifting.WrittenExpressions
import QueryAlgebra.Proofs.Lifting.WrittenPaths

/-! # Operations as they are read

An operation is in normal form if it is as a pattern would be read: joins and unions are flat and
have two inputs at least, patterns that meet in a join are one basic graph pattern, and what is laid
over the elements before it in a group comes first in a join. Subqueries are left out.
-/

namespace QueryAlgebra

namespace Operation

/-- How the elements that an operation is written as stand among those of a join. -/
inductive Role where
  /-- Triples, which are put together with triples beside them. -/
  | triples
  /-- An element on its own. -/
  | member
  /-- Elements that would take in what comes before them. -/
  | overlay
  /-- No elements, or those of several inputs. -/
  | absorbed
deriving DecidableEq

/-- The role of an operation in a join. -/
def role : Operation → Role
  | ⟨.bgp [], _⟩ => .absorbed
  | ⟨.bgp _, _⟩ => .triples
  | ⟨.combine .join _, _⟩ => .absorbed
  | ⟨.extend .., _⟩ => .overlay
  | ⟨.leftJoin .., _⟩ => .overlay
  | ⟨.minus .., _⟩ => .overlay
  | _ => .member

/-- Operations that stay apart in a join, because they are not both basic graph patterns. -/
abbrev Apart (first second : Operation) : Prop := ¬(first.role = .triples ∧ second.role = .triples)

/-- Whether a join has two inputs at least, neither joins nor empty, of which no two adjacent ones
would be one basic graph pattern, and none after the first would take in those before it. -/
def joinsFlat (inputs : List Operation) : Bool :=
  decide (2 ≤ inputs.length) && inputs.all (·.role ≠ .absorbed)
    && inputs.tail.all (·.role ≠ .overlay) && decide (inputs.IsChain Apart)

/-- Whether an operation is a union. -/
def isUnion : Operation → Bool
  | ⟨.combine .union _, _⟩ => true
  | _ => false

/-- Whether an operation is a filter. -/
def isFilter : Operation → Bool
  | ⟨.filter .., _⟩ => true
  | _ => false

end Operation

mutual

/-- Whether an operation is as a pattern would be read, and can be written. -/
def Operation.isNormal : Operation → Bool
  | ⟨operator, metadata⟩ => metadata.isNone && operator.isNormal

/-- Whether an operator with its inputs is as a pattern would be read, and can be written. -/
def Operator.isNormal : Operator → Bool
  | .bgp patterns => patterns.all Pattern.isSpellable
  | .values vars rows => rows.all (Row.isSpellable vars)
  | .path subject predicate object graph =>
    subject.isSpellable && predicate.isNormal && predicate.isRoute && object.isSpellable
      && graph.isDefaultGraph
  | .wrap (.graph name) input => name.isWritableName && input.isNormal
  | .wrap (.service name _) input => name.isWritableName && input.isNormal
  | .filter input condition => input.isNormal && condition.isNormal
  | .extend input _ value => input.isNormal && value.isNormal
  | .combine .join inputs => Operation.joinsFlat inputs && Operation.allNormal inputs
  | .combine .union inputs =>
    decide (2 ≤ inputs.length) && inputs.all (!·.isUnion) && Operation.allNormal inputs
  | .leftJoin left right none => left.isNormal && right.isNormal && !right.isFilter
  | .leftJoin left right (some condition) =>
    left.isNormal && right.isNormal && condition.isNormal
  | .minus left right => left.isNormal && right.isNormal
  | _ => false

/-- Whether all operations are as patterns would be read. -/
def Operation.allNormal : List Operation → Bool
  | [] => true
  | operation :: rest => operation.isNormal && Operation.allNormal rest

/-- Whether an expression is as it would be read and can be written; it has no aggregates. -/
def Expression.isNormal : Expression → Bool
  | .term (.var _) => true
  | .term (.iri node) => node.isWritable
  | .term (.literal text) => text.isWritable
  | .term _ => false
  | .call (.operator name) arguments =>
    operatorTakes name arguments.length && Expression.allNormal arguments
  | .call (.function name) arguments => name.isWritable && Expression.allNormal arguments
  | .aggregate .. => false
  | .existence _ input => input.isNormal
  | .wildcard => false

/-- Whether all expressions are as they would be read. -/
def Expression.allNormal : List Expression → Bool
  | [] => true
  | expression :: rest => expression.isNormal && Expression.allNormal rest

end

/-! ### Induction -/

/-- What it takes to prove something of all operations in normal form, and something of all
expressions in normal form. -/
structure NormalInduction (motive : Operation → Prop) (holds : Expression → Prop) : Prop where
  bgp (patterns : List Pattern) : (Operation.bgp patterns).isNormal = true → motive (.bgp patterns)
  values (vars : List Variable) (rows : List Row) :
    (Operation.of (.values vars rows)).isNormal = true → motive (.of (.values vars rows))
  path (subject : Term) (predicate : Path) (object graph : Term) :
    (Operation.of (.path subject predicate object graph)).isNormal = true →
    motive (.of (.path subject predicate object graph))
  graph (name : Term) (input : Operation) :
    (input.graph name).isNormal = true → motive input → motive (input.graph name)
  service (name : Term) (silent : Bool) (input : Operation) :
    (Operation.of (.wrap (.service name silent) input)).isNormal = true → motive input →
    motive (.of (.wrap (.service name silent) input))
  filter (input : Operation) (condition : Expression) :
    (Operation.of (.filter input condition)).isNormal = true → motive input → holds condition →
    motive (.of (.filter input condition))
  extend (input : Operation) (name : Variable) (value : Expression) :
    (Operation.of (.extend input name value)).isNormal = true → motive input → holds value →
    motive (.of (.extend input name value))
  join (inputs : List Operation) :
    (Operation.of (.combine .join inputs)).isNormal = true → (∀ input ∈ inputs, motive input) →
    motive (.of (.combine .join inputs))
  union (inputs : List Operation) :
    (Operation.of (.combine .union inputs)).isNormal = true → (∀ input ∈ inputs, motive input) →
    motive (.of (.combine .union inputs))
  optional (left right : Operation) :
    (Operation.of (.leftJoin left right none)).isNormal = true → motive left → motive right →
    motive (.of (.leftJoin left right none))
  conditional (left right : Operation) (condition : Expression) :
    (Operation.of (.leftJoin left right (some condition))).isNormal = true → motive left →
    motive right → holds condition → motive (.of (.leftJoin left right (some condition)))
  minus (left right : Operation) :
    (Operation.of (.minus left right)).isNormal = true → motive left → motive right →
    motive (.of (.minus left right))
  term (value : Term) : (Expression.term value).isNormal = true → holds (.term value)
  call (callee : Callee) (arguments : List Expression) :
    (Expression.call callee arguments).isNormal = true →
    (∀ argument ∈ arguments, holds argument) → holds (.call callee arguments)
  existence (negated : Bool) (input : Operation) :
    (Expression.existence negated input).isNormal = true → motive input →
    holds (.existence negated input)

namespace NormalInduction

variable {motive : Operation → Prop} {holds : Expression → Prop}

mutual

theorem operation (steps : NormalInduction motive holds) (operation : Operation)
    (normal : operation.isNormal = true) : motive operation := by
  obtain ⟨operator, metadata⟩ := operation
  obtain ⟨bare, ofOperator⟩ := Bool.and_eq_true_iff.1 normal
  obtain rfl := Option.isNone_iff_eq_none.1 bare
  exact steps.operator operator ofOperator

private theorem operator (steps : NormalInduction motive holds) (operator : Operator)
    (normal : operator.isNormal = true) : motive (.of operator) := by
  match operator, normal with
  | .bgp patterns, normal => exact steps.bgp patterns normal
  | .values vars rows, normal => exact steps.values vars rows normal
  | .path subject predicate object graph, normal =>
    exact steps.path subject predicate object graph normal
  | .wrap (.graph name) input, normal =>
    exact steps.graph name input normal (steps.operation input (Bool.and_eq_true_iff.1 normal).2)
  | .wrap (.service name silent) input, normal =>
    exact steps.service name silent input normal
      (steps.operation input (Bool.and_eq_true_iff.1 normal).2)
  | .filter input condition, normal =>
    obtain ⟨ofInput, ofCondition⟩ := Bool.and_eq_true_iff.1 normal
    exact steps.filter input condition normal (steps.operation input ofInput)
      (steps.expression condition ofCondition)
  | .extend input name value, normal =>
    obtain ⟨ofInput, ofValue⟩ := Bool.and_eq_true_iff.1 normal
    exact steps.extend input name value normal (steps.operation input ofInput)
      (steps.expression value ofValue)
  | .combine .join inputs, normal =>
    exact steps.join inputs normal (steps.operations inputs (Bool.and_eq_true_iff.1 normal).2)
  | .combine .union inputs, normal =>
    exact steps.union inputs normal (steps.operations inputs (Bool.and_eq_true_iff.1 normal).2)
  | .leftJoin left right none, normal =>
    obtain ⟨both, _⟩ := Bool.and_eq_true_iff.1 normal
    obtain ⟨ofLeft, ofRight⟩ := Bool.and_eq_true_iff.1 both
    exact steps.optional left right normal (steps.operation left ofLeft)
      (steps.operation right ofRight)
  | .leftJoin left right (some condition), normal =>
    obtain ⟨both, ofCondition⟩ := Bool.and_eq_true_iff.1 normal
    obtain ⟨ofLeft, ofRight⟩ := Bool.and_eq_true_iff.1 both
    exact steps.conditional left right condition normal (steps.operation left ofLeft)
      (steps.operation right ofRight) (steps.expression condition ofCondition)
  | .minus left right, normal =>
    obtain ⟨ofLeft, ofRight⟩ := Bool.and_eq_true_iff.1 normal
    exact steps.minus left right normal (steps.operation left ofLeft)
      (steps.operation right ofRight)

private theorem operations (steps : NormalInduction motive holds) (operations : List Operation)
    (normal : Operation.allNormal operations = true) : ∀ input ∈ operations, motive input := by
  match operations, normal with
  | [], _ => exact List.forall_mem_nil _
  | operation :: rest, normal =>
    obtain ⟨ofFirst, ofRest⟩ := Bool.and_eq_true_iff.1 normal
    exact List.forall_mem_cons.2 ⟨steps.operation operation ofFirst, steps.operations rest ofRest⟩

theorem expression (steps : NormalInduction motive holds) (expression : Expression)
    (normal : expression.isNormal = true) : holds expression := by
  match expression, normal with
  | .term value, normal => exact steps.term value normal
  | .call (.operator _) arguments, normal =>
    exact steps.call _ arguments normal
      (steps.expressions arguments (Bool.and_eq_true_iff.1 normal).2)
  | .call (.function _) arguments, normal =>
    exact steps.call _ arguments normal
      (steps.expressions arguments (Bool.and_eq_true_iff.1 normal).2)
  | .existence negated input, normal =>
    exact steps.existence negated input normal (steps.operation input normal)

private theorem expressions (steps : NormalInduction motive holds) (expressions : List Expression)
    (normal : Expression.allNormal expressions = true) :
    ∀ expression ∈ expressions, holds expression := by
  match expressions, normal with
  | [], _ => exact List.forall_mem_nil _
  | expression :: rest, normal =>
    obtain ⟨ofFirst, ofRest⟩ := Bool.and_eq_true_iff.1 normal
    exact List.forall_mem_cons.2
      ⟨steps.expression expression ofFirst, steps.expressions rest ofRest⟩

end

end NormalInduction

end QueryAlgebra
