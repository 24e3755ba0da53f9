import QueryAlgebra.Proofs.Lifting.WrittenTerms
import Mathlib.Data.List.Forall2

/-! # Expressions that are written and read again

An expression comes back as it was if its operators are called by their own names with as many
arguments as they take, its terms can be written, and it asks for no existence of solutions. Nothing
is found in such an expression that the clauses of a query would have to take up.
-/

namespace QueryAlgebra

open Surface (AggregateFunction BinaryOp Builtin UnaryOp)

/-- Whether a special form or a built-in function is called by its own name with as many arguments
as it takes. -/
def specialTakes (name : String) (count : Nat) : Bool :=
  if name = "if" then count == 3
  else if name = "coalesce" then true
  else if name = "in" ∨ name = "notin" then 0 < count
  else (Builtin.ofName? name).isSome

/-- Whether an operator is called by its own name with as many arguments as it takes. -/
def operatorTakes (name : String) (count : Nat) : Bool :=
  if (BinaryOp.ofName? name).isSome then count == 2
  else if (UnaryOp.ofName? name).isSome then count == 1
  else specialTakes name count

mutual

/-- Whether an expression can be written and read again; it asks for no existence of solutions. -/
def Expression.isWritable : Expression → Bool
  | .term (.var _) => true
  | .term (.iri node) => node.isWritable
  | .term (.literal text) => text.isWritable
  | .term _ => false
  | .call (.operator name) arguments =>
    operatorTakes name arguments.length && Expression.allWritable arguments
  | .call (.function name) arguments => name.isWritable && Expression.allWritable arguments
  | .aggregate name argument _ _ =>
    (AggregateFunction.ofName? name).isSome && (argument.isWildcard || argument.isWritable)
  | .existence .. => false
  | .wildcard => false

/-- Whether all expressions can be written and read again. -/
def Expression.allWritable : List Expression → Bool
  | [] => true
  | expression :: rest => expression.isWritable && Expression.allWritable rest

end

/-! ### Operators by their own names -/

theorem operatorTakes_binary (op : BinaryOp) : operatorTakes op.name 2 = true := by
  cases op <;> decide +kernel

theorem operatorTakes_unary (op : UnaryOp) : operatorTakes op.name 1 = true := by
  cases op <;> decide +kernel

theorem operatorTakes_if : operatorTakes "if" 3 = true := by decide +kernel

/-- A name that is neither that of a binary nor of a unary operator. -/
private theorem operatorTakes_special {name : String} (binary : BinaryOp.ofName? name = none)
    (unary : UnaryOp.ofName? name = none) (count : Nat) :
    operatorTakes name count = specialTakes name count := by
  rw [operatorTakes, binary, unary]
  rfl

theorem operatorTakes_coalesce (count : Nat) : operatorTakes "coalesce" count = true :=
  operatorTakes_special (by decide +kernel) (by decide +kernel) count

theorem operatorTakes_membership (negated : Bool) (count : Nat) :
    operatorTakes (membershipName negated) (count + 1) = true := by
  cases negated <;>
    exact (operatorTakes_special (by decide +kernel) (by decide +kernel) _).trans
      (decide_eq_true (Nat.succ_pos count))

/-- Only of `if` the number of arguments matters. -/
theorem operatorTakes_builtin {function : Builtin} {count : Nat}
    (three : function = .ifElse → count = 3) : operatorTakes function.name count = true := by
  by_cases isIf : function = .ifElse
  · rw [isIf, three isIf]
    exact operatorTakes_if
  · have binary : BinaryOp.ofName? function.name = none := by cases function <;> decide +kernel
    have unary : UnaryOp.ofName? function.name = none := by cases function <;> decide +kernel
    have found : (Builtin.ofName? function.name).isSome = true := by
      cases function <;> decide +kernel
    have others : function.name ≠ "if" ∧ ¬(function.name = "in" ∨ function.name = "notin") := by
      cases function <;> first | exact absurd rfl isIf | decide +kernel
    rw [operatorTakes_special binary unary, specialTakes, if_neg others.1, if_neg others.2, found,
      ite_self]

theorem BinaryOp.name_of_ofName? {name : String} {op : BinaryOp}
    (found : BinaryOp.ofName? name = some op) : op.name = name := by
  have := List.find?_some found
  exact beq_iff_eq.1 this

theorem UnaryOp.name_of_ofName? {name : String} {op : UnaryOp}
    (found : UnaryOp.ofName? name = some op) : op.name = name := by
  have := List.find?_some found
  exact beq_iff_eq.1 this

theorem AggregateFunction.name_of_ofName? {name : String} {function : AggregateFunction}
    (found : AggregateFunction.ofName? name = some function) : function.name = name := by
  have := List.find?_some found
  exact beq_iff_eq.1 this

theorem Builtin.name_of_ofName? {name : String} {function : Builtin}
    (found : Builtin.ofName? name = some function) : function.name = name := by
  have := List.find?_some found
  exact beq_iff_eq.1 this

theorem Builtin.toLower_name (function : Builtin) : function.name.toLower = function.name := by
  cases function <;> decide +kernel

theorem Collecting.lift_ok {α : Type} (value : α) :
    (liftM (Except.ok value : Except LiftingError α) : Collecting α) = pure value := rfl

namespace Context

variable {context : Context}

/-- Written expressions that read as given ones. -/
abbrev ReadsAll (context : Context) : List Surface.Expression → List Expression → Prop :=
  List.Forall₂ fun written expression => context.expression written = pure expression

theorem expressions_of_readsAll {written : List Surface.Expression} {expressions : List Expression}
    (reads : context.ReadsAll written expressions) :
    context.expressions written = pure expressions := by
  induction reads with
  | nil => rw [Context.expressions]
  | cons first _ ih => rw [Context.expressions, first, ih]; rfl

/-- A special form or function that takes its arguments is read by reading them. -/
private theorem special_written {name : String} {written : List Surface.Expression}
    (takes : specialTakes name written.length = true) :
    ∃ whole, Surface.Expression.ofSpecial name written = .ok whole
      ∧ context.expression whole = (do
        let arguments ← context.expressions written
        pure (.operator name arguments)) := by
  unfold specialTakes at takes
  unfold Surface.Expression.ofSpecial
  by_cases isIf : name = "if"
  · rw [if_pos isIf] at takes ⊢
    match written, takes with
    | [condition, positive, negative], _ =>
      refine ⟨_, rfl, ?_⟩
      simp only [Context.expression, Context.expressions, isIf, bind_assoc, pure_bind]
  rw [if_neg isIf] at takes ⊢
  by_cases isCoalesce : name = "coalesce"
  · rw [if_pos isCoalesce]
    exact ⟨_, rfl, by rw [Context.expression, isCoalesce]⟩
  rw [if_neg isCoalesce] at takes ⊢
  by_cases isMembership : name = "in" ∨ name = "notin"
  · rw [if_pos isMembership] at takes ⊢
    match written, takes with
    | value :: choices, _ =>
      refine ⟨_, rfl, ?_⟩
      simp only [Context.expression, Context.expressions, bind_assoc, pure_bind]
      rcases isMembership with rfl | rfl <;> rfl
  rw [if_neg isMembership] at takes ⊢
  obtain ⟨function, found⟩ := Option.isSome_iff_exists.1 takes
  have own := Builtin.name_of_ofName? found
  have notDescending : name ≠ "desc" := by
    rintro rfl
    have unknown : Builtin.ofName? "desc" = none := by decide
    rw [unknown] at found
    cases found
  have anyCase : Builtin.ofAnyCase? name = some function := by
    rw [Builtin.ofAnyCase?, ← own, Builtin.toLower_name, own, found]
  rw [if_neg notDescending, anyCase]
  refine ⟨_, rfl, ?_⟩
  rw [Context.expression, callee, own]
  rfl

/-- An operator that takes its arguments is read by reading them. -/
theorem operator_written {name : String} {written : List Surface.Expression}
    (takes : operatorTakes name written.length = true) :
    ∃ whole, Surface.Expression.ofOperator name written = .ok whole
      ∧ context.expression whole = (do
        let arguments ← context.expressions written
        pure (.operator name arguments)) := by
  unfold operatorTakes at takes
  unfold Surface.Expression.ofOperator
  cases binary : BinaryOp.ofName? name with
  | some op =>
    simp only [binary, Option.isSome_some, if_true] at takes
    match written, takes with
    | [left, right], _ =>
      refine ⟨.binary op left right, rfl, ?_⟩
      simp only [Context.expression, Context.expressions, BinaryOp.name_of_ofName? binary,
        bind_assoc, pure_bind]
  | none =>
    simp only [binary, Option.isSome_none, Bool.false_eq_true, if_false] at takes
    cases unary : UnaryOp.ofName? name with
    | some op =>
      simp only [unary, Option.isSome_some, if_true] at takes
      match written, takes with
      | [operand], _ =>
        refine ⟨.unary op operand, rfl, ?_⟩
        simp only [Context.expression, Context.expressions, UnaryOp.name_of_ofName? unary,
          bind_assoc, pure_bind]
    | none =>
      simp only [unary, Option.isSome_none, Bool.false_eq_true, if_false] at takes
      exact special_written takes

/-- A call of an operator whose arguments are written is written so that it is read by reading
these. -/
theorem operatorCall_expressions (context : Context) {name : String}
    {written : List Surface.Expression} {arguments : List Expression}
    (success : Expression.allWritten arguments = pure written)
    (takes : operatorTakes name written.length = true) :
    ∃ whole, (Expression.call (.operator name) arguments).written = pure whole
      ∧ context.expression whole = (do
        let arguments ← context.expressions written
        pure (.operator name arguments)) := by
  obtain ⟨whole, applied, read⟩ := operator_written takes
  refine ⟨whole, ?_, read⟩
  rw [Expression.written, success, pure_bind]
  show (liftM (Surface.Expression.ofOperator name written) : Collecting _) = pure whole
  rw [applied, Collecting.lift_ok]

/-- A call of a named function whose arguments are written is written so that it is read by reading
these. -/
theorem functionCall_expressions (plain : context.MakesPlain) {name : NamedNode}
    {written : List Surface.Expression} {arguments : List Expression}
    (success : Expression.allWritten arguments = pure written) (writable : name.isWritable = true) :
    ∃ whole, (Expression.call (.function name) arguments).written = pure whole
      ∧ context.expression whole = (do
        let arguments ← context.expressions written
        pure (.call (.function name) arguments)) := by
  refine ⟨.call (.named name.written) written false, ?_, ?_⟩
  · rw [Expression.written, success, pure_bind]
  · rw [Context.expression, callee, namedNode_written plain writable]
    rfl

/-- A call of an operator stands for itself if its arguments do. -/
theorem operatorCall_written {name : String} {written : List Surface.Expression}
    {arguments : List Expression} (success : Expression.allWritten arguments = pure written)
    (reads : context.ReadsAll written arguments)
    (takes : operatorTakes name arguments.length = true) :
    ∃ whole, (Expression.call (.operator name) arguments).written = pure whole
      ∧ context.expression whole = pure (.call (.operator name) arguments) := by
  obtain ⟨whole, isWritten, read⟩ :=
    operatorCall_expressions context success (reads.length_eq ▸ takes)
  rw [expressions_of_readsAll reads, pure_bind] at read
  exact ⟨whole, isWritten, read⟩

/-- A call of a named function stands for itself if its arguments do. -/
theorem functionCall_written (plain : context.MakesPlain) {name : NamedNode}
    {written : List Surface.Expression} {arguments : List Expression}
    (success : Expression.allWritten arguments = pure written)
    (reads : context.ReadsAll written arguments) (writable : name.isWritable = true) :
    ∃ whole, (Expression.call (.function name) arguments).written = pure whole
      ∧ context.expression whole = pure (.call (.function name) arguments) := by
  obtain ⟨whole, isWritten, read⟩ := functionCall_expressions plain success writable
  rw [expressions_of_readsAll reads, pure_bind] at read
  exact ⟨whole, isWritten, read⟩

mutual

/-- An expression that is written stands for itself, and nothing is found in it. -/
theorem expression_written (plain : context.MakesPlain) {expression : Expression}
    (writable : expression.isWritable = true) :
    ∃ written, expression.written = pure written
      ∧ context.expression written = pure expression := by
  match expression, writable with
  | .term (.var name), _ =>
    exact ⟨.var name, rfl, by rw [Context.expression, var_eq plain]; rfl⟩
  | .term (.iri node), writable =>
    exact ⟨.iri node.written, rfl, by
      rw [Context.expression, namedNode_written plain writable]; rfl⟩
  | .term (.literal text), writable =>
    exact ⟨.literal text.written, rfl, by
      rw [Context.expression, literal_written plain writable]; rfl⟩
  | .call (.operator name) arguments, writable =>
    obtain ⟨takes, argumentsWritable⟩ := Bool.and_eq_true_iff.1 writable
    obtain ⟨written, success, reads⟩ := expressions_written plain argumentsWritable
    exact operatorCall_written success reads takes
  | .call (.function name) arguments, writable =>
    obtain ⟨nameWritable, argumentsWritable⟩ := Bool.and_eq_true_iff.1 writable
    obtain ⟨written, success, reads⟩ := expressions_written plain argumentsWritable
    exact functionCall_written plain success reads nameWritable
  | .aggregate name argument distinct separator, writable =>
    obtain ⟨known, argumentWritable⟩ := Bool.and_eq_true_iff.1 writable
    obtain ⟨function, found⟩ := Option.isSome_iff_exists.1 known
    have own := AggregateFunction.name_of_ofName? found
    have aggregate : aggregateOf name = .ok function := by rw [aggregateOf, found]
    by_cases wildcard : argument.isWildcard = true
    · refine ⟨.aggregate function none distinct separator, ?_, ?_⟩
      · rw [Expression.written, aggregate, Collecting.lift_ok, pure_bind, if_pos wildcard]
      · have same : argument = .wildcard := by
          cases argument <;> first | rfl | cases wildcard
        rw [Context.expression, own, same]
    · have argumentWritable : argument.isWritable = true := by
        simpa [wildcard] using argumentWritable
      obtain ⟨written, success, read⟩ := expression_written plain argumentWritable
      refine ⟨.aggregate function (some written) distinct separator, ?_, ?_⟩
      · rw [Expression.written, aggregate, Collecting.lift_ok, pure_bind, if_neg wildcard,
          success, pure_bind]
      · rw [Context.expression, read, own]
        rfl

/-- Expressions that are written stand for themselves. -/
theorem expressions_written (plain : context.MakesPlain) {expressions : List Expression}
    (writable : Expression.allWritable expressions = true) :
    ∃ written, Expression.allWritten expressions = pure written
      ∧ context.ReadsAll written expressions := by
  match expressions, writable with
  | [], _ => exact ⟨[], by rw [Expression.allWritten], .nil⟩
  | first :: rest, writable =>
    obtain ⟨firstWritable, restWritable⟩ := Bool.and_eq_true_iff.1 writable
    obtain ⟨first', success, read⟩ := expression_written plain firstWritable
    obtain ⟨rest', successes, reads⟩ := expressions_written plain restWritable
    refine ⟨first' :: rest', ?_, .cons read reads⟩
    rw [Expression.allWritten, success, successes, pure_bind, pure_bind]

end

end Context

end QueryAlgebra
