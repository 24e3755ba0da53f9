import QueryAlgebra.Proofs.Lifting.WrittenExpressions
import QueryAlgebra.Proofs.Lowering.Translation
import QueryAlgebra.Proofs.Semantics.Interpretation

/-! # What an operation becomes in a group

An operation that is written as the elements of a group, after others, becomes an operation over
what comes before it: `Operation.regroupedAfter`. Optional and removed parts and bound values then
apply to all that comes before them in the group, and a lone filter of an optional part becomes its
condition. `Operation.isPlain` describes the operations that are about basic graph patterns, inline
data and what is made of them.

Operations that are `Operation.Alike` mean the same in every interpretation, and parts of a group
make the same of them.
-/

namespace QueryAlgebra

/-! ### Plain operations -/

mutual

/-- Whether an operation is made of basic graph patterns, inline data, joins, unions, left joins,
removed parts, filters and bound values, and can be written and read again. -/
def Operation.isPlain : Operation → Bool
  | ⟨operator, _⟩ => operator.isPlain

/-- Whether an operator with its inputs makes a plain operation. -/
def Operator.isPlain : Operator → Bool
  | .bgp patterns => patterns.all Pattern.isWritable
  | .values vars rows => rows.all (Row.isWritable vars)
  | .filter input condition => input.isPlain && condition.isWritable
  | .extend input _ value => input.isPlain && value.isWritable
  | .combine .join inputs => Operation.allPlain inputs
  | .combine .union inputs => Operation.allPlain inputs
  | .leftJoin left right condition =>
    left.isPlain && right.isPlain && condition.all Expression.isWritable
  | .minus left right => left.isPlain && right.isPlain
  | _ => false

/-- Whether all operations are plain. -/
def Operation.allPlain : List Operation → Bool
  | [] => true
  | operation :: rest => operation.isPlain && Operation.allPlain rest

end

namespace Operation

theorem allPlain_iff {operations : List Operation} :
    allPlain operations = true ↔ ∀ operation ∈ operations, operation.isPlain = true := by
  induction operations with
  | nil => simp [allPlain]
  | cons head rest ih => simp [allPlain, ih]

/-- Induction over plain operations. -/
@[elab_as_elim]
theorem plain_induct {motive : Operation → Prop}
    (bgp : ∀ patterns metadata, patterns.all Pattern.isWritable = true →
      motive ⟨.bgp patterns, metadata⟩)
    (values : ∀ vars rows metadata, rows.all (Row.isWritable vars) = true →
      motive ⟨.values vars rows, metadata⟩)
    (filter : ∀ input condition metadata, condition.isWritable = true → motive input →
      motive ⟨.filter input condition, metadata⟩)
    (extend : ∀ input name value metadata, value.isWritable = true → motive input →
      motive ⟨.extend input name value, metadata⟩)
    (join : ∀ inputs metadata, (∀ input ∈ inputs, motive input) →
      motive ⟨.combine .join inputs, metadata⟩)
    (union : ∀ inputs metadata, (∀ input ∈ inputs, motive input) →
      motive ⟨.combine .union inputs, metadata⟩)
    (leftJoin : ∀ left right condition metadata, condition.all Expression.isWritable = true →
      motive left → motive right → motive ⟨.leftJoin left right condition, metadata⟩)
    (minus : ∀ left right metadata, motive left → motive right →
      motive ⟨.minus left right, metadata⟩)
    (operation : Operation) (plain : operation.isPlain = true) : motive operation := by
  have recurse := fun (part : Operation) (_ : sizeOf part < sizeOf operation) =>
    plain_induct bgp values filter extend join union leftJoin minus part
  match operation, plain with
  | ⟨.bgp patterns, metadata⟩, plain => exact bgp patterns metadata plain
  | ⟨.values vars rows, metadata⟩, plain => exact values vars rows metadata plain
  | ⟨.filter input condition, metadata⟩, plain =>
    obtain ⟨inputPlain, conditionWritable⟩ := Bool.and_eq_true_iff.1 plain
    exact filter input condition metadata conditionWritable
      (recurse input (by simp; omega) inputPlain)
  | ⟨.extend input name value, metadata⟩, plain =>
    obtain ⟨inputPlain, valueWritable⟩ := Bool.and_eq_true_iff.1 plain
    exact extend input name value metadata valueWritable
      (recurse input (by simp; omega) inputPlain)
  | ⟨.combine .join inputs, metadata⟩, plain =>
    refine join inputs metadata fun input member =>
      recurse input ?_ (allPlain_iff.1 plain input member)
    have := List.sizeOf_lt_of_mem member
    simp
    omega
  | ⟨.combine .union inputs, metadata⟩, plain =>
    refine union inputs metadata fun input member =>
      recurse input ?_ (allPlain_iff.1 plain input member)
    have := List.sizeOf_lt_of_mem member
    simp
    omega
  | ⟨.leftJoin left right condition, metadata⟩, plain =>
    obtain ⟨inputsPlain, conditionWritable⟩ := Bool.and_eq_true_iff.1 plain
    obtain ⟨leftPlain, rightPlain⟩ := Bool.and_eq_true_iff.1 inputsPlain
    exact leftJoin left right condition metadata conditionWritable
      (recurse left (by simp; omega) leftPlain) (recurse right (by simp; omega) rightPlain)
  | ⟨.minus left right, metadata⟩, plain =>
    obtain ⟨leftPlain, rightPlain⟩ := Bool.and_eq_true_iff.1 plain
    exact minus left right metadata (recurse left (by simp; omega) leftPlain)
      (recurse right (by simp; omega) rightPlain)
termination_by sizeOf operation

end Operation

/-! ### Operations after others in a group -/

/-- The union of branches after what comes before it in a group. One branch is joined as it is, and
no branch leaves nothing to write. -/
def joinedBranches (before : Operation) : List Operation → Operation
  | [] => before
  | [branch] => simplifiedJoin before branch
  | branches => simplifiedJoin before (.union branches)

mutual

/-- What an operation becomes after what comes before it in a group. -/
def Operation.regroupedAfter : Operation → Operation → Operation
  | ⟨operator, _⟩, before => operator.regroupedAfter before

/-- What an operator with its inputs becomes after what comes before it in a group. -/
def Operator.regroupedAfter : Operator → Operation → Operation
  | .filter input condition, before =>
    simplifiedJoin before (.of (.filter (input.regroupedAfter (.bgp [])) condition))
  | .extend input name value, before => .of (.extend (input.regroupedAfter before) name value)
  | .combine .join inputs, before => Operation.allRegroupedAfter inputs before
  | .combine .union inputs, before => joinedBranches before (Operation.allRegrouped inputs)
  | .leftJoin left right none, before =>
    leftJoinOf (left.regroupedAfter before) (right.regroupedAfter (.bgp []))
  | .leftJoin left right (some condition), before =>
    .of (.leftJoin (left.regroupedAfter before) (right.regroupedAfter (.bgp [])) (some condition))
  | .minus left right, before =>
    .of (.minus (left.regroupedAfter before) (right.regroupedAfter (.bgp [])))
  | operator, before => simplifiedJoin before (.of operator)

/-- What operations one after another become after what comes before them. -/
def Operation.allRegroupedAfter : List Operation → Operation → Operation
  | [], before => before
  | operation :: rest, before =>
    Operation.allRegroupedAfter rest (operation.regroupedAfter before)

/-- What operations become, each in a group of its own. -/
def Operation.allRegrouped : List Operation → List Operation
  | [] => []
  | operation :: rest => operation.regroupedAfter (.bgp []) :: Operation.allRegrouped rest

end

/-- What an operation becomes in a group of its own. -/
def Operation.regrouped (operation : Operation) : Operation := operation.regroupedAfter (.bgp [])

/-! ### Operations that mean the same -/

namespace Operation

/-- Operations that have the same solutions in every interpretation and the same form, and the same
condition if they are filters. -/
structure Alike (first second : Operation) : Prop where
  solutions : ∀ I, first.solutions I = second.solutions I
  shape : first.shape = second.shape
  condition : ∀ input condition, first = .of (.filter input condition) →
    ∃ input', second = .of (.filter input' condition)
      ∧ ∀ I, input.solutions I = input'.solutions I

namespace Alike

variable {first second third fourth : Operation}

theorem refl (operation : Operation) : operation.Alike operation :=
  ⟨fun _ => rfl, rfl, fun input _ same => ⟨input, same, fun _ => rfl⟩⟩

theorem trans (one : first.Alike second) (two : second.Alike third) : first.Alike third := by
  refine ⟨fun I => (one.solutions I).trans (two.solutions I), one.shape.trans two.shape, ?_⟩
  intro input condition same
  obtain ⟨input', same', solutions⟩ := one.condition input condition same
  obtain ⟨input'', same'', solutions'⟩ := two.condition input' condition same'
  exact ⟨input'', same'', fun I => (solutions I).trans (solutions' I)⟩

theorem of_other (solutions : ∀ I, first.solutions I = second.solutions I)
    (ofFirst : first.shape = .other) (ofSecond : second.shape = .other) : first.Alike second := by
  refine ⟨solutions, ofFirst.trans ofSecond.symm, ?_⟩
  rintro input condition rfl
  cases ofFirst

theorem filter (solutions : ∀ I, first.solutions I = second.solutions I)
    (condition : Expression) :
    (of (.filter first condition)).Alike (of (.filter second condition)) := by
  refine ⟨fun I => ?_, rfl, ?_⟩
  · rw [solutions_filter, solutions_filter, solutions I]
  · rintro input condition same
    cases same
    exact ⟨second, rfl, solutions⟩

end Alike

theorem simplifiedJoin_of_left {left : Operation} (empty : left.shape = .empty)
    (right : Operation) : simplifiedJoin left right = right := by
  unfold simplifiedJoin
  split
  · rename_i first second
    cases first with
    | nil => rfl
    | cons head rest => cases empty
  · rw [if_pos (shape_of_isEmptyBgp.2 empty)]

theorem simplifiedJoin_of_right {left right : Operation} (full : left.shape ≠ .empty)
    (empty : right.shape = .empty) : simplifiedJoin left right = left := by
  unfold simplifiedJoin
  split
  · rename_i first second
    cases second with
    | nil => rw [List.append_nil]; rfl
    | cons head rest => cases empty
  · rw [if_neg fun isEmpty => full (shape_of_isEmptyBgp.1 isEmpty),
      if_pos (shape_of_isEmptyBgp.2 empty)]

namespace Alike

variable {first second third fourth : Operation}

theorem simplifiedJoin (lefts : first.Alike second) (rights : third.Alike fourth) :
    (simplifiedJoin first third).Alike (simplifiedJoin second fourth) := by
  by_cases leftEmpty : first.shape = .empty
  · rw [simplifiedJoin_of_left leftEmpty, simplifiedJoin_of_left (lefts.shape ▸ leftEmpty)]
    exact rights
  by_cases rightEmpty : third.shape = .empty
  · rw [simplifiedJoin_of_right leftEmpty rightEmpty,
      simplifiedJoin_of_right (lefts.shape ▸ leftEmpty) (rights.shape ▸ rightEmpty)]
    exact lefts
  have joined : first.shape.joined third.shape = .other := by
    cases ofFirst : first.shape with
    | empty => exact absurd ofFirst leftEmpty
    | _ => cases ofThird : third.shape with
      | empty => exact absurd ofThird rightEmpty
      | _ => rfl
  refine of_other (fun I => ?_) ?_ ?_
  · rw [solutions_simplifiedJoin, solutions_simplifiedJoin, lefts.solutions, rights.solutions]
  · rw [shape_simplifiedJoin, joined]
  · rw [shape_simplifiedJoin, ← lefts.shape, ← rights.shape, joined]

theorem leftJoinOf (lefts : ∀ I, first.solutions I = second.solutions I)
    (rights : third.Alike fourth) :
    (leftJoinOf first third).Alike (leftJoinOf second fourth) := by
  refine of_other (fun I => ?_) (shape_leftJoinOf ..) (shape_leftJoinOf ..)
  by_cases isFilter : third.shape = .filter
  · obtain ⟨input, condition, rfl⟩ : ∃ input condition, third = .of (.filter input condition) := by
      obtain ⟨operator, metadata⟩ := third
      cases operator with
      | filter input condition => cases metadata with
        | none => exact ⟨input, condition, rfl⟩
        | some metadata => cases isFilter
      | bgp patterns => cases patterns <;> cases isFilter
      | _ => cases isFilter
    obtain ⟨input', rfl, inputs⟩ := rights.condition input condition rfl
    show (of (.leftJoin first input (some condition))).solutions I
      = (of (.leftJoin second input' (some condition))).solutions I
    rw [solutions_leftJoin, solutions_leftJoin, lefts, inputs]
  · rw [leftJoinOf_eq_of_shape isFilter, leftJoinOf_eq_of_shape (rights.shape ▸ isFilter),
      solutions_leftJoin, solutions_leftJoin, lefts, rights.solutions]

/-- Basic graph patterns that follow each other may be merged before they are joined. -/
theorem merged (before : Operation) (first second : List Pattern) :
    (QueryAlgebra.simplifiedJoin before (.bgp (first ++ second))).Alike
      (QueryAlgebra.simplifiedJoin (QueryAlgebra.simplifiedJoin before (.bgp first))
        (.bgp second)) := by
  cases first with
  | nil =>
    rw [List.nil_append]
    by_cases empty : before.shape = .empty
    · rw [simplifiedJoin_of_left empty, simplifiedJoin_of_left empty]
      exact refl _
    · have same : QueryAlgebra.simplifiedJoin before (.bgp []) = before :=
        simplifiedJoin_of_right empty rfl
      rw [same]
      exact refl _
  | cons head rest =>
    refine of_other (fun I => ?_) ?_ ?_
    · simp only [solutions_simplifiedJoin, solutions_bgp, bgp_append, Solutions.join_assoc]
    · rw [shape_simplifiedJoin]
      cases before.shape <;> rfl
    · rw [shape_simplifiedJoin, shape_simplifiedJoin]
      cases before.shape <;> cases second <;> rfl

end Alike

end Operation

end QueryAlgebra
