import QueryAlgebra.Lowering.Pattern

/-! # Replacements that keep forms

Members of a group are put together by the forms of their operations: basic graph patterns are
merged, empty ones are left out, joins and unions are kept flat, and a filter in an optional part
becomes a condition. With a replacement that keeps forms it makes no difference whether members are
put together before or after it.
-/

namespace QueryAlgebra

theorem simplifiedJoin_of_other {left right : Operation}
    (other : ¬ ∃ first second, left = ⟨.bgp first, none⟩ ∧ right = ⟨.bgp second, none⟩) :
    simplifiedJoin left right
      = if left.isEmptyBgp then right
        else if right.isEmptyBgp then left else .join [left, right] := by
  unfold simplifiedJoin
  split
  · exact (other ⟨_, _, rfl, rfl⟩).elim
  · rfl

theorem leftJoinOf_of_other {left right : Operation}
    (other : ¬ ∃ input condition, right = ⟨.filter input condition, none⟩) :
    leftJoinOf left right = .of (.leftJoin left right none) := by
  unfold leftJoinOf
  split
  · exact (other ⟨_, _, rfl⟩).elim
  · rfl

namespace Operation

private theorem parts_of_other {operation : Operation} (how : Combination)
    (other : ¬ ∃ kind inputs, operation = ⟨.combine kind inputs, none⟩) :
    operation.parts how = [operation] := by
  unfold parts
  split
  · exact (other ⟨_, _, rfl⟩).elim
  · rfl

/-- A replacement of operations that keeps their outermost form. -/
structure KeepsForms (change : Operation → Operation) (ofPattern : Pattern → Pattern)
    (ofExpression : Expression → Expression) : Prop where
  form (operation : Operation) :
    (change operation).operator.ctorIdx = operation.operator.ctorIdx
  metadata (operation : Operation) : (change operation).metadata = operation.metadata
  bgp (patterns : List Pattern) (metadata : Option Metadata) :
    change ⟨.bgp patterns, metadata⟩ = ⟨.bgp (patterns.map ofPattern), metadata⟩
  filter (input : Operation) (condition : Expression) (metadata : Option Metadata) :
    change ⟨.filter input condition, metadata⟩
      = ⟨.filter (change input) (ofExpression condition), metadata⟩
  combine (how : Combination) (inputs : List Operation) (metadata : Option Metadata) :
    change ⟨.combine how inputs, metadata⟩ = ⟨.combine how (inputs.map change), metadata⟩
  leftJoin (left right : Operation) (condition : Option Expression)
      (metadata : Option Metadata) :
    change ⟨.leftJoin left right condition, metadata⟩
      = ⟨.leftJoin (change left) (change right) (condition.map ofExpression), metadata⟩

namespace KeepsForms

variable {change : Operation → Operation} {ofPattern : Pattern → Pattern}
  {ofExpression : Expression → Expression}

/-- What becomes an operation without metadata was one of the same form. -/
private theorem same_form (keeps : KeepsForms change ofPattern ofExpression)
    {operation : Operation} {operator : Operator} (isForm : change operation = ⟨operator, none⟩) :
    ∃ before : Operator, operation = ⟨before, none⟩ ∧ operator.ctorIdx = before.ctorIdx := by
  have form := keeps.form operation
  have metadata := keeps.metadata operation
  rw [isForm] at form metadata
  obtain ⟨before, noted⟩ := operation
  cases metadata
  exact ⟨before, rfl, form⟩

private theorem eq_bgp (keeps : KeepsForms change ofPattern ofExpression) {operation : Operation}
    {patterns : List Pattern} (isBgp : change operation = ⟨.bgp patterns, none⟩) :
    ∃ patterns, operation = ⟨.bgp patterns, none⟩ := by
  obtain ⟨before, rfl, form⟩ := keeps.same_form isBgp
  cases before with
  | bgp patterns => exact ⟨patterns, rfl⟩
  | _ => cases form

private theorem eq_filter (keeps : KeepsForms change ofPattern ofExpression)
    {operation input : Operation} {condition : Expression}
    (isFilter : change operation = ⟨.filter input condition, none⟩) :
    ∃ input condition, operation = ⟨.filter input condition, none⟩ := by
  obtain ⟨before, rfl, form⟩ := keeps.same_form isFilter
  cases before with
  | filter input condition => exact ⟨input, condition, rfl⟩
  | _ => cases form

private theorem eq_combine (keeps : KeepsForms change ofPattern ofExpression)
    {operation : Operation} {how : Combination} {inputs : List Operation}
    (isCombination : change operation = ⟨.combine how inputs, none⟩) :
    ∃ how inputs, operation = ⟨.combine how inputs, none⟩ := by
  obtain ⟨before, rfl, form⟩ := keeps.same_form isCombination
  cases before with
  | combine how inputs => exact ⟨how, inputs, rfl⟩
  | _ => cases form

private theorem parts (keeps : KeepsForms change ofPattern ofExpression) (how : Combination)
    (operation : Operation) :
    (change operation).parts how = (operation.parts how).map change := by
  by_cases isCombination : ∃ kind inputs, operation = ⟨.combine kind inputs, none⟩
  · obtain ⟨kind, inputs, rfl⟩ := isCombination
    rw [keeps.combine]
    simp only [Operation.parts]
    split
    · rfl
    · rw [List.map_singleton, keeps.combine]
  · have stays : ¬ ∃ kind inputs, change operation = ⟨.combine kind inputs, none⟩ :=
      fun ⟨_, _, isOne⟩ => isCombination (keeps.eq_combine isOne)
    rw [parts_of_other how isCombination, parts_of_other how stays, List.map_singleton]

theorem join (keeps : KeepsForms change ofPattern ofExpression) (inputs : List Operation) :
    change (join inputs) = Operation.join (inputs.map change) := by
  simp only [Operation.join, of, keeps.combine, List.map_flatMap, List.flatMap_map, keeps.parts]

theorem union (keeps : KeepsForms change ofPattern ofExpression) (inputs : List Operation) :
    change (union inputs) = Operation.union (inputs.map change) := by
  simp only [Operation.union, of, keeps.combine, List.map_flatMap, List.flatMap_map, keeps.parts]

theorem isEmptyBgp (keeps : KeepsForms change ofPattern ofExpression) (operation : Operation) :
    (change operation).isEmptyBgp = operation.isEmptyBgp := by
  have form := keeps.form operation
  obtain ⟨operator, metadata⟩ := operation
  cases operator with
  | bgp patterns =>
    rw [keeps.bgp]
    cases patterns <;> rfl
  | _ =>
    unfold Operation.isEmptyBgp
    split
    · rename_i isBgp
      rw [isBgp] at form
      cases form
    · rfl

/-- Two members may be joined before or after the replacement. -/
theorem simplifiedJoin (keeps : KeepsForms change ofPattern ofExpression)
    (left right : Operation) :
    change (simplifiedJoin left right)
      = QueryAlgebra.simplifiedJoin (change left) (change right) := by
  by_cases areBgps : ∃ first second, left = ⟨.bgp first, none⟩ ∧ right = ⟨.bgp second, none⟩
  · obtain ⟨first, second, rfl, rfl⟩ := areBgps
    simp only [QueryAlgebra.simplifiedJoin, Operation.bgp, of, keeps.bgp, List.map_append]
  · have stay : ¬ ∃ first second, change left = ⟨.bgp first, none⟩
        ∧ change right = ⟨.bgp second, none⟩ := by
      rintro ⟨_, _, isLeft, isRight⟩
      obtain ⟨first, ofLeft⟩ := keeps.eq_bgp isLeft
      obtain ⟨second, ofRight⟩ := keeps.eq_bgp isRight
      exact areBgps ⟨first, second, ofLeft, ofRight⟩
    rw [simplifiedJoin_of_other areBgps, simplifiedJoin_of_other stay, keeps.isEmptyBgp,
      keeps.isEmptyBgp]
    split
    · rfl
    · split
      · rfl
      · exact keeps.join [left, right]

/-- An optional part may be joined before or after the replacement. -/
theorem leftJoinOf (keeps : KeepsForms change ofPattern ofExpression) (left right : Operation) :
    change (leftJoinOf left right) = QueryAlgebra.leftJoinOf (change left) (change right) := by
  by_cases isFilter : ∃ input condition, right = ⟨.filter input condition, none⟩
  · obtain ⟨input, condition, rfl⟩ := isFilter
    rw [keeps.filter]
    exact keeps.leftJoin left input (some condition) none
  · have stays : ¬ ∃ input condition, change right = ⟨.filter input condition, none⟩ :=
      fun ⟨_, _, isOne⟩ => isFilter (keeps.eq_filter isOne)
    rw [leftJoinOf_of_other isFilter, leftJoinOf_of_other stays]
    exact keeps.leftJoin left right none none

end KeepsForms

end Operation

end QueryAlgebra
