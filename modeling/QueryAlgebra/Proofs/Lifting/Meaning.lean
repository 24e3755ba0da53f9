import QueryAlgebra.Proofs.Lifting.PlainLift

/-! # What lifting keeps of the meaning of an operation

A plain operation that is written as a query and read again has the solutions of what it becomes in
a group. These are its own solutions if every part of it settles where it is written: what comes
before a part in its group makes no difference to an optional or removed part or a bound value in
it, no lone filter becomes a condition, and no union without branches is left out.
`Operation.isSafeAfter` is a test of the operation alone that guarantees so in every interpretation.
-/

namespace QueryAlgebra

namespace Operation

/-- While an operation is written after what comes before it in a group, a part of it is written
after what comes before the part in its own group. -/
inductive Writes : Operation → Operation → Operation → Operation → Prop
  | here {before operation : Operation} : Writes before operation before operation
  | filter {before input before' part : Operation} {condition : Expression}
    {metadata : Option Metadata} (inside : Writes (.bgp []) input before' part) :
    Writes before ⟨.filter input condition, metadata⟩ before' part
  | extend {before input before' part : Operation} {name : Variable} {value : Expression}
    {metadata : Option Metadata} (inside : Writes before input before' part) :
    Writes before ⟨.extend input name value, metadata⟩ before' part
  | join {before input before' part : Operation} {earlier later : List Operation}
    {metadata : Option Metadata}
    (inside : Writes (allRegroupedAfter earlier before) input before' part) :
    Writes before ⟨.combine .join (earlier ++ input :: later), metadata⟩ before' part
  | union {before input before' part : Operation} {inputs : List Operation}
    {metadata : Option Metadata} (member : input ∈ inputs)
    (inside : Writes (.bgp []) input before' part) :
    Writes before ⟨.combine .union inputs, metadata⟩ before' part
  | leftJoinLeft {before left right before' part : Operation} {condition : Option Expression}
    {metadata : Option Metadata} (inside : Writes before left before' part) :
    Writes before ⟨.leftJoin left right condition, metadata⟩ before' part
  | leftJoinRight {before left right before' part : Operation} {condition : Option Expression}
    {metadata : Option Metadata} (inside : Writes (.bgp []) right before' part) :
    Writes before ⟨.leftJoin left right condition, metadata⟩ before' part
  | minusLeft {before left right before' part : Operation} {metadata : Option Metadata}
    (inside : Writes before left before' part) :
    Writes before ⟨.minus left right, metadata⟩ before' part
  | minusRight {before left right before' part : Operation} {metadata : Option Metadata}
    (inside : Writes (.bgp []) right before' part) :
    Writes before ⟨.minus left right, metadata⟩ before' part

theorem Writes.trans {before operation before' part before'' inner : Operation}
    (first : Writes before operation before' part) (second : Writes before' part before'' inner) :
    Writes before operation before'' inner := by
  induction first with
  | here => exact second
  | filter _ ih => exact .filter (ih second)
  | extend _ ih => exact .extend (ih second)
  | join _ ih => exact .join (ih second)
  | union member _ ih => exact .union member (ih second)
  | leftJoinLeft _ ih => exact .leftJoinLeft (ih second)
  | leftJoinRight _ ih => exact .leftJoinRight (ih second)
  | minusLeft _ ih => exact .minusLeft (ih second)
  | minusRight _ ih => exact .minusRight (ih second)

theorem Writes.isPlain {before operation before' part : Operation}
    (writes : Writes before operation before' part) (plain : operation.isPlain = true) :
    part.isPlain = true := by
  induction writes with
  | here => exact plain
  | filter _ ih => exact ih (Bool.and_eq_true_iff.1 plain).1
  | extend _ ih => exact ih (Bool.and_eq_true_iff.1 plain).1
  | join _ ih => exact ih (allPlain_iff.1 plain _ (List.mem_append_right _ (List.mem_cons_self ..)))
  | union member _ ih => exact ih (allPlain_iff.1 plain _ member)
  | leftJoinLeft _ ih =>
    exact ih (Bool.and_eq_true_iff.1 (Bool.and_eq_true_iff.1 plain).1).1
  | leftJoinRight _ ih =>
    exact ih (Bool.and_eq_true_iff.1 (Bool.and_eq_true_iff.1 plain).1).2
  | minusLeft _ ih => exact ih (Bool.and_eq_true_iff.1 plain).1
  | minusRight _ ih => exact ih (Bool.and_eq_true_iff.1 plain).2

variable (I : Interpretation)

/-- An operation that is written after what comes before it means the join of the two. -/
def Undisturbed (before operation : Operation) : Prop :=
  (operation.regroupedAfter before).solutions I = (simplifiedJoin before operation).solutions I

end Operation

/-- What comes before an operator in its group may as well be joined after the operator is applied.
An optional part may also lose its lone filter to the condition, and a union without branches has
nothing to be written as. -/
def Operator.Settles (I : Interpretation) (before : Operation) : Operator → Prop
  | .extend input name value =>
    (Operation.of (.extend (simplifiedJoin before input) name value)).solutions I
      = (simplifiedJoin before (Operation.of (.extend input name value))).solutions I
  | .leftJoin left right none =>
    (leftJoinOf (simplifiedJoin before left) right.regrouped).solutions I
      = (simplifiedJoin before (Operation.of (.leftJoin left right none))).solutions I
  | .leftJoin left right (some condition) =>
    (Operation.of (.leftJoin (simplifiedJoin before left) right (some condition))).solutions I
      = (simplifiedJoin before (Operation.of (.leftJoin left right (some condition)))).solutions I
  | .minus left right =>
    (Operation.of (.minus (simplifiedJoin before left) right)).solutions I
      = (simplifiedJoin before (Operation.of (.minus left right))).solutions I
  | .combine .union [] => before.solutions I = 0
  | _ => True

mutual

/-- Whether an operation is written without harm after what comes before it in a group: optional and
removed parts and bound values come first, an optional part without a condition does not begin with
a lone filter, and unions have branches. -/
def Operation.isSafeAfter : Operation → Operation → Bool
  | ⟨operator, _⟩, before => operator.isSafeAfter before

/-- Whether an operator with its inputs is written without harm. -/
def Operator.isSafeAfter : Operator → Operation → Bool
  | .filter input _, _ => input.isSafeAfter (.bgp [])
  | .extend input _ _, before => before.isEmptyBgp && input.isSafeAfter before
  | .combine .join inputs, before => Operation.allSafeAfter inputs before
  | .combine .union inputs, _ => !inputs.isEmpty && Operation.allSafe inputs
  | .leftJoin left right condition, before =>
    before.isEmptyBgp && left.isSafeAfter before && right.isSafeAfter (.bgp [])
      && (condition.isSome || right.regrouped.shape != .filter)
  | .minus left right, before =>
    before.isEmptyBgp && left.isSafeAfter before && right.isSafeAfter (.bgp [])
  | _, _ => true

/-- Whether operations are written one after another without harm. -/
def Operation.allSafeAfter : List Operation → Operation → Bool
  | [], _ => true
  | operation :: rest, before =>
    operation.isSafeAfter before && Operation.allSafeAfter rest (operation.regroupedAfter before)

/-- Whether each operation is written without harm in a group of its own. -/
def Operation.allSafe : List Operation → Bool
  | [] => true
  | operation :: rest => operation.isSafeAfter (.bgp []) && Operation.allSafe rest

end

namespace Operation

variable {I : Interpretation}

theorem solutions_of_undisturbed {operation : Operation}
    (undisturbed : Undisturbed I (.bgp []) operation) :
    operation.regrouped.solutions I = operation.solutions I := by
  rw [regrouped, undisturbed, simplifiedJoin_of_left rfl]

/-- A left join depends on its left side only through the solutions. -/
private theorem solutions_leftJoinOf_congr {left left' : Operation}
    (lefts : left.solutions I = left'.solutions I) (right : Operation) :
    (leftJoinOf left right).solutions I = (leftJoinOf left' right).solutions I := by
  unfold leftJoinOf
  split <;> rw [solutions_leftJoin, solutions_leftJoin, lefts]

/-- Where no part of an operation is disturbed, the operation settles. -/
private theorem settles_of_undisturbed {before operation : Operation}
    (all : ∀ before' part, Writes before operation before' part → Undisturbed I before' part) :
    operation.operator.Settles I before := by
  have whole := all before operation .here
  rw [Undisturbed] at whole
  obtain ⟨operator, metadata⟩ := operation
  cases operator with
  | extend input name value =>
    have ofInput := all before input (.extend .here)
    rw [regroupedAfter, Operator.regroupedAfter, solutions_extend, ofInput, ← solutions_extend,
      solutions_simplifiedJoin, solutions_mk] at whole
    rw [Operator.Settles, whole, solutions_simplifiedJoin, solutions_of]
  | leftJoin left right condition =>
    have ofLeft := all before left (.leftJoinLeft .here)
    have ofRight := solutions_of_undisturbed (all (.bgp []) right (.leftJoinRight .here))
    cases condition with
    | none =>
      rw [regroupedAfter, Operator.regroupedAfter] at whole
      have same : (leftJoinOf (simplifiedJoin before left) right.regrouped).solutions I
          = (leftJoinOf (left.regroupedAfter before) right.regrouped).solutions I :=
        solutions_leftJoinOf_congr ofLeft.symm right.regrouped
      rw [Operator.Settles, same]
      exact whole.trans (by rw [solutions_simplifiedJoin, solutions_simplifiedJoin, solutions_mk,
        solutions_of])
    | some condition =>
      rw [regroupedAfter, Operator.regroupedAfter, solutions_leftJoin, ofLeft] at whole
      rw [Operator.Settles, solutions_leftJoin, ← ofRight]
      exact whole.trans (by rw [solutions_simplifiedJoin, solutions_simplifiedJoin, solutions_mk,
        solutions_of])
  | minus left right =>
    have ofLeft := all before left (.minusLeft .here)
    have ofRight := solutions_of_undisturbed (all (.bgp []) right (.minusRight .here))
    rw [regroupedAfter, Operator.regroupedAfter, solutions_minus, ofLeft] at whole
    rw [Operator.Settles, solutions_minus, ← ofRight]
    exact whole.trans (by rw [solutions_simplifiedJoin, solutions_simplifiedJoin, solutions_mk,
      solutions_of])
  | combine how inputs =>
    cases how with
    | union =>
      cases inputs with
      | nil =>
        rw [regroupedAfter, Operator.regroupedAfter, allRegrouped, joinedBranches,
          solutions_simplifiedJoin, solutions_mk, Operator.solutions_union] at whole
        rw [Operator.Settles, whole]
        exact Solutions.join_zero _
      | cons head rest => trivial
    | _ => trivial
  | _ => trivial

/-- Members of a join that are not disturbed mean the join of what comes before and all of them. -/
private theorem solutions_allRegroupedAfter {before : Operation} {inputs : List Operation}
    (all : ∀ earlier input later, inputs = earlier ++ input :: later →
      Undisturbed I (allRegroupedAfter earlier before) input) :
    (allRegroupedAfter inputs before).solutions I
      = Solutions.join (before.solutions I) (Solutions.joinAll (allSolutions I inputs)) := by
  induction inputs generalizing before with
  | nil => rw [allRegroupedAfter, allSolutions_nil, Solutions.joinAll_nil, Solutions.join_unit]
  | cons head rest ih =>
    have first : Undisturbed I before head := by
      have := all [] head rest rfl
      rwa [allRegroupedAfter] at this
    have others := ih fun earlier input later same => by
      have := all (head :: earlier) input later (by rw [same]; rfl)
      rwa [allRegroupedAfter] at this
    rw [allRegroupedAfter, others, first, solutions_simplifiedJoin, allSolutions_cons,
      Solutions.joinAll_cons, Solutions.join_assoc]

/-- Branches that are not disturbed mean the join of what comes before and their union. -/
private theorem solutions_joinedBranches {before : Operation} {inputs : List Operation}
    (all : ∀ input ∈ inputs, Undisturbed I (.bgp []) input)
    (none : inputs = [] → before.solutions I = 0) :
    (joinedBranches before (allRegrouped inputs)).solutions I
      = Solutions.join (before.solutions I) (allSolutions I inputs).sum := by
  have branches : allSolutions I (allRegrouped inputs) = allSolutions I inputs := by
    clear none
    induction inputs with
    | nil => rw [allRegrouped]
    | cons head rest ih =>
      have ofHead := solutions_of_undisturbed (all head (List.mem_cons_self ..))
      rw [allRegrouped, allSolutions_cons, allSolutions_cons, ← ofHead, regrouped,
        ih fun input member => all input (List.mem_cons_of_mem _ member)]
  rw [← branches]
  rcases inputs with _ | ⟨input, _ | ⟨second, rest⟩⟩
  · rw [allRegrouped, joinedBranches, none rfl, allSolutions_nil, List.sum_nil,
      Solutions.join_zero]
  · rw [allRegrouped, allRegrouped, joinedBranches, solutions_simplifiedJoin, allSolutions_cons,
      allSolutions_nil, List.sum_singleton]
  · rw [allRegrouped, allRegrouped]
    show (simplifiedJoin before (.union _)).solutions I = _
    rw [solutions_simplifiedJoin, solutions_union]

/-- Where every part of an operation settles, the operation is not disturbed. -/
private theorem undisturbed_of_settles {operation : Operation} (plain : operation.isPlain = true)
    {before : Operation}
    (all : ∀ before' part, Writes before operation before' part →
      part.operator.Settles I before') : Undisturbed I before operation := by
  revert before
  refine plain_induct (motive := fun operation => ∀ {before : Operation},
    (∀ before' part, Writes before operation before' part → part.operator.Settles I before') →
      Undisturbed I before operation)
    ?bgp ?values ?filter ?extend ?join ?union ?leftJoin ?minus operation plain
  case bgp =>
    intro patterns metadata _ before _
    show (simplifiedJoin before (.bgp patterns)).solutions I = _
    rw [solutions_simplifiedJoin, solutions_simplifiedJoin, bgp, solutions_of, solutions_mk]
  case values =>
    intro vars rows metadata _ before _
    show (simplifiedJoin before (.of (.values vars rows))).solutions I = _
    rw [solutions_simplifiedJoin, solutions_simplifiedJoin, solutions_of, solutions_mk]
  case filter =>
    intro input condition metadata _ ih before all
    have ofInput := solutions_of_undisturbed (ih fun before' part inside =>
      all before' part (.filter inside))
    rw [Undisturbed, solutions_simplifiedJoin, regroupedAfter, Operator.regroupedAfter,
      solutions_simplifiedJoin, solutions_filter, solutions_mk, Operator.solutions_filter,
      ← ofInput,
      regrouped]
  case extend =>
    intro input name value metadata _ ih before all
    have settles := all before _ .here
    have ofInput := ih fun before' part inside => all before' part (.extend inside)
    rw [Operator.Settles, solutions_extend] at settles
    rw [Undisturbed, regroupedAfter, Operator.regroupedAfter, solutions_extend, ofInput, settles,
      solutions_simplifiedJoin, solutions_simplifiedJoin, solutions_mk, solutions_of]
  case join =>
    intro inputs metadata ih before all
    rw [Undisturbed, solutions_simplifiedJoin, regroupedAfter, Operator.regroupedAfter,
      solutions_mk, Operator.solutions_join]
    refine solutions_allRegroupedAfter fun earlier input later same => ?_
    subst same
    exact ih input (List.mem_append_right _ (List.mem_cons_self ..)) fun before' part inside =>
      all before' part (.join inside)
  case union =>
    intro inputs metadata ih before all
    have settles := all before _ .here
    rw [Undisturbed, solutions_simplifiedJoin, regroupedAfter, Operator.regroupedAfter,
      solutions_mk, Operator.solutions_union]
    refine solutions_joinedBranches (fun input member => ?_) fun empty => ?_
    · exact ih input member fun before' part inside => all before' part (.union member inside)
    · subst empty
      exact settles
  case leftJoin =>
    intro left right condition metadata _ ihLeft ihRight before all
    have settles := all before _ .here
    have ofLeft := ihLeft fun before' part inside => all before' part (.leftJoinLeft inside)
    have ofRight := solutions_of_undisturbed (ihRight fun before' part inside =>
      all before' part (.leftJoinRight inside))
    cases condition with
    | none =>
      rw [Operator.Settles, solutions_leftJoinOf_congr ofLeft.symm] at settles
      rw [Undisturbed, regroupedAfter, Operator.regroupedAfter]
      exact settles.trans (by rw [solutions_simplifiedJoin, solutions_simplifiedJoin,
        solutions_mk, solutions_of])
    | some condition =>
      rw [Operator.Settles, solutions_leftJoin, ← ofRight] at settles
      rw [Undisturbed, regroupedAfter, Operator.regroupedAfter, solutions_leftJoin, ofLeft]
      exact settles.trans (by rw [solutions_simplifiedJoin, solutions_simplifiedJoin,
        solutions_mk, solutions_of])
  case minus =>
    intro left right metadata ihLeft ihRight before all
    have settles := all before _ .here
    have ofLeft := ihLeft fun before' part inside => all before' part (.minusLeft inside)
    have ofRight := solutions_of_undisturbed (ihRight fun before' part inside =>
      all before' part (.minusRight inside))
    rw [Operator.Settles, solutions_minus, ← ofRight] at settles
    rw [Undisturbed, regroupedAfter, Operator.regroupedAfter, solutions_minus, ofLeft]
    exact settles.trans (by rw [solutions_simplifiedJoin, solutions_simplifiedJoin, solutions_mk,
      solutions_of])

private theorem isSafeAfter_of_allSafeAfter {before input : Operation}
    {earlier later : List Operation}
    (safe : allSafeAfter (earlier ++ input :: later) before = true) :
    input.isSafeAfter (allRegroupedAfter earlier before) = true := by
  induction earlier generalizing before with
  | nil =>
    rw [List.nil_append, allSafeAfter, Bool.and_eq_true] at safe
    rw [allRegroupedAfter]
    exact safe.1
  | cons head rest ih =>
    rw [List.cons_append, allSafeAfter, Bool.and_eq_true] at safe
    rw [allRegroupedAfter]
    exact ih safe.2

private theorem isSafe_of_allSafe {inputs : List Operation} (safe : allSafe inputs = true) :
    ∀ input ∈ inputs, input.isSafeAfter (.bgp []) = true := by
  induction inputs with
  | nil => exact fun input member => absurd member List.not_mem_nil
  | cons head rest ih =>
    rw [allSafe, Bool.and_eq_true] at safe
    intro input member
    rcases List.mem_cons.1 member with rfl | inRest
    · exact safe.1
    · exact ih safe.2 input inRest

/-- Every part of an operation that is written without harm settles. -/
private theorem settles_of_isSafeAfter {operation : Operation} (plain : operation.isPlain = true)
    {before : Operation} (safe : operation.isSafeAfter before = true) :
    ∀ before' part, Writes before operation before' part → part.operator.Settles I before' := by
  have alone : ∀ {before : Operation}, before.isEmptyBgp = true →
      ∀ right, simplifiedJoin before right = right := fun empty right =>
    simplifiedJoin_of_left (shape_of_isEmptyBgp.1 empty) right
  revert before
  refine (plain_induct (motive := fun operation => operation.isPlain = true
      ∧ ∀ {before : Operation}, operation.isSafeAfter before = true →
        ∀ before' part, Writes before operation before' part → part.operator.Settles I before')
    ?bgp ?values ?filter ?extend ?join ?union ?leftJoin ?minus operation plain).2
  case bgp =>
    intro patterns metadata writable
    refine ⟨writable, fun _ before' part writes => ?_⟩
    cases writes
    trivial
  case values =>
    intro vars rows metadata writable
    refine ⟨writable, fun _ before' part writes => ?_⟩
    cases writes
    trivial
  case filter =>
    intro input condition metadata writable ih
    refine ⟨Bool.and_eq_true_iff.2 ⟨ih.1, writable⟩, fun safe before' part writes => ?_⟩
    cases writes with
    | here => trivial
    | filter inside => exact ih.2 safe before' part inside
  case extend =>
    intro input name value metadata writable ih
    refine ⟨Bool.and_eq_true_iff.2 ⟨ih.1, writable⟩, fun safe before' part writes => ?_⟩
    obtain ⟨first, inputSafe⟩ := Bool.and_eq_true_iff.1 safe
    cases writes with
    | here => rw [Operator.Settles, alone first, alone first]
    | extend inside => exact ih.2 inputSafe before' part inside
  case join =>
    intro inputs metadata ih
    refine ⟨allPlain_iff.2 fun input member => (ih input member).1,
      fun safe before' part writes => ?_⟩
    cases writes with
    | here => trivial
    | join inside =>
      exact (ih _ (List.mem_append_right _ (List.mem_cons_self ..))).2
        (isSafeAfter_of_allSafeAfter safe) before' part inside
  case union =>
    intro inputs metadata ih
    refine ⟨allPlain_iff.2 fun input member => (ih input member).1,
      fun safe before' part writes => ?_⟩
    obtain ⟨present, branchesSafe⟩ := Bool.and_eq_true_iff.1 safe
    cases writes with
    | here =>
      cases inputs with
      | nil => cases present
      | cons head rest => trivial
    | union member inside =>
      exact (ih _ member).2 (isSafe_of_allSafe branchesSafe _ member) before' part inside
  case leftJoin =>
    intro left right condition metadata writable ihLeft ihRight
    refine ⟨Bool.and_eq_true_iff.2 ⟨Bool.and_eq_true_iff.2 ⟨ihLeft.1, ihRight.1⟩, writable⟩,
      fun safe before' part writes => ?_⟩
    obtain ⟨⟨⟨first, leftSafe⟩, rightSafe⟩, noLoneFilter⟩ := by
      simpa only [isSafeAfter, Operator.isSafeAfter, Bool.and_eq_true] using safe
    cases writes with
    | here =>
      cases condition with
      | none =>
        have ofRight := solutions_of_undisturbed
          (undisturbed_of_settles ihRight.1 (ihRight.2 rightSafe))
        have shape : right.regrouped.shape ≠ .filter := by simpa using noLoneFilter
        rw [Operator.Settles, alone first, alone first, leftJoinOf_eq_of_shape shape,
          solutions_leftJoin, solutions_leftJoin, ofRight]
      | some condition => rw [Operator.Settles, alone first, alone first]
    | leftJoinLeft inside => exact ihLeft.2 leftSafe before' part inside
    | leftJoinRight inside => exact ihRight.2 rightSafe before' part inside
  case minus =>
    intro left right metadata ihLeft ihRight
    refine ⟨Bool.and_eq_true_iff.2 ⟨ihLeft.1, ihRight.1⟩, fun safe before' part writes => ?_⟩
    obtain ⟨⟨first, leftSafe⟩, rightSafe⟩ := by
      simpa only [isSafeAfter, Operator.isSafeAfter, Bool.and_eq_true] using safe
    cases writes with
    | here => rw [Operator.Settles, alone first, alone first]
    | minusLeft inside => exact ihLeft.2 leftSafe before' part inside
    | minusRight inside => exact ihRight.2 rightSafe before' part inside

/-- Every part of an operation settles in an interpretation. -/
def AllSettle (I : Interpretation) (operation : Operation) : Prop :=
  ∀ before part, Writes (.bgp []) operation before part → part.operator.Settles I before

/-- No part of an operation is disturbed in an interpretation. -/
def AllUndisturbed (I : Interpretation) (operation : Operation) : Prop :=
  ∀ before part, Writes (.bgp []) operation before part → Undisturbed I before part

theorem allUndisturbed_iff_allSettle {operation : Operation} (plain : operation.isPlain = true) :
    operation.AllUndisturbed I ↔ operation.AllSettle I := by
  constructor
  · intro undisturbed before part writes
    exact settles_of_undisturbed fun before' inner inside =>
      undisturbed before' inner (writes.trans inside)
  · intro settle before part writes
    exact undisturbed_of_settles (writes.isPlain plain) fun before' inner inside =>
      settle before' inner (writes.trans inside)

/-- A plain operation is lifted, unless it is too large, to a query whose pattern is read back with
the solutions of what the operation becomes in a group. These are the operation's own in every
interpretation if the operation is written without harm. In a given interpretation they are the
operation's own if all of its parts settle, and no part is disturbed exactly if all parts settle. -/
theorem lift_keeps_solutions {context : Context} (makesPlain : context.MakesPlain)
    {operation : Operation} (plain : operation.isPlain = true) :
    ∃ pattern lowered,
      operation.lift = (if operation.fitsLifting then .ok (.ofPattern pattern)
        else .error (.traversal (.stackOverflow Traversal.defaultLimit)))
      ∧ context.pattern pattern = pure lowered
      ∧ (∀ I, lowered.solutions I = operation.regrouped.solutions I)
      ∧ (operation.isSafeAfter (.bgp []) = true →
        ∀ I, lowered.solutions I = operation.solutions I)
      ∧ ∀ I, (operation.AllSettle I → lowered.solutions I = operation.solutions I)
        ∧ (operation.AllUndisturbed I ↔ operation.AllSettle I) := by
  obtain ⟨pattern, lifted, reads⟩ := lift_reads makesPlain plain
  have alike : (Piece.alone operation.pieces).Alike operation.regrouped :=
    alike_assemble plain (.refl _)
  have kept : ∀ I, operation.AllSettle I →
      (Piece.alone operation.pieces).solutions I = operation.solutions I := by
    intro I settle
    rw [alike.solutions]
    exact solutions_of_undisturbed (undisturbed_of_settles plain settle)
  exact ⟨pattern, _, lifted, reads, alike.solutions,
    fun safe I => kept I (settles_of_isSafeAfter plain safe),
    fun I => ⟨kept I, allUndisturbed_iff_allSettle plain⟩⟩

/-- The links of one predicate between two variables. -/
private def linksOf (subject predicate object : String) : Operation :=
  .bgp [⟨.var ⟨subject⟩, .iri ⟨predicate⟩, .var ⟨object⟩, .defaultGraph⟩]

/-- A left join as the second member of a join, sharing a variable with the first member. -/
def optionalInJoin : Operation :=
  .of (.combine .join [linksOf "x" "ex:p" "z",
    .of (.leftJoin (linksOf "x" "ex:q" "y") (linksOf "x" "ex:r" "z") none)])

/-- One link of each of three predicates. The first and the last lead to different nodes. -/
def threeLinks : Interpretation where
  quads :=
    {⟨.iri ⟨"ex:a"⟩, .iri ⟨"ex:p"⟩, .iri ⟨"ex:b"⟩, .defaultGraph⟩,
      ⟨.iri ⟨"ex:a"⟩, .iri ⟨"ex:q"⟩, .iri ⟨"ex:c"⟩, .defaultGraph⟩,
      ⟨.iri ⟨"ex:a"⟩, .iri ⟨"ex:r"⟩, .iri ⟨"ex:d"⟩, .defaultGraph⟩}
  holds := fun _ _ => false
  value := fun _ _ => none
  elsewhere := fun _ => 0

/-- The optional part comes to apply to both members of the join. -/
theorem lift_changes_optionalInJoin :
    optionalInJoin.isPlain = true ∧ ∃ pattern lowered,
      optionalInJoin.lift = .ok (.ofPattern pattern)
        ∧ (Context.ofOptions .plain {}).pattern pattern = pure lowered
        ∧ lowered.solutions threeLinks ≠ optionalInJoin.solutions threeLinks := by
  have fits : optionalInJoin.fitsLifting = true := by decide +kernel
  have makesPlain : (Context.ofOptions .plain {}).MakesPlain := rfl
  have plain : optionalInJoin.isPlain = true := by decide
  obtain ⟨pattern, lifted, reads⟩ := lift_reads makesPlain plain
  refine ⟨plain, pattern, _, ?_, reads, ?_⟩
  · rw [lifted, if_pos fits]
  · decide

theorem lift_keeps_solutions_optionalInJoin :
    optionalInJoin.isPlain = true
      ∧ (optionalInJoin.AllUndisturbed threeLinks ↔ optionalInJoin.AllSettle threeLinks) := by
  have makesPlain : (Context.ofOptions .plain {}).MakesPlain := rfl
  have plain : optionalInJoin.isPlain = true := by decide
  obtain ⟨_, _, -, -, -, -, settles⟩ := lift_keeps_solutions makesPlain plain
  exact ⟨plain, (settles threeLinks).2⟩

end Operation

end QueryAlgebra
