import QueryAlgebra.Proofs.Lifting.Regrouping

/-! # The pieces that an operation is written as

A plain operation is written as the elements of a group, and each element makes one step from the
operation of the elements before it. `Operation.pieces` lists the steps without the elements, with
adjacent triples together as they are written, and `Piece.assemble` carries them out. What they come
to is, up to the joins and unions that are kept flat on the way, what the operation becomes in a
group: `Operation.alike_assemble`.
-/

namespace QueryAlgebra

/-- A step that an element of a group makes. -/
inductive Piece where
  | block (patterns : List Pattern)
  | group (inside : Operation) (filters : List Expression)
  | member (operation : Operation)
  | optional (right : Operation)
  | removed (right : Operation)
  | bound (name : Variable) (value : Expression)

namespace Piece

/-- What a piece makes of the operation of what comes before it. -/
def apply (before : Operation) : Piece → Operation
  | .block patterns => simplifiedJoin before (.bgp patterns)
  | .group inside filters => simplifiedJoin before (filtered inside filters)
  | .member operation => simplifiedJoin before operation
  | .optional right => leftJoinOf before right
  | .removed right => .of (.minus before right)
  | .bound name value => .of (.extend before name value)

/-- What pieces make, one after another, of what comes before them. -/
def assemble (before : Operation) (pieces : List Piece) : Operation := pieces.foldl apply before

/-- The operation of pieces in a group of their own. -/
def alone (pieces : List Piece) : Operation := assemble (.bgp []) pieces

/-- The operation of pieces in a group of their own before its filters are applied. A group is not
written again around a lone one. -/
def opened : List Piece → Operation × List Expression
  | [.group inside filters] => (inside, filters)
  | pieces => (alone pieces, [])

/-- Put a piece before others, triples together with triples. -/
def consMerged : Piece → List Piece → List Piece
  | .block patterns, .block more :: rest => .block (patterns ++ more) :: rest
  | piece, rest => piece :: rest

/-- Adjacent triples together. -/
def mergeBlocks : List Piece → List Piece
  | [] => []
  | piece :: rest => consMerged piece (mergeBlocks rest)

/-- The union of branches, nested to the left; one branch is a group. -/
def branches : List (List Piece) → List Piece
  | [] => []
  | [pieces] => [.group (opened pieces).1 (opened pieces).2]
  | first :: rest =>
    [.member ((rest.map alone).foldl (fun left right => .union [left, right]) (alone first))]

end Piece

mutual

/-- The pieces that an operation is written as. -/
def Operation.pieces : Operation → List Piece
  | ⟨operator, _⟩ => operator.pieces

/-- The pieces that an operator with its inputs is written as. -/
def Operator.pieces : Operator → List Piece
  | .bgp [] => []
  | .bgp patterns => [.block patterns]
  | .values vars rows => [.member (.of (.values vars rows))]
  | .filter input condition => [.group (Piece.alone input.pieces) [condition]]
  | .extend input name value => input.pieces ++ [.bound name value]
  | .combine .join inputs => Piece.mergeBlocks (Operation.allPieces inputs).flatten
  | .combine .union inputs => Piece.branches (Operation.allPieces inputs)
  | .leftJoin left right condition =>
    left.pieces ++ [.optional (filtered (Piece.alone right.pieces) condition.toList)]
  | .minus left right => left.pieces ++ [.removed (Piece.alone right.pieces)]
  | _ => []

/-- The pieces of each operation. -/
def Operation.allPieces : List Operation → List (List Piece)
  | [] => []
  | operation :: rest => operation.pieces :: Operation.allPieces rest

end

namespace Piece

theorem simplifiedJoin_bgp_nil (operation : Operation) :
    simplifiedJoin (.bgp []) operation = operation :=
  Operation.simplifiedJoin_of_left rfl operation

@[simp] theorem assemble_nil (before : Operation) : assemble before [] = before := rfl

@[simp] theorem assemble_cons (before : Operation) (piece : Piece) (pieces : List Piece) :
    assemble before (piece :: pieces) = assemble (piece.apply before) pieces := rfl

theorem assemble_append (before : Operation) (first second : List Piece) :
    assemble before (first ++ second) = assemble (assemble before first) second :=
  List.foldl_append

theorem assemble_concat (before : Operation) (pieces : List Piece) (piece : Piece) :
    assemble before (pieces ++ [piece]) = piece.apply (assemble before pieces) := by
  rw [assemble_append]
  rfl

/-- Applying the filters of pieces gives the operation of their group. -/
theorem filtered_opened (pieces : List Piece) :
    filtered (opened pieces).1 (opened pieces).2 = alone pieces := by
  unfold opened
  split
  · rw [alone, assemble_cons, assemble_nil, apply, simplifiedJoin_bgp_nil]
  · rfl

end Piece

/-! ### What the pieces of an operation come to -/

namespace Operation

variable {before before' : Operation}

private theorem alike_filtered {first second : Operation}
    (solutions : ∀ I, first.solutions I = second.solutions I) (condition : Expression) :
    (filtered first [condition]).Alike (of (.filter second condition)) :=
  .filter solutions condition

theorem alike_apply (alike : before.Alike before') (piece : Piece) :
    (piece.apply before).Alike (piece.apply before') := by
  cases piece with
  | block | group | member => exact alike.simplifiedJoin (.refl _)
  | optional right => exact .leftJoinOf alike.solutions (.refl right)
  | removed right =>
    refine .of_other (fun I => ?_) rfl rfl
    rw [Piece.apply, Piece.apply, solutions_minus, solutions_minus, alike.solutions]
  | bound name value =>
    refine .of_other (fun I => ?_) rfl rfl
    rw [Piece.apply, Piece.apply, solutions_extend, solutions_extend, alike.solutions]

theorem alike_assemble_congr (alike : before.Alike before') (pieces : List Piece) :
    (Piece.assemble before pieces).Alike (Piece.assemble before' pieces) := by
  induction pieces generalizing before before' with
  | nil => exact alike
  | cons piece rest ih => exact ih (alike_apply alike piece)

/-- Pieces whose adjacent triples are put together come to the same. -/
private theorem alike_mergeBlocks (pieces : List Piece) (before : Operation) :
    (Piece.assemble before (Piece.mergeBlocks pieces)).Alike (Piece.assemble before pieces) := by
  induction pieces generalizing before with
  | nil => exact .refl before
  | cons piece rest ih =>
    rw [Piece.mergeBlocks]
    unfold Piece.consMerged
    split
    · rename_i patterns more tail same
      have together := Alike.merged before patterns more
      refine (alike_assemble_congr together tail).trans ?_
      have others := ih ((Piece.block patterns).apply before)
      rw [same] at others
      exact others
    · exact ih _

private theorem alike_flatten {operations : List Operation}
    (all : ∀ operation ∈ operations, ∀ {before before' : Operation}, before.Alike before' →
      (Piece.assemble before operation.pieces).Alike (operation.regroupedAfter before'))
    (alike : before.Alike before') :
    (Piece.assemble before (allPieces operations).flatten).Alike
      (allRegroupedAfter operations before') := by
  induction operations generalizing before before' with
  | nil =>
    rw [allPieces, allRegroupedAfter]
    exact alike
  | cons head rest ih =>
    rw [allPieces, List.flatten_cons, Piece.assemble_append, allRegroupedAfter]
    exact ih (fun operation member => all operation (List.mem_cons_of_mem _ member))
      (all head (List.mem_cons_self ..) alike)

private theorem alikes_alone {operations : List Operation}
    (all : ∀ operation ∈ operations, ∀ {before before' : Operation}, before.Alike before' →
      (Piece.assemble before operation.pieces).Alike (operation.regroupedAfter before')) :
    List.Forall₂ Alike ((allPieces operations).map Piece.alone) (allRegrouped operations) := by
  induction operations with
  | nil =>
    rw [allPieces, allRegrouped]
    exact .nil
  | cons head rest ih =>
    rw [allPieces, allRegrouped]
    exact .cons (all head (List.mem_cons_self ..) (.refl _))
      (ih fun operation member => all operation (List.mem_cons_of_mem _ member))

private theorem allSolutions_congr (I : Interpretation) {first second : List Operation}
    (alikes : List.Forall₂ Alike first second) :
    allSolutions I first = allSolutions I second := by
  induction alikes with
  | nil => rfl
  | cons head _ ih => rw [allSolutions_cons, allSolutions_cons, head.solutions, ih]

/-- A union that is nested to the left has the solutions of all branches. -/
private theorem solutions_nested (I : Interpretation) (left : Operation)
    (branches : List Operation) :
    (branches.foldl (fun left right => .union [left, right]) left).solutions I
      = left.solutions I + (allSolutions I branches).sum := by
  induction branches generalizing left with
  | nil => simp
  | cons branch rest ih =>
    rw [List.foldl_cons, ih, solutions_union]
    simp [add_assoc]

private theorem shape_nested (left right : Operation) (branches : List Operation) :
    (branches.foldl (fun left right => .union [left, right])
      (Operation.union [left, right])).shape = .other := by
  induction branches generalizing left right with
  | nil => rfl
  | cons branch rest ih => exact ih _ branch

private theorem alike_branches {groups : List (List Piece)} {regrouped : List Operation}
    (alikes : List.Forall₂ Alike (groups.map Piece.alone) regrouped)
    (alike : before.Alike before') :
    (Piece.assemble before (Piece.branches groups)).Alike (joinedBranches before' regrouped) := by
  rcases groups with _ | ⟨first, _ | ⟨second, rest⟩⟩
  · cases alikes
    exact alike
  · rcases alikes with _ | ⟨one, ⟨⟩⟩
    apply alike.simplifiedJoin
    rw [Piece.filtered_opened]
    exact one
  · rcases alikes with _ | ⟨one, _ | ⟨two, others⟩⟩
    refine alike.simplifiedJoin (.of_other (fun I => ?_) (shape_nested ..) rfl)
    rw [solutions_nested, solutions_union, List.map_cons, allSolutions_cons, allSolutions_cons,
      allSolutions_cons, one.solutions, two.solutions, allSolutions_congr I others]
    simp

private theorem alike_simplifiedJoin_empty (alike : before.Alike before') {empty : Operation}
    (shape : empty.shape = .empty) : before.Alike (simplifiedJoin before' empty) := by
  by_cases same : before'.shape = .empty
  · rw [simplifiedJoin_of_left same]
    refine ⟨fun I => ?_, alike.shape.trans (same.trans shape.symm), ?_⟩
    · rw [alike.solutions, solutions_of_isEmptyBgp I (shape_of_isEmptyBgp.2 same),
        solutions_of_isEmptyBgp I (shape_of_isEmptyBgp.2 shape)]
    · rintro input condition rfl
      rw [← alike.shape] at same
      cases same
  · rw [simplifiedJoin_of_right same shape]
    exact alike

/-- The pieces of a plain operation come to what the operation becomes in a group. -/
theorem alike_assemble {operation : Operation} (plain : operation.isPlain = true)
    (alike : before.Alike before') :
    (Piece.assemble before operation.pieces).Alike (operation.regroupedAfter before') := by
  revert before before'
  refine plain_induct (motive := fun operation => ∀ {before before' : Operation},
    before.Alike before' →
      (Piece.assemble before operation.pieces).Alike (operation.regroupedAfter before'))
    ?bgp ?values ?filter ?extend ?join ?union ?leftJoin ?minus operation plain
  case bgp =>
    intro patterns metadata _ before before' alike
    cases patterns with
    | nil => exact alike_simplifiedJoin_empty alike rfl
    | cons head rest => exact alike.simplifiedJoin (.refl _)
  case values =>
    intro vars rows metadata _ before before' alike
    exact alike.simplifiedJoin (.refl _)
  case filter =>
    intro input condition metadata _ ih before before' alike
    exact alike.simplifiedJoin (alike_filtered (ih (.refl _)).solutions condition)
  case extend =>
    intro input name value metadata _ ih before before' alike
    rw [pieces, Operator.pieces, Piece.assemble_concat]
    refine .of_other (fun I => ?_) rfl rfl
    rw [Piece.apply, regroupedAfter, Operator.regroupedAfter, solutions_extend, solutions_extend,
      (ih alike).solutions]
  case join =>
    intro inputs metadata ih before before' alike
    rw [pieces, Operator.pieces, regroupedAfter, Operator.regroupedAfter]
    exact (alike_mergeBlocks _ before).trans (alike_flatten ih alike)
  case union =>
    intro inputs metadata ih before before' alike
    rw [pieces, Operator.pieces, regroupedAfter, Operator.regroupedAfter]
    exact alike_branches (alikes_alone ih) alike
  case leftJoin =>
    intro left right condition metadata _ ihLeft ihRight before before' alike
    rw [pieces, Operator.pieces, Piece.assemble_concat]
    have ofRight := ihRight (.refl (bgp []))
    cases condition with
    | none => exact .leftJoinOf (ihLeft alike).solutions ofRight
    | some condition =>
      exact .leftJoinOf (ihLeft alike).solutions (.filter ofRight.solutions condition)
  case minus =>
    intro left right metadata ihLeft ihRight before before' alike
    rw [pieces, Operator.pieces, Piece.assemble_concat]
    refine .of_other (fun I => ?_) rfl rfl
    have ofRight := (ihRight (.refl (bgp []))).solutions I
    rw [Piece.apply, regroupedAfter, Operator.regroupedAfter, solutions_minus, solutions_minus,
      (ihLeft alike).solutions, Piece.alone, ofRight]

end Operation

end QueryAlgebra
