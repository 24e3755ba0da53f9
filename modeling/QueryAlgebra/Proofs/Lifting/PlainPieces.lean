import QueryAlgebra.Proofs.Lifting.Pieces

/-! # The pieces of plain operations

Plain operations have plain pieces, and plain pieces come to plain operations, whether or not the
filters of a lone group are applied.
-/

namespace QueryAlgebra

namespace Operation

private theorem isPlain_parts {how : Combination} {operation : Operation}
    (plain : operation.isPlain = true) (part : Operation) (member : part ∈ operation.parts how) :
    part.isPlain = true := by
  unfold parts at member
  split at member
  · rename_i kind inputs
    split at member
    · cases kind with
      | join | union => exact allPlain_iff.1 plain part member
      | updates => cases plain
    · rw [List.mem_singleton.1 member]
      exact plain
  · rw [List.mem_singleton.1 member]
    exact plain

private theorem allPlain_parts {how : Combination} {operations : List Operation}
    (plain : ∀ operation ∈ operations, operation.isPlain = true) :
    allPlain (operations.flatMap (parts how)) = true := by
  refine allPlain_iff.2 fun part member => ?_
  obtain ⟨operation, inside, ofParts⟩ := List.mem_flatMap.1 member
  exact isPlain_parts (plain operation inside) part ofParts

theorem isPlain_union {operations : List Operation}
    (plain : ∀ operation ∈ operations, operation.isPlain = true) :
    (union operations).isPlain = true :=
  allPlain_parts plain

theorem isPlain_simplifiedJoin {left right : Operation} (ofLeft : left.isPlain = true)
    (ofRight : right.isPlain = true) : (simplifiedJoin left right).isPlain = true := by
  unfold simplifiedJoin
  split
  · show (List.all _ _) = true
    rw [List.all_append, Bool.and_eq_true_iff]
    exact ⟨ofLeft, ofRight⟩
  · split
    · exact ofRight
    · split
      · exact ofLeft
      · refine allPlain_parts fun operation member => ?_
        rcases List.mem_pair.1 member with rfl | rfl
        · exact ofLeft
        · exact ofRight

theorem isPlain_leftJoinOf {left right : Operation} (ofLeft : left.isPlain = true)
    (ofRight : right.isPlain = true) : (leftJoinOf left right).isPlain = true := by
  unfold leftJoinOf
  split
  · obtain ⟨ofInput, ofCondition⟩ := Bool.and_eq_true_iff.1 ofRight
    exact Bool.and_eq_true_iff.2 ⟨Bool.and_eq_true_iff.2 ⟨ofLeft, ofInput⟩, ofCondition⟩
  · exact Bool.and_eq_true_iff.2 ⟨Bool.and_eq_true_iff.2 ⟨ofLeft, ofRight⟩, rfl⟩

private theorem isWritable_conjunction {first : Expression} {rest : List Expression}
    (ofFirst : first.isWritable = true)
    (ofRest : ∀ filter ∈ rest, filter.isWritable = true) :
    (rest.foldl (fun all next => Expression.operator "&&" [all, next]) first).isWritable
      = true := by
  induction rest generalizing first with
  | nil => exact ofFirst
  | cons next rest ih =>
    refine ih ?_ fun filter member => ofRest filter (List.mem_cons_of_mem _ member)
    have ofNext := ofRest next (List.mem_cons_self ..)
    have takes : operatorTakes "&&" 2 = true := by decide
    simp [Expression.operator, Expression.isWritable, Expression.allWritable, ofFirst, ofNext,
      takes]

theorem isPlain_filtered {operation : Operation} {filters : List Expression}
    (plain : operation.isPlain = true)
    (writable : ∀ filter ∈ filters, filter.isWritable = true) :
    (filtered operation filters).isPlain = true := by
  cases filters with
  | nil => exact plain
  | cons first rest =>
    exact Bool.and_eq_true_iff.2 ⟨plain, isWritable_conjunction
      (writable first (List.mem_cons_self ..))
      fun filter member => writable filter (List.mem_cons_of_mem _ member)⟩

end Operation

namespace Piece

/-- Whether a piece is made of plain operations and of patterns and expressions that can be
written. -/
def isPlain : Piece → Bool
  | .block patterns => patterns.all Pattern.isWritable
  | .group inside filters => inside.isPlain && filters.all Expression.isWritable
  | .member operation => operation.isPlain
  | .optional right => right.isPlain
  | .removed right => right.isPlain
  | .bound _ value => value.isWritable

theorem isPlain_apply {before : Operation} {piece : Piece} (ofBefore : before.isPlain = true)
    (plain : piece.isPlain = true) : (piece.apply before).isPlain = true := by
  cases piece with
  | block patterns => exact Operation.isPlain_simplifiedJoin ofBefore plain
  | group inside filters =>
    obtain ⟨ofInside, ofFilters⟩ := Bool.and_eq_true_iff.1 plain
    exact Operation.isPlain_simplifiedJoin ofBefore
      (Operation.isPlain_filtered ofInside (List.all_eq_true.1 ofFilters))
  | member operation => exact Operation.isPlain_simplifiedJoin ofBefore plain
  | optional right => exact Operation.isPlain_leftJoinOf ofBefore plain
  | removed right => exact Bool.and_eq_true_iff.2 ⟨ofBefore, plain⟩
  | bound name value => exact Bool.and_eq_true_iff.2 ⟨ofBefore, plain⟩

theorem isPlain_assemble {before : Operation} {pieces : List Piece}
    (ofBefore : before.isPlain = true) (plain : pieces.all isPlain = true) :
    (assemble before pieces).isPlain = true := by
  induction pieces generalizing before with
  | nil => exact ofBefore
  | cons piece rest ih =>
    obtain ⟨ofPiece, ofRest⟩ := Bool.and_eq_true_iff.1 plain
    exact ih (isPlain_apply ofBefore ofPiece) ofRest

theorem isPlain_alone {pieces : List Piece} (plain : pieces.all isPlain = true) :
    (alone pieces).isPlain = true :=
  isPlain_assemble rfl plain

theorem isPlain_opened {pieces : List Piece} (plain : pieces.all isPlain = true) :
    (opened pieces).1.isPlain = true
      ∧ ∀ filter ∈ (opened pieces).2, filter.isWritable = true := by
  unfold opened
  split
  · obtain ⟨ofInside, ofFilters⟩ := Bool.and_eq_true_iff.1 (Bool.and_eq_true_iff.1 plain).1
    exact ⟨ofInside, List.all_eq_true.1 ofFilters⟩
  · exact ⟨isPlain_alone plain, by simp⟩

private theorem isPlain_mergeBlocks {pieces : List Piece} (plain : pieces.all isPlain = true) :
    (mergeBlocks pieces).all isPlain = true := by
  induction pieces with
  | nil => rfl
  | cons piece rest ih =>
    obtain ⟨ofPiece, ofRest⟩ := Bool.and_eq_true_iff.1 plain
    have ofMerged := ih ofRest
    rw [mergeBlocks]
    unfold consMerged
    split
    · rename_i patterns more tail same
      rw [same] at ofMerged
      obtain ⟨ofMore, ofTail⟩ := Bool.and_eq_true_iff.1 ofMerged
      refine Bool.and_eq_true_iff.2 ⟨?_, ofTail⟩
      show (List.all _ _) = true
      rw [List.all_append, Bool.and_eq_true_iff]
      exact ⟨ofPiece, ofMore⟩
    · exact Bool.and_eq_true_iff.2 ⟨ofPiece, ofMerged⟩

private theorem isPlain_nested {left : Operation} {branches : List Operation}
    (ofLeft : left.isPlain = true) (plain : ∀ branch ∈ branches, branch.isPlain = true) :
    (branches.foldl (fun left right => Operation.union [left, right]) left).isPlain = true := by
  induction branches generalizing left with
  | nil => exact ofLeft
  | cons branch rest ih =>
    refine ih (Operation.isPlain_union fun operation member => ?_)
      fun other member => plain other (List.mem_cons_of_mem _ member)
    rcases List.mem_pair.1 member with rfl | rfl
    · exact ofLeft
    · exact plain operation (List.mem_cons_self ..)

private theorem isPlain_branches {groups : List (List Piece)}
    (plain : ∀ pieces ∈ groups, pieces.all isPlain = true) :
    (branches groups).all isPlain = true := by
  rcases groups with _ | ⟨first, _ | ⟨second, rest⟩⟩
  · rfl
  · obtain ⟨ofInside, ofFilters⟩ := isPlain_opened (plain first (List.mem_cons_self ..))
    have filters := List.all_eq_true.2 ofFilters
    simp [branches, isPlain, ofInside, filters]
  · have others : ∀ branch ∈ (second :: rest).map alone, branch.isPlain = true := by
      intro branch member
      obtain ⟨pieces, inside, rfl⟩ := List.mem_map.1 member
      exact isPlain_alone (plain pieces (List.mem_cons_of_mem _ inside))
    have nested := isPlain_nested (isPlain_alone (plain first (List.mem_cons_self ..))) others
    exact Bool.and_eq_true_iff.2 ⟨nested, rfl⟩

end Piece

namespace Operation

private theorem isPlain_allPieces {operations : List Operation}
    (all : ∀ operation ∈ operations, operation.pieces.all Piece.isPlain = true) :
    ∀ pieces ∈ allPieces operations, pieces.all Piece.isPlain = true := by
  induction operations with
  | nil => intro pieces member; cases member
  | cons head rest ih =>
    intro pieces member
    rw [allPieces] at member
    rcases List.mem_cons.1 member with rfl | inRest
    · exact all head (List.mem_cons_self ..)
    · exact ih (fun operation member => all operation (List.mem_cons_of_mem _ member)) pieces inRest

/-- The pieces of a plain operation are plain. -/
theorem isPlain_pieces {operation : Operation} (plain : operation.isPlain = true) :
    operation.pieces.all Piece.isPlain = true := by
  refine plain_induct (motive := fun operation => operation.pieces.all Piece.isPlain = true)
    ?bgp ?values ?filter ?extend ?join ?union ?leftJoin ?minus operation plain
  case bgp =>
    intro patterns metadata writable
    cases patterns with
    | nil => rfl
    | cons head rest => exact Bool.and_eq_true_iff.2 ⟨writable, rfl⟩
  case values =>
    intro vars rows metadata writable
    exact Bool.and_eq_true_iff.2 ⟨writable, rfl⟩
  case filter =>
    intro input condition metadata writable ih
    have inside := Piece.isPlain_alone ih
    simp [pieces, Operator.pieces, Piece.isPlain, inside, writable]
  case extend =>
    intro input name value metadata writable ih
    simp [pieces, Operator.pieces, Piece.isPlain, ih, writable]
  case join =>
    intro inputs metadata ih
    refine Piece.isPlain_mergeBlocks (List.all_eq_true.2 fun piece member => ?_)
    obtain ⟨pieces, inside, ofPieces⟩ := List.mem_flatten.1 member
    exact List.all_eq_true.1 (isPlain_allPieces ih pieces inside) piece ofPieces
  case union =>
    intro inputs metadata ih
    exact Piece.isPlain_branches (isPlain_allPieces ih)
  case leftJoin =>
    intro left right condition metadata writable ihLeft ihRight
    have ofRight : (filtered (Piece.alone right.pieces) condition.toList).isPlain = true := by
      refine isPlain_filtered (Piece.isPlain_alone ihRight) fun filter member => ?_
      rw [Option.mem_toList.1 member] at writable
      exact writable
    simp [pieces, Operator.pieces, Piece.isPlain, ihLeft, ofRight]
  case minus =>
    intro left right metadata ihLeft ihRight
    have ofRight := Piece.isPlain_alone ihRight
    simp [pieces, Operator.pieces, Piece.isPlain, ihLeft, ofRight]

end Operation

end QueryAlgebra
