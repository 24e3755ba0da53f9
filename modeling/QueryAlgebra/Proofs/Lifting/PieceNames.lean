import QueryAlgebra.Proofs.Lifting.Rereading
import QueryAlgebra.Proofs.Operation.Renaming

/-! # The names in pieces

Putting an operation together again from its pieces changes how the operation is nested, but not the
order in which its names are met: `Operation.localNames_alone`. Whatever a star lists is among these
names.
-/

namespace QueryAlgebra

/-- The names of an expression. -/
abbrev Expression.localNames (expression : Expression) : List LocalName :=
  expression.gather .ofLocalNames

/-- The names of a list of operations. -/
abbrev Operation.allLocalNames (operations : List Operation) : List LocalName :=
  Operation.gatherAll .ofLocalNames operations

/-! ### Names of operators -/

namespace Operation

variable {metadata : Option Metadata}

theorem localNames_bgp (patterns : List Pattern) :
    (⟨.bgp patterns, metadata⟩ : Operation).localNames
      = patterns.flatMap fun pattern => pattern.terms.flatMap Term.localNames :=
  List.append_nil _

theorem localNames_filter (input : Operation) (condition : Expression) :
    (⟨.filter input condition, metadata⟩ : Operation).localNames
      = input.localNames ++ condition.localNames :=
  List.append_nil _

theorem localNames_extend (input : Operation) (name : Variable) (value : Expression) :
    (⟨.extend input name value, metadata⟩ : Operation).localNames
      = input.localNames ++ value.localNames ++ [.var name.name] := rfl

theorem localNames_minus (left right : Operation) :
    (⟨.minus left right, metadata⟩ : Operation).localNames
      = left.localNames ++ right.localNames :=
  List.append_nil _

theorem localNames_leftJoin (left right : Operation) (condition : Option Expression) :
    (⟨.leftJoin left right condition, metadata⟩ : Operation).localNames
      = left.localNames ++ right.localNames ++ condition.toList.flatMap Expression.localNames := by
  cases condition with
  | none => rw [Option.toList_none, List.flatMap_nil]; rfl
  | some condition =>
    rw [Option.toList_some, List.flatMap_singleton]
    exact List.append_nil _

theorem allLocalNames_eq (operations : List Operation) :
    allLocalNames operations = operations.flatMap localNames := by
  induction operations with
  | nil => rfl
  | cons head rest ih =>
    rw [List.flatMap_cons, ← ih]
    rfl

theorem localNames_combine (how : Combination) (inputs : List Operation) :
    (⟨.combine how inputs, metadata⟩ : Operation).localNames = inputs.flatMap localNames := by
  rw [← allLocalNames_eq]
  exact List.append_nil _

/-- Keeping a combination flat keeps its names. -/
private theorem localNames_parts (how : Combination) (operation : Operation) :
    (operation.parts how).flatMap localNames = operation.localNames := by
  unfold parts
  split
  · split
    · rw [localNames_combine]
    · rw [List.flatMap_singleton]
  · rw [List.flatMap_singleton]

private theorem localNames_flat (how : Combination) (inputs : List Operation) :
    (of (.combine how (inputs.flatMap (parts how)))).localNames = inputs.flatMap localNames := by
  rw [of, localNames_combine, List.flatMap_assoc]
  simp only [localNames_parts]

theorem localNames_union (inputs : List Operation) :
    (union inputs).localNames = inputs.flatMap localNames :=
  localNames_flat .union inputs

private theorem localNames_of_isEmptyBgp {operation : Operation}
    (empty : operation.isEmptyBgp = true) : operation.localNames = [] := by
  unfold isEmptyBgp at empty
  split at empty
  · rfl
  · cases empty

theorem localNames_simplifiedJoin (left right : Operation) :
    (simplifiedJoin left right).localNames = left.localNames ++ right.localNames := by
  unfold simplifiedJoin
  split
  · rw [bgp, of, localNames_bgp, localNames_bgp, localNames_bgp, List.flatMap_append]
  · split
    · rename_i empty
      rw [localNames_of_isEmptyBgp empty, List.nil_append]
    · split
      · rename_i empty
        rw [localNames_of_isEmptyBgp empty, List.append_nil]
      · rw [join, localNames_flat]
        simp

private theorem localNames_conjunction (first : Expression) (rest : List Expression) :
    (rest.foldl (fun all next => Expression.operator "&&" [all, next]) first).localNames
      = first.localNames ++ rest.flatMap Expression.localNames := by
  induction rest generalizing first with
  | nil => simp
  | cons next rest ih =>
    have both : (Expression.operator "&&" [first, next]).localNames
        = first.localNames ++ next.localNames := by
      simp [Expression.localNames, Expression.operator, Expression.gather, Expression.gatherAll,
        Gather.ofLocalNames, Expression.ownTerms]
    rw [List.foldl_cons, ih, both, List.flatMap_cons, List.append_assoc]

theorem localNames_filtered (operation : Operation) (filters : List Expression) :
    (filtered operation filters).localNames
      = operation.localNames ++ filters.flatMap Expression.localNames := by
  cases filters with
  | nil => exact (List.append_nil _).symm
  | cons first rest =>
    show (of (.filter operation _)).localNames = _
    rw [of, localNames_filter, localNames_conjunction, List.flatMap_cons]

theorem localNames_leftJoinOf (left right : Operation) :
    (leftJoinOf left right).localNames = left.localNames ++ right.localNames := by
  unfold leftJoinOf
  split
  · rw [of, localNames_leftJoin, localNames_filter]
    simp
  · rw [of, localNames_leftJoin]
    simp

end Operation

/-! ### Names of pieces -/

namespace Piece

/-- The names in a piece. -/
def localNames : Piece → List LocalName
  | .block patterns => (Operation.bgp patterns).localNames
  | .group inside filters => inside.localNames ++ filters.flatMap Expression.localNames
  | .member operation => operation.localNames
  | .optional right => right.localNames
  | .removed right => right.localNames
  | .bound name value => value.localNames ++ [.var name.name]

theorem localNames_apply (before : Operation) (piece : Piece) :
    (piece.apply before).localNames = before.localNames ++ piece.localNames := by
  cases piece with
  | block patterns => exact Operation.localNames_simplifiedJoin ..
  | group inside filters =>
    rw [apply, Operation.localNames_simplifiedJoin, Operation.localNames_filtered]
    rfl
  | member operation => exact Operation.localNames_simplifiedJoin ..
  | optional right => exact Operation.localNames_leftJoinOf ..
  | removed right => exact Operation.localNames_minus ..
  | bound name value =>
    rw [apply, Operation.of, Operation.localNames_extend, List.append_assoc]
    rfl

theorem localNames_assemble (before : Operation) (pieces : List Piece) :
    (assemble before pieces).localNames = before.localNames ++ pieces.flatMap localNames := by
  induction pieces generalizing before with
  | nil => exact (List.append_nil _).symm
  | cons piece rest ih =>
    rw [assemble_cons, ih, localNames_apply, List.flatMap_cons, List.append_assoc]

theorem localNames_alone (pieces : List Piece) :
    (alone pieces).localNames = pieces.flatMap localNames := by
  rw [alone, localNames_assemble]
  rfl

private theorem localNames_consMerged (piece : Piece) (pieces : List Piece) :
    (consMerged piece pieces).flatMap localNames
      = piece.localNames ++ pieces.flatMap localNames := by
  unfold consMerged
  split
  · simp only [List.flatMap_cons, localNames, Operation.bgp, Operation.of, Operation.localNames_bgp,
      List.flatMap_append, List.append_assoc]
  · rw [List.flatMap_cons]

private theorem localNames_mergeBlocks (pieces : List Piece) :
    (mergeBlocks pieces).flatMap localNames = pieces.flatMap localNames := by
  induction pieces with
  | nil => rfl
  | cons piece rest ih => rw [mergeBlocks, localNames_consMerged, ih, List.flatMap_cons]

private theorem localNames_nested (left : Operation) (branches : List Operation) :
    (branches.foldl (fun left right => Operation.union [left, right]) left).localNames
      = left.localNames ++ branches.flatMap Operation.localNames := by
  induction branches generalizing left with
  | nil => exact (List.append_nil _).symm
  | cons branch rest ih =>
    rw [List.foldl_cons, ih, Operation.localNames_union]
    simp

private theorem localNames_branches (groups : List (List Piece)) :
    (branches groups).flatMap localNames = groups.flatten.flatMap localNames := by
  rcases groups with _ | ⟨first, _ | ⟨second, rest⟩⟩
  · rfl
  · rw [branches, List.flatMap_singleton, List.flatten_singleton, localNames,
      ← Operation.localNames_filtered, filtered_opened, localNames_alone]
  · rw [branches, List.flatMap_singleton, localNames, localNames_nested, List.flatten_cons,
      List.flatMap_append, localNames_alone]
    congr 1
    induction second :: rest with
    | nil => rfl
    | cons head rest ih =>
      rw [List.map_cons, List.flatMap_cons, ih, List.flatten_cons, List.flatMap_append,
        localNames_alone]
    simp

end Piece

namespace Operation

private theorem localNames_allPieces {operations : List Operation}
    (all : ∀ operation ∈ operations,
      operation.pieces.flatMap Piece.localNames = operation.localNames) :
    (allPieces operations).flatten.flatMap Piece.localNames = operations.flatMap localNames := by
  induction operations with
  | nil => rfl
  | cons head rest ih =>
    rw [allPieces, List.flatten_cons, List.flatMap_append, all head (List.mem_cons_self ..),
      ih fun operation member => all operation (List.mem_cons_of_mem _ member), List.flatMap_cons]

/-- The pieces of a plain operation have its names in the same order. -/
theorem localNames_pieces {operation : Operation} (plain : operation.isPlain = true) :
    operation.pieces.flatMap Piece.localNames = operation.localNames := by
  refine plain_induct (motive := fun operation =>
    operation.pieces.flatMap Piece.localNames = operation.localNames)
    ?bgp ?values ?filter ?extend ?join ?union ?leftJoin ?minus operation plain
  case bgp =>
    intro patterns metadata _
    cases patterns with
    | nil => rfl
    | cons head rest => exact List.append_nil _
  case values =>
    intro vars rows metadata _
    exact List.append_nil _
  case filter =>
    intro input condition metadata _ ih
    rw [localNames_filter, ← ih, ← Piece.localNames_alone input.pieces]
    simp [pieces, Operator.pieces, Piece.localNames]
  case extend =>
    intro input name value metadata _ ih
    rw [localNames_extend, ← ih]
    simp [pieces, Operator.pieces, Piece.localNames]
  case join =>
    intro inputs metadata ih
    rw [localNames_combine, ← localNames_allPieces ih]
    exact Piece.localNames_mergeBlocks _
  case union =>
    intro inputs metadata ih
    rw [localNames_combine, ← localNames_allPieces ih]
    exact Piece.localNames_branches _
  case leftJoin =>
    intro left right condition metadata _ ihLeft ihRight
    rw [localNames_leftJoin, ← ihLeft, ← ihRight, ← Piece.localNames_alone right.pieces]
    simp [pieces, Operator.pieces, Piece.localNames, localNames_filtered]
  case minus =>
    intro left right metadata ihLeft ihRight
    rw [localNames_minus, ← ihLeft, ← ihRight, ← Piece.localNames_alone right.pieces]
    simp [pieces, Operator.pieces, Piece.localNames]

/-- An operation that is put together again from its pieces has its names in the same order. -/
theorem localNames_alone {operation : Operation} (plain : operation.isPlain = true) :
    (Piece.alone operation.pieces).localNames = operation.localNames := by
  rw [Piece.localNames_alone, localNames_pieces plain]

/-! ### Names that a star lists -/

private theorem mem_localNames_of_vars {term : Term} {name : Variable} (member : name ∈ term.vars) :
    .var name.name ∈ term.localNames := by
  obtain ⟨inner, inside, same⟩ := List.mem_filterMap.1 member
  refine List.mem_filterMap.2 ⟨inner, inside, ?_⟩
  cases inner with
  | var other => rw [Option.some.inj same]
  | _ => cases same

private theorem mem_localNames_of_listed {pattern : Pattern} {name : Variable}
    (member : name ∈ pattern.listed) :
    .var name.name ∈ pattern.terms.flatMap Term.localNames := by
  rw [Pattern.listed, List.mem_append, List.mem_append] at member
  simp only [Pattern.terms, List.flatMap_cons, List.mem_append]
  rcases member with (ofSubject | ofPredicate) | ofObject
  · exact .inl (mem_localNames_of_vars ofSubject)
  · exact .inr (.inl (mem_localNames_of_vars ofPredicate))
  · exact .inr (.inr (.inl (mem_localNames_of_vars ofObject)))

/-- A star lists names of the operation. -/
theorem mem_localNames {operation : Operation} (plain : operation.isPlain = true)
    {name : Variable} : name ∈ operation.listed → .var name.name ∈ operation.localNames := by
  have all : ∀ {operations : List Operation},
      (∀ operation ∈ operations, name ∈ operation.listed → .var name.name ∈ operation.localNames) →
      name ∈ allListed operations → .var name.name ∈ operations.flatMap localNames := by
    intro operations each member
    induction operations with
    | nil => cases member
    | cons head rest ih =>
      rw [allListed, List.mem_append] at member
      rw [List.flatMap_cons, List.mem_append]
      exact member.imp (each head (List.mem_cons_self ..))
        (ih fun operation inRest => each operation (List.mem_cons_of_mem _ inRest))
  refine plain_induct (motive := fun operation =>
    name ∈ operation.listed → .var name.name ∈ operation.localNames)
    ?bgp ?values ?filter ?extend ?join ?union ?leftJoin ?minus operation plain
  case bgp =>
    intro patterns metadata _ member
    obtain ⟨pattern, inside, listed⟩ := List.mem_flatMap.1 member
    rw [localNames_bgp]
    exact List.mem_flatMap.2 ⟨pattern, inside, mem_localNames_of_listed listed⟩
  case values =>
    intro vars rows metadata _ member
    refine List.mem_flatMap.2 ⟨.var name, List.mem_append_left _ ?_, List.mem_cons_self ..⟩
    exact List.mem_map_of_mem member
  case filter =>
    intro input condition metadata _ ih member
    rw [localNames_filter]
    exact List.mem_append_left _ (ih member)
  case extend =>
    intro input bound value metadata _ ih member
    rw [listed, Operator.listed, List.mem_append, List.mem_singleton] at member
    rw [localNames_extend]
    rcases member with inInput | rfl
    · exact List.mem_append_left _ (List.mem_append_left _ (ih inInput))
    · exact List.mem_append_right _ (List.mem_cons_self ..)
  case join =>
    intro inputs metadata ih member
    rw [localNames_combine]
    exact all ih member
  case union =>
    intro inputs metadata ih member
    rw [localNames_combine]
    exact all ih member
  case leftJoin =>
    intro left right condition metadata _ ihLeft ihRight member
    rw [listed, Operator.listed, List.mem_append] at member
    rw [localNames_leftJoin, List.mem_append, List.mem_append]
    exact .inl (member.imp ihLeft ihRight)
  case minus =>
    intro left right metadata ihLeft _ member
    rw [localNames_minus]
    exact List.mem_append_left _ (ihLeft member)

end Operation

end QueryAlgebra
