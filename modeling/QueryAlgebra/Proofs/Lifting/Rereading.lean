import QueryAlgebra.Proofs.Lifting.Pieces

/-! # Reading the elements that operations are written as

`Context.Writes` relates an element of a group to the piece that it is read as. A plain operation is
written as elements of its pieces, so each group of elements is read as what the pieces come to, and
the variables that the elements bind are those that the operation lists: `Context.rereads`.
-/

namespace QueryAlgebra

open Surface.Pattern (consMerged groupElements groupOf inScopeOfAll mergeTriples unionOf)

/-! ### The variables that are listed -/

mutual

/-- The variables that a star over the written operation stands for, as often as they are mentioned.
A removed part binds none. -/
def Operation.listed : Operation → List Variable
  | ⟨operator, _⟩ => operator.listed

/-- The variables that a star over the written operator with its inputs stands for. -/
def Operator.listed : Operator → List Variable
  | .bgp patterns => patterns.flatMap Pattern.listed
  | .values vars _ => vars
  | .filter input _ => input.listed
  | .extend input name _ => input.listed ++ [name]
  | .combine _ inputs => Operation.allListed inputs
  | .leftJoin left right _ => left.listed ++ right.listed
  | .minus left _ => left.listed
  | _ => []

/-- The variables of all operations. -/
def Operation.allListed : List Operation → List Variable
  | [] => []
  | operation :: rest => operation.listed ++ Operation.allListed rest

end

/-! ### Elements and pieces -/

/-- An element of a group is read as a piece. -/
inductive Context.Writes (context : Context) : Surface.Pattern → Piece → Prop
  | block {triples : List Surface.Triple} {span : Surface.Span} {patterns : List Pattern}
    (writable : patterns.all Pattern.isWritable = true)
    (written : Pattern.allWritten patterns = .ok triples) :
    Writes context (.bgp triples span) (.block patterns)
  | group {elements : List Surface.Pattern} {span : Surface.Span} {inside : Operation}
    {filters : List Expression}
    (reads : context.elements elements (.bgp []) [] = pure (inside, filters)) :
    Writes context (.group elements span) (.group inside filters)
  | values {data : Surface.InlineData} {span : Surface.Span} {operation : Operation}
    (reads : context.inlineData data = pure operation) :
    Writes context (.values data span) (.member operation)
  | union {left right : Surface.Pattern} {span : Surface.Span} {operation : Operation}
    (reads : context.pattern (.union left right span) = pure operation) :
    Writes context (.union left right span) (.member operation)
  | optional {body : Surface.Pattern} {span : Surface.Span} {right : Operation}
    (reads : context.pattern body = pure right) :
    Writes context (.optional body span) (.optional right)
  | removed {body : Surface.Pattern} {span : Surface.Span} {right : Operation}
    (reads : context.pattern body = pure right) :
    Writes context (.minus body span) (.removed right)
  | bound {value : Surface.Expression} {name : Variable} {span : Surface.Span}
    {read : Expression} (reads : context.expression value = pure read) :
    Writes context (.bind value name span) (.bound name read)

namespace Context

/-- Elements of a group are read as pieces. -/
abbrev AllWrite (context : Context) : List Surface.Pattern → List Piece → Prop :=
  List.Forall₂ context.Writes

variable {context : Context}

theorem Writes.reads (plain : context.MakesPlain) {element : Surface.Pattern} {piece : Piece}
    (writes : context.Writes element piece) (before : Operation) (filters : List Expression) :
    context.elements [element] before filters = pure (piece.apply before, filters) := by
  cases writes with
  | @block triples span patterns writable written =>
    obtain ⟨triples', written', reads⟩ := bgp_written plain writable
    obtain rfl : triples = triples' := by
      rw [written] at written'
      cases written'
      rfl
    have isMember : (Surface.Pattern.bgp triples span).isMember = true := rfl
    rw [elements_member context isMember, Context.pattern, reads, pure_bind, elements]
    rfl
  | @group inner span inside filters' reads =>
    have isMember : (Surface.Pattern.group inner span).isMember = true := rfl
    rw [elements_member context isMember, Context.pattern, reads, pure_bind, pure_bind, elements]
    rfl
  | @values data span operation reads =>
    have isMember : (Surface.Pattern.values data span).isMember = true := rfl
    rw [elements_member context isMember, Context.pattern, reads, pure_bind, elements]
    rfl
  | @union left right span operation reads =>
    have isMember : (Surface.Pattern.union left right span).isMember = true := rfl
    rw [elements_member context isMember, reads, pure_bind, elements]
    rfl
  | optional reads =>
    rw [elements, reads, pure_bind, elements]
    rfl
  | removed reads =>
    rw [elements, reads, pure_bind, elements]
    rfl
  | bound reads =>
    rw [elements, reads, pure_bind, elements, var_eq plain]
    rfl

theorem elements_of_allWrite (plain : context.MakesPlain) {elements : List Surface.Pattern}
    {pieces : List Piece} (all : context.AllWrite elements pieces) (before : Operation)
    (filters : List Expression) :
    context.elements elements before filters = pure (Piece.assemble before pieces, filters) := by
  induction all generalizing before with
  | nil => rw [Context.elements, Piece.assemble_nil]
  | @cons element piece rest pieces first _ ih =>
    rw [← List.singleton_append, elements_append, first.reads plain, pure_bind]
    exact ih (piece.apply before)

/-- A group of elements and a filter for each condition is read as the operation of the pieces with
the conditions applied. -/
theorem pattern_of_allWrite (plain : context.MakesPlain) {elements : List Surface.Pattern}
    {pieces : List Piece} (all : context.AllWrite elements pieces) (span : Surface.Span) :
    context.pattern (.group elements span) = pure (Piece.alone pieces) := by
  rw [Context.pattern, elements_of_allWrite plain all, pure_bind]
  rfl

theorem elements_filtered (plain : context.MakesPlain) {elements : List Surface.Pattern}
    {pieces : List Piece} (all : context.AllWrite elements pieces)
    {condition : Surface.Expression} {read : Expression}
    (reads : context.expression condition = pure read) (filterSpan : Surface.Span) :
    context.elements (elements ++ [.filter condition filterSpan]) (.bgp []) []
      = pure (Piece.alone pieces, [read]) := by
  rw [elements_append, elements_of_allWrite plain all, pure_bind]
  simp only [Context.elements, reads, pure_bind]
  rfl

/-- A group that stands alone in a group is read as it stands. -/
theorem pattern_group_group (inner : List Surface.Pattern) (innerSpan span : Surface.Span) :
    context.pattern (.group [.group inner innerSpan] span)
      = context.pattern (.group inner innerSpan) := by
  rw [Context.pattern]
  simp only [elements, Piece.simplifiedJoin_bgp_nil, bind_assoc, pure_bind]
  exact bind_pure _

theorem pattern_groupOf (elements : List Surface.Pattern) :
    context.pattern (groupOf elements) = context.pattern (.group elements .none) := by
  rw [groupOf]
  unfold groupElements
  split
  · rename_i inner span
    rw [pattern_group_group, Context.pattern, Context.pattern]
  · rfl

/-- The elements of a group without a group around a lone one are read as the opened pieces. -/
theorem elements_groupElements (plain : context.MakesPlain) {elements : List Surface.Pattern}
    {pieces : List Piece} (all : context.AllWrite elements pieces) :
    context.elements (groupElements elements) (.bgp []) [] = pure (Piece.opened pieces) := by
  unfold groupElements
  split
  · rename_i inner span
    rcases all with _ | ⟨_ | ⟨reads⟩, ⟨⟩⟩
    exact reads
  · rename_i notLone
    have opened : Piece.opened pieces = (Piece.alone pieces, []) := by
      unfold Piece.opened
      split
      · rcases all with _ | ⟨_ | _, ⟨⟩⟩
        exact absurd rfl (notLone _ _)
      · rfl
    rw [opened]
    exact elements_of_allWrite plain all _ _

/-! ### Writing triples together -/

private theorem allWrite_consMerged {element : Surface.Pattern} {piece : Piece}
    (first : context.Writes element piece) {elements : List Surface.Pattern} {pieces : List Piece}
    (others : context.AllWrite elements pieces) :
    context.AllWrite (consMerged element elements) (Piece.consMerged piece pieces) := by
  have whole := first
  cases first with
  | @block triples span patterns writable written =>
    cases others with
    | nil => exact .cons whole .nil
    | @cons next nextPiece tail tailPieces ofNext ofTail =>
      have wholeNext := ofNext
      cases ofNext with
      | @block more moreSpan patterns' writable' written' =>
        have bothWritable : (patterns ++ patterns').all Pattern.isWritable = true := by
          rw [List.all_append, writable, writable']
          rfl
        exact .cons (.block bothWritable (Pattern.allWritten_append written written')) ofTail
      | _ => exact .cons whole (.cons wholeNext ofTail)
  | _ => exact .cons whole others

/-- Elements whose adjacent triples are written together are read as pieces whose adjacent triples
are put together. -/
theorem allWrite_merged {elements : List Surface.Pattern} {pieces : List Piece}
    (all : context.AllWrite elements pieces) :
    context.AllWrite (mergeTriples elements) (Piece.mergeBlocks pieces) := by
  induction all with
  | nil => exact .nil
  | cons first _ ih => exact allWrite_consMerged first ih

theorem inScopeOfAll_append (first second : List Surface.Pattern) :
    inScopeOfAll (first ++ second) = inScopeOfAll first ++ inScopeOfAll second := by
  induction first with
  | nil => rfl
  | cons head rest ih => rw [List.cons_append, inScopeOfAll, inScopeOfAll, ih, List.append_assoc]

theorem inScopeOfAll_mergeTriples (elements : List Surface.Pattern) :
    inScopeOfAll (mergeTriples elements) = inScopeOfAll elements := by
  induction elements with
  | nil => rfl
  | cons element rest ih =>
    rw [mergeTriples, inScopeOfAll, ← ih]
    unfold consMerged
    split
    · rename_i same
      rw [same]
      simp [inScopeOfAll, Surface.Pattern.inScope]
    · rw [inScopeOfAll]

theorem inScope_groupOf (elements : List Surface.Pattern) :
    (groupOf elements).inScope = inScopeOfAll elements := by
  rw [groupOf, Surface.Pattern.inScope]
  unfold groupElements
  split
  · simp [inScopeOfAll, Surface.Pattern.inScope]
  · rfl

/-! ### Operations -/

/-- An operation is written as elements that are read as its pieces and bind what it lists. -/
def Rereads (context : Context) (operation : Operation) : Prop :=
  ∃ elements, operation.written false = pure (.elements elements)
    ∧ context.AllWrite elements operation.pieces ∧ inScopeOfAll elements = operation.listed

private theorem allElements_reads {operations : List Operation}
    (all : ∀ operation ∈ operations, context.Rereads operation) :
    ∃ parts, Operation.allElements operations = pure parts
      ∧ List.Forall₂ context.AllWrite parts (Operation.allPieces operations)
      ∧ inScopeOfAll parts.flatten = Operation.allListed operations := by
  induction operations with
  | nil => exact ⟨[], by rw [Operation.allElements], .nil, rfl⟩
  | cons head rest ih =>
    obtain ⟨elements, written, writes, scope⟩ := all head (List.mem_cons_self ..)
    obtain ⟨parts, writtenRest, writesRest, scopeRest⟩ :=
      ih fun operation member => all operation (List.mem_cons_of_mem _ member)
    refine ⟨elements :: parts, ?_, ?_, ?_⟩
    · rw [Operation.allElements, Collecting.asElements, written, writtenRest, pure_bind]
      rfl
    · rw [Operation.allPieces]
      exact .cons writes writesRest
    · rw [List.flatten_cons, inScopeOfAll_append, scope, scopeRest, Operation.allListed]

private theorem allWrite_flatten {parts : List (List Surface.Pattern)} {pieces : List (List Piece)}
    (all : List.Forall₂ context.AllWrite parts pieces) :
    context.AllWrite parts.flatten pieces.flatten := by
  induction all with
  | nil => exact .nil
  | cons first _ ih =>
    rw [List.flatten_cons, List.flatten_cons]
    exact List.rel_append first ih

/-- Groups nested as a union to the left are a union of two patterns, and it is read as the union of
the operations nested in the same way. -/
private theorem nested_reads (plain : context.MakesPlain) {parts : List (List Surface.Pattern)}
    {pieces : List (List Piece)} (all : List.Forall₂ context.AllWrite parts pieces)
    {left right : Surface.Pattern} {operation : Operation}
    (reads : context.pattern (.union left right .none) = pure operation) :
    ∃ first second,
      (parts.map groupOf).foldl (fun left right => .union left right .none)
          (.union left right .none) = Surface.Pattern.union first second .none
        ∧ context.pattern (.union first second .none) = pure ((pieces.map Piece.alone).foldl
          (fun left right => .union [left, right]) operation)
        ∧ (Surface.Pattern.union first second .none).inScope
          = left.inScope ++ right.inScope ++ inScopeOfAll parts.flatten := by
  induction all generalizing left right operation with
  | nil => exact ⟨left, right, rfl, reads, by simp [Surface.Pattern.inScope, inScopeOfAll]⟩
  | @cons elements piece parts pieces ofFirst _ ih =>
    have readGroup : context.pattern (groupOf elements) = pure (Piece.alone piece) := by
      rw [pattern_groupOf, pattern_of_allWrite plain ofFirst]
    have readUnion : context.pattern (.union (.union left right .none) (groupOf elements) .none)
        = pure (.union [operation, Piece.alone piece]) := by
      rw [Context.pattern, reads, readGroup]
      rfl
    obtain ⟨first, second, nested, read, scope⟩ := ih readUnion
    refine ⟨first, second, nested, read, ?_⟩
    rw [scope, inScope_groupOf, List.flatten_cons, inScopeOfAll_append, Surface.Pattern.inScope]
    simp only [List.append_assoc]

private theorem union_reads (plain : context.MakesPlain) {parts : List (List Surface.Pattern)}
    {pieces : List (List Piece)} (all : List.Forall₂ context.AllWrite parts pieces) :
    context.AllWrite (unionOf (parts.map groupOf)) (Piece.branches pieces)
      ∧ inScopeOfAll (unionOf (parts.map groupOf)) = inScopeOfAll parts.flatten := by
  match parts, pieces, all with
  | [], [], .nil => exact ⟨.nil, rfl⟩
  | [elements], [piece], .cons first .nil =>
    refine ⟨.cons (.group (elements_groupElements plain first)) .nil, ?_⟩
    simp [unionOf, inScopeOfAll, inScope_groupOf]
  | one :: two :: _, onePieces :: twoPieces :: _, .cons ofOne (.cons ofTwo others) =>
    have reads : context.pattern (.union (groupOf one) (groupOf two) .none)
        = pure (.union [Piece.alone onePieces, Piece.alone twoPieces]) := by
      rw [Context.pattern, pattern_groupOf, pattern_groupOf, pattern_of_allWrite plain ofOne,
        pattern_of_allWrite plain ofTwo]
      rfl
    obtain ⟨first, second, nested, read, scope⟩ := nested_reads plain others reads
    rw [List.map_cons, List.map_cons, unionOf, List.foldl_cons, nested]
    refine ⟨.cons (.union read) .nil, ?_⟩
    rw [inScopeOfAll, scope, inScope_groupOf, inScope_groupOf, inScopeOfAll]
    simp [inScopeOfAll_append]

private theorem asElements_pure {elements : List Surface.Pattern} :
    Collecting.asElements (pure (.elements elements)) = pure elements := rfl

/-- Every plain operation is written as elements that are read as its pieces. -/
theorem rereads (plain : context.MakesPlain) {operation : Operation}
    (isPlain : operation.isPlain = true) : context.Rereads operation := by
  refine Operation.plain_induct ?bgp ?values ?filter ?extend ?join ?union ?leftJoin ?minus
    operation isPlain
  case bgp =>
    intro patterns metadata writable
    cases patterns with
    | nil => exact ⟨[], by rw [Operation.written, Operator.written], .nil, rfl⟩
    | cons head rest =>
      obtain ⟨triples, written, _⟩ := bgp_written plain writable
      refine ⟨[.bgp triples .none], ?_, .cons (.block writable written) .nil, ?_⟩
      · rw [Operation.written, Operator.written, written]
        · rfl
        · simp
      · rw [inScopeOfAll, Surface.Pattern.inScope, Pattern.vars_allWritten written, inScopeOfAll,
          List.append_nil]
        rfl
  case values =>
    intro vars rows metadata writable
    obtain ⟨cells, written, reads⟩ := values_written plain writable
    refine ⟨[.values ⟨vars, cells⟩ .none], ?_, .cons (.values reads) .nil, ?_⟩
    · rw [Operation.written, Operator.written, written]
      rfl
    · simp [inScopeOfAll, Surface.Pattern.inScope, Operation.listed, Operator.listed]
  case filter =>
    intro input condition metadata writable ih
    obtain ⟨elements, written, writes, scope⟩ := ih
    obtain ⟨condition', writtenCondition, readCondition⟩ := expression_written plain writable
    refine ⟨[.group (elements ++ [.filter condition' .none]) .none], ?_,
      .cons (.group (elements_filtered plain writes readCondition .none)) .nil, ?_⟩
    · rw [Operation.written, Operator.written, written, asElements_pure, pure_bind,
        writtenCondition, pure_bind]
    · simp [inScopeOfAll, Surface.Pattern.inScope, inScopeOfAll_append, scope, Operation.listed,
        Operator.listed]
  case extend =>
    intro input name value metadata writable ih
    obtain ⟨elements, written, writes, scope⟩ := ih
    obtain ⟨value', writtenValue, readValue⟩ := expression_written plain writable
    refine ⟨elements ++ [.bind value' name .none], ?_,
      List.rel_append writes (.cons (.bound readValue) .nil), ?_⟩
    · rw [Operation.written, Operator.written, if_neg Bool.false_ne_true, written,
        asElements_pure, pure_bind, writtenValue, pure_bind]
    · rw [inScopeOfAll_append, scope]
      rfl
  case join =>
    intro inputs metadata ih
    obtain ⟨parts, written, writes, scope⟩ := allElements_reads ih
    refine ⟨mergeTriples parts.flatten, ?_, allWrite_merged (allWrite_flatten writes), ?_⟩
    · rw [Operation.written, Operator.written]
      simp only [written, pure_bind]
    · rw [inScopeOfAll_mergeTriples, scope]
      rfl
  case union =>
    intro inputs metadata ih
    obtain ⟨parts, written, writes, scope⟩ := allElements_reads ih
    obtain ⟨ofUnion, scopeUnion⟩ := union_reads plain writes
    refine ⟨unionOf (parts.map groupOf), ?_, ofUnion, ?_⟩
    · rw [Operation.written, Operator.written]
      simp only [written, pure_bind]
    · rw [scopeUnion, scope]
      rfl
  case leftJoin =>
    intro left right condition metadata writable ihLeft ihRight
    obtain ⟨elements, written, writes, scope⟩ := ihLeft
    obtain ⟨optional, writtenOptional, writesOptional, scopeOptional⟩ := ihRight
    cases condition with
    | none =>
      have readBody := pattern_of_allWrite plain writesOptional .none
      refine ⟨elements ++ [.optional (.group (optional ++ []) .none) .none], ?_,
        List.rel_append writes (.cons (.optional (List.append_nil optional ▸ readBody)) .nil), ?_⟩
      · rw [Operation.written, Operator.written, written, writtenOptional, asElements_pure,
          asElements_pure, pure_bind, pure_bind, Expression.optionalFilter, pure_bind]
      · simp [inScopeOfAll, Surface.Pattern.inScope, inScopeOfAll_append, scope, scopeOptional,
          Operation.listed, Operator.listed]
    | some condition =>
      obtain ⟨condition', writtenCondition, readCondition⟩ := expression_written plain writable
      have readBody : context.pattern
          (.group (optional ++ [.filter condition' .none]) .none)
            = pure (filtered (Piece.alone right.pieces) [condition]) := by
        rw [Context.pattern, elements_filtered plain writesOptional readCondition .none, pure_bind]
      refine ⟨elements ++ [.optional (.group (optional ++ [.filter condition' .none]) .none) .none],
        ?_, List.rel_append writes (.cons (.optional readBody) .nil), ?_⟩
      · rw [Operation.written, Operator.written, written, writtenOptional, asElements_pure,
          asElements_pure, pure_bind, pure_bind, Expression.optionalFilter, writtenCondition,
          pure_bind, pure_bind]
      · simp [inScopeOfAll, Surface.Pattern.inScope, inScopeOfAll_append, scope, scopeOptional,
          Operation.listed, Operator.listed]
  case minus =>
    intro left right metadata ihLeft ihRight
    obtain ⟨elements, written, writes, scope⟩ := ihLeft
    obtain ⟨removed, writtenRemoved, writesRemoved, _⟩ := ihRight
    have readBody : context.pattern (groupOf removed) = pure (Piece.alone right.pieces) := by
      rw [pattern_groupOf, pattern_of_allWrite plain writesRemoved]
    refine ⟨elements ++ [.minus (groupOf removed) .none], ?_,
      List.rel_append writes (.cons (.removed readBody) .nil), ?_⟩
    · rw [Operation.written, Operator.written, written, writtenRemoved, asElements_pure,
        asElements_pure, pure_bind, pure_bind]
    · simp [inScopeOfAll, Surface.Pattern.inScope, inScopeOfAll_append, scope, Operation.listed,
        Operator.listed]

end Context

end QueryAlgebra
