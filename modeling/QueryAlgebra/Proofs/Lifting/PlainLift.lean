import QueryAlgebra.Lifting.Request
import QueryAlgebra.Proofs.Lifting.Rereading
import QueryAlgebra.Proofs.Operation.WellFormedRebuild

/-! # Lifting plain operations

A plain operation names no graph that lifting would take out of it, so it is written as it stands:
as a query for all variables in scope of a pattern, unless it is too large for the traversal with
which lifting begins. `Operation.lift_reads` says what the pattern is read as.
-/

namespace QueryAlgebra

/-- Whether an operation is neither a path nor a graph block, and has only patterns that can be
written. -/
def Operation.isOrdinary : Operation → Bool
  | ⟨.bgp patterns, _⟩ => patterns.all Pattern.isWritable
  | ⟨.path .., _⟩ => false
  | ⟨.wrap (.graph _) _, _⟩ => false
  | _ => true

/-- A change that replaces no expression, pattern that can be written or ordinary operation. -/
structure Rebuild.Keeps (change : Rebuild) : Prop where
  expression : ∀ expression, change.expression expression = expression
  pattern : ∀ place pattern, pattern.isWritable = true → change.pattern place pattern = pattern
  operation : ∀ operation, operation.isOrdinary = true → change.operation operation = operation

mutual

theorem Expression.rebuild_writable {change : Rebuild} (keeps : change.Keeps)
    {expression : Expression} (writable : expression.isWritable = true) :
    expression.rebuild change = expression := by
  match expression, writable with
  | .term value, _ => rw [Expression.rebuild, keeps.expression]
  | .call (.operator name) arguments, writable =>
    obtain ⟨_, argumentsWritable⟩ := Bool.and_eq_true_iff.1 writable
    rw [Expression.rebuild, Expression.rebuildAll_writable keeps argumentsWritable,
      keeps.expression]
  | .call (.function name) arguments, writable =>
    obtain ⟨_, argumentsWritable⟩ := Bool.and_eq_true_iff.1 writable
    rw [Expression.rebuild, Expression.rebuildAll_writable keeps argumentsWritable,
      keeps.expression]
  | .aggregate name argument distinct separator, writable =>
    obtain ⟨_, argumentWritable⟩ := Bool.and_eq_true_iff.1 writable
    have same : argument.rebuild change = argument := by
      cases argument with
      | wildcard => rw [Expression.rebuild, keeps.expression]
      | _ => exact Expression.rebuild_writable keeps argumentWritable
    rw [Expression.rebuild, same, keeps.expression]

theorem Expression.rebuildAll_writable {change : Rebuild} (keeps : change.Keeps)
    {expressions : List Expression} (writable : Expression.allWritable expressions = true) :
    Expression.rebuildAll change expressions = expressions := by
  match expressions, writable with
  | [], _ => rw [Expression.rebuildAll]
  | first :: rest, writable =>
    obtain ⟨firstWritable, restWritable⟩ := Bool.and_eq_true_iff.1 writable
    rw [Expression.rebuildAll, Expression.rebuild_writable keeps firstWritable,
      Expression.rebuildAll_writable keeps restWritable]

end

namespace Operation

theorem rebuild_patterns {change : Rebuild} (keeps : change.Keeps) (place : Place)
    {patterns : List Pattern} (writable : patterns.all Pattern.isWritable = true) :
    patterns.map (change.pattern place) = patterns := by
  have same : patterns.map (change.pattern place) = patterns.map id :=
    List.map_congr_left fun pattern member =>
      keeps.pattern place pattern (List.all_eq_true.1 writable pattern member)
  rw [same, List.map_id]

/-- An ordinary operation stays as it is if its parts do. -/
theorem rebuild_ordinary {change : Rebuild} (keeps : change.Keeps) {operator : Operator}
    {metadata : Option Metadata}
    (ordinary : (⟨operator, metadata⟩ : Operation).isOrdinary = true)
    (same : operator.rebuild change = operator) :
    (⟨operator, metadata⟩ : Operation).rebuild change = ⟨operator, metadata⟩ := by
  rw [rebuild]
  split
  · rfl
  · rw [same, keeps.operation _ ordinary]

/-- A plain operation is rebuilt as it is. -/
theorem rebuild_plain {change : Rebuild} (keeps : change.Keeps) {operation : Operation}
    (plain : operation.isPlain = true) : operation.rebuild change = operation := by
  refine plain_induct (motive := fun operation => operation.rebuild change = operation)
    ?bgp ?values ?filter ?extend ?join ?union ?leftJoin ?minus operation plain
  case bgp =>
    intro patterns metadata writable
    refine rebuild_ordinary keeps writable ?_
    rw [Operator.rebuild, rebuild_patterns keeps .bgp writable]
  case values =>
    intro vars rows metadata _
    exact rebuild_ordinary keeps rfl (by rw [Operator.rebuild])
  case filter =>
    intro input condition metadata writable ih
    apply rebuild_ordinary keeps rfl
    rw [Operator.rebuild, ih, Expression.rebuild_writable keeps writable]
  case extend =>
    intro input name value metadata writable ih
    apply rebuild_ordinary keeps rfl
    rw [Operator.rebuild, ih, Expression.rebuild_writable keeps writable]
  case join =>
    intro inputs metadata ih
    apply rebuild_ordinary keeps rfl
    rw [Operator.rebuild, rebuildAll_eq ih]
  case union =>
    intro inputs metadata ih
    apply rebuild_ordinary keeps rfl
    rw [Operator.rebuild, rebuildAll_eq ih]
  case leftJoin =>
    intro left right condition metadata writable ihLeft ihRight
    apply rebuild_ordinary keeps rfl
    cases condition with
    | none => rw [Operator.rebuild, ihLeft, ihRight]
    | some condition =>
      rw [Operator.rebuild, ihLeft, ihRight, Expression.rebuild_writable keeps writable]
  case minus =>
    intro left right metadata ihLeft ihRight
    apply rebuild_ordinary keeps rfl
    rw [Operator.rebuild, ihLeft, ihRight]

/-- An operation that is rebuilt as it is by every change that keeps ordinary operations names no
graph that would have to be taken out of it. -/
theorem withoutEmbeddedGraphs_of_rebuild {operation : Operation}
    (same : ∀ change : Rebuild, change.Keeps → operation.rebuild change = operation) :
    operation.withoutEmbeddedGraphs = operation := by
  have cleared : operation.clearBlockGraphs = operation := by
    refine same _ ⟨fun _ => rfl, fun _ _ _ => rfl, fun other ordinary => ?_⟩
    obtain ⟨operator, metadata⟩ := other
    cases operator with
    | wrap wrapper input => cases wrapper <;> first | rfl | cases ordinary
    | _ => rfl
  rw [withoutEmbeddedGraphs, cleared]
  refine same _ ⟨fun _ => rfl, fun _ _ _ => rfl, fun other ordinary => ?_⟩
  obtain ⟨operator, metadata⟩ := other
  cases operator with
  | bgp patterns =>
    have all : patterns.all (·.graph.isDefaultGraph) = true :=
      List.all_eq_true.2 fun pattern member =>
        (Bool.and_eq_true_iff.1 (List.all_eq_true.1 ordinary pattern member)).2
    show (⟨Operator.splitByGraph patterns, metadata⟩ : Operation) = _
    rw [Operator.splitByGraph, if_pos all]
  | path subject predicate object graph => cases ordinary
  | _ => rfl

/-- Whether an operation fits on the stack of the traversal with which lifting begins. -/
def fitsLifting (operation : Operation) : Bool :=
  (Node.operation operation).fits Traversal.defaultLimit
    (fun kind => if kind = .deleteInsert then .leave else .descend) 1

end Operation

/-- The query for all variables in scope of a pattern. -/
def Surface.Request.ofPattern (pattern : Surface.Pattern) : Surface.Request :=
  ⟨.none, .query (.select ⟨.keep, .all, none, pattern, .none⟩)⟩

/-- An operation without graph names that is written as elements of a group is lifted to a query
for all variables of the group. -/
theorem Operation.lift_of_written {operation : Operation} {elements : List Surface.Pattern}
    (query : operation.operator.isUpdate = false)
    (without : operation.withoutEmbeddedGraphs = operation)
    (written : operation.written false = pure (.elements elements)) :
    operation.lift = (if operation.fitsLifting then
        .ok (.ofPattern (Surface.Pattern.groupOf elements))
      else .error (.traversal (.stackOverflow Traversal.defaultLimit))) := by
  have body : operation.writtenBody = .ok (.query (Lifted.toQuery (.elements elements))) := by
    rw [writtenBody, query, if_neg Bool.false_ne_true, written]
    rfl
  by_cases fits : operation.fitsLifting = true
  · have removed : operation.removeEmbeddedGraphs = .ok operation := by
      have within := fits
      rw [fitsLifting] at within
      rw [removeEmbeddedGraphs, Node.checkFits, if_pos within, without]
      rfl
    rw [lift, withoutGraphs, removed, if_pos fits]
    show (do
      let body ← operation.writtenBody
      pure (⟨.none, body⟩ : Surface.Request)) = _
    rw [body]
    rfl
  · have removed : operation.removeEmbeddedGraphs
        = .error (.stackOverflow Traversal.defaultLimit) := by
      have above := fits
      rw [fitsLifting] at above
      rw [removeEmbeddedGraphs, Node.checkFits, if_neg above]
      rfl
    rw [lift, withoutGraphs, removed, if_neg fits]
    rfl

/-- A plain operation is lifted to a query for all variables, whose pattern is read as what the
pieces of the operation come to. -/
theorem Operation.lift_reads {context : Context} (makesPlain : context.MakesPlain)
    {operation : Operation} (plain : operation.isPlain = true) :
    ∃ pattern,
      operation.lift = (if operation.fitsLifting then .ok (.ofPattern pattern)
        else .error (.traversal (.stackOverflow Traversal.defaultLimit)))
      ∧ context.pattern pattern = pure (Piece.alone operation.pieces) := by
  obtain ⟨elements, written, writes, _⟩ := Context.rereads makesPlain plain
  refine ⟨Surface.Pattern.groupOf elements, ?_, ?_⟩
  rotate_left
  · rw [Context.pattern_groupOf, Context.pattern_of_allWrite makesPlain writes]
  refine lift_of_written ?_ ?_ written
  · obtain ⟨operator, metadata⟩ := operation
    cases operator with
    | combine how inputs => cases how <;> first | rfl | cases plain
    | nop | manage | deleteInsert => cases plain
    | _ => rfl
  · exact withoutEmbeddedGraphs_of_rebuild fun change keeps => rebuild_plain keeps plain

end QueryAlgebra
