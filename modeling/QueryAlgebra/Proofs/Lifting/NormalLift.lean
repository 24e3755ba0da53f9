import QueryAlgebra.Lowering.Request
import QueryAlgebra.Proofs.Lifting.GroupedSolutions
import QueryAlgebra.Proofs.Lifting.NormalRereading
import QueryAlgebra.Proofs.Lifting.PlainLift

/-! # Lifting normal forms

An operation in normal form names no graph that lifting would take out of it, and what it is written
as is read as the operation again: `Operation.reads_of_isNormal`. The query for all variables that
it is lifted to is lowered to the projection of the operation to the variables in scope.
-/

namespace QueryAlgebra

/-! ### Graph names -/

/-- A change that replaces no expression, pattern that can be written or operation in normal
form. -/
structure Rebuild.KeepsNormal (change : Rebuild) : Prop where
  expression : ∀ expression, change.expression expression = expression
  pattern : ∀ place pattern, pattern.isSpellable = true → change.pattern place pattern = pattern
  operation : ∀ operation, operation.isNormal = true → change.operation operation = operation

namespace Rebuild.KeepsNormal

variable {change : Rebuild}

private theorem rebuild_of (keeps : change.KeepsNormal) {operator : Operator}
    (normal : (Operation.of operator).isNormal = true)
    (same : operator.rebuild change = operator) :
    (Operation.of operator).rebuild change = .of operator := by
  rw [Operation.of, Operation.rebuild]
  split
  · rfl
  · rw [same]
    exact keeps.operation _ normal

/-- A normal form is rebuilt as it is. -/
theorem induction (keeps : change.KeepsNormal) :
    NormalInduction (fun operation => operation.rebuild change = operation)
      (fun expression => expression.rebuild change = expression) where
  bgp patterns normal := by
    have spellable : patterns.all Pattern.isSpellable = true := normal
    have same : patterns.map (change.pattern .bgp) = patterns.map id :=
      List.map_congr_left fun pattern member =>
        keeps.pattern .bgp pattern (List.all_eq_true.1 spellable pattern member)
    refine keeps.rebuild_of normal ?_
    rw [Operator.rebuild, same, List.map_id]
  values _ _ normal := keeps.rebuild_of normal (by rw [Operator.rebuild])
  path _ _ _ _ normal := keeps.rebuild_of normal (by rw [Operator.rebuild])
  graph _ _ normal input := keeps.rebuild_of normal (by rw [Operator.rebuild, input])
  service _ _ _ normal input := keeps.rebuild_of normal (by rw [Operator.rebuild, input])
  filter _ _ normal input condition :=
    keeps.rebuild_of normal (by rw [Operator.rebuild, input, condition])
  extend _ _ _ normal input value :=
    keeps.rebuild_of normal (by rw [Operator.rebuild, input, value])
  join _ normal inputs :=
    keeps.rebuild_of normal (by rw [Operator.rebuild, Operation.rebuildAll_eq inputs])
  union _ normal inputs :=
    keeps.rebuild_of normal (by rw [Operator.rebuild, Operation.rebuildAll_eq inputs])
  optional _ _ normal left right :=
    keeps.rebuild_of normal (by rw [Operator.rebuild, left, right])
  conditional _ _ _ normal left right condition :=
    keeps.rebuild_of normal (by rw [Operator.rebuild, left, right, condition])
  minus _ _ normal left right := keeps.rebuild_of normal (by rw [Operator.rebuild, left, right])
  term _ _ := by rw [Expression.rebuild, keeps.expression]
  call _ _ _ arguments := by
    rw [Expression.rebuild, Expression.rebuildAll_eq arguments, keeps.expression]
  existence _ _ _ input := by rw [Expression.rebuild, input, keeps.expression]

end Rebuild.KeepsNormal

namespace Operation

private theorem graph_of_isNormal {subject object graph : Term} {predicate : Path}
    {metadata : Option Metadata}
    (normal : (⟨.path subject predicate object graph, metadata⟩ : Operation).isNormal = true) :
    graph = .defaultGraph :=
  Term.eq_defaultGraph (Bool.and_eq_true_iff.1 (Bool.and_eq_true_iff.1 normal).2).2

private theorem clearGraph_of_isNormal (name : Term) {operation : Operation}
    (normal : operation.isNormal = true) : operation.clearGraph name = operation := by
  refine (Rebuild.KeepsNormal.induction ⟨fun _ => rfl, fun _ pattern spellable => ?_,
    fun other isNormal => ?_⟩).operation operation normal
  · have inDefault := Term.eq_defaultGraph (Bool.and_eq_true_iff.1 spellable).2
    obtain ⟨subject, predicate, object, graph⟩ := pattern
    obtain rfl : graph = .defaultGraph := inDefault
    exact ite_self _
  · obtain ⟨operator, metadata⟩ := other
    cases operator with
    | path subject predicate object graph =>
      obtain rfl := graph_of_isNormal isNormal
      show (⟨.path _ _ _ (if _ then _ else _), metadata⟩ : Operation) = _
      rw [ite_self]
    | _ => rfl

private theorem clearBlockGraphs_of_isNormal {operation : Operation}
    (normal : operation.isNormal = true) : operation.clearBlockGraphs = operation := by
  refine (Rebuild.KeepsNormal.induction ⟨fun _ => rfl, fun _ _ _ => rfl,
    fun other isNormal => ?_⟩).operation operation normal
  obtain ⟨operator, metadata⟩ := other
  cases operator with
  | wrap wrapper input =>
    cases wrapper with
    | graph name =>
      have ofInput : input.isNormal = true :=
        (Bool.and_eq_true_iff.1 (Bool.and_eq_true_iff.1 isNormal).2).2
      show (⟨.wrap (.graph name) (input.clearGraph name), metadata⟩ : Operation) = _
      rw [clearGraph_of_isNormal name ofInput]
    | _ => rfl
  | _ => rfl

private theorem wrapForeignGraphs_of_isNormal {operation : Operation}
    (normal : operation.isNormal = true) : operation.wrapForeignGraphs = operation := by
  refine (Rebuild.KeepsNormal.induction ⟨fun _ => rfl, fun _ _ _ => rfl,
    fun other isNormal => ?_⟩).operation operation normal
  obtain ⟨operator, metadata⟩ := other
  cases operator with
  | bgp patterns =>
    have spellable : patterns.all Pattern.isSpellable = true := (Bool.and_eq_true_iff.1 isNormal).2
    have all : patterns.all (·.graph.isDefaultGraph) = true :=
      List.all_eq_true.2 fun pattern member =>
        (Bool.and_eq_true_iff.1 (List.all_eq_true.1 spellable pattern member)).2
    show (⟨Operator.splitByGraph patterns, metadata⟩ : Operation) = _
    rw [Operator.splitByGraph, if_pos all]
  | path subject predicate object graph =>
    obtain rfl := graph_of_isNormal isNormal
    rfl
  | _ => rfl

/-- An operation in normal form names no graph that lifting would take out of it. -/
theorem withoutEmbeddedGraphs_of_isNormal {operation : Operation}
    (normal : operation.isNormal = true) : operation.withoutEmbeddedGraphs = operation := by
  rw [withoutEmbeddedGraphs, clearBlockGraphs_of_isNormal normal,
    wrapForeignGraphs_of_isNormal normal]

private theorem isUpdate_of_isNormal {operation : Operation} (normal : operation.isNormal = true) :
    operation.operator.isUpdate = false := by
  obtain ⟨operator, metadata⟩ := operation
  have ofOperator : operator.isNormal = true := (Bool.and_eq_true_iff.1 normal).2
  cases operator with
  | combine how inputs =>
    cases how with
    | updates => cases ofOperator
    | join | union => rfl
  | nop | manage | deleteInsert => cases ofOperator
  | _ => rfl

end Operation

/-- A query for all variables of a pattern is read as the projection of what the pattern is read
as. -/
theorem Surface.Request.lower_ofPattern {options : Options} (bare : options.blankToVariable = false)
    {pattern : Surface.Pattern} {operation : Operation}
    (reads : (Context.ofOptions .plain options).pattern pattern = pure operation) :
    (Surface.Request.ofPattern pattern).lower options
      = .ok (.of (.wrap (.project (Surface.starVariables (some pattern) none)) operation)) := by
  have plain : (Context.ofOptions .plain options).MakesPlain := rfl
  have shown : (Surface.starVariables (some pattern) none).map
      (Context.ofOptions .plain options).var = Surface.starVariables (some pattern) none :=
    (List.map_congr_left fun name _ => Context.var_eq plain name).trans (List.map_id _)
  have selects : (Context.ofOptions .plain options).select ⟨.keep, .all, none, pattern, .none⟩
      = pure (.of (.wrap (.project (Surface.starVariables (some pattern) none)) operation)) := by
    rw [Context.select, reads, pure_bind, ← shown]
    rfl
  have asks : (Context.ofOptions .plain options).request false (.ofPattern pattern)
      = pure (.of (.wrap (.project (Surface.starVariables (some pattern) none)) operation)) := by
    rw [Context.request]
    show (do
      let operation ← (Context.ofOptions .plain options).select ⟨.keep, .all, none, pattern, .none⟩
      if false then (Context.ofOptions .plain options).blanksToVariables operation
      else pure operation) = _
    rw [selects]
    rfl
  rw [lower, lowerWith, bare, asks]
  rfl

namespace Operation

/-- An operation in normal form is written as elements and not as a query that is one of them. -/
private theorem not_writes_query {operator : Operator} (normal : operator.isNormal = true)
    (asked : Surface.Query) : ¬ (operator.written false).Writes (.query asked) := by
  intro writes
  cases operator with
  | bgp patterns => cases patterns <;> simp [Operator.written, -bind_pure_comp] at writes
  | wrap wrapper input =>
    cases wrapper <;> first | cases normal | simp [Operator.written, -bind_pure_comp] at writes
  | combine how inputs =>
    cases how <;> first | cases normal | simp [Operator.written, -bind_pure_comp] at writes
  | path =>
    rw [Operator.written] at writes
    split at writes
    · simp [-bind_pure_comp] at writes
    · obtain ⟨_, failure⟩ := writes
      cases failure
  | nop | manage | group | orderBy | construct | deleteInsert => cases normal
  | _ => simp [Operator.written, -bind_pure_comp] at writes

private theorem written_of_isNormal {operation : Operation} (normal : operation.isNormal = true)
    {elements : List Surface.Pattern}
    (written : (operation.written false).asElements = pure elements) :
    operation.written false = pure (.elements elements) := by
  have collects : (operation.written false).asElements.Collects elements [] := by
    rw [written]
    rfl
  obtain ⟨lifted, ofOperation, isElements⟩ := Collecting.collects_asElements.1 collects
  cases lifted with
  | elements others =>
    cases isElements
    exact congrArg Collecting.mk ofOperation
  | query asked =>
    obtain ⟨operator, metadata⟩ := operation
    exact absurd ofOperation.writes
      (not_writes_query (Bool.and_eq_true_iff.1 normal).2 asked)

/-- An operation in normal form is written as elements of which the group is read, under a context
that makes terms as they are written and puts no graph names into patterns, as the operation itself;
no new name is taken for it. Lifted, unless it is too large, it becomes the query for all variables
of the group, and that query is lowered to the projection of the operation. -/
theorem reads_of_isNormal {operation : Operation} (normal : operation.isNormal = true) :
    ∃ elements,
      operation.written false = pure (.elements elements)
      ∧ (∀ context : Context, context.MakesPlain → context.quads = false →
        context.pattern (.group elements .none) = pure operation)
      ∧ operation.lift = (if operation.fitsLifting then
          .ok (.ofPattern (Surface.Pattern.groupOf elements))
        else .error (.traversal (.stackOverflow Traversal.defaultLimit)))
      ∧ ∀ options : Options, options.quads = false → options.blankToVariable = false →
        (Surface.Request.ofPattern (Surface.Pattern.groupOf elements)).lower options
          = .ok (.of (.wrap (.project (Surface.starVariables
            (some (Surface.Pattern.groupOf elements)) none)) operation)) := by
  have restores : ∀ context : Context, context.MakesPlain → context.quads = false →
      context.Restored True (fun _ => True) operation [] := fun context plain triples =>
    (Context.normalInduction plain triples).operation operation normal
  obtain ⟨elements, ofDefault⟩ := restores (.ofOptions .plain {}) rfl rfl
  have written := written_of_isNormal normal ofDefault.written
  -- What is written does not depend on the context that reads it.
  have inEvery : ∀ context : Context, context.MakesPlain → context.quads = false →
      context.Restores True (fun _ => True) operation elements [] := by
    intro context plain triples
    obtain ⟨elements', restored⟩ := restores context plain triples
    have same := ofDefault.written.symm.trans restored.written
    obtain rfl : elements = elements' := by
      injection same with same
      injection same with same
      injection same
    exact restored
  refine ⟨elements, written, fun context plain triples => ?_,
    lift_of_written (isUpdate_of_isNormal normal) (withoutEmbeddedGraphs_of_isNormal normal)
      written, fun options triples bare => ?_⟩
  · exact (inEvery context plain triples).read.eq_pure trivial
  · have plain : (Context.ofOptions .plain options).MakesPlain := rfl
    exact Surface.Request.lower_ofPattern bare ((inEvery _ plain triples).group.eq_pure trivial)

/-- The nodes that steps of two kinds lead to in a graph, with their links elsewhere, and a class
that they may be in unless the graph has something more on them. -/
def reachedNodes : Operation :=
  .of (.leftJoin
    (.of (.combine .join [
      Operation.graph
        (.of (.path (.var ⟨"x"⟩) (.oneOrMore (.alt [.link ⟨"ex:p"⟩, .link ⟨"ex:q"⟩])) (.var ⟨"y"⟩)
          .defaultGraph)) (.var ⟨"g"⟩),
      .bgp [⟨.var ⟨"y"⟩, .iri ⟨"ex:r"⟩, .blank ⟨"b"⟩, .defaultGraph⟩],
      .of (.combine .union [
        .of (.values [⟨"x"⟩] [.ofList [("x", .iri ⟨"ex:a"⟩)], .empty]),
        .of (.extend (.bgp []) ⟨"x"⟩ (.var ⟨"y"⟩))])]))
    (.of (.filter (.bgp [⟨.var ⟨"y"⟩, .iri ⟨"ex:in"⟩, .var ⟨"class"⟩, .defaultGraph⟩])
      (.operator "bound" [.var ⟨"x"⟩])))
    (some (.existence true
      (.graph (.bgp [⟨.var ⟨"y"⟩, .iri ⟨"ex:more"⟩, .var ⟨"z"⟩, .defaultGraph⟩]) (.var ⟨"g"⟩)))))

theorem reads_of_isNormal_reachedNodes :
    reachedNodes.isNormal = true ∧ reachedNodes.fitsLifting = true
      ∧ ∃ elements, reachedNodes.lift = .ok (.ofPattern (Surface.Pattern.groupOf elements))
        ∧ (Context.ofOptions .plain {}).pattern (.group elements .none) = pure reachedNodes := by
  have normal : reachedNodes.isNormal = true := by decide +kernel
  have fits : reachedNodes.fitsLifting = true := by decide +kernel
  have plain : (Context.ofOptions .plain {}).MakesPlain := rfl
  obtain ⟨elements, -, reads, lifted, -⟩ := reads_of_isNormal normal
  rw [if_pos fits] at lifted
  exact ⟨normal, fits, elements, lifted, reads _ plain rfl⟩

end Operation

end QueryAlgebra
