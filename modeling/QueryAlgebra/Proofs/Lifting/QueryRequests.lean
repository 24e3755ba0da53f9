import QueryAlgebra.Proofs.Lifting.QueryRereading
import QueryAlgebra.Proofs.Lowering.FreshNames

/-! # Requests of plain queries

A plain query that the traversals can hold is lifted to a request, and the request is lowered, under
all options, to the operation of `PlainQuery.reread`: `PlainQuery.lower_lift`. There are no blank
nodes to be turned into variables.
-/

namespace QueryAlgebra

/-! ### Blank nodes -/

namespace Term

private theorem replaceBlanks_name (replace : String → Term) {term : Term}
    (writable : term.isWritableName = true) : term.replaceBlanks replace = term := by
  cases term with
  | var | iri => rfl
  | _ => cases writable

theorem replaceBlanks_writable (replace : String → Term) {term : Term}
    (writable : term.isWritable = true) : term.replaceBlanks replace = term := by
  induction term with
  | quad subject predicate object graph ihSubject _ ihObject _ =>
    simp only [isWritable, Bool.and_eq_true] at writable
    obtain ⟨⟨⟨ofSubject, ofPredicate⟩, ofObject⟩, ofGraph⟩ := writable
    have inDefault : graph.replaceBlanks replace = graph := by
      cases graph <;> first | rfl | cases ofGraph
    show quad (subject.replaceBlanks replace) (predicate.replaceBlanks replace)
      (object.replaceBlanks replace) (graph.replaceBlanks replace) = _
    rw [ihSubject ofSubject, replaceBlanks_name replace ofPredicate, ihObject ofObject, inDefault]
  | iri | literal | var => rfl
  | _ => cases writable

end Term

/-- There are no blank nodes to replace in what can be written. -/
private theorem keeps_replaceBlanks (replace : String → Term) : Rebuild.Keeps
    { Rebuild.nothing with
      pattern := fun place pattern =>
        if place = .bgp then pattern.mapTerms (Term.replaceBlanks replace) else pattern
      operation := fun op => ⟨op.operator.replacePathBlanks replace, op.metadata⟩ } where
  expression _ := rfl
  pattern place pattern writable := by
    dsimp only
    split
    · obtain ⟨subject, predicate, object, graph⟩ := pattern
      simp only [Pattern.isWritable, Bool.and_eq_true] at writable
      obtain ⟨⟨⟨ofSubject, ofPredicate⟩, ofObject⟩, ofGraph⟩ := writable
      have inDefault : graph.replaceBlanks replace = graph := by
        cases graph <;> first | rfl | cases ofGraph
      rw [Pattern.mapTerms, Term.replaceBlanks_writable replace ofSubject,
        Term.replaceBlanks_name replace ofPredicate, Term.replaceBlanks_writable replace ofObject,
        inDefault]
    · rfl
  operation operation ordinary := by
    obtain ⟨operator, metadata⟩ := operation
    cases operator with
    | path => cases ordinary
    | _ => rfl

namespace PlainQuery

variable {query : PlainQuery}

theorem blanksToVariables_plain (context : Context) (plain : query.IsPlain)
    (fits : query.operation.fits = true) (supply : NameSupply) :
    ∃ after, context.blanksToVariables query.operation supply = .ok query.operation after := by
  obtain ⟨vars, _, after, labelled, -⟩ :=
    context.labelVariables_mints query.operation.labels supply
  have same : query.operation.replaceBlanks (Context.labelTerm vars) = query.operation :=
    rebuild_operation (keeps_replaceBlanks _) plain
  refine ⟨after, ?_⟩
  rw [Context.blanksToVariables, Node.checkFits_of_descend _ fits]
  show (context.labelVariables query.operation.labels >>= _) supply = _
  rw [Lowering.bind_ok labelled, same]
  rfl

/-! ### What the traversals can hold -/

private theorem fits_extend {bindings : Bindings} {core : Operation}
    (fits : (bindings.extend core).fits = true) (entry : Variable × Expression)
    (member : entry ∈ bindings) :
    (Node.expression entry.2).fits Traversal.defaultLimit (fun _ => .descend) 1 = true := by
  induction bindings using List.reverseRecOn with
  | nil => cases member
  | append_singleton before last ih =>
    have extended : Bindings.extend (before ++ [last]) core
        = .of (.extend (Bindings.extend before core) last.1 last.2) := List.foldl_concat ..
    rw [extended] at fits
    rcases List.mem_append.1 member with inBefore | isLast
    · exact ih (Node.fits_child fits (List.mem_cons_self ..)) inBefore
    · rw [List.mem_singleton.1 isLast]
      exact Node.fits_child fits (List.mem_cons_of_mem _ (List.mem_cons_self ..))

private theorem fits_ordered {order : List (Surface.Direction × Expression)} {operation : Operation}
    (fits : (ordered order operation).fits = true) :
    operation.fits = true ∧ ∀ key ∈ order,
      (Node.expression key.2).fits Traversal.defaultLimit (fun _ => .descend) 1 = true := by
  rw [ordered] at fits
  split at fits
  · rename_i empty
    rw [List.isEmpty_iff.1 empty]
    exact ⟨fits, fun key member => absurd member List.not_mem_nil⟩
  · refine ⟨Node.fits_child fits (List.mem_cons_self ..), fun key member => ?_⟩
    have ofKey := Node.fits_child fits (List.mem_cons_of_mem _ (List.mem_map_of_mem
      (List.mem_map_of_mem (f := fun key => Context.orderKey key.1 key.2) member)))
    obtain ⟨direction, value⟩ := key
    cases direction with
    | ascending => exact ofKey
    | descending => exact Node.fits_child ofKey (List.mem_cons_self ..)

theorem hasHeldClauses_of_fits (plain : query.IsPlain) (fits : query.operation.fits = true) :
    query.HasHeldClauses := by
  have ofCut : (cut query.slice (query.form.apply query.solutions)).fits = true := by
    rw [operation] at fits
    cases same : query.dataset with
    | none => rwa [same] at fits
    | some graphs =>
      rw [same] at fits
      exact Node.fits_child fits (List.mem_cons_self ..)
  have ofForm : (query.form.apply query.solutions).fits = true := by
    cases same : query.slice with
    | none => rwa [same] at ofCut
    | some slice =>
      rw [same] at ofCut
      exact Node.fits_child ofCut (List.mem_cons_self ..)
  have ofSolutions : query.solutions.fits = true := by
    cases same : query.form with
    | select duplicates vars =>
      rw [same] at ofForm
      cases duplicates with
      | keep => exact Node.fits_child ofForm (List.mem_cons_self ..)
      | distinct | reduced =>
        have projected := Node.fits_child ofForm (List.mem_cons_self ..)
        exact Node.fits_child projected (List.mem_cons_self ..)
    | ask | describe | construct =>
      rw [same] at ofForm
      exact Node.fits_child ofForm (List.mem_cons_self ..)
  obtain ⟨ofBody, ofKeys⟩ := fits_ordered ofSolutions
  refine ⟨fun entry member => ⟨plain.values entry member, fits_extend ofBody entry member⟩,
    fun key member => ⟨plain.keys key member, ofKeys key member⟩⟩

/-! ### The request -/

/-- The limit and the offset that a slice is written with. -/
def limits (slice : Option (Nat × Option Nat)) : Option Nat × Option Nat :=
  match slice with
  | none => (none, none)
  | some (start, length) => (length, if start = 0 then none else some start)

/-- The dataset that is written. -/
def graphs (dataset : Option (List NamedNode × List NamedNode)) : Option Surface.Dataset :=
  dataset.map fun graphs => .ofNodes graphs.1 graphs.2

theorem sliced_limits (slice : Option (Nat × Option Nat)) (operation : Operation) :
    Context.sliced (limits slice).1 (limits slice).2 operation
      = cut (slice.filter (· ≠ (0, none))) operation := by
  rcases slice with _ | ⟨start, length⟩
  · rfl
  · by_cases first : start = 0
    · subst first
      cases length <;> rfl
    · have kept : (some (start, length)).filter (· ≠ (0, none)) = some (start, length) := by
        simp [Option.filter, first]
      rw [kept, limits, if_neg first, Context.sliced, Option.isNone_some, Bool.and_false]
      rfl

private theorem namedNodes_written {context : Context} (makesPlain : context.MakesPlain)
    {nodes : List NamedNode} (writable : nodes.all NamedNode.isWritable = true) :
    context.namedNodes (nodes.map NamedNode.written) = .ok nodes := by
  induction nodes with
  | nil => rfl
  | cons node rest ih =>
    obtain ⟨ofNode, ofRest⟩ := Bool.and_eq_true_iff.1 writable
    rw [List.map_cons, Context.namedNodes, Context.namedNode_written makesPlain ofNode, ih ofRest]
    rfl

/-- A written dataset is read again if it is not empty. -/
theorem overDataset_graphs {context : Context} (makesPlain : context.MakesPlain)
    {dataset : Option (List NamedNode × List NamedNode)}
    (writable : ∀ graphs ∈ dataset, (graphs.1 ++ graphs.2).all NamedNode.isWritable = true)
    (nonempty : ∀ graphs ∈ dataset, graphs.1 ++ graphs.2 ≠ []) (operation : Operation) :
    context.overDataset (graphs dataset) operation = .ok (askedOf dataset operation) := by
  rcases dataset with _ | ⟨default, named⟩
  · rfl
  · have ofBoth := writable _ rfl
    rw [List.all_append, Bool.and_eq_true_iff] at ofBoth
    have given : (Surface.Dataset.ofNodes default named).isEmpty = false := by
      have some := nonempty _ rfl
      cases default with
      | cons => rfl
      | nil =>
        cases named with
        | cons => rfl
        | nil => exact absurd rfl some
    rw [graphs, Option.map_some, Context.overDataset, given, if_neg Bool.false_ne_true]
    show (do
      let default ← context.namedNodes (default.map NamedNode.written)
      let named ← context.namedNodes (named.map NamedNode.written)
      pure (Operation.of (.wrap (.dataset default named) operation))) = _
    rw [namedNodes_written makesPlain ofBoth.1, namedNodes_written makesPlain ofBoth.2]
    rfl

/-- A plain query is written as a query that is read as `reread` says. -/
theorem operation_written {context : Context} (makesPlain : context.MakesPlain)
    (plain : query.IsPlain) (base : query.core.isExtend = false) (held : query.HasHeldClauses) :
    ∃ asked, query.operation.written false = pure (.query asked)
      ∧ context.query asked = pure query.reread.operation := by
  obtain ⟨elements, extensions, keys, clauses⟩ := exists_clauses makesPlain plain base
  obtain ⟨asked, asks⟩ := exists_asks makesPlain clauses held plain.form
  refine ⟨asked (limits query.slice).1 (limits query.slice).2 (graphs query.dataset), ?_, ?_⟩
  · have ofCut : (cut query.slice (query.form.apply query.solutions)).written false
        = pure (.query (asked (limits query.slice).1 (limits query.slice).2 none)) := by
      rcases query.slice with _ | ⟨start, length⟩
      · exact asks.written
      · rw [cut, Operation.of, Operation.written, Operator.written, Collecting.asQuery,
          asks.written]
        show pure (Lifted.query (Surface.Query.mapModifiers (.sliced start length) _)) = _
        rw [asks.slice]
        rfl
    rw [operation]
    rcases query.dataset with _ | ⟨default, named⟩
    · exact ofCut
    · rw [askedOf, Operation.of, Operation.written, Operator.written, Collecting.asQuery, ofCut]
      show pure (Lifted.query (Surface.Query.withDataset (.ofNodes default named) _)) = _
      rw [asks.dataset]
      rfl
  · rw [asks.reads, overDataset_graphs makesPlain plain.graphs plain.nonempty, sliced_limits]
    rfl

theorem isUpdate_operation (query : PlainQuery) :
    query.operation.operator.isUpdate = false := by
  rw [operation]
  rcases query.dataset with _ | graphs
  · rcases query.slice with _ | slice
    · cases query.form with
      | select duplicates vars => cases duplicates <;> rfl
      | _ => rfl
    · rfl
  · rfl

/-- A plain query that the traversals can hold is written as a request, and the request is read as
`reread` says. -/
theorem lower_lift (options : Options) (plain : query.IsPlain)
    (base : query.core.isExtend = false) (fits : query.operation.fits = true)
    (fitsAgain : query.reread.operation.fits = true) :
    ∃ request, query.operation.lift = .ok request
      ∧ request.lower options = .ok query.reread.operation := by
  have makesPlain : (Context.ofOptions .plain options).MakesPlain := rfl
  obtain ⟨asked, written, read⟩ :=
    operation_written makesPlain plain base (hasHeldClauses_of_fits plain fits)
  refine ⟨⟨.none, .query asked⟩, ?_, ?_⟩
  · have removed : query.operation.removeEmbeddedGraphs = .ok query.operation := by
      rw [Operation.removeEmbeddedGraphs, Node.checkFits_of_descend _ fits,
        Operation.withoutEmbeddedGraphs_of_rebuild fun change keeps =>
          rebuild_operation keeps plain]
      rfl
    have body : query.operation.writtenBody = .ok (.query asked) := by
      rw [Operation.writtenBody, isUpdate_operation, if_neg Bool.false_ne_true, written]
      rfl
    rw [Operation.lift, Operation.withoutGraphs, removed]
    show (do
      let body ← query.operation.writtenBody
      pure (⟨.none, body⟩ : Surface.Request)) = _
    rw [body]
    rfl
  · have whole : (Context.ofOptions .plain options).request options.blankToVariable
        ⟨.none, .query asked⟩ = if options.blankToVariable
          then (Context.ofOptions .plain options).blanksToVariables query.reread.operation
          else pure query.reread.operation := by
      rw [Context.request]
      show (do
        let operation ← (Context.ofOptions .plain options).query asked
        if options.blankToVariable then
          (Context.ofOptions .plain options).blanksToVariables operation
        else pure operation) = _
      rw [read, pure_bind]
    rw [Surface.Request.lower, Surface.Request.lowerWith, whole]
    by_cases blanks : options.blankToVariable = true
    · obtain ⟨after, unchanged⟩ := blanksToVariables_plain (.ofOptions .plain options) plain.reread
        fitsAgain (.ofNames (Surface.Request.names ⟨.none, .query asked⟩))
      rw [if_pos blanks, unchanged]
    · rw [if_neg blanks]
      rfl

end PlainQuery

end QueryAlgebra
