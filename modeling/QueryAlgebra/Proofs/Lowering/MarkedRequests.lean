import QueryAlgebra.Lowering.Request
import QueryAlgebra.Proofs.Lowering.ExpandedRequests
import QueryAlgebra.Proofs.Lowering.MarkedPatterns

/-! # Requests under marked names

A factory that puts marks before names makes of a request what the plain one makes of it, under
marks, and fails where the plain one fails: `Request.lowerWith_marked`. Declarations do not depend
on the factory, and the names in use are those of the request as it is written, so the same new
names are taken from the supply.
-/

namespace QueryAlgebra

namespace Context

variable {context : Context} {marks : NameMarks}

/-! ### Queries -/

private theorem resources_marked (plain : context.MakesPlain)
    (resources : List Surface.VarOrIri) :
    (context.marked marks).resources resources
      = List.map (Term.marked marks) <$> context.resources resources := by
  induction resources with
  | nil => rfl
  | cons resource rest ih =>
    simp only [Context.resources, varOrIri_marked plain, ih, map_bind, bind_map_left, map_pure,
      List.map_cons]

theorem described_marked (plain : context.MakesPlain) (query : Surface.Describe) :
    (context.marked marks).described query
      = List.map (Term.marked marks) <$> context.described query := by
  obtain ⟨target, dataset, pattern, modifiers⟩ := query
  cases target with
  | resources resources => exact resources_marked plain resources
  | all =>
    simp only [described, map_pure, List.map_map]
    refine congrArg pure (List.map_congr_left fun name _ => ?_)
    exact congrArg Term.var (var_marked plain name)

/-- The solutions of a query that selects nothing. -/
private theorem bareSolutions_marked (plain : context.MakesPlain) (modifiers : Surface.Modifiers)
    (input : Operation) :
    (context.marked marks).solutions [] [] (input.marked marks) modifiers
      = Operation.marked marks <$> context.solutions [] [] input modifiers :=
  solutions_marked plain modifiers [] [] input

theorem query_marked (plain : context.MakesPlain) (query : Surface.Query) :
    (context.marked marks).query query = Operation.marked marks <$> context.query query := by
  cases query with
  | select query => exact select_marked plain query
  | construct query =>
    simp only [Context.query, construct, pattern_marked plain, bareSolutions_marked plain,
      defaultGraph_marked plain, template_marked plain, ← Operator.marked_construct,
      ← Operation.marked_of, ← marked_sliced, overDataset_marked plain, Lowering.lift_map,
      map_bind, bind_map_left]
  | ask query =>
    have ofAsk : ∀ operation : Operation,
        Operator.wrap .ask (operation.marked marks)
          = (Operator.wrap .ask operation).marked marks := fun _ => rfl
    simp only [Context.query, ask, pattern_marked plain, bareSolutions_marked plain, ofAsk,
      ← Operation.marked_of, ← marked_sliced, overDataset_marked plain, Lowering.lift_map,
      map_bind, bind_map_left]
  | describe query =>
    have ofDescribe : ∀ (terms : List Term) (operation : Operation),
        Operator.wrap (.describe (terms.map (Term.marked marks))) (operation.marked marks)
          = (Operator.wrap (.describe terms) operation).marked marks := fun _ _ => rfl
    have ofEmpty : (context.marked marks).solutions [] [] (.bgp []) query.modifiers
        = Operation.marked marks <$> context.solutions [] [] (.bgp []) query.modifiers :=
      bareSolutions_marked plain query.modifiers (.bgp [])
    cases asked : query.pattern <;>
      simp only [Context.query, describe, asked, pattern_marked plain, bareSolutions_marked plain,
        ofEmpty, described_marked plain, ofDescribe, ← Operation.marked_of, ← marked_sliced,
        overDataset_marked plain, Lowering.lift_map, map_bind, bind_map_left, pure_bind]

/-! ### Updates -/

theorem requireQuads_marked (span : Surface.Span) :
    (context.marked marks).requireQuads span = context.requireQuads span := rfl

theorem quadPatterns_marked (plain : context.MakesPlain) (graph : Term)
    (blocks : List Surface.QuadBlock) :
    (context.marked marks).quadPatterns (graph.marked marks) blocks
      = List.map (Pattern.marked marks) <$> context.quadPatterns graph blocks := by
  induction blocks with
  | nil => rfl
  | cons block rest ih =>
    obtain ⟨name, triples⟩ := block
    cases name <;>
      simp only [quadPatterns, varOrIri_marked plain, template_marked plain, ih,
        Lowering.lift_map, map_bind, bind_map_left, map_pure, pure_bind, List.map_append]

private theorem nonEmpty?_marked (patterns : List Pattern) :
    nonEmpty? (patterns.map (Pattern.marked marks))
      = (nonEmpty? patterns).map (·.map (Pattern.marked marks)) := by
  rw [nonEmpty?, nonEmpty?, List.isEmpty_map]
  split <;> rfl

private theorem optionalNode_marked (plain : context.MakesPlain) (iri : Option Surface.Iri) :
    (context.marked marks).optionalNode iri = context.optionalNode iri := by
  cases iri with
  | none => rfl
  | some iri => simp only [optionalNode, namedNode_marked plain]

private theorem clearTarget_marked (plain : context.MakesPlain) (target : Surface.ClearTarget) :
    (context.marked marks).clearTarget target = context.clearTarget target := by
  cases target with
  | graph iri => simp only [clearTarget, namedNode_marked plain]
  | default | named | all => rfl

private theorem graphOrDefault_marked (plain : context.MakesPlain)
    (graph : Surface.GraphOrDefault) :
    (context.marked marks).graphOrDefault graph = context.graphOrDefault graph := by
  cases graph with
  | graph iri => simp only [graphOrDefault, namedNode_marked plain]
  | default => rfl

private theorem scopeOf_marked (plain : context.MakesPlain) (dataset : Option Surface.Dataset)
    (graph : Option Term) (operation : Operation) :
    (context.marked marks).scopeOf dataset (graph.map (Term.marked marks))
        (operation.marked marks)
      = Operation.marked marks <$> context.scopeOf dataset graph operation := by
  unfold scopeOf
  cases dataset.filter (!·.isEmpty) with
  | some chosen =>
    simp only [overDataset_marked plain, Lowering.lift_map]
  | none =>
    cases graph with
    | none => rfl
    | some graph => exact embedGraph_marked plain graph operation

theorem modify_marked (plain : context.MakesPlain) (update : Surface.Modify) :
    (context.marked marks).modify update = Operation.marked marks <$> context.modify update := by
  have ofGraph : ∀ node : Option NamedNode,
      (node.map Term.iri).getD (context.marked marks).factory.defaultGraph
        = ((node.map Term.iri).getD context.factory.defaultGraph).marked marks := by
    intro node
    cases node with
    | none => exact defaultGraph_marked plain
    | some node => rfl
  have ofScope : ∀ (node : Option NamedNode) (operation : Operation),
      (context.marked marks).scopeOf update.dataset (node.map Term.iri) (operation.marked marks)
        = Operation.marked marks
          <$> context.scopeOf update.dataset (node.map Term.iri) operation := by
    intro node operation
    rw [← scopeOf_marked plain, Option.map_map]
    rfl
  simp only [modify, requireQuads_marked, optionalNode_marked plain, ofGraph,
    quadPatterns_marked plain, pattern_marked plain, ofScope, nonEmpty?_marked,
    Operation.marked_of, Operator.marked_deleteInsert, Option.map_none, Option.map_some,
    Lowering.map_ite, map_bind, bind_map_left, map_pure, pure_bind]

theorem update_marked (plain : context.MakesPlain) (update : Surface.Update) :
    (context.marked marks).update update = Operation.marked marks <$> context.update update := by
  cases update with
  | insertData quads span | deleteData quads span =>
    simp only [update, requireQuads_marked, defaultGraph_marked plain, quadPatterns_marked plain,
      nonEmpty?_marked, Operation.marked_of, Operator.marked_deleteInsert, Option.map_none,
      map_bind, bind_map_left, map_pure]
  | deleteWhere quads span =>
    simp only [update, requireQuads_marked, defaultGraph_marked plain, quadPatterns_marked plain,
      nonEmpty?_marked, Operation.bgp, Operation.marked_of, Operator.marked_bgp,
      Operator.marked_deleteInsert, Option.map_none, Option.map_some, map_bind, bind_map_left,
      map_pure]
  | modify change => exact modify_marked plain change
  | load =>
    simp only [update, namedNode_marked plain, optionalNode_marked plain, map_bind, map_pure]
    rfl
  | clear | drop =>
    simp only [update, clearTarget_marked plain, map_bind, map_pure]
    rfl
  | create =>
    simp only [update, namedNode_marked plain, map_bind, map_pure]
    rfl
  | transfer =>
    simp only [update, graphOrDefault_marked plain, map_bind, map_pure]
    rfl

/-! ### Requests -/

/-- Declarations do not depend on the factory. -/
theorem declare_marked (prologue : Surface.Prologue) :
    (context.marked marks).declare prologue = marked marks <$> context.declare prologue := by
  have ofPrefixes : ∀ (declarations : List Surface.PrefixDeclaration) (context : Context),
      declarations.foldlM declarePrefix (context.marked marks)
        = marked marks <$> declarations.foldlM declarePrefix context := by
    intro declarations
    induction declarations with
    | nil => exact fun _ => rfl
    | cons declaration rest ih =>
      intro context
      simp only [List.foldlM_cons, declarePrefix, map_bind, bind_assoc, pure_bind, ← ih]
      rfl
  obtain ⟨base, prefixes⟩ := prologue
  cases base with
  | none => exact ofPrefixes prefixes context
  | some declaration =>
    simp only [declare, map_bind, pure_bind, ← ofPrefixes]
    rfl

/-- Declarations keep the factory. -/
theorem MakesPlain.declare {declared : Context} {prologue : Surface.Prologue}
    (plain : context.MakesPlain) (success : context.declare prologue = .ok declared) :
    declared.MakesPlain :=
  (congrArg Context.factory (bare_of_declare success)).trans plain

/-- What goes on under marks after declarations goes on under marks from before them. -/
private theorem bind_declare_marked {α β : Type} (plain : context.MakesPlain) (mark : α → β)
    (prologue : Surface.Prologue) {next : Context → Lowering β} {next' : Context → Lowering α}
    (goesOn : ∀ declared : Context, declared.MakesPlain →
      next (declared.marked marks) = mark <$> next' declared) :
    ((context.marked marks).declare prologue : Lowering Context) >>= next
      = mark <$> ((context.declare prologue : Lowering Context) >>= next') := by
  rw [declare_marked, Lowering.lift_map, bind_map_left, map_bind]
  cases declared : context.declare prologue with
  | error error => rfl
  | ok after => exact goesOn after (plain.declare declared)

theorem updates_marked (units : List Surface.UpdateUnit) : ∀ {context : Context},
    context.MakesPlain → (context.marked marks).updates units
      = List.map (Operation.marked marks) <$> context.updates units := by
  induction units with
  | nil => exact fun _ => rfl
  | cons unit rest ih =>
    intro context plain
    rw [updates, updates]
    refine bind_declare_marked plain _ unit.prologue fun declared plain' => ?_
    simp only [update_marked plain', ih plain', map_bind, bind_map_left, map_pure, List.map_cons]

private theorem marked_updateSequence (operations : List Operation) :
    (updateSequence operations).marked marks
      = updateSequence (operations.map (Operation.marked marks)) := by
  match operations with
  | [] | [_] => rfl
  | first :: second :: rest =>
    exact congrArg Operation.of (Operator.marked_combine .updates (first :: second :: rest))

theorem body_marked (plain : context.MakesPlain) (body : Surface.Body) :
    (context.marked marks).body body = Operation.marked marks <$> context.body body := by
  cases body with
  | query asked => exact query_marked plain asked
  | update units =>
    simp only [Context.body, updates_marked units plain, map_bind, bind_map_left, map_pure,
      marked_updateSequence]

theorem request_marked (plain : context.MakesPlain) (request : Surface.Request) :
    (context.marked marks).request false request
      = Operation.marked marks <$> context.request false request := by
  rw [Context.request, Context.request]
  refine bind_declare_marked plain _ request.prologue fun declared plain' => ?_
  simp only [body_marked plain', Bool.false_eq_true, if_false, bind_pure]

end Context

namespace Surface.Request

/-- Lowering commutes with marks before names. With a factory that puts marks before the names of
variables and the labels of blank nodes, a request has the operation that it has with the plain
one, under marks: those that are written and those that are new, whether or not graph names go into
patterns. Where the plain factory fails, the marked one fails with the same error. -/
theorem lowerWith_marked (marks : NameMarks) {options : Options}
    (keepsBlanks : options.blankToVariable = false) (request : Surface.Request) :
    request.lowerWith (.marked marks) options
      = (request.lower options).map (Operation.marked marks) := by
  have plain : (Context.ofOptions .plain options).MakesPlain := rfl
  have inStep : (Context.ofOptions (.marked marks) options).request false request
      = Operation.marked marks <$> (Context.ofOptions .plain options).request false request :=
    Context.request_marked plain request
  rw [lower, lowerWith, lowerWith, keepsBlanks, inStep]
  simp only [Functor.map, EStateM.map]
  cases (Context.ofOptions .plain options).request false request (.ofNames request.names) <;> rfl

/-- `SELECT ?g { GRAPH ?g { [] ?p ?o . { SELECT ?o { ?g ?q ?o } } } }`. -/
private def hiddenGraph : Surface.Request :=
  ⟨.none, .query (.select ⟨.keep, .items [.var ⟨"g"⟩], none,
    .group [.graph (.var ⟨"g"⟩)
      (.group [
        .bgp [⟨.term .anonymous, .simple (.var ⟨"p"⟩), .term (.var ⟨"o"⟩)⟩] .none,
        .subquery ⟨.keep, .items [.var ⟨"o"⟩], none,
          .group [.bgp [⟨.term (.var ⟨"g"⟩), .simple (.var ⟨"q"⟩), .term (.var ⟨"o"⟩)⟩] .none]
            .none, .none⟩ .none] .none) .none] .none, .none⟩)⟩

/-- Its operation with graph names in patterns: `[]` is a new blank node, and where the subquery
hides `?g` a new variable stands for it. -/
private def hiddenGraphOperation (label new : String) (var : String → Variable) : Operation :=
  let graph : QueryAlgebra.Term := .var (var "g")
  .of (.wrap (.project [var "g"])
    (.of (.wrap (.graph graph)
      (.of (.combine .join [
        .bgp [⟨.blank ⟨label⟩, .var (var "p"), .var (var "o"), graph⟩],
        .of (.wrap (.project [var "o"])
          (.bgp [⟨.var (var new), .var (var "q"), .var (var "o"), graph⟩]))])))))

theorem lowerWith_marked_hiddenGraph :
    ({ quads := true } : Options).blankToVariable = false
      ∧ hiddenGraph.lower { quads := true } = .ok (hiddenGraphOperation "g_0" "var0" (⟨·⟩))
      ∧ hiddenGraph.lowerWith (.marked ⟨"v_", "b_"⟩) { quads := true }
        = .ok (hiddenGraphOperation "b_g_0" "var0" fun name => ⟨"v_" ++ name⟩) := by
  have newLabel : NameSupply.labelName (firstFree NameSupply.labelName [] 0) = "g_0" := by
    rw [firstFree, if_neg (by decide)]
    rfl
  have newName : NameSupply.variableName (firstFree NameSupply.variableName
      ["g", "g", "p", "o", "o", "g", "q", "o"] 0) = "var0" := by
    rw [firstFree, if_neg (by decide)]
    rfl
  have success : hiddenGraph.lower { quads := true }
      = .ok (hiddenGraphOperation "g_0" "var0" (⟨·⟩)) := by
    rw [← newLabel, ← newName]
    rfl
  have keepsBlanks : ({ quads := true } : Options).blankToVariable = false := rfl
  refine ⟨keepsBlanks, success, ?_⟩
  rw [lowerWith_marked _ keepsBlanks, success]
  rfl

end Surface.Request

end QueryAlgebra
