import QueryAlgebra.Lowering.GraphBlocks
import QueryAlgebra.Proofs.Lifting.WrittenTerms
import QueryAlgebra.Proofs.Lowering.Outcomes
import QueryAlgebra.Proofs.Operation.MarkedNames

/-! # Terms under marked names

A factory that puts marks before names makes the same terms as the plain one, under marks. What is
made of them, step by step, is made under marks: inline data, paths between terms, triples and graph
blocks. Both factories take the same names from the supply and fail alike. The `_marked` lemmas say
so; those of graph blocks rest on different names being different under marks.
-/

namespace QueryAlgebra

open Surface (GraphNode NegatedMember Verb)

/-- Makes terms as they are written, but for the marks before their names. -/
def TermFactory.marked (marks : NameMarks) : TermFactory :=
  { TermFactory.plain with
    blank := fun label => ⟨marks.blank ++ label⟩
    var := fun name => ⟨marks.var ++ name⟩ }

/-- A decorated factory that puts nothing before IRIs and values is a marked one. -/
theorem TermFactory.decorated_of_names (marks : NameMarks) :
    .decorated ⟨"", marks.blank, marks.var, "", .defaultGraph⟩ = TermFactory.marked marks := by
  simp [decorated, marked, plain]

namespace Context

/-- The context with a factory that puts marks before names. -/
def marked (marks : NameMarks) (context : Context) : Context :=
  { context with factory := .marked marks }

variable {context : Context} {marks : NameMarks}

/-! ### Terms -/

theorem namedNode_marked (plain : context.MakesPlain) (iri : Surface.Iri) :
    (context.marked marks).namedNode iri = context.namedNode iri := by
  obtain ⟨factory, quads, prefixes, base⟩ := context
  obtain rfl : factory = .plain := plain
  rfl

theorem namedNodes_marked (plain : context.MakesPlain) (iris : List Surface.Iri) :
    (context.marked marks).namedNodes iris = context.namedNodes iris := by
  induction iris with
  | nil => rfl
  | cons iri rest ih => rw [namedNodes, namedNodes, namedNode_marked plain, ih]

theorem var_marked (plain : context.MakesPlain) (name : Variable) :
    (context.marked marks).var name = (context.var name).marked marks := by
  rw [var_eq plain]
  rfl

theorem vocabulary_marked (plain : context.MakesPlain) (iri : String) :
    (context.marked marks).vocabulary iri = (context.vocabulary iri).marked marks := by
  rw [vocabulary, vocabulary, plain]
  rfl

theorem varOrIri_marked (plain : context.MakesPlain) (name : Surface.VarOrIri) :
    (context.marked marks).varOrIri name = Term.marked marks <$> context.varOrIri name := by
  cases name with
  | var name => rw [varOrIri, varOrIri, var_marked plain, map_pure, Term.marked]
  | iri iri =>
    simp only [varOrIri, namedNode_marked plain, map_bind, map_pure]
    rfl

theorem literal_marked (plain : context.MakesPlain) (literal : Surface.Literal) :
    (context.marked marks).literal literal = context.literal literal := by
  obtain ⟨factory, quads, prefixes, base⟩ := context
  obtain rfl : factory = .plain := plain
  rfl

theorem newVariable_marked (plain : context.MakesPlain) :
    (context.marked marks).newVariable = Variable.marked marks <$> context.newVariable := by
  obtain ⟨factory, quads, prefixes, base⟩ := context
  obtain rfl : factory = .plain := plain
  simp only [newVariable, map_bind, map_pure]
  rfl

theorem newBlank_marked (plain : context.MakesPlain) :
    (context.marked marks).newBlank = Term.marked marks <$> context.newBlank := by
  obtain ⟨factory, quads, prefixes, base⟩ := context
  obtain rfl : factory = .plain := plain
  simp only [newBlank, map_bind, map_pure]
  rfl

theorem term_marked (plain : context.MakesPlain) (term : Surface.Term) :
    (context.marked marks).term term = Term.marked marks <$> context.term term := by
  induction term with
  | var name => rw [Context.term, Context.term, var_marked plain, map_pure, Term.marked]
  | iri iri =>
    simp only [Context.term, namedNode_marked plain, map_bind, map_pure]
    rfl
  | literal literal =>
    simp only [Context.term, literal_marked plain, map_bind, map_pure]
    rfl
  | blank label =>
    rw [Context.term, Context.term, plain, map_pure]
    rfl
  | anonymous => exact newBlank_marked plain
  | quoted subject predicate object ofSubject ofObject =>
    simp only [Context.term, ofSubject, varOrIri_marked plain, Lowering.lift_map, ofObject,
      map_bind, bind_map_left, map_pure, quad_eq plain]
    rw [plain]
    rfl

theorem row_marked (plain : context.MakesPlain) (names : List Variable)
    (cells : List (Option Surface.Term)) (row : Row) :
    (context.marked marks).row names cells (Row.marked marks row)
      = Row.marked marks <$> context.row names cells row := by
  induction names generalizing cells row with
  | nil => cases cells <;> simp [Context.row]
  | cons name names ih =>
    cases cells with
    | nil => simp [Context.row]
    | cons cell cells =>
      cases cell with
      | none => exact ih cells row
      | some value =>
        have inserted : ∀ value : Term,
            (Row.marked marks row).insert ((context.marked marks).var name).name
                (value.marked marks)
              = Row.marked marks (row.insert (context.var name).name value) := by
          intro value
          rw [var_marked plain, Row.marked_insert]
          rfl
        simp only [Context.row, term_marked plain, bind_map_left, map_bind, inserted, ih]

theorem rows_marked (plain : context.MakesPlain) (names : List Variable)
    (lines : List (List (Option Surface.Term))) :
    (context.marked marks).rows names lines
      = List.map (Row.marked marks) <$> context.rows names lines := by
  induction lines with
  | nil => rfl
  | cons cells rest ih =>
    have ofLine : (context.marked marks).row names cells .empty
        = Row.marked marks <$> context.row names cells .empty := row_marked plain names cells .empty
    simp only [rows, ofLine, ih, map_bind, bind_map_left, map_pure, List.map_cons]

theorem inlineData_marked (plain : context.MakesPlain) (data : Surface.InlineData) :
    (context.marked marks).inlineData data
      = Operation.marked marks <$> context.inlineData data := by
  have ofVars : data.vars.map (context.marked marks).var
      = (data.vars.map context.var).map (Variable.marked marks) := by
    rw [List.map_map]
    exact List.map_congr_left fun name _ => var_marked plain name
  simp only [inlineData, rows_marked plain, ofVars, map_bind, bind_map_left, map_pure]
  rfl

/-! ### Paths -/

private theorem negatedMembers_marked (plain : context.MakesPlain) (members : List NegatedMember) :
    (context.marked marks).negatedMembers members = context.negatedMembers members := by
  induction members with
  | nil => rfl
  | cons member rest ih => simp only [negatedMembers, namedNode_marked plain, ih]

theorem path_marked (plain : context.MakesPlain) (path : Surface.Path) :
    (context.marked marks).path path = context.path path := by
  induction path with
  | iri iri => simp only [Context.path, namedNode_marked plain]
  | type =>
    rw [Context.path, Context.path, plain]
    rfl
  | negated members span => simp only [Context.path, negatedMembers_marked plain]
  | inverse _ _ ih | zeroOrMore _ _ ih | oneOrMore _ _ ih | zeroOrOne _ _ ih | group _ _ ih =>
    simp only [Context.path, ih]
  | sequence _ _ _ ofLeft ofRight | alternative _ _ _ ofLeft ofRight =>
    simp only [Context.path, ofLeft, ofRight]

end Context

/-! ### Triples -/

section

variable (marks : NameMarks)

/-- The predicate with marks before its names; paths have none. -/
def FlatPredicate.marked : FlatPredicate → FlatPredicate
  | .term value => .term (value.marked marks)
  | .path written => .path written

/-- The triple with marks before its names. -/
def FlatTriple.marked (triple : FlatTriple) : FlatTriple :=
  ⟨triple.subject.marked marks, triple.predicate.marked marks, triple.object.marked marks⟩

/-- The piece with marks before its names. -/
def Fragment.marked : Fragment → Fragment
  | .pattern triple => .pattern (triple.marked marks)
  | .path subject predicate object graph =>
    .path (subject.marked marks) predicate (object.marked marks) (graph.marked marks)

/-- The segment with marks before its names. -/
def Segment.marked : Segment → Segment
  | .run patterns => .run (patterns.map (Pattern.marked marks))
  | .path subject predicate object graph =>
    .path (subject.marked marks) predicate (object.marked marks) (graph.marked marks)

end

theorem Segment.marked_ofFragments (marks : NameMarks) (fragments : List Fragment) :
    ofFragments (fragments.map (Fragment.marked marks))
      = (ofFragments fragments).map (Segment.marked marks) := by
  have ofCons : ∀ (fragment : Fragment) (segments : List Segment),
      cons (fragment.marked marks) (segments.map (Segment.marked marks))
        = (cons fragment segments).map (Segment.marked marks) := by
    intro fragment segments
    cases fragment with
    | path => rfl
    | pattern pattern =>
      cases segments with
      | nil => rfl
      | cons segment rest => cases segment <;> rfl
  induction fragments with
  | nil => rfl
  | cons fragment rest ih =>
    rw [List.map_cons, ofFragments, List.foldr_cons, ← ofFragments, ih, ofCons]
    rfl

theorem Operation.marked_ofFragments (marks : NameMarks) (fragments : List Fragment) :
    (ofFragments fragments).marked marks = ofFragments (fragments.map (Fragment.marked marks)) := by
  have ofSegments : ∀ segments : List Segment,
      (segments.map (Segment.marked marks)).map Segment.toOperation
        = (segments.map Segment.toOperation).map (marked marks) := by
    intro segments
    rw [List.map_map, List.map_map]
    refine List.map_congr_left fun segment _ => ?_
    cases segment <;> rfl
  rw [ofFragments, ofFragments, Segment.marked_ofFragments, ofSegments]
  cases (Segment.ofFragments fragments).map Segment.toOperation with
  | nil => rfl
  | cons first rest =>
    cases rest with
    | nil => rfl
    | cons second rest => exact marked_join (first :: second :: rest)

namespace Context

variable {context : Context} {marks : NameMarks}

theorem predicate_marked (plain : context.MakesPlain) (verb : Verb) :
    (context.marked marks).predicate verb
      = FlatPredicate.marked marks <$> context.predicate verb := by
  cases verb with
  | simple name =>
    simp only [predicate, varOrIri_marked plain, map_bind, bind_map_left, map_pure]
    rfl
  | path path =>
    simp only [predicate]
    cases path.unwrapped with
    | iri iri =>
      simp only [namedNode_marked plain, map_bind, map_pure]
      rfl
    | type =>
      simp only [vocabulary_marked plain, map_pure]
      rfl
    | _ => rfl

theorem newCells_marked (plain : context.MakesPlain) (count : Nat) :
    (context.marked marks).newCells count
      = List.map (Term.marked marks) <$> context.newCells count := by
  induction count with
  | zero => rfl
  | succ count ih =>
    simp only [newCells, newBlank_marked plain, ih, map_bind, bind_map_left, map_pure,
      List.map_cons]

theorem cellTriples_marked (plain : context.MakesPlain) (cell value next : Term) :
    (context.marked marks).cellTriples (cell.marked marks) (value.marked marks)
        (next.marked marks)
      = (context.cellTriples cell value next).map (FlatTriple.marked marks) := by
  rw [cellTriples, cellTriples, vocabulary_marked plain, vocabulary_marked plain]
  rfl

private theorem headD_marked (cells : List Term) (nil : Term) :
    (cells.map (Term.marked marks)).headD (nil.marked marks) = (cells.headD nil).marked marks := by
  cases cells <;> rfl

mutual

theorem node_marked (plain : context.MakesPlain) : ∀ node : GraphNode,
    (context.marked marks).node node
      = (fun result => (result.1.marked marks, result.2.map (FlatTriple.marked marks)))
        <$> context.node node
  | .term value => by
    simp only [node, term_marked plain, map_bind, bind_map_left, map_pure]
    rfl
  | .collection items => by
    simp only [node, newCells_marked plain, vocabulary_marked plain, headD_marked,
      listTriples_marked plain items, map_bind, bind_map_left, map_pure]
  | .properties entries => by
    simp only [node, newBlank_marked plain, propertyTriples_marked plain entries, map_bind,
      bind_map_left, map_pure]

theorem listTriples_marked (plain : context.MakesPlain) :
    ∀ (items : List GraphNode) (cells : List Term) (nil : Term),
    (context.marked marks).listTriples items (cells.map (Term.marked marks)) (nil.marked marks)
      = List.map (FlatTriple.marked marks) <$> context.listTriples items cells nil
  | item :: items, cell :: cells, nil => by
    simp only [List.map_cons, listTriples, node_marked plain item, headD_marked,
      listTriples_marked plain items cells nil, cellTriples_marked plain, map_bind, bind_map_left,
      map_pure, List.map_append]
  | [], _, _ => rfl
  | _ :: _, [], _ => rfl

theorem propertyTriples_marked (plain : context.MakesPlain) :
    ∀ (entries : List (Verb × GraphNode)) (subject : Term),
    (context.marked marks).propertyTriples (subject.marked marks) entries
      = List.map (FlatTriple.marked marks) <$> context.propertyTriples subject entries
  | [], _ => rfl
  | (verb, object) :: entries, subject => by
    simp only [propertyTriples, predicate_marked plain, Lowering.lift_map,
      node_marked plain object, propertyTriples_marked plain entries subject, map_bind,
      bind_map_left, map_pure, List.map_append, List.map_cons]
    rfl

end

theorem triples_marked (plain : context.MakesPlain) (written : List Surface.Triple) :
    (context.marked marks).triples written
      = List.map (FlatTriple.marked marks) <$> context.triples written := by
  induction written with
  | nil => rfl
  | cons triple rest ih =>
    simp only [triples, Context.triple, node_marked plain, predicate_marked plain,
      Lowering.lift_map, ih, map_bind, bind_map_left, map_pure, bind_assoc, pure_bind,
      List.map_append]
    rfl

/-! ### Basic graph patterns -/

theorem defaultGraph_marked (plain : context.MakesPlain) :
    (context.marked marks).factory.defaultGraph = context.factory.defaultGraph.marked marks := by
  rw [plain]
  rfl

mutual

theorem fragments_marked (plain : context.MakesPlain) :
    ∀ (path : Path) (subject object : Term),
    (context.marked marks).fragments (subject.marked marks) path (object.marked marks)
      = List.map (Fragment.marked marks) <$> context.fragments subject path object
  | .link predicate, subject, object => by
    simp only [fragments, defaultGraph_marked plain, map_pure]
    rfl
  | .inverse path, subject, object => by
    rw [fragments, fragments, fragments_marked plain path object subject]
  | .seq steps, subject, object => by
    rw [fragments, fragments, stepFragments_marked plain steps subject object]
  | .alt _, _, _ | .zeroOrMore _, _, _ | .oneOrMore _, _, _ | .zeroOrOne _, _, _
  | .negated _, _, _ => by
    simp only [fragments, defaultGraph_marked plain, map_pure]
    rfl

theorem stepFragments_marked (plain : context.MakesPlain) :
    ∀ (steps : List Path) (subject object : Term),
    (context.marked marks).stepFragments (subject.marked marks) steps (object.marked marks)
      = List.map (Fragment.marked marks) <$> context.stepFragments subject steps object
  | [], subject, object => by
    simp only [stepFragments, defaultGraph_marked plain, map_pure]
    rfl
  | [step], subject, object => by
    rw [stepFragments, stepFragments, fragments_marked plain step subject object]
  | step :: next :: steps, subject, object => by
    have ofStep := fun between : Variable =>
      fragments_marked plain step subject (.var between)
    have ofRest := fun between : Variable =>
      stepFragments_marked plain (next :: steps) (.var between) object
    simp only [Term.marked] at ofStep ofRest
    simp only [stepFragments, newVariable_marked plain, ofStep, ofRest, map_bind, bind_map_left,
      map_pure, List.map_append]

end

theorem tripleFragments_marked (plain : context.MakesPlain) (triple : FlatTriple) :
    (context.marked marks).tripleFragments (triple.marked marks)
      = List.map (Fragment.marked marks) <$> context.tripleFragments triple := by
  obtain ⟨subject, predicate, object⟩ := triple
  cases predicate with
  | term predicate =>
    simp only [tripleFragments, FlatTriple.marked, FlatPredicate.marked,
      defaultGraph_marked plain, map_pure]
    rfl
  | path written =>
    simp only [tripleFragments, FlatTriple.marked, FlatPredicate.marked, path_marked plain,
      fragments_marked plain, map_bind]

theorem allFragments_marked (plain : context.MakesPlain) (flat : List FlatTriple) :
    (context.marked marks).allFragments (flat.map (FlatTriple.marked marks))
      = List.map (Fragment.marked marks) <$> context.allFragments flat := by
  induction flat with
  | nil => rfl
  | cons triple rest ih =>
    simp only [List.map_cons, allFragments, tripleFragments_marked plain, ih, map_bind,
      bind_map_left, map_pure, List.map_append]

theorem basicGraphPattern_marked (plain : context.MakesPlain) (written : List Surface.Triple) :
    (context.marked marks).basicGraphPattern written
      = Operation.marked marks <$> context.basicGraphPattern written := by
  simp only [basicGraphPattern, triples_marked plain, allFragments_marked plain, map_bind,
    bind_map_left, map_pure, Operation.marked_ofFragments]

theorem templatePatterns_marked (graph : Term) (flat : List FlatTriple) :
    templatePatterns (graph.marked marks) (flat.map (FlatTriple.marked marks))
      = List.map (Pattern.marked marks) <$> templatePatterns graph flat := by
  have ofTriple : ∀ triple : FlatTriple,
      templatePattern (graph.marked marks) (triple.marked marks)
        = Pattern.marked marks <$> templatePattern graph triple := by
    intro ⟨subject, predicate, object⟩
    cases predicate <;> rfl
  induction flat with
  | nil => rfl
  | cons triple rest ih =>
    simp only [List.map_cons, templatePatterns, ofTriple, ih, map_bind, bind_map_left, map_pure]

theorem template_marked (plain : context.MakesPlain) (graph : Term)
    (written : List Surface.Triple) :
    (context.marked marks).template (graph.marked marks) written
      = List.map (Pattern.marked marks) <$> context.template graph written := by
  simp only [template, triples_marked plain, templatePatterns_marked, Lowering.lift_map, map_bind,
    bind_map_left]

end Context

end QueryAlgebra
