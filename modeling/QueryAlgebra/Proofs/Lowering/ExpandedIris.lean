import QueryAlgebra.Proofs.Lowering.AbsoluteTerms
import QueryAlgebra.Proofs.Surface.WrittenIris

/-! # IRIs that are written in full

`Context.expand` writes an IRI in full: what it resolves to takes its place. Terms, paths, triples
and clauses whose IRIs are in full become the same without prefixes and base as they become with
them. The `_expand` lemmas say so, for failures too.
-/

namespace QueryAlgebra

open Surface (GraphNode NegatedMember Verb)

namespace Context

/-- The context without prefixes and base. -/
def bare (context : Context) : Context := { context with prefixes := .empty, base := none }

/-- The full text of an IRI. A relative one without a base stays, and so does an abbreviation of a
prefix that is not declared. -/
def expandText (context : Context) : Surface.IriText → Surface.IriText
  | .full iri => .full ((Iri.resolve? context.base iri).getD iri)
  | .abbreviated label rest =>
    match context.prefixes.find? label with
    | some namespaceIri =>
      .full ((Iri.resolve? context.base (namespaceIri ++ rest)).getD (namespaceIri ++ rest))
    | none => .abbreviated label rest

/-- The IRI in full. -/
def expand (context : Context) (iri : Surface.Iri) : Surface.Iri :=
  { iri with text := context.expandText iri.text }

variable {context : Context}

/-! ### Terms -/

private theorem resolve_bare (grounded : context.IsGrounded) (iri : String)
    (span : Surface.Span) :
    context.bare.resolve ((Iri.resolve? context.base iri).getD iri) span
      = context.resolve iri span := by
  rw [resolve, resolve]
  cases resolves : Iri.resolve? context.base iri with
  | none =>
    have relative : Iri.isAbsolute iri = false := by
      rw [Iri.resolve?] at resolves
      split at resolves
      · cases resolves
      · rename_i relative
        exact Bool.not_eq_true _ ▸ relative
    simp [Iri.resolve?, relative, bare]
  | some resolved =>
    have absolute := Iri.isAbsolute_of_resolve? grounded.base resolves
    simp [Iri.resolve?, absolute]

/-- An IRI in full needs neither prefixes nor a base. -/
theorem namedNode_expand (grounded : context.IsGrounded) (iri : Surface.Iri) :
    context.bare.namedNode (context.expand iri) = context.namedNode iri := by
  obtain ⟨text, span⟩ := iri
  cases text with
  | full iri =>
    simp only [namedNode, expand, expandText, pure_bind, resolve_bare grounded]
    rfl
  | abbreviated label rest =>
    cases declared : context.prefixes.find? label with
    | none =>
      simp only [namedNode, expand, expandText, declared, bare, NameMap.find?_empty]
      rfl
    | some namespaceIri =>
      simp only [namedNode, expand, expandText, declared, pure_bind, resolve_bare grounded]
      rfl

/-- An IRI that resolves is replaced by what it resolves to. -/
theorem expand_of_namedNode (plain : context.MakesPlain) {iri : Surface.Iri} {node : NamedNode}
    (resolves : context.namedNode iri = .ok node) :
    context.expand iri = ⟨.full node.iri, iri.span⟩ := by
  obtain ⟨text, span⟩ := iri
  have ofText : ∀ expanded : String,
      (do
        let absolute ← context.resolve expanded span
        pure (context.factory.namedNode absolute)) = Except.ok node →
      (Iri.resolve? context.base expanded).getD expanded = node.iri := by
    intro expanded resolves
    obtain ⟨absolute, isResolved, isNode⟩ := ok_of_bind resolves
    cases isNode
    rw [plain]
    rw [resolve] at isResolved
    split at isResolved
    · rename_i found
      cases isResolved
      rw [found]
      rfl
    · cases isResolved
  cases text with
  | full iri => rw [expand, expandText, ofText iri resolves]
  | abbreviated label rest =>
    cases declared : context.prefixes.find? label with
    | none =>
      simp only [namedNode, declared] at resolves
      cases resolves
    | some namespaceIri =>
      simp only [namedNode, declared, pure_bind] at resolves
      simp only [expand, expandText, declared, ofText _ resolves]

theorem namedNodes_expand (grounded : context.IsGrounded) (iris : List Surface.Iri) :
    context.bare.namedNodes (iris.map context.expand) = context.namedNodes iris := by
  induction iris with
  | nil => rfl
  | cons iri rest ih => rw [List.map_cons, namedNodes, namedNodes, namedNode_expand grounded, ih]

theorem varOrIri_expand (grounded : context.IsGrounded) (name : Surface.VarOrIri) :
    context.bare.varOrIri (name.mapIris context.expand) = context.varOrIri name := by
  cases name with
  | var name => rfl
  | iri iri => rw [Surface.VarOrIri.mapIris, varOrIri, varOrIri, namedNode_expand grounded]

theorem literal_expand (grounded : context.IsGrounded) (literal : Surface.Literal) :
    context.bare.literal (literal.mapIris context.expand) = context.literal literal := by
  cases literal with
  | typed value datatype =>
    rw [Surface.Literal.mapIris, Context.literal, Context.literal, namedNode_expand grounded]
    rfl
  | _ => rfl

theorem term_expand (grounded : context.IsGrounded) (term : Surface.Term) :
    context.bare.term (term.mapIris context.expand) = context.term term := by
  induction term with
  | var | blank | anonymous => rfl
  | iri iri => rw [Surface.Term.mapIris, Context.term, Context.term, namedNode_expand grounded]
  | literal literal =>
    rw [Surface.Term.mapIris, Context.term, Context.term, literal_expand grounded]
  | quoted subject predicate object ofSubject ofObject =>
    rw [Surface.Term.mapIris, Context.term, Context.term, ofSubject, ofObject,
      varOrIri_expand grounded]
    rfl

theorem row_expand (grounded : context.IsGrounded) (names : List Variable)
    (cells : List (Option Surface.Term)) (row : Row) :
    context.bare.row names (cells.map (·.map (Surface.Term.mapIris context.expand))) row
      = context.row names cells row := by
  induction names generalizing cells row with
  | nil => cases cells <;> simp [Context.row]
  | cons name names ih =>
    cases cells with
    | nil => simp [Context.row]
    | cons cell cells =>
      cases cell with
      | none => exact ih cells row
      | some value =>
        simp only [List.map_cons, Option.map_some, Context.row, term_expand grounded, ih]
        rfl

theorem inlineData_expand (grounded : context.IsGrounded) (data : Surface.InlineData) :
    context.bare.inlineData (data.mapIris context.expand) = context.inlineData data := by
  have ofRows : ∀ lines : List (List (Option Surface.Term)),
      context.bare.rows data.vars
          (lines.map (·.map (·.map (Surface.Term.mapIris context.expand))))
        = context.rows data.vars lines := by
    intro lines
    induction lines with
    | nil => rfl
    | cons cells rest ih => rw [List.map_cons, rows, rows, row_expand grounded, ih]
  rw [inlineData, inlineData, Surface.InlineData.mapIris, ofRows]
  rfl

/-! ### Paths -/

theorem negatedMembers_expand (grounded : context.IsGrounded) (members : List NegatedMember) :
    context.bare.negatedMembers (members.map (NegatedMember.mapIris context.expand))
      = context.negatedMembers members := by
  have ofMember : ∀ member : NegatedMember,
      context.bare.namedNode (member.mapIris context.expand).iri
        = context.namedNode member.iri := by
    intro member
    cases member with
    | forward iri | inverse iri => exact namedNode_expand grounded iri
    | forwardType span | inverseType span =>
      -- The type predicate is absolute, whatever the base.
      have absolute : Iri.isAbsolute Vocabulary.rdfType = true := by decide +kernel
      simp only [NegatedMember.mapIris, NegatedMember.iri, namedNode, resolve, Iri.resolve?,
        absolute, if_true, pure_bind]
      rfl
  have sameDirection : ∀ member : NegatedMember,
      (member.mapIris context.expand).isInverse = member.isInverse := by
    intro member
    cases member <;> rfl
  induction members with
  | nil => rfl
  | cons member rest ih =>
    simp only [List.map_cons, negatedMembers, ofMember, sameDirection, ih]

theorem path_expand (grounded : context.IsGrounded) (path : Surface.Path) :
    context.bare.path (path.mapIris context.expand) = context.path path := by
  induction path with
  | iri iri => rw [Surface.Path.mapIris, Context.path, Context.path, namedNode_expand grounded]
  | type => rfl
  | negated members span =>
    simp only [Surface.Path.mapIris, Context.path, List.isEmpty_map,
      negatedMembers_expand grounded]
  | inverse _ _ ih | zeroOrMore _ _ ih | oneOrMore _ _ ih | zeroOrOne _ _ ih | group _ _ ih =>
    simp only [Surface.Path.mapIris, Context.path, ih]
  | sequence _ _ _ ofLeft ofRight | alternative _ _ _ ofLeft ofRight =>
    simp only [Surface.Path.mapIris, Context.path, ofLeft, ofRight]

end Context

/-! ### Triples -/

/-- Replace the IRIs of a path that is not treated yet. -/
def FlatPredicate.mapIris (f : Surface.Iri → Surface.Iri) : FlatPredicate → FlatPredicate
  | .term value => .term value
  | .path written => .path (written.mapIris f)

/-- Replace the IRIs of the path of a triple. -/
def FlatTriple.mapIris (f : Surface.Iri → Surface.Iri) (triple : FlatTriple) : FlatTriple :=
  { triple with predicate := triple.predicate.mapIris f }

namespace Context

variable {context : Context}

private theorem liftM_map {α β : Type} (f : α → β) (result : Except LoweringError α) :
    (liftM (f <$> result) : Lowering β) = f <$> (liftM result : Lowering α) := by
  cases result <;> rfl

theorem predicate_expand (grounded : context.IsGrounded) (verb : Verb) :
    context.bare.predicate (verb.mapIris context.expand)
      = FlatPredicate.mapIris context.expand <$> context.predicate verb := by
  cases verb with
  | simple name =>
    rw [Verb.mapIris, predicate, predicate, varOrIri_expand grounded]
    simp [FlatPredicate.mapIris]
  | path path =>
    rw [Verb.mapIris, predicate, predicate, Surface.Path.unwrapped_mapIris]
    cases path.unwrapped with
    | iri iri =>
      simp only [Surface.Path.mapIris, namedNode_expand grounded]
      simp [FlatPredicate.mapIris]
    | _ => rfl

theorem newCells_bare (context : Context) (count : Nat) :
    context.bare.newCells count = context.newCells count := by
  delta newCells
  rfl

private theorem map_cellTriples (f : Surface.Iri → Surface.Iri) (cell value next : Term) :
    (context.cellTriples cell value next).map (FlatTriple.mapIris f)
      = context.cellTriples cell value next := rfl

mutual

theorem node_expand (grounded : context.IsGrounded) : ∀ node : GraphNode,
    context.bare.node (node.mapIris context.expand)
      = (fun result => (result.1, result.2.map (FlatTriple.mapIris context.expand)))
        <$> context.node node
  | .term value => by
    simp [GraphNode.mapIris, node, term_expand grounded]
  | .collection items => by
    simp only [GraphNode.mapIris, node, GraphNode.length_mapIrisOfItems, newCells_bare,
      listTriples_expand grounded items, map_bind, map_pure, bind_map_left]
    rfl
  | .properties entries => by
    simp only [GraphNode.mapIris, node, propertyTriples_expand grounded entries, map_bind, map_pure,
      bind_map_left]
    rfl

theorem listTriples_expand (grounded : context.IsGrounded) :
    ∀ (items : List GraphNode) (cells : List Term) (nil : Term),
    context.bare.listTriples (GraphNode.mapIrisOfItems context.expand items) cells nil
      = List.map (FlatTriple.mapIris context.expand) <$> context.listTriples items cells nil
  | item :: items, cell :: cells, nil => by
    simp only [GraphNode.mapIrisOfItems, listTriples, node_expand grounded item,
      listTriples_expand grounded items cells nil, map_bind, map_pure, bind_map_left,
      List.map_append, map_cellTriples]
    rfl
  | [], _, _ => rfl
  | _ :: _, [], _ => rfl

theorem propertyTriples_expand (grounded : context.IsGrounded) :
    ∀ (entries : List (Verb × GraphNode)) (subject : Term),
    context.bare.propertyTriples subject (GraphNode.mapIrisOfEntries context.expand entries)
      = List.map (FlatTriple.mapIris context.expand) <$> context.propertyTriples subject entries
  | [], _ => rfl
  | (verb, object) :: entries, subject => by
    simp only [GraphNode.mapIrisOfEntries, propertyTriples, predicate_expand grounded, liftM_map,
      node_expand grounded object, propertyTriples_expand grounded entries subject, map_bind,
      map_pure, bind_map_left, List.map_append, List.map_cons]
    rfl

end

theorem triples_expand (grounded : context.IsGrounded) (written : List Surface.Triple) :
    context.bare.triples (written.map (Surface.Triple.mapIris context.expand))
      = List.map (FlatTriple.mapIris context.expand) <$> context.triples written := by
  induction written with
  | nil => rfl
  | cons triple rest ih =>
    simp only [List.map_cons, Context.triples, Context.triple, Surface.Triple.mapIris,
      node_expand grounded, predicate_expand grounded, liftM_map, ih, map_bind, map_pure,
      bind_map_left, bind_assoc, pure_bind, List.map_append]
    rfl

theorem fragments_bare (context : Context) (subject : Term) (path : Path) (object : Term) :
    context.bare.fragments subject path object = context.fragments subject path object := by
  delta fragments
  rfl

theorem allFragments_expand (grounded : context.IsGrounded) (flat : List FlatTriple) :
    context.bare.allFragments (flat.map (FlatTriple.mapIris context.expand))
      = context.allFragments flat := by
  have ofTriple : ∀ triple : FlatTriple,
      context.bare.tripleFragments (triple.mapIris context.expand)
        = context.tripleFragments triple := by
    intro ⟨subject, predicate, object⟩
    cases predicate with
    | term predicate => rfl
    | path written =>
      simp only [FlatTriple.mapIris, FlatPredicate.mapIris, tripleFragments, path_expand grounded,
        fragments_bare]
  induction flat with
  | nil => rfl
  | cons triple rest ih => simp only [List.map_cons, allFragments, ofTriple, ih]

theorem basicGraphPattern_expand (grounded : context.IsGrounded) (written : List Surface.Triple) :
    context.bare.basicGraphPattern (written.map (Surface.Triple.mapIris context.expand))
      = context.basicGraphPattern written := by
  simp only [basicGraphPattern, triples_expand grounded, bind_map_left,
    allFragments_expand grounded]

theorem template_expand (grounded : context.IsGrounded) (graph : Term)
    (written : List Surface.Triple) :
    context.bare.template graph (written.map (Surface.Triple.mapIris context.expand))
      = context.template graph written := by
  have sameSpan : ∀ path : Surface.Path, (path.mapIris context.expand).span = path.span := by
    intro path
    cases path <;> rfl
  have ofPatterns : ∀ flat : List FlatTriple,
      templatePatterns graph (flat.map (FlatTriple.mapIris context.expand))
        = templatePatterns graph flat := by
    intro flat
    induction flat with
    | nil => rfl
    | cons triple rest ih =>
      obtain ⟨subject, predicate, object⟩ := triple
      rw [List.map_cons, templatePatterns, templatePatterns, ih]
      cases predicate with
      | term predicate => rfl
      | path written =>
        simp only [FlatTriple.mapIris, FlatPredicate.mapIris, templatePattern, sameSpan]
  simp only [template, triples_expand grounded, bind_map_left, ofPatterns]

/-! ### Clauses -/

theorem callee_expand (grounded : context.IsGrounded) (function : Surface.Function) :
    context.bare.callee (function.mapIris context.expand) = context.callee function := by
  cases function with
  | builtin => rfl
  | named iri => rw [Surface.Function.mapIris, callee, callee, namedNode_expand grounded]

theorem overDataset_expand (grounded : context.IsGrounded) (dataset : Option Surface.Dataset)
    (operation : Operation) :
    context.bare.overDataset (dataset.map (Surface.Dataset.mapIris context.expand)) operation
      = context.overDataset dataset operation := by
  cases dataset with
  | none => rfl
  | some dataset =>
    simp only [Option.map_some, overDataset, Surface.Dataset.isEmpty_mapIris]
    simp only [Surface.Dataset.mapIris, namedNodes_expand grounded]

theorem joinedWith_expand (grounded : context.IsGrounded) (values : Option Surface.InlineData)
    (operation : Operation) :
    context.bare.joinedWith (values.map (Surface.InlineData.mapIris context.expand)) operation
      = context.joinedWith values operation := by
  cases values with
  | none => rfl
  | some data => rw [Option.map_some, joinedWith, joinedWith, inlineData_expand grounded]

theorem shown_expand (context : Context) (projection : Surface.Projection)
    (pattern : Surface.Pattern) (values : Option Surface.InlineData)
    (selected : List (Variable × Option Expression)) :
    context.bare.shown (projection.mapIris context.expand) (pattern.mapIris context.expand)
        (values.map (Surface.InlineData.mapIris context.expand)) selected
      = context.shown projection pattern values selected := by
  cases projection with
  | all =>
    rw [Surface.Projection.mapIris, shown, shown]
    exact congrArg (List.map context.var)
      (Surface.starVariables_mapIris (some pattern) values)
  | items => rfl

theorem embed_bare (context : Context) (embedding : Embedding) (operation : Operation) :
    context.bare.embed embedding operation = context.embed embedding operation := by
  delta embed
  rfl

theorem extractAggregates_bare (context : Context) (expression : Expression) :
    context.bare.extractAggregates expression = context.extractAggregates expression := by
  delta extractAggregates replaceAggregates
  rfl

end Context

end QueryAlgebra
