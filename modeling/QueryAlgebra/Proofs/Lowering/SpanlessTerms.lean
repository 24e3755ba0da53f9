import QueryAlgebra.Proofs.Lowering.Outcomes
import QueryAlgebra.Proofs.Surface.Layout

/-! # Layout makes no difference to terms and triples

Errors point at ranges of the text, so what fails in one layout fails with another range in another.
`spanless` leaves out the ranges of errors: steps are the same in two layouts if they are equal
after that. It goes through every way of putting steps together, and where two runs come to the same
intermediate result they go on with the same step.
-/

namespace QueryAlgebra

open Surface (GraphNode NegatedMember Verb)

/-! ### Errors without ranges -/

namespace LoweringError

/-- The error without its range. -/
def withoutSpan : LoweringError → LoweringError
  | .unknownPrefix label _ => .unknownPrefix label .none
  | .relativeIri iri _ => .relativeIri iri .none
  | .quadsRequired _ => .quadsRequired .none
  | .unexpectedPattern kind _ => .unexpectedPattern kind .none
  | .invalidPath problem _ => .invalidPath problem .none
  | .traversal error => .traversal error

variable {α β : Type}

/-- An outcome whose error has no range. -/
def spanless (outcome : Except LoweringError α) : Except LoweringError α :=
  outcome.mapError withoutSpan

@[simp] theorem spanless_pure (value : α) : spanless (pure value) = pure value := rfl

@[simp] theorem spanless_bind (first : Except LoweringError α)
    (next : α → Except LoweringError β) :
    spanless (first >>= next) = spanless first >>= fun value => spanless (next value) := by
  cases first <;> rfl

@[simp] theorem spanless_map (f : α → β) (outcome : Except LoweringError α) :
    spanless (f <$> outcome) = f <$> spanless outcome := by
  cases outcome <;> rfl

/-- Outcomes that are the same without ranges succeed alike and fail alike but for the range. -/
theorem same_of_spanless {first second : Except LoweringError α}
    (same : spanless first = spanless second) :
    (∀ value, first = .ok value ↔ second = .ok value) ∧
    ∀ error, first = .error error →
      ∃ error', second = .error error' ∧ error'.withoutSpan = error.withoutSpan := by
  cases first with
  | ok value =>
    cases second with
    | ok value' =>
      cases same
      exact ⟨fun _ => Iff.rfl, fun error failed => nomatch failed⟩
    | error error' => cases same
  | error error =>
    cases second with
    | ok value' => cases same
    | error error' =>
      refine ⟨fun value => iff_of_false (nomatch ·) (nomatch ·), fun failure failed => ?_⟩
      cases failed
      exact ⟨error', rfl, (Except.error.inj same).symm⟩

end LoweringError

namespace Lowering

variable {α β : Type}

/-- A step whose errors have no ranges. -/
def spanless (step : Lowering α) : Lowering α := fun supply =>
  match step supply with
  | .ok value after => .ok value after
  | .error error after => .error error.withoutSpan after

@[simp] theorem spanless_pure (value : α) : spanless (pure value) = pure value := rfl

@[simp] theorem spanless_bind (step : Lowering α) (next : α → Lowering β) :
    spanless (step >>= next) = spanless step >>= fun value => spanless (next value) := by
  funext supply
  simp only [spanless, bind, EStateM.bind]
  cases step supply <;> rfl

@[simp] theorem spanless_map (f : α → β) (step : Lowering α) :
    spanless (f <$> step) = f <$> spanless step := by
  funext supply
  simp only [spanless, Functor.map, EStateM.map]
  cases step supply <;> rfl

@[simp] theorem spanless_lift (outcome : Except LoweringError α) :
    spanless (liftM outcome) = liftM (LoweringError.spanless outcome) := by
  cases outcome <;> rfl

theorem spanless_ite (condition : Prop) [Decidable condition] (first second : Lowering α) :
    spanless (if condition then first else second)
      = if condition then spanless first else spanless second := by
  split <;> rfl

end Lowering

namespace Extracting

variable {α β : Type}

/-- A step that finds aggregates and whose errors have no ranges. -/
def spanless (step : Extracting α) : Extracting α := fun found => Lowering.spanless (step found)

@[simp] theorem spanless_pure (value : α) : spanless (pure value) = pure value := rfl

@[simp] theorem spanless_bind (step : Extracting α) (next : α → Extracting β) :
    spanless (step >>= next) = spanless step >>= fun value => spanless (next value) := by
  funext found
  exact Lowering.spanless_bind (step found) fun result => next result.1 result.2

@[simp] theorem spanless_lift (step : Lowering α) :
    spanless (liftM step) = liftM (Lowering.spanless step) := by
  funext found
  exact Lowering.spanless_bind step fun value => pure (value, found)

@[simp] theorem spanless_run (step : Extracting α) (found : List BoundAggregate) :
    Lowering.spanless (step.run found) = (spanless step).run found := rfl

end Extracting

namespace Context

variable (context : Context)

/-! ### Terms -/

theorem resolve_withoutSpan (iri : String) (span : Surface.Span) :
    LoweringError.spanless (context.resolve iri .none)
      = LoweringError.spanless (context.resolve iri span) := by
  simp only [resolve]
  cases Iri.resolve? context.base iri <;> rfl

theorem namedNode_withoutSpan (iri : Surface.Iri) :
    LoweringError.spanless (context.namedNode iri.withoutSpan)
      = LoweringError.spanless (context.namedNode iri) := by
  obtain ⟨text, span⟩ := iri
  have resolved : ∀ iri : String,
      LoweringError.spanless (do pure (context.factory.namedNode (← context.resolve iri .none)))
        = LoweringError.spanless
          (do pure (context.factory.namedNode (← context.resolve iri span))) := by
    intro iri
    simp only [LoweringError.spanless_bind, context.resolve_withoutSpan iri span]
  cases text with
  | full iri => exact resolved iri
  | abbreviated label rest =>
    cases declared : context.prefixes.find? label with
    | none =>
      simp only [namedNode, Surface.Iri.withoutSpan, declared]
      rfl
    | some namespaceIri =>
      simp only [namedNode, Surface.Iri.withoutSpan, declared, pure_bind]
      exact resolved (namespaceIri ++ rest)

theorem namedNodes_withoutSpan (iris : List Surface.Iri) :
    LoweringError.spanless (context.namedNodes (iris.map Surface.Iri.withoutSpan))
      = LoweringError.spanless (context.namedNodes iris) := by
  induction iris with
  | nil => rfl
  | cons iri rest ih =>
    simp only [List.map_cons, namedNodes, LoweringError.spanless_bind, namedNode_withoutSpan, ih]

theorem varOrIri_withoutSpan (name : Surface.VarOrIri) :
    LoweringError.spanless (context.varOrIri (name.mapIris Surface.Iri.withoutSpan))
      = LoweringError.spanless (context.varOrIri name) := by
  cases name with
  | var name => rfl
  | iri iri =>
    simp only [Surface.VarOrIri.mapIris, varOrIri, LoweringError.spanless_bind,
      namedNode_withoutSpan]

theorem literal_withoutSpan (literal : Surface.Literal) :
    LoweringError.spanless (context.literal (literal.mapIris Surface.Iri.withoutSpan))
      = LoweringError.spanless (context.literal literal) := by
  cases literal with
  | typed value datatype =>
    simp only [Surface.Literal.mapIris, Context.literal, LoweringError.spanless_bind,
      namedNode_withoutSpan]
  | _ => rfl

theorem term_withoutSpan (term : Surface.Term) :
    Lowering.spanless (context.term (term.mapIris Surface.Iri.withoutSpan))
      = Lowering.spanless (context.term term) := by
  induction term with
  | var | blank | anonymous => rfl
  | iri iri =>
    simp only [Surface.Term.mapIris, Context.term, Lowering.spanless_bind, Lowering.spanless_lift,
      namedNode_withoutSpan]
  | literal literal =>
    simp only [Surface.Term.mapIris, Context.term, Lowering.spanless_bind, Lowering.spanless_lift,
      literal_withoutSpan]
  | quoted subject predicate object ofSubject ofObject =>
    simp only [Surface.Term.mapIris, Context.term, Lowering.spanless_bind, Lowering.spanless_lift,
      ofSubject, ofObject, varOrIri_withoutSpan]

theorem row_withoutSpan (names : List Variable) (cells : List (Option Surface.Term)) (row : Row) :
    Lowering.spanless
        (context.row names (cells.map (·.map (Surface.Term.mapIris Surface.Iri.withoutSpan))) row)
      = Lowering.spanless (context.row names cells row) := by
  induction names generalizing cells row with
  | nil => cases cells <;> simp [Context.row]
  | cons name names ih =>
    cases cells with
    | nil => simp [Context.row]
    | cons cell cells =>
      cases cell with
      | none => exact ih cells row
      | some value =>
        simp only [List.map_cons, Option.map_some, Context.row, Lowering.spanless_bind,
          term_withoutSpan, ih]

theorem inlineData_withoutSpan (data : Surface.InlineData) :
    Lowering.spanless (context.inlineData (data.mapIris Surface.Iri.withoutSpan))
      = Lowering.spanless (context.inlineData data) := by
  have ofRows : ∀ lines : List (List (Option Surface.Term)),
      Lowering.spanless (context.rows data.vars
          (lines.map (·.map (·.map (Surface.Term.mapIris Surface.Iri.withoutSpan)))))
        = Lowering.spanless (context.rows data.vars lines) := by
    intro lines
    induction lines with
    | nil => rfl
    | cons cells rest ih =>
      simp only [List.map_cons, rows, Lowering.spanless_bind, row_withoutSpan, ih]
  simp only [inlineData, Surface.InlineData.mapIris, Lowering.spanless_bind, ofRows]

/-! ### Paths -/

theorem negatedMembers_withoutSpan (members : List NegatedMember) :
    LoweringError.spanless (context.negatedMembers (members.map NegatedMember.withoutSpan))
      = LoweringError.spanless (context.negatedMembers members) := by
  induction members with
  | nil => rfl
  | cons member rest ih =>
    simp only [List.map_cons, negatedMembers, LoweringError.spanless_bind,
      NegatedMember.iri_withoutSpan, NegatedMember.isInverse_withoutSpan, namedNode_withoutSpan, ih]

/-- Parentheses in a path are passed by. -/
theorem path_withoutLayout (path : Surface.Path) :
    LoweringError.spanless (context.path path.withoutLayout)
      = LoweringError.spanless (context.path path) := by
  induction path with
  | iri iri =>
    simp only [Surface.Path.withoutLayout, Context.path, LoweringError.spanless_bind,
      namedNode_withoutSpan]
  | type => rfl
  | negated members span =>
    simp only [Surface.Path.withoutLayout, Context.path, List.isEmpty_map]
    split
    · rfl
    · simp only [LoweringError.spanless_bind, negatedMembers_withoutSpan]
  | group path span ih => exact ih
  | inverse _ _ ih | zeroOrMore _ _ ih | oneOrMore _ _ ih | zeroOrOne _ _ ih =>
    simp only [Surface.Path.withoutLayout, Context.path, LoweringError.spanless_bind, ih]
  | sequence _ _ _ ofLeft ofRight | alternative _ _ _ ofLeft ofRight =>
    simp only [Surface.Path.withoutLayout, Context.path, LoweringError.spanless_bind, ofLeft,
      ofRight]

end Context

/-! ### Triples -/

/-- The predicate without layout, where its path is not treated yet. -/
def FlatPredicate.withoutLayout : FlatPredicate → FlatPredicate
  | .term value => .term value
  | .path written => .path written.withoutLayout

/-- The triple without layout, where its path is not treated yet. -/
def FlatTriple.withoutLayout (triple : FlatTriple) : FlatTriple :=
  { triple with predicate := triple.predicate.withoutLayout }

namespace Context

variable (context : Context)

/-- A path of one IRI is treated like the IRI. -/
theorem predicate_withoutLayout (verb : Verb) :
    LoweringError.spanless (context.predicate verb.withoutLayout)
      = FlatPredicate.withoutLayout <$> LoweringError.spanless (context.predicate verb) := by
  cases verb with
  | simple name =>
    simp only [Verb.withoutLayout, predicate, LoweringError.spanless_bind, varOrIri_withoutSpan,
      LoweringError.spanless_pure, map_bind, map_pure, FlatPredicate.withoutLayout]
  | path route =>
    rw [Verb.withoutLayout, ← Surface.Path.withoutLayout_unwrapped, predicate]
    cases isUnwrapped : route.unwrapped with
    | group inner => exact absurd isUnwrapped (Surface.Path.unwrapped_ne_group route inner _)
    | iri name =>
      simp only [Surface.Path.withoutLayout, predicate, varOrIri, LoweringError.spanless_bind,
        namedNode_withoutSpan, LoweringError.spanless_pure, map_bind, map_pure, bind_assoc,
        pure_bind, FlatPredicate.withoutLayout]
    | _ => rfl

mutual

theorem node_withoutLayout : ∀ node : GraphNode,
    Lowering.spanless (context.node node.withoutLayout)
      = (fun result => (result.1, result.2.map FlatTriple.withoutLayout))
        <$> Lowering.spanless (context.node node)
  | .term value => by
    simp only [GraphNode.withoutLayout, node, Lowering.spanless_bind, term_withoutSpan,
      Lowering.spanless_pure, map_bind, map_pure, List.map_nil]
  | .collection items => by
    simp only [GraphNode.withoutLayout, node, GraphNode.length_itemsWithoutLayout,
      Lowering.spanless_bind, listTriples_withoutLayout items, Lowering.spanless_pure, map_bind,
      map_pure, bind_map_left]
  | .properties entries => by
    simp only [GraphNode.withoutLayout, node, Lowering.spanless_bind,
      propertyTriples_withoutLayout entries, Lowering.spanless_pure, map_bind, map_pure,
      bind_map_left]

theorem listTriples_withoutLayout :
    ∀ (items : List GraphNode) (cells : List Term) (nil : Term),
    Lowering.spanless (context.listTriples (GraphNode.itemsWithoutLayout items) cells nil)
      = List.map FlatTriple.withoutLayout
        <$> Lowering.spanless (context.listTriples items cells nil)
  | item :: items, cell :: cells, nil => by
    simp only [GraphNode.itemsWithoutLayout, listTriples, Lowering.spanless_bind,
      node_withoutLayout item, listTriples_withoutLayout items cells nil, Lowering.spanless_pure,
      map_bind, map_pure, bind_map_left, List.map_append]
    rfl
  | [], _, _ => rfl
  | _ :: _, [], _ => rfl

theorem propertyTriples_withoutLayout :
    ∀ (entries : List (Verb × GraphNode)) (subject : Term),
    Lowering.spanless (context.propertyTriples subject (GraphNode.entriesWithoutLayout entries))
      = List.map FlatTriple.withoutLayout
        <$> Lowering.spanless (context.propertyTriples subject entries)
  | [], _ => rfl
  | (verb, object) :: entries, subject => by
    simp only [GraphNode.entriesWithoutLayout, propertyTriples, Lowering.spanless_bind,
      Lowering.spanless_lift, predicate_withoutLayout, Lowering.lift_map,
      node_withoutLayout object, propertyTriples_withoutLayout entries subject,
      Lowering.spanless_pure, map_bind, map_pure, bind_map_left, List.map_append, List.map_cons]
    rfl

end

theorem triples_withoutLayout (written : List Surface.Triple) :
    Lowering.spanless (context.triples (written.map Surface.Triple.withoutLayout))
      = List.map FlatTriple.withoutLayout <$> Lowering.spanless (context.triples written) := by
  induction written with
  | nil => rfl
  | cons triple rest ih =>
    simp only [List.map_cons, Context.triples, Context.triple, Surface.Triple.withoutLayout,
      Lowering.spanless_bind, Lowering.spanless_lift, node_withoutLayout, predicate_withoutLayout,
      Lowering.lift_map, ih, Lowering.spanless_pure, map_bind, map_pure, bind_map_left, bind_assoc,
      pure_bind, List.map_append]
    rfl

theorem allFragments_withoutLayout (flat : List FlatTriple) :
    Lowering.spanless (context.allFragments (flat.map FlatTriple.withoutLayout))
      = Lowering.spanless (context.allFragments flat) := by
  have ofTriple : ∀ triple : FlatTriple,
      Lowering.spanless (context.tripleFragments triple.withoutLayout)
        = Lowering.spanless (context.tripleFragments triple) := by
    intro ⟨subject, predicate, object⟩
    cases predicate with
    | term predicate => rfl
    | path written =>
      simp only [FlatTriple.withoutLayout, FlatPredicate.withoutLayout, tripleFragments,
        Lowering.spanless_bind, Lowering.spanless_lift, path_withoutLayout]
  induction flat with
  | nil => rfl
  | cons triple rest ih =>
    simp only [List.map_cons, allFragments, Lowering.spanless_bind, ofTriple, ih]

theorem basicGraphPattern_withoutLayout (written : List Surface.Triple) :
    Lowering.spanless (context.basicGraphPattern (written.map Surface.Triple.withoutLayout))
      = Lowering.spanless (context.basicGraphPattern written) := by
  simp only [basicGraphPattern, Lowering.spanless_bind, triples_withoutLayout, bind_map_left,
    allFragments_withoutLayout]

theorem template_withoutLayout (graph : Term) (written : List Surface.Triple) :
    Lowering.spanless (context.template graph (written.map Surface.Triple.withoutLayout))
      = Lowering.spanless (context.template graph written) := by
  have ofPattern : ∀ triple : FlatTriple,
      LoweringError.spanless (templatePattern graph triple.withoutLayout)
        = LoweringError.spanless (templatePattern graph triple) := by
    intro ⟨subject, predicate, object⟩
    cases predicate <;> rfl
  have ofPatterns : ∀ flat : List FlatTriple,
      LoweringError.spanless (templatePatterns graph (flat.map FlatTriple.withoutLayout))
        = LoweringError.spanless (templatePatterns graph flat) := by
    intro flat
    induction flat with
    | nil => rfl
    | cons triple rest ih =>
      simp only [List.map_cons, templatePatterns, LoweringError.spanless_bind, ofPattern, ih]
  simp only [template, Lowering.spanless_bind, triples_withoutLayout, bind_map_left,
    Lowering.spanless_lift, ofPatterns]

/-! ### Clauses -/

theorem callee_withoutSpan (function : Surface.Function) :
    LoweringError.spanless (context.callee (function.mapIris Surface.Iri.withoutSpan))
      = LoweringError.spanless (context.callee function) := by
  cases function with
  | builtin => rfl
  | named iri =>
    simp only [Surface.Function.mapIris, callee, LoweringError.spanless_bind, namedNode_withoutSpan]

theorem overDataset_withoutSpan (dataset : Option Surface.Dataset) (operation : Operation) :
    LoweringError.spanless
        (context.overDataset (dataset.map (Surface.Dataset.mapIris Surface.Iri.withoutSpan))
          operation)
      = LoweringError.spanless (context.overDataset dataset operation) := by
  cases dataset with
  | none => rfl
  | some dataset =>
    simp only [Option.map_some, overDataset, Surface.Dataset.isEmpty_mapIris]
    split
    · rfl
    · simp only [Surface.Dataset.mapIris, LoweringError.spanless_bind, namedNodes_withoutSpan]

theorem joinedWith_withoutSpan (values : Option Surface.InlineData) (operation : Operation) :
    Lowering.spanless (context.joinedWith
        (values.map (Surface.InlineData.mapIris Surface.Iri.withoutSpan)) operation)
      = Lowering.spanless (context.joinedWith values operation) := by
  cases values with
  | none => rfl
  | some data =>
    simp only [Option.map_some, joinedWith, Lowering.spanless_bind, inlineData_withoutSpan]

theorem shown_withoutLayout (projection : Surface.Projection) (pattern : Surface.Pattern)
    (values : Option Surface.InlineData) (selected : List (Variable × Option Expression)) :
    context.shown projection.withoutLayout pattern.withoutLayout
        (values.map (Surface.InlineData.mapIris Surface.Iri.withoutSpan)) selected
      = context.shown projection pattern values selected := by
  cases projection with
  | all =>
    rw [Surface.Projection.withoutLayout, shown, shown]
    exact congrArg (List.map context.var)
      (Surface.starVariables_withoutLayout (some pattern) values)
  | items => rfl

end Context

end QueryAlgebra
