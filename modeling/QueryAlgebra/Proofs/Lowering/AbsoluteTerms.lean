import QueryAlgebra.Proofs.Lowering.Segments
import QueryAlgebra.Proofs.Lowering.WellFormedTerms
import QueryAlgebra.Proofs.Operation.Iris

/-! # What terms and triples become has absolute IRIs

Over no base or an absolute one, whatever an IRI resolves to is absolute. So are the IRIs of the
terms, inline data, basic graph patterns and templates of a request.
-/

namespace QueryAlgebra

open Lowering (Yields)

/-- The IRIs of a predicate; those of a path are not resolved yet. -/
def FlatPredicate.iris : FlatPredicate → List NamedNode
  | .term value => value.iris
  | .path _ => []

/-- The IRIs of a triple that is spelled out. -/
def FlatTriple.iris (triple : FlatTriple) : List NamedNode :=
  triple.subject.iris ++ triple.predicate.iris ++ triple.object.iris

/-- The IRIs of a piece of a basic graph pattern. -/
def Fragment.iris : Fragment → List NamedNode
  | .pattern triple => triple.iris
  | .path subject predicate object graph =>
    predicate.iris ++ [subject, object, graph].flatMap Term.iris

namespace Path

/-- The IRIs of a sequence or an alternative are those of its parts. -/
theorem allAbsolute_iff {paths : List Path} :
    AllAbsolute (irisOfAll paths) ↔ ∀ path ∈ paths, AllAbsolute path.iris := by
  induction paths with
  | nil => simp [irisOfAll]
  | cons path rest ih => rw [irisOfAll, AllAbsolute.append, ih, List.forall_mem_cons]

theorem absolute_steps {path : Path} (absolute : AllAbsolute path.iris) :
    ∀ step ∈ path.steps, AllAbsolute step.iris := by
  cases path with
  | seq steps => exact allAbsolute_iff.1 absolute
  | _ => exact List.forall_mem_singleton.2 absolute

theorem absolute_branches {path : Path} (absolute : AllAbsolute path.iris) :
    ∀ branch ∈ path.branches, AllAbsolute branch.iris := by
  cases path with
  | alt branches => exact allAbsolute_iff.1 absolute
  | _ => exact List.forall_mem_singleton.2 absolute

theorem absolute_sequence {left right : Path} (ofLeft : AllAbsolute left.iris)
    (ofRight : AllAbsolute right.iris) : AllAbsolute (sequence [left, right]).iris := by
  refine allAbsolute_iff.2 (List.forall_mem_flatMap.2 (List.forall_mem_cons.2 ⟨?_, ?_⟩))
  · exact absolute_steps ofLeft
  · exact List.forall_mem_singleton.2 (absolute_steps ofRight)

theorem absolute_alternative {left right : Path} (ofLeft : AllAbsolute left.iris)
    (ofRight : AllAbsolute right.iris) : AllAbsolute (alternative [left, right]).iris := by
  refine allAbsolute_iff.2 (List.forall_mem_flatMap.2 (List.forall_mem_cons.2 ⟨?_, ?_⟩))
  · exact absolute_branches ofLeft
  · exact List.forall_mem_singleton.2 (absolute_branches ofRight)

end Path

namespace Operation

theorem absolute_ofFragments {fragments : List Fragment}
    (absolute : ∀ fragment ∈ fragments, AllAbsolute fragment.iris) :
    AllAbsolute (ofFragments fragments).iris := by
  refine ofFragments_cases (P := fun operation => AllAbsolute operation.iris)
    (fun patterns _ given => AllAbsolute.bgp.2 fun pattern isPattern => ?_)
    (fun _ _ _ _ given => absolute _ given) (AllAbsolute.bgp.2 (List.forall_mem_nil _))
    (fun _ => id) fun _ _ _ => .combine
  exact absolute _ (given pattern isPattern)

end Operation

/-- A context that makes plain terms, over no base or an absolute one. -/
structure Context.IsGrounded (context : Context) : Prop where
  plain : context.MakesPlain
  base : ∀ text, context.base = some text → Iri.isAbsolute text = true

namespace Context

variable {context : Context}

/-! ### IRIs and literals -/

/-- What follows for the terms of any request: their IRIs are absolute, whatever is called. -/
def resolving (graphs : Prop) : Guarantee where
  demands := { Surface.Demands.nothing with call := fun _ _ => False }
  clean := False
  strict := True
  graphs := graphs
  full := False.elim
  three := fun _ _ _ => False.elim
  updates := False.elim
  tight := False.elim

theorem IsGrounded.suits (grounded : context.IsGrounded) :
    context.Suits (resolving (context.quads = true)) :=
  ⟨grounded.plain, fun _ => grounded.base, Iff.rfl⟩

theorem absolute_namedNode (grounded : context.IsGrounded) {iri : Surface.Iri} {node : NamedNode}
    (success : context.namedNode iri = .ok node) : Iri.isAbsolute node.iri = true := by
  have settles := @settles_namedNode _ _ grounded.suits default iri trivial
  rw [success] at settles
  exact settles trivial

theorem absolute_namedNodes (grounded : context.IsGrounded) {iris : List Surface.Iri}
    {nodes : List NamedNode} (success : context.namedNodes iris = .ok nodes) :
    AllAbsolute nodes := by
  have settles := @settles_namedNodes _ _ grounded.suits default iris fun _ _ => trivial
  rw [success] at settles
  exact fun node member => settles node member trivial

theorem absolute_literal (grounded : context.IsGrounded) {literal : Surface.Literal}
    {value : Literal} (success : context.literal literal = .ok value) :
    Iri.isAbsolute value.datatype.iri = true := by
  have meets : literal.Meets (resolving (context.quads = true)).demands := by
    cases literal <;> exact trivial
  have settles := settles_literal grounded.suits default meets
  rw [success] at settles
  exact settles trivial

theorem absolute_varOrIri (grounded : context.IsGrounded) {name : Surface.VarOrIri} {term : Term}
    (success : context.varOrIri name = .ok term) : AllAbsolute term.iris := by
  cases name with
  | var name => cases success; exact .var _
  | iri iri =>
    rw [varOrIri] at success
    obtain ⟨node, isNode, success⟩ := ok_of_bind success
    cases success
    exact AllAbsolute.cons.2 ⟨absolute_namedNode grounded isNode, .nil⟩

/-- An IRI of the vocabulary is absolute. -/
theorem absolute_vocabulary (grounded : context.IsGrounded) {iri : String}
    (absolute : Iri.isAbsolute iri = true) : AllAbsolute (context.vocabulary iri).iris := by
  rw [vocabulary, grounded.plain]
  exact AllAbsolute.cons.2 ⟨absolute, .nil⟩

theorem absolute_defaultGraph (grounded : context.IsGrounded) :
    AllAbsolute context.factory.defaultGraph.iris := by
  rw [grounded.plain]
  exact .nil

/-! ### Terms -/

theorem absolute_newBlank (context : Context) :
    Yields (fun term : Term => AllAbsolute term.iris) context.newBlank :=
  .bind_any fun _ => .pure .nil

theorem absolute_term (grounded : context.IsGrounded) (term : Surface.Term) :
    Yields (fun term : Term => AllAbsolute term.iris) (context.term term) := by
  induction term with
  | var name => exact .pure (.var _)
  | iri iri =>
    rw [Context.term]
    exact .bind (.lift fun node => absolute_namedNode grounded) fun node absolute =>
      .pure (AllAbsolute.cons.2 ⟨absolute, .nil⟩)
  | literal literal =>
    rw [Context.term]
    exact .bind (.lift fun value => absolute_literal grounded) fun value absolute =>
      .pure (AllAbsolute.cons.2 ⟨absolute, .nil⟩)
  | blank label => exact .pure .nil
  | anonymous => exact absolute_newBlank context
  | quoted subject predicate object ofSubject ofObject =>
    rw [Context.term, quad_eq grounded.plain]
    refine ofSubject.bind fun subject ofSubject => ?_
    refine .bind (.lift fun value => absolute_varOrIri grounded) fun predicate ofPredicate => ?_
    exact ofObject.bind fun object ofObject =>
      .pure (AllAbsolute.quad.2 ⟨ofSubject, ofPredicate, ofObject, absolute_defaultGraph grounded⟩)

theorem absolute_row (grounded : context.IsGrounded) {names : List Variable}
    {cells : List (Option Surface.Term)} {row : Row}
    (absolute : ∀ entry ∈ row.entries, AllAbsolute entry.2.iris) :
    Yields (fun row : Row => ∀ entry ∈ row.entries, AllAbsolute entry.2.iris)
      (context.row names cells row) := by
  induction names generalizing cells row with
  | nil => cases cells <;> exact .pure absolute
  | cons name names ih =>
    cases cells with
    | nil => exact .pure absolute
    | cons cell cells =>
      cases cell with
      | none => exact ih absolute
      | some value =>
        rw [Context.row]
        refine (absolute_term grounded value).bind fun value ofValue => ih fun entry member => ?_
        rcases NameMap.key_of_mem_insertEntry member with rfl | member
        · exact ofValue
        · exact absolute entry member

theorem absolute_rows (grounded : context.IsGrounded) (names : List Variable)
    (lines : List (List (Option Surface.Term))) :
    Yields (fun rows => ∀ row : Row, row ∈ rows → ∀ entry ∈ row.entries, AllAbsolute entry.2.iris)
      (context.rows names lines) := by
  induction lines with
  | nil => exact .pure (List.forall_mem_nil _)
  | cons cells rest ih =>
    rw [Context.rows]
    refine (absolute_row grounded (List.forall_mem_nil _)).bind fun row ofRow => ?_
    exact ih.bind fun rows ofRows => .pure (List.forall_mem_cons.2 ⟨ofRow, ofRows⟩)

theorem absolute_values {vars : List Variable} {rows : List Row}
    (absolute : ∀ row ∈ rows, ∀ entry ∈ row.entries, AllAbsolute entry.2.iris) :
    AllAbsolute (Operator.values vars rows).ownIris := by
  refine AllAbsolute.flatMap.2 fun term member => ?_
  rcases List.mem_append.1 member with inHeader | inRows
  · obtain ⟨name, -, rfl⟩ := List.mem_map.1 inHeader
    exact .var name
  · obtain ⟨row, isRow, inRow⟩ := List.mem_flatMap.1 inRows
    obtain ⟨entry, isEntry, ofEntry⟩ := List.mem_flatMap.1 inRow
    rcases List.mem_cons.1 ofEntry with rfl | ofEntry
    · exact .var _
    · rw [List.mem_singleton.1 ofEntry]
      exact absolute row isRow entry isEntry

theorem absolute_inlineData (grounded : context.IsGrounded) (data : Surface.InlineData) :
    Yields (fun table : Operation => AllAbsolute table.iris) (context.inlineData data) := by
  rw [inlineData]
  exact (absolute_rows grounded _ _).bind fun rows absolute =>
    .pure (AllAbsolute.operation.2 ⟨.nil, absolute_values absolute⟩)

/-! ### Triples -/

theorem absolute_negatedMembers (grounded : context.IsGrounded)
    {members : List Surface.NegatedMember} {forward inverse : List NamedNode}
    (success : context.negatedMembers members = .ok (forward, inverse)) :
    AllAbsolute forward ∧ AllAbsolute inverse := by
  induction members generalizing forward inverse with
  | nil => cases success; exact ⟨.nil, .nil⟩
  | cons member rest ih =>
    rw [negatedMembers] at success
    obtain ⟨node, isNode, success⟩ := ok_of_bind success
    obtain ⟨⟨forward', inverse'⟩, areNodes, success⟩ := ok_of_bind success
    obtain ⟨ofForward, ofInverse⟩ := ih areNodes
    have ofNode := absolute_namedNode grounded isNode
    dsimp only at success
    split at success
    · cases success
      exact ⟨ofForward, AllAbsolute.cons.2 ⟨ofNode, ofInverse⟩⟩
    · cases success
      exact ⟨AllAbsolute.cons.2 ⟨ofNode, ofForward⟩, ofInverse⟩

private theorem absolute_negatedPath {forward inverse : List NamedNode}
    (ofForward : AllAbsolute forward) (ofInverse : AllAbsolute inverse) :
    AllAbsolute (negatedPath forward inverse).iris := by
  unfold negatedPath
  split
  · exact ofForward
  · exact ofInverse
  · exact Path.absolute_alternative ofForward ofInverse

theorem absolute_path (grounded : context.IsGrounded) {written : Surface.Path} {path : Path}
    (success : context.path written = .ok path) : AllAbsolute path.iris := by
  induction written generalizing path with
  | iri iri =>
    rw [Context.path] at success
    obtain ⟨node, isNode, success⟩ := ok_of_bind success
    cases success
    exact AllAbsolute.cons.2 ⟨absolute_namedNode grounded isNode, .nil⟩
  | type =>
    cases success
    rw [grounded.plain]
    exact AllAbsolute.cons.2 ⟨by decide +kernel, .nil⟩
  | group inner span ih => exact ih success
  | inverse inner span ih | zeroOrMore inner span ih | oneOrMore inner span ih
  | zeroOrOne inner span ih =>
    rw [Context.path] at success
    obtain ⟨below, isBelow, success⟩ := ok_of_bind success
    cases success
    exact (ih isBelow : AllAbsolute below.iris)
  | sequence left right span ofLeft ofRight =>
    rw [Context.path] at success
    obtain ⟨first, isFirst, success⟩ := ok_of_bind success
    obtain ⟨second, isSecond, success⟩ := ok_of_bind success
    cases success
    exact Path.absolute_sequence (ofLeft isFirst) (ofRight isSecond)
  | alternative left right span ofLeft ofRight =>
    rw [Context.path] at success
    obtain ⟨first, isFirst, success⟩ := ok_of_bind success
    obtain ⟨second, isSecond, success⟩ := ok_of_bind success
    cases success
    exact Path.absolute_alternative (ofLeft isFirst) (ofRight isSecond)
  | negated members span =>
    rw [Context.path] at success
    split at success
    · cases success
    · obtain ⟨⟨forward, inverse⟩, areNodes, success⟩ := ok_of_bind success
      cases success
      obtain ⟨ofForward, ofInverse⟩ := absolute_negatedMembers grounded areNodes
      exact absolute_negatedPath ofForward ofInverse

theorem absolute_predicate (grounded : context.IsGrounded) {verb : Surface.Verb}
    {predicate : FlatPredicate} (success : context.predicate verb = .ok predicate) :
    AllAbsolute predicate.iris := by
  cases verb with
  | simple name =>
    rw [Context.predicate] at success
    obtain ⟨term, isTerm, success⟩ := ok_of_bind success
    cases success
    exact absolute_varOrIri grounded isTerm
  | path path =>
    rw [Context.predicate] at success
    split at success
    · obtain ⟨node, isNode, success⟩ := ok_of_bind success
      cases success
      exact AllAbsolute.cons.2 ⟨absolute_namedNode grounded isNode, .nil⟩
    · cases success
      exact absolute_vocabulary grounded (by decide +kernel)
    · cases success
      exact .nil

theorem absolute_newCells (context : Context) (count : Nat) :
    Yields (fun cells : List Term => ∀ cell ∈ cells, AllAbsolute cell.iris)
      (context.newCells count) := by
  induction count with
  | zero => exact .pure (List.forall_mem_nil _)
  | succ count ih =>
    rw [newCells]
    exact (absolute_newBlank context).bind fun cell ofCell => ih.bind fun cells ofCells =>
      .pure (List.forall_mem_cons.2 ⟨ofCell, ofCells⟩)

private theorem absolute_headD {terms : List Term} {last : Term}
    (ofTerms : ∀ term ∈ terms, AllAbsolute term.iris) (ofLast : AllAbsolute last.iris) :
    AllAbsolute (terms.headD last).iris := by
  cases terms with
  | nil => exact ofLast
  | cons term => exact ofTerms term List.mem_cons_self

theorem absolute_cellTriples (grounded : context.IsGrounded) {cell value next : Term}
    (ofCell : AllAbsolute cell.iris) (ofValue : AllAbsolute value.iris)
    (ofNext : AllAbsolute next.iris) :
    ∀ triple ∈ context.cellTriples cell value next, AllAbsolute triple.iris := by
  have first : AllAbsolute (context.vocabulary Vocabulary.rdfFirst).iris :=
    absolute_vocabulary grounded (by decide +kernel)
  have rest : AllAbsolute (context.vocabulary Vocabulary.rdfRest).iris :=
    absolute_vocabulary grounded (by decide +kernel)
  refine List.forall_mem_cons.2 ⟨?_, List.forall_mem_singleton.2 ?_⟩
  · exact AllAbsolute.append.2 ⟨AllAbsolute.append.2 ⟨ofCell, first⟩, ofValue⟩
  · exact AllAbsolute.append.2 ⟨AllAbsolute.append.2 ⟨ofCell, rest⟩, ofNext⟩

mutual

theorem absolute_node (grounded : context.IsGrounded) : ∀ node : Surface.GraphNode,
    Yields (fun result : Term × List FlatTriple =>
      AllAbsolute result.1.iris ∧ ∀ triple ∈ result.2, AllAbsolute triple.iris)
      (context.node node)
  | .term value => by
    rw [node]
    exact (absolute_term grounded value).bind fun _ absolute =>
      .pure ⟨absolute, List.forall_mem_nil _⟩
  | .collection items => by
    have ofNil : AllAbsolute (context.vocabulary Vocabulary.rdfNil).iris :=
      absolute_vocabulary grounded (by decide +kernel)
    rw [node]
    exact (absolute_newCells context _).bind fun cells ofCells =>
      (absolute_listTriples grounded items ofCells ofNil).bind fun triples ofTriples =>
        .pure ⟨absolute_headD ofCells ofNil, ofTriples⟩
  | .properties entries => by
    rw [node]
    exact (absolute_newBlank context).bind fun subject ofSubject =>
      (absolute_propertyTriples grounded entries ofSubject).bind fun triples ofTriples =>
        .pure ⟨ofSubject, ofTriples⟩

theorem absolute_listTriples (grounded : context.IsGrounded) :
    ∀ (items : List Surface.GraphNode) {cells : List Term} {nil : Term},
    (∀ cell ∈ cells, AllAbsolute cell.iris) → AllAbsolute nil.iris →
    Yields (fun triples : List FlatTriple => ∀ triple ∈ triples, AllAbsolute triple.iris)
      (context.listTriples items cells nil)
  | item :: items, cell :: cells, nil, ofCells, ofNil => by
    rw [List.forall_mem_cons] at ofCells
    rw [listTriples]
    refine (absolute_node grounded item).bind fun ⟨value, triples⟩ ⟨ofValue, ofTriples⟩ => ?_
    refine (absolute_listTriples grounded items ofCells.2 ofNil).bind fun rest ofRest => .pure ?_
    have ofCell := absolute_cellTriples grounded ofCells.1 ofValue (absolute_headD ofCells.2 ofNil)
    exact List.forall_mem_append.2 ⟨List.forall_mem_append.2 ⟨ofTriples, ofCell⟩, ofRest⟩
  | [], _, _, _, _ | _ :: _, [], _, _, _ => .pure (List.forall_mem_nil _)

theorem absolute_propertyTriples (grounded : context.IsGrounded) :
    ∀ (entries : List (Surface.Verb × Surface.GraphNode)) {subject : Term},
    AllAbsolute subject.iris →
    Yields (fun triples : List FlatTriple => ∀ triple ∈ triples, AllAbsolute triple.iris)
      (context.propertyTriples subject entries)
  | [], _, _ => .pure (List.forall_mem_nil _)
  | (verb, object) :: entries, subject, ofSubject => by
    rw [propertyTriples]
    refine .bind (.lift fun predicate => absolute_predicate grounded)
      fun predicate ofPredicate => ?_
    refine (absolute_node grounded object).bind fun ⟨value, triples⟩ ⟨ofValue, ofTriples⟩ => ?_
    refine (absolute_propertyTriples grounded entries ofSubject).bind fun rest ofRest => .pure ?_
    have ofTriple : AllAbsolute (FlatTriple.mk subject predicate value).iris :=
      AllAbsolute.append.2 ⟨AllAbsolute.append.2 ⟨ofSubject, ofPredicate⟩, ofValue⟩
    exact List.forall_mem_append.2 ⟨ofTriples, List.forall_mem_cons.2 ⟨ofTriple, ofRest⟩⟩

end

theorem absolute_triples (grounded : context.IsGrounded) (written : List Surface.Triple) :
    Yields (fun triples : List FlatTriple => ∀ triple ∈ triples, AllAbsolute triple.iris)
      (context.triples written) := by
  have ofTriple : ∀ triple : Surface.Triple,
      Yields (fun triples : List FlatTriple => ∀ triple ∈ triples, AllAbsolute triple.iris)
        (context.triple triple) := by
    intro triple
    rw [Context.triple]
    refine (absolute_node grounded triple.subject).bind
      fun ⟨subject, first⟩ ⟨ofSubject, ofFirst⟩ => ?_
    refine .bind (.lift fun predicate => absolute_predicate grounded)
      fun predicate ofPredicate => ?_
    refine (absolute_node grounded triple.object).bind
      fun ⟨object, second⟩ ⟨ofObject, ofSecond⟩ => ?_
    have whole : AllAbsolute (FlatTriple.mk subject predicate object).iris :=
      AllAbsolute.append.2 ⟨AllAbsolute.append.2 ⟨ofSubject, ofPredicate⟩, ofObject⟩
    exact .pure (List.forall_mem_append.2
      ⟨List.forall_mem_append.2 ⟨ofFirst, ofSecond⟩, List.forall_mem_singleton.2 whole⟩)
  induction written with
  | nil => exact .pure (List.forall_mem_nil _)
  | cons triple rest ih =>
    rw [triples]
    exact (ofTriple triple).bind fun first ofFirst => ih.bind fun others ofOthers =>
      .pure (List.forall_mem_append.2 ⟨ofFirst, ofOthers⟩)

private theorem absolute_pathFragment (grounded : context.IsGrounded) {path : Path}
    {subject object : Term} (ofPath : AllAbsolute path.iris) (ofSubject : AllAbsolute subject.iris)
    (ofObject : AllAbsolute object.iris) :
    AllAbsolute (Fragment.path subject path object context.factory.defaultGraph).iris := by
  refine AllAbsolute.append.2 ⟨ofPath, AllAbsolute.flatMap.2 ?_⟩
  rw [List.forall_mem_cons, List.forall_mem_cons, List.forall_mem_singleton]
  exact ⟨ofSubject, ofObject, absolute_defaultGraph grounded⟩

mutual

theorem absolute_fragments (grounded : context.IsGrounded) :
    ∀ (path : Path) {subject object : Term},
    AllAbsolute path.iris → AllAbsolute subject.iris → AllAbsolute object.iris →
    Yields (fun fragments => ∀ fragment ∈ fragments, AllAbsolute fragment.iris)
      (context.fragments subject path object)
  | .link predicate, subject, object, ofPath, ofSubject, ofObject => by
    have ofPredicate : AllAbsolute (Term.iri predicate).iris := ofPath
    rw [fragments]
    exact .pure (List.forall_mem_singleton.2 (AllAbsolute.pattern.2
      ⟨ofSubject, ofPredicate, ofObject, absolute_defaultGraph grounded⟩))
  | .inverse path, subject, object, ofPath, ofSubject, ofObject => by
    rw [fragments]
    exact absolute_fragments grounded path ofPath ofObject ofSubject
  | .seq steps, subject, object, ofPath, ofSubject, ofObject => by
    rw [fragments]
    exact absolute_stepFragments grounded steps (Path.allAbsolute_iff.1 ofPath) ofSubject ofObject
  | .alt _, _, _, ofPath, ofSubject, ofObject | .zeroOrMore _, _, _, ofPath, ofSubject, ofObject
  | .oneOrMore _, _, _, ofPath, ofSubject, ofObject
  | .zeroOrOne _, _, _, ofPath, ofSubject, ofObject
  | .negated _, _, _, ofPath, ofSubject, ofObject => by
    simp only [fragments]
    exact .pure (List.forall_mem_singleton.2
      (absolute_pathFragment grounded ofPath ofSubject ofObject))

theorem absolute_stepFragments (grounded : context.IsGrounded) :
    ∀ (steps : List Path) {subject object : Term},
    (∀ step ∈ steps, AllAbsolute step.iris) → AllAbsolute subject.iris → AllAbsolute object.iris →
    Yields (fun fragments => ∀ fragment ∈ fragments, AllAbsolute fragment.iris)
      (context.stepFragments subject steps object)
  | [], _, _, _, ofSubject, ofObject => by
    rw [stepFragments]
    exact .pure (List.forall_mem_singleton.2
      (absolute_pathFragment grounded .nil ofSubject ofObject))
  | [step], _, _, ofSteps, ofSubject, ofObject => by
    rw [stepFragments]
    exact absolute_fragments grounded step (ofSteps step List.mem_cons_self) ofSubject ofObject
  | step :: next :: steps, _, _, ofSteps, ofSubject, ofObject => by
    rw [List.forall_mem_cons] at ofSteps
    rw [stepFragments]
    exact .bind_any fun between =>
      (absolute_fragments grounded step ofSteps.1 ofSubject (.var _)).bind fun first ofFirst =>
      (absolute_stepFragments grounded (next :: steps) ofSteps.2 (.var _) ofObject).bind
        fun rest ofRest => .pure (List.forall_mem_append.2 ⟨ofFirst, ofRest⟩)

end

private theorem absolute_allFragments (grounded : context.IsGrounded) {flat : List FlatTriple}
    (absolute : ∀ triple ∈ flat, AllAbsolute triple.iris) :
    Yields (fun fragments => ∀ fragment ∈ fragments, AllAbsolute fragment.iris)
      (context.allFragments flat) := by
  have ofTriple : ∀ triple : FlatTriple, AllAbsolute triple.iris →
      Yields (fun fragments => ∀ fragment ∈ fragments, AllAbsolute fragment.iris)
        (context.tripleFragments triple) := by
    intro ⟨subject, predicate, object⟩ absolute
    obtain ⟨ofFirst, ofObject⟩ := AllAbsolute.append.1 absolute
    obtain ⟨ofSubject, ofPredicate⟩ := AllAbsolute.append.1 ofFirst
    cases predicate with
    | term predicate =>
      exact .pure (List.forall_mem_singleton.2 (AllAbsolute.pattern.2
        ⟨ofSubject, ofPredicate, ofObject, absolute_defaultGraph grounded⟩))
    | path written =>
      rw [tripleFragments]
      exact .bind (.lift fun path => absolute_path grounded) fun path ofPath =>
        absolute_fragments grounded path ofPath ofSubject ofObject
  induction flat with
  | nil => exact .pure (List.forall_mem_nil _)
  | cons triple rest ih =>
    rw [List.forall_mem_cons] at absolute
    rw [allFragments]
    exact (ofTriple triple absolute.1).bind fun first ofFirst => (ih absolute.2).bind
      fun others ofOthers => .pure (List.forall_mem_append.2 ⟨ofFirst, ofOthers⟩)

theorem absolute_basicGraphPattern (grounded : context.IsGrounded)
    (written : List Surface.Triple) :
    Yields (fun operation : Operation => AllAbsolute operation.iris)
      (context.basicGraphPattern written) := by
  rw [basicGraphPattern]
  exact (absolute_triples grounded written).bind fun flat ofFlat =>
    (absolute_allFragments grounded ofFlat).bind fun fragments ofFragments =>
      .pure (Operation.absolute_ofFragments ofFragments)

private theorem absolute_templatePatterns {graph : Term} (ofGraph : AllAbsolute graph.iris)
    {flat : List FlatTriple} (absolute : ∀ triple ∈ flat, AllAbsolute triple.iris)
    {patterns : List Pattern} (success : templatePatterns graph flat = .ok patterns) :
    ∀ pattern ∈ patterns, AllAbsolute pattern.iris := by
  induction flat generalizing patterns with
  | nil => cases success; exact List.forall_mem_nil _
  | cons triple rest ih =>
    obtain ⟨subject, predicate, object⟩ := triple
    rw [List.forall_mem_cons] at absolute
    rw [templatePatterns] at success
    obtain ⟨pattern, isPattern, success⟩ := ok_of_bind success
    obtain ⟨others, areOthers, success⟩ := ok_of_bind success
    cases success
    obtain ⟨ofFirst, ofObject⟩ := AllAbsolute.append.1 absolute.1
    obtain ⟨ofSubject, ofPredicate⟩ := AllAbsolute.append.1 ofFirst
    cases predicate with
    | path => cases isPattern
    | term predicate =>
      cases isPattern
      exact List.forall_mem_cons.2
        ⟨AllAbsolute.pattern.2 ⟨ofSubject, ofPredicate, ofObject, ofGraph⟩,
          ih absolute.2 areOthers⟩

theorem absolute_template (grounded : context.IsGrounded) {graph : Term}
    (ofGraph : AllAbsolute graph.iris) (written : List Surface.Triple) :
    Yields (fun patterns => ∀ pattern ∈ patterns, AllAbsolute pattern.iris)
      (context.template graph written) := by
  rw [template]
  exact (absolute_triples grounded written).bind fun flat ofFlat =>
    .lift fun patterns => absolute_templatePatterns ofGraph ofFlat

end Context

end QueryAlgebra
