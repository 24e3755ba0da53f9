import QueryAlgebra.Proofs.Lowering.Segments
import QueryAlgebra.Proofs.Lowering.WellFormedTerms

/-! # What triples become

Triples that are spelled out stand between terms that may be subjects and objects, property paths
have members, and what both become is a well-formed operation or template.
-/

namespace QueryAlgebra

section

variable {bounds : Bounds}

/-! ### Paths -/

theorem Path.WellFormed.branches {path : Path} (wellFormed : path.WellFormed bounds) :
    path.branches ≠ [] ∧ ∀ branch ∈ path.branches, branch.WellFormed bounds := by
  cases path with
  | alt branches => exact ⟨wellFormed.1, allWellFormed_iff.1 wellFormed.2⟩
  | _ => exact ⟨List.cons_ne_nil _ _, List.forall_mem_singleton.2 wellFormed⟩

theorem Path.WellFormed.steps {path : Path} (wellFormed : path.WellFormed bounds) :
    path.steps ≠ [] ∧ ∀ step ∈ path.steps, step.WellFormed bounds := by
  cases path with
  | seq steps => exact ⟨wellFormed.1, allWellFormed_iff.1 wellFormed.2⟩
  | _ => exact ⟨List.cons_ne_nil _ _, List.forall_mem_singleton.2 wellFormed⟩

private theorem wellFormed_parts {parts : Path → List Path} {paths : List Path}
    (each : ∀ path ∈ paths, parts path ≠ [] ∧ ∀ part ∈ parts path, part.WellFormed bounds)
    (nonempty : paths ≠ []) :
    paths.flatMap parts ≠ [] ∧ Path.allWellFormed bounds (paths.flatMap parts) := by
  constructor
  · obtain ⟨path, member⟩ := List.exists_mem_of_ne_nil _ nonempty
    exact fun empty => (each path member).1 (List.flatMap_eq_nil_iff.1 empty path member)
  · rw [Path.allWellFormed_iff]
    intro part member
    obtain ⟨path, inPaths, ofPath⟩ := List.mem_flatMap.1 member
    exact (each path inPaths).2 part ofPath

theorem Path.wellFormed_alternative {paths : List Path} (nonempty : paths ≠ [])
    (wellFormed : ∀ path ∈ paths, path.WellFormed bounds) :
    (alternative paths).WellFormed bounds :=
  wellFormed_parts (fun path member => (wellFormed path member).branches) nonempty

theorem Path.wellFormed_sequence {paths : List Path} (nonempty : paths ≠ [])
    (wellFormed : ∀ path ∈ paths, path.WellFormed bounds) : (sequence paths).WellFormed bounds :=
  wellFormed_parts (fun path member => (wellFormed path member).steps) nonempty

theorem Context.wellFormed_negatedPath {forward inverse : List NamedNode}
    (nonempty : forward ++ inverse ≠ []) (full : ∀ node ∈ forward ++ inverse, node.IsFull bounds) :
    (negatedPath forward inverse).WellFormed bounds := by
  rw [List.forall_mem_append] at full
  cases forward with
  | nil =>
    cases inverse with
    | nil => exact absurd rfl nonempty
    | cons => exact ⟨List.cons_ne_nil _ _, full.2⟩
  | cons =>
    cases inverse with
    | nil => exact ⟨List.cons_ne_nil _ _, full.1⟩
    | cons =>
      refine Path.wellFormed_alternative (List.cons_ne_nil _ _) (List.forall_mem_cons.2 ⟨?_, ?_⟩)
      · exact ⟨List.cons_ne_nil _ _, full.1⟩
      · exact List.forall_mem_singleton.2 ⟨List.cons_ne_nil _ _, full.2⟩

/-! ### Pieces of patterns -/

/-- A piece of a basic graph pattern that is well-formed. -/
def Fragment.WellFormed (bounds : Bounds) : Fragment → Prop
  | .pattern triple => triple.WellFormed bounds
  | .path subject predicate object graph =>
    subject.IsNode bounds ∧ predicate.WellFormed bounds ∧ object.IsNode bounds
      ∧ graph.IsGraph bounds

theorem Bounds.Le.fragment {wider : Bounds} (le : bounds.Le wider) {fragment : Fragment}
    (wellFormed : fragment.WellFormed bounds) : fragment.WellFormed wider := by
  cases fragment with
  | pattern pattern => exact le.pattern wellFormed
  | path subject predicate object graph =>
    obtain ⟨ofSubject, ofPredicate, ofObject, ofGraph⟩ := wellFormed
    exact ⟨le.isNode ofSubject, le.path predicate ofPredicate, le.isNode ofObject, le.isGraph ofGraph⟩

namespace Operation

/-- The parts that a well-formed operation contributes to a join or union are well-formed. -/
theorem WellFormed.parts {operation : Operation} {how : Combination}
    (isPattern : operation.IsPattern bounds) :
    ∀ part ∈ operation.parts how, part.IsPattern bounds := by
  have itself := List.forall_mem_singleton.2 isPattern
  obtain ⟨operator, metadata⟩ := operation
  cases operator with
  | combine kind inputs =>
    cases metadata with
    | some => exact itself
    | none =>
      rw [Operation.parts]
      split
      · cases kind with
        | join | union => exact allWellFormed_iff.1 isPattern.2
        | updates => cases isPattern
      · exact itself
  | _ => exact itself

theorem isPattern_join {inputs : List Operation}
    (arePatterns : ∀ input ∈ inputs, input.IsPattern bounds) : (join inputs).IsPattern bounds := by
  refine ⟨rfl, allWellFormed_iff.2 fun part member => ?_⟩
  obtain ⟨input, isInput, ofInput⟩ := List.mem_flatMap.1 member
  exact (arePatterns input isInput).parts part ofInput

theorem isPattern_union {inputs : List Operation}
    (arePatterns : ∀ input ∈ inputs, input.IsPattern bounds) : (union inputs).IsPattern bounds := by
  refine ⟨rfl, allWellFormed_iff.2 fun part member => ?_⟩
  obtain ⟨input, isInput, ofInput⟩ := List.mem_flatMap.1 member
  exact (arePatterns input isInput).parts part ofInput

theorem isPattern_bgp {patterns : List Pattern}
    (wellFormed : ∀ pattern ∈ patterns, pattern.WellFormed bounds) :
    (bgp patterns).IsPattern bounds := ⟨rfl, wellFormed⟩

theorem isPattern_ofFragments {fragments : List Fragment}
    (wellFormed : ∀ fragment ∈ fragments, fragment.WellFormed bounds) :
    (ofFragments fragments).IsPattern bounds := by
  refine ofFragments_cases (fun patterns _ given => isPattern_bgp fun pattern isPattern => ?_)
    (fun _ _ _ _ given => ⟨rfl, wellFormed _ given⟩) (isPattern_bgp (List.forall_mem_nil _))
    (fun _ => id) fun members _ _ arePatterns => ⟨rfl, allWellFormed_iff.2 arePatterns⟩
  exact wellFormed _ (given pattern isPattern)

end Operation

end

/-- A predicate of a triple that is spelled out; a path meets demands. -/
def FlatPredicate.WellFormed (bounds : Bounds) (demands : Surface.Demands) (template : Bool) :
    FlatPredicate → Prop
  | .term value => value.IsName bounds
  | .path route => (template = true → demands.loose) ∧ route.Meets demands

/-- A triple that is spelled out, whose path meets demands. -/
structure FlatTriple.WellFormed (bounds : Bounds) (demands : Surface.Demands) (template : Bool)
    (triple : FlatTriple) : Prop where
  subject : triple.subject.IsNode bounds
  predicate : triple.predicate.WellFormed bounds demands template
  object : triple.object.IsNode bounds

namespace Bounds.Le

variable {bounds wider : Bounds} {demands : Surface.Demands} {template : Bool}

theorem flatPredicate (le : bounds.Le wider) {predicate : FlatPredicate}
    (wellFormed : predicate.WellFormed bounds demands template) :
    predicate.WellFormed wider demands template := by
  cases predicate with
  | term value => exact le.isName (show value.IsName bounds from wellFormed)
  | path route => exact wellFormed

theorem flatTriple (le : bounds.Le wider) {triple : FlatTriple}
    (wellFormed : triple.WellFormed bounds demands template) :
    triple.WellFormed wider demands template :=
  ⟨le.isNode wellFormed.subject, le.flatPredicate wellFormed.predicate,
    le.isNode wellFormed.object⟩

end Bounds.Le

theorem Surface.Path.Meets.unwrapped {demands : Surface.Demands} {path : Surface.Path}
    (meets : path.Meets demands) : path.unwrapped.Meets demands := by
  induction path with
  | group path span ih => exact ih meets
  | _ => exact meets

namespace Context

open Lowering (Behaves)

variable {context : Context} {guarantee : Guarantee} {supply : NameSupply} {template : Bool}

/-! ### Property paths -/

theorem isGraph_defaultGraph (suits : context.Suits guarantee) :
    context.factory.defaultGraph.IsGraph (guarantee.bounds supply) := by
  rw [suits.plain]
  exact .inl rfl

/-- The node of an absolute IRI is named in full. -/
theorem isFull_vocabulary (suits : context.Suits guarantee) {iri : String}
    (absolute : Iri.isAbsolute iri = true) :
    (context.factory.namedNode iri).IsFull (guarantee.bounds supply) := by
  rw [suits.plain]
  exact fun _ => absolute

private theorem settles_negatedMembers (suits : context.Suits guarantee) (supply : NameSupply)
    {members : List Surface.NegatedMember}
    (meets : ∀ member ∈ members, guarantee.demands.iri member.iri) :
    Settles guarantee.clean
      (fun sets => (∀ node ∈ sets.1 ++ sets.2, node.IsFull (guarantee.bounds supply))
        ∧ (sets.1 ++ sets.2).length = members.length)
      (context.negatedMembers members) := by
  induction members with
  | nil => exact ⟨List.forall_mem_nil _, rfl⟩
  | cons member rest ih =>
    rw [List.forall_mem_cons] at meets
    rw [negatedMembers]
    refine (settles_namedNode suits supply meets.1).bind fun node full => ?_
    refine (ih meets.2).bind fun sets ofRest => ?_
    obtain ⟨forward, inverse⟩ := sets
    obtain ⟨allFull, sameLength⟩ := ofRest
    simp only [List.length_append] at sameLength
    rw [List.forall_mem_append] at allFull
    cases member.isInverse with
    | false =>
      refine ⟨?_, by simp; omega⟩
      exact List.forall_mem_append.2 ⟨List.forall_mem_cons.2 ⟨full, allFull.1⟩, allFull.2⟩
    | true =>
      refine ⟨?_, by simp; omega⟩
      exact List.forall_mem_append.2 ⟨allFull.1, List.forall_mem_cons.2 ⟨full, allFull.2⟩⟩

theorem settles_path (suits : context.Suits guarantee) (supply : NameSupply) {path : Surface.Path}
    (meets : path.Meets guarantee.demands) :
    Settles guarantee.clean (Path.WellFormed (guarantee.bounds supply)) (context.path path) := by
  induction path with
  | iri iri =>
    rw [Context.path]
    exact (settles_namedNode suits supply meets).bind fun node full => full
  | type span =>
    rw [Context.path]
    exact isFull_vocabulary suits (by decide +kernel)
  | group path span ih => exact ih meets
  | inverse path span ih | zeroOrMore path span ih | oneOrMore path span ih
  | zeroOrOne path span ih =>
    rw [Context.path]
    exact (ih meets).bind fun path wellFormed => wellFormed
  | sequence left right span ihLeft ihRight =>
    rw [Context.path]
    refine (ihLeft meets.1).bind fun left ofLeft => (ihRight meets.2).bind fun right ofRight => ?_
    refine Path.wellFormed_sequence (List.cons_ne_nil _ _) (List.forall_mem_cons.2 ⟨ofLeft, ?_⟩)
    exact List.forall_mem_singleton.2 ofRight
  | alternative left right span ihLeft ihRight =>
    rw [Context.path]
    refine (ihLeft meets.1).bind fun left ofLeft => (ihRight meets.2).bind fun right ofRight => ?_
    refine Path.wellFormed_alternative (List.cons_ne_nil _ _) (List.forall_mem_cons.2 ⟨ofLeft, ?_⟩)
    exact List.forall_mem_singleton.2 ofRight
  | negated members span =>
    rw [Context.path]
    split
    · rename_i empty
      exact fun clean => guarantee.tight clean (meets.1 (List.isEmpty_iff.1 empty))
    · rename_i nonempty
      refine (settles_negatedMembers suits supply meets.2).bind fun sets ofSets => ?_
      refine wellFormed_negatedPath (List.ne_nil_of_length_pos ?_) ofSets.1
      rw [ofSets.2]
      exact List.length_pos_iff.2 fun empty => nonempty (List.isEmpty_iff.2 empty)

mutual

theorem behaves_fragments (suits : context.Suits guarantee) : ∀ (path : Path) {subject object : Term}
    {supply : NameSupply}, subject.IsNode (guarantee.bounds supply) →
    path.WellFormed (guarantee.bounds supply) → object.IsNode (guarantee.bounds supply) →
    Behaves guarantee.clean
      (fun after fragments => ∀ fragment ∈ fragments, fragment.WellFormed (guarantee.bounds after))
      (context.fragments subject path object) supply
  | .link predicate, _, _, _, ofSubject, full, ofObject => by
    rw [fragments]
    exact .pure (List.forall_mem_singleton.2
      ⟨ofSubject, full, ofObject, isGraph_defaultGraph suits⟩)
  | .inverse path, _, _, _, ofSubject, wellFormed, ofObject => by
    rw [fragments]
    exact behaves_fragments suits path ofObject wellFormed ofSubject
  | .seq steps, _, _, _, ofSubject, ⟨nonempty, wellFormed⟩, ofObject => by
    rw [fragments]
    exact behaves_stepFragments suits steps ofSubject nonempty wellFormed ofObject
  | .alt _, _, _, _, ofSubject, wellFormed, ofObject
  | .zeroOrMore _, _, _, _, ofSubject, wellFormed, ofObject
  | .oneOrMore _, _, _, _, ofSubject, wellFormed, ofObject
  | .zeroOrOne _, _, _, _, ofSubject, wellFormed, ofObject
  | .negated _, _, _, _, ofSubject, wellFormed, ofObject =>
    .pure (List.forall_mem_singleton.2
      ⟨ofSubject, wellFormed, ofObject, isGraph_defaultGraph suits⟩)

theorem behaves_stepFragments (suits : context.Suits guarantee) : ∀ (steps : List Path)
    {subject object : Term} {supply : NameSupply}, subject.IsNode (guarantee.bounds supply) →
    steps ≠ [] → Path.allWellFormed (guarantee.bounds supply) steps →
    object.IsNode (guarantee.bounds supply) →
    Behaves guarantee.clean
      (fun after fragments => ∀ fragment ∈ fragments, fragment.WellFormed (guarantee.bounds after))
      (context.stepFragments subject steps object) supply
  | [], _, _, _, _, nonempty, _, _ => absurd rfl nonempty
  | [step], _, _, _, ofSubject, _, ⟨ofStep, _⟩, ofObject => by
    rw [stepFragments]
    exact behaves_fragments suits step ofSubject ofStep ofObject
  | step :: next :: steps, _, _, _, ofSubject, _, ⟨ofStep, ofRest⟩, ofObject => by
    rw [stepFragments]
    refine (behaves_newVariable suits).bind fun between s₁ gives₁ isAllowed => ?_
    have le₁ := guarantee.bounds_le gives₁
    have ofBetween : (Term.var between).IsNode (guarantee.bounds s₁) := isAllowed
    refine (behaves_fragments suits step (le₁.isNode ofSubject) (le₁.path step ofStep)
      ofBetween).bind fun first s₂ gives₂ ofFirst => ?_
    have le₂ := guarantee.bounds_le gives₂
    refine (behaves_stepFragments suits (next :: steps) (le₂.isNode ofBetween)
      (List.cons_ne_nil _ _) (le₂.allPaths _ (le₁.allPaths _ ofRest))
      (le₂.isNode (le₁.isNode ofObject))).bind fun rest s₃ gives₃ ofRest => .pure ?_
    refine List.forall_mem_append.2 ⟨fun fragment member => ?_, ofRest⟩
    exact (guarantee.bounds_le gives₃).fragment (ofFirst fragment member)

end

/-! ### Spelling out triples -/

theorem settles_predicate (suits : context.Suits guarantee) {verb : Surface.Verb}
    (covers : supply.Covers verb.names) (meets : verb.Meets guarantee.demands template) :
    Settles guarantee.clean
      (FlatPredicate.WellFormed (guarantee.bounds supply) guarantee.demands template)
      (context.predicate verb) := by
  cases verb with
  | simple name =>
    rw [Context.predicate]
    exact (settles_varOrIri suits covers meets).bind fun value isName => isName
  | path route =>
    have unwrapped := Surface.Path.Meets.unwrapped meets.2
    rw [Context.predicate]
    split
    · rename_i iri isIri
      rw [isIri] at unwrapped
      exact (settles_namedNode suits supply unwrapped).bind fun node full => full
    · exact isFull_vocabulary suits (by decide +kernel)
    · exact ⟨meets.1, unwrapped⟩

private theorem behaves_newCells (suits : context.Suits guarantee) (count : Nat) :
    Behaves guarantee.clean
      (fun after cells => ∀ cell ∈ cells, cell.IsNode (guarantee.bounds after))
      (context.newCells count) supply := by
  induction count generalizing supply with
  | zero => exact .pure (List.forall_mem_nil _)
  | succ count ih =>
    rw [newCells]
    refine (behaves_newBlank suits).bind fun cell s₁ gives₁ isNode => ?_
    refine ih.bind fun cells s₂ gives₂ areNodes => .pure ?_
    exact List.forall_mem_cons.2 ⟨(guarantee.bounds_le gives₂).isNode isNode, areNodes⟩

/-- Triples that are spelled out within the bounds of a passage. -/
def AllFlat (guarantee : Guarantee) (template : Bool) (supply : NameSupply)
    (triples : List FlatTriple) : Prop :=
  ∀ triple ∈ triples,
    triple.WellFormed (guarantee.bounds supply) guarantee.demands template

theorem AllFlat.mono {after : NameSupply} {triples : List FlatTriple}
    (allFlat : AllFlat guarantee template supply triples) (gives : supply.Gives after) :
    AllFlat guarantee template after triples := fun triple member =>
  (guarantee.bounds_le gives).flatTriple (allFlat triple member)

theorem AllFlat.append {first second : List FlatTriple}
    (ofFirst : AllFlat guarantee template supply first)
    (ofSecond : AllFlat guarantee template supply second) :
    AllFlat guarantee template supply (first ++ second) :=
  List.forall_mem_append.2 ⟨ofFirst, ofSecond⟩

private theorem isNode_headD {bounds : Bounds} {cells : List Term} {last : Term}
    (areNodes : ∀ cell ∈ cells, cell.IsNode bounds) (isNode : last.IsNode bounds) :
    (cells.headD last).IsNode bounds := by
  cases cells with
  | nil => exact isNode
  | cons cell rest => exact areNodes cell List.mem_cons_self

private theorem allFlat_cellTriples (suits : context.Suits guarantee) {cell value next : Term}
    (ofCell : cell.IsNode (guarantee.bounds supply))
    (ofValue : value.IsNode (guarantee.bounds supply))
    (ofNext : next.IsNode (guarantee.bounds supply)) :
    AllFlat guarantee template supply (context.cellTriples cell value next) :=
  List.forall_mem_cons.2 ⟨⟨ofCell, isFull_vocabulary suits (by decide +kernel), ofValue⟩,
    List.forall_mem_singleton.2 ⟨ofCell, isFull_vocabulary suits (by decide +kernel), ofNext⟩⟩

mutual

theorem behaves_node (suits : context.Suits guarantee) : ∀ (node : Surface.GraphNode)
    {supply : NameSupply}, supply.Covers node.names → node.Meets guarantee.demands template →
    Behaves guarantee.clean
      (fun after result => result.1.IsNode (guarantee.bounds after)
        ∧ AllFlat guarantee template after result.2)
      (context.node node) supply
  | .term value, _, covers, meets => by
    rw [Context.node]
    exact (behaves_term suits covers meets).bind fun value after gives isNode =>
      .pure ⟨isNode, List.forall_mem_nil _⟩
  | .collection items, supply, covers, meets => by
    have ofNil {supply : NameSupply} :
        (context.vocabulary Vocabulary.rdfNil).IsNode (guarantee.bounds supply) :=
      isFull_vocabulary suits (by decide +kernel)
    rw [Context.node]
    refine (behaves_newCells suits items.length).bind fun cells s₁ gives₁ areNodes => ?_
    refine (behaves_listTriples suits items (covers.mono gives₁) meets areNodes ofNil).bind
      fun triples s₂ gives₂ allFlat => .pure ⟨?_, allFlat⟩
    exact isNode_headD (fun cell member => (guarantee.bounds_le gives₂).isNode (areNodes cell member))
      ofNil
  | .properties entries, _, covers, meets => by
    rw [Context.node]
    refine (behaves_newBlank suits).bind fun subject s₁ gives₁ isNode => ?_
    exact (behaves_propertyTriples suits entries (covers.mono gives₁) meets isNode).bind
      fun triples s₂ gives₂ allFlat => .pure ⟨(guarantee.bounds_le gives₂).isNode isNode, allFlat⟩

theorem behaves_listTriples (suits : context.Suits guarantee) : ∀ (items : List Surface.GraphNode)
    {cells : List Term} {last : Term} {supply : NameSupply},
    supply.Covers (Surface.GraphNode.namesOfItems items) →
    Surface.GraphNode.itemsMeet guarantee.demands template items →
    (∀ cell ∈ cells, cell.IsNode (guarantee.bounds supply)) →
    last.IsNode (guarantee.bounds supply) →
    Behaves guarantee.clean (AllFlat guarantee template) (context.listTriples items cells last) supply
  | [], _, _, _, _, _, _, _ => by
    rw [listTriples]
    · exact .pure (List.forall_mem_nil _)
    · intros; contradiction
  | _ :: _, [], _, _, _, _, _, _ => .pure (List.forall_mem_nil _)
  | item :: items, cell :: cells, last, supply, covers, meets, areNodes, ofLast => by
    simp only [Surface.GraphNode.namesOfItems, NameSupply.covers_and] at covers
    rw [List.forall_mem_cons] at areNodes
    rw [listTriples]
    refine (behaves_node suits item covers.1 meets.1).bind fun result s₁ gives₁ ofItem => ?_
    have le₁ := guarantee.bounds_le gives₁
    have ofCells := fun other member => le₁.isNode (areNodes.2 other member)
    refine (behaves_listTriples suits items (covers.2.mono gives₁) meets.2 ofCells
      (le₁.isNode ofLast)).bind fun rest s₂ gives₂ ofRest => .pure ?_
    have ofCell : AllFlat guarantee template s₁ _ := allFlat_cellTriples suits
      (le₁.isNode areNodes.1) ofItem.1 (isNode_headD ofCells (le₁.isNode ofLast))
    exact ((ofItem.2.append ofCell).mono gives₂).append ofRest

theorem behaves_propertyTriples (suits : context.Suits guarantee) :
    ∀ (entries : List (Surface.Verb × Surface.GraphNode)) {subject : Term} {supply : NameSupply},
    supply.Covers (Surface.GraphNode.namesOfEntries entries) →
    Surface.GraphNode.entriesMeet guarantee.demands template entries →
    subject.IsNode (guarantee.bounds supply) →
    Behaves guarantee.clean (AllFlat guarantee template) (context.propertyTriples subject entries)
      supply
  | [], _, _, _, _, _ => .pure (List.forall_mem_nil _)
  | (verb, object) :: entries, subject, supply, covers, meets, ofSubject => by
    simp only [Surface.GraphNode.namesOfEntries, NameSupply.covers_and] at covers
    obtain ⟨⟨ofVerb, ofObject⟩, ofEntries⟩ := covers
    rw [propertyTriples]
    refine .bindLift (settles_predicate suits ofVerb meets.1) fun predicate ofPredicate => ?_
    refine (behaves_node suits object ofObject meets.2.1).bind fun result s₁ gives₁ ofResult => ?_
    have le₁ := guarantee.bounds_le gives₁
    refine (behaves_propertyTriples suits entries (ofEntries.mono gives₁) meets.2.2
      (le₁.isNode ofSubject)).bind fun rest s₂ gives₂ ofRest => .pure ?_
    have triple : AllFlat guarantee template s₁ [⟨subject, predicate, result.1⟩] :=
      List.forall_mem_singleton.2
        ⟨le₁.isNode ofSubject, le₁.flatPredicate ofPredicate, ofResult.1⟩
    exact (ofResult.2.mono gives₂).append ((triple.mono gives₂).append ofRest)

end

theorem behaves_triple (suits : context.Suits guarantee) {triple : Surface.Triple}
    (covers : supply.Covers triple.names) (meets : triple.Meets guarantee.demands template) :
    Behaves guarantee.clean (AllFlat guarantee template) (context.triple triple) supply := by
  simp only [Surface.Triple.names, NameSupply.covers_and] at covers
  obtain ⟨⟨ofSubject, ofVerb⟩, ofObject⟩ := covers
  rw [Context.triple]
  refine (behaves_node suits _ ofSubject meets.subject).bind fun subject s₁ gives₁ subjectNode => ?_
  refine .bindLift (settles_predicate suits (ofVerb.mono gives₁) meets.verb)
    fun predicate ofPredicate => ?_
  refine (behaves_node suits _ (ofObject.mono gives₁) meets.object).bind
    fun object s₂ gives₂ objectNode => .pure ?_
  have le₂ := guarantee.bounds_le gives₂
  refine ((subjectNode.2.mono gives₂).append objectNode.2).append (List.forall_mem_singleton.2 ?_)
  exact ⟨le₂.isNode subjectNode.1, le₂.flatPredicate ofPredicate, objectNode.1⟩

theorem behaves_triples (suits : context.Suits guarantee) {written : List Surface.Triple}
    (covers : ∀ triple ∈ written, supply.Covers triple.names)
    (meets : ∀ triple ∈ written, triple.Meets guarantee.demands template) :
    Behaves guarantee.clean (AllFlat guarantee template) (context.triples written) supply := by
  induction written generalizing supply with
  | nil => exact .pure (List.forall_mem_nil _)
  | cons triple rest ih =>
    rw [List.forall_mem_cons] at covers meets
    rw [triples]
    refine (behaves_triple suits covers.1 meets.1).bind fun first s₁ gives₁ ofFirst => ?_
    refine (ih (fun triple member => (covers.2 triple member).mono gives₁) meets.2).bind
      fun others s₂ gives₂ ofRest => .pure ?_
    exact (ofFirst.mono gives₂).append ofRest

/-! ### Basic graph patterns and templates -/

private theorem behaves_tripleFragments (suits : context.Suits guarantee) {triple : FlatTriple}
    (wellFormed : triple.WellFormed (guarantee.bounds supply) guarantee.demands template) :
    Behaves guarantee.clean
      (fun after fragments => ∀ fragment ∈ fragments, fragment.WellFormed (guarantee.bounds after))
      (context.tripleFragments triple) supply := by
  obtain ⟨subject, predicate, object⟩ := triple
  rw [tripleFragments]
  cases predicate with
  | term value =>
    exact .pure (List.forall_mem_singleton.2
      ⟨wellFormed.subject, wellFormed.predicate, wellFormed.object, isGraph_defaultGraph suits⟩)
  | path route =>
    exact .bindLift (settles_path suits supply wellFormed.predicate.2) fun path ofPath =>
      behaves_fragments suits path wellFormed.subject ofPath wellFormed.object

private theorem behaves_allFragments (suits : context.Suits guarantee) {triples : List FlatTriple}
    (allFlat : AllFlat guarantee template supply triples) :
    Behaves guarantee.clean
      (fun after fragments => ∀ fragment ∈ fragments, fragment.WellFormed (guarantee.bounds after))
      (context.allFragments triples) supply := by
  induction triples generalizing supply with
  | nil => exact .pure (List.forall_mem_nil _)
  | cons triple rest ih =>
    obtain ⟨ofTriple, ofRest⟩ := List.forall_mem_cons.1 allFlat
    rw [allFragments]
    refine (behaves_tripleFragments suits ofTriple).bind fun first s₁ gives₁ ofFirst => ?_
    refine (ih (AllFlat.mono ofRest gives₁)).bind fun others s₂ gives₂ ofOthers => .pure ?_
    refine List.forall_mem_append.2 ⟨fun fragment member => ?_, ofOthers⟩
    exact (guarantee.bounds_le gives₂).fragment (ofFirst fragment member)

theorem behaves_basicGraphPattern (suits : context.Suits guarantee) {written : List Surface.Triple}
    (covers : ∀ triple ∈ written, supply.Covers triple.names)
    (meets : ∀ triple ∈ written, triple.Meets guarantee.demands false) :
    Behaves guarantee.clean (fun after operation => operation.IsPattern (guarantee.bounds after))
      (context.basicGraphPattern written) supply := by
  rw [basicGraphPattern]
  refine (behaves_triples suits covers meets).bind fun flat s₁ _ allFlat => ?_
  refine (behaves_allFragments suits allFlat).bind fun fragments s₂ _ wellFormed => .pure ?_
  exact Operation.isPattern_ofFragments wellFormed

private theorem settles_templatePatterns {graph : Term}
    (isGraph : graph.IsGraph (guarantee.bounds supply)) {triples : List FlatTriple}
    (allFlat : AllFlat guarantee true supply triples) :
    Settles guarantee.clean
      (fun patterns => ∀ pattern ∈ patterns,
        pattern.WellFormed (guarantee.bounds supply) ∧ pattern.graph = graph)
      (templatePatterns graph triples) := by
  induction triples with
  | nil => exact List.forall_mem_nil _
  | cons triple rest ih =>
    obtain ⟨ofTriple, ofRest⟩ := List.forall_mem_cons.1 allFlat
    have first : Settles guarantee.clean
        (fun pattern => pattern.WellFormed (guarantee.bounds supply) ∧ pattern.graph = graph)
        (templatePattern graph triple) := by
      obtain ⟨subject, predicate, object⟩ := triple
      cases predicate with
      | term value => exact ⟨⟨ofTriple.subject, ofTriple.predicate, ofTriple.object, isGraph⟩, rfl⟩
      | path route => exact fun clean => guarantee.tight clean (ofTriple.predicate.1 rfl)
    rw [templatePatterns]
    refine first.bind fun pattern ofPattern => (ih ofRest).bind fun patterns ofPatterns => ?_
    exact List.forall_mem_cons.2 ⟨ofPattern, ofPatterns⟩

/-- The patterns of a template stand in its graph. -/
theorem behaves_template (suits : context.Suits guarantee) {graph : Term}
    (isGraph : graph.IsGraph (guarantee.bounds supply)) {written : List Surface.Triple}
    (covers : ∀ triple ∈ written, supply.Covers triple.names)
    (meets : ∀ triple ∈ written, triple.Meets guarantee.demands true) :
    Behaves guarantee.clean
      (fun after patterns => ∀ pattern ∈ patterns,
        pattern.WellFormed (guarantee.bounds after) ∧ pattern.graph = graph)
      (context.template graph written) supply := by
  rw [template]
  refine (behaves_triples suits covers meets).bind fun flat after gives allFlat => .lift ?_
  exact settles_templatePatterns ((guarantee.bounds_le gives).isGraph isGraph) allFlat

end Context

end QueryAlgebra
