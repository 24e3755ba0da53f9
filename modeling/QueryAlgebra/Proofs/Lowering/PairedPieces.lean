import QueryAlgebra.Lowering.Triples
import QueryAlgebra.Proofs.Lowering.PairedNames
import QueryAlgebra.Proofs.Lowering.WellFormedTerms

/-! # Triples and inline data in two passages

Terms take labels from the supply alone, so passages whose supplies give out the same labels come to
the same terms, inline data and triples, with no variables but those that are written
(`NamePairing.agree_inlineData`, `NamePairing.agree_triples`). The steps of property paths take
variables: these stand for each other, and the pieces that the triples fall into correspond
(`NamePairing.agree_basicGraphPattern`).
-/

namespace QueryAlgebra

/-! ### Known variables -/

/-- A term whose variables are in use. -/
def NameSupply.KnowsVars (written : NameSupply) (term : Term) : Prop :=
  ∀ name, .var name ∈ term.localNames → written.Has (.var name)

/-- A row whose columns and variables are in use. -/
def NameSupply.KnowsRow (written : NameSupply) (row : Row) : Prop :=
  ∀ cell ∈ row.entries, written.Has (.var cell.1) ∧ written.KnowsVars cell.2

/-- A triple that is spelled out, whose variables are in use. -/
structure NameSupply.KnowsTriple (written : NameSupply) (triple : FlatTriple) : Prop where
  subject : written.KnowsVars triple.subject
  predicate {value : Term} : triple.predicate = .term value → written.KnowsVars value
  object : written.KnowsVars triple.object

namespace NameSupply

variable {written : NameSupply}

theorem knowsVars_var {name : Variable} (isWritten : written.Has (.var name.name)) :
    written.KnowsVars (.var name) := by
  rintro _ mem
  cases List.mem_singleton.1 mem
  exact isWritten

theorem knowsVars_iri (node : NamedNode) : written.KnowsVars (.iri node) := fun _ mem =>
  absurd mem List.not_mem_nil

theorem knowsVars_blank (node : BlankNode) : written.KnowsVars (.blank node) := fun _ mem => by
  cases List.mem_singleton.1 mem

theorem knowsVars_quad {subject predicate object graph : Term}
    (ofSubject : written.KnowsVars subject) (ofPredicate : written.KnowsVars predicate)
    (ofObject : written.KnowsVars object) (ofGraph : written.KnowsVars graph) :
    written.KnowsVars (.quad subject predicate object graph) := by
  intro name mem
  simp only [Term.localNames_quad, List.mem_append] at mem
  rcases mem with ((mem | mem) | mem) | mem
  · exact ofSubject name mem
  · exact ofPredicate name mem
  · exact ofObject name mem
  · exact ofGraph name mem

theorem KnowsRow.insert {row : Row} (known : written.KnowsRow row) {name : String} {value : Term}
    (isWritten : written.Has (.var name)) (ofValue : written.KnowsVars value) :
    written.KnowsRow (row.insert name value) := by
  intro cell member
  rcases NameMap.key_of_mem_insertEntry member with rfl | member
  · exact ⟨isWritten, ofValue⟩
  · exact known cell member

end NameSupply

/-! ### What is known corresponds to itself -/

namespace NamePairing

variable {written : NameSupply} {pairing : NamePairing written}

theorem corresponds_self {term : Term} (known : written.KnowsVars term) :
    term.Corresponds pairing.Related term := by
  induction term with
  | iri node => exact .iri node
  | blank node => exact .blank (.blank node.label)
  | literal text => exact .literal text
  | var name => exact .var (.var (pairing.itself (known name.name (List.mem_singleton_self _))))
  | defaultGraph => exact .defaultGraph
  | quad subject predicate object graph ihSubject ihPredicate ihObject ihGraph =>
    simp only [NameSupply.KnowsVars, Term.localNames_quad, List.mem_append] at known
    exact .quad (ihSubject fun name mem => known name (.inl (.inl (.inl mem))))
      (ihPredicate fun name mem => known name (.inl (.inl (.inr mem))))
      (ihObject fun name mem => known name (.inl (.inr mem)))
      (ihGraph fun name mem => known name (.inr mem))

theorem row_corresponds_self {row : Row} (known : written.KnowsRow row) :
    row.Corresponds pairing.Related row :=
  ⟨row.entries, List.forall₂_same.2 fun cell member =>
    ⟨.var (pairing.itself (known cell member).1), corresponds_self (known cell member).2⟩, .refl _⟩

theorem table_corresponds_self {vars : List Variable} {rows : List Row}
    (areWritten : ∀ name ∈ vars, written.Has (.var name.name))
    (known : ∀ row ∈ rows, written.KnowsRow row) :
    (Operation.of (.values vars rows)).Corresponds pairing.Related (.of (.values vars rows)) :=
  .mk none (.values
    (List.forall₂_same.2 fun name member => .var (pairing.itself (areWritten name member)))
    (List.forall₂_same.2 fun row member => row_corresponds_self (known row member)))

end NamePairing

/-! ### Steps without new variables -/

/-- Results of two passages that are the same, and of which something is known. -/
def SameOf {α World : Type} (P : α → Prop) (_ : World) (first second : α) : Prop :=
  first = second ∧ P first

/-- Steps that begin with a step to the same result agree if they go on alike. -/
theorem Comparison.Agree.bindSame {World : Type} [Preorder World] {comparison : Comparison World}
    {α γ δ : Type} {S : World → γ → δ → Prop} {world : World} {P : α → Prop} {step : Lowering α}
    {next : α → Lowering γ} {next' : α → Lowering δ}
    (agree : comparison.Agree (SameOf P) world step step)
    (goesOn : ∀ later, world ≤ later → ∀ value, P value →
      comparison.Agree S later (next value) (next' value)) :
    comparison.Agree S world (step >>= next) (step >>= next') :=
  agree.bind fun later le value _ ⟨same, known⟩ => same ▸ goesOn later le value known

namespace NamePairing

open Comparison (Agree)
open NameSupply (Covers)
open Surface (GraphNode Triple Verb)

variable {written : NameSupply} {context : Context} {pairing : NamePairing written}

/-- Labels are the same in both passages. -/
theorem agree_newBlank :
    (corresponding written).Agree (SameOf written.KnowsVars) pairing context.newBlank
      context.newBlank := by
  intro supply supply' tied
  have sameLabel : supply'.takeLabel.1 = supply.takeLabel.1 := by
    rw [NameSupply.takeLabel, NameSupply.takeLabel, tied.labels, tied.nextLabel]
  have stillTied : pairing.Tied supply.takeLabel.2 supply'.takeLabel.2 := by
    refine ⟨?_, ?_, tied.inUse⟩
    · simp only [NameSupply.takeLabel, tied.labels, tied.nextLabel]
    · simp only [NameSupply.takeLabel, tied.labels, tied.nextLabel]
  exact .ok le_rfl stillTied ⟨congrArg (fun label => Term.blank (context.factory.blank label))
    sameLabel.symm, NameSupply.knowsVars_blank _⟩

theorem knows_varOrIri (plain : context.MakesPlain) {name : Surface.VarOrIri}
    (covers : written.Covers name.names) {term : Term}
    (success : context.varOrIri name = .ok term) :
    written.KnowsVars term := by
  cases name with
  | var name =>
    cases success
    rw [Context.var_eq plain]
    exact NameSupply.knowsVars_var (NameSupply.covers_var.1 covers)
  | iri iri =>
    rw [Context.varOrIri] at success
    obtain ⟨node, -, finished⟩ := ok_of_bind success
    cases finished
    exact NameSupply.knowsVars_iri node

theorem agree_term (plain : context.MakesPlain) : ∀ (term : Surface.Term)
    {pairing : NamePairing written}, written.Covers term.names →
    (corresponding written).Agree (SameOf written.KnowsVars) pairing (context.term term)
      (context.term term)
  | .var name, _, covers => by
    rw [Context.term, Context.var_eq plain]
    exact .pure ⟨rfl, NameSupply.knowsVars_var (NameSupply.covers_var.1 covers)⟩
  | .iri iri, _, _ => by
    rw [Context.term]
    exact .bindLift fun node _ => .pure ⟨rfl, NameSupply.knowsVars_iri node⟩
  | .literal literal, _, _ => by
    rw [Context.term]
    exact .bindLift fun literal _ => .pure ⟨rfl, fun _ mem => absurd mem List.not_mem_nil⟩
  | .blank label, _, _ => .pure ⟨rfl, NameSupply.knowsVars_blank _⟩
  | .anonymous, _, _ => agree_newBlank
  | .quoted subject predicate object, _, covers => by
    obtain ⟨inFirst, inObject⟩ := NameSupply.covers_and.1 covers
    obtain ⟨inSubject, inPredicate⟩ := NameSupply.covers_and.1 inFirst
    rw [Context.term, Context.quad_eq plain]
    refine (agree_term plain subject inSubject).bindSame fun _ _ subject ofSubject => ?_
    refine .bindLift fun predicate isName => ?_
    refine (agree_term plain object inObject).bindSame fun _ _ object ofObject => ?_
    refine .pure ⟨rfl, NameSupply.knowsVars_quad ofSubject (knows_varOrIri plain inPredicate isName)
      ofObject ?_⟩
    rw [plain]
    exact fun _ mem => absurd mem List.not_mem_nil

theorem agree_row (plain : context.MakesPlain) : ∀ (names : List Variable)
    (cells : List (Option Surface.Term)) {row : Row} {pairing : NamePairing written},
    (∀ name ∈ names, written.Has (.var name.name)) →
    written.Covers (Surface.Names.all (Surface.Names.optional Surface.Term.names) cells) →
    written.KnowsRow row →
    (corresponding written).Agree (SameOf written.KnowsRow) pairing (context.row names cells row)
      (context.row names cells row)
  | name :: names, some value :: cells, _, _, areWritten, covers, known => by
    obtain ⟨isWritten, areWritten⟩ := List.forall_mem_cons.1 areWritten
    obtain ⟨inValue, inCells⟩ := NameSupply.covers_and.1 covers
    rw [Context.row, Context.var_eq plain]
    exact (agree_term plain value inValue).bindSame fun _ _ value ofValue =>
      agree_row plain names cells areWritten inCells (known.insert isWritten ofValue)
  | _ :: names, none :: cells, _, _, areWritten, covers, known => by
    rw [Context.row]
    exact agree_row plain names cells (List.forall_mem_cons.1 areWritten).2
      (NameSupply.covers_and.1 covers).2 known
  | [], _, _, _, _, _, known => by
    simp only [Context.row]
    exact .pure ⟨rfl, known⟩
  | _ :: _, [], _, _, _, _, known => .pure ⟨rfl, known⟩

theorem agree_rows (plain : context.MakesPlain) {names : List Variable}
    (areWritten : ∀ name ∈ names, written.Has (.var name.name)) :
    ∀ (rows : List (List (Option Surface.Term))) {pairing : NamePairing written},
    written.Covers
      (Surface.Names.all (Surface.Names.all (Surface.Names.optional Surface.Term.names)) rows) →
    (corresponding written).Agree (SameOf fun rows => ∀ row ∈ rows, written.KnowsRow row) pairing
      (context.rows names rows) (context.rows names rows)
  | [], _, _ => .pure ⟨rfl, List.forall_mem_nil _⟩
  | cells :: rest, _, covers => by
    obtain ⟨inCells, inRest⟩ := NameSupply.covers_and.1 covers
    rw [Context.rows]
    refine (agree_row plain names cells areWritten inCells
      (fun _ mem => absurd mem List.not_mem_nil)).bindSame fun _ _ row ofRow => ?_
    exact (agree_rows plain areWritten rest inRest).bindSame fun _ _ rows ofRows =>
      .pure ⟨rfl, List.forall_mem_cons.2 ⟨ofRow, ofRows⟩⟩

/-- Inline data becomes the same table in both passages, without new names. -/
theorem agree_inlineData (plain : context.MakesPlain) {data : Surface.InlineData}
    (covers : written.Covers data.names) :
    (corresponding written).Agree
      (SameOf fun operation => ∃ vars rows, operation = .of (.values vars rows)
        ∧ (∀ name ∈ vars, written.Has (.var name.name)) ∧ ∀ row ∈ rows, written.KnowsRow row)
      pairing (context.inlineData data) (context.inlineData data) := by
  obtain ⟨inHeader, inRows⟩ := NameSupply.covers_and.1 covers
  have areWritten : ∀ name ∈ data.vars, written.Has (.var name.name) := fun name member =>
    NameSupply.covers_var.1 (NameSupply.covers_all.1 inHeader name member)
  rw [Context.inlineData]
  refine (agree_rows plain areWritten data.rows inRows).bindSame fun _ _ rows ofRows => ?_
  refine .pure ⟨rfl, _, rows, rfl, ?_, ofRows⟩
  simpa [Context.var_eq plain] using areWritten

/-! ### Spelling out triples -/

theorem agree_newCells : ∀ (count : Nat) {pairing : NamePairing written},
    (corresponding written).Agree
      (SameOf fun cells => ∀ cell ∈ cells, written.KnowsVars cell) pairing
      (context.newCells count) (context.newCells count)
  | 0, _ => .pure ⟨rfl, List.forall_mem_nil _⟩
  | count + 1, _ => by
    rw [Context.newCells]
    exact agree_newBlank.bindSame fun _ _ cell ofCell =>
      (agree_newCells count).bindSame fun _ _ cells ofCells =>
        .pure ⟨rfl, List.forall_mem_cons.2 ⟨ofCell, ofCells⟩⟩

theorem knows_predicate (plain : context.MakesPlain) {verb : Verb}
    (covers : written.Covers verb.names) {predicate : FlatPredicate}
    (success : context.predicate verb = .ok predicate) {value : Term}
    (isTerm : predicate = .term value) : written.KnowsVars value := by
  obtain rfl := isTerm
  cases verb with
  | simple name =>
    rw [Context.predicate] at success
    obtain ⟨term, isName, finished⟩ := ok_of_bind success
    cases finished
    exact knows_varOrIri plain covers isName
  | path path =>
    rw [Context.predicate] at success
    split at success
    · obtain ⟨node, -, finished⟩ := ok_of_bind success
      cases finished
      exact NameSupply.knowsVars_iri node
    · cases success
      exact NameSupply.knowsVars_iri _
    · cases success

private theorem knows_cellTriples {cell value next : Term} (ofCell : written.KnowsVars cell)
    (ofValue : written.KnowsVars value) (ofNext : written.KnowsVars next) :
    ∀ triple ∈ context.cellTriples cell value next, written.KnowsTriple triple := by
  rw [Context.cellTriples, List.forall_mem_cons, List.forall_mem_singleton]
  have vocabulary {iri : String} {value : Term}
      (isTerm : FlatPredicate.term (context.vocabulary iri) = .term value) :
      written.KnowsVars value := by
    cases isTerm
    exact NameSupply.knowsVars_iri _
  exact ⟨⟨ofCell, vocabulary, ofValue⟩, ⟨ofCell, vocabulary, ofNext⟩⟩

private theorem knows_head {cells : List Term} {nil : Term}
    (ofCells : ∀ cell ∈ cells, written.KnowsVars cell) (ofNil : written.KnowsVars nil) :
    written.KnowsVars (cells.headD nil) := by
  cases cells with
  | nil => exact ofNil
  | cons cell rest => exact ofCells cell (List.mem_cons_self ..)

mutual

theorem agree_node (plain : context.MakesPlain) : ∀ (node : GraphNode)
    {pairing : NamePairing written}, written.Covers node.names →
    (corresponding written).Agree
      (SameOf fun found =>
        written.KnowsVars found.1 ∧ ∀ triple ∈ found.2, written.KnowsTriple triple)
      pairing (context.node node) (context.node node)
  | .term value, _, covers => by
    rw [Context.node]
    exact (agree_term plain value covers).bindSame fun _ _ term known =>
      .pure ⟨rfl, known, List.forall_mem_nil _⟩
  | .collection items, _, covers => by
    rw [Context.node]
    have ofNil : written.KnowsVars (context.vocabulary Vocabulary.rdfNil) :=
      NameSupply.knowsVars_iri _
    refine (agree_newCells items.length).bindSame fun _ _ cells ofCells => ?_
    exact (agree_listTriples plain items covers ofCells ofNil).bindSame
      fun _ _ triples ofTriples => .pure ⟨rfl, knows_head ofCells ofNil, ofTriples⟩
  | .properties entries, _, covers => by
    rw [Context.node]
    refine agree_newBlank.bindSame fun _ _ subject ofSubject => ?_
    exact (agree_propertyTriples plain entries covers ofSubject).bindSame
      fun _ _ triples ofTriples => .pure ⟨rfl, ofSubject, ofTriples⟩

theorem agree_listTriples (plain : context.MakesPlain) : ∀ (items : List GraphNode)
    {cells : List Term} {nil : Term} {pairing : NamePairing written},
    written.Covers (GraphNode.namesOfItems items) → (∀ cell ∈ cells, written.KnowsVars cell) →
    written.KnowsVars nil →
    (corresponding written).Agree
      (SameOf fun triples => ∀ triple ∈ triples, written.KnowsTriple triple)
      pairing (context.listTriples items cells nil) (context.listTriples items cells nil)
  | item :: items, cell :: cells, nil, _, covers, ofCells, ofNil => by
    obtain ⟨inItem, inItems⟩ := NameSupply.covers_and.1 covers
    obtain ⟨ofCell, ofCells⟩ := List.forall_mem_cons.1 ofCells
    rw [Context.listTriples]
    refine (agree_node plain item inItem).bindSame fun _ _ found ofFound => ?_
    refine (agree_listTriples plain items inItems ofCells ofNil).bindSame
      fun _ _ rest ofRest => .pure ⟨rfl, ?_⟩
    exact List.forall_mem_append.2 ⟨List.forall_mem_append.2 ⟨ofFound.2,
      knows_cellTriples ofCell ofFound.1 (knows_head ofCells ofNil)⟩, ofRest⟩
  | [], _, _, _, _, _, _ => by
    simp only [Context.listTriples]
    exact .pure ⟨rfl, List.forall_mem_nil _⟩
  | _ :: _, [], _, _, _, _, _ => .pure ⟨rfl, List.forall_mem_nil _⟩

theorem agree_propertyTriples (plain : context.MakesPlain) : ∀ (entries : List (Verb × GraphNode))
    {subject : Term} {pairing : NamePairing written},
    written.Covers (GraphNode.namesOfEntries entries) → written.KnowsVars subject →
    (corresponding written).Agree
      (SameOf fun triples => ∀ triple ∈ triples, written.KnowsTriple triple)
      pairing (context.propertyTriples subject entries) (context.propertyTriples subject entries)
  | [], _, _, _, _ => .pure ⟨rfl, List.forall_mem_nil _⟩
  | (verb, object) :: entries, _, _, covers, ofSubject => by
    obtain ⟨inFirst, inRest⟩ := NameSupply.covers_and.1 covers
    obtain ⟨inVerb, inObject⟩ := NameSupply.covers_and.1 inFirst
    rw [Context.propertyTriples]
    refine .bindLift fun predicate isPredicate => ?_
    refine (agree_node plain object inObject).bindSame fun _ _ found ofFound => ?_
    refine (agree_propertyTriples plain entries inRest ofSubject).bindSame
      fun _ _ rest ofRest => .pure ⟨rfl, ?_⟩
    exact List.forall_mem_append.2 ⟨ofFound.2, List.forall_mem_cons.2
      ⟨⟨ofSubject, knows_predicate plain inVerb isPredicate, ofFound.1⟩, ofRest⟩⟩

end

theorem agree_triple (plain : context.MakesPlain) {triple : Triple}
    (covers : written.Covers triple.names) :
    (corresponding written).Agree
      (SameOf fun triples => ∀ triple ∈ triples, written.KnowsTriple triple)
      pairing (context.triple triple) (context.triple triple) := by
  obtain ⟨inFirst, inObject⟩ := NameSupply.covers_and.1 covers
  obtain ⟨inSubject, inVerb⟩ := NameSupply.covers_and.1 inFirst
  rw [Context.triple]
  refine (agree_node plain triple.subject inSubject).bindSame fun _ _ subject ofSubject => ?_
  refine .bindLift fun predicate isPredicate => ?_
  refine (agree_node plain triple.object inObject).bindSame
    fun _ _ object ofObject => .pure ⟨rfl, ?_⟩
  exact List.forall_mem_append.2 ⟨List.forall_mem_append.2 ⟨ofSubject.2, ofObject.2⟩,
    List.forall_mem_singleton.2
      ⟨ofSubject.1, knows_predicate plain inVerb isPredicate, ofObject.1⟩⟩

/-- Triples are spelled out as the same triples in both passages, without new variables. -/
theorem agree_triples (plain : context.MakesPlain) : ∀ (triples : List Triple)
    {pairing : NamePairing written}, written.Covers (Surface.Names.all Triple.names triples) →
    (corresponding written).Agree
      (SameOf fun triples => ∀ triple ∈ triples, written.KnowsTriple triple)
      pairing (context.triples triples) (context.triples triples)
  | [], _, _ => .pure ⟨rfl, List.forall_mem_nil _⟩
  | triple :: rest, _, covers => by
    obtain ⟨inFirst, inRest⟩ := NameSupply.covers_and.1 covers
    rw [Context.triples]
    refine (agree_triple plain inFirst).bindSame fun _ _ first ofFirst => ?_
    exact (agree_triples plain rest inRest).bindSame fun _ _ others ofOthers =>
      .pure ⟨rfl, List.forall_mem_append.2 ⟨ofFirst, ofOthers⟩⟩

end NamePairing

/-! ### Pieces of corresponding triples -/

section

variable {related : LocalName → LocalName → Prop}

/-- Pieces with related names in the same places. -/
inductive Fragment.Corresponds (related : LocalName → LocalName → Prop) :
    Fragment → Fragment → Prop where
  | pattern {triple triple' : Pattern} :
    triple.Corresponds related triple' → Corresponds related (.pattern triple) (.pattern triple')
  | path {subject object graph subject' object' graph' : Term} (predicate : Path) :
    subject.Corresponds related subject' → object.Corresponds related object' →
    graph.Corresponds related graph' →
    Corresponds related (.path subject predicate object graph)
      (.path subject' predicate object' graph')

theorem Fragment.Corresponds.imp {P Q : LocalName → LocalName → Prop}
    (weaker : ∀ m n, P m n → Q m n) {first second : Fragment}
    (correspond : first.Corresponds P second) : first.Corresponds Q second := by
  cases correspond with
  | pattern triple =>
    exact .pattern ⟨triple.subject.imp weaker, triple.predicate.imp weaker,
      triple.object.imp weaker, triple.graph.imp weaker⟩
  | path predicate subject object graph =>
    exact .path predicate (subject.imp weaker) (object.imp weaker) (graph.imp weaker)

/-- Runs and paths with related names in the same places. -/
inductive Segment.Corresponds (related : LocalName → LocalName → Prop) :
    Segment → Segment → Prop where
  | run {patterns patterns' : List Pattern} :
    List.Forall₂ (Pattern.Corresponds related) patterns patterns' →
    Corresponds related (.run patterns) (.run patterns')
  | path {subject object graph subject' object' graph' : Term} (predicate : Path) :
    subject.Corresponds related subject' → object.Corresponds related object' →
    graph.Corresponds related graph' →
    Corresponds related (.path subject predicate object graph)
      (.path subject' predicate object' graph')

private theorem segments_cons {fragment fragment' : Fragment} {segments segments' : List Segment}
    (correspond : fragment.Corresponds related fragment')
    (ofRest : List.Forall₂ (Segment.Corresponds related) segments segments') :
    List.Forall₂ (Segment.Corresponds related) (Segment.cons fragment segments)
      (Segment.cons fragment' segments') := by
  cases correspond with
  | path predicate subject object graph => exact .cons (.path predicate subject object graph) ofRest
  | pattern triple =>
    cases ofRest with
    | nil => exact .cons (.run (.cons triple .nil)) .nil
    | cons segment rest =>
      cases segment with
      | run patterns => exact .cons (.run (.cons triple patterns)) rest
      | path predicate subject object graph =>
        exact .cons (.run (.cons triple .nil)) (.cons (.path predicate subject object graph) rest)

private theorem Segment.Corresponds.toOperation {first second : Segment}
    (correspond : first.Corresponds related second) :
    first.toOperation.Corresponds related second.toOperation := by
  cases correspond with
  | run patterns => exact .bgp patterns
  | path predicate subject object graph => exact .mk none (.path predicate subject object graph)

/-- Corresponding pieces become corresponding operations. -/
theorem Operation.corresponds_ofFragments {fragments fragments' : List Fragment}
    (correspond : List.Forall₂ (Fragment.Corresponds related) fragments fragments') :
    (Operation.ofFragments fragments).Corresponds related (.ofFragments fragments') := by
  have segments : List.Forall₂ (Segment.Corresponds related) (Segment.ofFragments fragments)
      (Segment.ofFragments fragments') := by
    induction correspond with
    | nil => exact .nil
    | cons first _ ih => exact segments_cons first ih
  have operations : List.Forall₂ (Operation.Corresponds related)
      ((Segment.ofFragments fragments).map Segment.toOperation)
      ((Segment.ofFragments fragments').map Segment.toOperation) :=
    List.forall₂_map_left_iff.2 (List.forall₂_map_right_iff.2
      (segments.imp fun _ _ => Segment.Corresponds.toOperation))
  unfold Operation.ofFragments
  generalize (Segment.ofFragments fragments).map Segment.toOperation = inputs at operations
  generalize (Segment.ofFragments fragments').map Segment.toOperation = inputs' at operations
  cases operations with
  | nil => exact .bgp .nil
  | cons first rest =>
    cases rest with
    | nil => exact first
    | cons second rest => exact .join (.cons first (.cons second rest))

end

namespace NamePairing

open Comparison (Agree)
open Surface (Triple)

variable {written : NameSupply} {context : Context} {pairing : NamePairing written}

/-- New variables of two passages stand for each other. -/
theorem relatesNew (plain : context.MakesPlain) :
    context.RelatesNew (corresponding written) := by
  intro pairing supply supply' tied
  obtain ⟨later, le, stillTied, paired⟩ :=
    tied.take (.numbered supply) (.numbered supply') rfl rfl rfl rfl
  refine .ok le stillTied ?_
  rw [plain]
  exact .var (.var paired)

private theorem fragments_later {later : NamePairing written} (le : pairing ≤ later)
    {fragments fragments' : List Fragment}
    (correspond : List.Forall₂ (Fragment.Corresponds pairing.Related) fragments fragments') :
    List.Forall₂ (Fragment.Corresponds later.Related) fragments fragments' :=
  correspond.imp fun _ _ => Fragment.Corresponds.imp fun _ _ => Related.mono le

private theorem corresponds_defaultGraph (plain : context.MakesPlain) :
    context.factory.defaultGraph.Corresponds pairing.Related context.factory.defaultGraph := by
  rw [plain]
  exact .defaultGraph

mutual

theorem agree_fragments (plain : context.MakesPlain) : ∀ (path : Path)
    {subject subject' object object' : Term} {pairing : NamePairing written},
    subject.Corresponds pairing.Related subject' → object.Corresponds pairing.Related object' →
    (corresponding written).Agree
      (fun pairing => List.Forall₂ (Fragment.Corresponds pairing.Related)) pairing
      (context.fragments subject path object) (context.fragments subject' path object')
  | .link predicate, _, _, _, _, _, ofSubject, ofObject => by
    rw [Context.fragments, Context.fragments]
    exact .pure (.cons
      (.pattern ⟨ofSubject, .iri predicate, ofObject, corresponds_defaultGraph plain⟩) .nil)
  | .inverse path, _, _, _, _, _, ofSubject, ofObject => by
    rw [Context.fragments, Context.fragments]
    exact agree_fragments plain path ofObject ofSubject
  | .seq steps, _, _, _, _, _, ofSubject, ofObject => by
    rw [Context.fragments, Context.fragments]
    exact agree_stepFragments plain steps ofSubject ofObject
  | .alt _, _, _, _, _, _, ofSubject, ofObject | .zeroOrMore _, _, _, _, _, _, ofSubject, ofObject
  | .oneOrMore _, _, _, _, _, _, ofSubject, ofObject
  | .zeroOrOne _, _, _, _, _, _, ofSubject, ofObject
  | .negated _, _, _, _, _, _, ofSubject, ofObject => by
    simp only [Context.fragments]
    exact .pure (.cons (.path _ ofSubject ofObject (corresponds_defaultGraph plain)) .nil)

theorem agree_stepFragments (plain : context.MakesPlain) : ∀ (steps : List Path)
    {subject subject' object object' : Term} {pairing : NamePairing written},
    subject.Corresponds pairing.Related subject' → object.Corresponds pairing.Related object' →
    (corresponding written).Agree
      (fun pairing => List.Forall₂ (Fragment.Corresponds pairing.Related)) pairing
      (context.stepFragments subject steps object) (context.stepFragments subject' steps object')
  | [], _, _, _, _, _, ofSubject, ofObject => by
    simp only [Context.stepFragments]
    exact .pure (.cons (.path _ ofSubject ofObject (corresponds_defaultGraph plain)) .nil)
  | [step], _, _, _, _, _, ofSubject, ofObject => by
    rw [Context.stepFragments, Context.stepFragments]
    exact agree_fragments plain step ofSubject ofObject
  | step :: next :: steps, _, _, _, _, _, ofSubject, ofObject => by
    rw [Context.stepFragments, Context.stepFragments]
    refine (relatesNew plain _).bind fun _ le₁ _ _ between => ?_
    have ofSubject := ofSubject.imp fun _ _ => Related.mono le₁
    refine (agree_fragments plain step ofSubject between).bind fun _ le₂ _ _ first => ?_
    have between := between.imp fun _ _ => Related.mono le₂
    have ofObject := ofObject.imp fun _ _ => Related.mono (le₁.trans le₂)
    exact (agree_stepFragments plain (next :: steps) between ofObject).bind
      fun _ le₃ _ _ rest => .pure (List.rel_append (fragments_later le₃ first) rest)

end

private theorem agree_tripleFragments (plain : context.MakesPlain) {triple : FlatTriple}
    (known : written.KnowsTriple triple) :
    (corresponding written).Agree
      (fun pairing => List.Forall₂ (Fragment.Corresponds pairing.Related)) pairing
      (context.tripleFragments triple) (context.tripleFragments triple) := by
  have ofSubject : triple.subject.Corresponds pairing.Related triple.subject :=
    corresponds_self known.subject
  have ofObject : triple.object.Corresponds pairing.Related triple.object :=
    corresponds_self known.object
  rw [Context.tripleFragments]
  cases isPredicate : triple.predicate with
  | term value =>
    have ofPredicate : value.Corresponds pairing.Related value :=
      corresponds_self (known.predicate isPredicate)
    exact .pure (.cons
      (.pattern ⟨ofSubject, ofPredicate, ofObject, corresponds_defaultGraph plain⟩) .nil)
  | path path => exact .bindLift fun path _ => agree_fragments plain path ofSubject ofObject

private theorem agree_allFragments (plain : context.MakesPlain) : ∀ (triples : List FlatTriple)
    {pairing : NamePairing written}, (∀ triple ∈ triples, written.KnowsTriple triple) →
    (corresponding written).Agree
      (fun pairing => List.Forall₂ (Fragment.Corresponds pairing.Related)) pairing
      (context.allFragments triples) (context.allFragments triples)
  | [], _, _ => .pure .nil
  | triple :: rest, _, known => by
    obtain ⟨ofTriple, ofRest⟩ := List.forall_mem_cons.1 known
    rw [Context.allFragments]
    exact (agree_tripleFragments plain ofTriple).bind fun _ _ _ _ first =>
      (agree_allFragments plain rest ofRest).bind fun _ le _ _ others =>
        .pure (List.rel_append (fragments_later le first) others)

/-- Triples become corresponding operations. -/
theorem agree_basicGraphPattern (plain : context.MakesPlain) {triples : List Triple}
    (covers : written.Covers (Surface.Names.all Triple.names triples)) :
    (corresponding written).Agree (corresponding written).operations pairing
      (context.basicGraphPattern triples) (context.basicGraphPattern triples) := by
  rw [Context.basicGraphPattern]
  refine (agree_triples plain triples covers).bindSame fun _ _ flat known => ?_
  exact (agree_allFragments plain flat known).bind fun _ _ _ _ fragments =>
    .pure (Operation.corresponds_ofFragments fragments)

private theorem templates_inTemplate {first second : Term}
    (correspond : first.Corresponds pairing.Related second) :
    first.Corresponds (InTemplate pairing.Related) second :=
  correspond.imp fun _ _ related => by
    cases related with
    | var paired => exact .var (.var paired)
    | blank label => exact .blank label

private theorem agree_templatePatterns {graph : Term} (isGraph : graph = .defaultGraph) :
    ∀ (triples : List FlatTriple) {pairing : NamePairing written} {patterns : List Pattern},
    (∀ triple ∈ triples, written.KnowsTriple triple) →
    Context.templatePatterns graph triples = .ok patterns →
    List.Forall₂ (Pattern.Corresponds (InTemplate pairing.Related)) patterns patterns
  | [], _, _, _, success => by
    cases success
    exact .nil
  | ⟨subject, predicate, object⟩ :: rest, _, _, known, success => by
    obtain ⟨ofTriple, ofRest⟩ := List.forall_mem_cons.1 known
    rw [Context.templatePatterns] at success
    obtain ⟨pattern, isPattern, success⟩ := ok_of_bind success
    obtain ⟨others, areOthers, finished⟩ := ok_of_bind success
    cases finished
    refine .cons ?_ (agree_templatePatterns isGraph rest ofRest areOthers)
    cases predicate with
    | path path => cases isPattern
    | term value =>
      cases isPattern
      obtain rfl := isGraph
      exact ⟨templates_inTemplate (corresponds_self ofTriple.subject),
        templates_inTemplate (corresponds_self (ofTriple.predicate rfl)),
        templates_inTemplate (corresponds_self ofTriple.object), .defaultGraph⟩

/-- Triples become corresponding templates. -/
theorem agree_template (plain : context.MakesPlain) {triples : List Triple}
    (covers : written.Covers (Surface.Names.all Triple.names triples)) :
    (corresponding written).Agree (corresponding written).templates pairing
      (context.template context.factory.defaultGraph triples)
      (context.template context.factory.defaultGraph triples) := by
  rw [Context.template]
  exact (agree_triples plain triples covers).bindSame fun _ _ flat known =>
    .lift fun patterns success =>
      agree_templatePatterns (by rw [plain]; rfl) flat known success

end NamePairing

end QueryAlgebra
