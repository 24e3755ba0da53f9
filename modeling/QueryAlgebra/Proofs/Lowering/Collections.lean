import QueryAlgebra.Proofs.Lowering.BoundTriples
import QueryAlgebra.Proofs.Lowering.NamesOfRequests

/-! # Collections become lists

The triples that a collection implies are a list: from the term of the collection on, every cell has
one first value and one rest, and the last rest is nil. A list of properties becomes the triples of
one blank node. `Context.StandsFor` says so of what is nested to any depth, and the labels of all
cells and property lists are taken from the supply, so that they are new and different from each
other: `Context.triple_expands`.
-/

namespace QueryAlgebra

/-- The labels are taken from a supply one after another. -/
def NameSupply.MintsLabels (supply : NameSupply) (labels : List String) (after : NameSupply) :
    Prop := supply.Mints (labels.map .blank) after

namespace NameSupply.MintsLabels

variable {supply between after : NameSupply} {labels more : List String}

theorem append (first : supply.MintsLabels labels between)
    (second : between.MintsLabels more after) : supply.MintsLabels (labels ++ more) after := by
  rw [MintsLabels, List.map_append]
  exact Mints.append first second

theorem nodup (mints : supply.MintsLabels labels after) : labels.Nodup :=
  .of_map _ (Mints.nodup mints)

theorem fresh (mints : supply.MintsLabels labels after) :
    ∀ label ∈ labels, ¬ supply.Has (.blank label) :=
  fun _ member => Mints.fresh mints _ (List.mem_map_of_mem member)

theorem has (mints : supply.MintsLabels labels after) :
    ∀ label ∈ labels, after.Has (.blank label) :=
  fun _ member => (Mints.has_iff mints _).2 (.inl (List.mem_map_of_mem member))

/-- Labels in use are different from those that are taken later. -/
theorem nodup_append (mints : supply.MintsLabels more after) (distinct : labels.Nodup)
    (inUse : ∀ label ∈ labels, supply.Has (.blank label)) : (labels ++ more).Nodup :=
  distinct.append mints.nodup fun label member taken =>
    mints.fresh label taken (inUse label member)

end NameSupply.MintsLabels

namespace FlatTriple

/-- The triples about the blank node with a label. -/
def about (triples : List FlatTriple) (label : String) : List FlatTriple :=
  triples.filter (·.subject = .blank ⟨label⟩)

/-- The triples are about the blank nodes with certain labels only. -/
def OnlyAbout (labels : List String) (triples : List FlatTriple) : Prop :=
  ∀ triple ∈ triples, ∃ label ∈ labels, triple.subject = .blank ⟨label⟩

variable {triples others : List FlatTriple} {labels more : List String} {label : String}

theorem about_append (triples others : List FlatTriple) (label : String) :
    about (triples ++ others) label = about triples label ++ about others label :=
  List.filter_append ..

namespace OnlyAbout

theorem about_eq_nil (only : OnlyAbout labels triples) (other : label ∉ labels) :
    about triples label = [] := by
  rw [about, List.filter_eq_nil_iff]
  intro triple member isSubject
  obtain ⟨of, isLabel, same⟩ := only triple member
  rw [same, decide_eq_true_eq, Term.blank.injEq, BlankNode.mk.injEq] at isSubject
  exact other (isSubject ▸ isLabel)

theorem mono (only : OnlyAbout labels triples) (kept : labels ⊆ more) : OnlyAbout more triples := by
  intro triple member
  obtain ⟨label, isLabel, same⟩ := only triple member
  exact ⟨label, kept isLabel, same⟩

theorem append (first : OnlyAbout labels triples) (second : OnlyAbout more others) :
    OnlyAbout (labels ++ more) (triples ++ others) :=
  List.forall_mem_append.2
    ⟨first.mono (List.subset_append_left ..), second.mono (List.subset_append_right ..)⟩

theorem about_append_left (only : OnlyAbout more others) (other : label ∉ more) :
    about (triples ++ others) label = about triples label := by
  rw [about_append, only.about_eq_nil other, List.append_nil]

theorem about_append_right (only : OnlyAbout labels triples) (other : label ∉ labels) :
    about (triples ++ others) label = about others label := by
  rw [about_append, only.about_eq_nil other, List.nil_append]

/-- Triples about one blank node stand between triples about other ones, of which those before have
nothing to do with those after. -/
theorem around (middle : List FlatTriple) {before after : List FlatTriple} {subject : String}
    {rest : List String} (distinct : (subject :: (labels ++ rest)).Nodup)
    (ofBefore : OnlyAbout labels before)
    (ofMiddle : ∀ triple ∈ middle, triple.subject = .blank ⟨subject⟩)
    (ofAfter : OnlyAbout (subject :: rest) after) :
    OnlyAbout (subject :: (labels ++ rest)) (before ++ middle ++ after)
      ∧ about (before ++ middle ++ after) subject = middle ++ about after subject
      ∧ (∀ label ∈ labels, about (before ++ middle ++ after) label = about before label)
      ∧ ∀ label ∈ rest, about (before ++ middle ++ after) label = about after label := by
  obtain ⟨isOther, apart⟩ := List.nodup_cons.1 distinct
  rw [List.mem_append, not_or] at isOther
  have disjoint := List.disjoint_of_nodup_append apart
  have onlySubject : OnlyAbout [subject] middle := fun triple member =>
    ⟨subject, List.mem_singleton_self _, ofMiddle triple member⟩
  refine ⟨((ofBefore.append onlySubject).append ofAfter).mono (by simp), ?_, ?_, ?_⟩
  · have allMiddle : about middle subject = middle := by
      rw [about, List.filter_eq_self]
      exact fun triple member => decide_eq_true (ofMiddle triple member)
    rw [FlatTriple.about_append, ofBefore.about_append_right isOther.1, allMiddle]
  · intro label member
    have other : label ≠ subject := fun same => isOther.1 (same ▸ member)
    rw [ofAfter.about_append_left (List.not_mem_cons_of_ne_of_not_mem other (disjoint member)),
      onlySubject.about_append_left (List.not_mem_cons_of_ne_of_not_mem other List.not_mem_nil)]
  · intro label member
    have other : label ≠ subject := fun same => isOther.2 (same ▸ member)
    refine (ofBefore.append onlySubject).about_append_right fun isEarlier => ?_
    rcases List.mem_append.1 isEarlier with isBefore | same
    · exact disjoint isBefore member
    · exact other (List.mem_singleton.1 same)

end OnlyAbout

/-- From a term on, the rests of triples lead through certain cells to nil, and the first values of
these cells are certain terms. There are no other triples about the cells. -/
inductive IsList (triples : List FlatTriple) : Term → List String → List Term → Prop
  | nil : IsList triples (.iri ⟨Vocabulary.rdfNil⟩) [] []
  | cons {cell : String} {value next : Term} {cells : List String} {values : List Term} :
    about triples cell =
      [⟨.blank ⟨cell⟩, .term (.iri ⟨Vocabulary.rdfFirst⟩), value⟩,
        ⟨.blank ⟨cell⟩, .term (.iri ⟨Vocabulary.rdfRest⟩), next⟩] →
    IsList triples next cells values →
    IsList triples (.blank ⟨cell⟩) (cell :: cells) (value :: values)

theorem IsList.congr {head : Term} {cells : List String} {values : List Term}
    (same : ∀ cell ∈ cells, about others cell = about triples cell)
    (isList : IsList triples head cells values) : IsList others head cells values := by
  induction isList with
  | nil => exact .nil
  | cons ofCell _ ih =>
    rw [List.forall_mem_cons] at same
    exact .cons (same.1.trans ofCell) (ih same.2)

end FlatTriple

namespace Context

open FlatTriple (about OnlyAbout IsList)
open Lowering (Behaves)
open Surface (GraphNode Verb)

/-- The term that is read from a written one. Its anonymous nodes get labels. -/
inductive Reads (context : Context) : Surface.Term → Term → List String → Prop
  | fixed {written : Surface.Term} {value : Term} :
    context.term written = pure value → Reads context written value []
  | anonymous (label : String) : Reads context .anonymous (.blank ⟨label⟩) [label]
  | quoted {subject object : Surface.Term} {predicate : Surface.VarOrIri}
      {subject' predicate' object' : Term} {labels more : List String} :
    Reads context subject subject' labels → context.varOrIri predicate = .ok predicate' →
    Reads context object object' more →
    Reads context (.quoted subject predicate object)
      (.quad subject' predicate' object' .defaultGraph) (labels ++ more)

mutual

/-- What a written node stands for in triples, with the labels of the blank nodes that are made for
it. -/
inductive StandsFor (context : Context) (triples : List FlatTriple) :
    GraphNode → Term → List String → Prop
  | term {written : Surface.Term} {value : Term} {labels : List String} :
    context.Reads written value labels → (∀ label ∈ labels, about triples label = []) →
    StandsFor context triples (.term written) value labels
  | collection {items : List GraphNode} {head : Term} {cells labels : List String}
      {values : List Term} :
    cells.length = items.length → IsList triples head cells values →
    AllStand context triples items values labels →
    StandsFor context triples (.collection items) head (cells ++ labels)
  | properties {entries : List (Verb × GraphNode)} {label : String} {labels : List String}
      {values : List (FlatPredicate × Term)} :
    about triples label = values.map (fun value => ⟨.blank ⟨label⟩, value.1, value.2⟩) →
    EntriesStand context triples entries values labels →
    StandsFor context triples (.properties entries) (.blank ⟨label⟩) (label :: labels)

/-- What the items of a collection stand for. -/
inductive AllStand (context : Context) (triples : List FlatTriple) :
    List GraphNode → List Term → List String → Prop
  | nil : AllStand context triples [] [] []
  | cons {item : GraphNode} {items : List GraphNode} {value : Term} {values : List Term}
      {labels more : List String} :
    StandsFor context triples item value labels → AllStand context triples items values more →
    AllStand context triples (item :: items) (value :: values) (labels ++ more)

/-- What the predicates and objects of a list of properties stand for. -/
inductive EntriesStand (context : Context) (triples : List FlatTriple) :
    List (Verb × GraphNode) → List (FlatPredicate × Term) → List String → Prop
  | nil : EntriesStand context triples [] [] []
  | cons {verb : Verb} {object : GraphNode} {entries : List (Verb × GraphNode)}
      {predicate : FlatPredicate} {value : Term} {values : List (FlatPredicate × Term)}
      {labels more : List String} :
    context.predicate verb = .ok predicate → StandsFor context triples object value labels →
    EntriesStand context triples entries values more →
    EntriesStand context triples ((verb, object) :: entries) ((predicate, value) :: values)
      (labels ++ more)

end

variable {context : Context} {triples others : List FlatTriple}

mutual

/-- Triples about other blank nodes make no difference. -/
theorem StandsFor.congr : ∀ {written : GraphNode} {value : Term} {labels : List String},
    (∀ label ∈ labels, about others label = about triples label) →
    context.StandsFor triples written value labels → context.StandsFor others written value labels
  | .term _, _, _, same, .term reads bare =>
    .term reads fun label member => (same label member).trans (bare label member)
  | .collection _, _, _, same, .collection sameLength isList stand => by
    rw [List.forall_mem_append] at same
    exact .collection sameLength (isList.congr same.1) (stand.congr same.2)
  | .properties _, _, _, same, .properties ofLabel stand => by
    rw [List.forall_mem_cons] at same
    exact .properties (same.1.trans ofLabel) (stand.congr same.2)

theorem AllStand.congr : ∀ {items : List GraphNode} {values : List Term} {labels : List String},
    (∀ label ∈ labels, about others label = about triples label) →
    context.AllStand triples items values labels → context.AllStand others items values labels
  | [], _, _, _, .nil => .nil
  | _ :: _, _, _, same, .cons first rest => by
    rw [List.forall_mem_append] at same
    exact .cons (first.congr same.1) (rest.congr same.2)

theorem EntriesStand.congr : ∀ {entries : List (Verb × GraphNode)}
    {values : List (FlatPredicate × Term)} {labels : List String},
    (∀ label ∈ labels, about others label = about triples label) →
    context.EntriesStand triples entries values labels →
    context.EntriesStand others entries values labels
  | [], _, _, _, .nil => .nil
  | _ :: _, _, _, same, .cons ofVerb first rest => by
    rw [List.forall_mem_append] at same
    exact .cons ofVerb (first.congr same.1) (rest.congr same.2)

end

/-! ### What is spelled out -/

variable {supply : NameSupply}

theorem mints_newBlank (plain : context.MakesPlain) :
    Behaves False (fun after value => ∃ label, value = .blank ⟨label⟩
        ∧ supply.MintsLabels [label] after)
      context.newBlank supply := by
  have takes := NameSupply.Takes.label supply
  have taken : Behaves False (fun after label => supply.MintsLabels [label] after)
      (modifyGet NameSupply.takeLabel : Lowering String) supply :=
    ⟨.of_takes takes, .next takes (.none _)⟩
  rw [newBlank, plain]
  exact taken.bind fun label _ _ mints => .pure ⟨label, rfl, mints⟩

theorem reads_term (plain : context.MakesPlain) (written : Surface.Term) :
    Behaves False (fun after value => ∃ labels, supply.MintsLabels labels after
        ∧ context.Reads written value labels)
      (context.term written) supply := by
  induction written generalizing supply with
  | var name =>
    rw [Context.term]
    exact .pure ⟨[], .none _, .fixed (by rw [Context.term])⟩
  | iri iri =>
    rw [Context.term]
    refine .bindLift (.of_ok fun _ => id) fun node isNode => .pure ⟨[], .none _, .fixed ?_⟩
    rw [Context.term, isNode]
    rfl
  | literal text =>
    rw [Context.term]
    refine .bindLift (.of_ok fun _ => id) fun value isValue => .pure ⟨[], .none _, .fixed ?_⟩
    rw [Context.term, isValue]
    rfl
  | blank label =>
    rw [Context.term]
    exact .pure ⟨[], .none _, .fixed (by rw [Context.term])⟩
  | anonymous =>
    rw [Context.term]
    refine (mints_newBlank plain).imp ?_
    rintro _ after - ⟨label, rfl, mints⟩
    exact ⟨[label], mints, .anonymous label⟩
  | quoted subject predicate object ihSubject ihObject =>
    rw [Context.term, quad_eq plain]
    refine ihSubject.bind ?_
    rintro subject' between - ⟨labels, mints, ofSubject⟩
    refine .bindLift (.of_ok fun _ => id) fun predicate' ofPredicate => ihObject.bind ?_
    rintro object' after - ⟨more, mints', ofObject⟩
    rw [plain]
    exact .pure ⟨labels ++ more, mints.append mints', .quoted ofSubject ofPredicate ofObject⟩

/-- The blank nodes with labels. -/
def blanks (labels : List String) : List Term := labels.map fun label => .blank ⟨label⟩

theorem mints_newCells (plain : context.MakesPlain) (count : Nat) :
    Behaves False (fun after cells => ∃ labels, supply.MintsLabels labels after
        ∧ cells = blanks labels ∧ labels.length = count)
      (context.newCells count) supply := by
  induction count generalizing supply with
  | zero => exact .pure ⟨[], .none _, rfl, rfl⟩
  | succ count ih =>
    rw [newCells]
    refine (mints_newBlank plain).bind ?_
    rintro _ between - ⟨label, rfl, mints⟩
    refine ih.bind ?_
    rintro _ after - ⟨labels, mints', rfl, sameLength⟩
    exact .pure ⟨label :: labels, mints.append mints', rfl, congrArg (· + 1) sameLength⟩

theorem cellTriples_eq (plain : context.MakesPlain) (cell value next : Term) :
    context.cellTriples cell value next =
      [⟨cell, .term (.iri ⟨Vocabulary.rdfFirst⟩), value⟩,
        ⟨cell, .term (.iri ⟨Vocabulary.rdfRest⟩), next⟩] := by
  rw [cellTriples, vocabulary, vocabulary, plain]
  rfl

mutual

/-- A node stands for a term in the triples that it implies. -/
theorem standsFor_node (plain : context.MakesPlain) : ∀ (written : GraphNode)
    {supply : NameSupply},
    Behaves False (fun after result => ∃ labels, supply.MintsLabels labels after
        ∧ OnlyAbout labels result.2 ∧ context.StandsFor result.2 written result.1 labels)
      (context.node written) supply
  | .term value, _ => by
    rw [node]
    refine (reads_term plain value).bind ?_
    rintro term after - ⟨labels, mints, reads⟩
    exact .pure ⟨labels, mints, List.forall_mem_nil _, .term reads fun _ _ => rfl⟩
  | .collection items, supply => by
    rw [node]
    refine (mints_newCells plain items.length).bind ?_
    rintro _ between - ⟨cells, mints, rfl, sameLength⟩
    have last : context.vocabulary Vocabulary.rdfNil = .iri ⟨Vocabulary.rdfNil⟩ := by
      rw [vocabulary, plain]
      rfl
    rw [last]
    refine (allStand_listTriples plain items sameLength mints.nodup mints.has).bind ?_
    rintro triples after - ⟨labels, values, mints', only, isList, stand⟩
    exact .pure ⟨cells ++ labels, mints.append mints', only,
      .collection sameLength isList stand⟩
  | .properties entries, _ => by
    rw [node]
    refine (mints_newBlank plain).bind ?_
    rintro _ between - ⟨label, rfl, mints⟩
    refine (entriesStand_propertyTriples plain entries (mints.has label (by simp))).bind ?_
    rintro triples after - ⟨labels, values, mints', only, ofLabel, stand⟩
    exact .pure ⟨label :: labels, mints.append mints', only, .properties ofLabel stand⟩

/-- The items of a list stand for the first values of its cells. -/
theorem allStand_listTriples (plain : context.MakesPlain) : ∀ (items : List GraphNode)
    {cells : List String} {supply : NameSupply}, cells.length = items.length → cells.Nodup →
    (∀ cell ∈ cells, supply.Has (.blank cell)) →
    Behaves False (fun after triples => ∃ labels values, supply.MintsLabels labels after
        ∧ OnlyAbout (cells ++ labels) triples
        ∧ IsList triples ((blanks cells).headD (.iri ⟨Vocabulary.rdfNil⟩)) cells values
        ∧ context.AllStand triples items values labels)
      (context.listTriples items (blanks cells) (.iri ⟨Vocabulary.rdfNil⟩)) supply
  | [], [], _, _, _, _ => .pure ⟨[], [], .none _, List.forall_mem_nil _, .nil, .nil⟩
  | item :: items, cell :: cells, supply, sameLength, distinct, inUse => by
    rw [blanks, List.map_cons, listTriples]
    refine (standsFor_node plain item).bind ?_
    rintro ⟨value, before⟩ between gives ⟨labels, mints, ofItem, stands⟩
    refine (allStand_listTriples plain items (Nat.succ.inj sameLength) distinct.of_cons
      fun cell member => gives.has _ (inUse cell (List.mem_cons_of_mem _ member))).bind ?_
    rintro rest after - ⟨more, values, mints', ofRest, isList, stand⟩
    have distinct : (cell :: (labels ++ (cells ++ more))).Nodup :=
      ((List.perm_append_comm_assoc cells labels more).cons cell).nodup
        ((mints.append mints').nodup_append distinct inUse)
    obtain ⟨only, ofCell, ofLabels, ofOthers⟩ := FlatTriple.OnlyAbout.around
      (context.cellTriples (.blank ⟨cell⟩) value ((blanks cells).headD _))
      distinct ofItem (by simp [cellTriples]) (ofRest.mono (List.subset_cons_self ..))
    have isNew : cell ∉ cells ++ more := fun member =>
      (List.nodup_cons.1 distinct).1 (List.mem_append_right _ member)
    rw [List.forall_mem_append] at ofOthers
    refine .pure ⟨labels ++ more, value :: values, mints.append mints',
      only.mono (List.Perm.subset ((List.perm_append_comm_assoc labels cells more).cons cell)),
      .cons (ofCell.trans ?_) (isList.congr ofOthers.1),
      .cons (stands.congr ofLabels) (stand.congr ofOthers.2)⟩
    rw [ofRest.about_eq_nil isNew, List.append_nil, cellTriples_eq plain]

/-- A list of properties is what there is about its subject. -/
theorem entriesStand_propertyTriples (plain : context.MakesPlain) :
    ∀ (entries : List (Verb × GraphNode)) {subject : String} {supply : NameSupply},
    supply.Has (.blank subject) →
    Behaves False (fun after triples => ∃ labels values, supply.MintsLabels labels after
        ∧ OnlyAbout (subject :: labels) triples
        ∧ about triples subject
          = values.map (fun value => ⟨.blank ⟨subject⟩, value.1, value.2⟩)
        ∧ context.EntriesStand triples entries values labels)
      (context.propertyTriples (.blank ⟨subject⟩) entries) supply
  | [], _, _, _ => .pure ⟨[], [], .none _, List.forall_mem_nil _, rfl, .nil⟩
  | (verb, object) :: entries, subject, supply, inUse => by
    rw [propertyTriples]
    refine .bindLift (.of_ok fun _ => id) fun predicate ofVerb => ?_
    refine (standsFor_node plain object).bind ?_
    rintro ⟨value, before⟩ between gives ⟨labels, mints, ofObject, stands⟩
    refine (entriesStand_propertyTriples plain entries (gives.has _ inUse)).bind ?_
    rintro rest after - ⟨more, values, mints', ofRest, ofSubject, stand⟩
    have distinct : (subject :: (labels ++ more)).Nodup :=
      (mints.append mints').nodup_append (List.nodup_singleton subject)
        (List.forall_mem_singleton.2 inUse)
    obtain ⟨only, ofOwn, ofLabels, ofOthers⟩ := FlatTriple.OnlyAbout.around
      [⟨.blank ⟨subject⟩, predicate, value⟩] distinct ofObject
      (List.forall_mem_singleton.2 rfl) ofRest
    rw [ofSubject] at ofOwn
    rw [← List.singleton_append (l := rest), ← List.append_assoc]
    exact .pure ⟨labels ++ more, (predicate, value) :: values, mints.append mints', only, ofOwn,
      .cons ofVerb (stands.congr ofLabels) (stand.congr ofOthers)⟩

end

theorem standsFor_triple (plain : context.MakesPlain) (written : Surface.Triple)
    (supply : NameSupply) :
    Behaves False (fun after triples => ∃ implied subject predicate object labels more,
        triples = implied ++ [⟨subject, predicate, object⟩]
          ∧ supply.MintsLabels (labels ++ more) after ∧ OnlyAbout (labels ++ more) implied
          ∧ context.predicate written.verb = .ok predicate
          ∧ context.StandsFor implied written.subject subject labels
          ∧ context.StandsFor implied written.object object more)
      (context.triple written) supply := by
  rw [triple]
  refine (standsFor_node plain written.subject).bind ?_
  rintro ⟨subject, ofSubject⟩ between - ⟨labels, mints, only, stands⟩
  refine .bindLift (.of_ok fun _ => id) fun predicate ofVerb => ?_
  refine (standsFor_node plain written.object).bind ?_
  rintro ⟨object, ofObject⟩ after - ⟨more, mints', only', stands'⟩
  have disjoint := List.disjoint_of_nodup_append (mints.append mints').nodup
  refine .pure ⟨ofSubject ++ ofObject, subject, predicate, object, labels, more, rfl,
    mints.append mints', only.append only', ofVerb, stands.congr ?_, stands'.congr ?_⟩
  · exact fun label member => only'.about_append_left (disjoint member)
  · exact fun label member => only.about_append_right fun isEarlier => disjoint isEarlier member

/-- **Collections and property lists become well-formed lists and descriptions of new blank nodes.**
The triples that a triple of a request implies are about these blank nodes alone, whose labels are
different from each other and from those that are written. -/
theorem triple_expands {request : Surface.Request} {supply after : NameSupply}
    (plain : context.MakesPlain) (gives : (NameSupply.ofNames request.names).Gives supply)
    {written : Surface.Triple} {triples : List FlatTriple}
    (success : context.triple written supply = .ok triples after) :
    ∃ implied subject predicate object labels more,
      triples = implied ++ [⟨subject, predicate, object⟩]
        ∧ context.predicate written.verb = .ok predicate
        ∧ context.StandsFor implied written.subject subject labels
        ∧ context.StandsFor implied written.object object more
        ∧ (labels ++ more).Nodup
        ∧ (∀ label ∈ labels ++ more, .blank label ∉ request.toJson.names)
        ∧ ∀ triple ∈ implied, ∃ label ∈ labels ++ more, triple.subject = .blank ⟨label⟩ := by
  have behaves := standsFor_triple plain written supply
  unfold Behaves at behaves
  rw [success] at behaves
  obtain ⟨-, implied, subject, predicate, object, labels, more, rfl, mints, only, ofVerb, ofSubject,
    ofObject⟩ := behaves
  refine ⟨implied, subject, predicate, object, labels, more, rfl, ofVerb, ofSubject, ofObject,
    mints.nodup, fun label member isWritten => ?_, only⟩
  exact mints.fresh label member (gives.has _ (NameSupply.has_ofNames.2 isWritten))

/-- The triple `([ ?p ?x ] ?y) ?p ()`. -/
private def nestedTriple : Surface.Triple :=
  ⟨.collection [.properties [(.simple (.var ⟨"p"⟩), .term (.var ⟨"x"⟩))], .term (.var ⟨"y"⟩)],
    .simple (.var ⟨"p"⟩), .collection []⟩

/-- The query `ASK { ([ ?p ?x ] ?y) ?p () }`. -/
private def nestedQuery : Surface.Request :=
  ⟨.none, .query (.ask ⟨none, .group [.bgp [nestedTriple] .none] .none, .none⟩)⟩

/-- What its triple implies: an entry of one blank node, and two cells. -/
private def nestedImplied (cell cell' entry : String) : List FlatTriple :=
  [⟨.blank ⟨entry⟩, .term (.var ⟨"p"⟩), .var ⟨"x"⟩⟩,
    ⟨.blank ⟨cell⟩, .term (.iri ⟨Vocabulary.rdfFirst⟩), .blank ⟨entry⟩⟩,
    ⟨.blank ⟨cell⟩, .term (.iri ⟨Vocabulary.rdfRest⟩), .blank ⟨cell'⟩⟩,
    ⟨.blank ⟨cell'⟩, .term (.iri ⟨Vocabulary.rdfFirst⟩), .var ⟨"y"⟩⟩,
    ⟨.blank ⟨cell'⟩, .term (.iri ⟨Vocabulary.rdfRest⟩), .iri ⟨Vocabulary.rdfNil⟩⟩]

theorem triple_expands_nestedTriple :
    (Context.ofOptions .plain {}).MakesPlain
      ∧ (NameSupply.ofNames nestedQuery.names).Gives (.ofNames nestedQuery.names)
      ∧ (∃ after, (Context.ofOptions .plain {}).triple nestedTriple (.ofNames nestedQuery.names)
        = .ok (nestedImplied "g_0" "g_1" "g_2"
          ++ [⟨.blank ⟨"g_0"⟩, .term (.var ⟨"p"⟩), .iri ⟨Vocabulary.rdfNil⟩⟩]) after)
      ∧ ∃ labels more,
        (Context.ofOptions .plain {}).StandsFor (nestedImplied "g_0" "g_1" "g_2")
            nestedTriple.subject (.blank ⟨"g_0"⟩) labels
          ∧ (Context.ofOptions .plain {}).StandsFor (nestedImplied "g_0" "g_1" "g_2")
            nestedTriple.object (.iri ⟨Vocabulary.rdfNil⟩) more
          ∧ (labels ++ more).Nodup
          ∧ ∀ label ∈ labels ++ more, .blank label ∉ nestedQuery.toJson.names := by
  have run : ∀ i j k, firstFree NameSupply.labelName [] 0 = i →
      firstFree NameSupply.labelName [NameSupply.labelName i] (i + 1) = j →
      firstFree NameSupply.labelName [NameSupply.labelName j, NameSupply.labelName i] (j + 1) = k →
      ∃ after, (Context.ofOptions .plain {}).triple nestedTriple (.ofNames nestedQuery.names)
        = .ok (nestedImplied (NameSupply.labelName i) (NameSupply.labelName j)
            (NameSupply.labelName k)
          ++ [⟨.blank ⟨NameSupply.labelName i⟩, .term (.var ⟨"p"⟩), .iri ⟨Vocabulary.rdfNil⟩⟩])
          after := by
    rintro i j k rfl rfl rfl
    exact ⟨_, rfl⟩
  obtain ⟨after, success⟩ := run 0 1 2 (by rw [firstFree, if_neg (by decide)])
    (by rw [firstFree, if_neg (by decide)]) (by rw [firstFree, if_neg (by decide)])
  have plain : (Context.ofOptions .plain {}).MakesPlain := rfl
  have gives := NameSupply.Gives.refl (.ofNames nestedQuery.names)
  refine ⟨plain, gives, ⟨after, success⟩, ?_⟩
  obtain ⟨implied, subject, predicate, object, labels, more, parts, -, ofSubject, ofObject,
    distinct, unwritten, -⟩ := triple_expands plain gives success
  obtain ⟨rfl, last⟩ : nestedImplied "g_0" "g_1" "g_2" = implied ∧ _ = _ :=
    List.append_inj' parts rfl
  cases last
  exact ⟨labels, more, ofSubject, ofObject, distinct, unwritten⟩

end Context

end QueryAlgebra
