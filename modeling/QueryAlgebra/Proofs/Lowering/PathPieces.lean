import QueryAlgebra.Proofs.Lifting.WrittenTerms
import QueryAlgebra.Proofs.Lowering.NamesOfRequests
import QueryAlgebra.Proofs.Semantics.PathRelations

/-! # The pieces of property paths

A triple with a property path becomes patterns and paths that go through new variables. They hold,
for some values of the new variables, exactly if the written path relates the subject to the object:
`Context.tripleFragments_path`.
-/

namespace QueryAlgebra

/-! ### Values of variables and blank nodes -/

/-- Terms for variables and blank nodes. -/
abbrev Valuation := LocalName → Term

/-- The term with its variables and blank nodes replaced by their values. -/
def Term.under (values : Valuation) (term : Term) : Term :=
  term.mapNested fun
    | .var name => values (.var name.name)
    | .blank node => values (.blank node.label)
    | other => other

namespace Fragment

/-- The names in a pattern or path. -/
def localNames : Fragment → List LocalName
  | .pattern ⟨subject, predicate, object, _⟩ =>
    subject.localNames ++ predicate.localNames ++ object.localNames
  | .path subject _ object _ => subject.localNames ++ object.localNames

/-- Whether a pattern or path holds in the triples of the default graph. -/
def Holds (graph : TripleGraph) (values : Valuation) : Fragment → Prop
  | .pattern ⟨subject, predicate, object, name⟩ =>
    name = .defaultGraph ∧ ∃ node, predicate.under values = .iri node
      ∧ graph.Links node (subject.under values) (object.under values)
  | .path subject route object name =>
    name = .defaultGraph ∧ route.Relates graph (subject.under values) (object.under values)

end Fragment

/-- Only the values of its own names matter to a term. -/
theorem Term.under_congr {values values' : Valuation} : ∀ {term : Term},
    (∀ name ∈ term.localNames, values name = values' name) → term.under values = term.under values'
  | .iri _, _ | .literal _, _ | .defaultGraph, _ => rfl
  | .blank node, same => same (.blank node.label) (by simp [localNames, nested])
  | .var name, same => same (.var name.name) (by simp [localNames, nested])
  | .quad subject predicate object graph, same => by
    simp only [localNames, nested, List.filterMap_append, List.forall_mem_append] at same
    obtain ⟨⟨⟨⟨ofSubject, ofPredicate⟩, ofObject⟩, ofGraph⟩, -⟩ := same
    show Term.quad (subject.under values) (predicate.under values) (object.under values)
      (graph.under values) = _
    rw [Term.under_congr ofSubject, Term.under_congr ofPredicate, Term.under_congr ofObject,
      Term.under_congr ofGraph]
    rfl

/-- Only the values of its own names matter to a pattern or path. -/
theorem Fragment.holds_congr {graph : TripleGraph} {values values' : Valuation} {piece : Fragment}
    (same : ∀ name ∈ piece.localNames, values name = values' name) :
    piece.Holds graph values ↔ piece.Holds graph values' := by
  cases piece with
  | pattern pattern =>
    obtain ⟨subject, predicate, object, name⟩ := pattern
    simp only [localNames, List.forall_mem_append] at same
    rw [Holds, Holds, Term.under_congr same.1.1, Term.under_congr same.1.2,
      Term.under_congr same.2]
  | path subject path object name =>
    simp only [localNames, List.forall_mem_append] at same
    rw [Holds, Holds, Term.under_congr same.1, Term.under_congr same.2]

namespace NameSupply

/-- All names in a term are in use. -/
def Knows (supply : NameSupply) (term : Term) : Prop := ∀ name ∈ term.localNames, supply.Has name

theorem Knows.mono {supply after : NameSupply} {term : Term} (knows : supply.Knows term)
    (gives : supply.Gives after) : after.Knows term := fun name member =>
  gives.has name (knows name member)

/-- What new variables stand for does not matter to a term whose names are in use. -/
theorem Knows.under_eq {supply after : NameSupply} {minted : List LocalName} {term : Term}
    {values chosen : Valuation} (knows : supply.Knows term) (mints : supply.Mints minted after)
    (others : ∀ name, name ∉ minted → chosen name = values name) :
    term.under chosen = term.under values :=
  Term.under_congr fun name member =>
    others name fun isMinted => mints.fresh name isMinted (knows name member)

end NameSupply

/-! ### Pieces that hold where a path does -/

/-- What comes of a step are pieces that hold, for some values of new variables, exactly if two
terms are related. -/
structure Spells (relation : TripleGraph → Term → Term → Prop) (subject object : Term)
    (supply : NameSupply) (pieces : List Fragment) (after : NameSupply)
    (minted : List Variable) : Prop where
  mints : supply.Mints (minted.map fun name => .var name.name) after
  names : ∀ piece ∈ pieces, ∀ name ∈ piece.localNames, after.Has name
  holds (graph : TripleGraph) (values : Valuation) :
    relation graph (subject.under values) (object.under values)
      ↔ ∃ chosen : Valuation,
        (∀ name, name ∉ minted.map (fun name => LocalName.var name.name) →
          chosen name = values name)
        ∧ ∀ piece ∈ pieces, piece.Holds graph chosen

namespace Spells

variable {relation : TripleGraph → Term → Term → Prop} {subject object : Term}
  {supply : NameSupply}

/-- A single piece needs no new variables. -/
theorem single {piece : Fragment}
    (names : ∀ name ∈ piece.localNames, name ∈ subject.localNames ∨ name ∈ object.localNames)
    (ofSubject : supply.Knows subject) (ofObject : supply.Knows object)
    (holds : ∀ graph values, relation graph (subject.under values) (object.under values)
      ↔ piece.Holds graph values) :
    Spells relation subject object supply [piece] supply [] where
  mints := .none supply
  names := List.forall_mem_singleton.2 fun name member =>
    (names name member).elim (ofSubject name) (ofObject name)
  holds graph values := by
    rw [holds]
    constructor
    · exact fun piece => ⟨values, fun _ _ => rfl, List.forall_mem_singleton.2 piece⟩
    · rintro ⟨chosen, others, pieces⟩
      have same : chosen = values := funext fun name => others name List.not_mem_nil
      exact same ▸ pieces _ (List.mem_singleton_self _)

/-- Two rows of pieces that meet in a new variable. -/
theorem chain {first second : TripleGraph → Term → Term → Prop} {name : Variable}
    {start between after : NameSupply} {pieces more : List Fragment}
    {minted others : List Variable} (ofSubject : supply.Knows subject)
    (ofObject : supply.Knows object) (takes : supply.Takes (.var name.name) start)
    (ofFirst : Spells first subject (.var name) start pieces between minted)
    (ofSecond : Spells second (.var name) object between more after others) :
    Spells (fun graph head last => ∃ middle, first graph head middle ∧ second graph middle last)
      subject object supply (pieces ++ more) after (name :: (minted ++ others)) := by
  have taken : supply.Mints [.var name.name] start := .next takes (.none start)
  have known : start.Knows (.var name) := fun other member => by
    obtain rfl : other = .var name.name := List.mem_singleton.1 member
    exact (takes.has_iff _).2 (.inl rfl)
  have mints : supply.Mints ((name :: (minted ++ others)).map fun name => .var name.name)
      after := by
    rw [List.map_cons, List.map_append]
    exact .next takes (ofFirst.mints.append ofSecond.mints)
  refine ⟨mints, List.forall_mem_append.2 ⟨fun piece member other inPiece => ?_, ofSecond.names⟩,
    fun graph values => ⟨?_, ?_⟩⟩
  · exact NameSupply.Gives.has ⟨_, ofSecond.mints⟩ other (ofFirst.names piece member other inPiece)
  · rintro ⟨middle, ofHead, ofLast⟩
    -- The new variable stands for the middle; the others are chosen from left to right.
    let chosen₀ : Valuation := fun other => if other = .var name.name then middle else values other
    have same₀ (other : LocalName) (old : other ∉ [LocalName.var name.name]) :
        chosen₀ other = values other := if_neg fun isName => old (List.mem_singleton.2 isName)
    have isMiddle : (Term.var name).under chosen₀ = middle := if_pos rfl
    have head : first graph (subject.under chosen₀) ((Term.var name).under chosen₀) := by
      rwa [isMiddle, ofSubject.under_eq taken same₀]
    obtain ⟨chosen₁, same₁, hold₁⟩ := (ofFirst.holds graph chosen₀).1 head
    have last : second graph ((Term.var name).under chosen₁) (object.under chosen₁) := by
      rwa [known.under_eq ofFirst.mints same₁, isMiddle,
        (ofObject.mono ⟨_, taken⟩).under_eq ofFirst.mints same₁, ofObject.under_eq taken same₀]
    obtain ⟨chosen₂, same₂, hold₂⟩ := (ofSecond.holds graph chosen₁).1 last
    refine ⟨chosen₂, fun other old => ?_, List.forall_mem_append.2 ⟨fun piece member => ?_, hold₂⟩⟩
    · simp only [List.map_cons, List.map_append, List.mem_cons, List.mem_append, not_or] at old
      rw [same₂ other old.2.2, same₁ other old.2.1, same₀ other (by simpa using old.1)]
    · refine (Fragment.holds_congr fun other inPiece => ?_).2 (hold₁ piece member)
      exact same₂ other fun isNew =>
        ofSecond.mints.fresh other isNew (ofFirst.names piece member other inPiece)
  · rintro ⟨chosen, same, hold⟩
    obtain ⟨ofPieces, ofMore⟩ := List.forall_mem_append.1 hold
    refine ⟨(Term.var name).under chosen, ?_, ?_⟩
    · rw [← ofSubject.under_eq mints same]
      exact (ofFirst.holds graph chosen).2 ⟨chosen, fun _ _ => rfl, ofPieces⟩
    · rw [← ofObject.under_eq mints same]
      exact (ofSecond.holds graph chosen).2 ⟨chosen, fun _ _ => rfl, ofMore⟩

end Spells

namespace Context

variable {context : Context}

/-- When triples are spelled out, all names in their subjects and objects are in use, so that new
variables are not mistaken for them. -/
theorem triples_known (plain : context.MakesPlain) {written : List Surface.Triple}
    {supply after : NameSupply} {flat : List FlatTriple}
    (covers : ∀ triple ∈ written, supply.Covers triple.names)
    (success : context.triples written supply = .ok flat after) :
    ∀ triple ∈ flat, after.Knows triple.subject ∧ after.Knows triple.object := by
  have suits : context.Suits (.ofNames { quads := context.quads }) :=
    ⟨plain, False.elim, Iff.rfl⟩
  have behaves := behaves_triples suits covers fun triple _ => triple.meets_nothing false
  rw [Lowering.Behaves, success] at behaves
  exact fun triple member =>
    ⟨(behaves.2 triple member).subject.allows, (behaves.2 triple member).object.allows⟩

theorem newVariable_takes (plain : context.MakesPlain) (supply : NameSupply) :
    ∃ name after, context.newVariable supply = .ok name after
      ∧ supply.Takes (.var name.name) after :=
  ⟨⟨supply.takeVariable.1⟩, supply.takeVariable.2, by rw [newVariable, plain]; rfl,
    .numbered supply⟩

/-- A path operation holds where its path does. -/
private theorem path_spells (plain : context.MakesPlain) (path : Path) {subject object : Term}
    {supply : NameSupply} (ofSubject : supply.Knows subject) (ofObject : supply.Knows object) :
    Spells (fun graph => path.Relates graph) subject object supply
      [.path subject path object context.factory.defaultGraph] supply [] :=
  .single (fun _ => List.mem_append.1) ofSubject ofObject fun graph values => by
    rw [Fragment.Holds, plain]
    exact (and_iff_right rfl).symm

mutual

/-- The pieces of a path hold where the path does. -/
theorem fragments_spells (plain : context.MakesPlain) : ∀ (path : Path) {subject object : Term}
    {supply : NameSupply}, supply.Knows subject → supply.Knows object →
    ∃ pieces after minted, context.fragments subject path object supply = .ok pieces after
      ∧ Spells (fun graph => path.Relates graph) subject object supply pieces after minted
  | .link predicate, subject, object, supply, ofSubject, ofObject => by
    refine ⟨_, supply, [], by rw [fragments]; rfl,
      .single (fun name member => ?_) ofSubject ofObject fun graph values => ?_⟩
    · simpa [Fragment.localNames, Term.localNames, Term.nested] using member
    · rw [Fragment.Holds, plain]
      exact ⟨fun links => ⟨rfl, predicate, rfl, links⟩, fun ⟨_, _, same, links⟩ =>
        Term.iri.inj same ▸ links⟩
  | .inverse path, subject, object, supply, ofSubject, ofObject => by
    obtain ⟨pieces, after, minted, success, spells⟩ :=
      fragments_spells plain path ofObject ofSubject
    rw [fragments]
    exact ⟨pieces, after, minted, success, spells.mints, spells.names, fun graph values =>
      spells.holds graph values⟩
  | .seq steps, subject, object, supply, ofSubject, ofObject => by
    rw [fragments]
    exact stepFragments_spells plain steps ofSubject ofObject
  | .alt _, _, _, supply, ofSubject, ofObject
  | .zeroOrMore _, _, _, supply, ofSubject, ofObject
  | .oneOrMore _, _, _, supply, ofSubject, ofObject
  | .zeroOrOne _, _, _, supply, ofSubject, ofObject
  | .negated _, _, _, supply, ofSubject, ofObject =>
    ⟨_, supply, [], rfl, path_spells plain _ ofSubject ofObject⟩

/-- The pieces of a sequence hold where its steps do one after another. -/
theorem stepFragments_spells (plain : context.MakesPlain) : ∀ (steps : List Path)
    {subject object : Term} {supply : NameSupply}, supply.Knows subject → supply.Knows object →
    ∃ pieces after minted, context.stepFragments subject steps object supply = .ok pieces after
      ∧ Spells (fun graph => Path.RelatesInTurn graph steps) subject object supply pieces after
        minted
  | [], subject, object, supply, ofSubject, ofObject =>
    ⟨_, supply, [], by rw [stepFragments]; rfl, path_spells plain (.seq []) ofSubject ofObject⟩
  | [step], subject, object, supply, ofSubject, ofObject => by
    obtain ⟨pieces, after, minted, success, spells⟩ :=
      fragments_spells plain step ofSubject ofObject
    rw [stepFragments]
    refine ⟨pieces, after, minted, success, spells.mints, spells.names, fun graph values => ?_⟩
    rw [Path.relatesInTurn_singleton]
    exact spells.holds graph values
  | step :: next :: steps, subject, object, supply, ofSubject, ofObject => by
    obtain ⟨name, start, isName, takes⟩ := newVariable_takes plain supply
    have gives : supply.Gives start := .of_takes takes
    have known : start.Knows (.var name) := fun other member => by
      obtain rfl : other = .var name.name := List.mem_singleton.1 member
      exact (takes.has_iff _).2 (.inl rfl)
    obtain ⟨pieces, between, minted, ofStep, first⟩ :=
      fragments_spells plain step (ofSubject.mono gives) known
    have given : start.Gives between := ⟨_, first.mints⟩
    obtain ⟨more, after, others, ofRest, second⟩ :=
      stepFragments_spells plain (next :: steps) (known.mono given)
        ((ofObject.mono gives).mono given)
    refine ⟨pieces ++ more, after, name :: (minted ++ others), ?_,
      .chain ofSubject ofObject takes first second⟩
    rw [stepFragments, Lowering.bind_ok isName, Lowering.bind_ok ofStep, Lowering.bind_ok ofRest]
    rfl

end

/-- A triple with a path that is accepted becomes patterns and paths in new variables. They hold,
for some values of these, exactly if the path that is written relates the subject to the object. -/
theorem tripleFragments_path (plain : context.MakesPlain) (written : Surface.Path)
    {subject object : Term} {supply : NameSupply}
    (known : ∀ name ∈ subject.localNames ++ object.localNames, supply.Has name) :
    match context.path written with
    | .error error =>
      context.tripleFragments ⟨subject, .path written, object⟩ supply = .error error supply
    | .ok _ => ∃ (pieces : List Fragment) (after : NameSupply) (minted : List Variable),
      context.tripleFragments ⟨subject, .path written, object⟩ supply = .ok pieces after
        ∧ minted.Nodup
        ∧ (∀ name ∈ minted, LocalName.var name.name ∉ subject.localNames
          ∧ LocalName.var name.name ∉ object.localNames)
        ∧ ∀ (graph : TripleGraph) (values : Valuation),
          written.Relates context graph (subject.under values) (object.under values)
            ↔ ∃ chosen : Valuation,
              (∀ name, name ∉ minted.map (fun name => LocalName.var name.name) →
                chosen name = values name)
              ∧ ∀ piece ∈ pieces, piece.Holds graph chosen := by
  obtain ⟨ofSubject, ofObject⟩ := List.forall_mem_append.1 known
  have steps : context.tripleFragments ⟨subject, .path written, object⟩
      = liftM (context.path written) >>= fun path => context.fragments subject path object := rfl
  rw [steps]
  cases success : context.path written with
  | error error => rfl
  | ok path =>
    obtain ⟨pieces, after, minted, isSpelled, spells⟩ :=
      fragments_spells plain path ofSubject ofObject
    refine ⟨pieces, after, minted, isSpelled, spells.mints.nodup.of_map _,
      fun name member => ?_, ?_⟩
    · have isNew := spells.mints.fresh _ (List.mem_map_of_mem member)
      exact ⟨fun inSubject => isNew (ofSubject _ inSubject),
        fun inObject => isNew (ofObject _ inObject)⟩
    · intro graph values
      rw [relates_of_path graph success]
      exact spells.holds graph values

/-- `^(<http://ex.org/p>/!(<http://ex.org/p>|^<http://ex.org/q>))`. -/
private def stepsBackwards : Surface.Path :=
  .inverse (.group (.sequence (.iri ⟨.full "http://ex.org/p", .none⟩)
    (.negated [.forward ⟨.full "http://ex.org/p", .none⟩,
      .inverse ⟨.full "http://ex.org/q", .none⟩] .none) .none) .none) .none

/-- The context of a request without declarations. -/
private def undeclared : Context := .ofOptions .plain ⟨false, false, .empty, none⟩

/-- Followed backwards, a sequence goes from the object through a new variable to the subject. -/
theorem tripleFragments_path_stepsBackwards : ∃ minted : List Variable,
    (∀ name ∈ (Term.var ⟨"s"⟩).localNames ++ (Term.var ⟨"o"⟩).localNames,
        (NameSupply.ofNames ⟨["s", "o"], []⟩).Has name)
      ∧ minted.Nodup
      ∧ ∀ (graph : TripleGraph) (values : Valuation),
        stepsBackwards.Relates undeclared graph (values (.var "s")) (values (.var "o"))
          ↔ ∃ chosen : Valuation,
            (∀ name, name ∉ minted.map (fun name => LocalName.var name.name) →
              chosen name = values name)
            ∧ ∀ piece ∈ [
                Fragment.pattern ⟨.var ⟨"o"⟩, .iri ⟨"http://ex.org/p"⟩, .var ⟨"var0"⟩,
                  .defaultGraph⟩,
                .path (.var ⟨"var0"⟩)
                  (.alt [.negated [⟨"http://ex.org/p"⟩], .inverse (.negated [⟨"http://ex.org/q"⟩])])
                  (.var ⟨"s"⟩) .defaultGraph],
              piece.Holds graph chosen := by
  have known : ∀ name ∈ (Term.var ⟨"s"⟩).localNames ++ (Term.var ⟨"o"⟩).localNames,
      (NameSupply.ofNames ⟨["s", "o"], []⟩).Has name := by
    simp [Term.localNames, Term.nested, NameSupply.ofNames, NameSupply.Has]
  have plain : undeclared.MakesPlain := rfl
  obtain ⟨pieces, after, minted, success, distinct, -, holds⟩ :=
    tripleFragments_path plain stepsBackwards known
  have free : firstFree NameSupply.variableName (NameSupply.ofNames ⟨["s", "o"], []⟩).vars
      (NameSupply.ofNames ⟨["s", "o"], []⟩).nextVariable = 0 := by
    rw [firstFree, if_neg (by decide)]
    rfl
  have named : NameSupply.variableName 0 = "var0" := by decide
  cases success
  rw [free, named] at holds
  exact ⟨minted, known, distinct, holds⟩

end Context

end QueryAlgebra
