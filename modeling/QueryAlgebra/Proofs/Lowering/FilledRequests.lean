import QueryAlgebra.Proofs.Lowering.AdmittedParts
import QueryAlgebra.Proofs.Lowering.ComparedPatterns
import QueryAlgebra.Proofs.Lowering.ComposedComparisons
import QueryAlgebra.Proofs.Lowering.EnclosingGraphs
import QueryAlgebra.Proofs.Lowering.FilledBlocks
import QueryAlgebra.Proofs.Lowering.GraphRoundTrip
import QueryAlgebra.Proofs.Lowering.PairedPieces
import QueryAlgebra.Proofs.Lowering.PlacedLikeness
import QueryAlgebra.Proofs.Operation.CorrespondingBlanks
import Mathlib.Tactic.FinCases

/-! # Graph names that only fill patterns

With graph names in patterns, the name of a block goes into what is inside. Below a projection that
does not show it, and below a binding of it, a new variable takes the place of the name wherever the
name stands, because there it is not the one that is bound outside. That is meant for variables, but
no projection shows an IRI, so an IRI that stands in a subquery in a block of that IRI is replaced
as well. Where no name of a block stands in such a place (`Surface.Request.SparesNames`), the names
do nothing but fill the graphs of patterns: `Surface.Request.inDefaultGraph_lower`.

With graph names in patterns more variables are taken, so other names are left for what comes after.
The two operations correspond under the variables that were taken in the same places; columns of
inline data are written, so they are the same on both sides and canonical names take no notice.
-/

namespace QueryAlgebra

open Lowering (Yields)

/-- If the pattern is a graph block, its name is spared by what is inside, from whichever names new
ones are taken. -/
def Context.SparesName (context : Context) (pattern : Surface.Pattern) : Prop :=
  ∀ name inner span block, pattern = .graph name inner span →
    context.varOrIri name = .ok block →
    Yields (fun operation => operation.spares block false = true) (context.pattern inner)

/-- Inline data whose columns and variables are in use. -/
def NameSupply.KnowsTable (written : NameSupply) (table : List Variable × List Row) : Prop :=
  ∀ row ∈ table.2, written.KnowsRow row

/-- Tables come from inline data alone. -/
private theorem admits_tables (P : List Variable × List Row → Prop) :
    Gather.ofTables.Admits P True where
  closed _ := rfl
  pattern _ _ := rfl
  expression _ := rfl
  bgp _ := List.forall_mem_nil _
  path _ _ _ _ := List.forall_mem_nil _
  combine _ _ := List.forall_mem_nil _
  leftJoin _ _ _ := List.forall_mem_nil _
  minus _ _ := List.forall_mem_nil _
  filter _ _ := List.forall_mem_nil _
  service _ _ _ := List.forall_mem_nil _
  extend _ _ _ _ := List.forall_mem_nil _
  wrap _ _ _ := List.forall_mem_nil _
  group _ _ _ _ := List.forall_mem_nil _
  orderBy _ _ _ := List.forall_mem_nil _
  construct _ _ _ := List.forall_mem_nil _

private theorem filling_staysIn : Placing.filling.StaysIn .outside where
  enter {wrapper} other := by
    cases wrapper with
    | graph name => exact absurd rfl (other name)
    | _ => rfl
  bind _ := rfl
  value := rfl
  graph := rfl

namespace NamePairing

variable {written : NameSupply}

/-- Passages without and with graph names in patterns: what the second makes corresponds to what the
first makes when the names are left out, and has the tables that are written. -/
def filled (written : NameSupply) : Comparison (NamePairing written) :=
  ((corresponding written).followedBy (.admitting .ofTables written.KnowsTable)).followedBy
    (.placedBy .filling .outside)

theorem filled_closed (written : NameSupply) : (filled written).Closed True :=
  Comparison.followedBy_closed
    (Comparison.followedBy_closed (corresponding_closed written)
      (Likeness.admitting_closed (admits_tables _)))
    (Likeness.placedBy_closed filling_staysIn)

/-- What is related is filled from what corresponds. -/
theorem filled_operations_iff {pairing : NamePairing written} {plain named : Operation} :
    (filled written).operations pairing plain named
      ↔ ∃ bare, plain.Corresponds pairing.Related bare
        ∧ (∀ table ∈ bare.tables, written.KnowsTable table) ∧ bare.InDefault
        ∧ bare.place .filling .outside = named := by
  constructor
  · rintro ⟨bare, ⟨_, correspond, tables, rfl⟩, inDefault, rfl⟩
    exact ⟨_, correspond, tables, inDefault, rfl⟩
  · rintro ⟨bare, correspond, tables, inDefault, rfl⟩
    exact ⟨_, ⟨_, correspond, tables, rfl⟩, inDefault, rfl⟩

end NamePairing

theorem NameSupply.AddsVariables.tied {written supply after after' : NameSupply}
    {pairing : NamePairing written} (tied : pairing.Tied supply after)
    (adds : after.AddsVariables after') : pairing.Tied supply after' :=
  ⟨adds.labels.trans tied.labels, adds.nextLabel.trans tied.nextLabel,
    fun paired => ⟨(tied.inUse paired).1, adds.vars (tied.inUse paired).2⟩⟩

namespace Context

open NamePairing (corresponding filled)
open Comparison (Agree Outcome)

variable {written : NameSupply} {context : Context} {pairing : NamePairing written}

private theorem fill_pieces (plain : context.MakesPlain) {triples : List Surface.Triple}
    (covers : written.Covers (Surface.Names.all Surface.Triple.names triples)) :
    (filled written).Agree (filled written).operations pairing (context.basicGraphPattern triples)
      (context.basicGraphPattern triples) := by
  have pieces := context.basicGraphPattern_yields triples
  rw [plain] at pieces
  refine ((NamePairing.agree_basicGraphPattern plain covers).and_yields
    pieces).followedBy.followedBy.imp fun _ first second ⟨correspond, ofPieces⟩ => ?_
  exact NamePairing.filled_operations_iff.2 ⟨second, correspond,
    (admits_tables _).ofPieces ofPieces, ofPieces.inDefault, ofPieces.place⟩

private theorem fill_data (plain : context.MakesPlain) {data : Surface.InlineData}
    (covers : written.Covers data.names) :
    (filled written).Agree (filled written).operations pairing (context.inlineData data)
      (context.inlineData data) := by
  refine (NamePairing.agree_inlineData plain covers).followedBy.followedBy.imp
    fun later first second ⟨same, isTable⟩ => ?_
  obtain rfl := same
  obtain ⟨vars, rows, rfl, areWritten, known⟩ := isTable
  exact NamePairing.filled_operations_iff.2 ⟨_, NamePairing.table_corresponds_self areWritten known,
    List.forall_mem_singleton.2 known, fun _ => rfl, rfl⟩

private theorem fill_template (plain : context.MakesPlain) {triples : List Surface.Triple}
    (covers : written.Covers (Surface.Names.all Surface.Triple.names triples)) :
    (filled written).Agree (filled written).templates pairing
      (context.template context.factory.defaultGraph triples)
      (context.template context.factory.defaultGraph triples) := by
  have inDefault := context.template_yields context.factory.defaultGraph triples
  refine ((NamePairing.agree_template plain covers).and_yields
    inDefault).followedBy.followedBy.imp fun _ first second ⟨correspond, ofPatterns⟩ => ?_
  rw [plain] at ofPatterns
  exact ⟨⟨correspond, ofPatterns⟩, ofPatterns⟩

private theorem fill_block {block : Term} (named : block.asGraph = block)
    (isName : block ≠ .defaultGraph) {plain named' : Operation}
    (spared : plain.spares block false = true)
    (itself : block.Corresponds pairing.Related block)
    (alike : (filled written).operations pairing plain named')
    {supply supply' : NameSupply} (tied : pairing.Tied supply supply') :
    (filled written).Outcome (filled written).operations pairing (.ok (plain.graph block) supply)
      ((do
        let input ← context.embedGraph block named'
        pure (input.graph block)) supply') := by
  obtain ⟨bare, correspond, tables, inDefault, rfl⟩ := NamePairing.filled_operations_iff.1 alike
  have spared' : bare.spares block false = true := by
    rw [← correspond.spares pairing.related_biUnique itself, spared]
  obtain ⟨after, success, adds⟩ := puts_embedGraph context named isName spared' supply'
  rw [Lowering.bind_ok success]
  refine .ok le_rfl (adds.tied tied) (NamePairing.filled_operations_iff.2
    ⟨bare.graph block, .mk none (.wrap (.graph itself) correspond), ?_, ?_, rfl⟩)
  · exact List.forall_mem_append.2 ⟨tables, List.forall_mem_nil _⟩
  · exact fun _ => congrArg (·.graph block) (inDefault block)

/-- Where the names of graph blocks are spared, they only fill patterns. -/
theorem compares_filled (plain : context.MakesPlain) (quads : context.quads = false) :
    context.Compares true (filled written) written context.SparesName True where
  closed := NamePairing.filled_closed written
  var pairing name isWritten := by
    rw [var_eq plain]
    exact .var (.var (pairing.itself isWritten))
  iri _ node := .iri node
  literal _ text := .literal text
  new pairing := (NamePairing.relatesNew plain pairing).followedBy.followedBy
  triples _ _ := fill_pieces plain
  template _ _ := fill_template plain
  data _ _ := fill_data plain
  binding _ _ := trivial
  graph {_ name pattern span block input input' supply after after'} spared made named itself alike
      tied := by
    rw [quads, if_neg Bool.false_ne_true, if_pos rfl]
    exact fill_block (varOrIri_asGraph named) (varOrIri_ne_defaultGraph named)
      (spared name pattern span block rfl named supply input after made) itself alike tied

/-! ### Blank nodes as variables -/

/-- The variables of one label, under that label. -/
private def SameLabelVariables (pairing : NamePairing written)
    (entry entry' : String × Variable) : Prop :=
  entry.1 = entry'.1 ∧ pairing.vars entry.2.name entry'.2.name

private theorem fill_labelVariables (plain : context.MakesPlain) (labels : List String) :
    ∀ {pairing : NamePairing written},
    (filled written).Agree (fun later => List.Forall₂ (SameLabelVariables later)) pairing
      (context.labelVariables labels) (context.labelVariables labels) := by
  induction labels with
  | nil => exact fun _ _ tied => .ok le_rfl tied .nil
  | cons label rest ih =>
    intro pairing
    have taken : (filled written).Agree (fun later name name' => later.vars name name') pairing
        (modifyGet fun supply => supply.takeLabelled label)
        (modifyGet fun supply => supply.takeLabelled label) := fun supply supply' tied => by
      obtain ⟨later, le, stillTied, paired⟩ := NamePairing.Tied.take tied
        (.labelled supply label) (.labelled supply' label) rfl rfl rfl rfl
      exact .ok le stillTied paired
    refine taken.bind fun _ _ name name' paired => ih.bind fun _ le _ _ others => .pure ?_
    rw [plain]
    exact .cons ⟨rfl, le _ _ paired⟩ others

private theorem labelTerm_corresponds {vars vars' : List (String × Variable)}
    (alike : List.Forall₂ (SameLabelVariables pairing) vars vars') (label : String) :
    (labelTerm vars label).Corresponds pairing.Related (labelTerm vars' label) := by
  induction alike with
  | nil => exact .blank (.blank label)
  | @cons entry entry' rest rest' paired _ ih =>
    obtain ⟨key, name⟩ := entry
    obtain ⟨key', name'⟩ := entry'
    obtain ⟨rfl, paired⟩ := paired
    simp only [labelTerm, List.lookup_cons] at ih ⊢
    by_cases same : label = key
    · rw [beq_iff_eq.2 same]
      exact .var (.var paired)
    · rw [beq_eq_false_iff_ne.2 same]
      exact ih

private theorem sameLabels_related : SameLabels pairing.Related
  | _, _, .blank _ => rfl

private theorem labels_filling : ∀ area, (Placing.filling.graph area).labels = []
  | .outside => rfl
  | .block name _ => name.labels_asGraph

private theorem replaceBlanks_filling (replace : String → Term) :
    ∀ area, (Placing.filling.graph area).replaceBlanks replace = Placing.filling.graph area
  | .outside => rfl
  | .block name _ => name.replaceBlanks_asGraph replace

/-- Blank nodes become variables in step. -/
private theorem fill_blanksToVariables (plain : context.MakesPlain) {quads : Bool}
    {operation named : Operation} (alike : (filled written).operations pairing operation named) :
    (filled written).Agree (filled written).operations pairing
      (context.blanksToVariables operation)
      ((context.withQuads quads).blanksToVariables named) := by
  obtain ⟨bare, correspond, tables, inDefault, rfl⟩ := NamePairing.filled_operations_iff.1 alike
  have sameLabels : (bare.place .filling .outside).labels = operation.labels := by
    have ofPlaces : (bare.place .filling .outside).gather .ofLabels
        = bare.inDefaultGraph.gather .ofLabels := by
      rw [Operation.inDefaultGraph, Operation.inGraphs_eq_place]
      exact Operation.labels_place labels_filling (fun _ => rfl) bare _ _
    have taken : bare.inDefaultGraph = bare := inDefault .defaultGraph
    rw [taken] at ofPlaces
    exact (congrArg firstSeen ofPlaces).trans (correspond.labels sameLabels_related).symm
  have sameShape := correspond.sameShape.trans (Operation.sameShape_place .filling bare .outside)
  rw [blanksToVariables, blanksToVariables, Node.checkFits, Node.checkFits, sameShape.fits_eq,
    sameLabels, labelVariables_withQuads]
  refine Comparison.Agree.ofTraversal.bind fun _ le _ _ _ => (fill_labelVariables plain _).bind
    fun later le' vars vars' sameVars => .pure ?_
  have replaced := ((correspond.imp (NamePairing.related_biUnique _) fun _ _ =>
    NamePairing.Related.mono (le.trans le')).replaceBlanks
      ⟨sameLabels_related, labelTerm_corresponds sameVars⟩)
  refine NamePairing.filled_operations_iff.2
    ⟨bare.replaceBlanks (labelTerm vars'), replaced, ?_, ?_, ?_⟩
  · have same : (bare.replaceBlanks (labelTerm vars')).tables = bare.tables :=
      Operation.tables_replaceBlanks _ bare
    rwa [same]
  · intro block
    rw [← Operation.replaceBlanks_inGraphs (fun _ => rfl), inDefault]
  · exact (Operation.replaceBlanks_place (replaceBlanks_filling _) bare .outside).symm

/-! ### Requests -/

/-- A query whose graph blocks have names that are spared is made in step with and without graph
names in patterns. -/
theorem fill_queryRequest (plain : context.MakesPlain) (quads : context.quads = false)
    {request : Surface.Request} {query : Surface.Query} (isQuery : request.body = .query query)
    (covers : written.Covers query.names)
    (spared : ∀ declared, context.declare request.prologue = .ok declared →
      ∀ pattern ∈ query.within, declared.SparesName pattern)
    (blankToVariable : Bool) :
    (filled written).Agree (filled written).operations pairing
      (context.request blankToVariable request)
      ((context.withQuads true).request blankToVariable request) := by
  have suits : context.Suits (.ofNames (Options.withQuads {} false)) :=
    ⟨plain, False.elim, by rw [quads]; exact Iff.rfl⟩
  have ofDeclared := settles_declare suits request.meets_nothing.prologue
  rw [Context.request, Context.request, declare_withQuads, isQuery]
  cases isDeclared : context.declare request.prologue with
  | error error => exact .throw error
  | ok declared =>
    rw [isDeclared] at ofDeclared
    have compares : declared.Compares true (filled written) written declared.SparesName True :=
      compares_filled ofDeclared.plain
        (Bool.eq_false_iff.2 fun quads => Bool.false_ne_true (ofDeclared.quads.1 quads))
    have agree : (filled written).Agree (filled written).operations pairing (declared.query query)
        ((declared.withQuads true).query query) :=
      compare_query compares trivial covers (spared declared isDeclared)
    refine agree.bind fun _ _ operation named alike => ?_
    cases blankToVariable with
    | false => exact .pure alike
    | true => exact fill_blanksToVariables ofDeclared.plain alike

end Context

/-- What is related by filling has one canonical form, after the graph names have been taken out. -/
theorem NamePairing.canonicalize_of_filled {written : NameSupply} {pairing : NamePairing written}
    {plain named : Operation} (alike : (filled written).operations pairing plain named) :
    named.inDefaultGraph.canonicalize true = plain.canonicalize true := by
  obtain ⟨bare, correspond, tables, inDefault, rfl⟩ := filled_operations_iff.1 alike
  have taken : (bare.place .filling .outside).inDefaultGraph = bare := by
    have isBare : bare.inDefaultGraph = bare := inDefault .defaultGraph
    rw [Operation.inDefaultGraph, Operation.inGraphs_eq_place] at isBare ⊢
    rw [Operation.place_place, isBare]
  have fixed : ∀ table ∈ bare.tables, FixesColumns (flip pairing.Related) table.2 :=
    fun table member row inRows cell inRow =>
      .var (pairing.itself (tables table member row inRows cell inRow).1)
  have oneToOne : Relator.BiUnique (flip pairing.Related) :=
    ⟨fun _ _ _ toFirst toSecond => pairing.related_biUnique.2 toFirst toSecond,
      fun _ _ _ toFirst toSecond => pairing.related_biUnique.1 toFirst toSecond⟩
  have back : bare.Corresponds (flip pairing.Related) plain :=
    correspond.symm fun _ _ related => related
  have inStep := inStep_aligned oneToOne
  rw [taken]
  exact Operation.canonicalize_of_aligned oneToOne (fun _ _ related => related.isVar.symm)
    (back.gathered inStep (tablesInStep_of_fixed oneToOne inStep) fixed) back

/-- What is written stands for itself, and nothing else. -/
def NamePairing.ofWritten (written : NameSupply) : NamePairing written where
  vars name other := name = other ∧ written.Has (.var name)
  oneToOne := by
    constructor
    · rintro _ _ _ ⟨rfl, -⟩ ⟨rfl, -⟩
      rfl
    · rintro _ _ _ ⟨rfl, -⟩ ⟨rfl, -⟩
      rfl
  itself isWritten := ⟨rfl, isWritten⟩

theorem NamePairing.tied_ofWritten (written : NameSupply) :
    (ofWritten written).Tied written written where
  labels := rfl
  nextLabel := rfl
  inUse := by
    rintro _ _ ⟨rfl, isWritten⟩
    exact ⟨isWritten, isWritten⟩

namespace Surface.Request

/-- If the passages of a request have alike outcomes with two options, the request has related
operations, or fails with the same error. -/
private theorem lower_compared {World : Type} [Preorder World] {comparison : Comparison World}
    {R : World → Operation → Operation → Prop} {world : World} {request : Surface.Request}
    (options options' : Options)
    (outcome : comparison.Outcome R world
      ((Context.ofOptions .plain options).request options.blankToVariable request
        (.ofNames request.names))
      ((Context.ofOptions .plain options').request options'.blankToVariable request
        (.ofNames request.names))) :
    (∃ later first second, request.lower options = .ok first ∧ request.lower options' = .ok second
        ∧ R later first second)
      ∨ ∃ error, request.lower options = .error error ∧ request.lower options' = .error error := by
  cases ofFirst : (Context.ofOptions .plain options).request options.blankToVariable request
      (.ofNames request.names) with
  | ok first after =>
    cases ofSecond : (Context.ofOptions .plain options').request options'.blankToVariable request
        (.ofNames request.names) with
    | ok second after' =>
      rw [ofFirst, ofSecond] at outcome
      cases outcome with
      | ok _ _ related =>
        exact .inl ⟨_, first, second, lower_ok_iff.2 ⟨after, ofFirst⟩,
          lower_ok_iff.2 ⟨after', ofSecond⟩, related⟩
    | error => rw [ofFirst, ofSecond] at outcome; cases outcome
  | error error after =>
    cases ofSecond : (Context.ofOptions .plain options').request options'.blankToVariable request
        (.ofNames request.names) with
    | ok => rw [ofFirst, ofSecond] at outcome; cases outcome
    | error error' after' =>
      rw [ofFirst, ofSecond] at outcome
      cases outcome with
      | error =>
        exact .inr ⟨error, lower_error_iff.2 ⟨after, ofFirst⟩,
          lower_error_iff.2 ⟨after', ofSecond⟩⟩

/-- The names of the graph blocks of a query are spared by what is inside, when the blocks are made
without graph names in patterns. -/
def SparesNames (options : Options) (request : Surface.Request) (query : Query) : Prop :=
  ∀ declared, (Context.ofOptions .plain (options.withQuads false)).declare request.prologue
    = .ok declared → ∀ pattern ∈ query.within, declared.SparesName pattern

/-- If the names of graph blocks are spared, a query has an operation with graph names in its
patterns exactly if it has one without, and if the patterns of the first are put into the default
graph, the two have one canonical form. -/
theorem inDefaultGraph_lower (options : Options) {request : Surface.Request} {query : Query}
    (isQuery : request.body = .query query) (spared : request.SparesNames options query) :
    ((∃ named, request.lower (options.withQuads true) = .ok named)
        ↔ ∃ plain, request.lower (options.withQuads false) = .ok plain)
      ∧ ∀ named plain, request.lower (options.withQuads true) = .ok named →
        request.lower (options.withQuads false) = .ok plain →
        named.inDefaultGraph.canonicalize true = plain.canonicalize true := by
  have covers : (NameSupply.ofNames request.names).Covers query.names := by
    have sameNames : request.names = query.names := by
      rw [names, isQuery, Body.names]
    rw [sameNames]
    exact NameSupply.covers_ofNames query.names
  have isPlain : (Context.ofOptions .plain (options.withQuads false)).MakesPlain := rfl
  have outcome := Context.fill_queryRequest isPlain rfl isQuery covers spared
    options.blankToVariable _ _ (NamePairing.tied_ofWritten (.ofNames request.names))
  rcases lower_compared (options.withQuads false) (options.withQuads true) outcome with
    ⟨_, plain, named, ofPlain, ofNamed, alike⟩ | ⟨error, ofPlain, ofNamed⟩
  · rw [ofPlain, ofNamed]
    refine ⟨⟨fun _ => ⟨plain, rfl⟩, fun _ => ⟨named, rfl⟩⟩, ?_⟩
    rintro _ _ ⟨⟩ ⟨⟩
    exact NamePairing.canonicalize_of_filled alike
  · rw [ofPlain, ofNamed]
    simp

private def exampleIri (path : String) : Iri := ⟨.full ("http://ex.org/" ++ path), .none⟩

/-- `?s <http://ex.org/p>/<http://ex.org/q> ?o`. -/
private def twoSteps : Pattern :=
  .bgp [⟨.term (.var ⟨"s"⟩),
    .path (.sequence (.iri (exampleIri "p")) (.iri (exampleIri "q")) .none),
    .term (.var ⟨"o"⟩)⟩] .none

/-- `SELECT ?s { ?s <http://ex.org/p> … }`, of an IRI. -/
private def subjectsOf (path : String) : Select :=
  ⟨.keep, .items [.var ⟨"s"⟩], none,
    .bgp [⟨.term (.var ⟨"s"⟩), .simple (.iri (exampleIri "p")), .term (.iri (exampleIri path))⟩]
      .none, .none⟩

/-- `SELECT * { GRAPH <http://ex.org/g> { SELECT ?s { … } } … }`, with a path after the block. -/
private def graphOfSubjects (path : String) : Query :=
  .select ⟨.keep, .all, none,
    .group [.graph (.iri (exampleIri "g")) (.subquery (subjectsOf path) .none) .none, twoSteps]
      .none, .none⟩

private theorem sparesNames_graphOfSubjects :
    SparesNames {} ⟨.none, .query (graphOfSubjects "o")⟩ (graphOfSubjects "o") := by
  rintro declared ⟨⟩ pattern member
  fin_cases member
  all_goals rintro name inner span block ⟨⟩
  rintro ⟨⟩ supply operation after ⟨⟩
  rfl

/-- A block of an IRI takes a variable that is not used where a subquery does not show the IRI, so
the middle of the path after the block has another name. -/
theorem inDefaultGraph_lower_graphOfSubjects : ∃ named plain,
    lower (Options.withQuads {} true) ⟨.none, .query (graphOfSubjects "o")⟩ = .ok named
      ∧ lower (Options.withQuads {} false) ⟨.none, .query (graphOfSubjects "o")⟩ = .ok plain
      ∧ named.inDefaultGraph ≠ plain
      ∧ named.inDefaultGraph.canonicalize true = plain.canonicalize true :=
  ⟨_, _, rfl, rfl, by decide +kernel,
    (inDefaultGraph_lower {} rfl sparesNames_graphOfSubjects).2 _ _ rfl rfl⟩

/-- An IRI that stands in a subquery in a block of that name is replaced. -/
theorem not_inDefaultGraph_lower_graphOfSubjects : ∃ named plain,
    lower (Options.withQuads {} true) ⟨.none, .query (graphOfSubjects "g")⟩ = .ok named
      ∧ lower (Options.withQuads {} false) ⟨.none, .query (graphOfSubjects "g")⟩ = .ok plain
      ∧ named.inDefaultGraph.canonicalize true ≠ plain.canonicalize true :=
  ⟨_, _, rfl, rfl, by decide +kernel⟩

end Surface.Request

end QueryAlgebra
