import QueryAlgebra.Lifting.Request
import QueryAlgebra.Proofs.Lifting.GrantedTerms
import QueryAlgebra.Proofs.Lifting.WrittenTerms
import QueryAlgebra.Proofs.Operation.MatchedGraphs

/-! # Templates of updates that are written and read again

The template of an update is written as one block for each graph, and the blocks are read as the
patterns of the template, those of one graph together: no pattern is lost or repeated.
-/

namespace QueryAlgebra

open Surface (Demands QuadBlock)

/-- Whether a pattern of any graph can be written and read again. -/
def Pattern.isQuad (pattern : Pattern) : Bool :=
  pattern.hasSpellableTriple && (pattern.graph.isDefaultGraph || pattern.graph.isWritableName)

/-! ### IRIs -/

theorem Literal.isAbsolute_of_isWritable {literal : Literal}
    (writable : literal.isWritable = true) : Iri.isAbsolute literal.datatype.iri = true := by
  have ofTagged : Iri.isAbsolute Vocabulary.rdfLangString = true := by decide +kernel
  have ofText : Iri.isAbsolute Vocabulary.xsdString = true := by decide +kernel
  unfold isWritable at writable
  split at writable
  · rw [Bool.and_eq_true, beq_iff_eq] at writable
    rw [writable.2]
    exact ofTagged
  · rw [Bool.or_eq_true, beq_iff_eq] at writable
    rcases writable with isText | isAbsolute
    · rw [isText]
      exact ofText
    · exact isAbsolute

namespace Term

theorem absolute_of_isWritableName {term : Term} (writable : term.isWritableName = true) :
    AllAbsolute term.iris := by
  cases term with
  | iri node => exact List.forall_mem_singleton.2 writable
  | var name => exact .var name
  | _ => cases writable

theorem absolute_of_isDefaultGraph {term : Term} (isDefault : term.isDefaultGraph = true) :
    AllAbsolute term.iris := by
  rw [eq_defaultGraph isDefault]
  exact .nil

theorem absolute_of_isSpellable {term : Term} (spellable : term.isSpellable = true) :
    AllAbsolute term.iris := by
  induction term with
  | iri node => exact List.forall_mem_singleton.2 spellable
  | literal text => exact List.forall_mem_singleton.2 (text.isAbsolute_of_isWritable spellable)
  | quad subject predicate object graph ihSubject _ ihObject _ =>
    simp only [isSpellable, Bool.and_eq_true] at spellable
    obtain ⟨⟨⟨ofSubject, ofPredicate⟩, ofObject⟩, inDefault⟩ := spellable
    exact AllAbsolute.quad.2 ⟨ihSubject ofSubject, absolute_of_isWritableName ofPredicate,
      ihObject ofObject, absolute_of_isDefaultGraph inDefault⟩
  | blank | var => exact .nil
  | defaultGraph => cases spellable

end Term

theorem Pattern.absolute_of_isQuad {pattern : Pattern} (isQuad : pattern.isQuad = true) :
    AllAbsolute pattern.iris := by
  simp only [Pattern.isQuad, hasSpellableTriple, Bool.and_eq_true, Bool.or_eq_true] at isQuad
  obtain ⟨⟨⟨ofSubject, ofPredicate⟩, ofObject⟩, ofGraph⟩ := isQuad
  exact AllAbsolute.pattern.2 ⟨Term.absolute_of_isSpellable ofSubject,
    Term.absolute_of_isWritableName ofPredicate, Term.absolute_of_isSpellable ofObject,
    ofGraph.elim Term.absolute_of_isDefaultGraph Term.absolute_of_isWritableName⟩

/-! ### Reading blocks -/

namespace Context

variable {context : Context}

/-- The patterns of a block and of the blocks after it. -/
private theorem quadPatterns_cons {graph blockGraph : Term} {name : Option Surface.VarOrIri}
    {triples : List Surface.Triple} {rest : List QuadBlock} {patterns others : List Pattern}
    (named : name.elim (pure graph) context.varOrIri = .ok blockGraph)
    (ofBlock : context.template blockGraph triples = pure patterns)
    (ofRest : context.quadPatterns graph rest = pure others) :
    context.quadPatterns graph (⟨name, triples⟩ :: rest) = pure (patterns ++ others) := by
  have inGraph : context.quadPatterns graph (⟨name, triples⟩ :: rest) = (do
      let patterns ← context.template blockGraph triples
      let others ← context.quadPatterns graph rest
      pure (patterns ++ others)) := by
    cases name with
    | none =>
      cases named
      rfl
    | some name =>
      rw [quadPatterns]
      dsimp only
      rw [show context.varOrIri name = .ok blockGraph from named]
      rfl
  rw [inGraph, ofBlock, pure_bind, ofRest, pure_bind]

private theorem writtenBlockName_read (plain : context.MakesPlain) {graph : Term}
    (writable : (graph.isDefaultGraph || graph.isWritableName) = true) :
    ∃ name, graph.writtenBlockName = .ok name
      ∧ name.elim (pure context.factory.defaultGraph) context.varOrIri = .ok graph := by
  unfold Term.writtenBlockName
  split
  · rename_i isDefault
    refine ⟨none, rfl, ?_⟩
    rw [plain, Term.eq_defaultGraph isDefault]
    rfl
  · rename_i isNamed
    rw [Bool.eq_false_iff.2 isNamed, Bool.false_or] at writable
    obtain ⟨name, written, read⟩ := varOrIri_written plain writable
    exact ⟨some name, by rw [written]; rfl, read⟩

/-- The triples of every graph are read as the patterns of that graph. -/
private theorem writtenQuads_read (plain : context.MakesPlain) {patterns : List Pattern}
    (spellable : ∀ pattern ∈ patterns, pattern.hasSpellableTriple = true) :
    ∃ quads, Pattern.writtenQuads patterns = .ok quads ∧ ∀ graph : Term,
      context.triples ((quads.filter fun quad => quad.1 = graph).map (·.2))
        = pure ((patterns.filter fun pattern => pattern.graph = graph).map Pattern.flat) := by
  induction patterns with
  | nil => exact ⟨[], rfl, fun _ => rfl⟩
  | cons pattern rest ih =>
    rw [List.forall_mem_cons] at spellable
    obtain ⟨triple, written, read⟩ := writtenTriple_spelled plain spellable.1
    obtain ⟨quads, others, readOthers⟩ := ih spellable.2
    refine ⟨(pattern.graph, triple) :: quads, ?_, fun graph => ?_⟩
    · rw [Pattern.writtenQuads, written, others]
      rfl
    by_cases inGraph : pattern.graph = graph
    · rw [List.filter_cons_of_pos (by simpa using inGraph),
        List.filter_cons_of_pos (by simpa using inGraph), List.map_cons, List.map_cons, triples,
        read, readOthers graph]
      rfl
    · rw [List.filter_cons_of_neg (by simpa using inGraph),
        List.filter_cons_of_neg (by simpa using inGraph)]
      exact readOthers graph

private theorem blocksOf_read (plain : context.MakesPlain) {patterns : List Pattern}
    {quads : List (Term × Surface.Triple)}
    (read : ∀ graph : Term,
      context.triples ((quads.filter fun quad => quad.1 = graph).map (·.2))
        = pure ((patterns.filter fun pattern => pattern.graph = graph).map Pattern.flat))
    {graphs : List Term}
    (writable : ∀ graph ∈ graphs, (graph.isDefaultGraph || graph.isWritableName) = true) :
    ∃ blocks, Pattern.blocksOf quads graphs = .ok blocks
      ∧ context.quadPatterns context.factory.defaultGraph blocks
        = pure (graphs.flatMap fun graph =>
          patterns.filter fun pattern => pattern.graph = graph) := by
  induction graphs with
  | nil => exact ⟨[], rfl, rfl⟩
  | cons graph rest ih =>
    rw [List.forall_mem_cons] at writable
    obtain ⟨name, written, named⟩ := writtenBlockName_read plain writable.1
    obtain ⟨blocks, others, readOthers⟩ := ih writable.2
    have ofBlock : context.template graph ((quads.filter fun quad => quad.1 = graph).map (·.2))
        = pure (patterns.filter fun pattern => pattern.graph = graph) := by
      rw [template, read graph, pure_bind, templatePatterns_flat _ fun pattern member => by
        simpa using (List.mem_filter.1 member).2]
      rfl
    exact ⟨_, by rw [Pattern.blocksOf, written, others]; rfl,
      quadPatterns_cons named ofBlock readOthers⟩

/-- The blocks of a template are read as its patterns, those of one graph together. -/
theorem writtenBlocks_read (plain : context.MakesPlain) {patterns : List Pattern}
    (quads : ∀ pattern ∈ patterns, pattern.isQuad = true) :
    ∃ blocks read, Pattern.writtenBlocks patterns = .ok blocks
      ∧ context.quadPatterns context.factory.defaultGraph blocks = pure read
      ∧ read.Perm patterns := by
  obtain ⟨triples, written, read⟩ := writtenQuads_read plain fun pattern member =>
    (Bool.and_eq_true_iff.1 (quads pattern member)).1
  have writable : ∀ graph ∈ (patterns.map Pattern.graph).eraseDups,
      (graph.isDefaultGraph || graph.isWritableName) = true := by
    intro graph member
    obtain ⟨pattern, isPattern, rfl⟩ := List.mem_map.1 (List.mem_eraseDups.1 member)
    exact (Bool.and_eq_true_iff.1 (quads pattern isPattern)).2
  obtain ⟨blocks, ofGraphs, readBlocks⟩ := blocksOf_read plain read writable
  refine ⟨blocks, _, by rw [Pattern.writtenBlocks, written]; exact ofGraphs, readBlocks, ?_⟩
  have sorted := Pattern.perm_byGraph patterns
  rwa [Pattern.byGraph, List.flatMap_map] at sorted

end Context

/-! ### Demands -/

namespace Pattern

variable {demands : Demands} {patterns : List Pattern}

private theorem grants_writtenQuads
    (admits : ∀ pattern ∈ patterns, demands.Admit pattern.iris) :
    Grants (fun quads => ∀ quad ∈ quads, quad.2.Meets demands true) (writtenQuads patterns) := by
  induction patterns with
  | nil => exact List.forall_mem_nil _
  | cons pattern rest ih =>
    rw [List.forall_mem_cons] at admits
    refine (grants_writtenTriple admits.1).bind fun triple meets => ?_
    exact (ih admits.2).bind fun quads allMeet => List.forall_mem_cons.2 ⟨meets true, allMeet⟩

private theorem grants_blocksOf {quads : List (Term × Surface.Triple)}
    (allMeet : ∀ quad ∈ quads, quad.2.Meets demands true) {graphs : List Term}
    (admits : ∀ graph ∈ graphs, demands.Admit graph.iris) :
    Grants (fun blocks => ∀ block ∈ blocks, block.Meets demands) (blocksOf quads graphs) := by
  induction graphs with
  | nil => exact List.forall_mem_nil _
  | cons graph rest ih =>
    rw [List.forall_mem_cons] at admits
    have ofName : Grants (fun name => ∀ other ∈ name, other.Meets demands)
        graph.writtenBlockName := by
      unfold Term.writtenBlockName
      split
      · exact fun _ absent => absurd absent (Option.not_mem_none _)
      · exact (Term.grants_writtenVarOrIri admits.1).map
          fun name meets other same => Option.some.inj same ▸ meets
    refine ofName.bind fun name meets => ?_
    refine (ih admits.2).bind fun blocks ofBlocks => List.forall_mem_cons.2
      ⟨⟨meets, fun triple member => ?_⟩, ofBlocks⟩
    obtain ⟨quad, inGraph, rfl⟩ := List.mem_map.1 member
    exact allMeet quad (List.mem_filter.1 inGraph).1

theorem grants_writtenBlocks (admits : ∀ pattern ∈ patterns, demands.Admit pattern.iris) :
    Grants (fun blocks => ∀ block ∈ blocks, block.Meets demands) (writtenBlocks patterns) := by
  refine (grants_writtenQuads admits).bind fun quads allMeet => ?_
  refine grants_blocksOf allMeet fun graph member => ?_
  obtain ⟨pattern, isPattern, rfl⟩ := List.mem_map.1 (List.mem_eraseDups.1 member)
  exact (Demands.Admit.pattern.1 (admits pattern isPattern)).2.2.2

end Pattern

end QueryAlgebra
