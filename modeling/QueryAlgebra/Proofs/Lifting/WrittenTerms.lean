import QueryAlgebra.Lifting.Operation
import QueryAlgebra.Proofs.Lowering.Outcomes
import QueryAlgebra.Proofs.Lowering.PlainPattern
import QueryAlgebra.Proofs.NameMap

/-! # Terms that are written and read again

Terms, triples and inline data come back as they were when they are written and read again, under a
context that makes terms as they are written. What has to hold for it is `isSpellable`: IRIs are
absolute, literals with a language have the datatype of such literals, quoted triples stand in the
default graph, and rows bind variables of their header. Where `isWritable` is asked, blank nodes are
left out.
-/

namespace QueryAlgebra

/-! ### Terms -/

/-- Whether a node is named in full. -/
def NamedNode.isWritable (node : NamedNode) : Bool := Iri.isAbsolute node.iri

/-- Whether a literal has the datatype that its language asks for. -/
def Literal.isWritable (literal : Literal) : Bool :=
  match literal.language with
  | some language => language != "" && literal.datatype.iri == Vocabulary.rdfLangString
  | none => literal.datatype.iri == Vocabulary.xsdString || literal.datatype.isWritable

namespace Term

/-- Whether a term is a variable or a node that is named in full. -/
def isWritableName : Term → Bool
  | .var _ => true
  | .iri node => node.isWritable
  | _ => false

/-- Whether a term can be written and read again. -/
def isSpellable : Term → Bool
  | .iri node => node.isWritable
  | .blank _ => true
  | .literal text => text.isWritable
  | .var _ => true
  | .defaultGraph => false
  | .quad subject predicate object graph =>
    subject.isSpellable && predicate.isWritableName && object.isSpellable && graph.isDefaultGraph

/-- Whether a term can be written and read again; blank nodes are left out. -/
def isWritable : Term → Bool
  | .iri node => node.isWritable
  | .blank _ => false
  | .literal text => text.isWritable
  | .var _ => true
  | .defaultGraph => false
  | .quad subject predicate object graph =>
    subject.isWritable && predicate.isWritableName && object.isWritable && graph.isDefaultGraph

theorem isSpellable_of_isWritable {term : Term} (writable : term.isWritable = true) :
    term.isSpellable = true := by
  induction term with
  | quad subject predicate object graph ihSubject _ ihObject _ =>
    simp only [isWritable, Bool.and_eq_true] at writable
    obtain ⟨⟨⟨ofSubject, ofPredicate⟩, ofObject⟩, inDefault⟩ := writable
    rw [isSpellable, ihSubject ofSubject, ofPredicate, ihObject ofObject, inDefault]
    rfl
  | blank node => rfl
  | _ => exact writable

end Term

namespace Context

variable {context : Context}

/-- The context makes terms as they are written. -/
def MakesPlain (context : Context) : Prop := context.factory = .plain

theorem namedNode_written (plain : context.MakesPlain) {node : NamedNode}
    (writable : node.isWritable = true) : context.namedNode node.written = .ok node := by
  obtain ⟨factory, quads, prefixes, base⟩ := context
  obtain rfl : factory = .plain := plain
  have absolute : Iri.resolve? base node.iri = some node.iri := by
    rw [Iri.resolve?]
    exact if_pos writable
  simp only [namedNode, NamedNode.written, resolve, pure_bind, absolute]
  rfl

theorem var_eq (plain : context.MakesPlain) (name : Variable) : context.var name = name := by
  rw [var, plain]
  rfl

theorem quad_eq (plain : context.MakesPlain) : context.factory.quad = .quad := by
  rw [plain]
  rfl

theorem literal_written (plain : context.MakesPlain) {literal : Literal}
    (writable : literal.isWritable = true) : context.literal literal.written = .ok literal := by
  obtain ⟨value, language, datatype⟩ := literal
  cases language with
  | some language =>
    simp only [Literal.isWritable, Bool.and_eq_true, bne_iff_ne, beq_iff_eq] at writable
    obtain ⟨nonempty, tagged⟩ := writable
    obtain rfl : datatype = ⟨Vocabulary.rdfLangString⟩ := congrArg NamedNode.mk tagged
    simp only [Literal.written, Context.literal]
    rw [plain]
    simp [TermFactory.plain, TermFactory.plainLiteral, nonempty, Literal.tagged, pure, Except.pure]
  | none =>
    simp only [Literal.isWritable, Bool.or_eq_true, beq_iff_eq] at writable
    by_cases text : datatype.iri = Vocabulary.xsdString
    · obtain rfl : datatype = ⟨Vocabulary.xsdString⟩ := congrArg NamedNode.mk text
      simp only [Literal.written, beq_self_eq_true, if_true, Context.literal]
      rw [plain]
      rfl
    · have named : (datatype.iri == Vocabulary.xsdString) = false := beq_eq_false_iff_ne.2 text
      simp only [Literal.written, named, Context.literal,
        namedNode_written plain (writable.resolve_left text), Bool.false_eq_true, if_false]
      show Except.ok (context.factory.literal value none (some datatype)) = _
      rw [plain]
      rfl

/-- A name that is written stands for itself. -/
theorem varOrIri_written (plain : context.MakesPlain) {term : Term}
    (writable : term.isWritableName = true) :
    ∃ written, term.writtenVarOrIri = .ok written ∧ context.varOrIri written = .ok term := by
  cases term with
  | var name => exact ⟨_, rfl, by rw [varOrIri, var_eq plain]; rfl⟩
  | iri node => exact ⟨_, rfl, by rw [varOrIri, namedNode_written plain writable]; rfl⟩
  | _ => cases writable

/-- A term that is written stands for itself. -/
theorem term_spelled (plain : context.MakesPlain) {term : Term}
    (spellable : term.isSpellable = true) :
    ∃ written, term.written = .ok written ∧ context.term written = pure term := by
  induction term with
  | iri node => exact ⟨_, rfl, by rw [Context.term, namedNode_written plain spellable]; rfl⟩
  | blank node => exact ⟨_, rfl, by rw [Context.term, plain]; rfl⟩
  | literal text => exact ⟨_, rfl, by rw [Context.term, literal_written plain spellable]; rfl⟩
  | var name => exact ⟨_, rfl, by rw [Context.term, var_eq plain]⟩
  | quad subject predicate object graph ihSubject _ ihObject _ =>
    simp only [Term.isSpellable, Bool.and_eq_true] at spellable
    obtain ⟨⟨⟨subjectSpellable, predicateWritable⟩, objectSpellable⟩, inDefault⟩ := spellable
    obtain ⟨subject', writtenSubject, readSubject⟩ := ihSubject subjectSpellable
    obtain ⟨predicate', writtenPredicate, readPredicate⟩ := varOrIri_written plain predicateWritable
    obtain ⟨object', writtenObject, readObject⟩ := ihObject objectSpellable
    refine ⟨.quoted subject' predicate' object', ?_, ?_⟩
    · rw [Term.written, if_pos inDefault, writtenSubject, writtenPredicate, writtenObject]
      rfl
    · rw [Context.term, readSubject, readPredicate, readObject, plain,
        Term.eq_defaultGraph inDefault]
      rfl
  | defaultGraph => cases spellable

end Context

/-! ### Triples and inline data -/

/-- Whether the triple of a pattern can be written and read again, whatever graph it stands in. -/
def Pattern.hasSpellableTriple (pattern : Pattern) : Bool :=
  pattern.subject.isSpellable && pattern.predicate.isWritableName && pattern.object.isSpellable

/-- Whether a pattern of the default graph can be written and read again. -/
def Pattern.isSpellable (pattern : Pattern) : Bool :=
  pattern.subject.isSpellable && pattern.predicate.isWritableName && pattern.object.isSpellable
    && pattern.graph.isDefaultGraph

/-- Whether a pattern of the default graph can be written and read again; blank nodes are left
out. -/
def Pattern.isWritable (pattern : Pattern) : Bool :=
  pattern.subject.isWritable && pattern.predicate.isWritableName && pattern.object.isWritable
    && pattern.graph.isDefaultGraph

theorem Pattern.isSpellable_of_isWritable {pattern : Pattern} (writable : pattern.isWritable = true) :
    pattern.isSpellable = true := by
  simp only [isWritable, Bool.and_eq_true] at writable
  obtain ⟨⟨⟨ofSubject, ofPredicate⟩, ofObject⟩, inDefault⟩ := writable
  rw [isSpellable, Term.isSpellable_of_isWritable ofSubject, ofPredicate,
    Term.isSpellable_of_isWritable ofObject, inDefault]
  rfl

theorem Pattern.all_isSpellable_of_isWritable {patterns : List Pattern}
    (writable : patterns.all isWritable = true) : patterns.all isSpellable = true :=
  List.all_eq_true.2 fun pattern member =>
    isSpellable_of_isWritable (List.all_eq_true.1 writable pattern member)

/-- The triple of a pattern that is spelled out. -/
def Pattern.flat (pattern : Pattern) : FlatTriple :=
  ⟨pattern.subject, .term pattern.predicate, pattern.object⟩

/-- Whether a row binds variables of a header only, to terms that can be written and read again. -/
def Row.isSpellable (vars : List Variable) (row : Row) : Bool :=
  row.entries.all fun entry => vars.any (·.name == entry.1) && entry.2.isSpellable

/-- Whether a row binds variables of a header only, to terms that can be written and read again;
blank nodes are left out. -/
def Row.isWritable (vars : List Variable) (row : Row) : Bool :=
  row.entries.all fun entry => vars.any (·.name == entry.1) && entry.2.isWritable

theorem Row.isSpellable_of_isWritable {vars : List Variable} {row : Row}
    (writable : row.isWritable vars = true) : row.isSpellable vars = true := by
  simp only [isWritable, isSpellable, List.all_eq_true, Bool.and_eq_true] at writable ⊢
  exact fun entry member =>
    ⟨(writable entry member).1, Term.isSpellable_of_isWritable (writable entry member).2⟩

namespace Context

variable {context : Context}

theorem writtenTriple_spelled (plain : context.MakesPlain) {pattern : Pattern}
    (spellable : pattern.hasSpellableTriple = true) :
    ∃ written, pattern.writtenTriple = .ok written
      ∧ context.triple written = pure [pattern.flat] := by
  obtain ⟨subject, predicate, object, graph⟩ := pattern
  simp only [Pattern.hasSpellableTriple, Bool.and_eq_true] at spellable
  obtain ⟨⟨subjectSpellable, predicateWritable⟩, objectSpellable⟩ := spellable
  obtain ⟨subject', writtenSubject, readSubject⟩ := term_spelled plain subjectSpellable
  obtain ⟨predicate', writtenPredicate, readPredicate⟩ := varOrIri_written plain predicateWritable
  obtain ⟨object', writtenObject, readObject⟩ := term_spelled plain objectSpellable
  refine ⟨⟨.term subject', .simple predicate', .term object'⟩, ?_, ?_⟩
  · rw [Pattern.writtenTriple, writtenSubject, writtenPredicate, writtenObject]
    rfl
  · simp only [Context.triple, node, readSubject, readObject, Context.predicate, readPredicate,
      pure_bind]
    rfl

private theorem triple_spelled (plain : context.MakesPlain) {pattern : Pattern}
    (spellable : pattern.isSpellable = true) :
    ∃ written, pattern.written = .ok written ∧ context.triple written = pure [pattern.flat] := by
  obtain ⟨ofTriple, inDefault⟩ := Bool.and_eq_true_iff.1 spellable
  rw [Pattern.written, if_pos inDefault]
  exact writtenTriple_spelled plain ofTriple

/-- Triples that are written together spell out the same as those that are written apart. -/
private theorem triples_spelled (plain : context.MakesPlain) {patterns : List Pattern}
    (spellable : patterns.all Pattern.isSpellable = true) :
    ∃ written, Pattern.allWritten patterns = .ok written
      ∧ context.triples written = pure (patterns.map Pattern.flat) := by
  induction patterns with
  | nil => exact ⟨[], rfl, rfl⟩
  | cons head rest ih =>
    rw [List.all_cons, Bool.and_eq_true] at spellable
    obtain ⟨first, writtenFirst, readFirst⟩ := triple_spelled plain spellable.1
    obtain ⟨others, writtenOthers, readOthers⟩ := ih spellable.2
    refine ⟨first :: others, ?_, ?_⟩
    · rw [Pattern.allWritten, writtenFirst, writtenOthers]
      rfl
    · rw [triples, readFirst, readOthers]
      rfl

private theorem isDefaultGraph_of_writable {pattern : Pattern}
    (writable : pattern.isWritable = true) : pattern.graph.isDefaultGraph = true :=
  (Bool.and_eq_true_iff.1 writable).2

private theorem graph_of_spellable (plain : context.MakesPlain) {pattern : Pattern}
    (spellable : pattern.isSpellable = true) : pattern.graph = context.factory.defaultGraph := by
  rw [plain]
  exact Term.eq_defaultGraph (Bool.and_eq_true_iff.1 spellable).2

private theorem allFragments_flat (patterns : List Pattern)
    (inDefault : ∀ pattern ∈ patterns, pattern.graph = context.factory.defaultGraph) :
    context.allFragments (patterns.map Pattern.flat) = pure (patterns.map .pattern) := by
  induction patterns with
  | nil => rfl
  | cons head rest ih =>
    have same := inDefault head (List.mem_cons_self ..)
    have others := ih fun pattern member => inDefault pattern (List.mem_cons_of_mem _ member)
    rw [List.map_cons, allFragments, tripleFragments, Pattern.flat, others, ← same]
    rfl

/-- Triples are read as pieces of a basic graph pattern. -/
def ReadsPieces (context : Context) (triples : List Surface.Triple) (pieces : List Fragment) :
    Prop :=
  ∃ flat, context.triples triples = pure flat ∧ context.allFragments flat = pure pieces

theorem ReadsPieces.pattern {triples : List Surface.Triple} {pieces : List Fragment}
    (reads : context.ReadsPieces triples pieces) :
    context.basicGraphPattern triples = pure (.ofFragments pieces) := by
  obtain ⟨flat, readTriples, readPieces⟩ := reads
  rw [basicGraphPattern, readTriples, pure_bind, readPieces, pure_bind]

/-- Triples that are written are read as the patterns that they were. -/
theorem patterns_spelled (plain : context.MakesPlain) {patterns : List Pattern}
    (spellable : patterns.all Pattern.isSpellable = true) :
    ∃ written, Pattern.allWritten patterns = .ok written
      ∧ context.ReadsPieces written (patterns.map .pattern) := by
  obtain ⟨written, success, read⟩ := triples_spelled plain spellable
  exact ⟨written, success, patterns.map Pattern.flat, read, allFragments_flat patterns
    fun pattern member => graph_of_spellable plain (List.all_eq_true.1 spellable pattern member)⟩

/-- Triples that are written become the patterns that they were. -/
theorem bgp_written (plain : context.MakesPlain) {patterns : List Pattern}
    (writable : patterns.all Pattern.isWritable = true) :
    ∃ written, Pattern.allWritten patterns = .ok written
      ∧ context.basicGraphPattern written = pure (.bgp patterns) := by
  obtain ⟨written, success, reads⟩ :=
    patterns_spelled plain (Pattern.all_isSpellable_of_isWritable writable)
  exact ⟨written, success, ofFragments_patterns patterns ▸ reads.pattern⟩

theorem templatePatterns_flat {graph : Term} (patterns : List Pattern)
    (inGraph : ∀ pattern ∈ patterns, pattern.graph = graph) :
    templatePatterns graph (patterns.map Pattern.flat) = .ok patterns := by
  induction patterns with
  | nil => rfl
  | cons head rest ih =>
    have same := inGraph head (List.mem_cons_self ..)
    have others := ih fun pattern member => inGraph pattern (List.mem_cons_of_mem _ member)
    rw [List.map_cons, templatePatterns, Pattern.flat, templatePattern, others, ← same]
    rfl

private theorem writtenTemplate_eq {patterns : List Pattern}
    (inDefault : ∀ pattern ∈ patterns, pattern.graph.isDefaultGraph = true) :
    Pattern.writtenTemplate patterns = Pattern.allWritten patterns := by
  induction patterns with
  | nil => rfl
  | cons head rest ih =>
    have isDefault := inDefault head (List.mem_cons_self ..)
    rw [Pattern.writtenTemplate, Pattern.allWritten, Pattern.written, if_pos isDefault, isDefault,
      ih fun pattern member => inDefault pattern (List.mem_cons_of_mem _ member)]
    rfl

/-- A template that is written has the patterns that it had. -/
theorem template_written (plain : context.MakesPlain) {patterns : List Pattern}
    (writable : patterns.all Pattern.isWritable = true) :
    ∃ written, Pattern.writtenTemplate patterns = .ok written
      ∧ context.template context.factory.defaultGraph written = pure patterns := by
  have spellable := Pattern.all_isSpellable_of_isWritable writable
  obtain ⟨written, success, read⟩ := triples_spelled plain spellable
  refine ⟨written, ?_, ?_⟩
  · rw [writtenTemplate_eq fun pattern member => isDefaultGraph_of_writable
      (List.all_eq_true.1 writable pattern member), success]
  · rw [template, read, pure_bind, templatePatterns_flat patterns fun pattern member =>
      graph_of_spellable plain (List.all_eq_true.1 spellable pattern member)]
    rfl

/-- Cells that are written put the entries of a row under a header over those of another row. -/
private theorem row_spelled (plain : context.MakesPlain) {row : Row}
    (spellable : ∀ entry ∈ row.entries, entry.2.isSpellable = true) (vars : List Variable)
    (before : Row) :
    ∃ cells result, Row.written row vars = .ok cells
      ∧ context.row vars cells before = pure result
      ∧ ∀ key, result.find? key
        = if vars.any (·.name == key) then (row.find? key).or (before.find? key)
          else before.find? key := by
  induction vars generalizing before with
  | nil => exact ⟨[], before, rfl, rfl, fun key => rfl⟩
  | cons name names ih =>
    cases found : row.find? name.name with
    | none =>
      obtain ⟨cells, result, written, read, entries⟩ := ih before
      refine ⟨none :: cells, result, ?_, ?_, fun key => ?_⟩
      · rw [Row.written, found, written]
        rfl
      · rw [Context.row, read]
      · rw [entries key, List.any_cons]
        by_cases same : name.name = key
        · simp [← same, found]
        · simp [same]
    | some value =>
      have valueSpellable := spellable (name.name, value) (NameMap.find?_eq_some_iff.1 found)
      obtain ⟨cell, writtenCell, readCell⟩ := term_spelled plain valueSpellable
      obtain ⟨cells, result, written, read, entries⟩ := ih (before.insert name.name value)
      refine ⟨some cell :: cells, result, ?_, ?_, fun key => ?_⟩
      · rw [Row.written, found, written]
        show (do
          let cell ← some <$> value.written
          Except.ok (cell :: cells)) = _
        rw [writtenCell]
        rfl
      · rw [Context.row, readCell, pure_bind, var_eq plain, read]
      · rw [entries key, NameMap.find?_insert, List.any_cons]
        by_cases same : name.name = key
        · simp [← same, found]
        · simp [same]

/-- Inline data that is written becomes the rows that it was. -/
theorem values_spelled (plain : context.MakesPlain) {vars : List Variable} {rows : List Row}
    (spellable : rows.all (Row.isSpellable vars) = true) :
    ∃ cells, Row.allWritten vars rows = .ok cells
      ∧ context.inlineData ⟨vars, cells⟩ = pure (.of (.values vars rows)) := by
  have all : ∃ cells, Row.allWritten vars rows = .ok cells
      ∧ context.rows vars cells = pure rows := by
    induction rows with
    | nil => exact ⟨[], rfl, rfl⟩
    | cons row rest ih =>
      rw [List.all_cons, Bool.and_eq_true] at spellable
      obtain ⟨others, writtenOthers, readOthers⟩ := ih spellable.2
      simp only [Row.isSpellable, List.all_eq_true, Bool.and_eq_true] at spellable
      obtain ⟨cells, result, written, read, entries⟩ :=
        row_spelled plain (fun entry member => (spellable.1 entry member).2) vars .empty
      have same : result = row := by
        refine NameMap.ext_find? fun key => ?_
        rw [entries key]
        split
        · simp
        · rename_i outside
          cases found : row.find? key with
          | none => rfl
          | some value =>
            exact absurd (spellable.1 (key, value) (NameMap.find?_eq_some_iff.1 found)).1 outside
      refine ⟨cells :: others, ?_, ?_⟩
      · rw [Row.allWritten, written, writtenOthers]
        rfl
      · rw [Context.rows, read, readOthers, same]
        rfl
  obtain ⟨cells, written, read⟩ := all
  refine ⟨cells, written, ?_⟩
  have names : vars.map context.var = vars := by
    rw [List.map_congr_left fun name _ => var_eq plain name, List.map_id']
  rw [inlineData, read, pure_bind, names]

theorem values_written (plain : context.MakesPlain) {vars : List Variable} {rows : List Row}
    (writable : rows.all (Row.isWritable vars) = true) :
    ∃ cells, Row.allWritten vars rows = .ok cells
      ∧ context.inlineData ⟨vars, cells⟩ = pure (.of (.values vars rows)) :=
  values_spelled plain (List.all_eq_true.2 fun row member =>
    Row.isSpellable_of_isWritable (List.all_eq_true.1 writable row member))

end Context

/-! ### The variables of what is written -/

theorem Term.vars_writtenVarOrIri {term : Term} {name : Surface.VarOrIri}
    (written : term.writtenVarOrIri = .ok name) : name.vars = term.vars := by
  cases term with
  | var | iri =>
    cases written
    rfl
  | _ => cases written

theorem Term.vars_written {term : Term} {written : Surface.Term}
    (success : term.written = .ok written) : written.vars = term.vars := by
  induction term generalizing written with
  | quad subject predicate object graph ihSubject _ ihObject _ =>
    rw [Term.written] at success
    split at success
    · rename_i inDefault
      obtain ⟨subject', ofSubject, success⟩ := ok_of_bind success
      obtain ⟨predicate', ofPredicate, success⟩ := ok_of_bind success
      obtain ⟨object', ofObject, success⟩ := ok_of_bind success
      cases success
      have noVars : graph.vars = [] := by
        rw [eq_defaultGraph inDefault]
        rfl
      rw [Surface.Term.vars, ihSubject ofSubject, vars_writtenVarOrIri ofPredicate,
        ihObject ofObject]
      simp only [Term.vars, nested, List.filterMap_append] at noVars ⊢
      rw [noVars]
      simp [asVariable?]
    · cases success
  | defaultGraph => cases success
  | _ =>
    cases success
    rfl

/-- The variables of a pattern of triples. -/
def Pattern.listed (pattern : Pattern) : List Variable :=
  pattern.subject.vars ++ pattern.predicate.vars ++ pattern.object.vars

namespace Pattern

theorem vars_written {pattern : Pattern} {triple : Surface.Triple}
    (written : pattern.written = .ok triple) : triple.vars = pattern.listed := by
  rw [Pattern.written] at written
  split at written
  · obtain ⟨subject, ofSubject, written⟩ := ok_of_bind written
    obtain ⟨predicate, ofPredicate, written⟩ := ok_of_bind written
    obtain ⟨object, ofObject, written⟩ := ok_of_bind written
    cases written
    rw [listed, ← Term.vars_written ofSubject, ← Term.vars_writtenVarOrIri ofPredicate,
      ← Term.vars_written ofObject]
    rfl
  · cases written

/-- What it takes to write a list of patterns. -/
theorem allWritten_cons {head : Pattern} {rest : List Pattern} {triples : List Surface.Triple}
    (written : allWritten (head :: rest) = .ok triples) :
    ∃ triple others, triples = triple :: others ∧ head.written = .ok triple
      ∧ allWritten rest = .ok others := by
  obtain ⟨triple, ofHead, written⟩ := ok_of_bind written
  obtain ⟨others, ofRest, written⟩ := ok_of_bind written
  cases written
  exact ⟨triple, others, rfl, ofHead, ofRest⟩

theorem allWritten_append {first second : List Pattern} {triples more : List Surface.Triple}
    (written : allWritten first = .ok triples) (writtenMore : allWritten second = .ok more) :
    allWritten (first ++ second) = .ok (triples ++ more) := by
  induction first generalizing triples with
  | nil =>
    cases written
    exact writtenMore
  | cons head rest ih =>
    obtain ⟨triple, others, rfl, ofHead, ofRest⟩ := allWritten_cons written
    rw [List.cons_append, allWritten, ofHead, ih ofRest]
    rfl

theorem vars_allWritten {patterns : List Pattern} {triples : List Surface.Triple}
    (written : allWritten patterns = .ok triples) :
    triples.flatMap Surface.Triple.vars = patterns.flatMap listed := by
  induction patterns generalizing triples with
  | nil =>
    cases written
    rfl
  | cons head rest ih =>
    obtain ⟨triple, others, rfl, ofHead, ofRest⟩ := allWritten_cons written
    rw [List.flatMap_cons, List.flatMap_cons, vars_written ofHead, ih ofRest]

end Pattern

end QueryAlgebra
