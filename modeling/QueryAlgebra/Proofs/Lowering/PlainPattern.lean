import QueryAlgebra.Lowering.Pattern
import QueryAlgebra.Proofs.Lowering.Segments

/-! # Plain graph patterns

Plain patterns are made of triples without blank nodes and property paths, groups, optional and
removed parts, unions, filters, bindings and inline data. `Pattern.induct` is induction over the
patterns inside a pattern, whatever it is made of.
-/

namespace QueryAlgebra

namespace Surface

/-- Whether a term is made without blank nodes. -/
def Term.isPlain : Term → Bool
  | .blank _ => false
  | .anonymous => false
  | .quoted subject _ object => subject.isPlain && object.isPlain
  | _ => true

/-- Whether a subject or object is a term without blank nodes. -/
def GraphNode.isPlain : GraphNode → Bool
  | .term value => value.isPlain
  | _ => false

/-- Whether a predicate is no property path. -/
def Verb.isPlain : Verb → Bool
  | .simple _ => true
  | .path written => written.isSimple

/-- Whether a triple is made of terms without blank nodes. -/
def Triple.isPlain (triple : Triple) : Bool :=
  triple.subject.isPlain && triple.verb.isPlain && triple.object.isPlain

namespace Pattern

mutual

/-- Whether a pattern is made of plain triples, groups, optional and removed parts, unions, filters,
bindings and inline data. -/
def isPlain : Pattern → Bool
  | .bgp triples _ => triples.all Triple.isPlain
  | .group elements _ => allPlain elements
  | .optional pattern _ => pattern.isPlain
  | .minus pattern _ => pattern.isPlain
  | .union left right _ => left.isPlain && right.isPlain
  | .filter .. => true
  | .bind .. => true
  | .values .. => true
  | .graph .. => false
  | .service .. => false
  | .subquery .. => false

/-- Whether all patterns are plain. -/
def allPlain : List Pattern → Bool
  | [] => true
  | pattern :: rest => pattern.isPlain && allPlain rest

end

theorem allPlain_iff {elements : List Pattern} :
    allPlain elements = true ↔ ∀ element ∈ elements, element.isPlain = true := by
  induction elements with
  | nil => simp [allPlain]
  | cons head rest ih => simp [allPlain, ih]

/-- Whether a pattern is a filter. -/
def isFilter : Pattern → Bool
  | .filter .. => true
  | _ => false

/-- Whether a pattern is a group in which filters are written. -/
def hasFilters : Pattern → Bool
  | .group elements _ => elements.any isFilter
  | _ => false

/-- Whether a pattern in a group is joined to the elements before it. -/
def isMember : Pattern → Bool
  | .filter .. => false
  | .optional .. => false
  | .minus .. => false
  | .bind .. => false
  | _ => true

theorem isFilter_of_isMember {element : Pattern} (member : element.isMember = true) :
    element.isFilter = false := by
  cases element <;> first | rfl | cases member

/-- Induction over the groups, parts and branches of a pattern. -/
@[elab_as_elim]
theorem induct {motive : Pattern → Prop}
    (bgp : ∀ triples span, motive (.bgp triples span))
    (group : ∀ elements span, (∀ element ∈ elements, motive element) →
      motive (.group elements span))
    (optional : ∀ body span, motive body → motive (.optional body span))
    (minus : ∀ body span, motive body → motive (.minus body span))
    (union : ∀ left right span, motive left → motive right → motive (.union left right span))
    (filter : ∀ condition span, motive (.filter condition span))
    (bind : ∀ value name span, motive (.bind value name span))
    (values : ∀ data span, motive (.values data span))
    (graph : ∀ name body span, motive body → motive (.graph name body span))
    (service : ∀ silent endpoint body span, motive body →
      motive (.service silent endpoint body span))
    (subquery : ∀ query span, motive (.subquery query span)) (pattern : Pattern) :
    motive pattern := by
  have recurse := fun part (_ : sizeOf part < sizeOf pattern) =>
    induct bgp group optional minus union filter bind values graph service subquery part
  match pattern with
  | .bgp triples span => exact bgp triples span
  | .group elements span =>
    refine group elements span fun element member => recurse element ?_
    have := List.sizeOf_lt_of_mem member
    simp only [Pattern.group.sizeOf_spec]
    omega
  | .optional body span => exact optional body span (recurse body (by simp; omega))
  | .minus body span => exact minus body span (recurse body (by simp; omega))
  | .union left right span =>
    exact union left right span (recurse left (by simp; omega)) (recurse right (by simp; omega))
  | .filter condition span => exact filter condition span
  | .bind value name span => exact bind value name span
  | .values data span => exact values data span
  | .graph name body span => exact graph name body span (recurse body (by simp; omega))
  | .service silent endpoint body span =>
    exact service silent endpoint body span (recurse body (by simp; omega))
  | .subquery query span => exact subquery query span
termination_by sizeOf pattern

end Pattern

end Surface

namespace Context

open Lowering (Yields)

variable (context : Context)

/-- A subject or object that is a term implies no triples. -/
private theorem yields_node {written : Surface.GraphNode} (plain : written.isPlain = true) :
    Yields (fun result => result.2 = []) (context.node written) := by
  match written, plain with
  | .term value, _ =>
    rw [node]
    exact Yields.bind_any fun term => Yields.pure rfl

private theorem yields_predicate {verb : Surface.Verb} (plain : verb.isPlain = true) :
    Yields (fun result => ∃ term, result = FlatPredicate.term term)
      (liftM (context.predicate verb) : Lowering FlatPredicate) := by
  refine Yields.lift fun result success => ?_
  match verb, plain with
  | .simple verb, _ =>
    cases found : context.varOrIri verb with
    | error error => simp [predicate, found, bind, Except.bind] at success
    | ok term =>
      simp [predicate, found, bind, Except.bind, pure, Except.pure] at success
      exact ⟨term, success.symm⟩
  | .path written, plain =>
    simp only [Surface.Verb.isPlain, Surface.Path.isSimple] at plain
    unfold predicate at success
    split at plain
    · rename_i iri same
      simp only [same] at success
      cases found : context.namedNode iri with
      | error error => simp [found, bind, Except.bind] at success
      | ok node =>
        simp [found, bind, Except.bind, pure, Except.pure] at success
        exact ⟨_, success.symm⟩
    · rename_i span same
      simp only [same] at success
      cases success
      exact ⟨_, rfl⟩
    · cases plain

/-- Triples that are spelled out with predicates that are no paths. -/
def AllTerms (triples : List FlatTriple) : Prop :=
  ∀ triple ∈ triples, ∃ term, triple.predicate = .term term

private theorem yields_triple {written : Surface.Triple} (plain : written.isPlain = true) :
    Yields (fun flat => AllTerms flat ∧ flat.length = 1) (context.triple written) := by
  simp only [Surface.Triple.isPlain, Bool.and_eq_true] at plain
  obtain ⟨⟨subjectPlain, verbPlain⟩, objectPlain⟩ := plain
  refine Yields.bind (context.yields_node subjectPlain) ?_
  rintro ⟨subject, ofSubject⟩ (rfl : ofSubject = [])
  refine Yields.bind (context.yields_predicate verbPlain) ?_
  rintro predicate ⟨term, rfl⟩
  refine Yields.bind (context.yields_node objectPlain) ?_
  rintro ⟨object, ofObject⟩ (rfl : ofObject = [])
  refine Yields.pure ⟨?_, rfl⟩
  intro triple member
  exact ⟨term, by rw [List.mem_singleton.1 member]⟩

private theorem yields_triples {written : List Surface.Triple}
    (plain : written.all Surface.Triple.isPlain = true) :
    Yields (fun flat => AllTerms flat ∧ flat.length = written.length)
      (context.triples written) := by
  induction written with
  | nil => exact Yields.pure ⟨by simp [AllTerms], rfl⟩
  | cons head rest ih =>
    rw [List.all_cons, Bool.and_eq_true] at plain
    refine Yields.bind (context.yields_triple plain.1) ?_
    rintro first ⟨firstTerms, firstLength⟩
    refine Yields.bind (ih plain.2) ?_
    rintro others ⟨otherTerms, otherLength⟩
    refine Yields.pure ⟨?_, by simp [firstLength, otherLength, Nat.add_comm]⟩
    intro triple member
    exact (List.mem_append.1 member).elim (firstTerms triple) (otherTerms triple)

private theorem yields_allFragments {flat : List FlatTriple} (terms : AllTerms flat) :
    Yields (fun fragments => ∃ patterns : List QueryAlgebra.Pattern,
        fragments = patterns.map .pattern ∧ patterns.length = flat.length)
      (context.allFragments flat) := by
  induction flat with
  | nil => exact Yields.pure ⟨[], rfl, rfl⟩
  | cons head rest ih =>
    obtain ⟨term, same⟩ := terms head (List.mem_cons_self ..)
    rw [allFragments, tripleFragments, same]
    refine Yields.bind (Yields.pure rfl) fun first (isFirst : _ = first) => ?_
    refine Yields.bind (ih fun triple member => terms triple (List.mem_cons_of_mem _ member)) ?_
    rintro others ⟨patterns, rfl, lengths⟩
    let pattern : QueryAlgebra.Pattern :=
      ⟨head.subject, term, head.object, context.factory.defaultGraph⟩
    refine Yields.pure ⟨pattern :: patterns, ?_, by simp [lengths]⟩
    rw [← isFirst]
    rfl

theorem ofFragments_patterns (patterns : List QueryAlgebra.Pattern) :
    Operation.ofFragments (patterns.map .pattern) = .bgp patterns := by
  cases patterns with
  | nil => rfl
  | cons head rest =>
    have separated : Segment.Separated [.run (head :: rest)] :=
      Segment.Separated.cons_run ⟨.nil, List.not_mem_nil⟩ (List.cons_ne_nil _ _) fun _ => nofun
    have isOnly := Segment.ofFragments_eq_iff.2 ⟨List.append_nil _, separated⟩
    rw [Operation.ofFragments_eq_joined]
    exact congrArg (fun segments => Operation.joined (segments.map Segment.toOperation)) isOnly

/-- Plain triples become one basic graph pattern. -/
theorem yields_basicGraphPattern {written : List Surface.Triple}
    (plain : written.all Surface.Triple.isPlain = true) :
    Yields (fun operation => ∃ patterns, operation = .bgp patterns
        ∧ patterns.length = written.length) (context.basicGraphPattern written) := by
  refine Yields.bind (context.yields_triples plain) ?_
  rintro flat ⟨terms, flatLength⟩
  refine Yields.bind (context.yields_allFragments terms) ?_
  rintro fragments ⟨patterns, rfl, lengths⟩
  exact Yields.pure ⟨patterns, ofFragments_patterns patterns, by rw [lengths, flatLength]⟩

end Context

end QueryAlgebra
