import QueryAlgebra.Lifting.Request
import QueryAlgebra.Proofs.Lowering.WellFormedTerms

/-! # Terms, paths and triples that can be written

The parts of a well-formed operation can be written, and what is written of them meets demands:
every IRI is written in full, and nothing is loose. `Succeeds` says so of a part, `Collecting.Finds`
of a part with all that is found in it, and `Lifts` of a whole operation, for which the traversal
with which lifting begins may need more stack than there is. Here the parts are terms, paths and
patterns.
-/

namespace QueryAlgebra

open Surface (Demands NegatedMember)

/-- What is well-formed within bounds can be written so that it meets demands. -/
structure Bounds.Suffice (bounds : Bounds) (demands : Demands) : Prop where
  strict : bounds.strict
  full : ∀ node : NamedNode, node.IsFull bounds → demands.iri node.written
  call : ∀ function count, demands.call function count

theorem Bounds.Suffice.inDefault {bounds : Bounds} {demands : Demands}
    (suffice : bounds.Suffice demands) : bounds.inDefault.Suffice demands :=
  ⟨suffice.strict, suffice.full, suffice.call⟩

/-- A traversal needed more stack than there is. -/
inductive LiftingError.IsOverflow : LiftingError → Prop
  | intro (limit : Nat) : IsOverflow (.traversal (.stackOverflow limit))

/-- A result that has a property. -/
def Succeeds {α : Type} (P : α → Prop) : Except LiftingError α → Prop
  | .ok value => P value
  | .error _ => False

/-- A result that has a property, unless the stack was too small. -/
def Lifts {α : Type} (P : α → Prop) : Except LiftingError α → Prop
  | .ok value => P value
  | .error error => error.IsOverflow

section

variable {α β : Type} {P Q : α → Prop} {R : β → Prop} {result : Except LiftingError α}

namespace Succeeds

theorem bind {next : α → Except LiftingError β} (first : Succeeds P result)
    (goesOn : ∀ value, P value → Succeeds R (next value)) : Succeeds R (result >>= next) := by
  cases result with
  | ok value => exact goesOn value first
  | error error => exact first

theorem map {f : α → β} (first : Succeeds P result) (keeps : ∀ value, P value → R (f value)) :
    Succeeds R (f <$> result) := by
  cases result with
  | ok value => exact keeps value first
  | error error => exact first

theorem imp (first : Succeeds P result) (weaker : ∀ value, P value → Q value) :
    Succeeds Q result := by
  cases result with
  | ok value => exact weaker value first
  | error error => exact first

theorem exists_ok (succeeds : Succeeds P result) : ∃ value, result = .ok value ∧ P value := by
  cases result with
  | ok value => exact ⟨value, rfl, succeeds⟩
  | error error => exact succeeds.elim

theorem lifts (succeeds : Succeeds P result) : Lifts P result := by
  cases result with
  | ok value => exact succeeds
  | error error => exact succeeds.elim

end Succeeds

theorem Lifts.bind {next : α → Except LiftingError β} (first : Lifts P result)
    (goesOn : ∀ value, P value → Lifts R (next value)) : Lifts R (result >>= next) := by
  cases result with
  | ok value => exact goesOn value first
  | error error => exact first

end

/-- What is found meets demands: every value has been written, as have those found in it. -/
inductive Found.Meets (demands : Demands) : Found → Prop
  | extension (name : Variable) {value : Surface.Expression} {inside : List Found} :
    value.Meets demands → (∀ found ∈ inside, Meets demands found) →
    Meets demands (.extension name (.ok (value, inside)))
  | groupKey (name : Variable) : Meets demands (.groupKey name)
  | aggregate (name : Variable) {value : Surface.Expression} {inside : List Found} :
    value.Meets demands → (∀ found ∈ inside, Meets demands found) →
    Meets demands (.aggregate name (.ok (value, inside)))
  | orderKey (direction : Surface.Direction) {value : Surface.Expression} {inside : List Found} :
    value.Meets demands → (∀ found ∈ inside, Meets demands found) →
    Meets demands (.orderKey direction (.ok (value, inside)))

namespace Collecting

variable {α β : Type} {demands : Demands} {P Q : α → Prop} {R : β → Prop}

/-- A part is written with a property, and all that is found in it meets demands. -/
def Finds (demands : Demands) (P : α → Prop) (step : Collecting α) : Prop :=
  Succeeds (fun (value, found) => P value ∧ ∀ entry ∈ found, entry.Meets demands) step.outcome

namespace Finds

theorem pure {value : α} (holds : P value) : Finds demands P (pure value : Collecting α) :=
  ⟨holds, List.forall_mem_nil _⟩

theorem bind {step : Collecting α} {next : α → Collecting β} (first : Finds demands P step)
    (goesOn : ∀ value, P value → Finds demands R (next value)) :
    Finds demands R (step >>= next) := by
  obtain ⟨⟨value, found⟩, outcome, holds, ofFound⟩ := Succeeds.exists_ok first
  obtain ⟨⟨result, more⟩, last, ofResult, ofMore⟩ := Succeeds.exists_ok (goesOn value holds)
  have whole : (step >>= next).outcome = .ok (result, found ++ more) := by
    show (andThen next step.outcome).outcome = _
    rw [outcome, andThen, last]
    rfl
  unfold Finds
  rw [whole]
  exact ⟨ofResult, List.forall_mem_append.2 ⟨ofFound, ofMore⟩⟩

theorem imp {step : Collecting α} (first : Finds demands P step)
    (weaker : ∀ value, P value → Q value) : Finds demands Q step :=
  Succeeds.imp first fun _ ⟨holds, ofFound⟩ => ⟨weaker _ holds, ofFound⟩

theorem lift {result : Except LiftingError α} (succeeds : Succeeds P result) :
    Finds demands P (liftM result : Collecting α) := by
  cases result with
  | ok value => exact .pure succeeds
  | error error => exact succeeds.elim

theorem note {found : List Found} {next : Unit → Collecting α}
    (ofFound : ∀ entry ∈ found, entry.Meets demands) (goesOn : Finds demands P (next ())) :
    Finds demands P (Collecting.note found >>= next) :=
  bind (P := fun _ => True) (show Finds demands _ (Collecting.note found) from ⟨trivial, ofFound⟩)
    fun _ _ => goesOn

end Finds

end Collecting

/-! ### Terms, paths and triples -/

variable {bounds : Bounds} {demands : Demands}

theorem Literal.meets_written (suffice : bounds.Suffice demands) {text : Literal}
    (full : text.datatype.IsFull bounds) : text.written.Meets demands := by
  unfold written
  split
  · exact trivial
  · split
    · exact trivial
    · exact suffice.full _ full

namespace Term

theorem succeeds_writtenVarOrIri (suffice : bounds.Suffice demands) {term : Term}
    (isName : term.IsName bounds) :
    Succeeds (fun name => name.Meets demands) term.writtenVarOrIri := by
  cases term with
  | var name => exact trivial
  | iri node => exact suffice.full node isName
  | _ => cases isName

theorem succeeds_written (suffice : bounds.Suffice demands) {term : Term} (isNode : term.IsNode bounds) :
    Succeeds (fun term => term.Meets demands) term.written := by
  induction term with
  | var name => exact trivial
  | blank node => exact trivial
  | iri node => exact suffice.full node isNode
  | literal text => exact Literal.meets_written suffice isNode
  | defaultGraph => cases isNode
  | quad subject predicate object graph ihSubject _ ihObject _ =>
    obtain ⟨ofSubject, ofPredicate, ofObject, rfl⟩ := isNode
    refine (ihSubject ofSubject).bind fun subject subjectMeets => ?_
    refine (succeeds_writtenVarOrIri suffice ofPredicate).bind fun predicate predicateMeets => ?_
    exact (ihObject ofObject).bind fun object objectMeets =>
      ⟨subjectMeets, predicateMeets, objectMeets⟩

theorem succeeds_writtenExpression (suffice : bounds.Suffice demands) {term : Term}
    (isValue : term.IsValue bounds) :
    Succeeds (fun value => value.Meets demands) term.writtenExpression := by
  cases term with
  | var name => exact trivial
  | iri node => exact suffice.full node isValue
  | literal text => exact Literal.meets_written suffice isValue
  | _ => cases isValue

end Term

namespace Pattern

theorem succeeds_writtenTriple (suffice : bounds.Suffice demands) {pattern : Pattern}
    (wellFormed : pattern.WellFormed bounds) :
    Succeeds (fun triple => ∀ template, triple.Meets demands template)
      pattern.writtenTriple := by
  rw [writtenTriple]
  refine (Term.succeeds_written suffice wellFormed.subject).bind fun subject ofSubject => ?_
  refine (Term.succeeds_writtenVarOrIri suffice wellFormed.predicate).bind
    fun predicate ofPredicate => ?_
  exact (Term.succeeds_written suffice wellFormed.object).bind fun object ofObject _ =>
    ⟨ofSubject, ofPredicate, ofObject⟩

theorem isDefaultGraph_of_inDefault {graph : Term} (isGraph : graph.IsGraph bounds.inDefault) :
    graph.isDefaultGraph = true := by
  rcases isGraph with rfl | ⟨named, _⟩
  · rfl
  · cases named

theorem succeeds_allWritten (suffice : bounds.Suffice demands) {patterns : List Pattern}
    (wellFormed : ∀ pattern ∈ patterns, pattern.WellFormed bounds.inDefault) :
    Succeeds (fun triples => ∀ triple ∈ triples, triple.Meets demands false)
      (allWritten patterns) := by
  induction patterns with
  | nil => exact List.forall_mem_nil _
  | cons pattern rest ih =>
    rw [List.forall_mem_cons] at wellFormed
    rw [allWritten, written, if_pos (isDefaultGraph_of_inDefault wellFormed.1.graph)]
    refine (succeeds_writtenTriple suffice.inDefault wellFormed.1).bind fun triple meets => ?_
    exact (ih wellFormed.2).bind fun triples allMeet =>
      List.forall_mem_cons.2 ⟨meets false, allMeet⟩

end Pattern

namespace Row

private theorem succeeds_written (suffice : bounds.Suffice demands) {row : Row}
    (wellFormed : row.WellFormed bounds) (vars : List Variable) :
    Succeeds (fun cells => ∀ term, some term ∈ cells → term.Meets demands)
      (Row.written row vars) := by
  induction vars with
  | nil => exact fun term absent => absurd absent List.not_mem_nil
  | cons name names ih =>
    rw [written]
    have finish : ∀ {cell : Option Surface.Term}, (∀ term, some term = cell → term.Meets demands) →
        Succeeds (fun cells => ∀ term, some term ∈ cells → term.Meets demands)
          (do
            let cells ← Row.written row names
            pure (cell :: cells)) := by
      intro cell meets
      refine ih.bind fun cells allMeet term member => ?_
      rcases List.mem_cons.1 member with isFirst | inRest
      · exact meets term isFirst
      · exact allMeet term inRest
    cases found : row.find? name.name with
    | none => exact finish fun term absent => absurd absent (Option.some_ne_none term)
    | some term =>
      have isNode := (wellFormed _ (NameMap.find?_eq_some_iff.1 found)).2
      have ofCell : Succeeds (fun cell => ∀ other, some other = cell → other.Meets demands)
          (some <$> term.written) :=
        (Term.succeeds_written suffice isNode).map fun written meets other same =>
          Option.some.inj same ▸ meets
      exact ofCell.bind fun cell meets => finish meets

theorem succeeds_allWritten (suffice : bounds.Suffice demands) (vars : List Variable) {rows : List Row}
    (wellFormed : ∀ row ∈ rows, row.WellFormed bounds) :
    Succeeds (fun lines => Surface.InlineData.Meets demands ⟨vars, lines⟩)
      (allWritten vars rows) := by
  induction rows with
  | nil => exact List.forall_mem_nil _
  | cons row rest ih =>
    rw [List.forall_mem_cons] at wellFormed
    refine (succeeds_written suffice wellFormed.1 vars).bind fun cells meet => ?_
    exact (ih wellFormed.2).bind fun lines allMeet => List.forall_mem_cons.2 ⟨meet, allMeet⟩

end Row

/-! ### Paths -/

namespace Path

private theorem meet_forwardMembers (suffice : bounds.Suffice demands) {predicates : List NamedNode}
    (full : ∀ predicate ∈ predicates, predicate.IsFull bounds) :
    ∀ member ∈ forwardMembers predicates, demands.iri member.iri := by
  intro member isMember
  obtain ⟨node, isNode, rfl⟩ := List.mem_map.1 isMember
  exact suffice.full node (full node isNode)

private theorem meet_inverseMembers (suffice : bounds.Suffice demands) {predicates : List NamedNode}
    (full : ∀ predicate ∈ predicates, predicate.IsFull bounds) :
    ∀ member ∈ inverseMembers predicates, demands.iri member.iri := by
  intro member isMember
  obtain ⟨node, isNode, rfl⟩ := List.mem_map.1 isMember
  exact suffice.full node (full node isNode)

private theorem succeeds_negatedSet {members : List NegatedMember} (nonempty : members ≠ [])
    (full : ∀ member ∈ members, demands.iri member.iri) :
    Succeeds (fun path => path.Meets demands) (negatedSet members) := by
  rw [negatedSet, if_neg (mt List.isEmpty_iff.1 nonempty)]
  exact ⟨fun empty => absurd empty nonempty, full⟩

private theorem members_of_negated (suffice : bounds.Suffice demands) {path : Path}
    (wellFormed : path.WellFormed bounds) {members : List NegatedMember}
    (negated : path.negatedMembers? = some members) :
    members ≠ [] ∧ ∀ member ∈ members, demands.iri member.iri := by
  unfold negatedMembers? at negated
  split at negated
  · obtain ⟨nonempty, full⟩ := wellFormed
    cases negated
    exact ⟨mt List.map_eq_nil_iff.1 nonempty, meet_forwardMembers suffice full⟩
  · obtain ⟨nonempty, full⟩ := wellFormed
    cases negated
    exact ⟨mt List.map_eq_nil_iff.1 nonempty, meet_inverseMembers suffice full⟩
  · cases negated

private theorem members_of_allNegated (suffice : bounds.Suffice demands) {branches : List Path}
    (wellFormed : ∀ branch ∈ branches, branch.WellFormed bounds) (nonempty : branches ≠ [])
    {members : List NegatedMember} (negated : allNegatedMembers? branches = some members) :
    members ≠ [] ∧ ∀ member ∈ members, demands.iri member.iri := by
  induction branches generalizing members with
  | nil => exact absurd rfl nonempty
  | cons branch rest ih =>
    rw [List.forall_mem_cons] at wellFormed
    rw [allNegatedMembers?] at negated
    obtain ⟨first, ofBranch, others⟩ := Option.bind_eq_some_iff.1 negated
    obtain ⟨last, ofRest, same⟩ := Option.bind_eq_some_iff.1 others
    cases same
    obtain ⟨someFirst, fullFirst⟩ := members_of_negated suffice wellFormed.1 ofBranch
    refine ⟨List.append_ne_nil_of_left_ne_nil someFirst last, ?_⟩
    refine List.forall_mem_append.2 ⟨fullFirst, ?_⟩
    by_cases isLast : rest = []
    · rw [isLast] at ofRest
      cases ofRest
      exact List.forall_mem_nil _
    · exact (ih wellFormed.2 isLast ofRest).2

private theorem succeeds_nestLeft {combine : Surface.Path → Surface.Path → Surface.Path}
    (combines : ∀ left right, left.Meets demands → right.Meets demands →
      (combine left right).Meets demands) {paths : List Surface.Path}
    (nonempty : paths ≠ []) (meet : ∀ path ∈ paths, path.Meets demands) :
    Succeeds (fun path => path.Meets demands) (nestLeft combine paths) := by
  cases paths with
  | nil => exact absurd rfl nonempty
  | cons first rest =>
    rw [List.forall_mem_cons] at meet
    show (rest.foldl combine first).Meets _
    exact List.foldlRecOn rest combine meet.1 fun path ofPath next isNext =>
      combines path next ofPath (meet.2 next isNext)

mutual

theorem succeeds_written (suffice : bounds.Suffice demands) : ∀ path : Path, path.WellFormed bounds →
    Succeeds (fun path => path.Meets demands) path.written
  | .link predicate, full => suffice.full predicate full
  | .inverse path, wellFormed => by
    have ofPath := Path.succeeds_written suffice path wellFormed
    cases path with
    | negated predicates =>
      obtain ⟨nonempty, full⟩ := wellFormed
      exact succeeds_negatedSet (mt List.map_eq_nil_iff.1 nonempty)
        (meet_inverseMembers suffice full)
    | _ =>
      rw [written]
      · exact ofPath.bind fun _ meets => meets
      · exact nofun
  | .seq steps, ⟨nonempty, wellFormed⟩ => by
    rw [written]
    refine (Path.succeeds_allWritten suffice steps wellFormed).bind fun paths ⟨meet, sameLength⟩ => ?_
    refine succeeds_nestLeft (fun left right ofLeft ofRight => ?_)
      (List.ne_nil_of_length_pos (sameLength ▸ List.length_pos_iff.2 nonempty)) meet
    exact And.intro ofLeft ofRight
  | .alt branches, ⟨nonempty, wellFormed⟩ => by
    rw [written]
    split
    · rename_i members merged
      unfold mergedNegation? at merged
      split at merged
      · cases merged
      · obtain ⟨someMembers, full⟩ :=
          members_of_allNegated suffice (Path.allWellFormed_iff.1 wellFormed) nonempty merged
        exact succeeds_negatedSet someMembers full
    · refine (Path.succeeds_allWritten suffice branches wellFormed).bind
        fun paths ⟨meet, sameLength⟩ => ?_
      refine succeeds_nestLeft (fun left right ofLeft ofRight => ?_)
        (List.ne_nil_of_length_pos (sameLength ▸ List.length_pos_iff.2 nonempty)) meet
      exact And.intro ofLeft ofRight
  | .zeroOrMore path, wellFormed => by
    rw [written]
    exact (Path.succeeds_written suffice path wellFormed).bind fun _ meets => meets
  | .oneOrMore path, wellFormed => by
    rw [written]
    exact (Path.succeeds_written suffice path wellFormed).bind fun _ meets => meets
  | .zeroOrOne path, wellFormed => by
    rw [written]
    exact (Path.succeeds_written suffice path wellFormed).bind fun _ meets => meets
  | .negated predicates, ⟨nonempty, full⟩ => by
    rw [written]
    exact succeeds_negatedSet (mt List.map_eq_nil_iff.1 nonempty)
      (meet_forwardMembers suffice full)

theorem succeeds_allWritten (suffice : bounds.Suffice demands) : ∀ paths : List Path,
    Path.allWellFormed bounds paths →
    Succeeds (fun written => (∀ path ∈ written, path.Meets demands)
      ∧ written.length = paths.length) (allWritten paths)
  | [], _ => ⟨List.forall_mem_nil _, rfl⟩
  | path :: rest, ⟨ofFirst, ofRest⟩ => by
    rw [allWritten]
    refine (Path.succeeds_written suffice path ofFirst).bind fun first meets => ?_
    exact (Path.succeeds_allWritten suffice rest ofRest).bind fun others ⟨allMeet, sameLength⟩ =>
      ⟨List.forall_mem_cons.2 ⟨meets, allMeet⟩, congrArg (· + 1) sameLength⟩

end

end Path

end QueryAlgebra
