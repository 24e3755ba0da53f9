import QueryAlgebra.Lifting.Operation
import QueryAlgebra.Proofs.NameMap
import QueryAlgebra.Proofs.Operation.Iris
import QueryAlgebra.Proofs.Surface.Demands

/-! # What can be written meets demands

Whatever of an operation can be written at all meets demands that its IRIs meet, well-formed or not:
writing refuses what could not be read. `Grants` says that a result has a property, if there is one.
This module treats what is written without looking into operations: terms, triples, rows, paths and
the application of operators.
-/

namespace QueryAlgebra

open Surface (BinaryOp Builtin Demands NegatedMember UnaryOp)

/-- A result has a property, if there is one. -/
def Grants {α : Type} (P : α → Prop) : Except LiftingError α → Prop
  | .ok value => P value
  | .error _ => True

namespace Grants

variable {α β : Type} {P Q : α → Prop} {R : β → Prop} {result : Except LiftingError α}

theorem bind {next : α → Except LiftingError β} (first : Grants P result)
    (goesOn : ∀ value, P value → Grants R (next value)) : Grants R (result >>= next) := by
  cases result with
  | ok value => exact goesOn value first
  | error => trivial

theorem map {f : α → β} (first : Grants P result) (keeps : ∀ value, P value → R (f value)) :
    Grants R (f <$> result) := by
  cases result with
  | ok value => exact keeps value first
  | error => trivial

theorem imp (first : Grants P result) (weaker : ∀ value, P value → Q value) :
    Grants Q result := by
  cases result with
  | ok value => exact weaker value first
  | error => trivial

theorem with_source (grants : Grants P result) :
    Grants (fun value => P value ∧ result = .ok value) result := by
  cases result with
  | ok value => exact ⟨grants, rfl⟩
  | error => trivial

theorem of_ok {value : α} (grants : Grants P result) (success : result = .ok value) : P value := by
  rw [success] at grants
  exact grants

theorem any : Grants (fun _ => True) result := by
  cases result <;> trivial

end Grants

/-- The IRIs meet demands when they are written. -/
def Surface.Demands.Admit (demands : Demands) (iris : List NamedNode) : Prop :=
  ∀ node ∈ iris, demands.iri node.written

namespace Surface.Demands.Admit

variable {demands : Demands} {first second : List NamedNode}

@[simp] theorem nil : demands.Admit [] := List.forall_mem_nil _

@[simp] theorem append :
    demands.Admit (first ++ second) ↔ demands.Admit first ∧ demands.Admit second :=
  List.forall_mem_append

theorem flatMap {α : Type} {iris : α → List NamedNode} {parts : List α} :
    demands.Admit (parts.flatMap iris) ↔ ∀ part ∈ parts, demands.Admit (iris part) := by
  simp only [Admit, List.mem_flatMap]
  exact ⟨fun all part member node isIri => all node ⟨part, member, isIri⟩,
    fun all node ⟨part, member, isIri⟩ => all part member node isIri⟩

@[simp] theorem quad {subject predicate object graph : QueryAlgebra.Term} :
    demands.Admit (QueryAlgebra.Term.quad subject predicate object graph).iris
      ↔ demands.Admit subject.iris ∧ demands.Admit predicate.iris ∧ demands.Admit object.iris
        ∧ demands.Admit graph.iris := by
  simp [QueryAlgebra.Term.iris, Term.nested, Term.ownIris]

@[simp] theorem pattern {subject predicate object graph : QueryAlgebra.Term} :
    demands.Admit (QueryAlgebra.Pattern.iris ⟨subject, predicate, object, graph⟩)
      ↔ demands.Admit subject.iris ∧ demands.Admit predicate.iris ∧ demands.Admit object.iris
        ∧ demands.Admit graph.iris := by
  simp [QueryAlgebra.Pattern.iris, Pattern.terms]

end Surface.Demands.Admit

variable {demands : Demands}

/-! ### Terms, triples and rows -/

theorem Literal.meets_of_admit {text : Literal} (admits : demands.iri text.datatype.written) :
    text.written.Meets demands := by
  unfold written
  split
  · exact trivial
  · split
    · exact trivial
    · exact admits

namespace Term

theorem grants_writtenVarOrIri {term : Term} (admits : demands.Admit term.iris) :
    Grants (fun name => name.Meets demands) term.writtenVarOrIri := by
  cases term with
  | iri node => exact admits node (List.mem_singleton_self node)
  | _ => trivial

theorem grants_written {term : Term} (admits : demands.Admit term.iris) :
    Grants (fun term => term.Meets demands) term.written := by
  induction term with
  | iri node => exact admits node (List.mem_singleton_self node)
  | literal text => exact Literal.meets_of_admit (admits _ (List.mem_singleton_self _))
  | quad subject predicate object graph ihSubject _ ihObject _ =>
    obtain ⟨ofSubject, ofPredicate, ofObject, -⟩ := Demands.Admit.quad.1 admits
    rw [written]
    split
    · refine (ihSubject ofSubject).bind fun subject subjectMeets => ?_
      refine (grants_writtenVarOrIri ofPredicate).bind fun predicate predicateMeets => ?_
      exact (ihObject ofObject).bind fun object objectMeets =>
        ⟨subjectMeets, predicateMeets, objectMeets⟩
    · trivial
  | var | blank | defaultGraph => trivial

theorem grants_writtenExpression {term : Term} (admits : demands.Admit term.iris) :
    Grants (fun value => value.Meets demands) term.writtenExpression := by
  cases term with
  | iri node => exact admits node (List.mem_singleton_self node)
  | literal text => exact Literal.meets_of_admit (admits _ (List.mem_singleton_self _))
  | _ => trivial

theorem grants_allWrittenVarOrIri {terms : List Term}
    (admits : ∀ term ∈ terms, demands.Admit term.iris) :
    Grants (fun names => ∀ name ∈ names, name.Meets demands) (allWrittenVarOrIri terms) := by
  induction terms with
  | nil => exact List.forall_mem_nil _
  | cons term rest ih =>
    rw [List.forall_mem_cons] at admits
    refine (grants_writtenVarOrIri admits.1).bind fun name meets => ?_
    exact (ih admits.2).bind fun names allMeet => List.forall_mem_cons.2 ⟨meets, allMeet⟩

end Term

namespace Pattern

theorem grants_writtenTriple {pattern : Pattern} (admits : demands.Admit pattern.iris) :
    Grants (fun triple => ∀ template, triple.Meets demands template) pattern.writtenTriple := by
  obtain ⟨subject, predicate, object, graph⟩ := pattern
  obtain ⟨ofSubject, ofPredicate, ofObject, -⟩ := Demands.Admit.pattern.1 admits
  rw [writtenTriple]
  refine (Term.grants_written ofSubject).bind fun subject subjectMeets => ?_
  refine (Term.grants_writtenVarOrIri ofPredicate).bind fun predicate predicateMeets => ?_
  exact (Term.grants_written ofObject).bind fun object objectMeets _ =>
    ⟨subjectMeets, predicateMeets, objectMeets⟩

theorem grants_allWritten {patterns : List Pattern}
    (admits : ∀ pattern ∈ patterns, demands.Admit pattern.iris) :
    Grants (fun triples => ∀ triple ∈ triples, triple.Meets demands false)
      (allWritten patterns) := by
  induction patterns with
  | nil => exact List.forall_mem_nil _
  | cons pattern rest ih =>
    rw [List.forall_mem_cons] at admits
    rw [allWritten, written]
    split
    · refine (grants_writtenTriple admits.1).bind fun triple meets => ?_
      exact (ih admits.2).bind fun triples allMeet =>
        List.forall_mem_cons.2 ⟨meets false, allMeet⟩
    · trivial

theorem grants_writtenTemplate {patterns : List Pattern}
    (admits : ∀ pattern ∈ patterns, demands.Admit pattern.iris) :
    Grants (fun triples => ∀ triple ∈ triples, triple.Meets demands true)
      (writtenTemplate patterns) := by
  induction patterns with
  | nil => exact List.forall_mem_nil _
  | cons pattern rest ih =>
    rw [List.forall_mem_cons] at admits
    rw [writtenTemplate]
    cases pattern.graph.isDefaultGraph with
    | false => trivial
    | true =>
      refine (grants_writtenTriple admits.1).bind fun triple meets => ?_
      exact (ih admits.2).bind fun triples allMeet =>
        List.forall_mem_cons.2 ⟨meets true, allMeet⟩

end Pattern

namespace Row

private theorem grants_written {row : Row}
    (admits : ∀ entry ∈ row.entries, demands.Admit entry.2.iris) (vars : List Variable) :
    Grants (fun cells => ∀ term, some term ∈ cells → term.Meets demands)
      (Row.written row vars) := by
  induction vars with
  | nil => exact fun term absent => absurd absent List.not_mem_nil
  | cons name names ih =>
    rw [written]
    have finish : ∀ {cell : Option Surface.Term}, (∀ term, some term = cell → term.Meets demands) →
        Grants (fun cells => ∀ term, some term ∈ cells → term.Meets demands)
          (do
            let cells ← Row.written row names
            pure (cell :: cells)) := by
      intro cell meets
      refine ih.bind fun cells allMeet term member => ?_
      rcases List.mem_cons.1 member with isFirst | inRest
      · exact meets term isFirst
      · exact allMeet term inRest
    cases found : row.find? name.name with
    | none => exact finish fun term absent => absurd absent (Option.some_ne_none term)
    | some term =>
      have ofTerm := admits _ (NameMap.find?_eq_some_iff.1 found)
      have ofCell : Grants (fun cell => ∀ other, some other = cell → other.Meets demands)
          (some <$> term.written) :=
        (Term.grants_written ofTerm).map fun written meets other same =>
          Option.some.inj same ▸ meets
      exact ofCell.bind fun cell meets => finish meets

theorem grants_allWritten (vars : List Variable) {rows : List Row}
    (admits : ∀ row ∈ rows, ∀ entry ∈ row.entries, demands.Admit entry.2.iris) :
    Grants (fun lines => Surface.InlineData.Meets demands ⟨vars, lines⟩)
      (allWritten vars rows) := by
  induction rows with
  | nil => exact List.forall_mem_nil _
  | cons row rest ih =>
    rw [List.forall_mem_cons] at admits
    refine (grants_written admits.1 vars).bind fun cells meet => ?_
    exact (ih admits.2).bind fun lines allMeet => List.forall_mem_cons.2 ⟨meet, allMeet⟩

end Row

/-! ### Paths -/

namespace Path

private theorem grants_negatedSet {members : List NegatedMember}
    (allAdmitted : ∀ member ∈ members, demands.iri member.iri) :
    Grants (fun path => path.Meets demands) (negatedSet members) := by
  rw [negatedSet]
  split
  · trivial
  · rename_i nonempty
    exact ⟨fun empty => absurd (List.isEmpty_iff.2 empty) nonempty, allAdmitted⟩

private theorem admit_forwardMembers {predicates : List NamedNode}
    (admits : demands.Admit predicates) :
    ∀ member ∈ forwardMembers predicates, demands.iri member.iri := by
  intro member isMember
  obtain ⟨node, isNode, rfl⟩ := List.mem_map.1 isMember
  exact admits node isNode

private theorem admit_inverseMembers {predicates : List NamedNode}
    (admits : demands.Admit predicates) :
    ∀ member ∈ inverseMembers predicates, demands.iri member.iri := by
  intro member isMember
  obtain ⟨node, isNode, rfl⟩ := List.mem_map.1 isMember
  exact admits node isNode

private theorem admit_negatedMembers {path : Path} (admits : demands.Admit path.iris)
    {members : List NegatedMember} (negated : path.negatedMembers? = some members) :
    ∀ member ∈ members, demands.iri member.iri := by
  unfold negatedMembers? at negated
  split at negated
  · cases negated
    exact admit_forwardMembers admits
  · cases negated
    exact admit_inverseMembers admits
  · cases negated

private theorem admit_allNegatedMembers {branches : List Path}
    (admits : demands.Admit (irisOfAll branches)) {members : List NegatedMember}
    (negated : allNegatedMembers? branches = some members) :
    ∀ member ∈ members, demands.iri member.iri := by
  induction branches generalizing members with
  | nil =>
    cases negated
    exact List.forall_mem_nil _
  | cons branch rest ih =>
    obtain ⟨ofBranch, ofRest⟩ := Demands.Admit.append.1 admits
    rw [allNegatedMembers?] at negated
    obtain ⟨first, isFirst, others⟩ := Option.bind_eq_some_iff.1 negated
    obtain ⟨last, isLast, same⟩ := Option.bind_eq_some_iff.1 others
    cases same
    exact List.forall_mem_append.2 ⟨admit_negatedMembers ofBranch isFirst, ih ofRest isLast⟩

private theorem grants_nestLeft {combine : Surface.Path → Surface.Path → Surface.Path}
    (combines : ∀ left right, left.Meets demands → right.Meets demands →
      (combine left right).Meets demands) {paths : List Surface.Path}
    (meet : ∀ path ∈ paths, path.Meets demands) :
    Grants (fun path => path.Meets demands) (nestLeft combine paths) := by
  cases paths with
  | nil => trivial
  | cons first rest =>
    rw [List.forall_mem_cons] at meet
    show (rest.foldl combine first).Meets _
    exact List.foldlRecOn rest combine meet.1 fun path ofPath next isNext =>
      combines path next ofPath (meet.2 next isNext)

mutual

theorem grants_written : ∀ path : Path, demands.Admit path.iris →
    Grants (fun path => path.Meets demands) path.written
  | .link predicate, admits => admits predicate (List.mem_singleton_self predicate)
  | .inverse path, admits => by
    have ofPath := Path.grants_written path admits
    cases path with
    | negated predicates => exact grants_negatedSet (admit_inverseMembers admits)
    | _ =>
      rw [written]
      · exact ofPath.bind fun _ meets => meets
      · exact nofun
  | .seq steps, admits => by
    rw [written]
    refine (Path.grants_allWritten steps admits).bind fun paths meet => ?_
    refine grants_nestLeft (fun left right ofLeft ofRight => ?_) meet
    exact And.intro ofLeft ofRight
  | .alt branches, admits => by
    rw [written]
    split
    · rename_i members merged
      unfold mergedNegation? at merged
      split at merged
      · cases merged
      · exact grants_negatedSet (admit_allNegatedMembers admits merged)
    · refine (Path.grants_allWritten branches admits).bind fun paths meet => ?_
      refine grants_nestLeft (fun left right ofLeft ofRight => ?_) meet
      exact And.intro ofLeft ofRight
  | .zeroOrMore path, admits => by
    rw [written]
    exact (Path.grants_written path admits).bind fun _ meets => meets
  | .oneOrMore path, admits => by
    rw [written]
    exact (Path.grants_written path admits).bind fun _ meets => meets
  | .zeroOrOne path, admits => by
    rw [written]
    exact (Path.grants_written path admits).bind fun _ meets => meets
  | .negated predicates, admits => by
    rw [written]
    exact grants_negatedSet (admit_forwardMembers admits)

theorem grants_allWritten : ∀ paths : List Path, demands.Admit (irisOfAll paths) →
    Grants (fun written => ∀ path ∈ written, path.Meets demands) (allWritten paths)
  | [], _ => List.forall_mem_nil _
  | path :: rest, admits => by
    obtain ⟨ofPath, ofRest⟩ := Demands.Admit.append.1 admits
    rw [allWritten]
    refine (Path.grants_written path ofPath).bind fun first meets => ?_
    exact (Path.grants_allWritten rest ofRest).bind fun others allMeet =>
      List.forall_mem_cons.2 ⟨meets, allMeet⟩

end

end Path

/-! ### Operators -/

namespace Surface.Expression

private theorem grants_ofSpecial (calls : ∀ function count, demands.call function count)
    (name : String) {arguments : List Surface.Expression}
    (meet : ∀ argument ∈ arguments, argument.Meets demands) :
    Grants (fun value => value.Meets demands) (ofSpecial name arguments) := by
  unfold ofSpecial
  split
  · split
    · simp only [List.forall_mem_cons] at meet
      exact ⟨meet.1, meet.2.1, meet.2.2.1⟩
    · trivial
  split
  · exact Surface.Expression.allMeet_iff.2 meet
  split
  · split
    · rw [List.forall_mem_cons] at meet
      exact ⟨meet.1, Surface.Expression.allMeet_iff.2 meet.2⟩
    · trivial
  split
  · trivial
  · split
    · exact ⟨calls _ _, Surface.Expression.allMeet_iff.2 meet⟩
    · trivial

theorem grants_ofOperator (calls : ∀ function count, demands.call function count)
    (name : String) {arguments : List Surface.Expression}
    (meet : ∀ argument ∈ arguments, argument.Meets demands) :
    Grants (fun value => value.Meets demands) (ofOperator name arguments) := by
  unfold ofOperator
  split
  · split
    · simp only [List.forall_mem_cons] at meet
      exact ⟨meet.1, meet.2.1⟩
    · trivial
  · split
    · split
      · rename_i operand
        exact meet operand (List.mem_singleton_self operand)
      · trivial
    · exact grants_ofSpecial calls name meet

end Surface.Expression

theorem Surface.Dataset.meets_of_admit {default named : List NamedNode}
    (admits : demands.Admit (default ++ named)) :
    (Dataset.ofNodes default named).Meets demands := by
  obtain ⟨ofDefault, ofNamed⟩ := Demands.Admit.append.1 admits
  refine List.forall_mem_append.2 ⟨fun graph member => ?_, fun graph member => ?_⟩
  · obtain ⟨node, isNode, rfl⟩ := List.mem_map.1 member
    exact ofDefault node isNode
  · obtain ⟨node, isNode, rfl⟩ := List.mem_map.1 member
    exact ofNamed node isNode

end QueryAlgebra
