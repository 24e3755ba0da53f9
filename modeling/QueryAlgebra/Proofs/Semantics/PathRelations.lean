import QueryAlgebra.Lowering.Triples
import QueryAlgebra.Proofs.Lowering.Outcomes
import Mathlib.Data.Set.Basic
import Mathlib.Logic.Relation

/-! # The relations of property paths

Over a set of triples, a property path relates terms: a link relates the ends of triples, and other
paths are made of their parts. Paths of no steps lead from terms to themselves; for which terms is
left open, because it depends on whether the ends are written or searched for.

`Surface.Path.Relates` says what is denoted by a path as it is written, and `Path.Relates` by a path
of the algebra. A written path denotes what the path it becomes does
(`Context.relates_of_path`).
-/

namespace QueryAlgebra

/-- A set of triples, and the terms that lead to themselves in no steps. -/
structure TripleGraph where
  triples : Set (Term × NamedNode × Term)
  still : Set Term

namespace TripleGraph

variable (graph : TripleGraph)

/-- Whether a triple leads from one term to another. -/
def Links (predicate : NamedNode) (first last : Term) : Prop :=
  (first, predicate, last) ∈ graph.triples

/-- Whether a path of no steps leads from one term to another. -/
def Stays (first last : Term) : Prop := first = last ∧ first ∈ graph.still

/-- Whether a triple whose predicate is none of some leads from one term to another. -/
def LinksOtherwise (excluded : NamedNode → Prop) (first last : Term) : Prop :=
  ∃ predicate, ¬ excluded predicate ∧ graph.Links predicate first last

end TripleGraph

/-! ### Paths of the algebra -/

mutual

/-- The relation of a path. -/
def Path.Relates (graph : TripleGraph) : Path → Term → Term → Prop
  | .link predicate => graph.Links predicate
  | .inverse path => fun first last => path.Relates graph last first
  | .seq steps => Path.RelatesInTurn graph steps
  | .alt branches => Path.RelatesByOne graph branches
  | .zeroOrMore path => fun first last =>
    graph.Stays first last ∨ Relation.TransGen (path.Relates graph) first last
  | .oneOrMore path => Relation.TransGen (path.Relates graph)
  | .zeroOrOne path => fun first last => graph.Stays first last ∨ path.Relates graph first last
  | .negated predicates => graph.LinksOtherwise (· ∈ predicates)

/-- The relation of the steps of a sequence. -/
def Path.RelatesInTurn (graph : TripleGraph) : List Path → Term → Term → Prop
  | [] => Eq
  | step :: rest => fun first last =>
    ∃ between, step.Relates graph first between ∧ Path.RelatesInTurn graph rest between last

/-- The relation of the branches of an alternative. -/
def Path.RelatesByOne (graph : TripleGraph) : List Path → Term → Term → Prop
  | [] => fun _ _ => False
  | branch :: rest => fun first last =>
    branch.Relates graph first last ∨ Path.RelatesByOne graph rest first last

end

namespace Path

variable (graph : TripleGraph)

theorem relatesInTurn_append (steps more : List Path) (first last : Term) :
    RelatesInTurn graph (steps ++ more) first last
      ↔ ∃ between, RelatesInTurn graph steps first between
        ∧ RelatesInTurn graph more between last := by
  induction steps generalizing first with
  | nil => simp [RelatesInTurn]
  | cons step rest ih =>
    simp only [List.cons_append, RelatesInTurn, ih]
    grind

theorem relatesByOne_append (branches more : List Path) (first last : Term) :
    RelatesByOne graph (branches ++ more) first last
      ↔ RelatesByOne graph branches first last ∨ RelatesByOne graph more first last := by
  induction branches with
  | nil => simp [RelatesByOne]
  | cons branch rest ih => simp only [List.cons_append, RelatesByOne, ih, or_assoc]

theorem relatesInTurn_singleton (step : Path) (first last : Term) :
    RelatesInTurn graph [step] first last ↔ step.Relates graph first last := by
  simp [RelatesInTurn]

theorem relatesInTurn_steps (path : Path) (first last : Term) :
    RelatesInTurn graph path.steps first last ↔ path.Relates graph first last := by
  unfold steps
  split
  · rfl
  · exact relatesInTurn_singleton graph path first last

theorem relatesByOne_branches (path : Path) (first last : Term) :
    RelatesByOne graph path.branches first last ↔ path.Relates graph first last := by
  unfold branches
  split
  · rfl
  · simp [RelatesByOne]

/-- Keeping sequences flat does not change their relation. -/
theorem relates_sequence (left right : Path) (first last : Term) :
    (sequence [left, right]).Relates graph first last
      ↔ ∃ between, left.Relates graph first between ∧ right.Relates graph between last := by
  rw [sequence, Relates, List.flatMap_cons, relatesInTurn_append, List.flatMap_singleton]
  simp only [relatesInTurn_steps]

/-- Keeping alternatives flat does not change their relation. -/
theorem relates_alternative (left right : Path) (first last : Term) :
    (alternative [left, right]).Relates graph first last
      ↔ left.Relates graph first last ∨ right.Relates graph first last := by
  rw [alternative, Relates, List.flatMap_cons, relatesByOne_append, List.flatMap_singleton]
  simp only [relatesByOne_branches]

end Path

/-! ### Written paths -/

/-- Whether one of the members that are followed forwards, or backwards, is a predicate. -/
def Surface.NegatedMember.Exclude (context : Context) (members : List NegatedMember)
    (backwards : Bool) (predicate : NamedNode) : Prop :=
  ∃ member ∈ members, member.isInverse = backwards ∧ context.namedNode member.iri = .ok predicate

/-- The relation that a written path denotes. In a negated set the members that are followed
forwards exclude links forwards, and those followed backwards exclude links backwards. -/
def Surface.Path.Relates (context : Context) (graph : TripleGraph) :
    Path → QueryAlgebra.Term → QueryAlgebra.Term → Prop
  | .iri name => fun first last =>
    ∃ predicate, context.namedNode name = .ok predicate ∧ graph.Links predicate first last
  | .type _ => graph.Links (context.factory.namedNode Vocabulary.rdfType)
  | .inverse path _ => fun first last => path.Relates context graph last first
  | .sequence left right _ => fun first last =>
    ∃ between, left.Relates context graph first between ∧ right.Relates context graph between last
  | .alternative left right _ => fun first last =>
    left.Relates context graph first last ∨ right.Relates context graph first last
  | .zeroOrMore path _ => fun first last =>
    graph.Stays first last ∨ Relation.TransGen (path.Relates context graph) first last
  | .oneOrMore path _ => Relation.TransGen (path.Relates context graph)
  | .zeroOrOne path _ => fun first last =>
    graph.Stays first last ∨ path.Relates context graph first last
  | .negated members _ => fun first last =>
    members.any (!·.isInverse)
        ∧ graph.LinksOtherwise (NegatedMember.Exclude context members false) first last
      ∨ members.any (·.isInverse)
        ∧ graph.LinksOtherwise (NegatedMember.Exclude context members true) last first
  | .group path _ => path.Relates context graph

namespace Context

variable {context : Context}

/-- The nodes of a negated set are those of its members in either direction. -/
private theorem negatedMembers_split : ∀ {members : List Surface.NegatedMember}
    {forward inverse : List NamedNode}, context.negatedMembers members = .ok (forward, inverse) →
    (Surface.NegatedMember.Exclude context members false = (· ∈ forward))
      ∧ (Surface.NegatedMember.Exclude context members true = (· ∈ inverse))
      ∧ members.any (!·.isInverse) = !forward.isEmpty
      ∧ members.any (·.isInverse) = !inverse.isEmpty
  | [], _, _, rfl =>
    ⟨funext fun _ => by simp [Surface.NegatedMember.Exclude],
      funext fun _ => by simp [Surface.NegatedMember.Exclude], rfl, rfl⟩
  | member :: rest, forward, inverse, success => by
    obtain ⟨node, isNode, success⟩ := ok_of_bind success
    obtain ⟨⟨others, others'⟩, ofRest, success⟩ := ok_of_bind success
    obtain ⟨ihForward, ihInverse, someForward, someInverse⟩ := negatedMembers_split ofRest
    have head (backwards : Bool) (predicate : NamedNode) :
        Surface.NegatedMember.Exclude context (member :: rest) backwards predicate
          ↔ member.isInverse = backwards ∧ predicate = node
            ∨ Surface.NegatedMember.Exclude context rest backwards predicate := by
      simp [Surface.NegatedMember.Exclude, isNode, eq_comm]
    cases ofMember : member.isInverse with
    | false =>
      rw [ofMember] at success
      cases success
      refine ⟨funext fun predicate => ?_, funext fun predicate => ?_, ?_, ?_⟩
      · simp [head, ofMember, ihForward]
      · simp [head, ofMember, ihInverse]
      · simp [ofMember]
      · simpa [ofMember] using someInverse
    | true =>
      rw [ofMember] at success
      cases success
      refine ⟨funext fun predicate => ?_, funext fun predicate => ?_, ?_, ?_⟩
      · simp [head, ofMember, ihForward]
      · simp [head, ofMember, ihInverse]
      · simpa [ofMember] using someForward
      · simp [ofMember]

theorem relates_negatedPath (graph : TripleGraph) {members : List Surface.NegatedMember}
    {forward inverse : List NamedNode} (span : Surface.Span) (nonempty : members.isEmpty = false)
    (success : context.negatedMembers members = .ok (forward, inverse)) :
    (Surface.Path.negated members span).Relates context graph
      = (negatedPath forward inverse).Relates graph := by
  obtain ⟨ofForward, ofInverse, someForward, someInverse⟩ := negatedMembers_split success
  funext first last
  rw [Surface.Path.Relates, ofForward, ofInverse, someForward, someInverse]
  match forward, inverse with
  | [], [] =>
    cases members with
    | nil => cases nonempty
    | cons member rest => cases direction : member.isInverse <;> simp [direction] at *
  | _ :: _, [] => simp [negatedPath, Path.Relates]
  | [], _ :: _ => simp [negatedPath, Path.Relates]
  | _ :: _, _ :: _ => simp [negatedPath, Path.relates_alternative, Path.Relates]

/-- A written path denotes the relation of the path that it becomes. -/
theorem relates_of_path (graph : TripleGraph) {written : Surface.Path} {path : Path}
    (success : context.path written = .ok path) :
    written.Relates context graph = path.Relates graph := by
  induction written generalizing path with
  | iri name =>
    obtain ⟨node, isNode, ⟨⟩⟩ := ok_of_bind success
    funext first last
    simp [Surface.Path.Relates, Path.Relates, isNode]
  | type =>
    cases success
    rfl
  | inverse inner _ ih =>
    obtain ⟨path, isPath, ⟨⟩⟩ := ok_of_bind success
    rw [Surface.Path.Relates, Path.Relates, ih isPath]
  | sequence left right _ ihLeft ihRight =>
    obtain ⟨first, isFirst, success⟩ := ok_of_bind success
    obtain ⟨second, isSecond, ⟨⟩⟩ := ok_of_bind success
    funext start last
    rw [Surface.Path.Relates, ihLeft isFirst, ihRight isSecond, Path.relates_sequence]
  | alternative left right _ ihLeft ihRight =>
    obtain ⟨first, isFirst, success⟩ := ok_of_bind success
    obtain ⟨second, isSecond, ⟨⟩⟩ := ok_of_bind success
    funext start last
    rw [Surface.Path.Relates, ihLeft isFirst, ihRight isSecond, Path.relates_alternative]
  | zeroOrMore inner _ ih | oneOrMore inner _ ih | zeroOrOne inner _ ih =>
    obtain ⟨path, isPath, ⟨⟩⟩ := ok_of_bind success
    rw [Surface.Path.Relates, Path.Relates, ih isPath]
  | negated members span =>
    rw [Context.path] at success
    split at success
    · cases success
    · rename_i nonempty
      obtain ⟨⟨forward, inverse⟩, isSplit, ⟨⟩⟩ := ok_of_bind success
      exact relates_negatedPath graph span (Bool.eq_false_iff.2 nonempty) isSplit
  | group inner _ ih => exact ih success

end Context

end QueryAlgebra
