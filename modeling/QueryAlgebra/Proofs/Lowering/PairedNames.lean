import QueryAlgebra.Proofs.Lowering.Comparison
import QueryAlgebra.Proofs.Lowering.FreshNames
import QueryAlgebra.Proofs.Operation.CanonicalInvariance
import QueryAlgebra.Proofs.Operation.CorrespondingOperators
import Mathlib.Logic.Relator

/-! # Variables that stand for each other

Two passages over the same request that take different numbers of new variables make operations that
correspond: a new variable of one stands for the new variable that the other takes in the same
place, and what is written stands for itself. The pairs found so far are a `NamePairing`; the two
supplies are tied if the names of all pairs are in use and the labels of blank nodes are the same
(`NamePairing.Tied`). The operators of patterns and queries keep correspondence under a pairing,
`NamePairing.corresponding_closed`, and terms, inline data and triples come to the same in both
passages, with variables that are written alone.
-/

namespace QueryAlgebra

/-- Which variables of one passage stand for which of another, one to one. What is written stands for
itself. -/
structure NamePairing (written : NameSupply) where
  vars : String → String → Prop
  oneToOne : Relator.BiUnique vars
  itself {name : String} : written.Has (.var name) → vars name name

namespace NamePairing

variable {written : NameSupply}

instance : Preorder (NamePairing written) where
  le pairing later := ∀ name other, pairing.vars name other → later.vars name other
  le_refl _ _ _ := id
  le_trans _ _ _ first second name other paired := second name other (first name other paired)

/-- Names that stand for each other; the labels of blank nodes are the same. -/
inductive Related (pairing : NamePairing written) : LocalName → LocalName → Prop where
  | var {name other : String} : pairing.vars name other → Related pairing (.var name) (.var other)
  | blank (label : String) : Related pairing (.blank label) (.blank label)

variable {pairing later : NamePairing written}

theorem related_biUnique (pairing : NamePairing written) : Relator.BiUnique pairing.Related := by
  constructor
  · intro m n k toFirst toSecond
    cases toFirst with
    | var paired =>
      cases toSecond with
      | var paired' => exact congrArg _ (pairing.oneToOne.1 paired paired')
    | blank =>
      cases toSecond with
      | blank => rfl
  · intro m n k toFirst toSecond
    cases toFirst with
    | var paired =>
      cases toSecond with
      | var paired' => exact congrArg _ (pairing.oneToOne.2 paired paired')
    | blank =>
      cases toSecond with
      | blank => rfl

theorem Related.isVar {m n : LocalName} (related : pairing.Related m n) : m.isVar = n.isVar := by
  cases related with
  | var | blank => rfl

theorem Related.mono (le : pairing ≤ later) {m n : LocalName} (related : pairing.Related m n) :
    later.Related m n := by
  cases related with
  | var paired => exact .var (le _ _ paired)
  | blank label => exact .blank label

/-! ### Supplies -/

/-- Supplies that give out the same labels, and in which the names of all pairs are in use. -/
structure Tied (pairing : NamePairing written) (supply supply' : NameSupply) : Prop where
  labels : supply'.labels = supply.labels
  nextLabel : supply'.nextLabel = supply.nextLabel
  inUse {name other : String} : pairing.vars name other →
    supply.Has (.var name) ∧ supply'.Has (.var other)

/-- Let two new variables stand for each other. -/
def pair (pairing : NamePairing written) {supply supply' : NameSupply}
    (tied : pairing.Tied supply supply') {name other : String} (isNew : ¬ supply.Has (.var name))
    (isNew' : ¬ supply'.Has (.var other)) : NamePairing written where
  vars m n := pairing.vars m n ∨ (m = name ∧ n = other)
  oneToOne := by
    constructor
    · rintro m n k (paired | ⟨isFirst, rfl⟩) (paired' | ⟨isFirst', isSecond'⟩)
      · exact pairing.oneToOne.1 paired paired'
      · exact absurd (isSecond' ▸ (tied.inUse paired).2) isNew'
      · exact absurd (tied.inUse paired').2 isNew'
      · exact isFirst.trans isFirst'.symm
    · rintro m n k (paired | ⟨rfl, isSecond⟩) (paired' | ⟨isFirst', isSecond'⟩)
      · exact pairing.oneToOne.2 paired paired'
      · exact absurd (isFirst' ▸ (tied.inUse paired).1) isNew
      · exact absurd (tied.inUse paired').1 isNew
      · exact isSecond.trans isSecond'.symm
  itself isWritten := .inl (pairing.itself isWritten)

/-- Variables that are taken from tied supplies stand for each other from then on. -/
theorem Tied.take {supply supply' after after' : NameSupply} (tied : pairing.Tied supply supply')
    {name other : String} (takes : supply.Takes (.var name) after)
    (takes' : supply'.Takes (.var other) after') (labels : after.labels = supply.labels)
    (labels' : after'.labels = supply'.labels) (nextLabel : after.nextLabel = supply.nextLabel)
    (nextLabel' : after'.nextLabel = supply'.nextLabel) :
    ∃ later : NamePairing written, pairing ≤ later ∧ later.Tied after after'
      ∧ later.vars name other := by
  refine ⟨pairing.pair tied takes.fresh takes'.fresh, fun _ _ paired => .inl paired, ?_,
    .inr ⟨rfl, rfl⟩⟩
  refine ⟨by rw [labels, labels', tied.labels], by rw [nextLabel, nextLabel', tied.nextLabel], ?_⟩
  rintro m n (paired | ⟨rfl, rfl⟩)
  · exact ⟨(takes.has_iff _).2 (.inr (tied.inUse paired).1),
      (takes'.has_iff _).2 (.inr (tied.inUse paired).2)⟩
  · exact ⟨(takes.has_iff _).2 (.inl rfl), (takes'.has_iff _).2 (.inl rfl)⟩

/-! ### Correspondence under a pairing -/

/-- Two passages that make corresponding operations. -/
def corresponding (written : NameSupply) : Comparison (NamePairing written) where
  tied := Tied
  terms pairing := Term.Corresponds pairing.Related
  templates pairing := List.Forall₂ (Pattern.Corresponds (InTemplate pairing.Related))
  operations pairing := Operation.Corresponds pairing.Related
  expressions pairing := Expression.Corresponds pairing.Related
  terms_later le _ _ correspond := correspond.imp fun _ _ => Related.mono le
  operations_later le _ _ correspond :=
    correspond.imp (related_biUnique _) fun _ _ => Related.mono le
  expressions_later le _ _ correspond :=
    correspond.imp (related_biUnique _) fun _ _ => Related.mono le

private theorem corresponds_var {first second : Variable}
    (correspond : (Term.var first).Corresponds pairing.Related (.var second)) :
    first.Corresponds pairing.Related second := by
  cases correspond with
  | var related => exact related

private theorem corresponds_aggregates {found found' : List BoundAggregate}
    (alike : List.Forall₂ ((corresponding written).aggregates pairing) found found') :
    List.Forall₂ (BoundAggregate.Corresponds pairing.Related) found found' :=
  alike.imp fun ⟨_, _⟩ ⟨_, _⟩ related => .mk (corresponds_var related.1) related.2

/-- A wrapper without names corresponds to itself. -/
private theorem corresponds_of_nameless {wrapper : Wrapper} (nameless : wrapper.ownTerms = []) :
    wrapper.Corresponds pairing.Related wrapper := by
  cases wrapper with
  | project vars =>
    obtain rfl := List.map_eq_nil_iff.1 nameless
    exact .project .nil
  | describe terms =>
    obtain rfl : terms = [] := nameless
    exact .describe .nil
  | graph | service => cases nameless
  | distinct => exact .distinct
  | reduced => exact .reduced
  | slice start length => exact .slice start length
  | dataset default named => exact .dataset default named
  | ask => exact .ask

/-- The operators of patterns and queries keep correspondence. -/
theorem corresponding_closed (written : NameSupply) : (corresponding written).Closed True where
  term := .term
  wildcard _ := .wildcard
  call callee := .call callee
  aggregate name distinct separator := .aggregate name distinct separator
  existence negated := .existence negated
  empty _ := .bgp .nil
  simplifiedJoin := .simplifiedJoin
  join left right := .join (.cons left (.cons right .nil))
  union left right := .union (.cons left (.cons right .nil))
  leftJoinOf := .leftJoinOf
  minus left right := .mk none (.minus left right)
  filter input condition := .mk none (.filter input condition)
  service silent _ _ _ _ _ name input := .mk none (.wrap (.service silent name) input)
  extend _ _ _ _ _ _ _ _ name input value :=
    .mk none (.extend input (corresponds_var name) value)
  project _ _ _ _ _ _ vars input :=
    .mk none (.wrap (.project (vars.imp fun _ _ => corresponds_var)) input)
  describe _ _ _ _ _ _ terms input := .mk none (.wrap (.describe terms) input)
  wrap _ _ _ _ _ nameless _ input := .mk none (.wrap (corresponds_of_nameless nameless) input)
  group _ _ _ _ _ _ _ _ keys input found :=
    .mk none (.group input (keys.imp fun _ _ => corresponds_var) (corresponds_aggregates found))
  orderBy _ _ _ _ _ _ input keys := .mk none (.orderBy input keys)
  construct _ _ _ _ _ _ template input := .mk none (.construct input template)
  forms correspond := by
    cases correspond with
    | term values => exact .term values
    | call callee arguments => exact .call callee arguments
    | aggregate name distinct separator => exact .aggregate name _ _ distinct separator
    | existence negated => exact .existence negated _ _
    | wildcard => exact .wildcard
  shape := Expression.Corresponds.sameShape
  same := Expression.Corresponds.eq_iff (related_biUnique _)

end NamePairing

end QueryAlgebra
