import QueryAlgebra.Proofs.Lowering.Comparison
import QueryAlgebra.Proofs.Lowering.Likeness
import Mathlib.Logic.Relation

/-! # Comparisons put together

What two passages make may be compared in two steps: by a comparison first, which takes the names of
one for those of the other, and by a likeness then, under which the names are the same. If the
operators of patterns and queries keep both, they keep what is put together from them,
`Comparison.followedBy_closed`.
-/

namespace QueryAlgebra

private theorem forall₂_between {α β γ : Type} {R : α → β → Prop} {S : β → γ → Prop}
    {T : α → γ → Prop} (split : ∀ x z, T x z → ∃ y, R x y ∧ S y z) {xs : List α} {zs : List γ}
    (related : List.Forall₂ T xs zs) : ∃ ys, List.Forall₂ R xs ys ∧ List.Forall₂ S ys zs := by
  induction related with
  | nil => exact ⟨[], .nil, .nil⟩
  | cons first _ ih =>
    obtain ⟨y, ofFirst, ofFirst'⟩ := split _ _ first
    obtain ⟨ys, ofRest, ofRest'⟩ := ih
    exact ⟨y :: ys, .cons ofFirst ofRest, .cons ofFirst' ofRest'⟩

private theorem forall₂_composed {α β γ : Type} {R : α → β → Prop} {S : β → γ → Prop} {xs : List α}
    {ys : List β} {zs : List γ} (first : List.Forall₂ R xs ys) (second : List.Forall₂ S ys zs) :
    List.Forall₂ (Relation.Comp R S) xs zs := by
  induction first generalizing zs with
  | nil =>
    cases second
    exact .nil
  | cons isFirst _ ih =>
    cases second with
    | cons isSecond rest => exact .cons ⟨_, isFirst, isSecond⟩ (ih rest)

/-- What a wrapper is around does not matter to whether it is a block of its own. -/
private theorem setsGraph_wrap (wrapper : Wrapper) (input input' : Operation) :
    (Operator.wrap wrapper input).setsGraph = (Operator.wrap wrapper input').setsGraph := by
  cases wrapper <;> rfl

namespace Comparison

variable {World : Type} [Preorder World] {comparison : Comparison World} {likeness : Likeness}
  {binds : Prop}

/-- Compare under other names first, and under the same names then. What is made of a template stands
in the default graph. -/
def followedBy (comparison : Comparison World) (likeness : Likeness) : Comparison World where
  tied := comparison.tied
  terms := comparison.terms
  templates world first second :=
    comparison.templates world first second ∧ ∀ pattern ∈ second, pattern.graph = .defaultGraph
  operations world := Relation.Comp (comparison.operations world) likeness.operations
  expressions world := Relation.Comp (comparison.expressions world) likeness.expressions
  terms_later := comparison.terms_later
  operations_later le _ _ := fun ⟨middle, first, second⟩ =>
    ⟨middle, comparison.operations_later le first, second⟩
  expressions_later le _ _ := fun ⟨middle, first, second⟩ =>
    ⟨middle, comparison.expressions_later le first, second⟩

theorem Outcome.followedBy {α β : Type} {R : World → α → β → Prop} {world : World}
    {outcome : EStateM.Result LoweringError NameSupply α}
    {outcome' : EStateM.Result LoweringError NameSupply β}
    (alike : comparison.Outcome R world outcome outcome') :
    (comparison.followedBy likeness).Outcome R world outcome outcome' := by
  cases alike with
  | ok le tied related =>
    refine .ok le ?_ related
    exact tied
  | error le tied error =>
    refine .error le ?_ error
    exact tied

/-- Supplies belong together as before. -/
theorem Agree.followedBy {α β : Type} {R : World → α → β → Prop} {world : World}
    {first : Lowering α} {second : Lowering β} (agree : comparison.Agree R world first second) :
    (comparison.followedBy likeness).Agree R world first second := fun supply supply' tied =>
  (agree supply supply' tied).followedBy

private theorem aggregates_between {world : World} {found found' : List BoundAggregate}
    (alike : List.Forall₂ ((comparison.followedBy likeness).aggregates world) found found') :
    ∃ between, List.Forall₂ (comparison.aggregates world) found between
      ∧ List.Forall₂ likeness.Aggregates between found' :=
  forall₂_between (fun _ bound ⟨ofName, middle, first, second⟩ =>
    ⟨⟨bound.name, middle⟩, ⟨ofName, first⟩, rfl, second⟩) alike

/-- The operators keep what is put together from a comparison and a likeness that they keep. -/
theorem followedBy_closed (closed : comparison.Closed binds) (closed' : likeness.Closed binds) :
    (comparison.followedBy likeness).Closed binds where
  term alike := ⟨_, closed.term alike, closed'.term _⟩
  wildcard world := ⟨_, closed.wildcard world, closed'.wildcard⟩
  call callee _ _ _ alike := by
    obtain ⟨_, first, second⟩ := forall₂_between (fun _ _ => id) alike
    exact ⟨_, closed.call callee first, closed'.call callee second⟩
  aggregate name distinct separator _ _ _ := fun ⟨_, first, second⟩ =>
    ⟨_, closed.aggregate name distinct separator first,
      closed'.aggregate name distinct separator second⟩
  existence negated _ _ _ := fun ⟨_, first, second⟩ =>
    ⟨_, closed.existence negated first, closed'.existence negated second⟩
  empty world := ⟨_, closed.empty world, closed'.empty⟩
  simplifiedJoin := fun ⟨_, left, left'⟩ ⟨_, right, right'⟩ =>
    ⟨_, closed.simplifiedJoin left right, closed'.simplifiedJoin left' right'⟩
  join := fun ⟨_, left, left'⟩ ⟨_, right, right'⟩ =>
    ⟨_, closed.join left right, closed'.join left' right'⟩
  union := fun ⟨_, left, left'⟩ ⟨_, right, right'⟩ =>
    ⟨_, closed.union left right, closed'.union left' right'⟩
  leftJoinOf := fun ⟨_, left, left'⟩ ⟨_, right, right'⟩ =>
    ⟨_, closed.leftJoinOf left right, closed'.leftJoinOf left' right'⟩
  minus := fun ⟨_, left, left'⟩ ⟨_, right, right'⟩ =>
    ⟨_, closed.minus left right, closed'.minus left' right'⟩
  filter := fun ⟨_, input, input'⟩ ⟨_, condition, condition'⟩ =>
    ⟨_, closed.filter input condition, closed'.filter input' condition'⟩
  service silent _ _ _ _ _ ofName := fun ⟨_, input, input'⟩ =>
    ⟨_, closed.service silent ofName input, closed'.service _ silent input'⟩
  extend binding _ _ _ _ _ _ _ ofName := fun ⟨_, input, input'⟩ ⟨_, value, value'⟩ =>
    ⟨_, closed.extend binding ofName input value, closed'.extend binding _ input' value'⟩
  project binding _ _ _ _ _ ofVars := fun ⟨_, input, input'⟩ =>
    ⟨_, closed.project binding ofVars input, closed'.wrap binding rfl input'⟩
  describe binding _ _ _ _ _ ofTerms := fun ⟨_, input, input'⟩ =>
    ⟨_, closed.describe binding ofTerms input, closed'.wrap binding rfl input'⟩
  wrap binding _ _ _ _ nameless plain := fun ⟨between, input, input'⟩ =>
    ⟨_, closed.wrap binding nameless plain input,
      closed'.wrap binding (setsGraph_wrap _ _ between ▸ plain) input'⟩
  group binding _ _ _ _ _ _ _ ofKeys := fun ⟨_, input, input'⟩ alike => by
    obtain ⟨_, found, found'⟩ := aggregates_between alike
    exact ⟨_, closed.group binding ofKeys input found, closed'.group binding _ input' found'⟩
  orderBy binding _ _ _ _ _ := fun ⟨_, input, input'⟩ alike => by
    obtain ⟨_, keys, keys'⟩ := forall₂_between (fun _ _ => id) alike
    exact ⟨_, closed.orderBy binding input keys, closed'.orderBy binding input' keys'⟩
  construct binding _ _ _ _ _ ofTemplate := fun ⟨_, input, input'⟩ =>
    ⟨_, closed.construct binding ofTemplate.1 input,
      closed'.construct binding ofTemplate.2 input'⟩
  forms := fun ⟨_, first, second⟩ => by
    cases closed.forms first with
    | term values =>
      cases closed'.forms second with
      | term => exact .term values
    | call callee arguments =>
      cases closed'.forms second with
      | call _ arguments' => exact .call callee (forall₂_composed arguments arguments')
    | aggregate name _ _ distinct separator =>
      cases closed'.forms second with
      | aggregate => exact .aggregate name _ _ distinct separator
    | existence negated =>
      cases closed'.forms second with
      | existence => exact .existence negated _ _
    | wildcard =>
      cases closed'.forms second with
      | wildcard => exact .wildcard
  shape := fun ⟨_, first, second⟩ => (closed.shape first).trans (closed'.shape second)
  same := fun ⟨_, first, second⟩ ⟨_, first', second'⟩ =>
    (closed.same first first').trans (closed'.same second second')

end Comparison

end QueryAlgebra
