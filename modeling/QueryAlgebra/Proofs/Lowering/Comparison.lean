import QueryAlgebra.Lowering.Pattern
import QueryAlgebra.Proofs.Lowering.Outcomes
import QueryAlgebra.Proofs.Lowering.SameTerms
import QueryAlgebra.Proofs.Traversal.Fitting
import Mathlib.Order.Basic

/-! # Two passages side by side

Two passages may take different names for the same thing and make operations that differ in these
names. Which names belong together is found out while the passages go on: a world is what is known
of them at one time, and later worlds know more. A `Comparison` says for each world which supplies
belong together and which terms, operations and expressions are related, and what is related stays
so. Two steps agree if, from supplies that belong together, they both fail with the same error or
both succeed with related results, in a later world in which the supplies that are left belong
together.

If a comparison is `Closed`, what is made of related parts by the operators of patterns and queries
is related. Aggregates are taken out of related expressions in step: an aggregate is found again
among those found before exactly if the one related to it is.
-/

namespace QueryAlgebra

/-- How two passages are compared: the supplies that belong together in a world, and what is related
in it. -/
structure Comparison (World : Type) [Preorder World] where
  tied : World → NameSupply → NameSupply → Prop
  terms : World → Term → Term → Prop
  templates : World → List Pattern → List Pattern → Prop
  operations : World → Operation → Operation → Prop
  expressions : World → Expression → Expression → Prop
  terms_later {world later : World} (le : world ≤ later) {first second : Term} :
    terms world first second → terms later first second
  operations_later {world later : World} (le : world ≤ later) {first second : Operation} :
    operations world first second → operations later first second
  expressions_later {world later : World} (le : world ≤ later) {first second : Expression} :
    expressions world first second → expressions later first second

namespace Comparison

variable {World : Type} [Preorder World] (comparison : Comparison World)

/-- Variables that are related as terms. -/
def vars (world : World) (first second : Variable) : Prop :=
  comparison.terms world (.var first) (.var second)

/-- Aggregates that carry related values in related variables. -/
def aggregates (world : World) (first second : BoundAggregate) : Prop :=
  comparison.vars world first.name second.name
    ∧ comparison.expressions world first.expression second.expression

/-- Related variables, shown with related values or without one. -/
def items (world : World) (first second : Variable × Option Expression) : Prop :=
  comparison.vars world first.1 second.1
    ∧ Option.Rel (comparison.expressions world) first.2 second.2

/-- What the elements of a group have come to, with the filters among them. -/
def groups (world : World) (first second : Operation × List Expression) : Prop :=
  comparison.operations world first.1 second.1
    ∧ List.Forall₂ (comparison.expressions world) first.2 second.2

/-- Expressions of one form, whose parts are related as far as aggregates are looked for. -/
inductive Forms (world : World) : Expression → Expression → Prop where
  | term {value value' : Term} : comparison.terms world value value' →
    Forms world (.term value) (.term value')
  | call (callee : Callee) {arguments arguments' : List Expression} :
    List.Forall₂ (comparison.expressions world) arguments arguments' →
    Forms world (.call callee arguments) (.call callee arguments')
  | aggregate (name : String) (argument argument' : Expression) (distinct : Bool)
    (separator : Option String) :
    Forms world (.aggregate name argument distinct separator)
      (.aggregate name argument' distinct separator)
  | existence (negated : Bool) (input input' : Operation) :
    Forms world (.existence negated input) (.existence negated input')
  | wildcard : Forms world .wildcard .wildcard

section

variable {comparison} {world later : World} (le : world ≤ later)

include le

theorem all_expressions_later {first second : List Expression}
    (alike : List.Forall₂ (comparison.expressions world) first second) :
    List.Forall₂ (comparison.expressions later) first second :=
  alike.imp fun _ _ => comparison.expressions_later le

theorem aggregates_later {first second : List BoundAggregate}
    (alike : List.Forall₂ (comparison.aggregates world) first second) :
    List.Forall₂ (comparison.aggregates later) first second :=
  alike.imp fun _ _ related =>
    ⟨comparison.terms_later le related.1, comparison.expressions_later le related.2⟩

theorem items_later {first second : List (Variable × Option Expression)}
    (alike : List.Forall₂ (comparison.items world) first second) :
    List.Forall₂ (comparison.items later) first second := by
  have values {first second : Option Expression}
      (alike : Option.Rel (comparison.expressions world) first second) :
      Option.Rel (comparison.expressions later) first second := by
    cases alike with
    | none => exact .none
    | some ofValue => exact .some (comparison.expressions_later le ofValue)
  exact alike.imp fun _ _ related => ⟨comparison.terms_later le related.1, values related.2⟩

end

/-! ### Steps -/

section

variable {comparison} {α β γ δ : Type} {R : World → α → β → Prop} {S : World → γ → δ → Prop}
  {world : World}

/-- Outcomes that are the same error or related results, in a later world in which the supplies that
are left belong together. -/
inductive Outcome (comparison : Comparison World) (R : World → α → β → Prop) (world : World) :
    EStateM.Result LoweringError NameSupply α → EStateM.Result LoweringError NameSupply β → Prop
  | ok {later : World} (le : world ≤ later) {supply supply' : NameSupply}
    (tied : comparison.tied later supply supply') {first : α} {second : β}
    (related : R later first second) :
    Outcome comparison R world (.ok first supply) (.ok second supply')
  | error {later : World} (le : world ≤ later) {supply supply' : NameSupply}
    (tied : comparison.tied later supply supply') (error : LoweringError) :
    Outcome comparison R world (.error error supply) (.error error supply')

/-- Two steps whose outcomes from supplies that belong together are alike. -/
def Agree (comparison : Comparison World) (R : World → α → β → Prop) (world : World)
    (first : Lowering α) (second : Lowering β) : Prop :=
  ∀ supply supply', comparison.tied world supply supply' →
    comparison.Outcome R world (first supply) (second supply')

section

variable {outcome : EStateM.Result LoweringError NameSupply α}
  {outcome' : EStateM.Result LoweringError NameSupply β}

theorem Outcome.earlier {later : World} (le : world ≤ later)
    (alike : comparison.Outcome R later outcome outcome') :
    comparison.Outcome R world outcome outcome' := by
  cases alike with
  | ok le' tied related => exact .ok (le.trans le') tied related
  | error le' tied error => exact .error (le.trans le') tied error

theorem Outcome.imp {T : World → α → β → Prop} (alike : comparison.Outcome R world outcome outcome')
    (weaker : ∀ later value value' after after', outcome = .ok value after →
      outcome' = .ok value' after' → R later value value' → T later value value') :
    comparison.Outcome T world outcome outcome' := by
  cases alike with
  | ok le tied related => exact .ok le tied (weaker _ _ _ _ _ rfl rfl related)
  | error le tied error => exact .error le tied error

end

/-- Steps that go on alike from alike outcomes have alike outcomes together. -/
theorem Outcome.bind {first : Lowering α} {second : Lowering β} {next : α → Lowering γ}
    {next' : β → Lowering δ} {supply supply' : NameSupply}
    (outcome : comparison.Outcome R world (first supply) (second supply'))
    (goesOn : ∀ later, world ≤ later → ∀ value value' after after',
      comparison.tied later after after' → first supply = .ok value after → R later value value' →
      comparison.Outcome S later (next value after) (next' value' after')) :
    comparison.Outcome S world ((first >>= next) supply) ((second >>= next') supply') := by
  cases ofFirst : first supply with
  | ok value after =>
    cases ofSecond : second supply' with
    | ok value' after' =>
      rw [ofFirst, ofSecond] at outcome
      rw [Lowering.bind_ok ofFirst, Lowering.bind_ok ofSecond]
      cases outcome with
      | ok le tied related =>
        exact (goesOn _ le value value' after after' tied ofFirst related).earlier le
    | error => rw [ofFirst, ofSecond] at outcome; cases outcome
  | error error after =>
    cases ofSecond : second supply' with
    | ok => rw [ofFirst, ofSecond] at outcome; cases outcome
    | error error' after' =>
      rw [ofFirst, ofSecond] at outcome
      rw [Lowering.bind_error ofFirst, Lowering.bind_error ofSecond]
      cases outcome with
      | error le tied => exact .error le tied _

theorem Agree.bind {first : Lowering α} {second : Lowering β} {next : α → Lowering γ}
    {next' : β → Lowering δ} (agree : comparison.Agree R world first second)
    (goesOn : ∀ later, world ≤ later → ∀ value value', R later value value' →
      comparison.Agree S later (next value) (next' value')) :
    comparison.Agree S world (first >>= next) (second >>= next') := fun supply supply' tied =>
  (agree supply supply' tied).bind fun later le value value' after after' tied _ related =>
    goesOn later le value value' related after after' tied

theorem Agree.pure {value : α} {value' : β} (related : R world value value') :
    comparison.Agree R world (pure value) (pure value') :=
  fun _ _ tied => .ok le_rfl tied related

theorem Agree.throw (error : LoweringError) :
    comparison.Agree R world (throw error) (throw error) :=
  fun _ _ tied => .error le_rfl tied error

/-- What does not depend on names is the same for both. -/
theorem Agree.lift {result : Except LoweringError α} {R : World → α → α → Prop}
    (related : ∀ value, result = .ok value → R world value value) :
    comparison.Agree R world (liftM result) (liftM result) := by
  cases result with
  | ok value => exact .pure (related value rfl)
  | error error => exact .throw error

/-- A traversal that fails does so for both. -/
theorem Agree.ofTraversal {result : Except TraversalError Unit} :
    comparison.Agree (fun _ _ _ => True) world (Lowering.ofTraversal result)
      (Lowering.ofTraversal result) := by
  cases result with
  | ok => exact .pure trivial
  | error error => exact .throw _

/-- Steps that begin with the same result and go on alike agree. -/
theorem Agree.bindLift {result : Except LoweringError α} {next : α → Lowering γ}
    {next' : α → Lowering δ}
    (goesOn : ∀ value, result = .ok value → comparison.Agree S world (next value) (next' value)) :
    comparison.Agree S world (liftM result >>= next) (liftM result >>= next') := by
  cases result with
  | ok value => exact goesOn value rfl
  | error error => exact .throw error

theorem Agree.imp {T : World → α → β → Prop} {first : Lowering α} {second : Lowering β}
    (agree : comparison.Agree R world first second)
    (weaker : ∀ later value value', R later value value' → T later value value') :
    comparison.Agree T world first second := fun supply supply' tied =>
  (agree supply supply' tied).imp fun later value value' _ _ _ _ => weaker later value value'

/-- Results of steps that agree may be compared by what is known of the second results. -/
theorem Agree.and_yields {first : Lowering α} {second : Lowering β}
    (agree : comparison.Agree R world first second) {P : β → Prop}
    (yields : Lowering.Yields P second) :
    comparison.Agree (fun later value value' => R later value value' ∧ P value') world first
      second := fun supply supply' tied =>
  (agree supply supply' tied).imp fun _ _ _ _ _ _ ofSecond related =>
    ⟨related, yields _ _ _ ofSecond⟩

end

/-! ### Operators -/

/-- The operators of patterns keep the relations, and if expressions are bound to variables, those
of queries do. Related expressions are of one form and of one shape, and are the same if what they
are related to is. -/
structure Closed (binds : Prop) : Prop where
  term {world : World} {value value' : Term} : comparison.terms world value value' →
    comparison.expressions world (.term value) (.term value')
  wildcard (world : World) : comparison.expressions world .wildcard .wildcard
  call (callee : Callee) {world : World} {arguments arguments' : List Expression} :
    List.Forall₂ (comparison.expressions world) arguments arguments' →
    comparison.expressions world (.call callee arguments) (.call callee arguments')
  aggregate (name : String) (distinct : Bool) (separator : Option String) {world : World}
    {argument argument' : Expression} : comparison.expressions world argument argument' →
    comparison.expressions world (.aggregate name argument distinct separator)
      (.aggregate name argument' distinct separator)
  existence (negated : Bool) {world : World} {input input' : Operation} :
    comparison.operations world input input' →
    comparison.expressions world (.existence negated input) (.existence negated input')
  empty (world : World) : comparison.operations world (.bgp []) (.bgp [])
  simplifiedJoin {world : World} {left left' right right' : Operation} :
    comparison.operations world left left' → comparison.operations world right right' →
    comparison.operations world (simplifiedJoin left right) (simplifiedJoin left' right')
  join {world : World} {left left' right right' : Operation} :
    comparison.operations world left left' → comparison.operations world right right' →
    comparison.operations world (.join [left, right]) (.join [left', right'])
  union {world : World} {left left' right right' : Operation} :
    comparison.operations world left left' → comparison.operations world right right' →
    comparison.operations world (.union [left, right]) (.union [left', right'])
  leftJoinOf {world : World} {left left' right right' : Operation} :
    comparison.operations world left left' → comparison.operations world right right' →
    comparison.operations world (leftJoinOf left right) (leftJoinOf left' right')
  minus {world : World} {left left' right right' : Operation} :
    comparison.operations world left left' → comparison.operations world right right' →
    comparison.operations world (.of (.minus left right)) (.of (.minus left' right'))
  filter {world : World} {input input' : Operation} {condition condition' : Expression} :
    comparison.operations world input input' →
    comparison.expressions world condition condition' →
    comparison.operations world (.of (.filter input condition)) (.of (.filter input' condition'))
  service (silent : Bool) {world : World} {name name' : Term} {input input' : Operation} :
    comparison.terms world name name' → comparison.operations world input input' →
    comparison.operations world (.of (.wrap (.service name silent) input))
      (.of (.wrap (.service name' silent) input'))
  extend (binding : binds) {world : World} {name name' : Variable} {input input' : Operation}
    {value value' : Expression} : comparison.vars world name name' →
    comparison.operations world input input' → comparison.expressions world value value' →
    comparison.operations world (.of (.extend input name value)) (.of (.extend input' name' value'))
  project (binding : binds) {world : World} {vars vars' : List Variable}
    {input input' : Operation} : List.Forall₂ (comparison.vars world) vars vars' →
    comparison.operations world input input' →
    comparison.operations world (.of (.wrap (.project vars) input))
      (.of (.wrap (.project vars') input'))
  describe (binding : binds) {world : World} {terms terms' : List Term}
    {input input' : Operation} : List.Forall₂ (comparison.terms world) terms terms' →
    comparison.operations world input input' →
    comparison.operations world (.of (.wrap (.describe terms) input))
      (.of (.wrap (.describe terms') input'))
  wrap (binding : binds) {world : World} {wrapper : Wrapper} {input input' : Operation}
    (nameless : wrapper.ownTerms = []) (plain : (Operator.wrap wrapper input).setsGraph = false) :
    comparison.operations world input input' →
    comparison.operations world (.of (.wrap wrapper input)) (.of (.wrap wrapper input'))
  group (binding : binds) {world : World} {keys keys' : List Variable} {input input' : Operation}
    {found found' : List BoundAggregate} : List.Forall₂ (comparison.vars world) keys keys' →
    comparison.operations world input input' →
    List.Forall₂ (comparison.aggregates world) found found' →
    comparison.operations world (.of (.group input keys found)) (.of (.group input' keys' found'))
  orderBy (binding : binds) {world : World} {input input' : Operation}
    {keys keys' : List Expression} : comparison.operations world input input' →
    List.Forall₂ (comparison.expressions world) keys keys' →
    comparison.operations world (.of (.orderBy input keys)) (.of (.orderBy input' keys'))
  construct (binding : binds) {world : World} {template template' : List Pattern}
    {input input' : Operation} : comparison.templates world template template' →
    comparison.operations world input input' →
    comparison.operations world (.of (.construct input template))
      (.of (.construct input' template'))
  forms {world : World} {first second : Expression} : comparison.expressions world first second →
    comparison.Forms world first second
  shape {world : World} {first second : Expression} : comparison.expressions world first second →
    Node.SameShape (.expression first) (.expression second)
  same {world : World} {first first' second second' : Expression} :
    comparison.expressions world first first' → comparison.expressions world second second' →
    (first = second ↔ first' = second')

namespace Closed

variable {comparison} {binds : Prop} {world : World}

theorem operator (closed : comparison.Closed binds) (name : String)
    {arguments arguments' : List Expression}
    (alike : List.Forall₂ (comparison.expressions world) arguments arguments') :
    comparison.expressions world (.operator name arguments) (.operator name arguments') :=
  closed.call _ alike

theorem orderKey (closed : comparison.Closed binds) (direction : Surface.Direction)
    {key key' : Expression} (alike : comparison.expressions world key key') :
    comparison.expressions world (Context.orderKey direction key)
      (Context.orderKey direction key') := by
  cases direction with
  | ascending => exact alike
  | descending => exact closed.operator _ (.cons alike .nil)

theorem filtered (closed : comparison.Closed binds) {operation operation' : Operation}
    {filters filters' : List Expression} (alike : comparison.operations world operation operation')
    (ofFilters : List.Forall₂ (comparison.expressions world) filters filters') :
    comparison.operations world (filtered operation filters) (filtered operation' filters') := by
  have conjunction : ∀ {rest rest' : List Expression} {all all' : Expression},
      List.Forall₂ (comparison.expressions world) rest rest' →
      comparison.expressions world all all' →
      comparison.expressions world
        (rest.foldl (fun all next => .operator "&&" [all, next]) all)
        (rest'.foldl (fun all next => .operator "&&" [all, next]) all') := by
    intro rest rest' all all' ofRest ofAll
    induction ofRest generalizing all all' with
    | nil => exact ofAll
    | cons next _ ih => exact ih (closed.operator _ (.cons ofAll (.cons next .nil)))
  cases ofFilters with
  | nil => exact alike
  | cons first rest => exact closed.filter alike (conjunction rest first)

theorem conditions (closed : comparison.Closed binds) {conditions conditions' : List Expression}
    {operation operation' : Operation}
    (ofConditions : List.Forall₂ (comparison.expressions world) conditions conditions')
    (alike : comparison.operations world operation operation') :
    comparison.operations world
      (conditions.foldl (fun operation condition => .of (.filter operation condition)) operation)
      (conditions'.foldl (fun operation condition => .of (.filter operation condition))
        operation') := by
  induction ofConditions generalizing operation operation' with
  | nil => exact alike
  | cons condition _ ih => exact ih (closed.filter alike condition)

theorem computed (closed : comparison.Closed binds) (binding : binds)
    {selected selected' : List (Variable × Option Expression)} {operation operation' : Operation}
    (ofItems : List.Forall₂ (comparison.items world) selected selected')
    (alike : comparison.operations world operation operation') :
    comparison.operations world (Context.computed selected operation)
      (Context.computed selected' operation') := by
  unfold Context.computed
  induction ofItems generalizing operation operation' with
  | nil => exact alike
  | @cons item item' _ _ ofItem _ ih =>
    obtain ⟨name, value⟩ := item
    obtain ⟨name', value'⟩ := item'
    obtain ⟨ofName, ofValue⟩ := ofItem
    refine ih ?_
    cases ofValue with
    | none => exact alike
    | some ofValue => exact closed.extend binding ofName alike ofValue

theorem withDuplicates (closed : comparison.Closed binds) (binding : binds)
    (duplicates : Surface.Duplicates) {operation operation' : Operation}
    (alike : comparison.operations world operation operation') :
    comparison.operations world (Context.withDuplicates duplicates operation)
      (Context.withDuplicates duplicates operation') := by
  cases duplicates with
  | keep => exact alike
  | distinct | reduced => exact closed.wrap binding rfl rfl alike

theorem sliced (closed : comparison.Closed binds) (binding : binds) (limit offset : Option Nat)
    {operation operation' : Operation}
    (alike : comparison.operations world operation operation') :
    comparison.operations world (Context.sliced limit offset operation)
      (Context.sliced limit offset operation') := by
  unfold Context.sliced
  split
  · exact alike
  · exact closed.wrap binding rfl rfl alike

end Closed

end Comparison

/-! ### Aggregates -/

namespace Extracting

variable {World : Type} [Preorder World] {comparison : Comparison World} {α β γ δ : Type}
  {R : World → α → β → Prop} {S : World → γ → δ → Prop} {world : World}

/-- Steps that agree, whichever related aggregates were found before, and find related ones. -/
def Compare (comparison : Comparison World) (R : World → α → β → Prop) (world : World)
    (first : Extracting α) (second : Extracting β) : Prop :=
  ∀ found found', List.Forall₂ (comparison.aggregates world) found found' →
    comparison.Agree
      (fun later result result' => R later result.1 result'.1
        ∧ List.Forall₂ (comparison.aggregates later) result.2 result'.2)
      world (first.run found) (second.run found')

theorem Compare.pure {value : α} {value' : β} (related : R world value value') :
    Compare comparison R world (pure value) (pure value') := fun _ _ ofFound =>
  Comparison.Agree.pure ⟨related, ofFound⟩

theorem Compare.bind {first : Extracting α} {second : Extracting β} {next : α → Extracting γ}
    {next' : β → Extracting δ} (agree : Compare comparison R world first second)
    (goesOn : ∀ later, world ≤ later → ∀ value value', R later value value' →
      Compare comparison S later (next value) (next' value')) :
    Compare comparison S world (first >>= next) (second >>= next') := fun found found' ofFound => by
  rw [StateT.run_bind, StateT.run_bind]
  exact (agree found found' ofFound).bind fun later le result result' related =>
    goesOn later le result.1 result'.1 related.1 result.2 result'.2 related.2

/-- Steps that find no aggregates. -/
theorem Compare.lift {first : Lowering α} {second : Lowering β}
    (agree : comparison.Agree R world first second) :
    Compare comparison R world (liftM first : Extracting α) (liftM second : Extracting β) :=
  fun _ _ ofFound => Comparison.Agree.bind agree fun _ le _ _ related =>
    Comparison.Agree.pure ⟨related, Comparison.aggregates_later le ofFound⟩

end Extracting

namespace Context

variable {World : Type} [Preorder World] {comparison : Comparison World} {binds : Prop}
  {context : Context} {quads : Bool}

private theorem find?_related (closed : comparison.Closed binds) {world : World}
    {found found' : List BoundAggregate} {aggregate aggregate' : Expression}
    (ofFound : List.Forall₂ (comparison.aggregates world) found found')
    (alike : comparison.expressions world aggregate aggregate') :
    Option.Rel (comparison.aggregates world) (found.find? (·.expression == aggregate))
      (found'.find? (·.expression == aggregate')) := by
  induction ofFound with
  | nil => exact .none
  | @cons bound bound' _ _ ofBound _ ih =>
    have isSame : (bound.expression == aggregate) = (bound'.expression == aggregate') := by
      rw [Bool.eq_iff_iff, beq_iff_eq, beq_iff_eq, closed.same ofBound.2 alike]
    rw [List.find?_cons, List.find?_cons, isSame]
    split
    · exact .some ofBound
    · exact ih

/-- New variables of two passages are related. -/
def RelatesNew (context : Context) (comparison : Comparison World) : Prop :=
  ∀ world, comparison.Agree comparison.vars world context.newVariable context.newVariable

private theorem compare_bindAggregate (closed : comparison.Closed binds)
    (new : context.RelatesNew comparison) {world : World} {aggregate aggregate' : Expression}
    (alike : comparison.expressions world aggregate aggregate') :
    Extracting.Compare comparison comparison.expressions world (context.bindAggregate aggregate)
      ((context.withQuads quads).bindAggregate aggregate') := by
  intro found found' ofFound
  have isFound := find?_related closed ofFound alike
  simp only [bindAggregate, StateT.run_bind, StateT.run_get, pure_bind]
  cases lookedUp : found.find? (·.expression == aggregate) with
  | some bound =>
    rw [lookedUp] at isFound
    cases lookedUp' : found'.find? (·.expression == aggregate') with
    | some bound' =>
      rw [lookedUp'] at isFound
      cases isFound with
      | some ofBound => exact .pure ⟨closed.term ofBound.1, ofFound⟩
    | none => rw [lookedUp'] at isFound; cases isFound
  | none =>
    rw [lookedUp] at isFound
    cases lookedUp' : found'.find? (·.expression == aggregate') with
    | some bound' => rw [lookedUp'] at isFound; cases isFound
    | none =>
      simp only [newVariable_withQuads, StateT.run_bind, liftM, monadLift, MonadLift.monadLift,
        StateT.run_lift, StateT.run_set, StateT.run_pure, bind_assoc, pure_bind]
      refine (new world).bind fun later le name name' ofName => .pure ⟨closed.term ofName, ?_⟩
      exact List.rel_append (Comparison.aggregates_later le ofFound)
        (.cons ⟨ofName, comparison.expressions_later le alike⟩ .nil)

mutual

private theorem compare_replaceAggregates (closed : comparison.Closed binds)
    (new : context.RelatesNew comparison) :
    ∀ (first : Expression) {second : Expression} {world : World},
    comparison.expressions world first second →
    Extracting.Compare comparison comparison.expressions world (context.replaceAggregates first)
      ((context.withQuads quads).replaceAggregates second)
  | .term value, _, _, alike => by
    cases closed.forms alike with
    | term => exact .pure alike
  | .call callee arguments, _, _, alike => by
    cases closed.forms alike with
    | call _ ofArguments =>
      rw [replaceAggregates, replaceAggregates]
      exact (compare_replaceAllAggregates closed new arguments ofArguments).bind
        fun _ _ _ _ ofArguments => .pure (closed.call callee ofArguments)
  | .aggregate _ _ _ _, _, _, alike => by
    cases closed.forms alike with
    | aggregate =>
      rw [replaceAggregates, replaceAggregates]
      exact compare_bindAggregate closed new alike
  | .existence _ _, _, _, alike => by
    cases closed.forms alike with
    | existence => exact .pure alike
  | .wildcard, _, _, alike => by
    cases closed.forms alike with
    | wildcard => exact .pure alike

private theorem compare_replaceAllAggregates (closed : comparison.Closed binds)
    (new : context.RelatesNew comparison) :
    ∀ (firsts : List Expression) {seconds : List Expression} {world : World},
    List.Forall₂ (comparison.expressions world) firsts seconds →
    Extracting.Compare comparison (fun world => List.Forall₂ (comparison.expressions world)) world
      (context.replaceAllAggregates firsts)
      ((context.withQuads quads).replaceAllAggregates seconds)
  | [], _, _, .nil => .pure .nil
  | first :: rest, _, _, .cons alike others => by
    rw [replaceAllAggregates, replaceAllAggregates]
    exact (compare_replaceAggregates closed new first alike).bind fun _ le _ _ isFirst =>
      (compare_replaceAllAggregates closed new rest
        (Comparison.all_expressions_later le others)).bind fun _ le _ _ areOthers =>
        .pure (.cons (comparison.expressions_later le isFirst) areOthers)

end

/-- Aggregates are taken out of related expressions in step. -/
theorem compare_extractAggregates (closed : comparison.Closed binds)
    (new : context.RelatesNew comparison) {world : World} {first second : Expression}
    (alike : comparison.expressions world first second) :
    Extracting.Compare comparison comparison.expressions world (context.extractAggregates first)
      ((context.withQuads quads).extractAggregates second) := by
  have checks : (Node.expression first).checkFits (fun kind =>
        if kind = .aggregateExpression ∨ kind = .existenceExpression then .leave else .descend)
      = (Node.expression second).checkFits (fun kind =>
        if kind = .aggregateExpression ∨ kind = .existenceExpression then .leave else .descend) := by
    rw [Node.checkFits, Node.checkFits, (closed.shape alike).fits_eq]
  rw [extractAggregates, extractAggregates, checks]
  exact Extracting.Compare.bind (.lift .ofTraversal) fun _ le _ _ _ =>
    compare_replaceAggregates closed new first (comparison.expressions_later le alike)

end Context

end QueryAlgebra
