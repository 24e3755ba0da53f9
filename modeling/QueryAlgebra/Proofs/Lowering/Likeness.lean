import QueryAlgebra.Lowering.Pattern
import QueryAlgebra.Proofs.Lowering.Outcomes
import QueryAlgebra.Proofs.Lowering.SameTerms
import QueryAlgebra.Proofs.Traversal.Fitting

/-! # Relations that the operators of the algebra keep

A likeness relates operations, and expressions. If it is `Closed`, then what is made of related
parts by the operators of patterns and queries is related. A property is a likeness too, which
relates what has it to itself.

Aggregates are taken out of related expressions in step: an aggregate is found again among those
found before exactly if the one related to it is.
-/

namespace QueryAlgebra

/-- A relation between operations, and one between expressions. -/
structure Likeness where
  operations : Operation → Operation → Prop
  expressions : Expression → Expression → Prop

namespace Likeness

variable (likeness : Likeness)

/-- Aggregates that carry related values in one variable. -/
def Aggregates (first second : BoundAggregate) : Prop :=
  first.name = second.name ∧ likeness.expressions first.expression second.expression

/-- The same variable, shown with related values or without one. -/
def Items (first second : Variable × Option Expression) : Prop :=
  first.1 = second.1 ∧ Option.Rel likeness.expressions first.2 second.2

/-- What the elements of a group have come to, with the filters among them. -/
def Groups (first second : Operation × List Expression) : Prop :=
  likeness.operations first.1 second.1 ∧ List.Forall₂ likeness.expressions first.2 second.2

/-- Expressions of one form, whose arguments are related. -/
inductive Forms : Expression → Expression → Prop where
  | term (value : Term) : Forms (.term value) (.term value)
  | call (callee : Callee) {arguments arguments' : List Expression} :
    List.Forall₂ likeness.expressions arguments arguments' →
    Forms (.call callee arguments) (.call callee arguments')
  | aggregate (name : String) (argument argument' : Expression) (distinct : Bool)
    (separator : Option String) :
    Forms (.aggregate name argument distinct separator)
      (.aggregate name argument' distinct separator)
  | existence (negated : Bool) (input input' : Operation) :
    Forms (.existence negated input) (.existence negated input')
  | wildcard : Forms .wildcard .wildcard

/-- The operators of patterns keep the relations, and if expressions are bound to variables, those
of queries do. Related expressions are of one form and of one shape, and are the same if what they
are related to is. -/
structure Closed (binds : Prop) : Prop where
  term (value : Term) : likeness.expressions (.term value) (.term value)
  wildcard : likeness.expressions .wildcard .wildcard
  call (callee : Callee) {arguments arguments' : List Expression} :
    List.Forall₂ likeness.expressions arguments arguments' →
    likeness.expressions (.call callee arguments) (.call callee arguments')
  aggregate (name : String) (distinct : Bool) (separator : Option String)
    {argument argument' : Expression} : likeness.expressions argument argument' →
    likeness.expressions (.aggregate name argument distinct separator)
      (.aggregate name argument' distinct separator)
  existence (negated : Bool) {input input' : Operation} : likeness.operations input input' →
    likeness.expressions (.existence negated input) (.existence negated input')
  empty : likeness.operations (.bgp []) (.bgp [])
  simplifiedJoin {left left' right right' : Operation} : likeness.operations left left' →
    likeness.operations right right' →
    likeness.operations (simplifiedJoin left right) (simplifiedJoin left' right')
  join {left left' right right' : Operation} : likeness.operations left left' →
    likeness.operations right right' →
    likeness.operations (.join [left, right]) (.join [left', right'])
  union {left left' right right' : Operation} : likeness.operations left left' →
    likeness.operations right right' →
    likeness.operations (.union [left, right]) (.union [left', right'])
  leftJoinOf {left left' right right' : Operation} : likeness.operations left left' →
    likeness.operations right right' →
    likeness.operations (leftJoinOf left right) (leftJoinOf left' right')
  minus {left left' right right' : Operation} : likeness.operations left left' →
    likeness.operations right right' →
    likeness.operations (.of (.minus left right)) (.of (.minus left' right'))
  filter {input input' : Operation} {condition condition' : Expression} :
    likeness.operations input input' → likeness.expressions condition condition' →
    likeness.operations (.of (.filter input condition)) (.of (.filter input' condition'))
  service (name : Term) (silent : Bool) {input input' : Operation} :
    likeness.operations input input' →
    likeness.operations (.of (.wrap (.service name silent) input))
      (.of (.wrap (.service name silent) input'))
  extend (binding : binds) (name : Variable) {input input' : Operation}
    {value value' : Expression} :
    likeness.operations input input' → likeness.expressions value value' →
    likeness.operations (.of (.extend input name value)) (.of (.extend input' name value'))
  wrap (binding : binds) {wrapper : Wrapper} {input input' : Operation}
    (plain : (Operator.wrap wrapper input).setsGraph = false) : likeness.operations input input' →
    likeness.operations (.of (.wrap wrapper input)) (.of (.wrap wrapper input'))
  group (binding : binds) (keys : List Variable) {input input' : Operation}
    {aggregates aggregates' : List BoundAggregate} : likeness.operations input input' →
    List.Forall₂ likeness.Aggregates aggregates aggregates' →
    likeness.operations (.of (.group input keys aggregates)) (.of (.group input' keys aggregates'))
  orderBy (binding : binds) {input input' : Operation} {keys keys' : List Expression} :
    likeness.operations input input' → List.Forall₂ likeness.expressions keys keys' →
    likeness.operations (.of (.orderBy input keys)) (.of (.orderBy input' keys'))
  construct (binding : binds) {template : List Pattern} {input input' : Operation}
    (inDefault : ∀ pattern ∈ template, pattern.graph = .defaultGraph) :
    likeness.operations input input' →
    likeness.operations (.of (.construct input template)) (.of (.construct input' template))
  forms {first second : Expression} : likeness.expressions first second →
    likeness.Forms first second
  shape {first second : Expression} : likeness.expressions first second →
    Node.SameShape (.expression first) (.expression second)
  same {first first' second second' : Expression} : likeness.expressions first first' →
    likeness.expressions second second' → (first = second ↔ first' = second')

namespace Closed

variable {likeness : Likeness} {binds : Prop}

theorem operator (closed : likeness.Closed binds) (name : String)
    {arguments arguments' : List Expression}
    (alike : List.Forall₂ likeness.expressions arguments arguments') :
    likeness.expressions (.operator name arguments) (.operator name arguments') :=
  closed.call _ alike

theorem orderKey (closed : likeness.Closed binds) (direction : Surface.Direction)
    {key key' : Expression} (alike : likeness.expressions key key') :
    likeness.expressions (Context.orderKey direction key) (Context.orderKey direction key') := by
  cases direction with
  | ascending => exact alike
  | descending => exact closed.operator _ (.cons alike .nil)

theorem filtered (closed : likeness.Closed binds) {operation operation' : Operation}
    {filters filters' : List Expression} (alike : likeness.operations operation operation')
    (ofFilters : List.Forall₂ likeness.expressions filters filters') :
    likeness.operations (filtered operation filters) (filtered operation' filters') := by
  have conjunction : ∀ {rest rest' : List Expression} {all all' : Expression},
      List.Forall₂ likeness.expressions rest rest' → likeness.expressions all all' →
      likeness.expressions (rest.foldl (fun all next => .operator "&&" [all, next]) all)
        (rest'.foldl (fun all next => .operator "&&" [all, next]) all') := by
    intro rest rest' all all' ofRest ofAll
    induction ofRest generalizing all all' with
    | nil => exact ofAll
    | cons next _ ih => exact ih (closed.operator _ (.cons ofAll (.cons next .nil)))
  cases ofFilters with
  | nil => exact alike
  | cons first rest => exact closed.filter alike (conjunction rest first)

theorem conditions (closed : likeness.Closed binds) {conditions conditions' : List Expression}
    {operation operation' : Operation}
    (ofConditions : List.Forall₂ likeness.expressions conditions conditions')
    (alike : likeness.operations operation operation') :
    likeness.operations
      (conditions.foldl (fun operation condition => .of (.filter operation condition)) operation)
      (conditions'.foldl (fun operation condition => .of (.filter operation condition))
        operation') := by
  induction ofConditions generalizing operation operation' with
  | nil => exact alike
  | cons condition _ ih => exact ih (closed.filter alike condition)

theorem computed (closed : likeness.Closed binds) (binding : binds)
    {selected selected' : List (Variable × Option Expression)} {operation operation' : Operation}
    (ofItems : List.Forall₂ likeness.Items selected selected')
    (alike : likeness.operations operation operation') :
    likeness.operations (Context.computed selected operation)
      (Context.computed selected' operation') := by
  unfold Context.computed
  induction ofItems generalizing operation operation' with
  | nil => exact alike
  | @cons item item' _ _ ofItem _ ih =>
    obtain ⟨name, value⟩ := item
    obtain ⟨name', value'⟩ := item'
    obtain ⟨rfl, ofValue⟩ := ofItem
    refine ih ?_
    cases ofValue with
    | none => exact alike
    | some ofValue => exact closed.extend binding _ alike ofValue

theorem withDuplicates (closed : likeness.Closed binds) (binding : binds)
    (duplicates : Surface.Duplicates) {operation operation' : Operation}
    (alike : likeness.operations operation operation') :
    likeness.operations (Context.withDuplicates duplicates operation)
      (Context.withDuplicates duplicates operation') := by
  cases duplicates with
  | keep => exact alike
  | distinct | reduced => exact closed.wrap binding rfl alike

theorem sliced (closed : likeness.Closed binds) (binding : binds) (limit offset : Option Nat)
    {operation operation' : Operation} (alike : likeness.operations operation operation') :
    likeness.operations (Context.sliced limit offset operation)
      (Context.sliced limit offset operation') := by
  unfold Context.sliced
  split
  · exact alike
  · exact closed.wrap binding rfl alike

end Closed

end Likeness

namespace Extracting

variable {α β γ δ : Type} {likeness : Likeness} {R : α → β → Prop} {S : γ → δ → Prop}

/-- Steps that agree, whichever related aggregates were found before, and find related ones. -/
def Agree (likeness : Likeness) (R : α → β → Prop) (first : Extracting α) (second : Extracting β) :
    Prop :=
  ∀ found found', List.Forall₂ likeness.Aggregates found found' →
    Lowering.Agree
      (fun result result' => R result.1 result'.1
        ∧ List.Forall₂ likeness.Aggregates result.2 result'.2)
      (first.run found) (second.run found')

theorem Agree.pure {value : α} {value' : β} (related : R value value') :
    Agree likeness R (pure value) (pure value') := fun _ _ ofFound =>
  Lowering.Agree.pure ⟨related, ofFound⟩

theorem Agree.bind {first : Extracting α} {second : Extracting β} {next : α → Extracting γ}
    {next' : β → Extracting δ} (agree : Agree likeness R first second)
    (goesOn : ∀ value value', R value value' → Agree likeness S (next value) (next' value')) :
    Agree likeness S (first >>= next) (second >>= next') := fun found found' ofFound => by
  rw [StateT.run_bind, StateT.run_bind]
  exact (agree found found' ofFound).bind fun result result' related =>
    goesOn result.1 result'.1 related.1 result.2 result'.2 related.2

/-- Steps that find no aggregates. -/
theorem Agree.lift {first : Lowering α} {second : Lowering β}
    (agree : Lowering.Agree R first second) :
    Agree likeness R (liftM first : Extracting α) (liftM second : Extracting β) :=
  fun _ _ ofFound => Lowering.Agree.bind agree fun _ _ related =>
    Lowering.Agree.pure ⟨related, ofFound⟩

end Extracting

namespace Context

variable {likeness : Likeness} {binds : Prop} (context : Context) (quads : Bool)

private theorem find?_alike (closed : likeness.Closed binds)
    {found found' : List BoundAggregate} {aggregate aggregate' : Expression}
    (ofFound : List.Forall₂ likeness.Aggregates found found')
    (alike : likeness.expressions aggregate aggregate') :
    Option.Rel likeness.Aggregates (found.find? (·.expression == aggregate))
      (found'.find? (·.expression == aggregate')) := by
  induction ofFound with
  | nil => exact .none
  | @cons bound bound' _ _ ofBound _ ih =>
    have isSame : (bound.expression == aggregate) = (bound'.expression == aggregate') := by
      rw [Bool.eq_iff_iff, beq_iff_eq, beq_iff_eq, closed.same ofBound.2 alike]
    rw [List.find?_cons, List.find?_cons, isSame]
    split
    · exact .some ofBound
    · exact ih

private theorem agree_bindAggregate (closed : likeness.Closed binds)
    {aggregate aggregate' : Expression} (alike : likeness.expressions aggregate aggregate') :
    Extracting.Agree likeness likeness.expressions (context.bindAggregate aggregate)
      ((context.withQuads quads).bindAggregate aggregate') := by
  intro found found' ofFound
  have isFound := find?_alike closed ofFound alike
  simp only [bindAggregate, StateT.run_bind, StateT.run_get, pure_bind]
  cases lookedUp : found.find? (·.expression == aggregate) with
  | some bound =>
    rw [lookedUp] at isFound
    cases lookedUp' : found'.find? (·.expression == aggregate') with
    | some bound' =>
      rw [lookedUp'] at isFound
      cases isFound with
      | some ofBound =>
        refine .pure ⟨?_, ofFound⟩
        rw [ofBound.1]
        exact closed.term _
    | none => rw [lookedUp'] at isFound; cases isFound
  | none =>
    rw [lookedUp] at isFound
    cases lookedUp' : found'.find? (·.expression == aggregate') with
    | some bound' => rw [lookedUp'] at isFound; cases isFound
    | none =>
      simp only [newVariable_withQuads, StateT.run_bind, liftM, monadLift, MonadLift.monadLift,
        StateT.run_lift, StateT.run_set, StateT.run_pure, bind_assoc, pure_bind]
      refine Lowering.Agree.same_bind fun name => .pure ⟨closed.term _, ?_⟩
      exact List.rel_append ofFound (.cons ⟨rfl, alike⟩ .nil)

mutual

private theorem agree_replaceAggregates (closed : likeness.Closed binds) :
    ∀ (first : Expression) {second : Expression}, likeness.expressions first second →
    Extracting.Agree likeness likeness.expressions (context.replaceAggregates first)
      ((context.withQuads quads).replaceAggregates second)
  | .term value, _, alike => by
    cases closed.forms alike with
    | term => exact .pure alike
  | .call callee arguments, _, alike => by
    cases closed.forms alike with
    | call _ ofArguments =>
      rw [replaceAggregates, replaceAggregates]
      exact (agree_replaceAllAggregates closed arguments ofArguments).bind
        fun arguments arguments' ofArguments => .pure (closed.call callee ofArguments)
  | .aggregate _ _ _ _, _, alike => by
    cases closed.forms alike with
    | aggregate =>
      rw [replaceAggregates, replaceAggregates]
      exact agree_bindAggregate context quads closed alike
  | .existence _ _, _, alike => by
    cases closed.forms alike with
    | existence => exact .pure alike
  | .wildcard, _, alike => by
    cases closed.forms alike with
    | wildcard => exact .pure alike

private theorem agree_replaceAllAggregates (closed : likeness.Closed binds) :
    ∀ (firsts : List Expression) {seconds : List Expression},
    List.Forall₂ likeness.expressions firsts seconds →
    Extracting.Agree likeness (List.Forall₂ likeness.expressions)
      (context.replaceAllAggregates firsts)
      ((context.withQuads quads).replaceAllAggregates seconds)
  | [], _, .nil => .pure .nil
  | first :: rest, _, .cons alike others => by
    rw [replaceAllAggregates, replaceAllAggregates]
    exact (agree_replaceAggregates closed first alike).bind fun _ _ isFirst =>
      (agree_replaceAllAggregates closed rest others).bind fun _ _ areOthers =>
        .pure (.cons isFirst areOthers)

end

/-- Aggregates are taken out of related expressions in step. -/
theorem agree_extractAggregates (closed : likeness.Closed binds) {first second : Expression}
    (alike : likeness.expressions first second) :
    Extracting.Agree likeness likeness.expressions (context.extractAggregates first)
      ((context.withQuads quads).extractAggregates second) := by
  have checks : (Node.expression first).checkFits (fun kind =>
        if kind = .aggregateExpression ∨ kind = .existenceExpression then .leave else .descend)
      = (Node.expression second).checkFits (fun kind =>
        if kind = .aggregateExpression ∨ kind = .existenceExpression then .leave else .descend) := by
    rw [Node.checkFits, Node.checkFits, (closed.shape alike).fits_eq]
  rw [extractAggregates, extractAggregates, checks]
  refine Extracting.Agree.bind (R := fun _ _ => True)
    (.lift (Lowering.Agree.refl (fun _ => trivial) _)) fun _ _ _ => ?_
  exact agree_replaceAggregates context quads closed first alike

end Context

end QueryAlgebra
