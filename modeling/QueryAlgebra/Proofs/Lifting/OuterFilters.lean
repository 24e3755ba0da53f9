import QueryAlgebra.Proofs.Lifting.Clauseless
import QueryAlgebra.Proofs.Lifting.Rereading
import QueryAlgebra.Proofs.Lifting.RestoredAggregates

/-! # Filters that belong to groups of solutions

A filter is taken for a condition of the group around it if it mentions the value of an aggregate.
Whether it does is seen from the variables that stand neither in aggregates nor in patterns
(`Expression.mentions_written`), and only filters in the group of an operation are looked at
(`Operation.outerVariables`). Elements without such filters are left as they are
(`Operation.stands`).
-/

namespace QueryAlgebra

open Surface.Pattern (consMerged groupElements groupOf mergeTriples)

/-! ### Mentioned values -/

namespace Surface.Expression

variable {values : NameMap Expression}

private theorem mentions_ofSpecial {name : String} {arguments : List Expression}
    {written : Expression} (form : ofSpecial name arguments = .ok written) :
    written.mentions values = mentionsAny values arguments := by
  unfold ofSpecial at form
  split at form
  · rcases arguments with _ | ⟨_, _ | ⟨_, _ | ⟨_, _ | _⟩⟩⟩ <;> cases form
    simp [mentions, mentionsAny, Bool.or_assoc]
  · split at form
    · cases form
      rw [mentions]
    · split at form
      · cases arguments <;> cases form
        rw [mentions, mentionsAny]
      · split at form
        · cases form
        · cases function : Builtin.ofAnyCase? name with
          | none => rw [function] at form; cases form
          | some function' =>
            rw [function] at form
            cases form
            rw [mentions]

/-- An operator mentions what its arguments mention. -/
theorem mentions_ofOperator {name : String} {arguments : List Expression} {written : Expression}
    (form : ofOperator name arguments = .ok written) :
    written.mentions values = mentionsAny values arguments := by
  unfold ofOperator at form
  cases binary : BinaryOp.ofName? name with
  | some op =>
    rw [binary] at form
    rcases arguments with _ | ⟨_, _ | ⟨_, _ | _⟩⟩ <;> cases form
    simp [mentions, mentionsAny]
  | none =>
    rw [binary] at form
    cases unary : UnaryOp.ofName? name with
    | some op =>
      rw [unary] at form
      rcases arguments with _ | ⟨_, _ | _⟩ <;> cases form
      simp [mentions, mentionsAny]
    | none =>
      rw [unary] at form
      exact mentions_ofSpecial form

end Surface.Expression

namespace Expression

variable {values : NameMap Surface.Expression}

mutual

/-- An expression is written so that it mentions the values of the variables that stand neither in
an aggregate nor in a pattern. -/
theorem mentions_written : ∀ {expression : Expression} {written : Surface.Expression},
    expression.written.Writes written →
    written.mentions values
      = expression.ownVariables.any fun name => (values.find? name.name).isSome
  | .term value, written, writes => by
    rw [Expression.written, Collecting.writes_lift] at writes
    cases value with
    | var name =>
      cases writes
      simp [Surface.Expression.mentions, ownVariables]
    | iri | literal => cases writes; rfl
    | blank | defaultGraph | quad => cases writes
  | .call callee arguments, written, writes => by
    rw [Expression.written, Collecting.writes_bind] at writes
    obtain ⟨texts, ofArguments, writes⟩ := writes
    rw [ownVariables, ← mentionsAny_written ofArguments]
    cases callee with
    | function name =>
      cases Collecting.writes_pure.1 writes
      rw [Surface.Expression.mentions]
    | operator name =>
      exact Surface.Expression.mentions_ofOperator (Collecting.writes_lift.1 writes)
  | .aggregate name argument distinct separator, written, writes => by
    rw [Expression.written, Collecting.writes_bind] at writes
    obtain ⟨function, _, writes⟩ := writes
    split at writes
    · cases Collecting.writes_pure.1 writes
      rfl
    · obtain ⟨text, _, writes⟩ := Collecting.writes_bind.1 writes
      cases Collecting.writes_pure.1 writes
      rfl
  | .existence negated input, written, writes => by
    rw [Expression.written, Collecting.writes_bind] at writes
    obtain ⟨elements, _, writes⟩ := writes
    cases Collecting.writes_pure.1 writes
    rfl
  | .wildcard, _, writes => by
    obtain ⟨_, failure⟩ := writes
    cases failure

theorem mentionsAny_written : ∀ {expressions : List Expression}
    {written : List Surface.Expression}, (Expression.allWritten expressions).Writes written →
    Surface.Expression.mentionsAny values written
      = (allOwnVariables expressions).any fun name => (values.find? name.name).isSome
  | [], _, writes => by
    cases Collecting.writes_pure.1 writes
    rfl
  | expression :: rest, written, writes => by
    simp only [Expression.allWritten, Collecting.writes_bind] at writes
    obtain ⟨first, ofFirst, others, ofOthers, writes⟩ := writes
    cases Collecting.writes_pure.1 writes
    rw [Surface.Expression.mentionsAny, mentions_written ofFirst, mentionsAny_written ofOthers,
      allOwnVariables, List.any_append]

end

end Expression

/-! ### Filters of elements -/

namespace Surface.Pattern

variable {values : NameMap Expression} {elements : List Pattern}

theorem allGroupConditions_append (first second : List Pattern) :
    allGroupConditions values (first ++ second)
      = allGroupConditions values first ++ allGroupConditions values second := by
  induction first with
  | nil => rfl
  | cons pattern rest ih =>
    rw [List.cons_append, allGroupConditions, allGroupConditions, ih, List.append_assoc]

theorem allWithoutGroupConditions_append (first second : List Pattern) :
    allWithoutGroupConditions values (first ++ second)
      = allWithoutGroupConditions values first ++ allWithoutGroupConditions values second := by
  induction first with
  | nil => rfl
  | cons pattern rest ih =>
    rw [List.cons_append, allWithoutGroupConditions, allWithoutGroupConditions, ih,
      List.append_assoc]

mutual

/-- A pattern without conditions of a group is left as it is. -/
theorem withoutGroupConditions_of_none : ∀ {pattern : Pattern},
    pattern.groupConditions values = [] → pattern.withoutGroupConditions values = [pattern]
  | .filter condition span, nothing => by
    rw [groupConditions] at nothing
    rw [withoutGroupConditions]
    split at nothing
    · cases nothing
    · rename_i free
      rw [if_neg free]
  | .group elements span, nothing => by
    rw [groupConditions] at nothing
    rw [withoutGroupConditions, allWithoutGroupConditions_of_none nothing]
  | .bgp .., _ | .optional .., _ | .minus .., _ | .union .., _ | .bind .., _ | .values .., _
  | .graph .., _ | .service .., _ | .subquery .., _ => by rw [withoutGroupConditions] <;> simp

/-- Elements without conditions of a group are left as they are. -/
theorem allWithoutGroupConditions_of_none : ∀ {elements : List Pattern},
    allGroupConditions values elements = [] → allWithoutGroupConditions values elements = elements
  | [], _ => rfl
  | pattern :: rest, nothing => by
    obtain ⟨first, others⟩ := List.append_eq_nil_iff.1 nothing
    rw [allWithoutGroupConditions, withoutGroupConditions_of_none first,
      allWithoutGroupConditions_of_none others]
    rfl

end

theorem allGroupConditions_groupElements (elements : List Pattern) :
    allGroupConditions values (groupElements elements) = allGroupConditions values elements := by
  unfold groupElements
  split
  · rw [allGroupConditions, groupConditions, allGroupConditions, List.append_nil]
  · rfl

private theorem allGroupConditions_consMerged (pattern : Pattern) (rest : List Pattern) :
    allGroupConditions values (consMerged pattern rest)
      = pattern.groupConditions values ++ allGroupConditions values rest := by
  unfold consMerged
  split <;> rfl

theorem allGroupConditions_mergeTriples (elements : List Pattern) :
    allGroupConditions values (mergeTriples elements) = allGroupConditions values elements := by
  induction elements with
  | nil => rfl
  | cons pattern rest ih => rw [mergeTriples, allGroupConditions_consMerged, ih, allGroupConditions]

/-! ### Adjacent triples -/

/-- Whether a pattern is made of triples. -/
def isBgp : Pattern → Bool
  | .bgp .. => true
  | _ => false

/-- No two patterns next to one another are made of triples. -/
def Apart (elements : List Pattern) : Prop :=
  elements.IsChain fun first second => first.isBgp = false ∨ second.isBgp = false

theorem Apart.snoc (apart : Apart elements) {last : Pattern} (other : last.isBgp = false) :
    Apart (elements ++ [last]) := by
  refine List.isChain_append.2 ⟨apart, List.isChain_singleton _, ?_⟩
  intro first _ second isLast
  cases isLast
  exact .inr other

/-- Triples that are apart are not merged. -/
theorem Apart.mergeTriples_eq (apart : Apart elements) : mergeTriples elements = elements := by
  induction elements with
  | nil => rfl
  | cons pattern rest ih =>
    rw [mergeTriples, ih apart.tail]
    unfold consMerged
    split
    · rcases (List.isChain_cons_cons.1 apart).1 with isBgp | isBgp <;> cases isBgp
    · rfl

private theorem apart_consMerged (pattern : Pattern) {rest : List Pattern} (apart : Apart rest) :
    Apart (consMerged pattern rest) := by
  unfold consMerged
  split
  · -- The merged triples stand where those of the rest stood.
    cases apart with
    | singleton => exact .singleton _
    | cons_cons first others => exact .cons_cons first others
  · rename_i notBoth
    cases rest with
    | nil => exact .singleton _
    | cons next others =>
      refine .cons_cons ?_ apart
      cases pattern with
      | bgp triples span =>
        cases next with
        | bgp more moreSpan => exact absurd rfl (notBoth triples span more moreSpan others rfl)
        | _ => exact .inr rfl
      | _ => exact .inl rfl

theorem apart_mergeTriples (elements : List Pattern) : Apart (mergeTriples elements) := by
  induction elements with
  | nil => exact .nil
  | cons pattern rest ih => exact apart_consMerged pattern ih

private theorem isFilter_consMerged {pattern : Pattern} {rest : List Pattern}
    (first : pattern.isFilter = false) (others : ∀ element ∈ rest, element.isFilter = false) :
    ∀ element ∈ consMerged pattern rest, element.isFilter = false := by
  unfold consMerged
  split
  · exact List.forall_mem_cons.2 ⟨rfl, fun element member =>
      others element (List.mem_cons_of_mem _ member)⟩
  · exact List.forall_mem_cons.2 ⟨first, others⟩

/-- Merging triples makes no filters. -/
theorem isFilter_mergeTriples (unfiltered : ∀ element ∈ elements, element.isFilter = false) :
    ∀ element ∈ mergeTriples elements, element.isFilter = false := by
  induction elements with
  | nil => exact List.forall_mem_nil _
  | cons pattern rest ih =>
    obtain ⟨first, others⟩ := List.forall_mem_cons.1 unfiltered
    exact isFilter_consMerged first (ih others)

end Surface.Pattern

/-! ### Elements that operations are written as -/

mutual

/-- The variables that the filters of an operation mention outside of aggregates and patterns, if
they stand in its group or in groups within that. -/
def Operation.outerVariables : Operation → List Variable
  | ⟨operator, _⟩ => operator.outerVariables

/-- The variables that the filters of an operator mention in its group. -/
def Operator.outerVariables : Operator → List Variable
  | .filter input condition => input.outerVariables ++ condition.ownVariables
  | .extend input _ _ => input.outerVariables
  | .group input _ _ => input.outerVariables
  | .orderBy input _ => input.outerVariables
  | .combine .join inputs => Operation.allOuterVariables inputs
  | .combine .union [input] => input.outerVariables
  | .leftJoin left _ _ => left.outerVariables
  | .minus left _ => left.outerVariables
  | _ => []

/-- The variables that the filters of operations mention in their groups. -/
def Operation.allOuterVariables : List Operation → List Variable
  | [] => []
  | operation :: rest => operation.outerVariables ++ Operation.allOuterVariables rest

end

namespace Surface.Pattern

/-- No filter stands among elements, and filters in their groups mention no values if none of the
variables has a value. -/
structure Settled (values : NameMap Expression) (vars : List Variable) (elements : List Pattern) :
    Prop where
  unfiltered : ∀ element ∈ elements, element.isFilter = false
  conditions : (∀ name ∈ vars, values.find? name.name = none) →
    allGroupConditions values elements = []

namespace Settled

variable {values : NameMap Expression} {vars more : List Variable} {elements others : List Pattern}

theorem nil : Settled values vars [] := ⟨List.forall_mem_nil _, fun _ => rfl⟩

theorem lone {element : Pattern} (unfiltered : element.isFilter = false)
    (plain : element.groupConditions values = []) : Settled values vars [element] where
  unfiltered := List.forall_mem_singleton.2 unfiltered
  conditions _ := by rw [allGroupConditions, plain]; rfl

theorem group (conditions : (∀ name ∈ vars, values.find? name.name = none) →
    allGroupConditions values elements = []) : Settled values vars [.group elements .none] where
  unfiltered := List.forall_mem_singleton.2 rfl
  conditions free := by
    rw [allGroupConditions, groupConditions, conditions free]
    rfl

theorem append (first : Settled values vars elements) (second : Settled values more others) :
    Settled values (vars ++ more) (elements ++ others) where
  unfiltered := List.forall_mem_append.2 ⟨first.unfiltered, second.unfiltered⟩
  conditions free := by
    obtain ⟨ofFirst, ofSecond⟩ := List.forall_mem_append.1 free
    rw [allGroupConditions_append, first.conditions ofFirst, second.conditions ofSecond]
    rfl

/-- An element that is joined to those before in another way than by a join. -/
theorem snoc (settled : Settled values vars elements) {last : Pattern}
    (unfiltered : last.isFilter = false) (apart : last.isMember = false) :
    Settled values vars (elements ++ [last]) := by
  have ofLast : Settled values [] [last] := by
    cases last with
    | filter => cases unfiltered
    | optional | minus | bind => exact lone rfl rfl
    | _ => cases apart
  have both := settled.append ofLast
  rwa [List.append_nil] at both

theorem merged (settled : Settled values vars elements) :
    Settled values vars (mergeTriples elements) where
  unfiltered := isFilter_mergeTriples settled.unfiltered
  conditions free := by rw [allGroupConditions_mergeTriples, settled.conditions free]

end Settled

/-- The elements of one operation. -/
structure Stand (values : NameMap Expression) (vars : List Variable) (elements : List Pattern) :
    Prop extends Settled values vars elements where
  apart : Apart elements

namespace Stand

variable {values : NameMap Expression} {vars : List Variable} {elements : List Pattern}

theorem nil : Stand values vars [] := ⟨.nil, .nil⟩

theorem lone {element : Pattern} (unfiltered : element.isFilter = false)
    (plain : element.groupConditions values = []) : Stand values vars [element] :=
  ⟨.lone unfiltered plain, .singleton _⟩

theorem group (conditions : (∀ name ∈ vars, values.find? name.name = none) →
    allGroupConditions values elements = []) : Stand values vars [.group elements .none] :=
  ⟨.group conditions, .singleton _⟩

theorem snoc (stand : Stand values vars elements) {last : Pattern}
    (unfiltered : last.isFilter = false) (trailing : last.isMember = false) :
    Stand values vars (elements ++ [last]) := by
  refine ⟨stand.toSettled.snoc unfiltered trailing, stand.apart.snoc ?_⟩
  cases last <;> first | rfl | cases trailing

end Stand

end Surface.Pattern

/-- Two or more branches stand as one element. -/
theorem Surface.Pattern.stand_union {values : NameMap Expression} {vars : List Variable}
    (left right : Pattern) (rest : List Pattern) :
    Stand values vars [rest.foldl (fun left right => .union left right .none)
      (.union left right .none)] := by
  induction rest generalizing left right with
  | nil => exact .lone rfl rfl
  | cons next rest ih => exact ih _ _

open Surface.Pattern (Settled Stand)

theorem Collecting.writes_asElements {lifted : Collecting Lifted}
    {elements : List Surface.Pattern} :
    lifted.asElements.Writes elements
      ↔ ∃ result, lifted.Writes result ∧ result.asElements = .ok elements := by
  simp only [Collecting.asElements, writes_bind, writes_lift]

/-- A query stands in a group as one element. -/
theorem Lifted.stand_query {values : NameMap Surface.Expression} {vars : List Variable}
    {query : Surface.Query} {elements : List Surface.Pattern}
    (isElements : (Lifted.query query).asElements = .ok elements) : Stand values vars elements := by
  cases query with
  | select => cases isElements; exact .lone rfl rfl
  | construct | ask | describe => cases isElements

section

variable (values : NameMap Surface.Expression)

mutual

/-- The elements that an operation is written as have no filter among them, no two triples next to
one another, and no conditions of a group if no filter mentions a value. -/
theorem Operation.stands : ∀ (operation : Operation) (inForm : Bool)
    {elements : List Surface.Pattern}, (operation.written inForm).asElements.Writes elements →
    Stand values operation.outerVariables elements
  | ⟨operator, _⟩, inForm, _, writes => by
    obtain ⟨lifted, ofOperator, isElements⟩ := Collecting.writes_asElements.1 writes
    exact Operator.stands operator inForm ofOperator isElements

private theorem Operator.stands : ∀ (operator : Operator) (inForm : Bool) {lifted : Lifted}
    {elements : List Surface.Pattern}, (operator.written inForm).Writes lifted →
    lifted.asElements = .ok elements → Stand values operator.outerVariables elements
  | .bgp [], _, _, _, writes, isElements => by
    rw [Operator.written] at writes
    cases Collecting.writes_pure.1 writes
    cases isElements
    exact .nil
  | .bgp (first :: rest), _, _, _, writes, isElements => by
    rw [Operator.written, Collecting.writes_bind] at writes
    · obtain ⟨triples, _, writes⟩ := writes
      cases Collecting.writes_pure.1 writes
      cases isElements
      exact .lone rfl rfl
    · exact nofun
  | .values vars rows, _, _, _, writes, isElements => by
    rw [Operator.written, Collecting.writes_bind] at writes
    obtain ⟨rows, _, writes⟩ := writes
    cases Collecting.writes_pure.1 writes
    cases isElements
    exact .lone rfl rfl
  | .nop, _, _, _, writes, isElements => by
    rw [Operator.written] at writes
    cases Collecting.writes_pure.1 writes
    cases isElements
    exact .nil
  | .path subject predicate object graph, _, _, _, writes, isElements => by
    rw [Operator.written] at writes
    split at writes
    · simp only [Collecting.writes_bind] at writes
      obtain ⟨_, _, _, _, _, _, writes⟩ := writes
      cases Collecting.writes_pure.1 writes
      cases isElements
      exact .lone rfl rfl
    · obtain ⟨_, failure⟩ := writes
      cases failure
  | .manage _, _, _, _, ⟨_, failure⟩, _ => by cases failure
  | .wrap wrapper input, _, _, _, writes, isElements => by
    cases wrapper with
    | graph name =>
      simp only [Operator.written, Collecting.writes_bind] at writes
      obtain ⟨_, _, _, _, writes⟩ := writes
      cases Collecting.writes_pure.1 writes
      cases isElements
      exact .lone rfl rfl
    | service name silent =>
      simp only [Operator.written, Collecting.writes_bind] at writes
      obtain ⟨_, _, _, _, writes⟩ := writes
      cases Collecting.writes_pure.1 writes
      cases isElements
      exact .lone rfl rfl
    | project | ask | slice | dataset =>
      rw [Operator.written, Collecting.writes_bind] at writes
      obtain ⟨_, _, writes⟩ := writes
      cases Collecting.writes_pure.1 writes
      exact Lifted.stand_query isElements
    | distinct | reduced | describe =>
      simp only [Operator.written, Collecting.writes_bind] at writes
      obtain ⟨_, _, _, _, writes⟩ := writes
      cases Collecting.writes_pure.1 writes
      exact Lifted.stand_query isElements
  | .filter input condition, _, _, _, writes, isElements => by
    simp only [Operator.written, Collecting.writes_bind] at writes
    obtain ⟨elements, ofInput, written, ofCondition, writes⟩ := writes
    cases Collecting.writes_pure.1 writes
    cases isElements
    have inside := Operation.stands input _ ofInput
    refine .group fun free => ?_
    obtain ⟨freeInside, freeCondition⟩ := List.forall_mem_append.1 free
    have unmentioned : written.mentions values = false := by
      rw [Expression.mentions_written ofCondition, List.any_eq_false]
      intro name member
      simp [freeCondition name member]
    rw [Surface.Pattern.allGroupConditions_append, inside.conditions freeInside,
      Surface.Pattern.allGroupConditions, Surface.Pattern.groupConditions, unmentioned]
    rfl
  | .extend input name value, inForm, _, _, writes, isElements => by
    cases inForm with
    | true =>
      simp only [Operator.written, if_true, Collecting.writes_bind] at writes
      obtain ⟨_, _, writes⟩ := writes
      exact Operation.stands input true (Collecting.writes_asElements.2 ⟨_, writes, isElements⟩)
    | false =>
      simp only [Operator.written, Bool.false_eq_true, if_false, Collecting.writes_bind] at writes
      obtain ⟨elements, ofInput, _, _, writes⟩ := writes
      cases Collecting.writes_pure.1 writes
      cases isElements
      exact .snoc (Operation.stands input _ ofInput) rfl rfl
  | .group input keys aggregates, _, _, _, writes, isElements => by
    simp only [Operator.written, Collecting.writes_bind] at writes
    obtain ⟨_, _, writes⟩ := writes
    exact Operation.stands input false (Collecting.writes_asElements.2 ⟨_, writes, isElements⟩)
  | .orderBy input keys, inForm, _, _, writes, isElements => by
    simp only [Operator.written, Collecting.writes_bind] at writes
    obtain ⟨_, _, writes⟩ := writes
    exact Operation.stands input inForm (Collecting.writes_asElements.2 ⟨_, writes, isElements⟩)
  | .construct input template, _, _, _, writes, isElements => by
    simp only [Operator.written, Collecting.writes_bind] at writes
    obtain ⟨_, _, _, _, writes⟩ := writes
    cases Collecting.writes_pure.1 writes
    exact Lifted.stand_query isElements
  | .combine .join inputs, _, _, _, writes, isElements => by
    simp only [Operator.written, Collecting.writes_bind] at writes
    obtain ⟨parts, ofInputs, writes⟩ := writes
    cases Collecting.writes_pure.1 writes
    cases isElements
    have settled := Operation.allSettle inputs ofInputs
    exact ⟨settled.merged, Surface.Pattern.apart_mergeTriples _⟩
  | .combine .union inputs, _, _, _, writes, isElements => by
    simp only [Operator.written, Collecting.writes_bind] at writes
    obtain ⟨parts, ofInputs, writes⟩ := writes
    cases Collecting.writes_pure.1 writes
    cases isElements
    cases inputs with
    | nil =>
      rw [Operation.allElements] at ofInputs
      cases Collecting.writes_pure.1 ofInputs
      exact .nil
    | cons first rest =>
      simp only [Operation.allElements, Collecting.writes_bind] at ofInputs
      obtain ⟨elements, ofFirst, others, ofRest, writes⟩ := ofInputs
      cases Collecting.writes_pure.1 writes
      cases rest with
      | nil =>
        rw [Operation.allElements] at ofRest
        cases Collecting.writes_pure.1 ofRest
        refine .group fun free => ?_
        rw [Surface.Pattern.allGroupConditions_groupElements]
        exact (Operation.stands first _ ofFirst).conditions free
      | cons second tail =>
        simp only [Operation.allElements, Collecting.writes_bind] at ofRest
        obtain ⟨_, _, rest, _, writes⟩ := ofRest
        cases Collecting.writes_pure.1 writes
        exact Surface.Pattern.stand_union _ _ _
  | .combine .updates _, _, _, _, ⟨_, failure⟩, _ => by cases failure
  | .leftJoin left right condition, _, _, _, writes, isElements => by
    simp only [Operator.written, Collecting.writes_bind] at writes
    obtain ⟨elements, ofLeft, _, _, _, _, writes⟩ := writes
    cases Collecting.writes_pure.1 writes
    cases isElements
    exact .snoc (Operation.stands left _ ofLeft) rfl rfl
  | .minus left right, _, _, _, writes, isElements => by
    simp only [Operator.written, Collecting.writes_bind] at writes
    obtain ⟨elements, ofLeft, _, _, writes⟩ := writes
    cases Collecting.writes_pure.1 writes
    cases isElements
    exact .snoc (Operation.stands left _ ofLeft) rfl rfl
  | .deleteInsert .., _, _, _, ⟨_, failure⟩, _ => by cases failure

private theorem Operation.allSettle : ∀ (operations : List Operation)
    {parts : List (List Surface.Pattern)}, (Operation.allElements operations).Writes parts →
    Settled values (Operation.allOuterVariables operations) parts.flatten
  | [], _, writes => by
    rw [Operation.allElements] at writes
    cases Collecting.writes_pure.1 writes
    exact .nil
  | operation :: rest, _, writes => by
    simp only [Operation.allElements, Collecting.writes_bind] at writes
    obtain ⟨elements, ofFirst, others, ofRest, writes⟩ := writes
    cases Collecting.writes_pure.1 writes
    rw [List.flatten_cons]
    exact (Operation.stands operation _ ofFirst).toSettled.append
      (Operation.allSettle rest ofRest)

end

end

/-! ### Graph names -/

/-- A rebuilding that changes no variables that filters mention in their groups. -/
structure Rebuild.KeepsOuterVariables (change : Rebuild) : Prop where
  operation (operation : Operation) :
    (change.operation operation).outerVariables = operation.outerVariables
  expression (expression : Expression) :
    (change.expression expression).ownVariables = expression.ownVariables

section

variable {change : Rebuild}

mutual

theorem Expression.ownVariables_rebuild (keeps : change.KeepsOuterVariables) :
    ∀ expression : Expression, (expression.rebuild change).ownVariables = expression.ownVariables
  | .term _ | .wildcard | .aggregate .. | .existence .. => by
    rw [Expression.rebuild, keeps.expression] <;> rfl
  | .call callee arguments => by
    rw [Expression.rebuild, keeps.expression]
    exact Expression.allOwnVariables_rebuild keeps arguments

theorem Expression.allOwnVariables_rebuild (keeps : change.KeepsOuterVariables) :
    ∀ expressions : List Expression,
    Expression.allOwnVariables (Expression.rebuildAll change expressions)
      = Expression.allOwnVariables expressions
  | [] => rfl
  | expression :: rest => by
    rw [Expression.rebuildAll, Expression.allOwnVariables, Expression.allOwnVariables,
      Expression.ownVariables_rebuild keeps expression,
      Expression.allOwnVariables_rebuild keeps rest]

end

mutual

theorem Operation.outerVariables_rebuild (keeps : change.KeepsOuterVariables) :
    ∀ operation : Operation,
    (operation.rebuild change).outerVariables = operation.outerVariables
  | ⟨operator, metadata⟩ => by
    rw [Operation.rebuild]
    split
    · rfl
    · exact (keeps.operation _).trans (Operator.outerVariables_rebuild keeps operator)

private theorem Operator.outerVariables_rebuild (keeps : change.KeepsOuterVariables) :
    ∀ operator : Operator, (operator.rebuild change).outerVariables = operator.outerVariables
  | .filter input condition => by
    rw [Operator.rebuild, Operator.outerVariables, Operator.outerVariables,
      Operation.outerVariables_rebuild keeps input,
      Expression.ownVariables_rebuild keeps condition]
  | .extend input name value => by
    rw [Operator.rebuild]
    exact Operation.outerVariables_rebuild keeps input
  | .group input keys aggregates => by
    rw [Operator.rebuild]
    exact Operation.outerVariables_rebuild keeps input
  | .orderBy input keys => by
    rw [Operator.rebuild]
    exact Operation.outerVariables_rebuild keeps input
  | .combine .join inputs => by
    rw [Operator.rebuild]
    exact Operation.allOuterVariables_rebuild keeps inputs
  | .combine .union [input] => by
    rw [Operator.rebuild]
    exact Operation.outerVariables_rebuild keeps input
  | .leftJoin left right none => by
    rw [Operator.rebuild]
    exact Operation.outerVariables_rebuild keeps left
  | .leftJoin left right (some condition) => by
    rw [Operator.rebuild]
    exact Operation.outerVariables_rebuild keeps left
  | .minus left right => by
    rw [Operator.rebuild]
    exact Operation.outerVariables_rebuild keeps left
  | .wrap .. | .bgp _ | .values .. | .nop | .path .. | .manage _ | .construct ..
  | .combine .updates _ | .combine .union [] | .combine .union (_ :: _ :: _)
  | .deleteInsert _ _ none | .deleteInsert _ _ (some _) => by rw [Operator.rebuild] <;> rfl

private theorem Operation.allOuterVariables_rebuild (keeps : change.KeepsOuterVariables) :
    ∀ operations : List Operation,
    Operation.allOuterVariables (Operation.rebuildAll change operations)
      = Operation.allOuterVariables operations
  | [] => rfl
  | operation :: rest => by
    rw [Operation.rebuildAll, Operation.allOuterVariables, Operation.allOuterVariables,
      Operation.outerVariables_rebuild keeps operation,
      Operation.allOuterVariables_rebuild keeps rest]

end

end

namespace Operation

private theorem clearingBlocks_keepsOuterVariables : clearingBlocks.KeepsOuterVariables where
  operation operation := by
    obtain ⟨operator, metadata⟩ := operation
    cases operator with
    | wrap wrapper input => cases wrapper <;> rfl
    | _ => rfl
  expression _ := rfl

private theorem outerVariables_ofGraphPart (part : Term × List Pattern) :
    (ofGraphPart part).outerVariables = []
      ∧ parts .join (ofGraphPart part) = [ofGraphPart part] := by
  rw [ofGraphPart]
  split <;> exact ⟨rfl, rfl⟩

private theorem outerVariables_join_graphParts (given : List (Term × List Pattern)) :
    (join (given.map ofGraphPart)).outerVariables = [] := by
  show allOuterVariables ((given.map ofGraphPart).flatMap (parts .join)) = []
  induction given with
  | nil => rfl
  | cons part rest ih =>
    obtain ⟨first, itself⟩ := outerVariables_ofGraphPart part
    rw [List.map_cons, List.flatMap_cons, itself, List.singleton_append, allOuterVariables, first,
      ih]
    rfl

private theorem outerVariables_splitByGraph (patterns : List Pattern) :
    (Operator.splitByGraph patterns).outerVariables = [] := by
  rw [Operator.splitByGraph]
  split
  · rfl
  · split
    · rename_i part isOnly
      have nothing : part.outerVariables = [] := by
        obtain ⟨given, _, same⟩ := List.mem_map.1 (isOnly ▸ List.mem_singleton_self part)
        exact same ▸ (outerVariables_ofGraphPart given).1
      obtain ⟨operator, _⟩ := part
      exact nothing
    · exact outerVariables_join_graphParts _

private theorem wrapping_keepsOuterVariables : wrapping.KeepsOuterVariables where
  operation operation := by
    obtain ⟨operator, metadata⟩ := operation
    cases operator with
    | bgp patterns => exact outerVariables_splitByGraph patterns
    | path subject predicate object graph =>
      show Operation.outerVariables (if graph.isDefaultGraph = true then _ else _) = []
      split <;> rfl
    | _ => rfl
  expression _ := rfl

/-- Taking graph names out of an operation leaves the variables that its filters mention. -/
theorem outerVariables_withoutEmbeddedGraphs (operation : Operation) :
    operation.withoutEmbeddedGraphs.outerVariables = operation.outerVariables :=
  (outerVariables_rebuild wrapping_keepsOuterVariables _).trans
    (outerVariables_rebuild clearingBlocks_keepsOuterVariables operation)

theorem ownVariables_withoutEmbeddedGraphs (expression : Expression) :
    expression.withoutEmbeddedGraphs.ownVariables = expression.ownVariables :=
  (Expression.ownVariables_rebuild wrapping_keepsOuterVariables _).trans
    (Expression.ownVariables_rebuild clearingBlocks_keepsOuterVariables expression)

end Operation

end QueryAlgebra
