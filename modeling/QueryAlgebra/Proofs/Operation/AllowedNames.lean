import QueryAlgebra.Proofs.Operation.Renaming
import QueryAlgebra.Proofs.Operation.WellFormedness

/-! # The names in well-formed operations

All names in a well-formed operation are allowed, the labels of blank nodes in templates included.
-/

namespace QueryAlgebra

/-- What names the parts of an operation have, templates included. -/
def Gather.ofAllNames : Gather LocalName where
  closed _ := false
  pattern _ pattern := pattern.terms.flatMap Term.localNames
  expression expression := expression.ownTerms.flatMap Term.localNames
  operator operator := operator.ownTerms.flatMap Term.localNames

/-- All variables and labels of blank nodes in an operation. -/
def Operation.allNames (operation : Operation) : List LocalName := operation.gather .ofAllNames

section

variable {bounds : Bounds}

/-- All names of a list are allowed. -/
def Bounds.Allows (bounds : Bounds) (names : List LocalName) : Prop :=
  ∀ name ∈ names, bounds.name name

namespace Bounds.Allows

variable {first second : List LocalName}

@[simp] theorem nil : bounds.Allows [] := fun _ mem => absurd mem List.not_mem_nil

theorem append (ofFirst : bounds.Allows first) (ofSecond : bounds.Allows second) :
    bounds.Allows (first ++ second) := List.forall_mem_append.2 ⟨ofFirst, ofSecond⟩

theorem flatMap {α : Type} {members : List α} {namesOf : α → List LocalName}
    (all : ∀ member ∈ members, bounds.Allows (namesOf member)) :
    bounds.Allows (members.flatMap namesOf) := fun name mem => by
  obtain ⟨member, isMember, ofMember⟩ := List.mem_flatMap.1 mem
  exact all member isMember name ofMember

end Bounds.Allows

theorem Variable.IsAllowed.allows {name : Variable} (isAllowed : name.IsAllowed bounds) :
    bounds.Allows (Term.var name).localNames := by
  intro other mem
  obtain rfl : other = .var name.name := by simpa [Term.localNames, Term.nested] using mem
  exact isAllowed

theorem Variable.IsAllowed.all_allow {vars : List Variable}
    (areAllowed : ∀ name ∈ vars, name.IsAllowed bounds) :
    bounds.Allows ((vars.map Term.var).flatMap Term.localNames) := by
  refine .flatMap fun term member => ?_
  obtain ⟨name, inVars, rfl⟩ := List.mem_map.1 member
  exact (areAllowed name inVars).allows

theorem Term.IsName.allows {term : Term} (isName : term.IsName bounds) :
    bounds.Allows term.localNames := by
  cases term with
  | var name => exact Variable.IsAllowed.allows isName
  | iri => exact .nil
  | _ => cases isName

theorem Term.IsNode.allows {term : Term} (isNode : term.IsNode bounds) :
    bounds.Allows term.localNames := by
  induction term with
  | iri | literal => exact .nil
  | blank node =>
    intro name mem
    obtain rfl : name = .blank node.label := by simpa [localNames, nested] using mem
    exact isNode
  | var name => exact Variable.IsAllowed.allows isNode
  | defaultGraph => cases isNode
  | quad subject predicate object graph ihSubject _ ihObject _ =>
    obtain ⟨ofSubject, ofPredicate, ofObject, rfl⟩ := isNode
    rw [localNames_quad]
    exact (((ihSubject ofSubject).append ofPredicate.allows).append (ihObject ofObject)).append .nil

theorem Term.IsGraph.allows {graph : Term} (isGraph : graph.IsGraph bounds) :
    bounds.Allows graph.localNames := by
  rcases isGraph with rfl | ⟨-, isName⟩
  · exact .nil
  · exact isName.allows

theorem Term.IsValue.allows {term : Term} (isValue : term.IsValue bounds) :
    bounds.Allows term.localNames := by
  cases term with
  | var name => exact Variable.IsAllowed.allows isValue
  | iri | literal => exact .nil
  | _ => cases isValue

theorem Pattern.WellFormed.allows {pattern : Pattern} (wellFormed : pattern.WellFormed bounds) :
    bounds.Allows (pattern.terms.flatMap Term.localNames) :=
  wellFormed.subject.allows.append (wellFormed.predicate.allows.append
    (wellFormed.object.allows.append (wellFormed.graph.allows.append .nil)))

theorem Row.WellFormed.allows {row : Row} (wellFormed : row.WellFormed bounds) :
    bounds.Allows ((rowTerms row).flatMap Term.localNames) := by
  rw [rowTerms, List.flatMap_assoc]
  refine .flatMap fun entry member => ?_
  obtain ⟨column, cell⟩ := wellFormed entry member
  exact (show Variable.IsAllowed bounds ⟨entry.1⟩ from column).allows.append
    (cell.allows.append .nil)

mutual

/-- The names of a well-formed operation are allowed. -/
theorem Operation.WellFormed.allows {select : Bool} : ∀ operation : Operation,
    operation.WellFormed bounds select → bounds.Allows operation.allNames
  | ⟨operator, _⟩, wellFormed => Operator.WellFormed.allows operator wellFormed

theorem Operator.WellFormed.allows {select : Bool} : ∀ operator : Operator,
    operator.WellFormed bounds select →
    bounds.Allows (operator.gather .ofAllNames ++ operator.ownTerms.flatMap Term.localNames)
  | .bgp _, ⟨_, patterns⟩ =>
    .append (.flatMap fun pattern member => (patterns pattern member).allows) .nil
  | .values vars rows, ⟨_, ofVars, ofRows⟩ => by
    refine .append .nil ?_
    rw [Operator.ownTerms, List.flatMap_append, List.flatMap_assoc]
    exact (Variable.IsAllowed.all_allow ofVars).append
      (.flatMap fun row member => (ofRows row member).allows)
  | .path .., ⟨_, subject, _, object, graph⟩ =>
    .append .nil (subject.allows.append (object.allows.append (graph.allows.append .nil)))
  | .wrap (.project _) input, ⟨vars, wellFormed⟩ =>
    (Operation.WellFormed.allows input wellFormed).append (Variable.IsAllowed.all_allow vars)
  | .wrap (.graph _) input, ⟨_, name, wellFormed⟩ =>
    (Operation.WellFormed.allows input wellFormed).append (name.allows.append .nil)
  | .wrap (.service _ _) input, ⟨_, name, wellFormed⟩ =>
    (Operation.WellFormed.allows input wellFormed).append (name.allows.append .nil)
  | .wrap .distinct input, wellFormed => (Operation.WellFormed.allows input wellFormed).append .nil
  | .wrap .reduced input, wellFormed => (Operation.WellFormed.allows input wellFormed).append .nil
  | .wrap (.slice _ _) input, wellFormed =>
    (Operation.WellFormed.allows input wellFormed).append .nil
  | .wrap (.dataset _ _) input, ⟨_, wellFormed⟩ =>
    (Operation.WellFormed.allows input wellFormed).append .nil
  | .filter input condition, ⟨_, ofInput, ofCondition⟩ =>
    ((Operation.WellFormed.allows input ofInput).append
      (Expression.WellFormed.allows condition ofCondition)).append .nil
  | .extend input _ value, ⟨_, ofInput, ofName, ofValue⟩ =>
    ((Operation.WellFormed.allows input ofInput).append
      (Expression.WellFormed.allows value ofValue)).append (ofName.allows.append .nil)
  | .group input keys aggregates, ⟨_, ofInput, ofKeys, ofAggregates⟩ => by
    obtain ⟨expressions, names⟩ := BoundAggregate.allWellFormed.allow aggregates ofAggregates
    refine ((Operation.WellFormed.allows input ofInput).append expressions).append ?_
    rw [Operator.ownTerms, List.flatMap_append]
    exact (Variable.IsAllowed.all_allow ofKeys).append names
  | .orderBy input keys, ⟨_, ofInput, ofKeys⟩ =>
    ((Operation.WellFormed.allows input ofInput).append
      (Expression.allWellFormed.allow keys ofKeys)).append .nil
  | .combine .join inputs, ⟨_, ofInputs⟩ =>
    (Operation.allWellFormed.allow inputs ofInputs).append .nil
  | .combine .union inputs, ⟨_, ofInputs⟩ =>
    (Operation.allWellFormed.allow inputs ofInputs).append .nil
  | .leftJoin left right none, ⟨_, ofLeft, ofRight⟩ =>
    ((Operation.WellFormed.allows left ofLeft).append
      (Operation.WellFormed.allows right ofRight)).append .nil
  | .leftJoin left right (some condition), ⟨_, ofLeft, ofRight, ofCondition⟩ =>
    (((Operation.WellFormed.allows left ofLeft).append
      (Operation.WellFormed.allows right ofRight)).append
        (Expression.WellFormed.allows condition ofCondition)).append .nil
  | .minus left right, ⟨_, ofLeft, ofRight⟩ =>
    ((Operation.WellFormed.allows left ofLeft).append
      (Operation.WellFormed.allows right ofRight)).append .nil

theorem Expression.WellFormed.allows {key : Bool} : ∀ expression : Expression,
    expression.WellFormed bounds key → bounds.Allows (expression.gather .ofAllNames)
  | .term _, value => (Term.IsValue.allows value).append .nil
  | .call (.operator _) arguments, ⟨_, wellFormed⟩ =>
    (Expression.allWellFormed.allow arguments wellFormed).append .nil
  | .call (.function _) arguments, ⟨_, wellFormed⟩ =>
    (Expression.allWellFormed.allow arguments wellFormed).append .nil
  | .aggregate _ argument _ _, ⟨_, wellFormed⟩ => by
    refine .append ?_ .nil
    rcases wellFormed with wildcard | wellFormed
    · rw [wildcard]
      exact .nil
    · exact Expression.WellFormed.allows argument wellFormed
  | .existence _ input, wellFormed => (Operation.WellFormed.allows input wellFormed).append .nil

theorem Operation.allWellFormed.allow : ∀ operations : List Operation,
    Operation.allWellFormed bounds operations →
    bounds.Allows (Operation.gatherAll .ofAllNames operations)
  | [], _ => .nil
  | operation :: rest, ⟨first, others⟩ =>
    (Operation.WellFormed.allows operation first).append (Operation.allWellFormed.allow rest others)

theorem Expression.allWellFormed.allow {key : Bool} : ∀ expressions : List Expression,
    Expression.allWellFormed bounds key expressions →
    bounds.Allows (Expression.gatherAll .ofAllNames expressions)
  | [], _ => .nil
  | expression :: rest, ⟨first, others⟩ =>
    (Expression.WellFormed.allows expression first).append
      (Expression.allWellFormed.allow rest others)

theorem BoundAggregate.allWellFormed.allow : ∀ aggregates : List BoundAggregate,
    BoundAggregate.allWellFormed bounds aggregates →
    bounds.Allows (BoundAggregate.gatherAll .ofAllNames aggregates)
      ∧ bounds.Allows ((aggregates.map (Term.var ·.name)).flatMap Term.localNames)
  | [], _ => ⟨.nil, .nil⟩
  | ⟨_, expression⟩ :: rest, ⟨⟨name, wellFormed⟩, others⟩ => by
    obtain ⟨expressions, names⟩ := BoundAggregate.allWellFormed.allow rest others
    exact ⟨(Expression.WellFormed.allows expression wellFormed).append expressions,
      name.allows.append names⟩

end

namespace Operation

theorem IsScope.allows {operation : Operation} (isScope : operation.IsScope bounds) :
    bounds.Allows operation.allNames := by
  cases isScope with
  | pattern isPattern => exact WellFormed.allows _ isPattern
  | dataset metadata nodes isPattern => exact (WellFormed.allows _ isPattern).append .nil

theorem IsQuery.allows {operation : Operation} (isQuery : operation.IsQuery bounds) :
    bounds.Allows operation.allNames := by
  induction isQuery with
  | select wellFormed => exact WellFormed.allows _ wellFormed
  | ask metadata isPattern => exact (WellFormed.allows _ isPattern).append .nil
  | describe metadata terms isPattern =>
    exact (WellFormed.allows _ isPattern).append (.flatMap fun term member => (terms term member).allows)
  | construct metadata isPattern template =>
    exact ((WellFormed.allows _ isPattern).append
      (.flatMap fun pattern member => (template pattern member).allows)).append .nil
  | slice start length metadata _ ih => exact ih.append .nil
  | dataset metadata nodes _ ih => exact ih.append .nil

private theorem allows_template {template : Option (List Pattern)} (place : Place)
    (wellFormed : ∀ patterns ∈ template, ∀ pattern ∈ patterns, pattern.WellFormed bounds) :
    bounds.Allows ((template.getD []).flatMap (Gather.ofAllNames.pattern place)) := by
  cases template with
  | none => exact .nil
  | some patterns => exact .flatMap fun pattern member => (wellFormed _ rfl pattern member).allows

theorem IsUpdate.allows {operation : Operation} (isUpdate : operation.IsUpdate bounds) :
    bounds.Allows operation.allNames := by
  cases isUpdate with
  | graphs => exact .nil
  | @triples _ _ scope metadata graphs delete insert ofScope =>
    have templates := (allows_template .delete delete).append
      (allows_template .insert insert)
    cases scope with
    | none => exact templates.append .nil
    | some scope => exact (templates.append (ofScope scope rfl).allows).append .nil

/-- The names in the operation of a request are allowed. -/
theorem IsRequest.allows {operation : Operation} (isRequest : operation.IsRequest bounds) :
    bounds.Allows operation.allNames := by
  cases isRequest with
  | nothing => exact .nil
  | @updates inputs metadata areUpdates =>
    refine .append ?_ .nil
    show bounds.Allows (Operation.gatherAll .ofAllNames inputs)
    induction inputs with
    | nil => exact .nil
    | cons input rest ih =>
      rw [List.forall_mem_cons] at areUpdates
      exact areUpdates.1.allows.append (ih areUpdates.2)
  | update isUpdate => exact isUpdate.allows
  | query isQuery => exact isQuery.allows

end Operation

end

/-! ### Names other than those of templates -/

private theorem append_subset_append {first second more others : List LocalName}
    (ofFirst : first ⊆ more) (ofSecond : second ⊆ others) : first ++ second ⊆ more ++ others :=
  List.append_subset.2 ⟨List.Subset.trans ofFirst (List.subset_append_left ..),
    List.Subset.trans ofSecond (List.subset_append_right ..)⟩

private theorem template_subset (template : List Pattern) :
    template.flatMap (Gather.ofLocalNames.pattern .template)
      ⊆ template.flatMap (Gather.ofAllNames.pattern .template) := by
  intro name mem
  obtain ⟨pattern, member, isName⟩ := List.mem_flatMap.1 mem
  exact List.mem_flatMap.2 ⟨pattern, member, List.mem_of_mem_filter isName⟩

mutual

/-- All names of an operation include those that are not labels in templates. -/
theorem Operation.localNames_subset : ∀ operation : Operation,
    operation.localNames ⊆ operation.allNames
  | ⟨operator, _⟩ => append_subset_append (Operator.localNames_subset operator) (.refl _)

theorem Operator.localNames_subset : ∀ operator : Operator,
    operator.gather .ofLocalNames ⊆ operator.gather .ofAllNames
  | .bgp _ | .values .. | .nop | .path .. | .manage _ | .deleteInsert _ _ none => .refl _
  | .wrap _ input => Operation.localNames_subset input
  | .filter input condition =>
    append_subset_append (Operation.localNames_subset input)
      (Expression.localNames_subset condition)
  | .extend input _ value =>
    append_subset_append (Operation.localNames_subset input) (Expression.localNames_subset value)
  | .group input _ aggregates =>
    append_subset_append (Operation.localNames_subset input)
      (BoundAggregate.all_localNames_subset aggregates)
  | .orderBy input keys =>
    append_subset_append (Operation.localNames_subset input)
      (Expression.all_localNames_subset keys)
  | .construct input template =>
    append_subset_append (Operation.localNames_subset input) (template_subset template)
  | .combine _ inputs => Operation.all_localNames_subset inputs
  | .leftJoin left right none =>
    append_subset_append (Operation.localNames_subset left) (Operation.localNames_subset right)
  | .leftJoin left right (some condition) =>
    append_subset_append
      (append_subset_append (Operation.localNames_subset left) (Operation.localNames_subset right))
      (Expression.localNames_subset condition)
  | .minus left right =>
    append_subset_append (Operation.localNames_subset left) (Operation.localNames_subset right)
  | .deleteInsert _ _ (some scope) =>
    append_subset_append (.refl _) (Operation.localNames_subset scope)

theorem Expression.localNames_subset : ∀ expression : Expression,
    expression.gather .ofLocalNames ⊆ expression.gather .ofAllNames
  | .term _ | .wildcard => .refl _
  | .call _ arguments =>
    append_subset_append (Expression.all_localNames_subset arguments) (.refl _)
  | .aggregate _ argument _ _ =>
    append_subset_append (Expression.localNames_subset argument) (.refl _)
  | .existence _ input => append_subset_append (Operation.localNames_subset input) (.refl _)

theorem Operation.all_localNames_subset : ∀ operations : List Operation,
    Operation.gatherAll .ofLocalNames operations ⊆ Operation.gatherAll .ofAllNames operations
  | [] => .refl _
  | operation :: rest =>
    append_subset_append (Operation.localNames_subset operation)
      (Operation.all_localNames_subset rest)

theorem Expression.all_localNames_subset : ∀ expressions : List Expression,
    Expression.gatherAll .ofLocalNames expressions ⊆ Expression.gatherAll .ofAllNames expressions
  | [] => .refl _
  | expression :: rest =>
    append_subset_append (Expression.localNames_subset expression)
      (Expression.all_localNames_subset rest)

theorem BoundAggregate.all_localNames_subset : ∀ aggregates : List BoundAggregate,
    BoundAggregate.gatherAll .ofLocalNames aggregates
      ⊆ BoundAggregate.gatherAll .ofAllNames aggregates
  | [] => .refl _
  | ⟨_, expression⟩ :: rest =>
    append_subset_append (Expression.localNames_subset expression)
      (BoundAggregate.all_localNames_subset rest)

end

end QueryAlgebra
