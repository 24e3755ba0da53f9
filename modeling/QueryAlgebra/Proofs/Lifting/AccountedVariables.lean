import QueryAlgebra.Proofs.Lifting.BoundVariables
import QueryAlgebra.Proofs.Lifting.GrantedQueries
import QueryAlgebra.Proofs.Lifting.MeetingOperations
import QueryAlgebra.Proofs.Lifting.Rereading

/-! # Accounting for the variables that are bound

The variables that an operation binds are those that a star over what it is written as stands for,
together with those of what was found on the way to that. `Found.Accounts` says so, and it is kept
by whatever writing puts together.
-/

namespace QueryAlgebra

open Surface (Demands)
open Surface.Pattern (groupElements groupOf inScopeOfAll mergeTriples unionOf)

variable {demands : Demands}

/-- The variables that are bound are those of a scope and of what was found, which is granted to
meet demands. -/
structure Found.Accounts (demands : Demands) (onWay bound scope : List Variable)
    (found : List Found) : Prop where
  granted : Found.AllGranted demands onWay found
  listed : scope ⊆ bound
  complete : ∀ name ∈ bound, name ∈ scope ∨ name ∈ Found.names found

namespace Found

theorem names_append (first second : List Found) :
    names (first ++ second) = names first ++ names second := List.filterMap_append

namespace Accounts

variable {onWay bound scope : List Variable} {found : List Found}

theorem own (vars : List Variable) : Accounts demands onWay vars vars [] :=
  ⟨.nil, List.Subset.refl _, fun _ => .inl⟩

theorem append {more : List Found} {bound' scope' : List Variable}
    (first : Accounts demands onWay bound scope found)
    (second : Accounts demands onWay bound' scope' more) :
    Accounts demands onWay (bound ++ bound') (scope ++ scope') (found ++ more) where
  granted := first.granted.append second.granted
  listed := List.append_subset.2 ⟨List.subset_append_of_subset_left _ first.listed,
    List.subset_append_of_subset_right _ second.listed⟩
  complete name member := by
    rw [names_append, List.mem_append, List.mem_append]
    rcases List.mem_append.1 member with isFirst | isSecond
    · exact (first.complete name isFirst).imp .inl .inl
    · exact (second.complete name isSecond).imp .inr .inr

/-- What is found besides need not be about variables that are bound. -/
theorem besides {more : List Found} (accounts : Accounts demands onWay bound scope found)
    (granted : AllGranted demands onWay more) :
    Accounts demands onWay bound scope (found ++ more) where
  granted := accounts.granted.append granted
  listed := accounts.listed
  complete name member := (accounts.complete name member).imp_right fun isName => by
    rw [names_append]
    exact List.mem_append_left _ isName

theorem preceded {more : List Found} (accounts : Accounts demands onWay bound scope found)
    (granted : AllGranted demands onWay more) :
    Accounts demands onWay bound scope (more ++ found) where
  granted := granted.append accounts.granted
  listed := accounts.listed
  complete name member := (accounts.complete name member).imp_right fun isName => by
    rw [names_append]
    exact List.mem_append_right _ isName

/-- What is noted is bound. -/
theorem noted {notes : List Found} (accounts : Accounts demands onWay bound scope found)
    (granted : AllGranted demands onWay notes) :
    Accounts demands onWay (bound ++ names notes) scope (notes ++ found) where
  granted := granted.append accounts.granted
  listed := List.subset_append_of_subset_left _ accounts.listed
  complete name member := by
    rw [names_append, List.mem_append]
    rcases List.mem_append.1 member with isBound | isNoted
    · exact (accounts.complete name isBound).imp_right .inr
    · exact .inr (.inl isNoted)

/-- Variables that stand for themselves. -/
theorem and_own (accounts : Accounts demands onWay bound scope found) (vars : List Variable) :
    Accounts demands onWay (bound ++ vars) (scope ++ vars) found := by
  simpa using accounts.append (.own vars)

end Accounts

end Found

namespace Lifted

/-- What an operation is written as meets demands. -/
def Granted (demands : Demands) : Lifted → Prop
  | .elements patterns => ∀ pattern ∈ patterns, pattern.Meets demands true
  | .query asked => asked.Meets demands

/-- The variables that a star over what is written stands for. -/
def scope : Lifted → List Variable
  | .elements patterns => inScopeOfAll patterns
  | .query (.select asked) => asked.inScope
  | .query _ => []

/-- What is written meets demands and accounts for the variables that are bound. -/
def Fits (demands : Demands) (onWay bound : List Variable) (lifted : Lifted) (found : List Found) :
    Prop :=
  lifted.Granted demands ∧ Found.Accounts demands onWay bound lifted.scope found

end Lifted

theorem Lifted.scope_mapModifiers (f : Surface.Modifiers → Surface.Modifiers)
    (asked : Surface.Query) : (query (asked.mapModifiers f)).scope = (query asked).scope := by
  rcases asked with ⟨_, _ | _, _, _, _⟩ | _ | _ | _ <;> rfl

theorem Lifted.scope_withDataset (dataset : Surface.Dataset) (asked : Surface.Query) :
    (query (asked.withDataset dataset)).scope = (query asked).scope := by
  rcases asked with ⟨_, _ | _, _, _, _⟩ | _ | _ | _ <;> rfl

/-- Elements of a group meet demands and account for the variables that are bound. -/
def Surface.Pattern.AllFit (demands : Demands) (onWay bound : List Variable)
    (patterns : List Surface.Pattern) (found : List Found) : Prop :=
  (∀ pattern ∈ patterns, pattern.Meets demands true)
    ∧ Found.Accounts demands onWay bound (inScopeOfAll patterns) found

namespace Collecting.Grants

variable {α β : Type} {R : α → List Found → Prop} {T : β → List Found → Prop}
  {step : Collecting α} {onWay bound : List Variable} {lifted : Collecting Lifted}

theorem map {f : α → β} (first : Grants R step)
    (keeps : ∀ value found, R value found → T (f value) found) :
    Grants T (step >>= fun value => Pure.pure (f value)) :=
  first.bind fun value found holds => .pure (by
    rw [List.append_nil]
    exact keeps value found holds)

theorem asElements (fits : lifted.Grants (Lifted.Fits demands onWay bound)) :
    lifted.asElements.Grants (Surface.Pattern.AllFit demands onWay bound) := by
  refine fits.bind fun lifted found ⟨granted, accounts⟩ => ?_
  cases lifted with
  | elements patterns =>
    refine .lift (P := (· = patterns)) rfl fun value same => ?_
    subst same
    rw [List.append_nil]
    exact ⟨granted, accounts⟩
  | query asked =>
    cases asked with
    | select query =>
      refine .lift (P := (· = [Surface.Pattern.subquery query .none])) rfl fun value same => ?_
      subst same
      rw [List.append_nil]
      refine ⟨List.forall_mem_singleton.2 granted, ?_⟩
      rw [inScopeOfAll, Surface.Pattern.inScope, inScopeOfAll, List.append_nil]
      exact accounts
    | _ => trivial

theorem asQuery (modifier : String) (fits : lifted.Grants (Lifted.Fits demands onWay bound)) :
    (lifted.asQuery modifier).Grants
      fun asked => Lifted.Fits demands onWay bound (.query asked) := by
  refine fits.bind fun lifted found fits => ?_
  cases lifted with
  | elements => trivial
  | query asked =>
    refine .lift (P := (· = asked)) rfl fun value same => ?_
    subst same
    rwa [List.append_nil]

theorem asScope (fits : lifted.Grants (Lifted.Fits demands onWay bound)) :
    QueryAlgebra.Grants (fun scope => scope.Meets demands ∧ ∃ elements found,
      QueryScope.ofFound elements found = .ok scope
        ∧ Surface.Pattern.AllFit demands onWay bound elements found) lifted.asScope := by
  refine QueryAlgebra.Grants.bind fits.asElements fun (elements, found) fit => ?_
  refine (QueryScope.grants_ofFound fit.1 fit.2.granted.granted).with_source.imp ?_
  exact fun scope ⟨meets, made⟩ => ⟨meets, elements, found, made, fit⟩

/-- Leaving out repeated solutions. -/
theorem withDuplicates {step : Collecting Surface.Query} (duplicates : Surface.Duplicates)
    (modifier : String)
    (fits : step.Grants fun asked => Lifted.Fits demands onWay bound (.query asked)) :
    Grants (Lifted.Fits demands onWay bound) (do
      let query ← step
      let query ← query.withDuplicates duplicates modifier
      Pure.pure (.query query)) := by
  refine fits.bind fun asked found fits => ?_
  cases asked with
  | select query =>
    obtain ⟨_, projection, dataset, pattern, modifiers⟩ := query
    show Grants _ (Pure.pure _)
    refine .pure ?_
    rw [List.append_nil]
    cases projection <;> exact fits
  | _ => trivial

/-- Elements with optional ones, and filters that bind nothing among these. -/
theorem leftJoin {left right filters : Collecting (List Surface.Pattern)}
    {ofLeft ofRight : List Variable}
    (elements : left.Grants (Surface.Pattern.AllFit demands onWay ofLeft))
    (optional : right.Grants (Surface.Pattern.AllFit demands onWay ofRight))
    (conditions : filters.Grants fun filters found =>
      (∀ filter ∈ filters, Surface.Pattern.Meets demands true filter)
        ∧ inScopeOfAll filters = [] ∧ Found.AllGranted demands [] found) :
    Grants (Lifted.Fits demands onWay (ofLeft ++ ofRight)) (do
      let elements ← left
      let optional ← right
      let filters ← filters
      Pure.pure (.elements
        (elements ++ [.optional (.group (optional ++ filters) .none) .none]))) := by
  refine elements.bind fun elements found fit => ?_
  refine optional.bind fun optional more fit' => ?_
  refine conditions.map fun filters last ⟨meet, unbound, granted⟩ => ⟨?_, ?_⟩
  · refine List.forall_mem_append.2 ⟨fit.1, List.forall_mem_singleton.2 ⟨?_, ?_⟩⟩
    · intro alone
      cases alone
    · exact Surface.Pattern.allMeet_iff.2 (List.forall_mem_append.2 ⟨fit'.1, meet⟩)
  · have scope : inScopeOfAll (elements ++ [.optional (.group (optional ++ filters) .none) .none])
        = inScopeOfAll elements ++ inScopeOfAll optional := by
      simp [inScopeOfAll, Surface.Pattern.inScope, Context.inScopeOfAll_append, unbound]
    rw [Lifted.scope, scope, ← List.append_assoc]
    exact (fit.2.append fit'.2).besides granted.of_nil

/-- The value that is stored of an expression. -/
theorem stored {step : Collecting Surface.Expression}
    (grants : step.Grants (Surface.Expression.Granted demands)) :
    QueryAlgebra.Grants (fun written => written.1.Meets demands) step.outcome
      ∧ ∀ written, step.outcome = .ok written → ∀ found ∈ written.2, found.Granted demands := by
  unfold Grants at grants
  cases outcome : step.outcome with
  | error => exact ⟨trivial, nofun⟩
  | ok written =>
    rw [outcome] at grants
    exact ⟨grants.1, fun other same => Except.ok.inj same ▸ grants.2.granted⟩

end Collecting.Grants

/-! ### Parts of operations -/

namespace Found

open Collecting.Grants (stored)

theorem granted_allFound {aggregates : List BoundAggregate}
    (all : ∀ bound ∈ aggregates,
      bound.expression.written.Grants (Surface.Expression.Granted demands)) :
    AllGranted demands [] (BoundAggregate.allFound aggregates)
      ∧ names (BoundAggregate.allFound aggregates) = aggregates.map (·.name) := by
  induction aggregates with
  | nil =>
    rw [BoundAggregate.allFound]
    exact ⟨.nil, rfl⟩
  | cons bound rest ih =>
    rw [List.forall_mem_cons] at all
    obtain ⟨ofRest, same⟩ := ih all.2
    obtain ⟨meets, inside⟩ := stored all.1
    obtain ⟨name, expression⟩ := bound
    rw [BoundAggregate.allFound]
    refine ⟨⟨List.forall_mem_cons.2 ⟨.aggregate name meets inside, ofRest.granted⟩, ?_⟩,
      congrArg (name :: ·) same⟩
    intro other value member
    rcases List.mem_cons.1 member with isAggregate | inRest
    · cases isAggregate
    · exact ofRest.bound other value inRest

theorem granted_allOrderKeys {keys : List Expression}
    (all : ∀ key ∈ keys, key.keyValue.written.Grants (Surface.Expression.Granted demands)) :
    AllGranted demands [] (Expression.allOrderKeys keys) := by
  induction keys with
  | nil =>
    rw [Expression.allOrderKeys]
    exact .nil
  | cons key rest ih =>
    rw [List.forall_mem_cons] at all
    obtain ⟨meets, inside⟩ := stored all.1
    obtain ⟨direction, same⟩ := Expression.allOrderKeys_cons key rest
    rw [same]
    refine ⟨List.forall_mem_cons.2 ⟨.orderKey direction meets inside, (ih all.2).granted⟩, ?_⟩
    intro other value member
    rcases List.mem_cons.1 member with isKey | inRest
    · cases isKey
    · exact (ih all.2).bound other value inRest

theorem granted_groupKeys (keys : List Variable) :
    AllGranted demands [] (keys.map Found.groupKey) ∧ names (keys.map Found.groupKey) = keys := by
  refine ⟨⟨List.forall_mem_map.2 fun name _ => .groupKey name, fun name value member => ?_⟩, ?_⟩
  · obtain ⟨_, _, same⟩ := List.mem_map.1 member
    cases same
  · rw [names, List.filterMap_map]
    exact List.filterMap_some

end Found

theorem Surface.Pattern.inScopeOfAll_unionOf (patterns : List Surface.Pattern) :
    inScopeOfAll (unionOf patterns) = inScopeOfAll patterns := by
  have folded : ∀ (rest : List Surface.Pattern) (first : Surface.Pattern),
      (rest.foldl (fun left right => .union left right .none) first).inScope
        = first.inScope ++ inScopeOfAll rest := by
    intro rest
    induction rest with
    | nil => exact fun first => (List.append_nil _).symm
    | cons next rest ih =>
      intro first
      rw [List.foldl_cons, ih, inScope, inScopeOfAll, List.append_assoc]
  cases patterns with
  | nil => rfl
  | cons first rest =>
    rw [unionOf, inScopeOfAll, folded, inScopeOfAll, inScopeOfAll, List.append_nil]

theorem Row.admit_entries {vars : List Variable} {rows : List Row}
    (admits : demands.Admit (Operator.values vars rows).ownIris) :
    ∀ row ∈ rows, ∀ entry ∈ row.entries, demands.Admit entry.2.iris := by
  intro row isRow entry isEntry
  refine Demands.Admit.flatMap.1 admits entry.2 (List.mem_append_right _ ?_)
  exact List.mem_flatMap.2 ⟨row, isRow, List.mem_flatMap.2
    ⟨entry, isEntry, List.mem_cons_of_mem _ (List.mem_singleton_self _)⟩⟩

theorem Surface.Pattern.inScopeOfAll_flatten (parts : List (List Surface.Pattern)) :
    inScopeOfAll parts.flatten = parts.flatMap inScopeOfAll := by
  induction parts with
  | nil => rfl
  | cons part rest ih =>
    rw [List.flatten_cons, Context.inScopeOfAll_append, ih, List.flatMap_cons]

theorem Surface.Pattern.inScopeOfAll_map_groupOf (parts : List (List Surface.Pattern)) :
    inScopeOfAll (parts.map groupOf) = parts.flatMap inScopeOfAll := by
  induction parts with
  | nil => rfl
  | cons part rest ih =>
    rw [List.map_cons, inScopeOfAll, Context.inScope_groupOf, ih, List.flatMap_cons]

theorem Operation.grants_describeTarget (input : Operation) {terms : List Term}
    (admits : ∀ term ∈ terms, demands.Admit term.iris) :
    Grants (fun target => target.Meets demands) (input.describeTarget terms) := by
  rw [describeTarget]
  split
  · trivial
  · exact (Term.grants_allWrittenVarOrIri admits).bind fun _ meet => meet

theorem Expression.grants_allWritten {expressions : List Expression}
    (all : ∀ expression ∈ expressions,
      expression.written.Grants (Surface.Expression.Granted demands)) :
    (allWritten expressions).Grants fun values found =>
      (∀ value ∈ values, value.Meets demands) ∧ Found.AllGranted demands [] found := by
  induction expressions with
  | nil =>
    rw [allWritten]
    exact .pure ⟨List.forall_mem_nil _, .nil⟩
  | cons first rest ih =>
    rw [List.forall_mem_cons] at all
    rw [allWritten]
    refine all.1.bind fun value found granted => ?_
    exact (ih all.2).map fun others more ⟨meet, ofMore⟩ =>
      ⟨List.forall_mem_cons.2 ⟨granted.1, meet⟩, granted.2.append ofMore⟩

theorem Extensions.names_selectItems (aggregates : NameMap Surface.Expression)
    (vars : List Variable) (extensions : Extensions) :
    (extensions.selectItems aggregates vars).1.map Surface.SelectItem.name = vars := by
  induction vars generalizing extensions with
  | nil => rfl
  | cons name names ih =>
    rw [selectItems, List.map_cons, ih]
    refine congrArg (· :: names) ?_
    cases (take name extensions).1.or (aggregates.find? name.name) <;> rfl

namespace QueryScope

theorem inScope_of_items {scope : QueryScope} {all : Bool} {vars : List Variable}
    {items : List Surface.SelectItem} (shown : (scope.select all vars).projection = .items items) :
    (scope.select all vars).inScope = vars := by
  rw [select] at shown ⊢
  dsimp only at shown ⊢
  split at shown
  · cases shown
  · rename_i notStar
    rw [if_neg notStar]
    exact Extensions.names_selectItems _ vars _

/-- A query that is written as a star has only an order besides, and a star over its pattern stands
for what its input binds. -/
theorem exists_star {input : Operation} {vars : List Variable} {scope : QueryScope}
    {elements : List Surface.Pattern} {found : List Found}
    (source : (input.written true).asScope = .ok scope)
    (made : ofFound elements found = .ok scope)
    (accounts : Found.Accounts demands input.bound input.bound (inScopeOfAll elements) found)
    (star : (scope.select (input.shows vars) vars).projection = .all) :
    input.hasStar vars = true ∧ ∃ pattern orderBy, scope.select (input.shows vars) vars
        = ⟨.keep, .all, none, pattern, { Surface.Modifiers.none with orderBy }⟩
      ∧ ∀ name, name ∈ pattern.inScope ↔ name ∈ input.bound := by
  have isStar : input.hasStar vars = true := by
    rw [Operation.hasStar, source]
    simp only [star]
  have inVars : input.bound ⊆ vars := fun name member =>
    Operation.subset_of_shows (Operation.shows_of_hasStar isStar)
      (input.bound_subset_inScope member)
  obtain ⟨_, nothing, orderBy, query⟩ := of_star made
    (fun name value member => inVars (accounts.granted.bound name value member)) star
  refine ⟨isStar, _, orderBy, query, fun name => ?_⟩
  have scope : (groupOf (groupElements elements ++ [])).inScope = inScopeOfAll elements := by
    rw [List.append_nil, Context.inScope_groupOf]
    exact Context.inScope_groupOf elements
  rw [scope]
  refine ⟨fun member => accounts.listed member, fun member => ?_⟩
  refine (accounts.complete name member).resolve_right ?_
  rw [nothing]
  exact List.not_mem_nil

/-- What a query shows is what its projection binds. -/
theorem accounts_select {input : Operation} {vars : List Variable} {scope : QueryScope}
    {elements : List Surface.Pattern} {found : List Found}
    (source : (input.written true).asScope = .ok scope)
    (made : ofFound elements found = .ok scope)
    (accounts : Found.Accounts demands input.bound input.bound (inScopeOfAll elements) found)
    (onWay : List Variable) :
    Found.Accounts demands onWay (if input.hasStar vars then input.bound else vars)
      (scope.select (input.shows vars) vars).inScope [] := by
  cases shown : (scope.select (input.shows vars) vars).projection with
  | items items =>
    have notStar : input.hasStar vars = false := by
      rw [Operation.hasStar, source]
      simp only [shown]
    rw [notStar, inScope_of_items shown]
    exact .own vars
  | all =>
    obtain ⟨isStar, pattern, orderBy, query, same⟩ := exists_star source made accounts shown
    rw [isStar, query, Surface.Select.inScope, if_pos rfl]
    exact ⟨.nil, fun name => (same name).1, fun name member => .inl ((same name).2 member)⟩

end QueryScope

end QueryAlgebra
