import QueryAlgebra.Proofs.Lowering.Translation
import QueryAlgebra.Proofs.Surface.PatternParts

/-! # Filters apply to their whole group

An expression that asks for no existence of solutions takes no names from the supply, and what
becomes of it does not depend on the supply. So a filter may stand anywhere among the elements of
its group: the filters of a group and its other elements become what they become on their own
(`Context.group_ok_iff`), and their order among each other does not matter
(`Context.group_filters_anywhere`).
-/

namespace QueryAlgebra

namespace Lowering

variable {α β : Type}

/-- A step that depends on the context alone: it takes no names, whatever the supply is. -/
def IsFixed (step : Lowering α) : Prop := ∃ result : Except LoweringError α, step = liftM result

namespace IsFixed

theorem lift (result : Except LoweringError α) : IsFixed (liftM result) := ⟨result, rfl⟩

theorem pure (value : α) : IsFixed (pure value) := ⟨.ok value, rfl⟩

theorem bind {step : Lowering α} {next : α → Lowering β} (first : IsFixed step)
    (goesOn : ∀ value, IsFixed (next value)) : IsFixed (step >>= next) := by
  obtain ⟨result, rfl⟩ := first
  cases result with
  | ok value => exact goesOn value
  | error error => exact ⟨.error error, rfl⟩

variable {step : Lowering α} {value : α} {supply after : NameSupply}

theorem supply_eq (fixed : IsFixed step) (success : step supply = .ok value after) :
    supply = after := by
  obtain ⟨result, rfl⟩ := fixed
  exact (of_lift_ok success).2

/-- What a fixed step gives from one supply it gives from every other. -/
theorem ok_of_ok (fixed : IsFixed step) (success : step supply = .ok value after)
    (other : NameSupply) : step other = .ok value other := by
  obtain ⟨result, rfl⟩ := fixed
  obtain ⟨rfl, -⟩ := of_lift_ok success
  rfl

end IsFixed

end Lowering

namespace Surface.Pattern

/-- The condition of a filter. -/
def condition? : Pattern → Option Expression
  | .filter condition _ => some condition
  | _ => none

/-- Two groups have the same filters in the same order and, in the same order, the same other
elements. -/
structure Interleaves (first second : List Pattern) : Prop where
  filters : first.filter isFilter = second.filter isFilter
  others : first.filter (!·.isFilter) = second.filter (!·.isFilter)

theorem condition?_eq_none_iff {element : Pattern} :
    element.condition? = none ↔ element.isFilter = false := by
  cases element <;> simp [condition?, isFilter]

theorem exists_of_isFilter {element : Pattern} (filter : element.isFilter = true) :
    ∃ condition span, element = .filter condition span := by
  cases element <;> first | exact ⟨_, _, rfl⟩ | cases filter

theorem filterMap_condition?_cons_filter (condition : Expression) (span : Span)
    (rest : List Pattern) :
    (Pattern.filter condition span :: rest).filterMap condition?
      = condition :: rest.filterMap condition? := rfl

/-- The conditions of a group are those of its filters. -/
theorem filterMap_condition?_filter (elements : List Pattern) :
    (elements.filter isFilter).filterMap condition? = elements.filterMap condition? := by
  induction elements with
  | nil => rfl
  | cons element rest ih =>
    rw [List.filterMap_cons, List.filter_cons]
    cases element <;> simp [isFilter, condition?, ih]

theorem filterMap_condition?_others (elements : List Pattern) :
    (elements.filter (!·.isFilter)).filterMap condition? = [] := by
  refine List.filterMap_eq_nil_iff.2 fun element member => condition?_eq_none_iff.2 ?_
  simpa using (List.mem_filter.1 member).2

end Surface.Pattern

namespace Context

open Lowering (IsFixed bind_ok_iff pure_ok_iff)

variable (context : Context)

mutual

/-- An expression without patterns becomes the same from every supply. -/
theorem isFixed_expression : ∀ {written : Surface.Expression}, written.within = [] →
    IsFixed (context.expression written)
  | .var _, _ => by
    rw [expression]
    exact .pure _
  | .iri _, _ => by
    rw [expression]
    exact .bind (.lift _) fun _ => .pure _
  | .literal _, _ => by
    rw [expression]
    exact .bind (.lift _) fun _ => .pure _
  | .binary _ left right, bare => by
    rw [Surface.Expression.within, List.append_eq_nil_iff] at bare
    rw [expression]
    exact .bind (isFixed_expression bare.1) fun _ =>
      .bind (isFixed_expression bare.2) fun _ => .pure _
  | .unary _ operand, bare => by
    rw [Surface.Expression.within] at bare
    rw [expression]
    exact .bind (isFixed_expression bare) fun _ => .pure _
  | .call _ arguments _, bare => by
    rw [Surface.Expression.within] at bare
    rw [expression]
    exact .bind (isFixed_expressions bare) fun _ => .bind (.lift _) fun _ => .pure _
  | .ifElse condition positive negative, bare => by
    rw [Surface.Expression.within, List.append_eq_nil_iff, List.append_eq_nil_iff] at bare
    rw [expression]
    exact .bind (isFixed_expression bare.1.1) fun _ => .bind (isFixed_expression bare.1.2) fun _ =>
      .bind (isFixed_expression bare.2) fun _ => .pure _
  | .coalesce arguments, bare => by
    rw [Surface.Expression.within] at bare
    rw [expression]
    exact .bind (isFixed_expressions bare) fun _ => .pure _
  | .among value choices _, bare => by
    rw [Surface.Expression.within, List.append_eq_nil_iff] at bare
    rw [expression]
    exact .bind (isFixed_expression bare.1) fun _ =>
      .bind (isFixed_expressions bare.2) fun _ => .pure _
  | .existence _ pattern, bare => by
    rw [Surface.Expression.within] at bare
    exact absurd bare pattern.within_ne_nil
  | .aggregate _ .none _ _, _ => by
    rw [expression]
    exact .pure _
  | .aggregate _ (some argument) _ _, bare => by
    rw [Surface.Expression.within] at bare
    rw [expression]
    exact .bind (isFixed_expression bare) fun _ => .pure _
  | .bracketed inner, bare => by
    rw [Surface.Expression.within] at bare
    rw [expression]
    exact isFixed_expression bare

theorem isFixed_expressions : ∀ {written : List Surface.Expression},
    Surface.Expression.withinAll written = [] → IsFixed (context.expressions written)
  | [], _ => by
    rw [expressions]
    exact .pure _
  | first :: rest, bare => by
    rw [Surface.Expression.withinAll, List.append_eq_nil_iff] at bare
    rw [expressions]
    exact .bind (isFixed_expression bare.1) fun _ =>
      .bind (isFixed_expressions bare.2) fun _ => .pure _

end

theorem isFixed_conditions {written : List Surface.Expression}
    (noExistence : ∀ condition ∈ written, condition.within = []) :
    IsFixed (context.expressions written) := by
  refine context.isFixed_expressions ?_
  induction written with
  | nil => rfl
  | cons condition rest ih =>
    rw [List.forall_mem_cons] at noExistence
    rw [Surface.Expression.withinAll, noExistence.1, ih noExistence.2, List.nil_append]

/-- The operation of an element after those treated so far, for an element that is no filter. -/
def joinedElement (element : Surface.Pattern) (operation : Operation) : Lowering Operation :=
  match element with
  | .optional pattern _ => do
    let right ← context.pattern pattern
    pure (leftJoinOf operation right)
  | .minus pattern _ => do
    let right ← context.pattern pattern
    pure (.of (.minus operation right))
  | .bind value name _ => do
    let value ← context.expression value
    pure (.of (.extend operation (context.var name) value))
  | element => do
    let right ← context.pattern element
    pure (simplifiedJoin operation right)

theorem elements_cons_of_not_filter {element : Surface.Pattern} (other : element.isFilter = false)
    (rest : List Surface.Pattern) (operation : Operation) (filters : List Expression) :
    context.elements (element :: rest) operation filters = (do
      let operation ← context.joinedElement element operation
      context.elements rest operation filters) := by
  cases element with
  | filter => cases other
  | _ => simp only [elements, joinedElement, bind_assoc, pure_bind]

variable {context} {elements rest : List Surface.Pattern} {supply after : NameSupply}
  {condition : Surface.Expression}

theorem expressions_cons_ok_iff {others : List Surface.Expression} {conditions : List Expression}
    (bare : condition.within = []) :
    context.expressions (condition :: others) supply = .ok conditions after
      ↔ ∃ value rest, conditions = value :: rest
        ∧ context.expression condition supply = .ok value supply
        ∧ context.expressions others supply = .ok rest after := by
  have fixed := context.isFixed_expression bare
  simp only [expressions, bind_ok_iff, pure_ok_iff]
  constructor
  · rintro ⟨value, between, ofFirst, rest, last, ofRest, rfl, rfl⟩
    obtain rfl := fixed.supply_eq ofFirst
    exact ⟨value, rest, rfl, ofFirst, ofRest⟩
  · rintro ⟨value, rest, rfl, ofFirst, ofRest⟩
    exact ⟨value, supply, ofFirst, rest, after, ofRest, rfl, rfl⟩

theorem elements_filter_ok_iff (bare : condition.within = []) {span : Surface.Span}
    {operation : Operation} {filters : List Expression} {result : Operation × List Expression} :
    context.elements (.filter condition span :: rest) operation filters supply = .ok result after
      ↔ ∃ value, context.expression condition supply = .ok value supply
        ∧ context.elements rest operation (filters ++ [value]) supply = .ok result after := by
  have fixed := context.isFixed_expression bare
  rw [Context.elements, bind_ok_iff]
  constructor
  · rintro ⟨value, between, ofFilter, ofRest⟩
    obtain rfl := fixed.supply_eq ofFilter
    exact ⟨value, ofFilter, ofRest⟩
  · rintro ⟨value, ofFilter, ofRest⟩
    exact ⟨value, supply, ofFilter, ofRest⟩

/-- The conditions and the other elements of a group do not influence each other. -/
theorem elements_ok_iff
    (noExistence : ∀ condition ∈ elements.filterMap Surface.Pattern.condition?,
      condition.within = [])
    {operation result : Operation} {filters all : List Expression} :
    context.elements elements operation filters supply = .ok (result, all) after
      ↔ ∃ conditions,
        context.expressions (elements.filterMap Surface.Pattern.condition?) supply
            = .ok conditions supply
          ∧ all = filters ++ conditions
          ∧ context.elements (elements.filter (!·.isFilter)) operation [] supply
            = .ok (result, []) after := by
  induction elements generalizing operation filters supply with
  | nil =>
    simp only [List.filterMap_nil, List.filter_nil, Context.elements, expressions, pure_ok_iff,
      Prod.mk.injEq]
    constructor
    · rintro ⟨⟨rfl, rfl⟩, rfl⟩
      exact ⟨[], ⟨rfl, trivial⟩, (List.append_nil _).symm, ⟨rfl, trivial⟩, rfl⟩
    · rintro ⟨conditions, ⟨rfl, -⟩, rfl, ⟨rfl, -⟩, rfl⟩
      exact ⟨⟨rfl, (List.append_nil _).symm⟩, rfl⟩
  | cons element rest ih =>
    cases isFilter : element.isFilter with
    | true =>
      obtain ⟨condition, span, rfl⟩ := Surface.Pattern.exists_of_isFilter isFilter
      rw [Surface.Pattern.filterMap_condition?_cons_filter, List.forall_mem_cons] at noExistence
      rw [Surface.Pattern.filterMap_condition?_cons_filter,
        List.filter_cons_of_neg (by simp [isFilter]), elements_filter_ok_iff noExistence.1]
      simp only [ih noExistence.2, expressions_cons_ok_iff noExistence.1]
      constructor
      · rintro ⟨value, ofFilter, conditions, ofConditions, rfl, ofOthers⟩
        exact ⟨value :: conditions, ⟨value, conditions, rfl, ofFilter, ofConditions⟩, by simp,
          ofOthers⟩
      · rintro ⟨_, ⟨value, conditions, rfl, ofFilter, ofConditions⟩, rfl, ofOthers⟩
        exact ⟨value, ofFilter, conditions, ofConditions, by simp, ofOthers⟩
    | false =>
      have isOther := Surface.Pattern.condition?_eq_none_iff.2 isFilter
      rw [List.filterMap_cons_none isOther] at noExistence ⊢
      have fixed := context.isFixed_conditions noExistence
      rw [List.filter_cons_of_pos (by simp [isFilter])]
      simp only [elements_cons_of_not_filter context isFilter, bind_ok_iff]
      constructor
      · rintro ⟨joined, between, ofFirst, ofRest⟩
        obtain ⟨conditions, ofConditions, rfl, ofOthers⟩ := (ih noExistence).1 ofRest
        exact ⟨conditions, fixed.ok_of_ok ofConditions supply, rfl, joined, between, ofFirst,
          ofOthers⟩
      · rintro ⟨conditions, ofConditions, rfl, joined, between, ofFirst, ofOthers⟩
        exact ⟨joined, between, ofFirst,
          (ih noExistence).2 ⟨conditions, fixed.ok_of_ok ofConditions between, rfl, ofOthers⟩⟩

/-- There are no filters after elements of which none is a filter. -/
theorem elements_others_ok {others : List Surface.Pattern} {operation result : Operation}
    {all : List Expression} (bare : others.filterMap Surface.Pattern.condition? = [])
    (success : context.elements others operation [] supply = .ok (result, all) after) :
    all = [] := by
  have noExistence : ∀ condition ∈ others.filterMap Surface.Pattern.condition?,
      condition.within = [] := by
    rw [bare]
    exact List.forall_mem_nil _
  obtain ⟨conditions, ofConditions, rfl, -⟩ := (elements_ok_iff noExistence).1 success
  rw [bare, expressions, pure_ok_iff] at ofConditions
  exact ofConditions.1.symm

/-- A group succeeds exactly if its filters and its other elements do, and the filters apply to the
operation of all other elements. -/
theorem group_ok_iff
    (noExistence : ∀ condition ∈ elements.filterMap Surface.Pattern.condition?,
      condition.within = []) {span : Surface.Span} {operation : Operation} :
    context.pattern (.group elements span) supply = .ok operation after
      ↔ ∃ conditions input,
        context.expressions (elements.filterMap Surface.Pattern.condition?) supply
            = .ok conditions supply
          ∧ context.pattern (.group (elements.filter (!·.isFilter)) span) supply = .ok input after
          ∧ operation = filtered input conditions := by
  simp only [pattern, bind_ok_iff, pure_ok_iff]
  constructor
  · rintro ⟨⟨result, all⟩, last, ofElements, rfl, rfl⟩
    obtain ⟨applied, ofConditions, isAll, ofOthers⟩ := (elements_ok_iff noExistence).1 ofElements
    rw [List.nil_append] at isAll
    rw [isAll]
    exact ⟨applied, result, ofConditions, ⟨(result, []), last, ofOthers, rfl, rfl⟩, rfl⟩
  · rintro ⟨applied, input, ofConditions, ⟨⟨result, all⟩, last, ofOthers, rfl, rfl⟩, rfl⟩
    obtain rfl := elements_others_ok (Surface.Pattern.filterMap_condition?_others _) ofOthers
    exact ⟨(result, applied), last,
      (elements_ok_iff noExistence).2 ⟨applied, ofConditions, rfl, ofOthers⟩, rfl, rfl⟩

/-- What is asked of the filters of a group is asked of those of every group interleaved with it. -/
private theorem within_eq_nil {first second : List Surface.Pattern}
    (interleaves : Surface.Pattern.Interleaves first second)
    (noExistence : ∀ condition span, .filter condition span ∈ first → condition.within = []) :
    first.filterMap Surface.Pattern.condition? = second.filterMap Surface.Pattern.condition?
      ∧ ∀ condition ∈ first.filterMap Surface.Pattern.condition?, condition.within = [] := by
  constructor
  · rw [← Surface.Pattern.filterMap_condition?_filter first, interleaves.filters,
      Surface.Pattern.filterMap_condition?_filter]
  · intro condition member
    obtain ⟨element, inFirst, isCondition⟩ := List.mem_filterMap.1 member
    cases element <;> cases isCondition
    exact noExistence _ _ inFirst

/-- **Filters apply to their whole group, wherever they stand in it.** -/
theorem group_filters_anywhere {first second : List Surface.Pattern}
    (interleaves : Surface.Pattern.Interleaves first second)
    (noExistence : ∀ condition span, .filter condition span ∈ first → condition.within = [])
    (span span' : Surface.Span) (supply : NameSupply) :
    (∀ operation after, context.pattern (.group first span) supply = .ok operation after
        ↔ context.pattern (.group second span') supply = .ok operation after)
      ∧ ∀ operation after, context.pattern (.group first span) supply = .ok operation after
        ↔ ∃ conditions input,
          context.expressions (first.filterMap Surface.Pattern.condition?) supply
              = .ok conditions supply
            ∧ context.pattern (.group (first.filter (!·.isFilter)) span) supply = .ok input after
            ∧ match conditions with
              | [] => operation = input
              | condition :: others => operation = .of (.filter input
                  (others.foldl (fun all next => .operator "&&" [all, next]) condition)) := by
  obtain ⟨sameConditions, noExistence⟩ := within_eq_nil interleaves noExistence
  constructor
  · intro operation after
    have anySpan :
        context.pattern (.group second span') = context.pattern (.group second span) := by
      rw [pattern, pattern]
    rw [anySpan, group_ok_iff noExistence, group_ok_iff (sameConditions ▸ noExistence),
      sameConditions, interleaves.others]
  · intro operation after
    rw [group_ok_iff noExistence]
    refine exists_congr fun conditions => exists_congr fun input => and_congr_right fun _ =>
      and_congr_right fun _ => ?_
    cases conditions <;> exact Iff.rfl

/-- The filter `FILTER(?name)`. -/
private def filterOn (name : String) : Surface.Pattern := .filter (.var ⟨name⟩) .none

/-- The triple `?x ?y []`. -/
private def someObject : Surface.Pattern :=
  .bgp [⟨.term (.var ⟨"x"⟩), .simple (.var ⟨"y"⟩), .term .anonymous⟩] .none

/-- `{ FILTER(?x) ?x ?y [] FILTER(?y) }` is the same as `{ ?x ?y [] FILTER(?x) FILTER(?y) }`. -/
theorem group_filters_anywhere_aroundTriple :
    Surface.Pattern.Interleaves [filterOn "x", someObject, filterOn "y"]
        [someObject, filterOn "x", filterOn "y"]
      ∧ (∀ condition span,
        .filter condition span ∈ [filterOn "x", someObject, filterOn "y"] → condition.within = [])
      ∧ (Context.ofOptions .plain {}).pattern
          (.group [filterOn "x", someObject, filterOn "y"] .none) ⟨["x", "y"], [], 0, 0⟩
        = .ok (.of (.filter
            (.bgp [⟨.var ⟨"x"⟩, .var ⟨"y"⟩, .blank ⟨"g_0"⟩, .defaultGraph⟩])
            (.operator "&&" [.var ⟨"x"⟩, .var ⟨"y"⟩]))) ⟨["x", "y"], ["g_0"], 0, 1⟩ := by
  have interleaves : Surface.Pattern.Interleaves [filterOn "x", someObject, filterOn "y"]
      [someObject, filterOn "x", filterOn "y"] := ⟨rfl, rfl⟩
  have noExistence : ∀ condition span,
      .filter condition span ∈ [filterOn "x", someObject, filterOn "y"] →
      condition.within = [] := by
    intro condition span member
    simp only [List.mem_cons, List.not_mem_nil, filterOn, someObject, or_false, reduceCtorEq,
      false_or, Surface.Pattern.filter.injEq] at member
    rcases member with ⟨rfl, -⟩ | ⟨rfl, -⟩ <;> rfl
  have newLabel : firstFree NameSupply.labelName [] 0 = 0 := by rw [firstFree, if_neg (by decide)]
  have filtersLast : ∀ index, firstFree NameSupply.labelName [] 0 = index →
      (Context.ofOptions .plain {}).pattern
          (.group [someObject, filterOn "x", filterOn "y"] .none) ⟨["x", "y"], [], 0, 0⟩
        = .ok (.of (.filter
            (.bgp [⟨.var ⟨"x"⟩, .var ⟨"y"⟩, .blank ⟨NameSupply.labelName index⟩, .defaultGraph⟩])
            (.operator "&&" [.var ⟨"x"⟩, .var ⟨"y"⟩])))
          ⟨["x", "y"], [NameSupply.labelName index], 0, index + 1⟩ := by
    rintro index rfl
    rfl
  refine ⟨interleaves, noExistence, ?_⟩
  rw [(group_filters_anywhere interleaves noExistence .none .none _).1]
  exact filtersLast 0 newLabel

end Context

end QueryAlgebra
